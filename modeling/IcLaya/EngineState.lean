import IcLaya.DecisionMath
import IcLaya.OrderedMaps
import IcLaya.SchemaCompiler
import IcLaya.TransitionSystems

/-!
# The decision engine's state

Registered schemas and calibrations, the callers' quotas, and a cache of every evaluation that
reached the backend (`engine.rs`). A call of `evaluate` says what it asked the backend to infer.
-/
namespace IcLaya
open Std (ExtTreeMap)
open Fallible OrderedMaps TransitionSystems Doubles

/-- The bundle an inference runs on, and its unnormalized logits in marker order. -/
structure InferenceBackend (Digest : Type) where
  bundleId : Digest
  kind : BackendKind
  infer : TokenInput → Result (List UInt32)

structure Calibration (F Digest : Type) where
  id : Digest
  model : Digest
  schema : Digest
  tokenizer : Digest
  temperature : F
  expiresAtNs : UInt64
  holdoutHash : Digest
  sampleCount : UInt64
  testOnly : Bool

structure Cached (Digest : Type) where
  fingerprint : Digest
  result : Result (Receipt Digest)

structure CallerQuota where
  epoch : UInt64
  used : UInt32
  maxPerMinute : UInt32

variable {F Digest : Type} [Doubles F] [Hashing Digest]

namespace Calibration

def validate (c : Calibration F Digest) (now : UInt64) : Result Unit := do
  rejectIf (c.id = Hashing.zero ∨ c.holdoutHash = Hashing.zero ∨ c.sampleCount = 0) .uncalibrated
  rejectIf (c.expiresAtNs ≤ now) .uncalibrated
  rejectIf (¬isFinite c.temperature ∨ ¬temperatureInRange c.temperature) .numeric

/-- `==`, with the comparison of doubles on the temperature. -/
def same (a b : Calibration F Digest) : Bool :=
  decide (a.id = b.id ∧ a.model = b.model ∧ a.schema = b.schema ∧ a.tokenizer = b.tokenizer) &&
    eq a.temperature b.temperature &&
    decide (a.expiresAtNs = b.expiresAtNs ∧ a.holdoutHash = b.holdoutHash ∧
      a.sampleCount = b.sampleCount ∧ a.testOnly = b.testOnly)

end Calibration

structure EngineState (F Digest : Type) [Hashing Digest] where
  activeModel : Digest
  schemas : ExtTreeMap Digest (CompiledSchema Digest)
  calibrations : ExtTreeMap Digest (Calibration F Digest)
  callers : ExtTreeMap Principal CallerQuota
  cache : ExtTreeMap (Principal × Digest) (Cached Digest)
  maxCacheEntries : UInt32

/-- What a call of `evaluate` answers, the state it leaves, and what the backend was asked. -/
structure Evaluation (F Digest : Type) [Hashing Digest] where
  result : Result (Receipt Digest)
  state : EngineState F Digest
  invoked : Option TokenInput

namespace EngineState
variable (s : EngineState F Digest)

def new (model : Digest) : EngineState F Digest := ⟨model, ∅, ∅, ∅, ∅, 1024⟩

def allowCaller (p : Principal) (perMinute : UInt32) : Result (EngineState F Digest) := do
  rejectIf (p = .anonymous ∨ p = .managementCanister ∨ perMinute = 0 ∨ 1000 < perMinute)
    (.invalid "caller/quota")
  rejectIf (¬s.callers.contains p ∧ 64 ≤ s.callers.size) .capacity
  pure { s with callers := s.callers.insert p ⟨0, 0, perMinute⟩ }

def register (c : CompiledSchema Digest) : Result (EngineState F Digest) := do
  validateCompiled c
  match s.schemas[c.schemaHash]? with
  | some old => do
    rejectIf (old ≠ c) .idConflict
    pure s
  | none => do
    rejectIf (64 ≤ s.schemas.size) .capacity
    pure { s with schemas := s.schemas.insert c.schemaHash c }

def registerCalibration (c : Calibration F Digest) (now : UInt64) :
    Result (EngineState F Digest) := do
  c.validate now
  let schema ← okOr s.schemas[c.schema]? .notFound
  rejectIf (c.model ≠ s.activeModel ∨ c.tokenizer ≠ schema.tokenizerHash) .bindingMismatch
  match s.calibrations[c.id]? with
  | some old => do
    rejectIf (¬old.same c) .idConflict
    pure s
  | none => do
    rejectIf (128 ≤ s.calibrations.size) .capacity
    pure { s with calibrations := s.calibrations.insert c.id c }

/-- The temperature of the calibration a request names. -/
def temperature (req : DecisionRequest Digest) (now : UInt64) (schema : CompiledSchema Digest) :
    Result F :=
  match req.calibration with
  | none => pure (lit 1)
  | some id => do
    let c ← okOr s.calibrations[id]? .uncalibrated
    c.validate now
    rejectIf (c.model ≠ req.model ∨ c.schema ≠ req.schemaHash ∨
      c.tokenizer ≠ schema.tokenizerHash) .bindingMismatch
    rejectIf (c.expiresAtNs < req.expiresAtNs) .uncalibrated
    pure c.temperature

/-- The checks that `evaluate` makes before it looks at its cache. -/
def precheck (caller : Principal) (req : DecisionRequest Digest) (now : UInt64)
    (backend : InferenceBackend Digest) : Result (CompiledSchema Digest × F) := do
  rejectIf (¬s.callers.contains caller) .unauthorized
  rejectIf (maxStateBytes < req.state.utf8ByteSize ∨ req.state.isEmpty) .tooLong
  rejectIf (req.expiresAtNs ≤ now ∨ 600000000000 < req.expiresAtNs - now) .expired
  rejectIf (req.model ≠ s.activeModel ∨ backend.bundleId ≠ req.model) .bindingMismatch
  let schema ← okOr s.schemas[req.schemaHash]? .notFound
  let temp ← s.temperature req now schema
  pure (schema, temp)

/-- The checks between the cache and the quota. -/
def prepare (caller : Principal) (req : DecisionRequest Digest) (schema : CompiledSchema Digest)
    (tokenizer : TextTokenizer Digest) : Result (TokenInput × CallerQuota) := do
  rejectIf (s.maxCacheEntries.toNat ≤ s.cache.size) .capacity
  let input ← render schema tokenizer req.state
  let quota ← okOr s.callers[caller]? .unauthorized
  pure (input, quota)

def epochOf (now : UInt64) : UInt64 := now / 60000000000

/-- A quota at the start of an evaluation: a new minute starts from zero. -/
def renew (quota : CallerQuota) (now : UInt64) : CallerQuota :=
  if quota.epoch ≠ epochOf now then { quota with epoch := epochOf now, used := 0 } else quota

/-- The receipt of one inference. -/
def assess (req : DecisionRequest Digest) (schema : CompiledSchema Digest) (temp : F)
    (input : TokenInput) (backend : InferenceBackend Digest) : Result (Receipt Digest) := do
  let logits ← backend.infer input
  rejectIf (logits.length ≠ schema.schema.options.length) .bindingMismatch
  let d ← fromLogits logits temp
  let v ← value schema.schema d
  pure {
    stamp := {
      evaluationId := req.evaluationId
      schemaHash := req.schemaHash
      tokenizerHash := schema.tokenizerHash
      model := req.model
      calibration := req.calibration
      binding := req.binding
      stateHash := hash (asBytes req.state)
      profile := profile
      backend := backend.kind }
    outcome := .assessed v
    diagnostics := some d.diagnostics
    inputTokens := UInt32.ofNat input.inputIds.length
    measuredInstructions := 0 }

def evaluate (caller : Principal) (req : DecisionRequest Digest) (now : UInt64)
    (tokenizer : TextTokenizer Digest) (backend : InferenceBackend Digest) :
    Evaluation F Digest :=
  match s.precheck caller req now backend with
  | .error e => ⟨.error e, s, none⟩
  | .ok (schema, temp) =>
    match s.cache[(caller, req.evaluationId)]? with
    | some c => ⟨if c.fingerprint = req.digest then c.result else .error .idConflict, s, none⟩
    | none =>
      match s.prepare caller req schema tokenizer with
      | .error e => ⟨.error e, s, none⟩
      | .ok (input, quota) =>
        let quota := renew quota now
        let s := { s with callers := s.callers.insert caller quota }
        if quota.maxPerMinute ≤ quota.used then ⟨.error .capacity, s, none⟩
        else
          let quota := { quota with used := quota.used + 1 }
          let s := { s with callers := s.callers.insert caller quota }
          let result := assess req schema temp input backend
          -- failures are cached too
          let cache := s.cache.insert (caller, req.evaluationId) ⟨req.digest, result⟩
          ⟨result, { s with cache := cache }, some input⟩

/-- The quota after one more inference. -/
def spend (quota : CallerQuota) (now : UInt64) : CallerQuota :=
  { renew quota now with used := (renew quota now).used + 1 }

/-- The state after an inference: its result is cached under the caller and the request's id. -/
def record (caller : Principal) (req : DecisionRequest Digest) (quota : CallerQuota)
    (result : Result (Receipt Digest)) : EngineState F Digest :=
  { s with
    callers := s.callers.insert caller quota
    cache := s.cache.insert (caller, req.evaluationId) ⟨req.digest, result⟩ }

section Evaluate
variable {s} {caller : Principal} {req : DecisionRequest Digest} {now : UInt64}
  {tokenizer : TextTokenizer Digest} {backend : InferenceBackend Digest}
  {schema : CompiledSchema Digest} {temp : F} {input : TokenInput} {quota : CallerQuota}

/-- What holds where an evaluation gets as far as the backend. -/
structure Reaches (s : EngineState F Digest) (caller : Principal) (req : DecisionRequest Digest)
    (now : UInt64) (tokenizer : TextTokenizer Digest) (backend : InferenceBackend Digest)
    (schema : CompiledSchema Digest) (temp : F) (input : TokenInput) (quota : CallerQuota) :
    Prop where
  checked : s.precheck caller req now backend = .ok (schema, temp)
  uncached : s.cache[(caller, req.evaluationId)]? = none
  prepared : s.prepare caller req schema tokenizer = .ok (input, quota)
  free : (renew quota now).used < (renew quota now).maxPerMinute

theorem precheck_eq_ok (h : s.precheck caller req now backend = .ok (schema, temp)) :
    s.callers.contains caller ∧ req.state.utf8ByteSize ≤ maxStateBytes ∧
      req.model = s.activeModel ∧ backend.bundleId = req.model ∧
      s.schemas[req.schemaHash]? = some schema := by
  simp only [precheck, bind_eq_ok, rejectIf_eq_ok, okOr_eq_ok, pure_eq_ok, not_or, not_not,
    not_lt] at h
  obtain ⟨-, hcaller, -, ⟨hsize, -⟩, -, -, -, ⟨hmodel, hbundle⟩, c, hschema, t, -, heq⟩ := h
  cases heq
  exact ⟨hcaller, hsize, hmodel, hbundle, hschema⟩

omit [Doubles F] in
theorem prepare_eq_ok (h : s.prepare caller req schema tokenizer = .ok (input, quota)) :
    render schema tokenizer req.state = .ok input ∧ s.callers[caller]? = some quota := by
  simp only [prepare, bind_eq_ok, rejectIf_eq_ok, okOr_eq_ok, pure_eq_ok] at h
  obtain ⟨-, -, i, hrender, q, hquota, heq⟩ := h
  cases heq
  exact ⟨hrender, hquota⟩

theorem renew_maxPerMinute : (renew quota now).maxPerMinute = quota.maxPerMinute := by
  unfold renew
  split <;> rfl

theorem renew_epoch : (renew quota now).epoch = epochOf now := by
  unfold renew
  split
  · rfl
  · next h => exact not_not.mp h

/-- A quota of at least one is never used up at the start of a minute. -/
theorem renew_of_full (hmax : 0 < quota.maxPerMinute)
    (h : (renew quota now).maxPerMinute ≤ (renew quota now).used) : renew quota now = quota := by
  rw [renew_maxPerMinute] at h
  unfold renew at h ⊢
  split at h
  · exact absurd hmax (UInt32.not_lt.mpr h)
  · next he => exact if_neg he

theorem evaluate_reached
    (h : s.Reaches caller req now tokenizer backend schema temp input quota) :
    s.evaluate caller req now tokenizer backend = ⟨assess req schema temp input backend,
      s.record caller req (spend quota now) (assess req schema temp input backend),
      some input⟩ := by
  simp only [evaluate, h.checked, h.uncached, h.prepared, if_neg (UInt32.not_le.mpr h.free),
    insert_insert]
  rfl

/-- An evaluation reaches the backend, or leaves the state as it was and answers from the cache
or with an error. -/
theorem evaluate_cases (hmax : ∀ q, s.callers[caller]? = some q → 0 < q.maxPerMinute) :
    (∃ schema temp input quota,
      s.Reaches caller req now tokenizer backend schema temp input quota) ∨
    ((s.evaluate caller req now tokenizer backend).invoked = none ∧
      (s.evaluate caller req now tokenizer backend).state = s ∧
      ∀ c, s.cache[(caller, req.evaluationId)]? = some c →
        (∃ e, s.precheck caller req now backend = .error e ∧
          (s.evaluate caller req now tokenizer backend).result = .error e) ∨
        (∃ x, s.precheck caller req now backend = .ok x) ∧
          (s.evaluate caller req now tokenizer backend).result =
            if c.fingerprint = req.digest then c.result else .error .idConflict) := by
  cases hcheck : s.precheck caller req now backend with
  | error e =>
    refine .inr ⟨?_, ?_, fun c _ => .inl ⟨e, rfl, ?_⟩⟩ <;> simp only [evaluate, hcheck]
  | ok x =>
    obtain ⟨schema, temp⟩ := x
    cases hcache : s.cache[(caller, req.evaluationId)]? with
    | some c =>
      refine .inr ⟨?_, ?_, fun c' hc' => .inr ⟨⟨_, rfl⟩, ?_⟩⟩ <;>
        simp only [evaluate, hcheck, hcache]
      rw [Option.some.inj hc']
    | none =>
      cases hprepare : s.prepare caller req schema tokenizer with
      | error e =>
        refine .inr ⟨?_, ?_, fun c hc => (nomatch hc)⟩ <;>
          simp only [evaluate, hcheck, hcache, hprepare]
      | ok x =>
        obtain ⟨input, quota⟩ := x
        by_cases hfull : (renew quota now).maxPerMinute ≤ (renew quota now).used
        · have hquota := (prepare_eq_ok hprepare).2
          have hrenew := renew_of_full (hmax quota hquota) hfull
          rw [hrenew] at hfull
          refine .inr ⟨?_, ?_, fun c hc => (nomatch hc)⟩ <;>
            simp only [evaluate, hcheck, hcache, hprepare, hrenew, if_pos hfull,
              insert_get _ hquota]
        · exact .inl ⟨schema, temp, input, quota, hcheck, hcache, hprepare,
            UInt32.not_le.mp hfull⟩

end Evaluate

end EngineState

end IcLaya
