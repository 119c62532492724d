import IcLaya.Fixtures
import IcLaya.HfTokenizer
import IcLaya.ModelPack
import IcLaya.Snapshots
import IcLaya.TokenJobs

/-!
# The decision engine canister (`decision-engine/src/lib.rs`)

The persistent state, stable memory, and four cells that an upgrade drops: tokenizer, builder,
model and token job. An update call answers and leaves a canister, or traps and is undone.
-/
namespace IcLaya
open Fallible PanickingCode PagedMemory CanisterCommon

structure Upload where
  manifest : List UInt8
  tokenizerLength : UInt64
  modelLength : UInt64
  received : UInt64
  special : SpecialTokens
  deriving DecidableEq

structure Persistent (F Digest : Type) [Hashing Digest] where
  owner : Principal
  engine : EngineState F Digest
  fixtureMode : Bool
  upload : Option Upload

/-- The code the canister links: readers, serializer, kernels, and the width of `usize`. -/
structure Linked (F Digest : Type) [Hashing Digest] where
  json : List UInt8 → Except String (Manifest F Digest)
  tokenizers : HfReader
  bincode : Bincode (Persistent F Digest)
  f32 : Kernels F Tensor
  q8 : Kernels F QTensor
  target : Target

/-- What the system says of a call: its caller and time, the balance of cycles, the pages it
grants, and the instruction counter at the start and at the end. -/
structure CallContext where
  caller : Principal
  time : UInt64
  balance : ℕ
  grants : ℕ → Bool
  start : UInt64
  stop : UInt64

structure Canister (F Digest : Type) [Hashing Digest] [Doubles F] where
  persistent : Persistent F Digest
  memory : Memory
  tokenizer : Option (TextTokenizer Digest)
  builder : Option (Builder F Digest)
  model : Option (LayaModel F Digest)
  inference : Option (TokenJob Digest)

/-- The reply and the canister it leaves; nothing where the call traps. -/
abbrev Answer (F Digest α : Type) [Hashing Digest] [Doubles F] :=
  Option (Result α × Canister F Digest)

/-- `LayaModel` as a backend. -/
def LayaModel.backend {F Digest : Type} [Doubles F] (m : LayaModel F Digest) :
    InferenceBackend Digest := ⟨m.bundle, m.backendKind, m.infer⟩

namespace Canister
variable {F Digest : Type} [Doubles F] [ByteDigest Digest] {α β : Type}
  (l : Linked F Digest) (msg : CallContext) (c : Canister F Digest)

/-- Code that changes nothing; the call goes on with what it returns. -/
def attempt (x : Code Error α) (f : α → Answer F Digest β) : Answer F Digest β :=
  match x with
  | .ok a => f a
  | .error (.raise e) => some (.error e, c)
  | .error .panic => none

/-- `persist_or_trap`: the state is kept together with its snapshot or not at all. -/
def commit (r : Result α) (p : Persistent F Digest) (m : Memory) : Answer F Digest α :=
  match save (D := Digest) l.bincode msg.grants p m with
  | .ok m => some (r, { c with persistent := p, memory := m })
  | .error _ => none

/-- A change of the persistent state; an error of it is committed too. -/
def mutate (f : Persistent F Digest → Memory → Code Error α × Persistent F Digest × Memory) :
    Answer F Digest α :=
  match f c.persistent c.memory with
  | (.ok a, p, m) => c.commit l msg (.ok a) p m
  | (.error (.raise e), p, m) => c.commit l msg (.error e) p m
  | (.error .panic, _, _) => none

def checkOwner : Result Unit := rejectIf (msg.caller ≠ c.persistent.owner) .unauthorized

def checkSchemaMapping (p : Persistent F Digest) (id : Digest) : Code Error Unit :=
  if p.fixtureMode then pure () else do
    let schema ← okOr p.engine.schemas[id]? (.raise .notFound)
    let upload ← okOr p.upload (.raise .transition)
    reject (hash upload.manifest ≠ p.engine.activeModel) .bindingMismatch
    let manifest ← Manifest.parse l.json upload.manifest
    let mapped ← unwrap manifest.primitiveToQtype[schema.schema.primitive.tag.toNat]?
    reject (schema.qtypeId ≠ mapped) .bindingMismatch

def init (owner : Principal) : Option (Canister F Digest) :=
  if owner = .anonymous ∨ owner = .managementCanister then none
  else
    let p : Persistent F Digest := ⟨owner, .new Hashing.zero, false, none⟩
    match save (D := Digest) l.bincode msg.grants p Memory.empty with
    | .ok m => some ⟨p, m, none, none, none, none⟩
    | .error _ => none

/-- `pre_upgrade` and `post_upgrade`: only what stable memory holds comes through. -/
def upgrade : Option (Canister F Digest) :=
  match save (D := Digest) l.bincode msg.grants c.persistent c.memory with
  | .ok m =>
    match restore (D := Digest) l.bincode l.target m with
    | .ok p => some ⟨p, m, none, none, none, none⟩
    | .error _ => none
  | .error _ => none

def allowCaller (caller : Principal) (perMinute : UInt32) : Answer F Digest Unit :=
  c.attempt (call (c.checkOwner msg)) fun _ => c.mutate l msg fun p m =>
    match p.engine.allowCaller caller perMinute with
    | .ok engine => (.ok (), { p with engine := engine }, m)
    | .error e => (.error (.raise e), p, m)

def enableSyntheticFixture : Answer F Digest Digest :=
  c.attempt (call (c.checkOwner msg)) fun _ => c.mutate l msg fun p m =>
    if p.upload.isSome then (.error (.raise .transition), p, m)
    else
      let engine := { p.engine with activeModel := Demo.fixtureBundle }
      (.ok Demo.fixtureBundle, { p with fixtureMode := true, engine := engine }, m)

def registerSchema (schema : Schema) (qtypeId : UInt32) :
    Answer F Digest (CompiledSchema Digest) :=
  c.attempt (do
    call (c.checkOwner msg)
    if c.persistent.fixtureMode then call (compile schema Demo.fixtureTokenizer qtypeId)
    else do
      let upload ← okOr c.persistent.upload (.raise .transition)
      let manifest ← Manifest.parse l.json upload.manifest
      let mapped ← unwrap manifest.primitiveToQtype[schema.primitive.tag.toNat]?
      reject (mapped ≠ qtypeId) .bindingMismatch
      let t ← okOr c.tokenizer (.raise (.modelUnavailable "warm-up required"))
      call (compile schema t qtypeId))
    fun compiled => c.mutate l msg fun p m =>
      match p.engine.register compiled with
      | .ok engine => (.ok compiled, { p with engine := engine }, m)
      | .error e => (.error (.raise e), p, m)

def registerCalibration (calibration : Calibration F Digest) : Answer F Digest Unit :=
  c.attempt (call (c.checkOwner msg)) fun _ => c.mutate l msg fun p m =>
    match p.engine.registerCalibration calibration msg.time with
    | .ok engine => (.ok (), { p with engine := engine }, m)
    | .error e => (.error (.raise e), p, m)

/-- The checks of `evaluate` before it takes the state. -/
def admitted (req : DecisionRequest Digest) : Code Error Unit := do
  reject (¬c.persistent.engine.callers.contains msg.caller) .unauthorized
  reject (req.state.isEmpty ∨ maxStateBytes < req.state.utf8ByteSize) .tooLong
  reject (msg.balance < 100000000000) .capacity
  checkSchemaMapping l c.persistent req.schemaHash

/-- The engine's part of `evaluate`, on the fixtures or on the loaded model. -/
def engineEvaluation (req : DecisionRequest Digest) : Evaluation F Digest :=
  let engine := c.persistent.engine
  if c.persistent.fixtureMode then
    engine.evaluate msg.caller req msg.time Demo.fixtureTokenizer Demo.fixtureBackend
  else
    match c.tokenizer, c.model with
    | some t, some m => engine.evaluate msg.caller req msg.time t m.backend
    | _, _ => ⟨.error (.modelUnavailable "checkpoint not warmed"), engine, none⟩

/-- The instructions spent on a new result, in the reply and in the cache. -/
def measured (req : DecisionRequest Digest) (ev : Evaluation F Digest) :
    Result (Receipt Digest) × EngineState F Digest :=
  let key := (msg.caller, req.evaluationId)
  if c.persistent.engine.cache.contains key then (ev.result, ev.state)
  else
    let result := ev.result.map fun r =>
      { r with measuredInstructions := CheckedWords.saturatingSub64 msg.stop msg.start }
    match ev.state.cache[key]? with
    | some entry =>
      (result, { ev.state with cache := ev.state.cache.insert key { entry with result := result } })
    | none => (result, ev.state)

def evaluate (req : DecisionRequest Digest) : Answer F Digest (Receipt Digest) :=
  c.attempt (c.admitted l msg req) fun _ => c.mutate l msg fun p m =>
    let (result, engine) := c.measured msg req (c.engineEvaluation msg req)
    (call result, { p with engine := engine }, m)

def beginUpload (manifest : List UInt8) (tokenizerLength : UInt64) (special : SpecialTokens) :
    Answer F Digest Digest :=
  c.attempt (do
    call (c.checkOwner msg)
    let m ← Manifest.parse l.json manifest
    reject (m.config.maskTokenId ≠ special.mask) .bindingMismatch
    reject (tokenizerLength = 0 ∨ maxTokenizer < tokenizerLength.toNat) .tooLong
    pure m)
    fun m =>
      let c := { c with inference := none, model := none, builder := none, tokenizer := none }
      c.mutate l msg fun p mem => (.ok (hash manifest), { p with
        fixtureMode := false
        upload := some ⟨manifest, tokenizerLength, m.totalBytes, 0, special⟩ }, mem)

def maxChunk : ℕ := 1024 * 1024

/-- A chunk: written behind what was received, or compared with what lies before. -/
def writeUpload (grants : ℕ → Bool) (offset : UInt64) (bytes : List UInt8) (u : Upload)
    (m : Memory) : Code Error (UInt64 × Upload × Memory) := do
  let stop ← okOr (checkedAdd .bits64 offset.toNat bytes.length) (.raise .tooLong)
  let total ← add .bits64 u.modelLength.toNat u.tokenizerLength.toNat
  reject (total < stop) .tooLong
  if offset < u.received then do
    reject (u.received.toNat < stop) .idConflict
    let old ← readBlob offset.toNat bytes.length m
    reject (old ≠ bytes) .idConflict
    pure (u.received, u, m)
  else do
    reject (offset ≠ u.received) .nonceGap
    let m ← writeChunk grants offset.toNat bytes m
    pure (UInt64.ofNat stop, { u with received := UInt64.ofNat stop }, m)

def uploadChunk (offset : UInt64) (bytes : List UInt8) : Answer F Digest UInt64 :=
  c.attempt (do
    call (c.checkOwner msg)
    reject (bytes = [] ∨ maxChunk < bytes.length) .tooLong)
    fun _ => c.mutate l msg fun p m =>
      match okOr p.upload (.raise .transition) >>= (writeUpload msg.grants offset bytes · m) with
      | .ok (n, u, m) => (.ok n, { p with upload := some u }, m)
      | .error e => (.error e, p, m)

def startWarmup : Answer F Digest UInt64 :=
  c.attempt (do
    call (c.checkOwner msg)
    let u ← okOr c.persistent.upload (.raise .transition)
    let total ← add .bits64 u.modelLength.toNat u.tokenizerLength.toNat
    reject (u.received.toNat ≠ total) .transition
    let builder ← Builder.new l.json u.manifest
    let bytes ← readBlob u.modelLength.toNat u.tokenizerLength.toNat c.memory
    reject (hash bytes ≠ builder.manifest.tokenizerSha256) .bindingMismatch
    let t ← call (HfTokenizer.fromBytes l.tokenizers bytes u.special)
    pure (builder, t))
    fun x => some (.ok (UInt64.ofNat x.1.manifest.tensors.length),
      { c with inference := none, model := none, tokenizer := some x.2, builder := some x.1 })

/-- The next tensor, read from stable memory into the builder. -/
def pushNext : Code Error (Builder F Digest) := do
  let b ← okOr c.builder (.raise .transition)
  match b.nextEntry with
  | some e => do
    let bytes ← readBlob e.offset.toNat e.length.toNat c.memory
    call (b.push l.target bytes)
  | none => pure b

def warmupNext : Answer F Digest Bool :=
  c.attempt (do
    call (c.checkOwner msg)
    c.pushNext l)
    fun b =>
      if b.nextEntry.isNone then
        let c := { c with builder := none }
        c.attempt (call (b.finish l.f32 l.q8)) fun model =>
          { c with model := some model }.mutate l msg fun p m =>
            (.ok true, { p with engine := { p.engine with activeModel := b.bundle } }, m)
      else some (.ok false, { c with builder := some b })

/-- `start_token_inference`; the id is a hash of candid data. -/
def startTokenInference (input : TokenInput) (id : Digest) :
    Answer F Digest (InferenceProgress Digest) :=
  c.attempt (call do
    c.checkOwner msg
    let m ← okOr c.model (.modelUnavailable "model is cold")
    TokenJob.create m input id (CheckedWords.saturatingSub64 msg.stop msg.start))
    fun job => some (.ok ⟨id, 0, job.total, none, job.instructions, job.instructions⟩,
      { c with inference := some job })

/-- `start_token_inference_batch`; the id and the fingerprint are hashes of candid data, `begun`
is the counter when the session has begun. -/
def startTokenInferenceBatch (input : TokenInput) (requestId id fingerprint : Digest)
    (maxSteps : UInt32) (begun : UInt64) : Answer F Digest (InferenceProgress Digest) :=
  c.attempt (call do
    c.checkOwner msg
    rejectIf (¬(1 ≤ maxSteps ∧ maxSteps ≤ 16)) (.invalid "max_steps must be 1..=16")
    let m ← okOr c.model (.modelUnavailable "model is cold")
    let replay ← match c.inference with
      | some j => j.replayStart requestId fingerprint
      | none => pure none
    match replay with
    | some result => pure (result, c.inference)
    | none => do
      let (job, result) ← TokenJob.createBatch m input id requestId fingerprint maxSteps
        (CheckedWords.saturatingSub64 begun msg.start) begun msg.stop
      pure (result, some job))
    fun x => some (.ok x.1, { c with inference := x.2 })

/-- `step_token_inference_batch`; one step is `step_token_inference`. -/
def advanceTokenJob (job : Digest) (expectedStep maxSteps : UInt32) :
    Answer F Digest (InferenceProgress Digest) :=
  c.attempt (call do
    c.checkOwner msg
    let j ← okOr c.inference .notFound
    let m ← okOr c.model (.modelUnavailable "model is cold")
    j.advance m job expectedStep maxSteps msg.start msg.stop)
    fun x => some (.ok x.2, { c with inference := some x.1 })

end Canister

/-- The calls that can change the canister, and an upgrade. -/
inductive UpdateCall (F Digest : Type)
  | upgrade
  | allowCaller (caller : Principal) (perMinute : UInt32)
  | enableSyntheticFixture
  | registerSchema (schema : Schema) (qtypeId : UInt32)
  | registerCalibration (calibration : Calibration F Digest)
  | evaluate (req : DecisionRequest Digest)
  | beginUpload (manifest : List UInt8) (tokenizerLength : UInt64) (special : SpecialTokens)
  | uploadChunk (offset : UInt64) (bytes : List UInt8)
  | startWarmup
  | warmupNext
  | startTokenInference (input : TokenInput) (id : Digest)
  | startTokenInferenceBatch (input : TokenInput) (requestId id fingerprint : Digest)
      (maxSteps : UInt32) (begun : UInt64)
  | advanceTokenJob (job : Digest) (expectedStep maxSteps : UInt32)

namespace Canister
variable {F Digest : Type} [Doubles F] [ByteDigest Digest] {α β : Type}
  (l : Linked F Digest) (msg : CallContext) (c : Canister F Digest)

/-- Whether a call succeeded, and the canister it leaves. -/
def settle (x : Answer F Digest α) : Answer F Digest Unit :=
  x.map fun y => (y.1.map fun _ => (), y.2)

def perform : UpdateCall F Digest → Answer F Digest Unit
  | .upgrade => (c.upgrade l msg).map fun c => (.ok (), c)
  | .allowCaller caller perMinute => c.allowCaller l msg caller perMinute
  | .enableSyntheticFixture => settle (c.enableSyntheticFixture l msg)
  | .registerSchema schema qtypeId => settle (c.registerSchema l msg schema qtypeId)
  | .registerCalibration calibration => c.registerCalibration l msg calibration
  | .evaluate req => settle (c.evaluate l msg req)
  | .beginUpload manifest tokenizerLength special =>
    settle (c.beginUpload l msg manifest tokenizerLength special)
  | .uploadChunk offset bytes => settle (c.uploadChunk l msg offset bytes)
  | .startWarmup => settle (c.startWarmup l msg)
  | .warmupNext => settle (c.warmupNext l msg)
  | .startTokenInference input id => settle (c.startTokenInference msg input id)
  | .startTokenInferenceBatch input requestId id fingerprint maxSteps begun =>
    settle (c.startTokenInferenceBatch msg input requestId id fingerprint maxSteps begun)
  | .advanceTokenJob job expectedStep maxSteps =>
    settle (c.advanceTokenJob msg job expectedStep maxSteps)

section Answers
variable {l msg c} {c' : Canister F Digest} {r : Result β} {x : Code Error α}

theorem attempt_eq_some {f : α → Answer F Digest β} {y : Result β × Canister F Digest} :
    c.attempt x f = some y ↔
      (∃ a, x = .ok a ∧ f a = some y) ∨ ∃ e, x = .error (.raise e) ∧ y = (.error e, c) := by
  match x with
  | .ok a => simp [attempt]
  | .error .panic => simp [attempt]
  | .error (.raise e) => simp [attempt, eq_comm]

theorem commit_eq_some {r r' : Result α} {p : Persistent F Digest} {m : Memory} :
    c.commit l msg r p m = some (r', c') ↔ r' = r ∧ ∃ m',
      save (D := Digest) l.bincode msg.grants p m = .ok m' ∧
        c' = { c with persistent := p, memory := m' } := by
  unfold commit
  split
  · next m' hm => simp [hm, eq_comm]
  · next e he => simp [he]

theorem mutate_eq_commit
    {f : Persistent F Digest → Memory → Code Error α × Persistent F Digest × Memory} {r : Result α}
    {p : Persistent F Digest} {m : Memory} (h : f c.persistent c.memory = (call r, p, m)) :
    c.mutate l msg f = c.commit l msg r p m := by
  unfold mutate
  rw [h]
  cases r <;> rfl

/-- A change that is kept leaves its state, and memory that holds the snapshot of it. -/
theorem mutate_eq_some
    {f : Persistent F Digest → Memory → Code Error α × Persistent F Digest × Memory} {r : Result α}
    (h : c.mutate l msg f = some (r, c')) : ∃ p m m', f c.persistent c.memory = (call r, p, m) ∧
      save (D := Digest) l.bincode msg.grants p m = .ok m' ∧
      c' = { c with persistent := p, memory := m' } := by
  unfold mutate at h
  split at h
  · next a p m hf =>
    obtain ⟨rfl, m', hsave, hc⟩ := commit_eq_some.mp h
    exact ⟨p, m, m', hf, hsave, hc⟩
  · next e p m hf =>
    obtain ⟨rfl, m', hsave, hc⟩ := commit_eq_some.mp h
    exact ⟨p, m, m', hf, hsave, hc⟩
  · cases h

theorem settle_eq_some {x : Answer F Digest α} {r : Result Unit} (h : settle x = some (r, c')) :
    ∃ r', x = some (r', c') ∧ (r.isOk = r'.isOk) := by
  obtain ⟨⟨r', c''⟩, hx, heq⟩ := Option.map_eq_some_iff.mp h
  cases heq
  refine ⟨r', hx, ?_⟩
  cases r' <;> rfl

end Answers
end Canister

end IcLaya
