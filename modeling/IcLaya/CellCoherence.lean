import IcLaya.Fixtures
import IcLaya.Warmup

/-!
# Coherence of the cells

Different calls set the persistent state, the tokenizer, the builder, the model and the token job,
and an upgrade drops all but the first. Whatever the order of calls, a loaded model comes from the
uploaded manifest and the active model is its bundle; so does the tokenizer, and a token job runs
on the bundle that it was begun on.
-/
namespace IcLaya
open Std (ExtTreeMap)
open Fallible OrderedMaps PanickingCode PagedMemory CanisterCommon TransitionSystems

variable {F Digest : Type} [Doubles F] {α β : Type}

section Engine
variable [Hashing Digest] {s s' : EngineState F Digest} {caller : Principal}

namespace EngineState

omit [Doubles F] in
theorem allowCaller_activeModel {n : UInt32} (h : s.allowCaller caller n = .ok s') :
    s'.activeModel = s.activeModel := by
  simp only [allowCaller, bind_eq_ok, pure_eq_ok] at h
  obtain ⟨-, -, -, -, rfl⟩ := h
  rfl

omit [Doubles F] in
theorem register_activeModel {schema : CompiledSchema Digest} (h : s.register schema = .ok s') :
    s'.activeModel = s.activeModel := by
  simp only [register, bind_eq_ok] at h
  obtain ⟨-, -, h⟩ := h
  split at h
  · simp only [bind_eq_ok, pure_eq_ok] at h
    obtain ⟨-, -, rfl⟩ := h
    rfl
  · simp only [bind_eq_ok, pure_eq_ok] at h
    obtain ⟨-, -, rfl⟩ := h
    rfl

theorem registerCalibration_activeModel {calibration : Calibration F Digest} {now : UInt64}
    (h : s.registerCalibration calibration now = .ok s') : s'.activeModel = s.activeModel := by
  simp only [registerCalibration, bind_eq_ok] at h
  obtain ⟨-, -, schema, -, -, -, h⟩ := h
  split at h
  · simp only [bind_eq_ok, pure_eq_ok] at h
    obtain ⟨-, -, rfl⟩ := h
    rfl
  · simp only [bind_eq_ok, pure_eq_ok] at h
    obtain ⟨-, -, rfl⟩ := h
    rfl

theorem evaluate_activeModel {req : DecisionRequest Digest} {now : UInt64}
    {tokenizer : TextTokenizer Digest} {backend : InferenceBackend Digest} :
    (s.evaluate caller req now tokenizer backend).state.activeModel = s.activeModel := by
  unfold evaluate
  split
  · rfl
  · split
    · rfl
    · split
      · rfl
      · dsimp only
        split <;> rfl

/-- What an evaluation has checked where it reaches the backend. -/
theorem reaches_of_invoked {req : DecisionRequest Digest} {now : UInt64}
    {tokenizer : TextTokenizer Digest} {backend : InferenceBackend Digest} {input : TokenInput}
    (h : (s.evaluate caller req now tokenizer backend).invoked = some input) :
    ∃ schema temp quota, s.precheck caller req now backend = .ok (schema, temp) ∧
      s.prepare caller req schema tokenizer = .ok (input, quota) := by
  unfold evaluate at h
  split at h
  · cases h
  · next schema temp hcheck =>
    split at h
    · cases h
    · split at h
      · cases h
      · next input' quota hprepare =>
        dsimp only at h
        split at h
        · cases h
        · cases h
          exact ⟨schema, temp, quota, hcheck, hprepare⟩

end EngineState
end Engine

section Packs
variable [Hashing Digest] {t : Target}

/-- Every weight was decoded from bytes with the hash that the manifest lists for its name. -/
def Hashed (t : Target) (man : Manifest F Digest) (weights : Weights) : Prop :=
  ∀ (name : String) (w : Weight), weights[name]? = some w → ∃ e ∈ man.tensors, e.name = name ∧
    ∃ bytes, bytes.length = e.length.toNat ∧ hash bytes = e.sha256 ∧
      Builder.weightOf t e bytes = .ok w

namespace Builder
variable {b b' : Builder F Digest} {bytes : List UInt8}

omit [Doubles F] in
theorem Hashed.push (hb : Hashed t b.manifest b.tensors) (h : b.push t bytes = .ok b') :
    Hashed t b'.manifest b'.tensors ∧ b'.manifest = b.manifest ∧ b'.bundle = b.bundle := by
  obtain ⟨e, w, he, hlength, hhash, hw, rfl⟩ := push_eq_ok h
  refine ⟨fun name w' hget => ?_, rfl, rfl⟩
  rw [get_insert] at hget
  split at hget
  · next hname =>
    cases Option.some.inj hget
    exact ⟨e, List.mem_of_getElem? he, hname.symm, bytes, hlength, hhash, hw⟩
  · exact hb name w' hget

end Builder

omit [Hashing Digest] in
/-- The fields of a model that was assembled. -/
theorem fromWeights_eq_ok {k : Kernels F Tensor} {q : Kernels F QTensor} {config : ModelConfig F}
    {bundle : Digest} {kind : BackendKind} {weights : Weights} {m : LayaModel F Digest}
    (h : fromWeights k q config bundle kind weights = .ok m) :
    m.bundle = bundle ∧ m.config = config ∧ ∃ e n, m.f32.embed = k.embed e n := by
  simp only [fromWeights, bind_eq_ok] at h
  obtain ⟨expected, -, -, -, -, -, h⟩ := h
  split at h
  · cases h
  · cases h
  · simp only [bind_eq_ok] at h
    obtain ⟨embedding, -, embeddingNorm, -, finalNorm, -, qtype, -, scorerNorm, -, scorerDense, -,
      scorerOut, -, h⟩ := h
    split at h
    · cases h
      exact ⟨rfl, rfl, embedding, embeddingNorm, rfl⟩
    · cases h

end Packs

namespace TokenJob
variable [DecidableEq Digest] {j j' : TokenJob Digest} {m : LayaModel F Digest}
  {input : TokenInput} {id : Digest} {p : InferenceProgress Digest}

omit [DecidableEq Digest] in
theorem bundle_of_create {instructions : UInt64} (h : create m input id instructions = .ok j) :
    j.session.bundle = m.bundle := by
  simp only [create, bind_eq_ok, pure_eq_ok] at h
  obtain ⟨session, hbegin, rfl⟩ := h
  rw [(LayaModel.start_eq_ok.mp hbegin).2.2]

/-- A job that moves on was begun on the bundle of the model, and stays on it. -/
theorem bundle_of_advance {job : Digest} {e w : UInt32} {start stop : UInt64}
    (h : j.advance m job e w start stop = .ok (j', p)) : j'.session.bundle = j.session.bundle := by
  obtain ⟨⟨hpos, -⟩, -, hcase⟩ := advance_eq_ok.mp h
  rcases hcase with ⟨-, -, rfl⟩ | ⟨-, -, hlt, session, logits, htimes, -, rfl⟩
  · rfl
  · have hwidth : 0 < (min w (j.total - e)).toNat := by
      rw [toNat_width hlt]
      rw [UInt32.lt_iff_toNat_lt] at hlt
      rw [UInt32.le_iff_toNat_le] at hpos
      have hone : (1 : UInt32).toNat = 1 := rfl
      omega
    obtain ⟨-, -, -, hs, -⟩ := (Phases.times_step_eq_ok hwidth).mp htimes
    rw [hs]

theorem bundle_of_createBatch {requestId fingerprint : Digest} {maxSteps : UInt32}
    {instructions start stop : UInt64}
    (h : createBatch m input id requestId fingerprint maxSteps instructions start stop =
      .ok (j, p)) : j.session.bundle = m.bundle := by
  simp only [createBatch, bind_eq_ok, pure_eq_ok] at h
  obtain ⟨j₀, hcreate, ⟨j₁, p₁⟩, hadvance, heq⟩ := h
  cases heq
  exact (bundle_of_advance hadvance).trans (bundle_of_create hcreate)

end TokenJob

namespace Canister
variable [ByteDigest Digest] {l : Linked F Digest} {msg : CallContext} {c c' : Canister F Digest}
  {g : Option Digest}

/-- The text of the uploaded manifest. -/
def manifest (c : Canister F Digest) : Option (List UInt8) :=
  c.persistent.upload.map Upload.manifest

/-- The bundle on which the token job was begun, after one more call that answered. -/
def begunOn (c : Canister F Digest) (call : UpdateCall F Digest) (r : Result Unit)
    (g : Option Digest) : Option Digest :=
  match call, r with
  | .startTokenInference .., .ok _ => c.model.map LayaModel.bundle
  | .startTokenInferenceBatch _ requestId _ fingerprint _ _, .ok _ =>
    -- a replay answers for the job that is there
    match c.inference.map fun j => j.replayStart requestId fingerprint with
    | some (Except.ok (some _)) => g
    | _ => c.model.map LayaModel.bundle
  | _, _ => g

/-- A call on a canister beside the bundle its token job was begun on. -/
def observeJob (l : Linked F Digest) (s : Canister F Digest × Option Digest)
    (x : CallContext × UpdateCall F Digest) : Canister F Digest × Option Digest :=
  match s.1.perform l x.1 x.2 with
  | some (r, c') => (c', s.1.begunOn x.2 r s.2)
  | none => s

/-- The model was assembled from the weights that a manifest lists. -/
def BuiltFrom (l : Linked F Digest) (man : Manifest F Digest) (m : LayaModel F Digest) : Prop :=
  ∃ weights, Hashed l.target man weights ∧
    fromWeights l.f32 l.q8 man.config m.bundle
      (if man.testOnly then .syntheticFixture else .checkpoint) weights = .ok m

/-- What the cells have to do with the manifest that was uploaded last. -/
structure Coherent (l : Linked F Digest) (c : Canister F Digest) (g : Option Digest) : Prop where
  model : ∀ m, c.model = some m → ∃ raw man, c.manifest = some raw ∧
    Manifest.parse l.json raw = .ok man ∧ m.bundle = hash raw ∧
    c.persistent.engine.activeModel = hash raw ∧ BuiltFrom l man m
  tokenizer : ∀ t, c.tokenizer = some t → ∃ raw man, c.manifest = some raw ∧
    Manifest.parse l.json raw = .ok man ∧ t.fingerprint = man.tokenizerSha256
  builder : ∀ b, c.builder = some b → ∃ raw, c.manifest = some raw ∧
    Manifest.parse l.json raw = .ok b.manifest ∧ b.bundle = hash raw ∧
    Hashed l.target b.manifest b.tensors ∧ c.model = none
  inference : ∀ j, c.inference = some j → ∃ m, c.model = some m ∧ j.session.bundle = m.bundle ∧
    g = some m.bundle

/-- A call that leaves the cells, the active model and the uploaded manifest as they were. -/
structure Steady (c c' : Canister F Digest) : Prop where
  manifest : c'.manifest = c.manifest
  active : c'.persistent.engine.activeModel = c.persistent.engine.activeModel
  tokenizer : c'.tokenizer = c.tokenizer
  builder : c'.builder = c.builder
  model : c'.model = c.model
  inference : c'.inference = c.inference

theorem Steady.refl (c : Canister F Digest) : Steady c c := ⟨rfl, rfl, rfl, rfl, rfl, rfl⟩

theorem Coherent.steady (h : Coherent l c g) (hs : Steady c c') : Coherent l c' g where
  model := by rw [hs.model, hs.manifest, hs.active]; exact h.model
  tokenizer := by rw [hs.tokenizer, hs.manifest]; exact h.tokenizer
  builder := by rw [hs.builder, hs.manifest, hs.model]; exact h.builder
  inference := by rw [hs.inference, hs.model]; exact h.inference

theorem mutate_steady
    {f : Persistent F Digest → Memory → Code Error α × Persistent F Digest × Memory} {r : Result α}
    (hf : (f c.persistent c.memory).2.1.engine.activeModel = c.persistent.engine.activeModel ∧
      (f c.persistent c.memory).2.1.upload.map Upload.manifest = c.manifest)
    (h : c.mutate l msg f = some (r, c')) : Steady c c' := by
  obtain ⟨p, m, m', heq, -, rfl⟩ := mutate_eq_some h
  rw [heq] at hf
  exact ⟨hf.2, hf.1, rfl, rfl, rfl, rfl⟩

theorem attempt_steady {x : Code Error α} {f : α → Answer F Digest β} {r : Result β}
    (hf : ∀ a r c', x = .ok a → f a = some (r, c') → Steady c c')
    (h : c.attempt x f = some (r, c')) : Steady c c' := by
  rcases attempt_eq_some.mp h with ⟨a, ha, hsome⟩ | ⟨e, -, heq⟩
  · exact hf a r c' ha hsome
  · cases heq
    exact Steady.refl c

/-- No cell is in use. -/
structure Dropped (c : Canister F Digest) : Prop where
  tokenizer : c.tokenizer = none
  builder : c.builder = none
  model : c.model = none
  inference : c.inference = none

theorem Dropped.coherent (h : Dropped c) : Coherent l c g where
  model := by simp [h.model]
  tokenizer := by simp [h.tokenizer]
  builder := by simp [h.builder]
  inference := by simp [h.inference]

/-- Without an upload no cell is in use. -/
theorem Coherent.dropped (h : Coherent l c g) (hu : c.persistent.upload = none) : Dropped c := by
  have hraw : ∀ raw, c.manifest ≠ some raw := by simp [manifest, hu]
  have hmodel : c.model = none := Option.eq_none_iff_forall_ne_some.mpr fun m hm => by
    obtain ⟨raw, -, hman, -⟩ := h.model m hm
    exact hraw raw hman
  refine ⟨Option.eq_none_iff_forall_ne_some.mpr fun t ht => ?_,
    Option.eq_none_iff_forall_ne_some.mpr fun b hb => ?_, hmodel,
    Option.eq_none_iff_forall_ne_some.mpr fun j hj => ?_⟩
  · obtain ⟨raw, -, hman, -⟩ := h.tokenizer t ht
    exact hraw raw hman
  · obtain ⟨raw, hman, -⟩ := h.builder b hb
    exact hraw raw hman
  · obtain ⟨m, hm, -⟩ := h.inference j hj
    exact nomatch hmodel.symm.trans hm

theorem measured_activeModel {req : DecisionRequest Digest} {ev : Evaluation F Digest} :
    (c.measured msg req ev).2.activeModel = ev.state.activeModel := by
  unfold measured
  dsimp only
  split
  · rfl
  · split <;> rfl

theorem engineEvaluation_activeModel {req : DecisionRequest Digest} :
    (c.engineEvaluation msg req).state.activeModel = c.persistent.engine.activeModel := by
  unfold engineEvaluation
  dsimp only
  split
  · exact EngineState.evaluate_activeModel
  · split
    · exact EngineState.evaluate_activeModel
    · rfl

theorem manifest_of_writeUpload {grants : ℕ → Bool} {offset n : UInt64} {bytes : List UInt8}
    {u u' : Upload} {m m' : Memory}
    (h : writeUpload grants offset bytes u m = .ok (n, u', m')) : u'.manifest = u.manifest := by
  simp only [writeUpload, bind_eq_ok] at h
  obtain ⟨stop, -, total, -, -, -, h⟩ := h
  split at h
  · simp only [bind_eq_ok, pure_eq_ok] at h
    obtain ⟨-, -, old, -, -, -, heq⟩ := h
    cases heq
    rfl
  · simp only [bind_eq_ok, pure_eq_ok] at h
    obtain ⟨-, -, m₁, -, heq⟩ := h
    cases heq
    rfl

section Calls
variable {r : Result Unit}

theorem allowCaller_steady {caller : Principal} {n : UInt32}
    (h : c.allowCaller l msg caller n = some (r, c')) : Steady c c' := by
  refine attempt_steady (fun _ r c' _ hsome => mutate_steady ?_ hsome) h
  split
  · next engine hengine => exact ⟨EngineState.allowCaller_activeModel hengine, rfl⟩
  · exact ⟨rfl, rfl⟩

theorem registerSchema_steady {schema : Schema} {qtypeId : UInt32}
    {r : Result (CompiledSchema Digest)}
    (h : c.registerSchema l msg schema qtypeId = some (r, c')) : Steady c c' := by
  refine attempt_steady (fun compiled r c' _ hsome => mutate_steady ?_ hsome) h
  split
  · next engine hengine => exact ⟨EngineState.register_activeModel hengine, rfl⟩
  · exact ⟨rfl, rfl⟩

theorem registerCalibration_steady {calibration : Calibration F Digest}
    (h : c.registerCalibration l msg calibration = some (r, c')) : Steady c c' := by
  refine attempt_steady (fun _ r c' _ hsome => mutate_steady ?_ hsome) h
  split
  · next engine hengine => exact ⟨EngineState.registerCalibration_activeModel hengine, rfl⟩
  · exact ⟨rfl, rfl⟩

theorem evaluate_steady {req : DecisionRequest Digest} {r : Result (Receipt Digest)}
    (h : c.evaluate l msg req = some (r, c')) : Steady c c' :=
  attempt_steady (fun _ _ _ _ hsome => mutate_steady
    ⟨measured_activeModel.trans engineEvaluation_activeModel, rfl⟩ hsome) h

theorem uploadChunk_steady {offset : UInt64} {bytes : List UInt8} {r : Result UInt64}
    (h : c.uploadChunk l msg offset bytes = some (r, c')) : Steady c c' := by
  refine attempt_steady (fun _ r c' _ hsome => mutate_steady ?_ hsome) h
  split
  · next n u m hwrite =>
    simp only [bind_eq_ok, okOr_eq_ok] at hwrite
    obtain ⟨u₀, hu₀, hwrite⟩ := hwrite
    refine ⟨rfl, ?_⟩
    rw [manifest, hu₀]
    exact congrArg some (manifest_of_writeUpload hwrite)
  · exact ⟨rfl, rfl⟩

/-- The fixtures replace the active model only where nothing was uploaded. -/
theorem enableSyntheticFixture_coherent (hc : Coherent l c g) {r : Result Digest}
    (h : c.enableSyntheticFixture l msg = some (r, c')) : Coherent l c' g := by
  rcases attempt_eq_some.mp h with ⟨_, -, hsome⟩ | ⟨e, -, heq⟩
  · by_cases hu : c.persistent.upload.isSome
    · refine hc.steady (mutate_steady ?_ hsome)
      rw [if_pos hu]
      exact ⟨rfl, rfl⟩
    · obtain ⟨p, m, m', -, -, rfl⟩ := mutate_eq_some hsome
      have hdropped := hc.dropped (Option.not_isSome_iff_eq_none.mp hu)
      exact Dropped.coherent ⟨hdropped.tokenizer, hdropped.builder, hdropped.model,
        hdropped.inference⟩
  · cases heq
    exact hc

/-- A new upload drops every cell. -/
theorem beginUpload_coherent (hc : Coherent l c g) {manifest : List UInt8}
    {tokenizerLength : UInt64} {special : SpecialTokens} {r : Result Digest}
    (h : c.beginUpload l msg manifest tokenizerLength special = some (r, c')) :
    Coherent l c' g := by
  rcases attempt_eq_some.mp h with ⟨m, -, hsome⟩ | ⟨e, -, heq⟩
  · obtain ⟨p, mem, mem', -, -, rfl⟩ := mutate_eq_some hsome
    exact Dropped.coherent ⟨rfl, rfl, rfl, rfl⟩
  · cases heq
    exact hc

theorem startWarmup_coherent (hc : Coherent l c g) {r : Result UInt64}
    (h : c.startWarmup l msg = some (r, c')) : Coherent l c' g := by
  rcases attempt_eq_some.mp h with ⟨⟨b, t⟩, hx, hsome⟩ | ⟨e, -, heq⟩
  · cases Option.some.inj hsome
    simp only [bind_eq_ok, okOr_eq_ok, reject_eq_ok, call_eq_ok, pure_eq_ok, not_not] at hx
    obtain ⟨-, -, u, hu, total, -, -, -, builder, hnew, bytes, -, -, hhash, t', htok, heq⟩ := hx
    cases heq
    simp only [Builder.new, bind_eq_ok, pure_eq_ok] at hnew
    obtain ⟨man, hparse, rfl⟩ := hnew
    have hman : c.manifest = some u.manifest := by rw [manifest, hu, Option.map_some]
    refine ⟨fun m hm => (by cases hm), fun t ht => ?_, fun b hb => ?_, fun j hj => (by cases hj)⟩
    · cases Option.some.inj ht
      exact ⟨u.manifest, man, hman, hparse,
        (HfTokenizer.fingerprint_of_fromBytes htok).trans hhash⟩
    · cases Option.some.inj hb
      exact ⟨u.manifest, hman, hparse, rfl, fun _ _ hget => (by cases hget), rfl⟩
  · cases heq
    exact hc

/-- What is left in the builder after one more tensor. -/
theorem pushNext_eq_ok {b : Builder F Digest} (h : c.pushNext l = .ok b) :
    ∃ b₀, c.builder = some b₀ ∧ b.manifest = b₀.manifest ∧ b.bundle = b₀.bundle ∧
      (Hashed l.target b₀.manifest b₀.tensors → Hashed l.target b.manifest b.tensors) := by
  simp only [pushNext, bind_eq_ok, okOr_eq_ok] at h
  obtain ⟨b₀, hb₀, h⟩ := h
  refine ⟨b₀, hb₀, ?_⟩
  split at h
  · simp only [bind_eq_ok, call_eq_ok] at h
    obtain ⟨bytes, -, hpush⟩ := h
    obtain ⟨e, w, -, -, -, -, heq⟩ := Builder.push_eq_ok hpush
    refine ⟨heq ▸ rfl, heq ▸ rfl, fun hb => (Builder.Hashed.push hb hpush).1⟩
  · cases pure_eq_ok.mp h
    exact ⟨rfl, rfl, id⟩

theorem warmupNext_coherent (hc : Coherent l c g) {r : Result Bool}
    (h : c.warmupNext l msg = some (r, c')) : Coherent l c' g := by
  rcases attempt_eq_some.mp h with ⟨b, hx, hsome⟩ | ⟨e, -, heq⟩
  · simp only [bind_eq_ok, call_eq_ok] at hx
    obtain ⟨-, -, hpush⟩ := hx
    obtain ⟨b₀, hb₀, hmanifest, hbundle, hhashed⟩ := pushNext_eq_ok hpush
    obtain ⟨raw, hraw, hparse, hhash, hold, hnone⟩ := hc.builder b₀ hb₀
    have hno : ∀ j, c.inference ≠ some j := fun j hj => by
      obtain ⟨m, hm, -⟩ := hc.inference j hj
      cases hnone.symm.trans hm
    split at hsome
    · rcases attempt_eq_some.mp hsome with ⟨m, hfinish, hmutate⟩ | ⟨e, -, heq⟩
      · -- the last tensor: the model is assembled and becomes the active one
        obtain ⟨p, mem, mem', heq, -, rfl⟩ := mutate_eq_some hmutate
        simp only [Prod.mk.injEq] at heq
        obtain ⟨-, rfl, rfl⟩ := heq
        rw [call_eq_ok, Builder.finish, bind_eq_ok] at hfinish
        obtain ⟨-, -, hfrom⟩ := hfinish
        have hm := (fromWeights_eq_ok hfrom).1
        refine ⟨fun m' hm' => ?_, hc.tokenizer, fun b' hb' => (by cases hb'),
          fun j hj => absurd hj (hno j)⟩
        cases Option.some.inj hm'
        refine ⟨raw, b.manifest, hraw, hmanifest ▸ hparse, hm.trans (hbundle.trans hhash),
          hbundle.trans hhash, b.tensors, hhashed hold, ?_⟩
        rw [hm]
        exact hfrom
      · cases heq
        exact ⟨hc.model, hc.tokenizer, fun b' hb' => (by cases hb'), fun j hj => absurd hj (hno j)⟩
    · cases Option.some.inj hsome
      refine ⟨hc.model, hc.tokenizer, fun b' hb' => ?_, fun j hj => absurd hj (hno j)⟩
      cases Option.some.inj hb'
      exact ⟨raw, hraw, hmanifest ▸ hparse, hbundle.trans hhash, hhashed hold, hnone⟩
  · cases heq
    exact hc

/-- A token job of the loaded model takes the place of the one before it. -/
theorem Coherent.job (hc : Coherent l c g) {m : LayaModel F Digest} (hm : c.model = some m)
    {j : TokenJob Digest} (hj : j.session.bundle = m.bundle) :
    Coherent l { c with inference := some j } (c.model.map LayaModel.bundle) where
  model := hc.model
  tokenizer := hc.tokenizer
  builder b hb := by
    obtain ⟨raw, -, -, -, -, hnone⟩ := hc.builder b hb
    exact nomatch hnone.symm.trans hm
  inference j' hj' := by
    cases Option.some.inj hj'
    exact ⟨m, hm, hj, by rw [hm, Option.map_some]⟩

/-- A step lemma: every call that answers keeps the cells coherent. -/
theorem perform_coherent (hc : Coherent l c g) {call : UpdateCall F Digest} {r : Result Unit}
    (h : c.perform l msg call = some (r, c')) : Coherent l c' (c.begunOn call r g) := by
  cases call with
  | upgrade =>
    obtain ⟨c'', hup, heq⟩ := Option.map_eq_some_iff.mp h
    cases heq
    unfold upgrade at hup
    split at hup
    · split at hup
      · cases hup
        exact Dropped.coherent ⟨rfl, rfl, rfl, rfl⟩
      · cases hup
    · cases hup
  | allowCaller => exact hc.steady (allowCaller_steady h)
  | enableSyntheticFixture =>
    obtain ⟨r', h', -⟩ := settle_eq_some h
    exact enableSyntheticFixture_coherent hc h'
  | registerSchema =>
    obtain ⟨r', h', -⟩ := settle_eq_some h
    exact hc.steady (registerSchema_steady h')
  | registerCalibration => exact hc.steady (registerCalibration_steady h)
  | evaluate =>
    obtain ⟨r', h', -⟩ := settle_eq_some h
    exact hc.steady (evaluate_steady h')
  | beginUpload =>
    obtain ⟨r', h', -⟩ := settle_eq_some h
    exact beginUpload_coherent hc h'
  | uploadChunk =>
    obtain ⟨r', h', -⟩ := settle_eq_some h
    exact hc.steady (uploadChunk_steady h')
  | startWarmup =>
    obtain ⟨r', h', -⟩ := settle_eq_some h
    exact startWarmup_coherent hc h'
  | warmupNext =>
    obtain ⟨r', h', -⟩ := settle_eq_some h
    exact warmupNext_coherent hc h'
  | startTokenInference input id =>
    obtain ⟨⟨r', c''⟩, h', heq⟩ := Option.map_eq_some_iff.mp h
    cases heq
    rcases attempt_eq_some.mp h' with ⟨j, hx, hsome⟩ | ⟨e, -, heq⟩
    · cases Option.some.inj hsome
      simp only [call_eq_ok, bind_eq_ok, okOr_eq_ok] at hx
      obtain ⟨-, -, m, hm, hcreate⟩ := hx
      exact hc.job hm (TokenJob.bundle_of_create hcreate)
    · cases heq
      exact hc
  | startTokenInferenceBatch input requestId id fingerprint maxSteps begun =>
    obtain ⟨⟨r', c''⟩, h', heq⟩ := Option.map_eq_some_iff.mp h
    cases heq
    rcases attempt_eq_some.mp h' with ⟨⟨p, cell⟩, hx, hsome⟩ | ⟨e, -, heq⟩
    · cases Option.some.inj hsome
      simp only [call_eq_ok, bind_eq_ok, okOr_eq_ok] at hx
      obtain ⟨-, -, -, -, m, hm, hx⟩ := hx
      cases hj : c.inference with
      | none =>
        rw [hj] at hx
        obtain ⟨_, hnone, hx⟩ := bind_eq_ok.mp hx
        cases pure_eq_ok.mp hnone
        simp only [bind_eq_ok, pure_eq_ok] at hx
        obtain ⟨⟨job, result⟩, hcreate, heq⟩ := hx
        cases heq
        simp only [begunOn, hj, Option.map_none, Except.map]
        exact hc.job hm (TokenJob.bundle_of_createBatch hcreate)
      | some j =>
        rw [hj] at hx
        simp only [bind_eq_ok] at hx
        obtain ⟨replay, hreplay, hx⟩ := hx
        simp only [begunOn, hj, Option.map_some, hreplay, Except.map]
        cases replay with
        | some result =>
          cases pure_eq_ok.mp hx
          rw [← hj]
          exact hc
        | none =>
          simp only [bind_eq_ok, pure_eq_ok] at hx
          obtain ⟨⟨job, result⟩, hcreate, heq⟩ := hx
          cases heq
          exact hc.job hm (TokenJob.bundle_of_createBatch hcreate)
    · cases heq
      exact hc
  | advanceTokenJob job expectedStep maxSteps =>
    obtain ⟨⟨r', c''⟩, h', heq⟩ := Option.map_eq_some_iff.mp h
    cases heq
    rcases attempt_eq_some.mp h' with ⟨⟨j, p⟩, hx, hsome⟩ | ⟨e, -, heq⟩
    · cases Option.some.inj hsome
      simp only [call_eq_ok, bind_eq_ok, okOr_eq_ok] at hx
      obtain ⟨-, -, j₀, hj₀, m, hm, hadvance⟩ := hx
      obtain ⟨m', hm', hbundle, hg⟩ := hc.inference j₀ hj₀
      cases Option.some.inj (hm.symm.trans hm')
      have hjob := hc.job hm ((TokenJob.bundle_of_advance hadvance).trans hbundle)
      have hsame : c.model.map LayaModel.bundle = g := by rw [hm, Option.map_some, hg]
      exact hsame ▸ hjob
    · cases heq
      exact hc

/-- A run lemma. -/
theorem coherent_run {owner : Principal} (h : init l msg owner = some c)
    (calls : List (CallContext × UpdateCall F Digest)) :
    Coherent l (run (observeJob l) (c, none) calls).1 (run (observeJob l) (c, none) calls).2 := by
  refine run_invariant (fun s : Canister F Digest × Option Digest => Coherent l s.1 s.2)
    (fun s x hs => ?_) ?_ calls
  · unfold observeJob
    split
    · next r c' hperform => exact perform_coherent hs hperform
    · exact hs
  · unfold init at h
    split at h
    · cases h
    · dsimp only at h
      split at h
      · cases h
        exact Dropped.coherent ⟨rfl, rfl, rfl, rfl⟩
      · cases h

end Calls

/-- The mapping that `evaluate` checks before it takes the state. -/
theorem checkSchemaMapping_eq_ok {p : Persistent F Digest} {id : Digest}
    (hp : p.fixtureMode = false) : checkSchemaMapping l p id = .ok () ↔
      ∃ schema u man, p.engine.schemas[id]? = some schema ∧ p.upload = some u ∧
        hash u.manifest = p.engine.activeModel ∧ Manifest.parse l.json u.manifest = .ok man ∧
        man.primitiveToQtype[schema.schema.primitive.tag.toNat]? = some schema.qtypeId := by
  rw [checkSchemaMapping, if_neg (Bool.eq_false_iff.mp hp)]
  simp only [bind_eq_ok, okOr_eq_ok, reject_eq_ok, not_not, unwrap]
  constructor
  · rintro ⟨schema, hschema, u, hu, -, hactive, man, hparse, mapped, hmapped, hqtype⟩
    exact ⟨schema, u, man, hschema, hu, hactive, hparse, hqtype ▸ hmapped⟩
  · rintro ⟨schema, u, man, hschema, hu, hactive, hparse, hmapped⟩
    exact ⟨schema, hschema, u, hu, (), hactive, man, hparse, _, hmapped, rfl⟩

/-- Outside fixture mode the engine evaluates on the tokenizer and the model of the cells. -/
theorem invoked_eq_some {req : DecisionRequest Digest} {input : TokenInput}
    (hp : c.persistent.fixtureMode = false)
    (h : (c.engineEvaluation msg req).invoked = some input) :
    ∃ t m schema, c.tokenizer = some t ∧ c.model = some m ∧
      c.persistent.engine.schemas[req.schemaHash]? = some schema ∧ m.bundle = req.model ∧
      t.fingerprint = schema.tokenizerHash := by
  rw [engineEvaluation, if_neg (Bool.eq_false_iff.mp hp)] at h
  split at h
  · next t m ht hm =>
    obtain ⟨schema, temp, quota, hcheck, hprepare⟩ := EngineState.reaches_of_invoked h
    obtain ⟨-, -, -, hbundle, hschema⟩ := EngineState.precheck_eq_ok hcheck
    have hrender := (EngineState.prepare_eq_ok hprepare).1
    simp only [render, bind_eq_ok, rejectIf_eq_ok, not_or, not_not] at hrender
    obtain ⟨-, -, -, ⟨hfingerprint, -⟩, -⟩ := hrender
    exact ⟨t, m, schema, ht, hm, hschema, hbundle, hfingerprint⟩
  · cases h

theorem cells_coherent {owner : Principal} {c₀ : Canister F Digest}
    (h₀ : init l msg owner = some c₀) {calls : List (CallContext × UpdateCall F Digest)}
    (hrun : run (observeJob l) (c₀, none) calls = (c, g)) :
    (∀ (msg : CallContext) (req : DecisionRequest Digest) (input : TokenInput),
      c.persistent.fixtureMode = false → c.admitted l msg req = .ok () →
      (c.engineEvaluation msg req).invoked = some input →
        ∃ u man t m schema, c.persistent.upload = some u ∧
          Manifest.parse l.json u.manifest = .ok man ∧ c.tokenizer = some t ∧ c.model = some m ∧
          c.persistent.engine.schemas[req.schemaHash]? = some schema ∧
          (m.bundle = hash u.manifest ∧ c.persistent.engine.activeModel = hash u.manifest ∧
            req.model = hash u.manifest) ∧
          BuiltFrom l man m ∧
          (t.fingerprint = man.tokenizerSha256 ∧ schema.tokenizerHash = man.tokenizerSha256) ∧
          man.primitiveToQtype[schema.schema.primitive.tag.toNat]? = some schema.qtypeId) ∧
    ∀ j, c.inference = some j → ∃ m, c.model = some m ∧ g = some m.bundle ∧
      j.session.bundle = m.bundle := by
  have hc := coherent_run h₀ calls
  rw [hrun] at hc
  refine ⟨fun msg req input hfixture hadmitted hinvoked => ?_, fun j hj => ?_⟩
  · simp only [admitted, bind_eq_ok] at hadmitted
    obtain ⟨-, -, -, -, -, -, hmapping⟩ := hadmitted
    obtain ⟨schema, u, man, hschema, hu, -, hparse, hqtype⟩ :=
      (checkSchemaMapping_eq_ok hfixture).mp hmapping
    obtain ⟨t, m, schema', ht, hm, hschema', hreq, hfingerprint⟩ :=
      invoked_eq_some hfixture hinvoked
    cases Option.some.inj (hschema.symm.trans hschema')
    have hman : c.manifest = some u.manifest := by rw [manifest, hu, Option.map_some]
    -- the manifest of the model and of the tokenizer is the one that was uploaded last
    obtain ⟨raw, man₁, hraw, hparse₁, hbundle, hactive, hbuilt⟩ := hc.model m hm
    obtain ⟨raw₂, man₂, hraw₂, hparse₂, htokenizer⟩ := hc.tokenizer t ht
    cases Option.some.inj (hman.symm.trans hraw)
    cases Option.some.inj (hman.symm.trans hraw₂)
    cases Except.ok.inj (hparse.symm.trans hparse₁)
    cases Except.ok.inj (hparse.symm.trans hparse₂)
    exact ⟨u, man, t, m, schema, hu, hparse, ht, hm, hschema,
      ⟨hbundle, hactive, hreq.symm.trans hbundle⟩, hbuilt,
      ⟨htokenizer, hfingerprint.symm.trans htokenizer⟩, hqtype⟩
  · obtain ⟨m, hm, hbundle, hg⟩ := hc.inference j hj
    exact ⟨m, hm, hg, hbundle⟩

/-- The cells do not depend on what is observed beside them. -/
theorem run_of_performAll {calls : List (CallContext × UpdateCall F Digest)}
    (h : performAll l c calls = some c') : (run (observeJob l) (c, g) calls).1 = c' := by
  induction calls generalizing c g with
  | nil => exact Option.some.inj h
  | cons x xs ih =>
    rw [performAll] at h
    split at h
    · next c₁ hperform =>
      rw [run_cons]
      have hobserve : observeJob l (c, g) x = (c₁, c.begunOn x.2 (.ok ()) g) := by
        rw [observeJob, hperform]
      rw [hobserve]
      exact ih h
    · cases h

/-! The pack of zeros is uploaded and warmed up. A schema is registered for its tokenizer, the owner
may ask, and a token job is begun. -/
namespace Sample
open LayaModel
open Sha256 (Checksum)

def evidence : String := "please refund me"

/-- What the evidence is rendered to: every text is one unknown word. -/
def question : TokenInput := ⟨[1, 3, 2, 4, 3, 4, 3, 2, 3, 2], [3, 5], 1⟩

def warm : EngineState ℚ Checksum := { EngineState.new Hashing.zero with activeModel := hash raw }

/-- The engine with one schema. -/
def versed (compiled : CompiledSchema Checksum) : EngineState ℚ Checksum :=
  { warm with schemas := (∅ : ExtTreeMap _ _).insert compiled.schemaHash compiled }

/-- The engine that answers the owner once a minute. -/
def serving (compiled : CompiledSchema Checksum) : EngineState ℚ Checksum :=
  { versed compiled with callers := (∅ : ExtTreeMap Principal CallerQuota).insert owner ⟨0, 0, 1⟩ }

/-- The state can be saved. -/
def Fits (engine : EngineState ℚ Checksum) : Prop :=
  (SnapshotLayout.persistent one).fits (outline engine (upload 457)) = true ∧
    (SnapshotLayout.persistent one).size (outline engine (upload 457)) ≤ 65536

instance (engine : EngineState ℚ Checksum) : Decidable (Fits engine) := instDecidableAnd

theorem encodes_of_fits {engine : EngineState ℚ Checksum} (h : Fits engine) : ∃ image,
    Storage.encode (D := Checksum) linked.bincode
      ⟨owner, engine, false, some (upload 457)⟩ = .ok image :=
  encodes length_raw h.1 h.2

/-- The schema as it is compiled for the tokenizer. -/
structure Compiled (t : TextTokenizer Checksum) (compiled : CompiledSchema Checksum) : Prop where
  tokenizer : HfTokenizer.fromBytes tokenizers vocabulary special = .ok t
  compile : compile Demo.refundRequested t 1 = .ok compiled
  render : render compiled t evidence = .ok question
  schema : compiled.schema = Demo.refundRequested
  qtypeId : compiled.qtypeId = 1
  versed : Fits (versed compiled)
  serving : Fits (serving compiled)

theorem Compiled.registers {t : TextTokenizer Checksum} {compiled : CompiledSchema Checksum}
    (h : Compiled t compiled) :
    warm.register compiled = .ok (IcLaya.Canister.Sample.versed compiled) := by
  have hrender := h.render
  simp only [IcLaya.render, bind_eq_ok] at hrender
  obtain ⟨_, hvalid, -⟩ := hrender
  rw [EngineState.register, hvalid, ok_bind]
  rfl

theorem allows (compiled : CompiledSchema Checksum) :
    (versed compiled).allowCaller owner 1 = .ok (serving compiled) := by
  rw [EngineState.allowCaller, rejectIf_bind (by decide), rejectIf_bind (by simp [versed, warm,
    EngineState.new])]
  rfl

theorem compiles : ∃ t compiled, Compiled t compiled := by
  have h : (do
      let t ← HfTokenizer.fromBytes tokenizers vocabulary special
      let compiled ← compile Demo.refundRequested t 1
      let input ← IcLaya.render compiled t evidence
      rejectIf (¬(input = question ∧ compiled.schema = Demo.refundRequested ∧
        compiled.qtypeId = 1 ∧ Fits (versed compiled) ∧ Fits (serving compiled)))
        .bindingMismatch : Result Unit) = .ok () := by
    decide +kernel
  simp only [bind_eq_ok, rejectIf_eq_ok, not_not] at h
  obtain ⟨t, ht, compiled, hcompile, input, hrender, rfl, hschema, hqtype, hversed, hserving⟩ := h
  exact ⟨t, compiled, ht, hcompile, hrender, hschema, hqtype, hversed, hserving⟩

/-- The uploaded pack with its tokenizer. -/
theorem stocked {man : Manifest ℚ Checksum} (hparse : Manifest.parse json raw = .ok man)
    (hman : Read man) {m : Memory} {chunks : List (List UInt8)}
    (h : Assembled linked (holding 457 m, chunks)) (hchunks : chunks.flatten = blob) :
    Stocked linked (holding 457 m) (upload 457) man Manifest.Sample.bytes vocabulary := by
  have htotal := hman.totalBytes
  refine h.stocked rfl hparse ⟨htotal.symm, ?_, ?_, ?_⟩ hchunks hman.intact hman.tokenizer.symm
  · rw [htotal]
    decide +kernel
  · show vocabulary.length = (UInt64.ofNat vocabulary.length).toNat
    rw [lengths.2]
    rfl
  · rw [lengths.2]
    decide

/-- The model takes the question. -/
theorem begins {model : LayaModel ℚ Checksum} {man : Manifest ℚ Checksum} (hman : Read man)
    (hconfig : model.config = man.config) {e : Int8Matrix} {n : Norm ℚ}
    (hembed : model.f32.embed = linked.f32.embed e n) (instructions : UInt64) :
    ∃ j, TokenJob.create model question Hashing.zero instructions = .ok j := by
  have hmask : model.config.maskTokenId = 4 := hconfig ▸ hman.mask
  have hvocab : model.config.vocabSize = 5 := hconfig ▸ hman.vocabSize
  have hqtypes : model.config.qtypes = 3 := (ModelConfig.dims_of_validate model.valid).2.2.2.2
  have hvalid : model.validateInput question = .ok () := by
    rw [validateInput, hmask, hvocab, hqtypes]
    decide
  have hbegin : model.beginInference question =
      .ok ⟨model.bundle, question, Zeros.tensor 10, 0⟩ := by
    rw [beginInference, start, hvalid, hembed]
    rfl
  rw [TokenJob.create, hbegin, ok_bind]
  exact ⟨_, rfl⟩

/-- The calls of the sample: upload, warm-up, a schema, a caller and a job. -/
def calls : List (CallContext × UpdateCall ℚ Checksum) :=
  [begin, piece 0 200, piece 200 257] ++ (warmup Sample.msg 27 ++
    [(Sample.msg, .registerSchema Demo.refundRequested 1), (Sample.msg, .allowCaller owner 1),
      (Sample.msg, .startTokenInference question Hashing.zero)])

/-- The canister that they leave. -/
structure Served (c : Canister ℚ Checksum) (compiled : CompiledSchema Checksum) : Prop where
  persistent : c.persistent = ⟨owner, serving compiled, false, some (upload 457)⟩
  parsed : ∃ man, Manifest.parse json raw = .ok man ∧ Read man
  tokenizer : ∃ t, c.tokenizer = some t ∧ Compiled t compiled
  model : ∃ m, c.model = some m ∧ m.bundle = hash raw
  inference : ∃ j, c.inference = some j

theorem uploads : ∃ c₀ m chunks, init linked Sample.msg owner = some c₀ ∧
    performAll linked c₀ [begin, piece 0 200, piece 200 257] = some (holding 457 m) ∧
    Assembled linked (holding 457 m, chunks) ∧ chunks.flatten = blob := by
  obtain ⟨c₀, m₀, hinit, hbegin, h₀⟩ := begun
  obtain ⟨m₁, h₁, hfirst⟩ : ∃ m, Assembled linked (holding 200 m, [blob.take 200]) ∧
      (holding 0 m₀).perform linked Sample.msg (piece 0 200).2 = some (.ok (), holding 200 m) := by
    obtain ⟨m, h, hperform, -⟩ := @receives 0 200 m₀ [] h₀ (by omega) (by rw [lengths.1]; omega)
    exact ⟨m, h, hperform⟩
  obtain ⟨m₂, h₂, hsecond⟩ : ∃ m,
      Assembled linked (holding 457 m, [blob.take 200, (blob.drop 200).take 257]) ∧
      (holding 200 m₁).perform linked Sample.msg (piece 200 257).2 =
        some (.ok (), holding 457 m) := by
    obtain ⟨m, h, hperform, -⟩ := @receives 200 257 m₁ _ h₁ (by omega) (by rw [lengths.1])
    exact ⟨m, h, hperform⟩
  have hblob : [blob.take 200, (blob.drop 200).take 257].flatten = blob := by decide +kernel
  refine ⟨c₀, m₂, _, hinit, ?_, h₂, hblob⟩
  rw [performAll_cons (x := begin) hbegin, performAll_cons (x := piece 0 200) hfirst,
    performAll_cons (x := piece 200 257) hsecond]
  rfl

/-- The canister with a tokenizer and a model. -/
def loaded (engine : EngineState ℚ Checksum) (m : Memory) (t : TextTokenizer Checksum)
    (model : LayaModel ℚ Checksum) : Canister ℚ Checksum :=
  ⟨⟨owner, engine, false, some (upload 457)⟩, m, some t, none, some model, none⟩

/-- The upload of the parsed manifest is warmed up. -/
theorem warms {man : Manifest ℚ Checksum} (hparse : Manifest.parse json raw = .ok man)
    (hman : Read man) {m : Memory} {chunks : List (List UInt8)}
    (h : Assembled linked (holding 457 m, chunks)) (hchunks : chunks.flatten = blob)
    {t : TextTokenizer Checksum} (ht : HfTokenizer.fromBytes tokenizers vocabulary special = .ok t) :
    ∃ m' model, performAll linked (holding 457 m) (warmup Sample.msg 27) =
        some (loaded warm m' t model) ∧
      model.bundle = hash raw ∧ model.config = man.config ∧
      ∃ e n, model.f32.embed = linked.f32.embed e n := by
  have hfits : Fits warm := by decide +kernel
  obtain ⟨image, hencode⟩ := encodes_of_fits hfits
  have howner : Sample.msg.caller = owner := rfl
  have hgrants : ∀ n, Sample.msg.grants n = true := fun _ => rfl
  obtain ⟨b, model, m', hmanifest, hbundle, hfinish, hwarmup⟩ :=
    warmup_completes (stocked hparse hman h hchunks) howner hgrants ht hencode
  rw [Builder.finish, bind_eq_ok, hmanifest, hbundle] at hfinish
  obtain ⟨-, -, hfrom⟩ := hfinish
  obtain ⟨hmodel, hconfig, hembed⟩ := fromWeights_eq_ok hfrom
  rw [hman.count] at hwarmup
  exact ⟨m', model, hwarmup, hmodel, hconfig, hembed⟩

/-- The schema, the caller and the job, with the model loaded. -/
theorem admits {man : Manifest ℚ Checksum} (hparse : Manifest.parse json raw = .ok man)
    (hman : Read man) {t : TextTokenizer Checksum} {compiled : CompiledSchema Checksum}
    (hc : Compiled t compiled) (m : Memory) {model : LayaModel ℚ Checksum}
    (hconfig : model.config = man.config)
    (hembed : ∃ e n, model.f32.embed = linked.f32.embed e n) :
    ∃ m' j, performAll linked (loaded warm m t model)
      [(Sample.msg, .registerSchema Demo.refundRequested 1), (Sample.msg, .allowCaller owner 1),
        (Sample.msg, .startTokenInference question Hashing.zero)] =
      some { loaded (serving compiled) m' t model with inference := some j } := by
  have howner : Sample.msg.caller = owner := rfl
  have hgrants : ∀ n, Sample.msg.grants n = true := fun _ => rfl
  obtain ⟨image₁, hencode₁⟩ := encodes_of_fits hc.versed
  obtain ⟨image₂, hencode₂⟩ := encodes_of_fits hc.serving
  have hmapped : man.primitiveToQtype[Demo.refundRequested.primitive.tag.toNat]? = some 1 := by
    rw [hman.mapping]
    rfl
  obtain ⟨m₁, hregister⟩ := perform_registerSchema (l := linked) (u := upload 457)
    (c := loaded warm m t model) howner hgrants rfl rfl hparse hmapped rfl hc.compile hc.registers
    hencode₁
  obtain ⟨m₂, hallow⟩ := perform_allowCaller (c := loaded (versed compiled) m₁ t model) howner
    hgrants (allows compiled) hencode₂
  obtain ⟨e, n, hembed⟩ := hembed
  obtain ⟨j, hcreate⟩ := begins hman hconfig hembed
    (CheckedWords.saturatingSub64 Sample.msg.stop Sample.msg.start)
  have hstart := perform_startTokenInference (l := linked)
    (c := loaded (serving compiled) m₂ t model) howner rfl hcreate
  refine ⟨m₂, j, ?_⟩
  rw [performAll_cons (x := (Sample.msg, .registerSchema Demo.refundRequested 1)) hregister]
  refine (performAll_cons (x := (Sample.msg, .allowCaller owner 1)) hallow).trans ?_
  exact performAll_cons (x := (Sample.msg, .startTokenInference question Hashing.zero)) hstart

theorem served : ∃ c₀ c compiled, init linked Sample.msg owner = some c₀ ∧
    performAll linked c₀ calls = some c ∧ Served c compiled := by
  obtain ⟨man, hparse, hman⟩ := parsed
  obtain ⟨t, compiled, hc⟩ := compiles
  obtain ⟨c₀, m, chunks, hinit, hupload, hassembled, hblob⟩ := uploads
  obtain ⟨m₁, model, hwarm, hmodel, hconfig, hembed⟩ :=
    warms hparse hman hassembled hblob hc.tokenizer
  obtain ⟨m₂, j, hrest⟩ := admits hparse hman hc m₁ hconfig hembed
  refine ⟨c₀, { loaded (serving compiled) m₂ t model with inference := some j }, compiled, hinit, ?_,
    ⟨rfl, ⟨man, hparse, hman⟩, ⟨t, rfl, hc⟩, ⟨model, rfl, hmodel⟩, ⟨j, rfl⟩⟩⟩
  rw [calls, performAll_append, hupload, Option.bind_some, performAll_append, hwarm,
    Option.bind_some, hrest]

/-- The owner asks, and pays for it. -/
def asking : CallContext := ⟨owner, 1000, 100000000000, fun _ => true, 0, 7⟩

def request (compiled : CompiledSchema Checksum) : DecisionRequest Checksum :=
  ⟨Hashing.zero, compiled.schemaHash, hash raw, none, none, evidence, 2000⟩

section Asked
variable {c : Canister ℚ Checksum} {compiled : CompiledSchema Checksum}

theorem activeModel_of_serving (compiled : CompiledSchema Checksum) :
    (serving compiled).activeModel = hash raw := by
  rw [serving, versed, warm]

theorem schema_of_serving (compiled : CompiledSchema Checksum) :
    (serving compiled).schemas[compiled.schemaHash]? = some compiled := by
  simp [serving, versed]

theorem caller_of_serving (compiled : CompiledSchema Checksum) :
    (serving compiled).callers[owner]? = some ⟨0, 0, 1⟩ := by
  simp [serving]

theorem Served.admitted (h : Served c compiled) :
    c.admitted linked asking (request compiled) = .ok () := by
  obtain ⟨man, hparse, hman⟩ := h.parsed
  obtain ⟨t, -, hc⟩ := h.tokenizer
  have hmapping : checkSchemaMapping linked c.persistent compiled.schemaHash = .ok () := by
    rw [h.persistent]
    refine (checkSchemaMapping_eq_ok rfl).mpr ⟨compiled, upload 457, man, schema_of_serving compiled,
      rfl, ?_, ?_, ?_⟩
    · rw [activeModel_of_serving, upload]
    · rw [upload]
      exact hparse
    · rw [hc.schema, hc.qtypeId, hman.mapping]
      rfl
  have hcaller : ¬¬c.persistent.engine.callers.contains asking.caller := by
    rw [h.persistent]
    exact not_not.mpr ((contains_iff_get _ _).mpr ⟨_, caller_of_serving compiled⟩)
  have hstate : ¬((request compiled).state.isEmpty ∨
      maxStateBytes < (request compiled).state.utf8ByteSize) := by
    show ¬(evidence.isEmpty ∨ maxStateBytes < evidence.utf8ByteSize)
    decide
  have hbalance : ¬asking.balance < 100000000000 := by decide
  rw [IcLaya.Canister.admitted, reject_pass hcaller, reject_pass hstate, reject_pass hbalance]
  exact hmapping

theorem Served.invoked (h : Served c compiled) :
    (c.engineEvaluation asking (request compiled)).invoked = some question := by
  obtain ⟨t, ht, hc⟩ := h.tokenizer
  obtain ⟨model, hmodel, hbundle⟩ := h.model
  have hreach : (serving compiled).Reaches owner (request compiled) 1000 t model.backend compiled 1
      question ⟨0, 0, 1⟩ := by
    refine ⟨?_, rfl, ?_, by decide⟩
    · have hcaller : (serving compiled).callers.contains owner :=
        (contains_iff_get _ _).mpr ⟨_, caller_of_serving compiled⟩
      have hmodels : ¬((request compiled).model ≠ (serving compiled).activeModel ∨
          model.backend.bundleId ≠ (request compiled).model) := by
        rw [activeModel_of_serving, request]
        exact not_or.mpr ⟨not_not.mpr rfl, not_not.mpr hbundle⟩
      have hstate : ¬(maxStateBytes < (request compiled).state.utf8ByteSize ∨
          (request compiled).state.isEmpty) := by
        show ¬(maxStateBytes < evidence.utf8ByteSize ∨ evidence.isEmpty)
        decide
      have hexpires : ¬((request compiled).expiresAtNs ≤ 1000 ∨
          600000000000 < (request compiled).expiresAtNs - 1000) := by
        show ¬((2000 : UInt64) ≤ 1000 ∨ 600000000000 < (2000 : UInt64) - 1000)
        decide
      rw [EngineState.precheck, rejectIf_bind (not_not.mpr hcaller), rejectIf_bind hstate,
        rejectIf_bind hexpires, rejectIf_bind hmodels]
      show okOr (serving compiled).schemas[compiled.schemaHash]? _ >>= _ = _
      rw [schema_of_serving]
      rfl
    · have hcapacity : ¬(serving compiled).maxCacheEntries.toNat ≤ (serving compiled).cache.size := by
        simp [serving, versed, warm, EngineState.new]
      rw [EngineState.prepare, rejectIf_bind hcapacity]
      show render compiled t evidence >>= _ = _
      rw [hc.render, ok_bind, caller_of_serving]
      rfl
  rw [engineEvaluation, h.persistent, if_neg Bool.false_ne_true, ht, hmodel]
  dsimp only
  rw [show asking.caller = owner from rfl, show asking.time = 1000 from rfl,
    EngineState.evaluate_reached hreach]

end Asked

end Sample

open Sample in
/-- The owner's request reaches the loaded model, and the job is on its bundle. -/
theorem cells_coherent_served : ∃ c₀ c g compiled, init linked Sample.msg owner = some c₀ ∧
    run (observeJob linked) (c₀, none) calls = (c, g) ∧
    (c.engineEvaluation asking (request compiled)).invoked = some question ∧
    (∃ u man t m, c.persistent.upload = some u ∧
      Manifest.parse linked.json u.manifest = .ok man ∧ c.tokenizer = some t ∧ c.model = some m ∧
      m.bundle = hash u.manifest ∧ BuiltFrom linked man m ∧
      t.fingerprint = man.tokenizerSha256) ∧
    ∃ j m, c.inference = some j ∧ c.model = some m ∧ g = some m.bundle ∧
      j.session.bundle = m.bundle := by
  obtain ⟨c₀, c, compiled, hinit, hcalls, h⟩ := served
  obtain ⟨g, hg⟩ : ∃ g, (run (observeJob linked) (c₀, none) calls).2 = g := ⟨_, rfl⟩
  have hrun : run (observeJob linked) (c₀, none) calls = (c, g) :=
    Prod.ext (run_of_performAll hcalls) hg
  obtain ⟨j, hj⟩ := h.inference
  have hfixture : c.persistent.fixtureMode = false := by rw [h.persistent]
  obtain ⟨u, man, t, m, schema, hu, hparse, ht, hm, -, ⟨hbundle, -⟩, hbuilt, ⟨hfingerprint, -⟩, -⟩ :=
    (cells_coherent hinit hrun).1 asking (request compiled) question hfixture h.admitted h.invoked
  obtain ⟨m', hm', hgm, hjob⟩ := (cells_coherent hinit hrun).2 j hj
  exact ⟨c₀, c, g, compiled, hinit, hrun, h.invoked, ⟨u, man, t, m, hu, hparse, ht, hm, hbundle,
    hbuilt, hfingerprint⟩, j, m', hj, hm', hgm, hjob⟩

end Canister
end IcLaya
