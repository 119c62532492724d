import IcLaya.QuerySchedules
import IcLaya.QuerySession

/-!
# The canister as a session sees it

A request is answered by what its handler computes for the arguments its bytes encode. A reply is
read faithfully if the client finds in its text what the handler computed. What the client then
decodes of a continuation is the state's own header.
-/
namespace IcLaya
open Fallible PanickingCode WordStreams

/-- What candid makes of the bytes of a call; bytes it refuses trap. -/
structure CandidArgs where
  beginArgs : List UInt8 → Option TokenInput
  batchArgs : List UInt8 → Option (TokenInput × ℕ)
  continueArgs : List UInt8 → Option (List UInt8 × ℕ)

def QueryInput.tokenInput (inp : QueryInput) : TokenInput :=
  ⟨inp.inputIds.map fun v => UInt32.ofNat v.toNat, inp.markers.map fun v => UInt32.ofNat v.toNat,
    UInt32.ofNat inp.qtypeId.toNat⟩

/-- The bytes that the client writes for an input and for any state are decoded to these. -/
structure CandidArgs.Decodes (c : CandidArgs) (inp : QueryInput) : Prop where
  beginArgs : ∀ {bytes}, encodeInput inp none = .ok bytes → c.beginArgs bytes = some inp.tokenInput
  batchArgs : ∀ {bytes w}, encodeInput inp (some w) = .ok bytes →
    c.batchArgs bytes = some (inp.tokenInput, w.toNat)
  continueArgs : ∀ {state bytes w}, state.length ≤ maxContinuationBytes →
    encodeContinue state w = .ok bytes → c.continueArgs bytes = some (state, w.toNat)

/-- What the query methods return. -/
inductive QueryAnswer
  | progress (p : QueryInferenceProgress)
  | tokens (logits : List UInt32) (instructions : UInt64)
  deriving DecidableEq

section Service
variable {F : Type} [Doubles F] (t : Target) (m : LayaModel F Digest32) (z : Zlib) (c : CandidArgs)

/-- `infer_tokens_query`, for inputs of up to QUERY_MAX_TOKENS. -/
def inferTokensQuery (input : TokenInput) (counter : Counter) : Code Error QueryAnswer := do
  reject (16 < input.inputIds.length) .tooLong
  reject (m.bundle.toList ≠ autoBundle) .bindingMismatch
  let logits ← call (m.infer input)
  pure (.tokens logits counter.elapsed)

def queryAnswer (request : Request) (counter : Counter) : Code Error QueryAnswer :=
  match request.method with
  | .token true int8 true compressed => do
    let (input, width) ← unwrap (c.batchArgs request.payload)
    .progress <$> beginCall t m z int8 compressed input (some width) counter
  | .token true int8 false compressed => do
    let input ← unwrap (c.beginArgs request.payload)
    .progress <$> beginCall t m z int8 compressed input none counter
  | .token false int8 false compressed => do
    let (state, width) ← unwrap (c.continueArgs request.payload)
    .progress <$> continueCall t m z int8 compressed state width counter
  | .token false _ true _ => .error .panic
  | .inferTokens => do
    let input ← unwrap (c.beginArgs request.payload)
    inferTokensQuery m input counter

variable {Logit : Type} (x : Texts Logit) (value : UInt32 → Logit)

/-- The counts that are read out of a reply. -/
def Texts.Counts (reply : String) (completed total : ℕ) (instructions : UInt64) : Prop :=
  x.field "completed" reply = some (.ok completed) ∧ x.field "total" reply = some (.ok total) ∧
    x.field "instructions" reply = some (.ok instructions.toNat)

/-- The client finds in a reply what the handler returned. A trap is no reply. -/
def Texts.Renders (reply : String) : Code Error QueryAnswer → Prop
  | .ok (.progress (.continue state completed total instructions)) =>
    x.okVariant reply ∧ ¬x.doneVariant reply ∧ x.continueVariant reply ∧
      x.Counts reply completed total instructions ∧ x.blobs reply = .ok [state]
  | .ok (.progress (.done logits completed total instructions)) =>
    x.okVariant reply ∧ x.doneVariant reply ∧ x.Counts reply completed total instructions ∧
      x.logits reply = .ok (logits.map value)
  | .ok (.tokens logits instructions) =>
    x.okVariant reply ∧ x.field "instructions" reply = some (.ok instructions.toNat) ∧
      x.logits reply = .ok (logits.map value)
  | .error (.raise _) => ¬x.okVariant reply
  | .error .panic => False

/-- Every attempt raises, or replies with what the handler computes for the bytes it was sent. -/
def Honest (icp : ℕ → Request → Attempt) : Prop :=
  ∀ n request reply, icp n request = .reply reply →
    ∃ counter, x.Renders value reply (queryAnswer t m z c request counter)

end Service

section Headers
variable {F : Type} [Doubles F] {t : Target} {m : LayaModel F Digest32} {k : Int8Kernels} {z : Zlib}
  {input : TokenInput} {n : ℕ} {raw state : List UInt8} {int8 : Bool}

/-- The header of a state of a model after `n` phases. -/
structure Stamped (m : LayaModel F Digest32) (int8 : Bool) (n : ℕ) (raw : List UInt8) : Prop where
  magic : raw.take 4 = if int8 then layi else layq
  version : wordAt raw 4 = 1
  revision : wordAt raw 8 = if int8 then 2 else 1
  bundle : (raw.drop 12).take 32 = m.bundle.toList
  step : (wordAt raw 44).toNat = n

theorem Stamped.of_header {next : ℕ} {rest : List UInt8} (hn : next < m.inferenceSteps)
    (hv : m.validateInput input = .ok ())
    (hraw : raw = (StateHeader.of next input).bytes (if int8 then layi else layq) 1
      (if int8 then 2 else 1) m.bundle ++ rest) : Stamped m int8 next raw := by
  have hmagic : (if int8 then layi else layq).length = 4 := by cases int8 <;> rfl
  have hlength : ((StateHeader.of next input).bytes (if int8 then layi else layq) 1
      (if int8 then 2 else 1) m.bundle).length = headerBytes := StateHeader.length_bytes hmagic
  have hdrop : raw.drop headerBytes = rest := by rw [hraw, List.drop_left' hlength]
  have h60 : headerBytes ≤ raw.length := by
    rw [hraw, List.length_append, hlength]
    omega
  rw [← hdrop] at hraw
  obtain ⟨hm, hversion, hrevision, hbundle, hwords⟩ :=
    (StateHeader.eq_bytes_append hmagic h60).mp hraw
  refine ⟨hm, hversion, hrevision, hbundle, ?_⟩
  rw [show wordAt raw 44 = _ from congrArg StateHeader.next hwords]
  exact (StateHeader.toNat_of hn hv).1

theorem held_stamped (hk : m.q8 = k.phases)
    (h : InEngine t m int8 fun e => e.Holds input n raw) : Stamped m int8 n raw := by
  cases int8 with
  | false =>
    obtain ⟨s, ha, hraw⟩ := h
    have hnext := (LayaModel.f32Engine_runs hk).next ha
    obtain ⟨-, hv, hn, -, -, hbytes⟩ := LayaModel.exportInference_eq_ok.mp hraw
    rw [List.append_assoc] at hbytes
    exact hnext ▸ Stamped.of_header hn hv hbytes
  | true =>
    obtain ⟨s, ha, hraw⟩ := h
    have hnext := (LayaModel.int8Engine_runs hk).next ha
    have hn := LayaModel.next_lt_of_exportQuantized hraw
    have hvalues := ((LayaModel.after_q8Session ha).filled hk hn).1
    obtain ⟨-, hv, -, hbytes⟩ := (LayaModel.exportQuantized_eq_ok hvalues).mp hraw
    rw [List.append_assoc, List.append_assoc] at hbytes
    exact hnext ▸ Stamped.of_header hn hv hbytes

theorem inspect_carried (hz : z.Inverse) (hshape : StateShape raw)
    (hstate : state = raw ∨ pack z raw = .ok state) :
    inspect z state = .ok (raw.take 60, raw.length) := by
  have hmax := hshape.max
  have hfuel : raw.length < 2 * maxContinuationBytes + 2 := by omega
  rcases hstate with rfl | hw
  · have hno := not_envelope hshape.magic
    rw [inspect, inspectState, if_neg (Nat.not_lt.mpr hmax), if_neg hno,
      hshape.inspectHeader fun c hc => absurd hc (Option.not_mem_none c)]
    rfl
  · rw [inspect, inspectState_packed hz hshape hw hfuel]
    rfl

/-- The client decodes a state that is on its way. -/
theorem decodeState_carried {Logit : Type} (hk : m.q8 = k.phases) (hz : z.Inverse)
    (h : InEngine t m int8 fun e => e.Carries z input n state) (total instructions : ℕ) :
    ∃ size, (decodeState z state n total instructions : Except Failure (Progress Logit)) =
      .ok (.continue state size m.bundle.toList (if int8 then .int8 else .f32) n total
        instructions) := by
  have hraw : ∃ raw, Stamped m int8 n raw ∧ StateShape raw ∧
      (state = raw ∨ pack z raw = .ok state) := by
    cases int8 with
    | false =>
      obtain ⟨raw, hraw, hstate⟩ := h
      exact ⟨raw, held_stamped hk hraw, (LayaModel.f32Engine_runs hk).shape hraw, hstate⟩
    | true =>
      obtain ⟨raw, hraw, hstate⟩ := h
      exact ⟨raw, held_stamped hk hraw, (LayaModel.int8Engine_runs hk).shape hraw, hstate⟩
  obtain ⟨raw, hstamp, hshape, hstate⟩ := hraw
  refine ⟨raw.length, ?_⟩
  have h60 : (raw.take 60).length = 60 := by
    rw [List.length_take]
    exact min_eq_left hshape.sixty
  have hhead : (raw.take 60).take 4 = if int8 then layi else layq := by
    rw [List.take_take]
    exact hstamp.magic
  have hword : ∀ i, i + 4 ≤ 60 → wordAt (raw.take 60) i = wordAt raw i := fun i hi =>
    (wordAt_of_take (by rw [List.take_take]; rfl) hi).symm
  have hsize : ¬((raw.take 60).length < 60 ∨
      ¬((raw.take 60).take 4 = layq ∨ (raw.take 60).take 4 = layi)) := by
    rw [hhead, h60]
    cases int8 <;> simp
  have hversions : unpackFrom 2 (raw.take 60) 4 = .ok [1, if int8 then 2 else 1] := by
    rw [unpackFrom_of_le (by omega)]
    show Except.ok [wordAt (raw.take 60) 4, wordAt (raw.take 60) 8] = _
    rw [hword 4 (by omega), hword 8 (by omega), hstamp.version, hstamp.revision]
  have hstep : unpackFrom 1 (raw.take 60) 44 = .ok [wordAt raw 44] := by
    rw [unpackFrom_of_le (by omega)]
    show Except.ok [wordAt (raw.take 60) 44] = _
    rw [hword 44 (by omega)]
  have hbundle : ((raw.take 60).drop 12).take 32 = m.bundle.toList := by
    rw [List.drop_take, List.take_take]
    exact hstamp.bundle
  rw [decodeState, inspect_carried hz hshape hstate, ok_bind]
  dsimp only
  have hmagic : (raw.take 60).take 4 = layi ↔ int8 := by
    rw [hhead]
    cases int8 <;> simp [layi, layq]
  have hrevision : ¬([1, if int8 then 2 else 1] : List UInt32) ≠
      [1, if (raw.take 60).take 4 = layi then 2 else 1] := by
    cases int8 <;> simp [hmagic]
  have hcompleted : ¬[wordAt raw 44].map UInt32.toNat ≠ [n] := by
    rw [List.map_singleton, hstamp.step]
    exact not_not.mpr rfl
  rw [rejectIf_bind hsize, hversions, ok_bind, rejectIf_bind hrevision, hstep, ok_bind,
    rejectIf_bind hcompleted, hbundle]
  cases int8 <;> simp [hmagic]

theorem carried_length (hk : m.q8 = k.phases) (hz : z.Inverse)
    (h : InEngine t m int8 fun e => e.Carries z input n state) :
    state.length ≤ maxContinuationBytes := by
  refine InEngine.const (h.imp hk fun hruns hc => ?_)
  obtain ⟨raw, hraw, hstate⟩ := hc
  have hmax := (hruns.shape hraw).max
  rcases hstate with rfl | hw
  · exact hmax
  · exact (pack_lossless hz hw).1.trans hmax

end Headers

section Replies
variable {F Logit : Type} [Doubles F] {t : Target} {m : LayaModel F Digest32} {k : Int8Kernels}
  {z : Zlib} {input : TokenInput} {n : ℕ} {int8 : Bool} {x : Texts Logit} {value : UInt32 → Logit}
  {reply : String} {q : QueryInferenceProgress} {logits : List UInt32} {instructions : UInt64}

/-- What a client holds after the phases it counts: the state, or the logits of the whole run. -/
def Progress.Sound (t : Target) (m : LayaModel F Digest32) (z : Zlib) (value : UInt32 → Logit)
    (int8 : Bool) (input : TokenInput) (p : Progress Logit) : Prop :=
  p.total = m.inferenceSteps ∧ match p with
    | .continue state _ bundle activationFormat completed _ _ =>
      completed < m.inferenceSteps ∧ bundle = m.bundle.toList ∧
        activationFormat = (if int8 then .int8 else .f32) ∧
        InEngine t m int8 fun e => e.Carries z input completed state
    | .done logits completed _ _ => completed = m.inferenceSteps ∧
        ∃ v, logits = v.map value ∧ InEngine t m int8 fun e => e.Logits input m.inferenceSteps v

theorem readField_eq {key missing : String} {v : ℕ} (h : x.field key reply = some (.ok v)) :
    readField x key reply missing = .ok v := by
  rw [readField, h]
  rfl

/-- The client decodes an honest reply. -/
theorem decodeProgress_honest (hk : m.q8 = k.phases) (hz : z.Inverse)
    (hr : InEngine t m int8 fun e => e.Reports (e.Carries z input) m.inferenceSteps input n q)
    (hreply : x.Renders value reply (.ok (.progress q))) :
    ∃ p, decodeProgress x z reply = .ok p ∧ p.completed = n ∧ p.Sound t m z value int8 input := by
  have hcounts : q.total = m.inferenceSteps ∧ q.completed = n :=
    InEngine.const (hr.imp hk fun _ hr => ⟨hr.1, hr.2.1⟩)
  cases q with
  | «continue» state completed total instructions =>
    obtain ⟨rfl, rfl⟩ := hcounts
    obtain ⟨hok, hdone, hcontinue, ⟨hcompleted, htotal, hinstructions⟩, hblobs⟩ := hreply
    have hstate : InEngine t m int8 fun e => e.Carries z input completed state :=
      hr.imp hk fun _ hr => hr.2.2.2
    have hlt : completed < m.inferenceSteps := InEngine.const (hr.imp hk fun _ hr => hr.2.2.1)
    obtain ⟨size, hdecoded⟩ := decodeState_carried hk hz hstate m.inferenceSteps
      instructions.toNat
    refine ⟨.continue state size m.bundle.toList (if int8 then .int8 else .f32) completed
      m.inferenceSteps instructions.toNat, ?_, rfl, rfl, hlt, rfl, rfl, hstate⟩
    · rw [decodeProgress, rejectIf_bind (not_not.mpr hok), rejectIf_bind fun h => h.2 hcontinue,
        readField_eq hcompleted, ok_bind, readField_eq htotal, ok_bind, readField_eq hinstructions,
        ok_bind, if_neg hdone, hblobs, ok_bind]
      exact hdecoded
  | done logits completed total instructions =>
    obtain ⟨rfl, rfl⟩ := hcounts
    obtain ⟨hok, hdone, ⟨hcompleted, htotal, hinstructions⟩, hlogits⟩ := hreply
    have hend : completed = m.inferenceSteps := InEngine.const (hr.imp hk fun _ hr => hr.2.2.1)
    have hrun : InEngine t m int8 fun e => e.Logits input m.inferenceSteps logits :=
      hend ▸ hr.imp hk fun _ hr => hr.2.2.2
    refine ⟨.done (logits.map value) completed m.inferenceSteps instructions.toNat, ?_, rfl, rfl,
      hend, logits, rfl, hrun⟩
    · rw [decodeProgress, rejectIf_bind (not_not.mpr hok), rejectIf_bind fun h => h.1 hdone,
        readField_eq hcompleted, ok_bind, readField_eq htotal, ok_bind, readField_eq hinstructions,
        ok_bind, if_pos hdone, hlogits, ok_bind]
      rfl

/-- The straight loop is the uninterrupted F32 run. -/
theorem LayaModel.logits_of_infer (h : m.infer input = .ok logits) :
    (m.f32Engine t).Logits input m.inferenceSteps logits := by
  simp only [LayaModel.infer, bind_eq_ok, modelError_eq_ok] at h
  obtain ⟨_, hv, last, hforward, hlogits⟩ := h
  rw [← m.f32.stages_eq_forward, bind_eq_ok] at hforward
  obtain ⟨first, hembed, hstages⟩ := hforward
  rw [m.f32_steps] at hstages
  have hpos : 0 < m.inferenceSteps := by have := m.inferenceSteps_le; omega
  refine ⟨⟨m.bundle, input, first, 0⟩, ⟨m.bundle, input, last, m.inferenceSteps⟩,
    LayaModel.start_eq_ok.mpr ⟨hv, hembed, rfl⟩, ?_⟩
  refine (Phases.times_step_eq_ok hpos).mpr ⟨rfl, ?_, hstages, ?_, ?_⟩
  · rw [m.f32_steps]
    exact Nat.le_of_eq (Nat.zero_add _)
  · rw [Nat.zero_add]
  · rw [Phases.Returned, if_pos m.f32_steps.symm]
    exact ⟨logits, rfl, hlogits⟩

end Replies

end IcLaya
