import IcLaya.QueryHandlers

/-!
# Split query inference

The calls of one inference are a begin and any number of continues, each raw or through the
transport; a reply that was received can be taken on any number of times. Whatever the schedule,
what a state holds is the session after as many single phases as its reply counts.
-/
namespace IcLaya
open Fallible PanickingCode SingleArithmetic StagedRuns

section Steps
variable {Digest T : Type} [DecidableEq Digest] {p : Phases T} {bundle : Digest}
  {s : Session Digest T} {w : ℕ} {r : List UInt32 ⊕ Session Digest T}

/-- A loop that stays within the phases left returns early only after its last step. -/
theorem runSteps_times (hw : s.next + w ≤ p.steps) (h : runSteps (p.step bundle) w s = .ok r) :
    ∃ s' l, times (fun x => p.step bundle x.1) w (s, none) = .ok (s', l) ∧
      r = match l with | some v => .inl v | none => .inr s' := by
  induction w generalizing s with
  | zero =>
    cases h
    exact ⟨s, none, rfl, rfl⟩
  | succ w ih =>
    obtain ⟨⟨s₁, l₁⟩, hstep, hrest⟩ := bind_eq_ok.mp h
    obtain ⟨-, -, -, hs₁, hreturned⟩ := Phases.step_eq_ok.mp hstep
    have hnext : s₁.next = s.next + 1 := by rw [hs₁]
    cases l₁ with
    | some v =>
      cases hrest
      have hlast : s₁.next = p.steps := by
        by_contra hne
        rw [Phases.Returned, if_neg hne] at hreturned
        cases hreturned
      have hzero : w = 0 := by omega
      subst hzero
      refine ⟨s₁, some v, ?_, rfl⟩
      rw [times, hstep]
      rfl
    | none =>
      obtain ⟨s', l, htimes, hr⟩ := ih (by omega) hrest
      refine ⟨s', l, ?_, hr⟩
      rw [times, hstep]
      exact htimes

end Steps

namespace Engine
variable {T : Type} (e : Engine T)

/-- The session of an input after `n` single steps that return nothing. -/
def After (input : TokenInput) (n : ℕ) (s : Session Digest32 T) : Prop :=
  ∃ s₀, e.begin input = .ok s₀ ∧ times (fun x => e.step x.1) n (s₀, none) = .ok (s, none)

/-- The logits of an uninterrupted run of `n` steps. -/
def Logits (input : TokenInput) (n : ℕ) (v : List UInt32) : Prop :=
  ∃ s₀ s, e.begin input = .ok s₀ ∧ times (fun x => e.step x.1) n (s₀, none) = .ok (s, some v)

/-- A state that was exported after `n` phases. -/
def Holds (input : TokenInput) (n : ℕ) (state : List UInt8) : Prop :=
  ∃ s, e.After input n s ∧ e.exportState s = .ok state

/-- A state on its way, raw or in an envelope. -/
def Carries (z : Zlib) (input : TokenInput) (n : ℕ) (state : List UInt8) : Prop :=
  ∃ raw, e.Holds input n raw ∧ (state = raw ∨ pack z raw = .ok state)

/-- What a reply says after `n` phases, for states that satisfy `K`. -/
def Reports (K : ℕ → List UInt8 → Prop) (total : ℕ) (input : TokenInput) (n : ℕ)
    (p : QueryInferenceProgress) : Prop :=
  p.total = total ∧ p.completed = n ∧ match p with
    | .continue state _ _ _ => n < total ∧ K n state
    | .done v _ _ _ => n = total ∧ e.Logits input n v

/-- A call does not panic, and what it replies is right. -/
def Yields (K : ℕ → List UInt8 → Prop) (total : ℕ) (input : TokenInput) (n : ℕ)
    (x : Code Error QueryInferenceProgress) : Prop :=
  x ≠ .error .panic ∧ ∀ q, x = .ok q → e.Reports K total input n q

/-- An engine runs the phases of a model, and reads back the states it writes. -/
structure Runs {F : Type} [Doubles F] (m : LayaModel F Digest32) (p : Phases T) : Prop where
  begin : e.begin = m.start p
  step : e.step = p.step m.bundle
  steps : p.steps = m.inferenceSteps
  reimport : ∀ {input n s raw s'}, e.After input n s → e.exportState s = .ok raw →
    e.importState raw = .ok s' → s' = s
  shape : ∀ {input n raw}, e.Holds input n raw → StateShape raw
  own : ∀ {raw s}, e.importState raw = .ok s → StateShape raw
  bounded : ∀ {input n s raw}, e.After input n s → e.exportState s = .ok raw →
    s.next < m.inferenceSteps
  export_total : ∀ {input n s}, e.After input n s → e.exportState s ≠ .error .panic
  import_total : ∀ raw, e.importState raw ≠ .error .panic

section Runs
variable {F : Type} [Doubles F] {m : LayaModel F Digest32} {p : Phases T} {e} {z : Zlib}
  {input : TokenInput} {n w : ℕ} {s : Session Digest32 T} {q : QueryInferenceProgress}
  {state sent raw : List UInt8} {counter : Counter}

theorem Runs.next (h : e.Runs m p) (ha : e.After input n s) : s.next = n := by
  obtain ⟨s₀, h₀, hn⟩ := ha
  rw [h.begin] at h₀
  obtain ⟨-, -, hs₀⟩ := LayaModel.start_eq_ok.mp h₀
  have hzero : s₀.next = 0 := by rw [hs₀]
  cases n with
  | zero =>
    cases hn
    exact hzero
  | succ n =>
    rw [h.step] at hn
    obtain ⟨-, -, -, hs, -⟩ := (Phases.times_step_eq_ok (Nat.succ_pos n)).mp hn
    rw [hs, hzero, Nat.zero_add]

/-- `w` more steps of a session are a longer run of its input. -/
theorem After.times_add {s' : Session Digest32 T} {l : Option (List UInt32)}
    (ha : e.After input n s) (hw : times (fun x => e.step x.1) w (s, none) = .ok (s', l)) :
    ∃ s₀, e.begin input = .ok s₀ ∧
      times (fun x => e.step x.1) (n + w) (s₀, none) = .ok (s', l) := by
  obtain ⟨s₀, h₀, hn⟩ := ha
  refine ⟨s₀, h₀, ?_⟩
  rw [StagedRuns.times_add, hn]
  exact hw

/-- The run of an input is unique. -/
theorem Logits.unique {v v' : List UInt32} (h : e.Logits input n v) (h' : e.Logits input n v') :
    v = v' := by
  obtain ⟨s₀, s, h₀, hn⟩ := h
  obtain ⟨s₀', s', h₀', hn'⟩ := h'
  rw [h₀] at h₀'
  cases h₀'
  rw [hn] at hn'
  cases hn'
  rfl

/-- A call that has to succeed first. -/
theorem Yields.bind {K : ℕ → List UInt8 → Prop} {total : ℕ} {α : Type} {x : Code Error α}
    {f : α → Code Error QueryInferenceProgress} (hx : x ≠ .error .panic)
    (hf : ∀ a, x = .ok a → e.Yields K total input n (f a)) :
    e.Yields K total input n (x >>= f) := by
  refine ⟨bind_ne_panic hx fun a ha => (hf a ha).1, fun q hq => ?_⟩
  obtain ⟨a, ha, hq⟩ := bind_eq_ok.mp hq
  exact (hf a ha).2 q hq

theorem Yields.reply {K : ℕ → List UInt8 → Prop} {total : ℕ}
    (h : e.Reports K total input n q) : e.Yields K total input n (.ok q) := by
  refine ⟨fun he => (nomatch he), fun q' hq' => ?_⟩
  cases hq'
  exact h

/-- The reply of a loop that starts after `n` phases. -/
theorem Runs.advance (h : e.Runs m p) (ha : e.After input n s) (hn : n ≤ m.inferenceSteps)
    (hw : w ≤ m.inferenceSteps - n) :
    e.Yields (e.Holds input) m.inferenceSteps input (n + w)
      (e.advance m.inferenceSteps w s counter) := by
  refine Yields.bind (call_ne_panic _) fun r hr => ?_
  rw [call_eq_ok, h.step] at hr
  have hnext := h.next ha
  obtain ⟨s', l, htimes, rfl⟩ := runSteps_times (by rw [hnext, h.steps]; omega) hr
  rw [← h.step] at htimes
  cases l with
  | some v =>
    obtain ⟨s₀, h₀, hrun⟩ := ha.times_add htimes
    have hend : n + w = m.inferenceSteps := by
      cases w with
      | zero => cases htimes
      | succ w =>
        rw [h.step] at htimes
        obtain ⟨-, -, -, hs', hreturned⟩ := (Phases.times_step_eq_ok (Nat.succ_pos w)).mp htimes
        have hnext' : s'.next = n + (w + 1) := by rw [hs', hnext]
        by_contra hne
        rw [Phases.Returned, hnext', h.steps, if_neg hne] at hreturned
        cases hreturned
    exact Yields.reply ⟨rfl, hend.symm, hend, s₀, s', h₀, hrun⟩
  | none =>
    have hafter : e.After input (n + w) s' := ha.times_add htimes
    refine Yields.bind (h.export_total hafter) fun raw hraw => ?_
    have hnext' := h.next hafter
    exact Yields.reply ⟨rfl, hnext', hnext' ▸ h.bounded hafter hraw, s', hafter, hraw⟩

theorem After.zero {s₀ : Session Digest32 T} (h₀ : e.begin input = .ok s₀) :
    e.After input 0 s₀ := ⟨s₀, h₀, rfl⟩

theorem Runs.queryBegin (h : e.Runs m p) :
    e.Yields (e.Holds input) m.inferenceSteps input 0
      (e.queryBegin m.inferenceSteps input counter) := by
  refine Yields.bind (call_ne_panic _) fun s₀ h₀ => ?_
  have ha := After.zero (call_eq_ok.mp h₀)
  refine Yields.bind (h.export_total ha) fun raw hraw => ?_
  exact Yields.reply ⟨rfl, rfl, h.next ha ▸ h.bounded ha hraw, s₀, ha, hraw⟩

/-- A begin that goes on with the first steps. -/
theorem Runs.batch (h : e.Runs m p) :
    e.Yields (e.Holds input) m.inferenceSteps input (min w m.inferenceSteps)
      (call (e.begin input) >>= fun session =>
        e.advance m.inferenceSteps (min w m.inferenceSteps) session counter) := by
  refine Yields.bind (call_ne_panic _) fun s₀ h₀ => ?_
  have ha := After.zero (call_eq_ok.mp h₀)
  have hadvance : e.Yields (e.Holds input) m.inferenceSteps input (0 + min w m.inferenceSteps)
      (e.advance m.inferenceSteps (min w m.inferenceSteps) s₀ counter) :=
    h.advance ha (Nat.zero_le _) (min_le_right _ _)
  rwa [Nat.zero_add] at hadvance

/-- A state that is read back is taken on from the session it was exported from. -/
theorem Runs.queryContinue (h : e.Runs m p) (hs : e.Holds input n state) :
    e.Yields (e.Holds input) m.inferenceSteps input (n + min w (m.inferenceSteps - n))
      (e.queryContinue m.inferenceSteps state w counter) := by
  obtain ⟨s, ha, hstate⟩ := hs
  have hlt := h.bounded ha hstate
  refine Yields.bind (reject_ne_panic _ _) fun _ _ => ?_
  refine Yields.bind (h.import_total state) fun s' himport => ?_
  cases h.reimport ha hstate himport
  rw [h.next ha] at hlt ⊢
  rw [sub_of_le hlt.le, ok_bind]
  exact h.advance ha hlt.le (min_le_right _ _)

end Runs

end Engine

/-- A state that was received is sent on as it came, packed, or unpacked by either end. -/
def Hop (z : Zlib) (state sent : List UInt8) : Prop :=
  sent = state ∨ pack z state = .ok sent ∨ unpack z state = .ok sent ∨
    unpackState z state = .ok sent

namespace Engine
variable {T F : Type} [Doubles F] {m : LayaModel F Digest32} {p : Phases T} {e : Engine T}
  {z : Zlib} {input : TokenInput} {n w : ℕ} {q : QueryInferenceProgress}
  {state sent wire raw : List UInt8} {counter : Counter}

/-- Only a state itself can be packed. -/
theorem raw_of_pack (hz : z.Inverse) (hw : pack z raw = .ok wire) {wire' : List UInt8}
    (hw' : pack z wire = .ok wire') : wire = raw := by
  have hunpack := (pack_lossless hz hw).2.2.1
  obtain ⟨-, hmax, codec, p, hp, -⟩ := pack_eq_ok.mp hw'
  rw [unpack, reject_pass (Nat.not_lt.mpr hmax), if_pos (not_envelope hp.facts.2.2.2)] at hunpack
  cases hunpack
  rfl

/-- Both ends unpack a state that is on its way. -/
theorem Runs.unpack (h : e.Runs m p) (hz : z.Inverse) (hraw : e.Holds input n raw)
    (hstate : state = raw ∨ pack z raw = .ok state) :
    unpack z state = .ok raw ∧ unpackState z state = .ok raw := by
  rcases hstate with rfl | hw
  · exact (h.shape hraw).unpack_raw
  · exact (pack_lossless hz hw).2.2

theorem Runs.hop (h : e.Runs m p) (hz : z.Inverse) (hc : e.Carries z input n state)
    (hop : Hop z state sent) : e.Carries z input n sent := by
  obtain ⟨raw, hraw, hstate⟩ := hc
  obtain ⟨hcanister, hclient⟩ := h.unpack hz hraw hstate
  refine ⟨raw, hraw, ?_⟩
  rcases hop with rfl | hpack | hunpack | hunpack
  · exact hstate
  · rcases hstate with rfl | hw
    · exact .inr hpack
    · cases raw_of_pack hz hw hpack
      exact .inr hpack
  · rw [hcanister] at hunpack
    exact .inl (Except.ok.inj hunpack).symm
  · rw [hclient] at hunpack
    exact .inl (Except.ok.inj hunpack).symm

/-- An envelope that is not taken off is refused. -/
theorem Runs.continued (h : e.Runs m p) (hz : z.Inverse) (hc : e.Carries z input n state) :
    e.Yields (e.Holds input) m.inferenceSteps input (n + min w (m.inferenceSteps - n))
      (e.queryContinue m.inferenceSteps state w counter) := by
  obtain ⟨raw, hraw, hstate⟩ := hc
  have hown : ∀ s, e.importState state = .ok s → state = raw := by
    intro s himport
    have hself := ((h.own himport).unpack_raw (z := z)).1
    rw [(h.unpack hz hraw hstate).1] at hself
    exact (Except.ok.inj hself).symm
  by_cases hsame : state = raw
  · subst hsame
    exact h.queryContinue hraw
  · refine Yields.bind (reject_ne_panic _ _) fun _ _ => ?_
    exact Yields.bind (h.import_total state) fun s himport => absurd (hown s himport) hsame

theorem Yields.carried {x : Code Error QueryInferenceProgress}
    (hx : e.Yields (e.Holds input) m.inferenceSteps input n x) :
    e.Yields (e.Carries z input) m.inferenceSteps input n x := by
  refine ⟨hx.1, fun q hq => ?_⟩
  obtain ⟨htotal, hcompleted, hrest⟩ := hx.2 q hq
  cases q with
  | done v completed total instructions => exact ⟨htotal, hcompleted, hrest⟩
  | «continue» state completed total instructions =>
    exact ⟨htotal, hcompleted, hrest.1, state, hrest.2, .inl rfl⟩

/-- The transport of a reply keeps what it says. -/
theorem Runs.packed (h : e.Runs m p) (hz : z.Inverse) {x : Code Error QueryInferenceProgress}
    (hx : e.Yields (e.Holds input) m.inferenceSteps input n x) :
    e.Yields (e.Carries z input) m.inferenceSteps input n (x >>= packed z counter) := by
  refine Yields.bind hx.1 fun q hq => ?_
  obtain ⟨htotal, hcompleted, hrest⟩ := hx.2 q hq
  cases q with
  | done v completed total instructions => exact Yields.reply ⟨htotal, hcompleted, hrest⟩
  | «continue» state completed total instructions =>
    obtain ⟨hlt, hstate⟩ := hrest
    obtain ⟨w, hw, -⟩ := (h.shape hstate).packed hz
    rw [IcLaya.packed, hw, ok_bind]
    exact Yields.reply ⟨htotal, hcompleted, hlt, state, hstate, .inr hw⟩

end Engine

section Engines
variable {F : Type} [Doubles F] {m : LayaModel F Digest32} {t : Target} {k : Int8Kernels}

theorem LayaModel.exportInference_ne_panic (s : InferenceSession Digest32) :
    m.exportInference t s ≠ .error .panic := by
  refine bind_ne_panic (reject_ne_panic _ _) fun _ _ => ?_
  refine bind_ne_panic (call_ne_panic _) fun shape hshape => ?_
  refine bind_ne_panic (reject_ne_panic _ _) fun _ hdims => ?_
  refine bind_ne_panic (reject_ne_panic _ _) fun _ _ => ?_
  simp only [continuationShape, call_eq_ok, bind_eq_ok, rejectIf_eq_ok, pure_eq_ok] at hshape
  obtain ⟨_, hv, _, -, rfl⟩ := hshape
  have hdims := not_not.mp (reject_eq_ok.mp hdims)
  have hlen := lengths_of_validateInput hv
  have hvalues := s.hidden.length_eq
  have hword := t.le_words
  have hle := elements_le (m := m) s.next hlen.1.2 hlen.2.2
  unfold rowsAt at hle
  rw [hdims, List.prod_cons, List.prod_cons, List.prod_nil, Nat.mul_one] at hvalues
  rw [← hvalues] at hle
  unfold maxTokens at *
  rw [add_of_lt (by omega), ok_bind, add_of_lt (by omega), ok_bind, mul_of_lt (by omega), ok_bind,
    add_of_lt (by unfold headerBytes; omega), ok_bind]
  refine bind_ne_panic (reject_ne_panic _ _) fun _ _ he => ?_
  cases he

theorem LayaModel.f32Engine_runs (hk : m.q8 = k.phases) : (m.f32Engine t).Runs m m.f32 where
  begin := rfl
  step := rfl
  steps := m.f32_steps
  reimport := fun _ hraw himport =>
    Except.ok.inj (himport.symm.trans (LayaModel.import_of_export hraw).2)
  shape := fun ⟨_, _, hraw⟩ => (LayaModel.Exported.f32 hraw).shape hk
  own := fun himport => (LayaModel.Exported.f32 (LayaModel.export_of_import himport)).shape hk
  bounded := fun _ hraw => (LayaModel.exportInference_eq_ok.mp hraw).2.2.1
  export_total := fun _ => LayaModel.exportInference_ne_panic _
  import_total := fun _ => LayaModel.importInference_ne_panic

theorem LayaModel.Q8Session.times {n : ℕ} {s s' : QuantizedSession Digest32}
    {l l' : Option (List UInt32)} (hs : m.Q8Session t s)
    (h : times (fun x => m.stepQuantized x.1) n (s, l) = .ok (s', l')) : m.Q8Session t s' := by
  induction n generalizing s l with
  | zero =>
    cases h
    exact hs
  | succ n ih =>
    obtain ⟨⟨s₁, l₁⟩, hstep, hrest⟩ := bind_eq_ok.mp h
    exact ih (.stepped hs hstep) hrest

theorem LayaModel.after_q8Session {input : TokenInput} {n : ℕ} {s : QuantizedSession Digest32}
    (h : (m.int8Engine t).After input n s) : m.Q8Session t s := by
  obtain ⟨s₀, h₀, hn⟩ := h
  exact (Q8Session.begun h₀).times hn

theorem LayaModel.exportQuantized_ne_panic (hk : m.q8 = k.phases) {s : QuantizedSession Digest32}
    (hs : m.Q8Session t s) : m.exportQuantized t s ≠ .error .panic := by
  by_cases hok : s.bundle = m.bundle ∧ m.validateInput s.input = .ok () ∧ m.InPhase s
  · obtain ⟨hb, hv, hphase⟩ := hok
    have hvalues := (hs.filled hk hphase.next).1
    rw [(exportQuantized_eq_ok hvalues).mpr ⟨hb, hv, hphase, rfl⟩]
    exact fun he => nomatch he
  · refine bind_ne_panic (reject_ne_panic _ _) fun _ hbundle => ?_
    refine bind_ne_panic (call_ne_panic _) fun _ hv => ?_
    refine bind_ne_panic (call_ne_panic _) fun rows hrows => ?_
    refine bind_ne_panic (reject_ne_panic _ _) fun _ hshape => ?_
    simp only [q8Rows, call_eq_ok, bind_eq_ok, rejectIf_eq_ok, not_le, pure_eq_ok] at hrows
    obtain ⟨_, hn, rfl⟩ := hrows
    simp only [reject_eq_ok, not_or, not_not] at hbundle hshape
    obtain ⟨hr, hc, hg⟩ := hshape
    exact absurd ⟨hbundle, call_eq_ok.mp hv, hn, hr, hc, hg⟩ hok

theorem LayaModel.int8Engine_runs (hk : m.q8 = k.phases) : (m.int8Engine t).Runs m m.q8 where
  begin := rfl
  step := rfl
  steps := m.q8_steps
  reimport := by
    intro input n s raw s' ha hraw himport
    have hn := LayaModel.next_lt_of_exportQuantized hraw
    obtain ⟨s₀, h₀, hrun⟩ := ha
    have hq := (LayaModel.quantized_session hk h₀ hrun).2.2.2 hn
    have hback := (LayaModel.importQuantized_of_export hq hraw).2
    rw [show m.importQuantized t raw = .ok s' from himport] at hback
    by_cases hscales : ∀ v ∈ s.hidden.scales, order v ≤ order maxOver128
    · rw [if_pos hscales] at hback
      exact Except.ok.inj hback
    · rw [if_neg hscales] at hback
      cases hback
  shape := fun ⟨_, ha, hraw⟩ => (LayaModel.Exported.int8 (LayaModel.after_q8Session ha) hraw).shape hk
  own := fun himport => (LayaModel.Exported.int8 (.imported himport)
    (LayaModel.exportQuantized_of_import himport).1).shape hk
  bounded := fun _ hraw => LayaModel.next_lt_of_exportQuantized hraw
  export_total := fun ha => LayaModel.exportQuantized_ne_panic hk (LayaModel.after_q8Session ha)
  import_total := fun _ => LayaModel.importQuantized_ne_panic

end Engines

section Schedules
variable {F : Type} [Doubles F] (t : Target) (m : LayaModel F Digest32) (z : Zlib)

/-- The first call of an inference; the batched one has a width. -/
def beginCall (int8 transported : Bool) (input : TokenInput) (width : Option ℕ) (counter : Counter) :
    Code Error QueryInferenceProgress :=
  match width, transported with
  | none, false => if int8 then queryBeginInt8 t m input counter else queryBegin t m input counter
  | none, true => transportedQuery t m z (some input) [] 0 int8 counter
  | some w, false => queryBeginBatch t m input w int8 counter
  | some w, true => transportedQuery t m z (some input) [] w int8 counter

def continueCall (int8 transported : Bool) (state : List UInt8) (width : ℕ) (counter : Counter) :
    Code Error QueryInferenceProgress :=
  if transported then transportedQuery t m z none state width int8 counter
  else if int8 then queryContinueInt8 t m state width counter
  else queryContinue t m state width counter

/-- The replies that can be received for an input, with the widths of the calls that led to them. A
reply stays at hand, whatever calls its state was sent with. -/
inductive Replied (int8 : Bool) (input : TokenInput) : List ℕ → QueryInferenceProgress → Prop
  | begun {transported : Bool} {width : Option ℕ} {counter : Counter} {p : QueryInferenceProgress}
      (h : beginCall t m z int8 transported input width counter = .ok p) :
      Replied int8 input [width.getD 0] p
  | continued {ws : List ℕ} {state sent : List UInt8} {completed total w : ℕ}
      {instructions : UInt64} {transported : Bool} {counter : Counter} {p : QueryInferenceProgress}
      (hs : Replied int8 input ws (.continue state completed total instructions))
      (hop : Hop z state sent)
      (h : continueCall t m z int8 transported sent w counter = .ok p) :
      Replied int8 input (ws ++ [w]) p

/-- A statement about the engine that runs a schedule. -/
def InEngine (int8 : Bool) (f : ∀ {T : Type}, Engine T → Prop) : Prop :=
  if int8 then f (m.int8Engine t) else f (m.f32Engine t)

variable {t m z} {k : Int8Kernels} {input : TokenInput} {int8 transported : Bool} {n w : ℕ}
  {state sent : List UInt8} {counter : Counter}

theorem InEngine.imp (hk : m.q8 = k.phases) {f g : ∀ {T : Type}, Engine T → Prop}
    (hf : InEngine t m int8 f)
    (hfg : ∀ {T : Type} {e : Engine T} {p : Phases T}, e.Runs m p → f e → g e) :
    InEngine t m int8 g := by
  cases int8 with
  | false => exact hfg (LayaModel.f32Engine_runs hk) hf
  | true => exact hfg (LayaModel.int8Engine_runs hk) hf

/-- The transported handler takes a width of zero for a plain begin. -/
theorem transportedQuery_plain : transportedQuery t m z (some input) [] 0 int8 counter =
    ((if int8 then queryBeginInt8 t m input .zero else queryBegin t m input .zero) >>=
      packed z counter) := by
  rw [transportedQuery]
  dsimp only
  rw [if_neg (Nat.lt_irrefl 0)]
  cases int8 <;> rfl

theorem InEngine.const {P : Prop} (h : InEngine t m int8 fun _ => P) : P := by
  cases int8 with
  | false => exact h
  | true => exact h

theorem begin_yields (hk : m.q8 = k.phases) (hz : z.Inverse) (width : Option ℕ) :
    InEngine t m int8 fun e => e.Yields (e.Carries z input) m.inferenceSteps input
      (min (width.getD 0) m.inferenceSteps)
      (beginCall t m z int8 transported input width counter) := by
  have hplain : ∀ counter, InEngine t m int8 fun e => e.Yields (e.Holds input) m.inferenceSteps
      input 0 (if int8 then queryBeginInt8 t m input counter else queryBegin t m input counter) := by
    intro counter
    cases int8 with
    | false => exact (LayaModel.f32Engine_runs hk).queryBegin
    | true => exact (LayaModel.int8Engine_runs hk).queryBegin
  have hbatch : ∀ w counter, InEngine t m int8 fun e => e.Yields (e.Holds input) m.inferenceSteps
      input (min w m.inferenceSteps) (queryBeginBatch t m input w int8 counter) := by
    intro w counter
    cases int8 with
    | false =>
      exact Engine.Yields.bind (reject_ne_panic _ _) fun _ _ =>
        (LayaModel.f32Engine_runs hk).batch
    | true =>
      exact Engine.Yields.bind (reject_ne_panic _ _) fun _ _ =>
        (LayaModel.int8Engine_runs hk).batch
  rw [← Nat.zero_min m.inferenceSteps] at hplain
  cases width with
  | none =>
    cases transported with
    | false => exact (hplain counter).imp hk fun _ hx => hx.carried
    | true =>
      rw [beginCall, transportedQuery_plain]
      exact (hplain .zero).imp hk fun h hx => h.packed hz hx
  | some w =>
    cases transported with
    | false => exact (hbatch w counter).imp hk fun _ hx => hx.carried
    | true =>
      cases w with
      | zero =>
        rw [beginCall, transportedQuery_plain]
        exact (hplain .zero).imp hk fun h hx => h.packed hz hx
      | succ w => exact (hbatch (w + 1) .zero).imp hk fun h hx => h.packed hz hx

theorem continue_yields (hk : m.q8 = k.phases) (hz : z.Inverse)
    (hs : InEngine t m int8 fun e => e.Carries z input n state) (hop : Hop z state sent) :
    InEngine t m int8 fun e => e.Yields (e.Carries z input) m.inferenceSteps input
      (n + min w (m.inferenceSteps - n))
      (continueCall t m z int8 transported sent w counter) := by
  have hsent : InEngine t m int8 fun e => e.Carries z input n sent :=
    hs.imp hk fun h hc => h.hop hz hc hop
  cases transported with
  | false =>
    cases int8 with
    | false => exact ((LayaModel.f32Engine_runs hk).continued hz hsent).carried
    | true => exact ((LayaModel.int8Engine_runs hk).continued hz hsent).carried
  | true =>
    cases int8 with
    | false =>
      obtain ⟨raw, hraw, hwire⟩ := hsent
      have hf := LayaModel.f32Engine_runs (t := t) hk
      show (m.f32Engine t).Yields _ _ _ _ (unpack z sent >>= fun raw =>
        queryContinue t m raw w .zero >>= packed z counter)
      rw [(hf.unpack hz hraw hwire).1, ok_bind]
      exact hf.packed hz (hf.queryContinue hraw)
    | true =>
      obtain ⟨raw, hraw, hwire⟩ := hsent
      have hi := LayaModel.int8Engine_runs (t := t) hk
      show (m.int8Engine t).Yields _ _ _ _ (unpack z sent >>= fun raw =>
        queryContinueInt8 t m raw w .zero >>= packed z counter)
      rw [(hi.unpack hz hraw hwire).1, ok_bind]
      exact hi.packed hz (hi.queryContinue hraw)

/-- A reply says what the widths that led to it come to. -/
theorem Replied.reports (hk : m.q8 = k.phases) (hz : z.Inverse) {ws : List ℕ}
    {q : QueryInferenceProgress} (h : Replied t m z int8 input ws q) :
    InEngine t m int8 fun e => e.Reports (e.Carries z input) m.inferenceSteps input
      (min ws.sum m.inferenceSteps) q := by
  induction h with
  | begun h =>
    rw [List.sum_singleton]
    exact (begin_yields hk hz _).imp hk fun _ hy => hy.2 _ h
  | @continued ws state sent completed total w instructions transported counter q hs hop h ih =>
    have hstate : InEngine t m int8 fun e =>
        e.Carries z input (min ws.sum m.inferenceSteps) state := ih.imp hk fun _ hr => hr.2.2.2
    have hsum : min (ws ++ [w]).sum m.inferenceSteps = min ws.sum m.inferenceSteps +
        min w (m.inferenceSteps - min ws.sum m.inferenceSteps) := by
      rw [List.sum_append, List.sum_singleton]
      omega
    rw [hsum]
    exact (continue_yields hk hz hstate hop).imp hk fun _ hy => hy.2 _ h

theorem Replied.counts (hk : m.q8 = k.phases) (hz : z.Inverse) {ws : List ℕ}
    {q : QueryInferenceProgress} (h : Replied t m z int8 input ws q) :
    q.total = m.inferenceSteps ∧ q.completed = min ws.sum q.total := by
  refine InEngine.const ((h.reports hk hz).imp hk fun _ hr => ?_)
  rw [hr.1]
  exact ⟨rfl, hr.2.1⟩

theorem Replied.continues (hk : m.q8 = k.phases) (hz : z.Inverse) {ws : List ℕ}
    {completed total : ℕ} {instructions : UInt64}
    (h : Replied t m z int8 input ws (.continue state completed total instructions)) :
    total = m.inferenceSteps ∧ completed < m.inferenceSteps ∧
      InEngine t m int8 fun e => e.Carries z input completed state := by
  have hr := h.reports hk hz
  have hcompleted : completed = min ws.sum m.inferenceSteps :=
    InEngine.const (hr.imp hk fun _ hr => hr.2.1)
  rw [← hcompleted] at hr
  exact ⟨InEngine.const (hr.imp hk fun _ hr => hr.1), InEngine.const (hr.imp hk fun _ hr => hr.2.2.1),
    hr.imp hk fun _ hr => hr.2.2.2⟩

theorem Replied.finished (hk : m.q8 = k.phases) (hz : z.Inverse) {ws : List ℕ} {v : List UInt32}
    {completed total : ℕ} {instructions : UInt64}
    (h : Replied t m z int8 input ws (.done v completed total instructions)) :
    completed = total ∧ InEngine t m int8 fun e => e.Logits input m.inferenceSteps v := by
  have hr := h.reports hk hz
  refine ⟨InEngine.const (hr.imp hk fun _ hr => ?_), hr.imp hk fun _ hr => hr.2.2.1 ▸ hr.2.2.2⟩
  exact hr.2.1.trans (hr.2.2.1.trans hr.1.symm)

/-- The uninterrupted F32 run is the straight loop. -/
theorem LayaModel.infer_of_logits {v : List UInt32}
    (h : (m.f32Engine t).Logits input m.inferenceSteps v) : m.infer input = .ok v := by
  obtain ⟨s₀, s, h₀, hrun⟩ := h
  obtain ⟨-, -, hs₀⟩ := LayaModel.start_eq_ok.mp h₀
  have hpos : 0 < m.inferenceSteps := by have := m.inferenceSteps_le; omega
  obtain ⟨-, -, hstages, hs, hreturned⟩ := (Phases.times_step_eq_ok hpos).mp hrun
  have hnext : s₀.next = 0 := by rw [hs₀]
  have hinput : s₀.input = input := by rw [hs₀]
  have hlast : s.next = m.f32.steps := by rw [hs, hnext, Nat.zero_add, m.f32_steps]
  rw [Phases.Returned, if_pos hlast] at hreturned
  obtain ⟨v', hv, hlogits⟩ := hreturned
  cases hv
  rw [hnext, hinput] at hstages
  exact (LayaModel.infer_eq_ok h₀).mpr ⟨s.hidden, hstages, hlogits⟩

end Schedules

/-- Whatever the schedule, the counts of a reply are those of its widths, a state holds the session
after that many single phases, a continue advances by its width or to the end and its subtraction
does not underflow, and the logits are the direct ones. -/
theorem split_queries_are_direct {F : Type} [Doubles F] (m : LayaModel F Digest32) (t : Target)
    {k : Int8Kernels} (hk : m.q8 = k.phases) {z : Zlib} (hz : z.Inverse) (input : TokenInput) :
    (∀ int8 ws p, Replied t m z int8 input ws p →
      p.total = m.inferenceSteps ∧ p.completed = min ws.sum p.total) ∧
      (∀ int8 ws state completed total instructions,
        Replied t m z int8 input ws (.continue state completed total instructions) →
        completed < total ∧ (InEngine t m int8 fun e => e.Carries z input completed state) ∧
          ∀ sent transported w counter, Hop z state sent →
            continueCall t m z int8 transported sent w counter ≠ .error .panic ∧
            ∀ p, continueCall t m z int8 transported sent w counter = .ok p →
              p.completed = completed + min w (total - completed)) ∧
      (∀ int8 ws v completed total instructions,
        Replied t m z int8 input ws (.done v completed total instructions) → completed = total ∧
          if int8 then ∃ s₀ s, m.beginQuantized input = .ok s₀ ∧
            times (fun x => m.stepQuantized x.1) m.inferenceSteps (s₀, none) = .ok (s, some v)
          else m.infer input = .ok v) ∧
      ∀ int8 ws ws' v v' completed completed' total total' instructions instructions',
        Replied t m z int8 input ws (.done v completed total instructions) →
        Replied t m z int8 input ws' (.done v' completed' total' instructions') → v = v' := by
  refine ⟨fun int8 ws p h => h.counts hk hz,
    fun int8 ws state completed total instructions h => ?_,
    fun int8 ws v completed total instructions h => ?_,
    fun int8 ws ws' v v' completed completed' total total' instructions instructions' h h' => ?_⟩
  · obtain ⟨rfl, hlt, hstate⟩ := h.continues hk hz
    refine ⟨hlt, hstate, fun sent transported w counter hop => ?_⟩
    exact InEngine.const ((continue_yields hk hz hstate hop).imp hk fun _ hy =>
      ⟨hy.1, fun p hp => (hy.2 p hp).2.1⟩)
  · obtain ⟨hend, hlogits⟩ := h.finished hk hz
    cases int8 with
    | false => exact ⟨hend, LayaModel.infer_of_logits hlogits⟩
    | true => exact ⟨hend, hlogits⟩
  · have hv := (h.finished hk hz).2
    have hv' := (h'.finished hk hz).2
    cases int8 with
    | false => exact hv.unique hv'
    | true => exact hv.unique hv'

open Zlib.Sample Int8Kernels LayaModel.Zeros in
/-- A transported begin and a continue to the end, and an INT8 begin that runs every phase. -/
theorem split_queries_are_direct_sample :
    (∃ wire ws v, layz <+: wire ∧
      beginCall .bits32 peakedModel zlib false true input none .zero = .ok (.continue wire 0 4 0) ∧
      Replied .bits32 peakedModel zlib false input ws (.done v 4 4 0) ∧
      peakedModel.infer input = .ok v) ∧
      ∃ ws v s₀ s, Replied .bits32 peakedModel zlib true input ws (.done v 4 4 0) ∧
        peakedModel.beginQuantized input = .ok s₀ ∧
        times (fun x => peakedModel.stepQuantized x.1) 4 (s₀, none) = .ok (s, some v) := by
  have hbegin : beginCall .bits32 peakedModel zlib false true input none .zero =
      .ok (.continue (envelope 2 92 stream) 0 4 0) := by decide +kernel
  have hcontinue : continueCall .bits32 peakedModel zlib false true (envelope 2 92 stream) 16 .zero =
      .ok (.done [0, 0] 4 4 0) := by decide +kernel
  have hwhole : beginCall .bits32 peakedModel zlib true false input (some 16) .zero =
      .ok (.done [0, 0] 4 4 0) := by decide +kernel
  have hall := split_queries_are_direct peakedModel .bits32 (k := peaked) rfl Zlib.Sample.inverse input
  have hdone := Replied.continued (.begun hbegin) (.inl rfl) hcontinue
  have hdone' : Replied .bits32 peakedModel zlib true input _ _ := .begun hwhole
  obtain ⟨-, s₀, s, h₀, hs⟩ := hall.2.2.1 _ _ _ _ _ _ hdone'
  exact ⟨⟨_, _, _, envelope_prefix, hbegin, hdone, (hall.2.2.1 _ _ _ _ _ _ hdone).2⟩,
    _, _, s₀, s, hdone', h₀, hs⟩

end IcLaya
