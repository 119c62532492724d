import IcLaya.LayaModel
import IcLaya.TransitionSystems

/-!
# Resumable inference (`TokenJob` of `decision-engine/src/lib.rs`)

A job keeps a session, the last request it accepted and the reply to it. The calls of a run come
from any clients in any order; readings of the instruction counter are arguments. The history of
accepted requests is kept beside the job to say what a replay is.
-/
namespace IcLaya
open CheckedWords Fallible StagedRuns TransitionSystems

structure InferenceProgress (Digest : Type) where
  job : Digest
  completed : UInt32
  total : UInt32
  logits : Option (List UInt32)
  instructions : UInt64
  cumulativeInstructions : UInt64
  deriving DecidableEq

structure TokenJob (Digest : Type) where
  id : Digest
  session : InferenceSession Digest
  instructions : UInt64
  total : UInt32
  last : Option (InferenceProgress Digest)
  lastRequest : Option (UInt32 × UInt32)
  startRequest : Option (Digest × Digest × InferenceProgress Digest)
  deriving DecidableEq

variable {F Digest : Type} [Doubles F] [DecidableEq Digest]

namespace TokenJob

def replayStart (j : TokenJob Digest) (requestId fingerprint : Digest) :
    Result (Option (InferenceProgress Digest)) :=
  match j.startRequest with
  | some (id, old, result) =>
    if id = requestId then
      if old = fingerprint then pure (some result) else throw .idConflict
    else pure none
  | none => pure none

/-- `advance`, with the two readings of the instruction counter. -/
def advance (j : TokenJob Digest) (m : LayaModel F Digest) (job : Digest)
    (expectedStep maxSteps : UInt32) (start stop : UInt64) :
    Result (TokenJob Digest × InferenceProgress Digest) := do
  rejectIf (¬(1 ≤ maxSteps ∧ maxSteps ≤ 16)) (.invalid "max_steps must be 1..=16")
  rejectIf (j.id ≠ job) .bindingMismatch
  if j.lastRequest = some (expectedStep, maxSteps) then do
    let last ← okOr j.last .transition
    pure (j, last)
  else do
    rejectIf (j.session.next ≠ expectedStep.toNat) .bindingMismatch
    rejectIf (j.total ≤ expectedStep) .transition
    -- committed only after every requested phase succeeds
    let (session, logits) ← times (fun x => m.stepInference x.1)
      (min maxSteps (j.total - expectedStep)).toNat (j.session, none)
    let instructions := saturatingSub64 stop start
    let cumulative := saturatingAdd64 j.instructions instructions
    let result : InferenceProgress Digest :=
      ⟨job, UInt32.ofNat session.next, j.total, logits, instructions, cumulative⟩
    pure ({ j with
      session := session
      instructions := cumulative
      last := some result
      lastRequest := some (expectedStep, maxSteps) }, result)

/-- The job of `start_token_inference`; its id is a hash of candid data. -/
def create (m : LayaModel F Digest) (input : TokenInput) (id : Digest) (instructions : UInt64) :
    Result (TokenJob Digest) := do
  let session ← m.beginInference input
  pure ⟨id, session, instructions, UInt32.ofNat m.inferenceSteps, none, none, none⟩

/-- The job of `start_token_inference_batch`, which also runs its first batch. -/
def createBatch (m : LayaModel F Digest) (input : TokenInput) (id requestId fingerprint : Digest)
    (maxSteps : UInt32) (instructions start stop : UInt64) :
    Result (TokenJob Digest × InferenceProgress Digest) := do
  let job ← create m input id instructions
  let (job, result) ← job.advance m id 0 maxSteps start stop
  let result := { result with instructions := result.cumulativeInstructions }
  pure ({ job with
    last := some result
    startRequest := some (requestId, fingerprint, result) }, result)

end TokenJob

/-- A call of `advance` while a model is loaded. A bundle names one model. -/
structure JobCall (m : LayaModel F Digest) where
  model : LayaModel F Digest
  identified : model.bundle = m.bundle → model = m
  job : Digest
  expectedStep : UInt32
  maxSteps : UInt32
  start : UInt64
  stop : UInt64

/-- An accepted request and its reply. -/
abbrev Accepted (Digest : Type) := (UInt32 × UInt32) × InferenceProgress Digest

namespace JobCall
variable {m : LayaModel F Digest}

def request (c : JobCall m) : UInt32 × UInt32 := (c.expectedStep, c.maxSteps)

def reply (c : JobCall m) (j : TokenJob Digest) : Result (TokenJob Digest × InferenceProgress Digest) :=
  j.advance c.model c.job c.expectedStep c.maxSteps c.start c.stop

/-- The job and the accepted requests after a call, newest first. A call that repeats the newest
request is not a new one. -/
def next (x : TokenJob Digest × List (Accepted Digest)) (c : JobCall m) :
    TokenJob Digest × List (Accepted Digest) :=
  match c.reply x.1 with
  | .error _ => x
  | .ok (j, p) => (j, if x.2.head?.map Prod.fst = some c.request then x.2 else (c.request, p) :: x.2)

end JobCall

/-- A job as it was created, with what was accepted by then. -/
inductive Created (m : LayaModel F Digest) (input : TokenInput) :
    TokenJob Digest → List (Accepted Digest) → Prop
  | single {j : TokenJob Digest} (id : Digest) (instructions : UInt64)
      (h : TokenJob.create m input id instructions = .ok j) : Created m input j []
  | batch {j : TokenJob Digest} {p : InferenceProgress Digest} (id requestId fingerprint : Digest)
      (maxSteps : UInt32) (instructions start stop : UInt64)
      (h : TokenJob.createBatch m input id requestId fingerprint maxSteps instructions start stop =
        .ok (j, p)) : Created m input j [((0, maxSteps), p)]

section Specs
variable {j j' : TokenJob Digest} {m : LayaModel F Digest} {job : Digest} {e w : UInt32}
  {start stop : UInt64} {p : InferenceProgress Digest}

/-- An accepted call is a replay or it moves the session. -/
theorem TokenJob.advance_eq_ok : j.advance m job e w start stop = .ok (j', p) ↔
    (1 ≤ w ∧ w ≤ 16) ∧ j.id = job ∧
      (j.lastRequest = some (e, w) ∧ j.last = some p ∧ j' = j ∨
        j.lastRequest ≠ some (e, w) ∧ j.session.next = e.toNat ∧ e < j.total ∧
          ∃ session logits, times (fun x => m.stepInference x.1) (min w (j.total - e)).toNat
              (j.session, none) = .ok (session, logits) ∧
            p = ⟨job, UInt32.ofNat session.next, j.total, logits, saturatingSub64 stop start,
              saturatingAdd64 j.instructions (saturatingSub64 stop start)⟩ ∧
            j' = { j with
              session := session
              instructions := saturatingAdd64 j.instructions (saturatingSub64 stop start)
              last := some p
              lastRequest := some (e, w) }) := by
  simp only [advance, bind_eq_ok, rejectIf_eq_ok, not_not]
  constructor
  · rintro ⟨_, hw, _, hid, h⟩
    refine ⟨hw, hid, ?_⟩
    split at h
    · next hr =>
      simp only [bind_eq_ok, okOr_eq_ok, pure_eq_ok, Prod.mk.injEq] at h
      obtain ⟨last, hl, rfl, rfl⟩ := h
      exact .inl ⟨hr, hl, rfl⟩
    · next hr =>
      simp only [bind_eq_ok, rejectIf_eq_ok, not_not, pure_eq_ok, Prod.mk.injEq] at h
      obtain ⟨_, hn, _, hlt, ⟨session, logits⟩, ht, rfl, rfl⟩ := h
      exact .inr ⟨hr, hn, UInt32.not_le.mp hlt, session, logits, ht, rfl, rfl⟩
  · rintro ⟨hw, hid, ⟨hr, hl, rfl⟩ | ⟨hr, hn, hlt, session, logits, ht, rfl, rfl⟩⟩
    · refine ⟨(), hw, (), hid, ?_⟩
      rw [if_pos hr, hl]
      rfl
    · refine ⟨(), hw, (), hid, ?_⟩
      rw [if_neg hr]
      simp only [bind_eq_ok, rejectIf_eq_ok, not_not, pure_eq_ok, Prod.mk.injEq]
      exact ⟨(), hn, (), UInt32.not_le.mpr hlt, (session, logits), ht, rfl, rfl⟩

end Specs

/-- The job after its accepted requests: the session is the start, stepped, and the newest request
began before it and returned what the job replays. -/
structure Tracks (m : LayaModel F Digest) (s₀ : InferenceSession Digest) (j : TokenJob Digest)
    (acc : List (Accepted Digest)) : Prop where
  total : j.total.toNat = m.inferenceSteps
  le : j.session.next ≤ m.inferenceSteps
  session : j.session = { s₀ with hidden := j.session.hidden, next := j.session.next }
  stepped : stages (m.f32.phase s₀.input) 0 j.session.next s₀.hidden = .ok j.session.hidden
  request : j.lastRequest = acc.head?.map Prod.fst
  reply : j.last = acc.head?.map Prod.snd
  newest : ∀ e w p, acc.head? = some ((e, w), p) → (1 ≤ w ∧ w ≤ 16) ∧ e.toNat < j.session.next ∧
    p.job = j.id ∧ p.completed.toNat = j.session.next ∧
    m.f32.Returned j.session.hidden j.session.next p.logits
  begun : acc = [] → j.session.next = 0

section Invariant
variable {m m' : LayaModel F Digest} {s₀ : InferenceSession Digest} {j j' : TokenJob Digest}
  {acc : List (Accepted Digest)} {job : Digest} {e w : UInt32} {start stop : UInt64}
  {p : InferenceProgress Digest}

/-- The number of steps of an accepted call. -/
theorem toNat_width {e w t : UInt32} (h : e < t) :
    (min w (t - e)).toNat = min w.toNat (t.toNat - e.toNat) := by
  have hsub : (t - e).toNat = t.toNat - e.toNat := UInt32.toNat_sub_of_le _ _ (UInt32.le_of_lt h)
  rw [← hsub]
  by_cases hle : w ≤ t - e
  · have hmin : min w (t - e) = w := if_pos hle
    rw [hmin, Nat.min_eq_left (UInt32.le_iff_toNat_le.mp hle)]
  · have hmin : min w (t - e) = t - e := if_neg hle
    have hlt := UInt32.lt_iff_toNat_lt.mp (UInt32.not_le.mp hle)
    rw [hmin, Nat.min_eq_right (Nat.le_of_lt hlt)]

/-- What an accepted call that is no replay does. -/
theorem Tracks.accept (h : Tracks m s₀ j acc) (hb : s₀.bundle = m.bundle)
    (hm : m'.bundle = m.bundle → m' = m) (hr : j.lastRequest ≠ some (e, w))
    (ha : j.advance m' job e w start stop = .ok (j', p)) :
    e.toNat = j.session.next ∧ 1 ≤ min w.toNat (m.inferenceSteps - j.session.next) ∧
      j'.session.next = j.session.next + min w.toNat (m.inferenceSteps - j.session.next) ∧
      Tracks m s₀ j' (((e, w), p) :: acc) := by
  obtain ⟨⟨hw1, hw16⟩, rfl, ⟨hreq, _⟩ | ⟨-, hn, hlt, session, logits, ht, rfl, rfl⟩⟩ :=
    TokenJob.advance_eq_ok.mp ha
  · exact absurd hreq hr
  have hlt' := UInt32.lt_iff_toNat_lt.mp hlt
  have hone := UInt32.le_iff_toNat_le.mp hw1
  rw [h.total, ← hn] at hlt'
  have hwidth : (min w (j.total - e)).toNat = min w.toNat (m.inferenceSteps - j.session.next) := by
    rw [toNat_width hlt, h.total, hn]
  have hpos : 1 ≤ min w.toNat (m.inferenceSteps - j.session.next) := by
    have h1 : (1 : UInt32).toNat = 1 := rfl
    omega
  rw [hwidth] at ht
  obtain ⟨hbundle, hle, hstages, hsession, hlogits⟩ := (Phases.times_step_eq_ok hpos).mp ht
  have hsame : j.session.bundle = m.bundle := by rw [h.session]; exact hb
  obtain rfl := hm (hbundle.symm.trans hsame)
  have hinput : j.session.input = s₀.input := by rw [h.session]
  have hnext : session.next = j.session.next +
      min w.toNat (m'.inferenceSteps - j.session.next) := by rw [hsession]
  have hsmall := m'.inferenceSteps_le
  refine ⟨hn.symm, hpos, hnext, h.total, ?_, ?_, ?_, rfl, rfl, ?_, fun hnil => nomatch hnil⟩
  · show session.next ≤ _
    rw [hnext]
    omega
  · show session = { s₀ with hidden := session.hidden, next := session.next }
    rw [hsession, h.session]
  · show stages (m'.f32.phase s₀.input) 0 session.next s₀.hidden = .ok session.hidden
    rw [hnext, stages_add, h.stepped, ok_bind, Nat.zero_add, ← hinput, hstages]
  · rintro e' w' p' hhead
    cases hhead
    refine ⟨⟨hw1, hw16⟩, ?_, rfl, ?_, hlogits⟩
    · show e.toNat < session.next
      omega
    · show (UInt32.ofNat session.next).toNat = session.next
      rw [UInt32.toNat_ofNat']
      exact Nat.mod_eq_of_lt (by omega)

omit [DecidableEq Digest] in
theorem Tracks.single {input : TokenInput} {id : Digest} {instructions : UInt64}
    (h₀ : m.beginInference input = .ok s₀)
    (h : TokenJob.create m input id instructions = .ok j) : Tracks m s₀ j [] := by
  simp only [TokenJob.create, h₀, ok_bind, pure_eq_ok] at h
  subst h
  obtain ⟨-, -, hs₀⟩ := LayaModel.start_eq_ok.mp h₀
  have hnext : s₀.next = 0 := by rw [hs₀]
  have hsmall := m.inferenceSteps_le
  refine ⟨?_, ?_, rfl, ?_, rfl, rfl, fun e w p hp => (by cases hp), fun _ => hnext⟩
  · show (UInt32.ofNat m.inferenceSteps).toNat = m.inferenceSteps
    rw [UInt32.toNat_ofNat']
    exact Nat.mod_eq_of_lt (by omega)
  · show s₀.next ≤ _
    omega
  · show stages _ 0 s₀.next s₀.hidden = .ok s₀.hidden
    rw [hnext, stages_zero]

/-- The first batch is a call to a fresh job; only the reported instructions differ. -/
theorem Tracks.batch {input : TokenInput} {id requestId fingerprint : Digest}
    {instructions : UInt64} (h₀ : m.beginInference input = .ok s₀)
    (h : TokenJob.createBatch m input id requestId fingerprint w instructions start stop =
      .ok (j, p)) : Tracks m s₀ j [((0, w), p)] := by
  simp only [TokenJob.createBatch, bind_eq_ok, pure_eq_ok, Prod.mk.injEq] at h
  obtain ⟨fresh, hfresh, ⟨j₁, p₁⟩, hadvance, rfl, rfl⟩ := h
  have hstart := Tracks.single h₀ hfresh
  have hbundle : s₀.bundle = m.bundle := by rw [(LayaModel.start_eq_ok.mp h₀).2.2]
  have hnew : fresh.lastRequest ≠ some (0, w) := by
    rw [hstart.request]
    exact fun hn => by cases hn
  obtain ⟨-, -, -, hnext⟩ := hstart.accept hbundle (fun _ => rfl) hnew hadvance
  refine ⟨hnext.total, hnext.le, hnext.session, hnext.stepped, hnext.request, rfl, ?_,
    fun hnil => (by cases hnil)⟩
  intro e w' p hp
  cases hp
  exact hnext.newest 0 w p₁ rfl

/-- A call keeps the invariant. -/
theorem Tracks.next (h : Tracks m s₀ j acc) (hb : s₀.bundle = m.bundle) (c : JobCall m) :
    Tracks m s₀ (c.next (j, acc)).1 (c.next (j, acc)).2 := by
  cases hreply : c.reply j with
  | error e =>
    rw [JobCall.next, hreply]
    exact h
  | ok x =>
    obtain ⟨j', p⟩ := x
    have hnext : c.next (j, acc) =
        (j', if acc.head?.map Prod.fst = some c.request then acc else (c.request, p) :: acc) := by
      rw [JobCall.next, hreply]
    rw [hnext]
    by_cases hr : acc.head?.map Prod.fst = some c.request
    · rw [if_pos hr]
      obtain ⟨-, -, ⟨-, -, rfl⟩ | ⟨hne, -⟩⟩ := TokenJob.advance_eq_ok.mp hreply
      · exact h
      · exact absurd (h.request.trans hr) hne
    · rw [if_neg hr]
      exact (h.accept hb c.identified (fun hl => hr (h.request.symm.trans hl)) hreply).2.2.2

theorem Tracks.created {input : TokenInput} (h₀ : m.beginInference input = .ok s₀)
    (h : Created m input j acc) : Tracks m s₀ j acc := by
  cases h with
  | single id instructions h => exact .single h₀ h
  | batch id requestId fingerprint w instructions start stop h => exact .batch h₀ h

theorem Tracks.after (h : Tracks m s₀ j acc) (hb : s₀.bundle = m.bundle)
    (calls : List (JobCall m)) :
    Tracks m s₀ (run JobCall.next (j, acc) calls).1 (run JobCall.next (j, acc) calls).2 :=
  run_invariant (fun x => Tracks m s₀ x.1 x.2) (fun _ c hx => hx.next hb c) (s := (j, acc)) h calls

/-- The session is the step function, iterated. -/
theorem Tracks.iterated (h : Tracks m s₀ j acc) (hb : s₀.bundle = m.bundle) (hn : s₀.next = 0) :
    ∃ l, times (fun x => m.stepInference x.1) j.session.next (s₀, none) = .ok (j.session, l) := by
  by_cases hz : j.session.next = 0
  · have hhidden := h.stepped
    rw [hz, stages_zero, Except.ok.injEq] at hhidden
    have hsame : j.session = s₀ := by rw [h.session, ← hhidden, hz, ← hn]
    exact ⟨none, by rw [hz, times_zero, hsame]⟩
  · cases hacc : acc with
    | nil => exact absurd (h.begun hacc) hz
    | cons a acc' =>
      obtain ⟨⟨e, w⟩, p⟩ := a
      obtain ⟨-, -, -, -, hreturned⟩ := h.newest e w p (by rw [hacc]; rfl)
      refine ⟨p.logits, (Phases.times_step_eq_ok (Nat.pos_of_ne_zero hz)).mpr ⟨hb, ?_, ?_, ?_,
        hreturned⟩⟩
      · show s₀.next + _ ≤ _
        rw [hn, Nat.zero_add, m.f32_steps]
        exact h.le
      · show stages _ s₀.next _ _ = _
        rw [hn]
        exact h.stepped
      · show j.session = { s₀ with hidden := j.session.hidden, next := s₀.next + j.session.next }
        rw [hn, Nat.zero_add]
        exact h.session

omit [DecidableEq Digest] in
/-- A complete job has answered with the logits of the straight loop. -/
theorem Tracks.finished {input : TokenInput} (h : Tracks m s₀ j acc)
    (h₀ : m.beginInference input = .ok s₀) (hn : j.session.next = m.inferenceSteps) :
    ∃ r p v, acc.head? = some (r, p) ∧ p.logits = some v ∧ m.infer input = .ok v := by
  have hsmall := m.inferenceSteps_le
  cases hacc : acc with
  | nil =>
    have hz := h.begun hacc
    omega
  | cons a acc' =>
    obtain ⟨⟨e, w⟩, p⟩ := a
    obtain ⟨-, -, -, -, hreturned⟩ := h.newest e w p (by rw [hacc]; rfl)
    rw [Phases.Returned, m.f32_steps, if_pos hn] at hreturned
    obtain ⟨v, hv, hlogits⟩ := hreturned
    have hinput : s₀.input = input := by rw [(LayaModel.start_eq_ok.mp h₀).2.2]
    have hstepped := h.stepped
    rw [hinput, hn] at hstepped
    exact ⟨(e, w), p, v, rfl, hv, (LayaModel.infer_eq_ok h₀).mpr ⟨_, hstepped, hlogits⟩⟩

end Invariant

/-- Resumable inference is safe to retry: after any calls the session is the step function iterated
from the start, only the newest accepted request is replayed, every other accepted call takes up
where the session is, and a complete job has answered with the direct logits. -/
theorem token_job_retry_safe {m : LayaModel F Digest} {input : TokenInput}
    {s₀ : InferenceSession Digest} {j₀ j : TokenJob Digest} {acc₀ acc : List (Accepted Digest)}
    (h₀ : m.beginInference input = .ok s₀) (hc : Created m input j₀ acc₀)
    (calls : List (JobCall m)) (hrun : run JobCall.next (j₀, acc₀) calls = (j, acc)) :
    (∃ l, times (fun x => m.stepInference x.1) j.session.next (s₀, none) = .ok (j.session, l)) ∧
      (∀ (c : JobCall m) p, acc.head? = some (c.request, p) →
        c.expectedStep.toNat ≠ j.session.next ∧
          (c.job = j.id → c.reply j = .ok (j, p) ∧ c.next (j, acc) = (j, acc))) ∧
      (∀ (c : JobCall m) j' p, c.reply j = .ok (j', p) →
        acc.head? = some (c.request, p) ∧ j' = j ∨
          acc.head?.map Prod.fst ≠ some c.request ∧ c.expectedStep.toNat = j.session.next ∧
            1 ≤ min c.maxSteps.toNat (m.inferenceSteps - j.session.next) ∧
            j'.session.next = j.session.next +
              min c.maxSteps.toNat (m.inferenceSteps - j.session.next) ∧
            p.completed.toNat = j'.session.next ∧ c.next (j, acc) = (j', (c.request, p) :: acc)) ∧
      (∀ (c : JobCall m) e, c.reply j = .error e → c.next (j, acc) = (j, acc)) ∧
      (j.session.next = m.inferenceSteps →
        ∃ r p v, acc.head? = some (r, p) ∧ p.logits = some v ∧ m.infer input = .ok v) := by
  have hs₀ := (LayaModel.start_eq_ok.mp h₀).2.2
  have hbundle : s₀.bundle = m.bundle := by rw [hs₀]
  have hzero : s₀.next = 0 := by rw [hs₀]
  have hend : Tracks m s₀ j acc := by
    have hall := (Tracks.created h₀ hc).after hbundle calls
    rwa [hrun] at hall
  refine ⟨hend.iterated hbundle hzero, ?_, ?_, ?_, hend.finished h₀⟩
  · intro c p hp
    obtain ⟨hw, hlt, -⟩ := hend.newest c.expectedStep c.maxSteps p hp
    refine ⟨Nat.ne_of_lt hlt, fun hjob => ?_⟩
    have hrequest : j.lastRequest = some (c.expectedStep, c.maxSteps) := by
      rw [hend.request, hp]; rfl
    have hlast : j.last = some p := by rw [hend.reply, hp]; rfl
    have hreply : c.reply j = .ok (j, p) :=
      TokenJob.advance_eq_ok.mpr ⟨hw, hjob.symm, .inl ⟨hrequest, hlast, rfl⟩⟩
    refine ⟨hreply, ?_⟩
    rw [JobCall.next, hreply]
    have hhead : acc.head?.map Prod.fst = some c.request := by rw [hp]; rfl
    exact congrArg (Prod.mk j) (if_pos hhead)
  · intro c j' p hreply
    by_cases hr : acc.head?.map Prod.fst = some c.request
    · obtain ⟨-, -, ⟨-, hlast, rfl⟩ | ⟨hne, -⟩⟩ := TokenJob.advance_eq_ok.mp hreply
      · obtain ⟨⟨r, q⟩, hhead, rfl⟩ := Option.map_eq_some_iff.mp hr
        rw [hend.reply, hhead, Option.map_some, Option.some_inj] at hlast
        exact .inl ⟨by rw [hhead, ← hlast], rfl⟩
      · exact absurd (hend.request.trans hr) hne
    · obtain ⟨he, hpos, hnext, htracks⟩ := hend.accept hbundle c.identified
        (fun hl => hr (hend.request.symm.trans hl)) hreply
      obtain ⟨-, -, -, hcompleted, -⟩ := htracks.newest c.expectedStep c.maxSteps p rfl
      refine .inr ⟨hr, he, hpos, hnext, hcompleted, ?_⟩
      rw [JobCall.next, hreply]
      exact congrArg (Prod.mk j') (if_neg hr)
  · intro c e hreply
    rw [JobCall.next, hreply]

namespace TokenJob.Sample

def model : LayaModel ℚ SymbolicDigest := .zeros ⟨[1]⟩

/-- A call to the job numbered seven. -/
def call (expectedStep maxSteps : UInt32) : JobCall model :=
  ⟨model, fun _ => rfl, ⟨[7]⟩, expectedStep, maxSteps, 100, 250⟩

def session : InferenceSession SymbolicDigest :=
  ⟨⟨[1]⟩, LayaModel.Zeros.input, LayaModel.Zeros.tensor 2, 0⟩

def fresh : TokenJob SymbolicDigest := ⟨⟨[7]⟩, session, 50, 4, none, none, none⟩

/-- A batch, again, a stale request, the rest, and one past the end. -/
def finished : TokenJob SymbolicDigest × List (Accepted SymbolicDigest) :=
  run JobCall.next (fresh, []) [call 0 3, call 0 3, call 1 2, call 3 16, call 4 1]

end TokenJob.Sample

open TokenJob.Sample in
theorem token_job_retry_safe_sample :
    finished.1.session.next = 4 ∧ finished.2.length = 2 ∧
      (∃ r p v, finished.2.head? = some (r, p) ∧ p.logits = some v ∧
        model.infer LayaModel.Zeros.input = .ok v) ∧
      (call 3 16).next finished = finished := by
  have h₀ : model.beginInference LayaModel.Zeros.input = .ok session := by decide +kernel
  have hc : TokenJob.create model LayaModel.Zeros.input ⟨[7]⟩ 50 = .ok fresh := by decide +kernel
  have hnext : finished.1.session.next = 4 := by decide +kernel
  have hlength : finished.2.length = 2 := by decide +kernel
  have hhead : finished.2.head?.map Prod.fst = some (call 3 16).request := by decide +kernel
  have hjob : (call 3 16).job = finished.1.id := by decide +kernel
  obtain ⟨⟨r, p⟩, hp, hr⟩ := Option.map_eq_some_iff.mp hhead
  obtain rfl : r = (call 3 16).request := hr
  have hrun : run JobCall.next (fresh, []) [call 0 3, call 0 3, call 1 2, call 3 16, call 4 1] =
      (finished.1, finished.2) := rfl
  have hall := token_job_retry_safe h₀ (.single ⟨[7]⟩ 50 hc) _ hrun
  exact ⟨hnext, hlength, hall.2.2.2.2 hnext, ((hall.2.1 (call 3 16) p hp).2 hjob).2⟩

end IcLaya
