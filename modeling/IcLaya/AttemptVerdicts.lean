import IcLaya.RequestLifecycle

/-!
# What the callbacks of a sole attempt add up to

While one attempt of a request is outstanding, every callback reports an outcome for it. The
state of the executor is then a function of a small register, the verdict so far, and
`finish_ledger` is the transition of that register.
-/
namespace IcLaya
open CheckedWords Fallible OrderedMaps TransitionSystems

variable {Digest : Type} [Hashing Digest]

/-- What is known of the attempt, and whether it was ever unknown. -/
inductive Verdict
  | waiting (status : Status) (everUnknown : Bool)
  | settled (success : Bool) (text : String) (everUnknown : Bool)
  deriving DecidableEq

namespace Verdict

def next : Verdict → LedgerOutcome → Verdict
  | .settled success text everUnknown, _ => .settled success text everUnknown
  | .waiting _ everUnknown, .success index | .waiting _ everUnknown, .duplicate index =>
    .settled true index everUnknown
  | .waiting _ false, .definitiveError e => .settled false e false
  | .waiting _ true, .definitiveError e | .waiting _ _, .unknown e =>
    .waiting (.outcomeUnknown e) true

@[simp] theorem next_unknown (status : Status) (everUnknown : Bool) (why : String) :
    (waiting status everUnknown).next (.unknown why) = .waiting (.outcomeUnknown why) true := by
  cases everUnknown <;> rfl

/-- A request that waits is outstanding. -/
def Ok : Verdict → Prop
  | .waiting status _ => status.outstanding = true
  | .settled .. => True

theorem Ok.next {v : Verdict} (h : v.Ok) (outcome : LedgerOutcome) : (v.next outcome).Ok := by
  cases v with
  | settled => trivial
  | waiting status everUnknown => cases outcome <;> cases everUnknown <;> trivial

def everUnknown : Verdict → Bool | .waiting _ u | .settled _ _ u => u

end Verdict

namespace ExecutorState

/-- The executor after the verdict on the attempt of `r` was recorded. -/
def after (s : ExecutorState Digest) (r : RequestRecord Digest) : Verdict → ExecutorState Digest
  | .waiting status everUnknown =>
    s.putRequest r.id { r with status := status, everUnknown := everUnknown }
  | .settled success text everUnknown =>
    s.commit Prod.fst (s.settleRecord { r with everUnknown := everUnknown } success text)

/-- The record that a verdict leaves behind. -/
def recordAfter (r : RequestRecord Digest) : Verdict → RequestRecord Digest
  | .waiting status everUnknown => { r with status := status, everUnknown := everUnknown }
  | .settled success text everUnknown => settled { r with everUnknown := everUnknown } success text

/-- The sole attempt of a request, with the transfer `f`, is outstanding. -/
structure Awaiting (s : ExecutorState Digest) (r : RequestRecord Digest)
    (f : FrozenTransfer Digest) : Prop where
  valid : s.Valid
  request : s.requests[r.id]? = some r
  outstanding : r.status.outstanding = true
  frozen : r.frozen = some f
  attempt : r.ledgerAttempt = 1

variable {s : ExecutorState Digest} {r : RequestRecord Digest} {f : FrozenTransfer Digest}
  {v : Verdict} {outcome : LedgerOutcome}

/-- A settlement of the attempt books the same amounts whatever was known before. -/
theorem Awaiting.settles (h : s.Awaiting r f) (success : Bool) :
    ∃ grants operations, ∀ text everUnknown,
      s.settleRecord { r with everUnknown := everUnknown } success text = .ok ({ s with
        grants := grants
        operations := operations
        requests := s.requests.insert r.id (recordAfter r (.settled success text everUnknown)) },
        (settled r success text).status) := by
  obtain ⟨s', hs⟩ := h.valid.settles h.request h.outstanding success ""
  obtain ⟨v, g, o, g', hv, hg, ho, hst, hse, _, _⟩ := settleRecord_eq_ok.mp hs
  exact ⟨s.grants.insert g'.id g', s.operations.insert o.id
    { o with status := if success then .consumed r.id else .available }, fun text everUnknown =>
    settleRecord_eq_ok.mpr ⟨v, g, o, g', hv, hg, ho, hst, hse, rfl, rfl⟩⟩

theorem Awaiting.after_settled (h : s.Awaiting r f) (success : Bool) :
    ∃ grants operations, ∀ text everUnknown,
      s.after r (.settled success text everUnknown) = { s with
        grants := grants
        operations := operations
        requests := s.requests.insert r.id (recordAfter r (.settled success text everUnknown)) } := by
  obtain ⟨grants, operations, hs⟩ := h.settles success
  exact ⟨grants, operations, fun text everUnknown => by rw [after, hs]; rfl⟩

theorem Awaiting.request_after (h : s.Awaiting r f) (v : Verdict) :
    (s.after r v).requests[r.id]? = some (recordAfter r v) := by
  cases v with
  | waiting status everUnknown => exact get_insert_self ..
  | settled success text everUnknown =>
    obtain ⟨grants, operations, hs⟩ := h.after_settled success
    rw [hs]
    exact get_insert_self ..

/-- A settlement does not see what the waiting record said. -/
theorem settleRecord_after (status : Status) (everUnknown success : Bool) (text : String) :
    (s.after r (.waiting status everUnknown)).settleRecord
        (recordAfter r (.waiting status everUnknown)) success text =
      s.settleRecord { r with everUnknown := everUnknown } success text := by
  simp only [settleRecord, recordAfter, after, putRequest_grants, putRequest_operations,
    putRequest_requests, insert_insert]
  rfl

/-- An outstanding request takes the outcome of its attempt. -/
theorem finishLedger_outstanding {cmd : DispatchCommand Digest}
    (hr : s.requests[cmd.request]? = some r) (hf : r.frozen = some cmd.transfer)
    (h0 : cmd.attempt ≠ 0) (hle : cmd.attempt ≤ r.ledgerAttempt)
    (hout : r.status.outstanding = true) :
    s.finishLedger cmd outcome = s.applyOutcome r cmd.attempt outcome := by
  have hns : r.status.isSucceeded = false := by
    cases hst : r.status <;> simp_all [Status.outstanding, Status.isSucceeded]
  have hmatch : ¬(r.frozen ≠ some cmd.transfer ∨ cmd.attempt = 0 ∨ r.ledgerAttempt < cmd.attempt) := by
    simp [hf, h0, UInt8.not_lt.mpr hle]
  rw [finishLedger, hr, okOr, ok_bind, rejectIf_bind hmatch, hns, if_neg Bool.false_ne_true,
    rejectIf_bind (not_not.mpr hout)]

/-- A settled request keeps its state, whatever is reported later. -/
theorem finishLedger_settled {cmd : DispatchCommand Digest}
    (hr : s.requests[cmd.request]? = some r) (hout : r.status.outstanding = false) :
    s.step (.finishLedger cmd outcome) = s := by
  rw [step]
  cases hs : s.finishLedger cmd outcome with
  | error e => rfl
  | ok p =>
    obtain ⟨s', status⟩ := p
    obtain ⟨r₁, hr₁, _, _, _, ⟨_, rfl, _⟩ | ⟨_, hout₁, _⟩⟩ := finishLedger_eq_ok.mp hs
    · rfl
    · cases hr.symm.trans hr₁
      rw [hout] at hout₁
      cases hout₁

/-- The callbacks of the attempt step the register. -/
theorem Awaiting.step_after (h : s.Awaiting r f) (hv : v.Ok)
    (hblock : ∀ text, outcome = .success text ∨ outcome = .duplicate text →
      validBlockIndex text = true) :
    (s.after r v).step (.finishLedger ⟨r.id, 1, f⟩ outcome) = s.after r (v.next outcome) := by
  cases v with
  | settled success text everUnknown =>
    refine finishLedger_settled (h.request_after _) ?_
    cases success <;> rfl
  | waiting status everUnknown =>
    have hsettle : ∀ success text,
        (s.after r (.waiting status everUnknown)).commit Prod.fst
          ((s.after r (.waiting status everUnknown)).settleRecord
            (recordAfter r (.waiting status everUnknown)) success text) =
        s.after r (.settled success text everUnknown) := by
      intro success text
      obtain ⟨grants, operations, hs⟩ := h.settles success
      rw [settleRecord_after, hs, commit_ok, after, hs, commit_ok]
    have hunknown : ∀ why, ((s.after r (.waiting status everUnknown)).recordUnknown
        (recordAfter r (.waiting status everUnknown)) why).1 =
        s.after r (.waiting (.outcomeUnknown why) true) := by
      intro why
      simp only [recordUnknown, recordAfter, after, putRequest, insert_insert]
    have hfinish : (s.after r (.waiting status everUnknown)).finishLedger ⟨r.id, 1, f⟩ outcome =
        (s.after r (.waiting status everUnknown)).applyOutcome
          (recordAfter r (.waiting status everUnknown)) 1 outcome := by
      refine finishLedger_outstanding (h.request_after (.waiting status everUnknown)) h.frozen
        (show (1 : UInt8) ≠ 0 by decide) ?_ hv
      show 1 ≤ r.ledgerAttempt
      exact UInt8.le_of_eq h.attempt.symm
    rw [step, hfinish]
    cases outcome with
    | success index =>
      rw [applyOutcome, rejectIf, if_neg (by simp [hblock index (.inl rfl)])]
      exact hsettle true index
    | duplicate index =>
      rw [applyOutcome, rejectIf, if_neg (by simp [hblock index (.inr rfl)])]
      exact hsettle true index
    | definitiveError e =>
      cases everUnknown with
      | false =>
        rw [applyOutcome, if_pos ⟨by simp [recordAfter], h.attempt.symm⟩]
        exact hsettle false e
      | true =>
        rw [applyOutcome, if_neg (by simp [recordAfter])]
        exact hunknown e
    | unknown e => exact hunknown e

end ExecutorState

end IcLaya
