import IcLaya.PairedRuns
import IcLaya.RequestLifecycle

/-!
# Dispatches that the ledger refuses

Two runs of the same calls, in the second of which further dispatches were made and refused for good
at their first attempt. Of these the second run keeps the settled records and, in the grants, window
entries that read as before. Two things can tell the runs apart: what the entries take up, since a
grant keeps at most 64 of them, and another dispatch of such a request.
-/
namespace IcLaya
open CheckedWords Fallible OrderedMaps TransitionSystems PairedRuns
open Std (ExtTreeMap)

variable {Digest : Type} [Hashing Digest]

/-- The same grant, with up to `n` further window entries that read as the default. -/
def Padded (n : ℕ) (g g' : Grant Digest) : Prop :=
  ∃ W, g' = { g with windows := W } ∧ Pads n g.windows W

/-- The record of a dispatch that was refused for good, beside the record that was not dispatched. -/
structure Refused (r r' : RequestRecord Digest) : Prop where
  ticket : ExecutorState.SameTicket r r'
  status : r.status = .readyToDispatch ∨ r.status = .cancelled
  undispatched : r.frozen = none
  failed : ∃ why, r'.status = .failedDefinitive why
  dispatched : r'.frozen.isSome = true

/-- The same record, unless it belongs to a refused dispatch. -/
def SameRecord (K : List Digest) (k : Digest) (r r' : RequestRecord Digest) : Prop :=
  r' = r ∨ k ∈ K ∧ Refused r r'

/-- No call but a cancellation or a dispatch does anything to a record with this status. -/
def Status.quiet : Status → Bool
  | .readyToDispatch | .cancelled | .failedDefinitive _ => true
  | _ => false

section Grants
omit [Hashing Digest]
variable {n n' : ℕ} {g g' : Grant Digest} {c : U128} {e : UInt64}

theorem Padded.mono (h : Padded n g g') (hn : n ≤ n') : Padded n' g g' := by
  obtain ⟨W, rfl, hp⟩ := h
  exact ⟨W, rfl, hp.mono hn⟩

/-- The padded grant admits the same reservation, or has no room for the epoch. -/
theorem Padded.reserve (h : Padded n g g') (hs : g'.windows.size ≤ 64) (c : U128) (e : UInt64) :
    Alike (Padded n) (g.reserve c e) (g'.reserve c e) ∨
      g'.windows.contains e = false ∧ g'.windows.size = 64 ∧ g.windows.size < 64 ∧
        (∃ g₁, g.reserve c e = .ok g₁) ∧ g'.reserve c e = .error .capacity := by
  obtain ⟨W, rfl, hp⟩ := h
  have hle : g.windows.size ≤ W.size := size_le_of_keys hp.grows
  by_cases hW : ¬W.contains e ∧ 64 ≤ W.size
  · have hfail : ({ g with windows := W } : Grant Digest).reserve c e = .error .capacity :=
      rejectIf_stop hW _ _
    have hc : g.windows.contains e = false := by
      rw [← Bool.not_eq_true]
      exact fun hk => hW.1 (hp.grows e hk)
    rw [hfail]
    cases hg : g.reserve c e with
    | error err => exact .inl trivial
    | ok g₁ =>
      have hroom := (Grant.reserve_eq_ok.mp hg).1 hc
      exact .inr ⟨Bool.not_eq_true _ ▸ hW.1, Nat.le_antisymm hs hW.2, hroom, ⟨g₁, rfl⟩, rfl⟩
  · refine .inl ?_
    have hg : ¬(¬g.windows.contains e ∧ 64 ≤ g.windows.size) := by
      rintro ⟨hk, hfull⟩
      refine hW ⟨fun hk' => ?_, hfull.trans hle⟩
      exact absurd (hp.size_lt (Bool.not_eq_true _ ▸ hk) hk' default) (Nat.not_lt.mpr (hs.trans hfull))
    unfold Grant.reserve
    rw [rejectIf_bind hg, rejectIf_bind hW]
    dsimp only
    rw [hp.reads e]
    refine .shared _ fun total _ => .shared _ fun win _ => .shared _ fun _ _ => .shared _ fun tr _ =>
      .shared _ fun wr _ => ⟨_, rfl, ?_⟩
    exact hp.insert e _

/-- The padded grant settles a reservation in the same way. -/
theorem Padded.settle (h : Padded n g g') {old : Usage} (he : g.windows[e]? = some old)
    (success : Bool) : Alike (Padded n) (g.settle c e success) (g'.settle c e success) := by
  obtain ⟨W, rfl, hp⟩ := h
  unfold Grant.settle
  dsimp only
  rw [he, hp.get he]
  cases success with
  | true =>
    refine .shared _ fun old _ => .shared _ fun tr _ => .shared _ fun wr _ => .shared _ fun ts _ =>
      .shared _ fun ws _ => .pure ⟨_, rfl, hp.insert e _⟩
  | false =>
    refine .shared _ fun old _ => .shared _ fun tr _ => .shared _ fun wr _ =>
      .pure ⟨_, rfl, hp.insert e _⟩

theorem Padded.eligible_eq (h : Padded n g g') (caller : Principal) (p : TransferProposal)
    (now : UInt64) : g'.eligible caller p now = g.eligible caller p now := by
  obtain ⟨W, rfl, _⟩ := h
  rfl

end Grants

omit [Hashing Digest] in
theorem SameRecord.ticket {K : List Digest} {k : Digest} {r r' : RequestRecord Digest}
    (h : SameRecord K k r r') : ExecutorState.SameTicket r r' := by
  rcases h with rfl | ⟨_, h⟩
  · rfl
  · exact h.ticket

namespace ExecutorState

/-- The second state is the first one but for dispatches of the requests `K` that were refused. -/
def Lockstep (K : List Digest) (s t : ExecutorState Digest) : Prop :=
  ∃ G R, t = { s with grants := G, requests := R } ∧
    Paired (fun _ => Padded K.length) s.grants G ∧ Paired (SameRecord K) s.requests R

variable {K : List Digest} {s s' t : ExecutorState Digest} {k : Digest} {r r' : RequestRecord Digest}

section Guards

theorem Lockstep.refl (K : List Digest) (s : ExecutorState Digest) : Lockstep K s s := by
  refine ⟨s.grants, s.requests, rfl, fun k => ?_, fun k => ?_⟩
  · cases s.grants[k]? with
    | none => exact .none
    | some g => exact .some ⟨_, rfl, .refl _ _⟩
  · cases s.requests[k]? with
    | none => exact .none
    | some r => exact .some (.inl rfl)

theorem Lockstep.put (h : Lockstep K s t) (hr : SameRecord K k r r') :
    Lockstep K (s.putRequest k r) (t.putRequest k r') := by
  obtain ⟨G, R, rfl, hG, hR⟩ := h
  exact ⟨G, R.insert k r', rfl, hG, hR.insert hr⟩

theorem Lockstep.commit {α : Type} (h : Lockstep K s t) {f f' : α → ExecutorState Digest}
    {x y : Result α} (hx : Alike (fun a b => Lockstep K (f a) (f' b)) x y) :
    Lockstep K (s.commit f x) (t.commit f' y) := by
  cases x with
  | error e =>
    cases y with
    | error e' => exact h
    | ok b => exact hx.elim
  | ok a =>
    cases y with
    | error e' => exact hx.elim
    | ok b => exact hx

theorem Lockstep.current_eq (h : Lockstep K s t) (hr : SameTicket r r') (now : UInt64) :
    t.current r' now = s.current r now := by
  obtain ⟨G, R, rfl, hG, _⟩ := h
  rw [hr]
  unfold current
  dsimp only
  cases hg : s.grants[r.grant]? with
  | none => rw [hG.get_none hg]
  | some g =>
    obtain ⟨_, hw, W, rfl, _⟩ := hG.get hg
    rw [hw]
    rfl

theorem Lockstep.owned (h : Lockstep K s t) (caller : Principal) (k : Digest) :
    Alike (fun r r' => s.requests[k]? = some r ∧ t.requests[k]? = some r' ∧ SameRecord K k r r')
      (s.owned caller k) (t.owned caller k) := by
  obtain ⟨G, R, rfl, _, hR⟩ := h
  refine (hR.lookup k Error.notFound).bind ?_
  rintro r r' ⟨hr, hr', hs⟩
  have hc : r'.caller = r.caller := by rw [hs.ticket]
  rw [hc]
  exact .shared _ fun _ _ => .pure ⟨hr, hr', hs⟩

end Guards

section Records
variable {op : Op Digest}

/-- The record a call is about, if it is neither a dispatch nor a cancellation. -/
def about : Op Digest → Option Digest
  | .beginEvaluation _ k _ | .engineTransportFailed k _ | .finishEvaluation k _ _ _ => some k
  | .finishLedger cmd _ => some cmd.request
  | .retryUnknown _ k _ => some k
  | _ => none

/-- A call about a record that is missing or quiet changes nothing. -/
theorem step_still (ho : about op = some k)
    (h : ∀ r, s.requests[k]? = some r → r.status.quiet = true) : s.step op = s := by
  have hok : ∀ {α : Type} (f : α → ExecutorState Digest) (x : Result α),
      (∀ a, x = .ok a → f a = s) → s.commit f x = s := by
    intro α f x hx
    cases x with
    | error e => rfl
    | ok a => exact hx a rfl
  cases op with
  | beginEvaluation caller k' now =>
    cases ho
    refine hok _ _ fun ⟨s', res⟩ hs => ?_
    obtain ⟨r, hr, hst, _⟩ := beginEvaluation_eq_ok hs
    have hq := h r hr
    rcases hst with hst | hst <;> rw [hst] at hq <;> cases hq
  | engineTransportFailed k' evalId =>
    cases ho
    refine hok _ _ fun s' hs => ?_
    obtain ⟨r, q, hr, hst, _⟩ := engineTransportFailed_eq_ok hs
    have hq := h r hr
    rw [hst] at hq
    cases hq
  | finishEvaluation k' evalId result now =>
    cases ho
    refine hok _ _ fun ⟨s', res⟩ hs => ?_
    obtain ⟨r, hr, ⟨rfl, _⟩ | ⟨_, hst, _⟩⟩ := finishEvaluation_eq_ok hs
    · rfl
    · have hq := h r hr
      rw [hst] at hq
      cases hq
  | finishLedger cmd outcome =>
    cases ho
    refine hok _ _ fun ⟨s', status⟩ hs => ?_
    obtain ⟨r, hr, _, _, _, ⟨_, rfl, _⟩ | ⟨_, hst, _⟩⟩ := finishLedger_eq_ok.mp hs
    · rfl
    · have hq := h r hr
      cases hs : r.status <;> simp_all [Status.outstanding, Status.quiet]
  | retryUnknown caller k' now =>
    cases ho
    refine hok _ _ fun x hs => ?_
    obtain ⟨r, f, hr, _, _, hst, _⟩ := retryUnknown_eq_ok hs
    have hq := h r hr
    cases hs : r.status <;> simp_all [Status.isOutcomeUnknown, Status.quiet]
  | _ => cases ho

/-- A dispatch or a settlement, written into both states. -/
theorem Lockstep.book (h : Lockstep K s t) {g g' : Grant Digest} (hg : Padded K.length g g')
    (o : Operation Digest) (k : Digest) (r : RequestRecord Digest) :
    Lockstep K
      { s with
        grants := s.grants.insert g.id g
        operations := s.operations.insert o.id o
        requests := s.requests.insert k r }
      { t with
        grants := t.grants.insert g'.id g'
        operations := s.operations.insert o.id o
        requests := t.requests.insert k r } := by
  obtain ⟨G, R, rfl, hG, hR⟩ := h
  obtain ⟨W, rfl, hp⟩ := hg
  exact ⟨_, _, rfl, hG.insert ⟨W, rfl, hp⟩, hR.insert (.inl rfl)⟩

theorem Lockstep.grants (h : Lockstep K s t) : Paired (fun _ => Padded K.length) s.grants t.grants := by
  obtain ⟨G, R, rfl, hG, _⟩ := h
  exact hG

theorem Lockstep.requests (h : Lockstep K s t) : Paired (SameRecord K) s.requests t.requests := by
  obtain ⟨G, R, rfl, _, hR⟩ := h
  exact hR

theorem Lockstep.operations (h : Lockstep K s t) : t.operations = s.operations := by
  obtain ⟨G, R, rfl, _, _⟩ := h
  rfl

theorem Lockstep.plans (h : Lockstep K s t) : t.plans = s.plans := by
  obtain ⟨G, R, rfl, _, _⟩ := h
  rfl

theorem Lockstep.mode (h : Lockstep K s t) : t.mode = s.mode := by
  obtain ⟨G, R, rfl, _, _⟩ := h
  rfl

theorem Lockstep.mockLedgers (h : Lockstep K s t) : t.mockLedgers = s.mockLedgers := by
  obtain ⟨G, R, rfl, _, _⟩ := h
  rfl

theorem Lockstep.settleRecord (h : Lockstep K s t) (hv : s.Valid) (hr : s.requests[k]? = some r)
    (hout : r.status.outstanding = true) (success : Bool) (text : String) :
    Alike (fun a b => Lockstep K a.1 b.1) (s.settleRecord r success text)
      (t.settleRecord r success text) := by
  obtain ⟨v, hres, _, g, hg, _, u, hu, _⟩ := hv.holds hr hout
  unfold ExecutorState.settleRecord
  rw [h.operations]
  refine .shared _ fun v' hv' => (h.grants.lookup r.grant Error.storage).bind ?_
  obtain rfl : v = v' := Option.some.inj (hres.symm.trans (okOr_eq_ok.mp hv'))
  rintro g₀ g' ⟨hg₀, _, hpad⟩
  obtain rfl : g = g₀ := Option.some.inj (hg.symm.trans hg₀)
  refine .shared _ fun o _ => .shared _ fun _ _ => (hpad.settle hu success).bind fun g₁ g₁' h₁ => ?_
  exact .pure (h.book h₁ { o with status := if success then .consumed r.id else .available } _ _)

theorem Lockstep.owned_same (h : Lockstep K s t) (hr : s.requests[k]? = some r)
    (hr' : t.requests[k]? = some r) (caller : Principal) : t.owned caller k = s.owned caller k := by
  obtain ⟨G, R, rfl, _, _⟩ := h
  unfold ExecutorState.owned
  rw [hr, hr']

/-- A call about a record that both states share. -/
theorem Lockstep.step_same (h : Lockstep K s t) (hv : s.Valid) (ho : about op = some k)
    (hr : s.requests[k]? = some r) (hr' : t.requests[k]? = some r) :
    Lockstep K (s.step op) (t.step op) := by
  have hput : ∀ r, Lockstep K (s.putRequest k r) (t.putRequest k r) := fun r => h.put (.inl rfl)
  have hcur := h.current_eq (SameTicket.refl r)
  have hown := h.owned_same hr hr'
  cases op with
  | beginEvaluation caller k' now =>
    cases ho
    refine h.commit ?_
    unfold beginEvaluation
    rw [hown, h.plans, h.operations]
    refine .shared _ fun a ha => ?_
    obtain rfl : r = a := Option.some.inj (hr.symm.trans (owned_eq_ok.mp ha).1)
    rw [hcur]
    refine .shared _ fun _ _ => ?_
    cases s.current r now with
    | error e => exact hput _
    | ok _ =>
      dsimp only
      cases r.pending with
      | some p => exact .shared _ fun _ _ => .shared _ fun _ _ => hput _
      | none => exact .shared _ fun _ _ => .shared _ fun _ _ => .shared _ fun _ _ => hput _
  | engineTransportFailed k' evalId =>
    cases ho
    refine h.commit ?_
    unfold engineTransportFailed
    rw [hr, hr']
    refine .shared _ fun a _ => .shared _ fun _ _ => .shared _ fun q _ => .shared _ fun _ _ => ?_
    split <;> exact hput _
  | finishEvaluation k' evalId result now =>
    cases ho
    refine h.commit ?_
    unfold finishEvaluation
    rw [hr, hr', h.plans]
    refine .shared _ fun a ha => ?_
    obtain rfl : r = a := Option.some.inj (okOr_eq_ok.mp ha)
    rw [hcur]
    cases storedAnswer r evalId result with
    | some answer => exact h
    | none =>
      refine .shared _ fun _ _ => .shared _ fun q _ => .shared _ fun _ _ => ?_
      cases s.current r now with
      | error e => exact hput _
      | ok _ => exact .shared _ fun _ _ => .shared _ fun _ _ => hput _
  | finishLedger cmd outcome =>
    cases ho
    refine h.commit ?_
    unfold finishLedger
    rw [hr, hr']
    refine .shared _ fun a ha => .shared _ fun _ _ => ?_
    obtain rfl : r = a := Option.some.inj (okOr_eq_ok.mp ha)
    split
    · exact h
    · refine .shared _ fun _ hout => ?_
      have hset := h.settleRecord hv hr (not_not.mp (rejectIf_eq_ok.mp hout))
      have hunknown : ∀ why, Lockstep K (s.recordUnknown r why).1 (t.recordUnknown r why).1 :=
        fun why => h.put (.inl rfl)
      cases outcome with
      | success index => exact .shared _ fun _ _ => hset true index
      | duplicate index => exact .shared _ fun _ _ => hset true index
      | definitiveError why =>
        simp only [applyOutcome]
        split
        · exact hset false why
        · exact .pure (hunknown why)
      | unknown why => exact .pure (hunknown why)
  | retryUnknown caller k' now =>
    cases ho
    refine h.commit ?_
    unfold retryUnknown
    rw [hown, h.mode]
    refine .shared _ fun a ha => ?_
    obtain rfl : r = a := Option.some.inj (hr.symm.trans (owned_eq_ok.mp ha).1)
    rw [hcur]
    exact .shared _ fun _ _ => .shared _ fun _ _ => .shared _ fun _ _ => .shared _ fun _ _ => hput _
  | _ => cases ho

omit [Hashing Digest] in
theorem Refused.quiet (h : Refused r r') : r.status.quiet = true ∧ r'.status.quiet = true := by
  obtain ⟨_, hw⟩ := h.failed
  constructor
  · rcases h.status with hs | hs <;> rw [hs] <;> rfl
  · rw [hw]
    rfl

/-- A call that is neither a dispatch nor a cancellation keeps what the two states share. -/
theorem Lockstep.step_about (h : Lockstep K s t) (hv : s.Valid) (ho : about op = some k) :
    Lockstep K (s.step op) (t.step op) := by
  have hmissing : ∀ x : ExecutorState Digest, x.requests[k]? = none → x.step op = x := by
    intro x hx
    refine step_still ho fun r hr => ?_
    rw [hx] at hr
    cases hr
  have hquiet : ∀ (x : ExecutorState Digest) r, x.requests[k]? = some r → r.status.quiet = true →
      x.step op = x := by
    intro x r hx hq
    refine step_still ho fun r₁ hr => ?_
    rw [hx] at hr
    cases hr
    exact hq
  cases hr : s.requests[k]? with
  | none =>
    rw [hmissing s hr, hmissing t (h.requests.get_none hr)]
    exact h
  | some r =>
    obtain ⟨r', hr', rfl | ⟨_, href⟩⟩ := h.requests.get hr
    · exact h.step_same hv ho hr hr'
    · have hq := Refused.quiet href
      rw [hquiet s r hr hq.1, hquiet t r' hr' hq.2]
      exact h

/-- A refused dispatch cannot be cancelled any more, which only the first state notices. -/
theorem Lockstep.cancel (h : Lockstep K s t) (caller : Principal) (k : Digest) :
    Lockstep K (s.step (.cancel caller k)) (t.step (.cancel caller k)) := by
  have howned := h.owned caller k
  show Lockstep K (s.commit id (s.cancel caller k)) (t.commit id (t.cancel caller k))
  unfold ExecutorState.cancel
  generalize hx : s.owned caller k = x at howned ⊢
  generalize hy : t.owned caller k = y at howned ⊢
  cases x with
  | error e =>
    cases y with
    | error e' => exact h
    | ok r' => exact howned.elim
  | ok r =>
    cases y with
    | error e' => exact howned.elim
    | ok r' =>
      obtain ⟨hr, hr', rfl | ⟨hk, href⟩⟩ := howned
      · exact h.commit (.shared (Except.ok r') fun _ _ => .shared _ fun _ _ => h.put (.inl rfl))
      · rw [ok_bind, ok_bind,
          rejectIf_stop (c := r'.frozen.isSome = true ∨ r'.reservation.isSome = true)
            (.inl href.dispatched)]
        show Lockstep K (s.commit id _) t
        by_cases hc : r.frozen.isSome = true ∨ r.reservation.isSome = true
        · rw [rejectIf_stop hc]
          exact h
        · rw [rejectIf_bind hc]
          obtain ⟨G, R, rfl, hG, hR⟩ := h
          refine ⟨G, R, rfl, hG, ?_⟩
          show Paired _ (s.requests.insert k _) R
          rw [← insert_get R hr']
          refine hR.insert (.inr ⟨hk, ?_, .inr rfl, href.undispatched, href.failed, href.dispatched⟩)
          rw [href.ticket]
          rfl

theorem Lockstep.recover (h : Lockstep K s t) :
    Lockstep K s.recoverAfterUpgrade t.recoverAfterUpgrade := by
  obtain ⟨G, R, rfl, hG, hR⟩ := h
  refine ⟨G, R.map fun _ r => r.recover, rfl, hG, hR.map fun k r r' hs => ?_⟩
  rcases hs with rfl | ⟨hk, href⟩
  · exact .inl rfl
  · obtain ⟨why, hw⟩ := href.failed
    have hr : r.recover = r := by
      unfold RequestRecord.recover
      rcases href.status with hs | hs <;> rw [hs]
    have hr' : r'.recover = r' := by
      unfold RequestRecord.recover
      rw [hw]
    rw [hr, hr']
    exact .inr ⟨hk, href⟩

end Records

section Calls

theorem Lockstep.setMode (h : Lockstep K s t) (caller : Principal) (mode : Mode) :
    Alike (Lockstep K) (s.setMode caller mode) (t.setMode caller mode) := by
  obtain ⟨G, R, rfl, hG, hR⟩ := h
  exact .shared _ fun _ _ => .shared _ fun _ _ => .pure ⟨G, R, rfl, hG, hR⟩

theorem Lockstep.setPaused (h : Lockstep K s t) (caller : Principal) (pause : Bool) :
    Alike (Lockstep K) (s.setPaused caller pause) (t.setPaused caller pause) := by
  obtain ⟨G, R, rfl, hG, hR⟩ := h
  exact .shared _ fun _ _ => .pure ⟨G, R, rfl, hG, hR⟩

theorem Lockstep.addMockLedger (h : Lockstep K s t) (caller ledger : Principal) :
    Alike (Lockstep K) (s.addMockLedger caller ledger) (t.addMockLedger caller ledger) := by
  obtain ⟨G, R, rfl, hG, hR⟩ := h
  unfold ExecutorState.addMockLedger
  refine .shared _ fun _ _ => ?_
  dsimp only
  split
  · exact .pure ⟨G, R, rfl, hG, hR⟩
  · exact .shared _ fun _ _ => .pure ⟨G, R, rfl, hG, hR⟩

theorem Lockstep.installPlan (h : Lockstep K s t) (caller : Principal) (p : Plan Digest) :
    Alike (Lockstep K) (s.installPlan caller p) (t.installPlan caller p) := by
  obtain ⟨G, R, rfl, hG, hR⟩ := h
  unfold ExecutorState.installPlan
  refine .shared _ fun _ _ => .shared _ fun _ _ => ?_
  dsimp only
  cases s.plans[p.id]? with
  | none => exact .shared _ fun _ _ => .pure ⟨G, R, rfl, hG, hR⟩
  | some old =>
    dsimp only
    split
    · exact .pure ⟨G, R, rfl, hG, hR⟩
    · exact trivial

theorem Lockstep.installOperation (h : Lockstep K s t) (caller : Principal) (o : Operation Digest) :
    Alike (Lockstep K) (s.installOperation caller o) (t.installOperation caller o) := by
  obtain ⟨G, R, rfl, hG, hR⟩ := h
  exact .shared _ fun _ _ => .shared _ fun _ _ => .shared _ fun _ _ => .shared _ fun _ _ =>
    .shared _ fun _ _ => .pure ⟨G, R, rfl, hG, hR⟩

theorem Lockstep.reviseOperation (h : Lockstep K s t) (caller : Principal) (k : Digest)
    (evidence : String) :
    Alike (Lockstep K) (s.reviseOperation caller k evidence) (t.reviseOperation caller k evidence) := by
  obtain ⟨G, R, rfl, hG, hR⟩ := h
  exact .shared _ fun _ _ => .shared _ fun _ _ => .shared _ fun o _ => .shared _ fun _ _ =>
    .shared _ fun rev _ => .pure ⟨G, R, rfl, hG, hR⟩

theorem Lockstep.installGrant (h : Lockstep K s t) (caller : Principal) (g : Grant Digest) :
    Alike (Lockstep K) (s.installGrant caller g) (t.installGrant caller g) := by
  obtain ⟨G, R, rfl, hG, hR⟩ := h
  unfold ExecutorState.installGrant
  dsimp only
  rw [← hG.contains g.id, ← hG.size]
  refine .shared _ fun _ _ => .shared _ fun _ _ => .shared _ fun _ _ => .shared _ fun _ _ =>
    .shared _ fun _ _ => .shared _ fun _ _ => .pure ⟨_, R, rfl, ?_, hR⟩
  exact hG.insert ⟨g.windows, rfl, .refl _ _⟩

theorem Lockstep.revoke (h : Lockstep K s t) (caller : Principal) (k : Digest) :
    Alike (Lockstep K) (s.revoke caller k) (t.revoke caller k) := by
  obtain ⟨G, R, rfl, hG, hR⟩ := h
  unfold ExecutorState.revoke
  refine .shared _ fun _ _ => (hG.lookup k Error.notFound).bind ?_
  rintro g g' ⟨_, _, W, rfl, hp⟩
  exact .shared _ fun _ _ => .pure ⟨_, R, rfl, hG.insert ⟨W, rfl, hp⟩, hR⟩

theorem Lockstep.submit (h : Lockstep K s t) (caller : Principal) (nonce : UInt64)
    (operation grant : Digest) (now : UInt64) :
    Alike (fun a b => Lockstep K a.1 b.1) (s.submit caller nonce operation grant now)
      (t.submit caller nonce operation grant now) := by
  obtain ⟨G, R, rfl, hG, hR⟩ := h
  unfold ExecutorState.submit
  have hid : ({ s with grants := G, requests := R } : ExecutorState Digest).requestId caller nonce =
      s.requestId caller nonce := rfl
  dsimp only
  rw [hid]
  generalize s.requestId caller nonce = id
  refine .shared _ fun _ _ => .shared _ fun _ _ => ?_
  split
  · -- the same submission once more
    cases hr : s.requests[id]? with
    | none =>
      rw [hR.get_none hr]
      exact trivial
    | some r =>
      obtain ⟨r', hr', hs⟩ := hR.get hr
      rw [hr', hs.ticket]
      dsimp only
      split
      · exact .pure ⟨G, R, rfl, hG, hR⟩
      · exact trivial
  · rw [← hR.size]
    refine .shared _ fun _ _ => .shared _ fun _ _ => (hG.lookup grant Error.notFound).bind ?_
    rintro g g' ⟨_, _, W, rfl, hp⟩
    refine .shared _ fun o _ => ?_
    rw [Padded.eligible_eq ⟨W, rfl, hp⟩]
    refine .shared _ fun _ _ => .shared _ fun _ _ => .shared _ fun p _ => ?_
    generalize checkedAdd64 now 300000000000 = expiry
    refine .shared _ fun expires _ => .shared _ fun next _ => .pure ?_
    have hsnap : snapshot o { g with windows := W } p = snapshot o g p := rfl
    rw [hsnap]
    dsimp only
    exact ⟨G, _, rfl, hG, hR.insert (.inl rfl)⟩

end Calls

section Dispatches

theorem Lockstep.request_eq (h : Lockstep K s t) (hk : k ∉ K) : t.requests[k]? = s.requests[k]? := by
  cases hr : s.requests[k]? with
  | none => exact h.requests.get_none hr
  | some r =>
    obtain ⟨r', hr', rfl | ⟨hmem, _⟩⟩ := h.requests.get hr
    · exact hr'
    · exact absurd hmem hk

theorem Lockstep.authorize_eq (h : Lockstep K s t) (hreq : t.requests[k]? = s.requests[k]?)
    (caller : Principal) (now : UInt64) :
    t.authorize caller k now = s.authorize caller k now := by
  have hown : t.owned caller k = s.owned caller k := by
    unfold ExecutorState.owned
    rw [hreq]
    obtain ⟨G, R, rfl, _, _⟩ := h
    rfl
  unfold authorize
  rw [hown, h.plans, h.operations]
  cases s.owned caller k with
  | error e => rfl
  | ok r =>
    rw [ok_bind, ok_bind, h.current_eq (SameTicket.refl r) now]

/-- What is left of a dispatch once everything but the budget was checked. -/
theorem prepareDispatch_mock {a b : AuthorizedTransfer Digest} {now : UInt64} {o : Operation Digest}
    {g : Grant Digest} {c : U128} (hr : s.requests[a.request]? = some r)
    (hb : s.authorize r.caller r.id now = .ok b) (hsnap : a.snapshot = r.snapshot)
    (hm : s.mode = .mock) (ho : s.operations[r.operation]? = some o)
    (hl : o.proposal.ledger ∈ s.mockLedgers) (hg : s.grants[r.grant]? = some g)
    (hc : o.proposal.charge = .ok c) :
    s.prepareDispatch a now = g.reserve c (now / g.windowNs) >>= fun g' =>
      .ok ({ s with
        grants := s.grants.insert g'.id g'
        operations := s.operations.insert o.id { o with status := .reserved r.id }
        requests := s.requests.insert r.id
          (dispatched r ⟨c, now / g.windowNs⟩ ⟨o.proposal, r.id, now⟩) },
        .ok ⟨r.id, 1, ⟨o.proposal, r.id, now⟩⟩) := by
  unfold prepareDispatch
  rw [hr, hm]
  simp only [okOr, ok_bind, hb, ho, hg, hc, rejectIf_bind (not_not.mpr hsnap),
    rejectIf_bind (not_not.mpr hl)]
  rfl

/-- The first state has room for the dispatch. In the second its grant keeps 64 windows already, and
the epoch is not one of them; at most `n` of the windows are there because of refused dispatches. -/
def CrowdedOut (n : ℕ) (s t : ExecutorState Digest) (a : AuthorizedTransfer Digest) (now : UInt64) :
    Prop :=
  (∃ s' cmd, s.prepareDispatch a now = .ok (s', .ok cmd)) ∧
    t.prepareDispatch a now = .error .capacity ∧
    ∃ r g g', s.requests[a.request]? = some r ∧ s.grants[r.grant]? = some g ∧
      t.grants[r.grant]? = some g' ∧ g'.windows.contains (now / g.windowNs) = false ∧
      g'.windows.size = 64 ∧ g.windows.size < 64 ∧ 64 ≤ g.windows.size + n

/-- No grant keeps more than 64 windows. -/
def WindowsBounded (s : ExecutorState Digest) : Prop :=
  ∀ (k : Digest) g, s.grants[k]? = some g → g.windows.size ≤ 64

/-- A dispatch of a request whose records agree does the same in both states, unless it is crowded
out. -/
theorem Lockstep.prepareDispatch (h : Lockstep K s t) (hs : s.Coherent) (ht : t.WindowsBounded)
    {a : AuthorizedTransfer Digest} (hreq : t.requests[a.request]? = s.requests[a.request]?)
    (now : UInt64) :
    Alike (fun x y => Lockstep K x.1 y.1 ∧ x.2 = y.2) (s.prepareDispatch a now)
      (t.prepareDispatch a now) ∨ CrowdedOut K.length s t a now := by
  rw [or_iff_not_imp_right]
  intro hroom
  unfold ExecutorState.prepareDispatch
  rw [hreq]
  refine .shared _ fun r hr => ?_
  rw [okOr_eq_ok] at hr
  have hid := (hs.request _ r hr).id_eq
  have hreq' : t.requests[r.id]? = s.requests[r.id]? := by rw [hid, hreq]
  rw [h.authorize_eq hreq', h.mode]
  refine .shared _ fun b hb => .shared _ fun _ hsnap => ?_
  have hreport : Lockstep K (s.putRequest r.id { r with status := .reported })
      (t.putRequest r.id { r with status := .reported }) := h.put (.inl rfl)
  cases hm : s.mode with
  | reportOnly => exact .pure ⟨hreport, rfl⟩
  | shadow => exact .pure ⟨hreport, rfl⟩
  | limitedLive => exact trivial
  | mock =>
    dsimp only
    rw [h.operations, h.mockLedgers]
    refine .shared _ fun o ho => .shared _ fun _ hl => (h.grants.lookup r.grant Error.notFound).bind ?_
    rintro g g' ⟨hg, hg', hpad⟩
    refine .shared _ fun c hc => ?_
    have hwin : g'.windowNs = g.windowNs := by obtain ⟨W, rfl, _⟩ := hpad; rfl
    rw [hwin]
    rcases hpad.reserve (ht _ _ hg') c (now / g.windowNs) with hsame | ⟨hepoch, hfull, hfree, ⟨g₁, h₁⟩, h₂⟩
    · refine hsame.bind fun g₁ g₁' h₁ => .pure ⟨?_, rfl⟩
      have hbook := h.book h₁ { o with status := .reserved r.id } r.id
        (dispatched r ⟨c, now / g.windowNs⟩ ⟨o.proposal, r.id, now⟩)
      simp only [h.mode, hm, h.mockLedgers] at hbook
      exact hbook
    · have hsnap := not_not.mp (rejectIf_eq_ok.mp hsnap)
      have hl := not_not.mp (rejectIf_eq_ok.mp hl)
      rw [okOr_eq_ok] at ho
      have hb' := (h.authorize_eq hreq' r.caller now).trans hb
      have hs' := prepareDispatch_mock hr hb hsnap hm ho hl hg hc
      rw [h₁, ok_bind] at hs'
      refine absurd ⟨⟨_, _, hs'⟩, ?_, r, g, g', hr, hg, hg', hepoch, hfull, hfree, ?_⟩ hroom
      · rw [prepareDispatch_mock (hreq.trans hr) hb' hsnap (h.mode.trans hm) (h.operations ▸ ho)
          (h.mockLedgers ▸ hl) hg' hc, hwin, h₂]
        rfl
      · obtain ⟨W, rfl, hp⟩ := hpad
        exact hfull ▸ hp.size

/-- The request was dispatched and refused in the second state, and is dispatched again: the first
state makes the dispatch, the second has done with the request. -/
def Redispatched (K : List Digest) (s t : ExecutorState Digest) (a : AuthorizedTransfer Digest)
    (now : UInt64) : Prop :=
  a.request ∈ K ∧ (∃ x, s.prepareDispatch a now = .ok x) ∧
    t.prepareDispatch a now = .error .transition

/-- A request that was refused is not authorized again. -/
theorem Lockstep.authorize_refused (h : Lockstep K s t) (hr' : t.requests[k]? = some r')
    (href : Refused r r') (now : UInt64) :
    t.authorize r'.caller k now = s.current r now >>= fun _ => .error .transition := by
  have hown : t.owned r'.caller k = .ok r' := owned_eq_ok.mpr ⟨hr', .inl rfl⟩
  obtain ⟨why, hfailed⟩ := href.failed
  have hst : r'.status ≠ .readyToDispatch ∨ r'.pending.isSome := .inl (by rw [hfailed]; nofun)
  unfold authorize
  rw [hown, ok_bind, h.current_eq href.ticket now]
  cases s.current r now with
  | error e => rfl
  | ok u => exact rejectIf_stop hst _ _

theorem prepareDispatch_of_authorize {a : AuthorizedTransfer Digest} {now : UInt64} {e : Error}
    (hr : s.requests[a.request]? = some r) (hauth : s.authorize r.caller r.id now = .error e) :
    s.prepareDispatch a now = .error e := by
  unfold ExecutorState.prepareDispatch
  rw [hr]
  show (s.authorize r.caller r.id now >>= _) = _
  rw [hauth]
  rfl

theorem Lockstep.redispatch (h : Lockstep K s t) (hs : s.Coherent) {a : AuthorizedTransfer Digest}
    (hr : s.requests[a.request]? = some r) (hr' : t.requests[a.request]? = some r')
    (hk : a.request ∈ K) (href : Refused r r') (now : UInt64) :
    (∃ e e', s.prepareDispatch a now = .error e ∧ t.prepareDispatch a now = .error e') ∨
      Redispatched K s t a now := by
  have hid := (hs.request _ r hr).id_eq
  have hid' : r'.id = a.request := by
    rw [href.ticket]
    exact hid
  have hauth := h.authorize_refused hr' href now
  rw [← hid'] at hauth
  cases hx : s.prepareDispatch a now with
  | error e =>
    cases hcur : s.current r now with
    | error e' =>
      rw [hcur] at hauth
      exact .inl ⟨e, e', rfl, prepareDispatch_of_authorize hr' hauth⟩
    | ok u =>
      rw [hcur] at hauth
      exact .inl ⟨e, .transition, rfl, prepareDispatch_of_authorize hr' hauth⟩
  | ok x =>
    obtain ⟨r₁, hr₁, ⟨b, hb⟩, -⟩ := prepareDispatch_eq_ok.mp hx
    obtain rfl : r = r₁ := Option.some.inj (hr.symm.trans hr₁)
    obtain ⟨r₂, -, -, hr₂, -, hcur, -⟩ := authorize_eq_ok.mp hb
    rw [hid] at hr₂
    obtain rfl : r = r₂ := Option.some.inj (hr.symm.trans hr₂)
    rw [hcur] at hauth
    exact .inr ⟨hk, ⟨x, hx⟩, prepareDispatch_of_authorize hr' hauth⟩

/-- The commands of such a dispatch. -/
theorem Lockstep.command (h : Lockstep K s t) (hs : s.Coherent) (ht : t.WindowsBounded)
    {a : AuthorizedTransfer Digest} (hk : a.request ∉ K) (now : UInt64) :
    t.command (.prepareDispatch a now) = s.command (.prepareDispatch a now) ∨
      CrowdedOut K.length s t a now := by
  refine (h.prepareDispatch hs ht (h.request_eq hk) now).imp_left fun hd => ?_
  unfold ExecutorState.command
  dsimp only
  generalize s.prepareDispatch a now = x at hd ⊢
  generalize t.prepareDispatch a now = y at hd ⊢
  cases x with
  | error e =>
    cases y with
    | error e' => rfl
    | ok y => exact hd.elim
  | ok x =>
    cases y with
    | error e' => exact hd.elim
    | ok y =>
      obtain ⟨s', res⟩ := x
      obtain ⟨t', res'⟩ := y
      obtain ⟨_, he⟩ := hd
      dsimp only at he
      rw [he]
      cases res' <;> rfl

theorem WindowsBounded.change {op : Op Digest} (h : s.WindowsBounded) (hs : Change s op s') :
    s'.WindowsBounded := by
  cases hs with
  | grant g hw ht he hn =>
    refine forall_insert h ?_
    rw [he]
    exact Nat.zero_le _
  | revoke g k rev hg hrev => exact forall_insert h (h k g hg)
  | dispatch a b now r o g g' c hr hid hsnap hb hm ho hl hg hc hv =>
    refine forall_insert h ?_
    obtain ⟨hroom, tr, wr, _, _, _, _, rfl⟩ := Grant.reserve_eq_ok.mp hv
    have hle := h _ g hg
    dsimp only
    rw [ExtTreeMap.size_insert]
    split
    · exact hle
    · next hc =>
      exact hroom (Bool.not_eq_true _ ▸ hc)
  | settle cmd outcome r v o g g' success text hr hs hid hf hset hblock hv ho hst hg hse =>
    refine forall_insert h ?_
    obtain ⟨old, ts, tr, ws, wr, hold, _, _, _, _, rfl⟩ := Grant.settle_eq_ok.mp hse
    dsimp only
    rw [ExtTreeMap.size_insert, if_pos ((contains_iff_get _ _).mpr ⟨old, hold⟩)]
    exact h _ g hg
  | _ => exact h

/-- The invariant of both runs. -/
structure Sound (s : ExecutorState Digest) : Prop where
  valid : s.Valid
  windows : s.WindowsBounded

theorem Sound.step (hcf : CollisionFree Digest) (h : s.Sound) (op : Op Digest) : (s.step op).Sound := by
  have hs := change_of_step hcf h.valid.coherent op
  exact ⟨h.valid.change hs, h.windows.change hs⟩

theorem sound_of_reachable (hcf : CollisionFree Digest) (h : s.Reachable) : s.Sound := by
  obtain ⟨self, owner, engine, ops, rfl⟩ := h
  apply run_invariant Sound fun s op hs => hs.step hcf op
  refine ⟨valid_new self owner engine, fun k g hg => ?_⟩
  simp [new] at hg

/-- The dispatch `a` is made, and the ledger refuses it for good at its first attempt. -/
def refuse (s : ExecutorState Digest) (a : AuthorizedTransfer Digest) (now : UInt64) (why : String) :
    ExecutorState Digest :=
  match s.command (.prepareDispatch a now) with
  | some cmd => (s.step (.prepareDispatch a now)).step (.finishLedger cmd (.definitiveError why))
  | none => s

theorem Sound.refuse (hcf : CollisionFree Digest) (h : s.Sound) (a : AuthorizedTransfer Digest)
    (now : UInt64) (why : String) : (s.refuse a now why).Sound := by
  unfold ExecutorState.refuse
  split
  · exact (h.step hcf _).step hcf _
  · exact h

omit [Hashing Digest] in
/-- A reservation that is given back leaves an entry that reads as before. -/
theorem settle_reserve {g g₁ : Grant Digest} {c : U128} {e : UInt64} (h : g.reserve c e = .ok g₁) :
    g₁.settle c e false =
      .ok { g with windows := g.windows.insert e (g.windows[e]?.getD default) } := by
  obtain ⟨_, tr, wr, htr, hwr, _, _, rfl⟩ := Grant.reserve_eq_ok.mp h
  refine Grant.settle_eq_ok.mpr ⟨_, g.total.spent, g.total.reserved, _,
    (g.windows[e]?.getD default).reserved, get_insert_self _ _ _, htr, hwr, rfl, rfl, ?_⟩
  dsimp only
  rw [insert_insert]

/-- A known error of the only attempt is settled at once. -/
theorem finishLedger_refused {v : Reservation} {f : FrozenTransfer Digest} {g g' : Grant Digest}
    {o : Operation Digest} (hr : s.requests[r.id]? = some (dispatched r v f))
    (hg : s.grants[r.grant]? = some g) (ho : s.operations[r.operation]? = some o)
    (hst : o.status = .reserved r.id) (hu : r.everUnknown = false)
    (hse : g.settle v.charge v.epoch false = .ok g') (why : String) :
    s.step (.finishLedger ⟨r.id, 1, f⟩ (.definitiveError why)) = { s with
      grants := s.grants.insert g'.id g'
      operations := s.operations.insert o.id { o with status := .available }
      requests := s.requests.insert r.id (settled (dispatched r v f) false why) } := by
  have hset : settlement (dispatched r v f) 1 (.definitiveError why) = some (false, why) :=
    if_pos ⟨hu, rfl⟩
  have happly := applyOutcome_eq_ok.mpr (.inl ⟨false, why, hset, nofun,
    settleRecord_eq_ok.mpr ⟨v, g, o, g', rfl, hg, ho, hst, hse, rfl, rfl⟩⟩)
  have hone : (1 : UInt8) ≠ 0 := by decide
  have hfinish : s.finishLedger ⟨r.id, 1, f⟩ (.definitiveError why) = .ok (_, _) :=
    finishLedger_eq_ok.mpr ⟨dispatched r v f, hr, rfl, hone, UInt8.le_refl 1, .inr ⟨rfl, rfl, happly⟩⟩
  show s.commit Prod.fst (s.finishLedger ⟨r.id, 1, f⟩ (.definitiveError why)) = _
  rw [hfinish]
  rfl

/-- A refused dispatch leaves its settled record, and in the grant one entry that reads as before. -/
theorem refuse_eq (hv : s.Valid) (a : AuthorizedTransfer Digest) (now : UInt64) (why : String) :
    s.refuse a now why = s ∨
      ∃ r g v f e, s.requests[a.request]? = some r ∧ r.status = .readyToDispatch ∧ r.frozen = none ∧
        s.grants[r.grant]? = some g ∧
        s.refuse a now why = { s with
          grants := s.grants.insert r.grant
            { g with windows := g.windows.insert e (g.windows[e]?.getD default) }
          requests := s.requests.insert a.request (settled (dispatched r v f) false why) } := by
  unfold refuse
  split
  · next cmd hcmd =>
    obtain ⟨s₁, hs₁⟩ := command_prepareDispatch.mp hcmd
    have hstep : s.step (.prepareDispatch a now) = s₁ := by
      show s.commit Prod.fst (s.prepareDispatch a now) = s₁
      rw [hs₁]
      rfl
    obtain ⟨r, hr, ⟨b, hb⟩, _, ⟨_, hres, _⟩ | ⟨_, o, g, g₁, c, ho, _, hg, _, hres₁, hcmd₁, rfl⟩⟩ :=
      prepareDispatch_eq_ok.mp hs₁
    · cases hres
    have hid := (hv.coherent.request _ r hr).id_eq
    obtain ⟨hst, hav⟩ := ready_of_authorize (hid ▸ hr) hb ho
    obtain ⟨_, _, _, _, hok⟩ := hv.lifecycle.record _ r hr
    have hun := hok.undispatched (by rw [hst]; rfl)
    cases hcmd₁
    refine .inr ⟨r, g, ⟨c, now / g.windowNs⟩, ⟨o.proposal, r.id, now⟩, now / g.windowNs, hr, hst,
      hun.frozen, hg, ?_⟩
    have hgid := (hv.coherent.grant _ g hg).1
    have hoid := (hv.coherent.operation _ o ho).1
    have hid₁ : g₁.id = r.grant := by
      rw [reserve_sameTerms hres₁]
      exact hgid
    have hops : (s.operations.insert o.id { o with status := .reserved r.id }).insert o.id
        { o with status := .available } = s.operations := by
      have ho' : { o with status := .available } = o := by rw [← hav]
      rw [insert_insert, ho', hoid]
      exact insert_get _ ho
    have hg₁ : (s.grants.insert g₁.id g₁)[r.grant]? = some g₁ := by rw [get_insert, if_pos hid₁.symm]
    have ho₁ : (s.operations.insert o.id { o with status := .reserved r.id })[r.operation]? =
        some { o with status := .reserved r.id } := by rw [get_insert, if_pos hoid.symm]
    rw [hstep, finishLedger_refused (get_insert_self _ _ _) hg₁ ho₁ rfl hun.everUnknown
      (settle_reserve hres₁)]
    dsimp only
    rw [hops, hid₁, hgid, hid, insert_insert, insert_insert]
  · exact .inl rfl

/-- A refused dispatch of the second state keeps the two states in lockstep. -/
theorem Lockstep.refuse (h : Lockstep K s t) (hv : t.Valid) (a : AuthorizedTransfer Digest)
    (now : UInt64) (why : String) : Lockstep (a.request :: K) s (t.refuse a now why) := by
  have hrecord : ∀ k r r', SameRecord K k r r' → SameRecord (a.request :: K) k r r' :=
    fun k r r' hs => hs.imp_right fun hr => ⟨List.mem_cons_of_mem _ hr.1, hr.2⟩
  have hgrant : ∀ g g' : Grant Digest, Padded K.length g g' → Padded (a.request :: K).length g g' :=
    fun g g' hp => hp.mono (Nat.le_succ _)
  obtain he | ⟨r, g, v, f, e, hr, hst, hfrozen, hg, he⟩ := refuse_eq hv a now why
  · rw [he]
    obtain ⟨G, R, rfl, hG, hR⟩ := h
    exact ⟨G, R, rfl, hG.mono fun _ => hgrant, hR.mono hrecord⟩
  · rw [he]
    obtain ⟨G, R, rfl, hG, hR⟩ := h
    refine ⟨_, _, rfl, ?_, ?_⟩
    · obtain ⟨g₀, hg₀, W, rfl, hp⟩ := hG.get_of_second hg
      exact hG.replace_second (fun _ => hgrant) hg₀ ⟨_, rfl, hp.pad e⟩
    · obtain ⟨r₀, hr₀, hs⟩ := hR.get_of_second hr
      obtain rfl : r = r₀ := by
        rcases hs with hs | ⟨_, href⟩
        · exact hs
        · obtain ⟨why', hw⟩ := href.failed
          rw [hst] at hw
          cases hw
      exact hR.replace_second hrecord hr₀
        (.inr ⟨List.mem_cons_self, rfl, .inl hst, hfrozen, ⟨why, rfl⟩, rfl⟩)

end Dispatches

section Runs

/-- What happens in both runs, and what happens in the second run only. -/
inductive DispatchEvent (Digest : Type) [Ord Digest]
  | both (op : Op Digest)
  | refused (a : AuthorizedTransfer Digest) (now : UInt64) (why : String)

def withRefused (s : ExecutorState Digest) : DispatchEvent Digest → ExecutorState Digest
  | .both op => s.step op
  | .refused a now why => s.refuse a now why

def withoutRefused (s : ExecutorState Digest) : DispatchEvent Digest → ExecutorState Digest
  | .both op => s.step op
  | .refused _ _ _ => s

/-- The requests of the refused dispatches. -/
def refusedRequests (K : List Digest) : List (DispatchEvent Digest) → List Digest
  | [] => K
  | .both _ :: es => refusedRequests K es
  | .refused a _ _ :: es => refusedRequests (a.request :: K) es

/-- One call on both states. -/
theorem Lockstep.step (h : Lockstep K s t) (hs : s.Sound) (ht : t.Sound) (op : Op Digest) :
    Lockstep K (s.step op) (t.step op) ∨ ∃ a now, op = .prepareDispatch a now ∧
      (CrowdedOut K.length s t a now ∨ Redispatched K s t a now) := by
  cases op with
  | setMode caller mode => exact .inl (h.commit (h.setMode caller mode))
  | setPaused caller pause => exact .inl (h.commit (h.setPaused caller pause))
  | addMockLedger caller ledger => exact .inl (h.commit (h.addMockLedger caller ledger))
  | installPlan caller p => exact .inl (h.commit (h.installPlan caller p))
  | installOperation caller o => exact .inl (h.commit (h.installOperation caller o))
  | reviseOperation caller k evidence => exact .inl (h.commit (h.reviseOperation caller k evidence))
  | installGrant caller g => exact .inl (h.commit (h.installGrant caller g))
  | revoke caller k => exact .inl (h.commit (h.revoke caller k))
  | submit caller nonce operation grant now =>
    exact .inl (h.commit (h.submit caller nonce operation grant now))
  | prepareDispatch a now =>
    have hagree : t.requests[a.request]? = s.requests[a.request]? →
        Lockstep K (s.step (.prepareDispatch a now)) (t.step (.prepareDispatch a now)) ∨
          CrowdedOut K.length s t a now := fun hreq =>
      (h.prepareDispatch hs.valid.coherent ht.windows hreq now).imp_left fun hd =>
        h.commit (hd.mono fun x y hxy => hxy.1)
    have hcases : Lockstep K (s.step (.prepareDispatch a now)) (t.step (.prepareDispatch a now)) ∨
        CrowdedOut K.length s t a now ∨ Redispatched K s t a now := by
      cases hr : s.requests[a.request]? with
      | none => exact (hagree (by rw [hr, h.requests.get_none hr])).imp_right .inl
      | some r =>
        obtain ⟨r', hr', rfl | ⟨hmem, href⟩⟩ := h.requests.get hr
        · exact (hagree (hr'.trans hr.symm)).imp_right .inl
        · refine (h.redispatch hs.valid.coherent hr hr' hmem href now).imp ?_ .inr
          rintro ⟨e, e', he, he'⟩
          exact h.commit (by rw [he, he']; exact trivial)
    exact hcases.imp_right fun hd => ⟨a, now, rfl, hd⟩
  | cancel caller k => exact .inl (h.cancel caller k)
  | recoverAfterUpgrade => exact .inl h.recover
  | _ => exact .inl (h.step_about hs.valid rfl)

/-- Where the runs part: a dispatch of both that only the first run makes, as the second one has no
room for it or has had it refused. -/
def Parts (K : List Digest) (s t : ExecutorState Digest) (es : List (DispatchEvent Digest)) : Prop :=
  ∃ pre a now post, es = pre ++ .both (.prepareDispatch a now) :: post ∧
    Lockstep (refusedRequests K pre) (run withoutRefused s pre) (run withRefused t pre) ∧
    (CrowdedOut (refusedRequests K pre).length (run withoutRefused s pre) (run withRefused t pre) a
        now ∨
      Redispatched (refusedRequests K pre) (run withoutRefused s pre) (run withRefused t pre) a now)

theorem Lockstep.run (hcf : CollisionFree Digest) (h : Lockstep K s t) (hs : s.Sound) (ht : t.Sound)
    (es : List (DispatchEvent Digest)) :
    Lockstep (refusedRequests K es) (run withoutRefused s es) (run withRefused t es) ∨
      Parts K s t es := by
  induction es generalizing K s t with
  | nil => exact .inl h
  | cons e es ih =>
    have hcons : ∀ {K' : List Digest} {s' t' : ExecutorState Digest},
        (∀ fs, refusedRequests K (e :: fs) = refusedRequests K' fs) →
        withoutRefused s e = s' → withRefused t e = t' → Parts K' s' t' es →
        Parts K s t (e :: es) := by
      rintro K' s' t' hK rfl rfl ⟨pre, a, now, post, rfl, hl, hc⟩
      refine ⟨e :: pre, a, now, post, rfl, ?_⟩
      rw [hK, run_cons, run_cons]
      exact ⟨hl, hc⟩
    cases e with
    | both op =>
      obtain hl | ⟨a, now, rfl, hc⟩ := h.step hs ht op
      · exact (ih hl (hs.step hcf op) (ht.step hcf op)).imp_right (hcons (fun _ => rfl) rfl rfl)
      · exact .inr ⟨[], a, now, es, rfl, h, hc⟩
    | refused a now why =>
      exact (ih (h.refuse ht.valid a now why) hs (ht.refuse hcf a now why)).imp_right
        (hcons (fun _ => rfl) rfl rfl)

/-- Dispatches that the ledger refused for good at their first attempt are undone: a run with any
number of them differs from the run without them only in the records of their requests and in window
entries that read as before, at most one for each, and dispatches the other requests with the same
commands. The runs part only where these entries have filled the 64 windows of a grant, or where a
refused request is dispatched again. -/
theorem refused_dispatches_undone (hcf : CollisionFree Digest) (h : s.Reachable)
    (es : List (DispatchEvent Digest)) :
    Lockstep (refusedRequests [] es) (run withoutRefused s es) (run withRefused s es) ∧
      (∀ a now, a.request ∉ refusedRequests [] es →
        (run withRefused s es).command (.prepareDispatch a now) =
            (run withoutRefused s es).command (.prepareDispatch a now) ∨
          CrowdedOut (refusedRequests [] es).length (run withoutRefused s es) (run withRefused s es)
            a now) ∨
      Parts [] s s es := by
  have hs := sound_of_reachable hcf h
  have hwith : (run withRefused s es).Sound := by
    refine run_invariant Sound (fun s e hs => ?_) hs es
    cases e with
    | both op => exact hs.step hcf op
    | refused a now why => exact hs.refuse hcf a now why
  have hwithout : (run withoutRefused s es).Sound := by
    refine run_invariant Sound (fun s e hs => ?_) hs es
    cases e with
    | both op => exact hs.step hcf op
    | refused a now why => exact hs
  refine ((Lockstep.refl [] s).run hcf hs hs es).imp_left fun hl => ⟨hl, fun a now hk => ?_⟩
  exact hl.command hwithout.valid.coherent hwith.windows hk now

/-- The first dispatch is refused, and the delegate submits the operation again. -/
def resubmitted : List (DispatchEvent SymbolicDigest) :=
  [.refused Sample.token 8000 "insufficient funds",
    .both (.submit Sample.delegate 1 Sample.operation.id Sample.grant.id 9000)]

theorem refused_dispatches_undone_resubmitted :
    ((run withRefused (run step Sample.start Sample.judged) resubmitted).requests[Sample.request]?).map
        RequestRecord.status = some (.failedDefinitive "insufficient funds") ∧
      Lockstep [Sample.request] (run withoutRefused (run step Sample.start Sample.judged) resubmitted)
        (run withRefused (run step Sample.start Sample.judged) resubmitted) := by
  refine ⟨by decide +kernel, ?_⟩
  obtain ⟨h, _⟩ | ⟨pre, a, now, post, he, _⟩ :=
    refused_dispatches_undone SymbolicDigest.collisionFree
      ⟨Sample.self, Sample.owner, Sample.engine, Sample.judged, rfl⟩ resubmitted
  · exact h
  · have hmem : DispatchEvent.both (.prepareDispatch a now) ∈ resubmitted := by
      rw [he]
      exact List.mem_append_right _ List.mem_cons_self
    simp [resubmitted] at hmem

end Runs

end ExecutorState

end IcLaya
