import IcLaya.InvariantChecks

/-!
# The lifecycle of a request

`Status.leadsTo` is the state table. One call moves a request along one of its edges or
not at all, keeps its frozen transfer, and lets go of an unknown outcome only when the
ledger reports that the transfer happened; that report is always accepted.
-/
namespace IcLaya
open CheckedWords Fallible OrderedMaps TransitionSystems RequestRecord

variable {Digest : Type} [Hashing Digest]

/-- The state table of a request. -/
def Status.leadsTo : Status → Status → Bool
  | .received, .evaluating | .received, .stale | .received, .cancelled => true
  | .evaluating, .evaluating | .evaluating, .received | .evaluating, .readyToDispatch
  | .evaluating, .needsReview _ | .evaluating, .stale | .evaluating, .cancelled => true
  | .readyToDispatch, .submitted | .readyToDispatch, .reported | .readyToDispatch, .cancelled => true
  | .reported, .cancelled | .needsReview _, .cancelled | .stale, .cancelled => true
  | .submitted, .outcomeUnknown _ | .submitted, .succeeded _ | .submitted, .failedDefinitive _ => true
  | .outcomeUnknown _, .outcomeUnknown _ | .outcomeUnknown _, .submitted
  | .outcomeUnknown _, .succeeded _ => true
  | _, _ => false

namespace ExecutorState

/-- The request holds the reservation `v`: its operation is reserved by it, and the charge is
inside the reserved amounts of its grant, in total and in its epoch. -/
structure Holds (s : ExecutorState Digest) (r : RequestRecord Digest) (v : Reservation) : Prop where
  reservation : r.reservation = some v
  operation : ∃ o, s.operations[r.operation]? = some o ∧ o.status = .reserved r.id
  grant : ∃ g, s.grants[r.grant]? = some g ∧ v.charge.toNat ≤ g.total.reserved.toNat ∧
    ∃ u, g.windows[v.epoch]? = some u ∧ v.charge.toNat ≤ u.reserved.toNat

section Records
variable {s : ExecutorState Digest} {o : Operation Digest} {g : Grant Digest}
  {r r' : RequestRecord Digest} {op : Op Digest}

theorem RecordStep.leadsTo (h : RecordStep s r.id r r') (hok : RecordOk o g r) :
    r'.status = r.status ∨ r.status.leadsTo r'.status = true := by
  cases h with
  | start _ _ _ _ hs => right; rcases hs with hs | hs <;> rw [hs] <;> rfl
  | resend => exact .inl rfl
  | outdated hs => right; rcases hs with hs | hs <;> rw [hs] <;> rfl
  | transport q hs =>
    unfold afterTransportFailure
    split
    · right; rw [hs]; rfl
    · exact .inl rfl
  | judged q p required result hs =>
    right
    obtain ⟨_, he⟩ | he | he := afterOutcome_status r p.signals.length
      (judge q.request required result) <;> rw [hs, he] <;> rfl
  | report hs => right; rw [hs]; rfl
  | unknown why hs =>
    right
    cases hst : r.status <;> simp_all [Status.outstanding, Status.leadsTo]
  | retry f hs =>
    right
    cases hst : r.status <;> simp_all [Status.isOutcomeUnknown, Status.leadsTo]
  | cancel hf =>
    have := hok.dispatched_eq
    rw [hf] at this
    cases hst : r.status <;> simp_all [Status.dispatched, Status.leadsTo]

/-- A call moves a request along an edge of the state table, or not at all. -/
theorem RecordChange.leadsTo (h : RecordChange s r op r') (hr : s.requests[r.id]? = some r)
    (ho : s.operations[r.operation]? = some o) (hok : RecordOk o g r) :
    r'.status = r.status ∨ r.status.leadsTo r'.status = true := by
  cases h with
  | same => exact .inl rfl
  | step h => exact h.leadsTo hok
  | dispatch a b now v f _ hb =>
    right
    rw [(ready_of_authorize hr hb ho).1]
    rfl
  | settle cmd outcome success text hs _ _ hset =>
    right
    cases success with
    | true => cases hst : r.status <;> simp_all [Status.outstanding, settled, Status.leadsTo]
    | false =>
      -- an unknown outcome has set `ever_unknown`, which rules out a definitive failure
      have hu := (settlement_failed hset).2.1
      cases hst : r.status with
      | outcomeUnknown why =>
        have := (hok.outstanding hs).unknown (by rw [hst]; rfl)
        rw [hu] at this
        cases this
      | submitted => rfl
      | _ => simp [hst, Status.outstanding] at hs
  | recover =>
    unfold RequestRecord.recover
    split
    · next hs => right; rw [hs]; rfl
    · next hs => right; rw [hs]; rfl
    · exact .inl rfl

theorem RecordStep.keeps (h : RecordStep s r.id r r') :
    r'.frozen = r.frozen ∧ r'.reservation = r.reservation ∧
      (r.everUnknown = true → r'.everUnknown = true) := by
  cases h with
  | transport q =>
    unfold afterTransportFailure
    split <;> exact ⟨rfl, rfl, id⟩
  | judged q p required result =>
    cases judge q.request required result <;> exact ⟨rfl, rfl, id⟩
  | unknown why => exact ⟨rfl, rfl, fun _ => rfl⟩
  | _ => exact ⟨rfl, rfl, id⟩

omit [Hashing Digest] in
theorem recover_keeps (r : RequestRecord Digest) :
    r.recover.frozen = r.frozen ∧ r.recover.reservation = r.reservation ∧
      (r.everUnknown = true → r.recover.everUnknown = true) := by
  unfold RequestRecord.recover
  split
  · exact ⟨rfl, rfl, id⟩
  · exact ⟨rfl, rfl, fun _ => rfl⟩
  · exact ⟨rfl, rfl, id⟩

/-- A frozen transfer never changes. -/
theorem RecordChange.frozen (h : RecordChange s r op r') (hr : s.requests[r.id]? = some r)
    (ho : s.operations[r.operation]? = some o) (hok : RecordOk o g r)
    {f : FrozenTransfer Digest} (hf : r.frozen = some f) : r'.frozen = some f := by
  cases h with
  | same => exact hf
  | step h => rw [h.keeps.1, hf]
  | dispatch a b now v f' _ hb =>
    have := hok.undispatched (by rw [(ready_of_authorize hr hb ho).1]; rfl)
    rw [this.frozen] at hf
    cases hf
  | settle => exact hf
  | recover => rw [(recover_keeps r).1, hf]

end Records

section States
variable {s s' : ExecutorState Digest} {k : Digest} {g : Grant Digest} {r r' : RequestRecord Digest}

theorem held_le_booked {k' : Digest} (hr : s.requests[k']? = some r) {e : Option UInt64}
    (hc : counts g e r = true) : r.held ≤ s.booked g e held := by
  have := le_sumValues hr (weight g e held)
  rwa [weight, if_pos hc] at this

/-- In a valid state an outstanding request holds its reservation. -/
theorem Valid.holds (h : s.Valid) (hr : s.requests[k]? = some r)
    (hout : r.status.outstanding = true) : ∃ v, s.Holds r v := by
  obtain ⟨o, g, ho, hg, hok⟩ := h.lifecycle.record k r hr
  obtain ⟨now, c, hf, hc, hv⟩ := (hok.outstanding hout).booked
  have hgid := (h.coherent.grant _ g hg).1
  have hb := h.books _ g hg
  have he := epoch_of_reservation hok hv
  have hheld : r.held = c.toNat := by rw [held, hv]; rfl
  obtain ⟨u, hu⟩ := hb.entry k r _ hr hgid.symm he
  refine ⟨⟨c, now / g.windowNs⟩, hv, ⟨o, ho, (hok.outstanding hout).operation⟩,
    g, hg, ?_, u, hu, ?_⟩
  · show c.toNat ≤ _
    rw [hb.reserved, ← hheld]
    exact held_le_booked hr (by simp [counts, hgid])
  · have hw := hb.windowReserved (now / g.windowNs)
    rw [window, hu, Option.getD_some] at hw
    show c.toNat ≤ _
    rw [hw, ← hheld]
    exact held_le_booked hr (by simp [counts, hgid, he])

/-- The books admit the settlement of every reservation: nothing in it can over- or underflow. -/
theorem Valid.settles (h : s.Valid) (hr : s.requests[k]? = some r)
    (hout : r.status.outstanding = true) (success : Bool) (text : String) :
    ∃ s', s.settleRecord r success text = .ok (s', (settled r success text).status) := by
  obtain ⟨v, hv, ⟨o, ho, hst⟩, g, hg, hct, u, hu, hcu⟩ := h.holds hr hout
  have hb := h.books _ g hg
  have hcap := hb.cap
  have hwcap := hb.windowCap _ u hu
  have hT := g.totalCap.isLt
  have hW := g.windowCap.isLt
  obtain ⟨tr, htr⟩ := exists_checkedSub hct
  obtain ⟨wr, hwr⟩ := exists_checkedSub hcu
  have hspent : ∀ a b cap : U128, a.toNat + b.toNat ≤ cap.toNat → v.charge.toNat ≤ b.toNat →
      ∃ t : U128, t.toNat = a.toNat + if success then v.charge.toNat else 0 := by
    intro a b cap hab hvb
    cases success with
    | false => exact ⟨a, rfl⟩
    | true =>
      have := cap.isLt
      obtain ⟨t, ht⟩ := exists_checkedAdd (a := a) (b := v.charge) (by omega)
      exact ⟨t, checkedAdd_eq_some.mp ht⟩
  obtain ⟨ts, hts⟩ := hspent _ _ _ hcap hct
  obtain ⟨ws, hws⟩ := hspent _ _ _ hwcap hcu
  exact ⟨_, settleRecord_eq_ok.mpr ⟨v, g, o, _, hv, hg, ho, hst,
    Grant.settle_eq_ok.mpr ⟨u, ts, tr, ws, wr, hu, checkedSub_eq_some.mp htr,
      checkedSub_eq_some.mp hwr, hts, hws, rfl⟩, rfl, rfl⟩⟩

/-- A reported success with a block index settles an outstanding request. -/
theorem Valid.finishLedger_success (h : s.Valid) {cmd : DispatchCommand Digest}
    {outcome : LedgerOutcome} {text : String} (hr : s.requests[cmd.request]? = some r)
    (hout : r.status.outstanding = true) (hf : r.frozen = some cmd.transfer)
    (h0 : cmd.attempt ≠ 0) (hle : cmd.attempt ≤ r.ledgerAttempt)
    (ho : outcome = .success text ∨ outcome = .duplicate text)
    (hblock : validBlockIndex text = true) :
    ∃ s', s.finishLedger cmd outcome = .ok (s', .succeeded text) := by
  obtain ⟨s', hs⟩ := h.settles hr hout true text
  refine ⟨s', finishLedger_eq_ok.mpr ⟨r, hr, hf, h0, hle, .inr ⟨?_, hout, ?_⟩⟩⟩
  · cases hst : r.status <;> simp_all [Status.outstanding, Status.isSucceeded]
  · refine applyOutcome_eq_ok.mpr (.inl ⟨true, text, ?_, fun _ => hblock, hs⟩)
    rcases ho with rfl | rfl <;> rfl

/-- An outcome that was ever unknown is kept, or the ledger reported that it happened. -/
theorem Valid.retains (h : s.Valid) {op : Op Digest} (hs : Change s op s')
    (hr : s.requests[k]? = some r) (hu : r.everUnknown = true) (hn : r.status.isSucceeded = false)
    (hr' : s'.requests[k]? = some r') (hch : RecordChange s r op r') :
    (r'.everUnknown = true ∧ ∃ v, s.Holds r v ∧ s'.Holds r' v) ∨
      ∃ cmd outcome text, op = .finishLedger cmd outcome ∧
        (outcome = .success text ∨ outcome = .duplicate text) ∧ cmd.request = k ∧
        r.frozen = some cmd.transfer ∧ validBlockIndex text = true ∧
        r'.status = .succeeded text := by
  have hid := (h.coherent.request k r hr).id_eq
  obtain ⟨o, g, ho, hg, hok⟩ := h.lifecycle.record k r hr
  have hout := hok.outstanding_of_everUnknown hu hn
  have hkeep : StillHolds r r' → r'.reservation = r.reservation → r'.everUnknown = true →
      r'.everUnknown = true ∧ ∃ v, s.Holds r v ∧ s'.Holds r' v := by
    intro hsh hres hu'
    obtain ⟨v, hv⟩ := h.holds hr hout
    obtain ⟨v', hv'⟩ := (h.change hs).holds hr' (hsh.2.1 hout)
    have := hv'.reservation.symm.trans (hres.trans hv.reservation)
    cases this
    exact ⟨hu', v, hv, hv'⟩
  cases hch with
  | same => exact .inl (hkeep (.refl r) rfl hu)
  | step hstep =>
    exact .inl (hkeep (hstep.stillHolds hok) hstep.keeps.2.1 (hstep.keeps.2.2 hu))
  | dispatch a b now v f _ hb =>
    rw [← hid] at hr
    rw [(ready_of_authorize hr hb ho).1] at hout
    cases hout
  | settle cmd outcome success text _ hcmd hf hset hblock =>
    cases success with
    | false =>
      rw [(settlement_failed hset).2.1] at hu
      cases hu
    | true =>
      exact .inr ⟨cmd, outcome, text, rfl, settlement_succeeded hset, hcmd.trans hid, hf,
        hblock rfl, rfl⟩
  | recover =>
    obtain ⟨_, hres, hev⟩ := recover_keeps r
    exact .inl (hkeep (recover_stillHolds r) hres (hev hu))

/-- The lifecycle of every request in every reachable state, under any one call. -/
theorem request_lifecycle (hcf : CollisionFree Digest) (h : s.Reachable) (op : Op Digest)
    (hr : s.requests[k]? = some r) :
    ∃ r', (s.step op).requests[k]? = some r' ∧
      (r'.status = r.status ∨ r.status.leadsTo r'.status = true) ∧
      (∀ f, r.frozen = some f → r'.frozen = some f) ∧ r'.ledgerAttempt ≤ 2 ∧
      (r.everUnknown = true → r.status.isSucceeded = false →
        (r'.everUnknown = true ∧ ∃ v, s.Holds r v ∧ (s.step op).Holds r' v) ∨
        ∃ cmd outcome text, op = .finishLedger cmd outcome ∧
          (outcome = .success text ∨ outcome = .duplicate text) ∧ cmd.request = k ∧
          r.frozen = some cmd.transfer ∧ validBlockIndex text = true ∧
          r'.status = .succeeded text) ∧
      (r.status.outstanding = true → ∀ cmd outcome text, cmd.request = k →
        r.frozen = some cmd.transfer → cmd.attempt ≠ 0 → cmd.attempt ≤ r.ledgerAttempt →
        (outcome = .success text ∨ outcome = .duplicate text) → validBlockIndex text = true →
        ∃ s', s.finishLedger cmd outcome = .ok (s', .succeeded text)) := by
  have hv := valid_of_reachable hcf h
  have hs := change_of_step hcf hv.coherent op
  have hid := (hv.coherent.request k r hr).id_eq
  obtain ⟨r', hr', hch⟩ := hs.record_at hv.coherent hr
  obtain ⟨o, g, ho, _, hok⟩ := hv.lifecycle.record k r hr
  obtain ⟨_, _, _, _, hok'⟩ := (hv.change hs).lifecycle.record k r' hr'
  have hr₁ : s.requests[r.id]? = some r := hid ▸ hr
  refine ⟨r', hr', hch.leadsTo hr₁ ho hok, fun f hf => hch.frozen hr₁ ho hok hf,
    hok'.attempt_le, fun hu hn => hv.retains hs hr hu hn hr' hch, ?_⟩
  rintro hout cmd outcome text rfl hf h0 hle hoc hblock
  exact hv.finishLedger_success hr hout hf h0 hle hoc hblock

/-- The revocation of its grant leaves an unknown outcome as it is. -/
theorem request_lifecycle_revoked :
    ∃ r v, ((run step Sample.start Sample.unknown).step
        (.revoke Sample.owner Sample.grant.id)).requests[Sample.request]? = some r ∧
      r.everUnknown = true ∧ ((run step Sample.start Sample.unknown).step
        (.revoke Sample.owner Sample.grant.id)).Holds r v := by
  obtain ⟨r, hr, hu, hs⟩ : ∃ r, (run step Sample.start Sample.unknown).requests[Sample.request]? =
      some r ∧ r.everUnknown = true ∧ r.status.isSucceeded = false := by
    have h : ((run step Sample.start Sample.unknown).requests[Sample.request]?).map
        (fun r => (r.everUnknown, r.status.isSucceeded)) = some (true, false) := by decide +kernel
    obtain ⟨r, hr, he⟩ := Option.map_eq_some_iff.mp h
    exact ⟨r, hr, congrArg Prod.fst he, congrArg Prod.snd he⟩
  obtain ⟨r', hr', _, _, _, hkeep, _⟩ := request_lifecycle SymbolicDigest.collisionFree
    ⟨Sample.self, Sample.owner, Sample.engine, Sample.unknown, rfl⟩
    (.revoke Sample.owner Sample.grant.id) hr
  obtain ⟨hu', v, _, hv⟩ | ⟨_, _, _, hop, _⟩ := hkeep hu hs
  · exact ⟨r', v, hr', hu', hv⟩
  · cases hop

end States

end ExecutorState

end IcLaya
