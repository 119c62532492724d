import IcLaya.WorkflowChanges

/-!
# What the status of a record says about the rest

`RecordOk` fixes the hidden fields of a record (its frozen transfer, its reservation, the
attempt counter, `ever_unknown`) and the status of its operation by the status of the record.
With the converse for operations it is kept by every `Change`.
-/
namespace IcLaya
open CheckedWords Fallible OrderedMaps TransitionSystems

variable {Digest : Type} [Hashing Digest]

/-- A dispatch command was produced for a record with this status. -/
def Status.dispatched : Status → Bool
  | .submitted | .outcomeUnknown _ | .succeeded _ | .failedDefinitive _ => true
  | _ => false

/-- A record before its dispatch. -/
structure Undispatched (r : RequestRecord Digest) : Prop where
  frozen : r.frozen = none
  reservation : r.reservation = none
  attempt : r.ledgerAttempt = 0
  everUnknown : r.everUnknown = false

/-- A record whose transfer may still happen: it holds its charge and its operation. -/
structure Outstanding (o : Operation Digest) (g : Grant Digest) (r : RequestRecord Digest) :
    Prop where
  booked : ∃ now c, r.frozen = some ⟨o.proposal, r.id, now⟩ ∧ o.proposal.charge = .ok c ∧
    r.reservation = some ⟨c, now / g.windowNs⟩
  operation : o.status = .reserved r.id
  attempt : r.ledgerAttempt = 1 ∨ r.ledgerAttempt = 2 ∧ r.everUnknown = true
  unknown : r.status.isOutcomeUnknown = true → r.everUnknown = true

structure Succeeded (o : Operation Digest) (r : RequestRecord Digest) : Prop where
  frozen : ∃ now, r.frozen = some ⟨o.proposal, r.id, now⟩
  reservation : r.reservation = none
  operation : o.status = .consumed r.id
  attempt : r.ledgerAttempt = 1 ∨ r.ledgerAttempt = 2

/-- Only a sole attempt with a known outcome fails for good. -/
structure Failed (o : Operation Digest) (r : RequestRecord Digest) : Prop where
  frozen : ∃ now, r.frozen = some ⟨o.proposal, r.id, now⟩
  reservation : r.reservation = none
  attempt : r.ledgerAttempt = 1
  everUnknown : r.everUnknown = false

def RecordOk (o : Operation Digest) (g : Grant Digest) (r : RequestRecord Digest) : Prop :=
  (r.status = .evaluating ↔ r.pending.isSome = true) ∧
  match r.status with
  | .submitted | .outcomeUnknown _ => Outstanding o g r
  | .succeeded _ => Succeeded o r
  | .failedDefinitive _ => Failed o r
  | _ => Undispatched r

section Records
omit [Hashing Digest]
variable {o o' : Operation Digest} {g g' : Grant Digest} {r r' : RequestRecord Digest}

theorem RecordOk.outstanding (h : RecordOk o g r) (hs : r.status.outstanding = true) :
    Outstanding o g r := by
  have h := h.2
  split at h <;> simp_all [Status.outstanding]

theorem RecordOk.succeeded (h : RecordOk o g r) (hs : r.status.isSucceeded = true) :
    Succeeded o r := by
  have h := h.2
  split at h <;> simp_all [Status.isSucceeded]

theorem RecordOk.undispatched (h : RecordOk o g r) (hs : r.status.dispatched = false) :
    Undispatched r := by
  have h := h.2
  split at h <;> simp_all [Status.dispatched]

theorem RecordOk.dispatched_eq (h : RecordOk o g r) : r.status.dispatched = r.frozen.isSome := by
  obtain ⟨_, h⟩ := h
  split at h
  · next hs => obtain ⟨_, _, hf, _⟩ := h.booked; rw [hs, hf]; rfl
  · next hs => obtain ⟨_, _, hf, _⟩ := h.booked; rw [hs, hf]; rfl
  · next hs => obtain ⟨_, hf⟩ := h.frozen; rw [hs, hf]; rfl
  · next hs => obtain ⟨_, hf⟩ := h.frozen; rw [hs, hf]; rfl
  · rw [h.frozen]
    unfold Status.dispatched
    split <;> simp_all

/-- Only an outstanding transfer holds a reservation. -/
theorem RecordOk.outstanding_of_reservation (h : RecordOk o g r) {v : Reservation}
    (hv : r.reservation = some v) : r.status.outstanding = true := by
  obtain ⟨_, h⟩ := h
  split at h
  · next hs => rw [hs]; rfl
  · next hs => rw [hs]; rfl
  · rw [h.reservation] at hv; cases hv
  · rw [h.reservation] at hv; cases hv
  · rw [h.reservation] at hv; cases hv

/-- A record before its dispatch is valid whatever its operation and its grant are. -/
theorem Undispatched.recordOk (h : Undispatched r)
    (hp : r.status = .evaluating ↔ r.pending.isSome = true) (hd : r.status.dispatched = false) :
    RecordOk o g r := by
  refine ⟨hp, ?_⟩
  split <;> simp_all [Status.dispatched]

theorem Outstanding.recordOk (h : Outstanding o g r) (hp : r.pending = none)
    (hs : r.status.outstanding = true) : RecordOk o g r := by
  refine ⟨?_, ?_⟩
  · rw [hp]
    simp only [Option.isSome_none, Bool.false_eq_true, iff_false]
    intro he
    simp [he, Status.outstanding] at hs
  · split <;> simp_all [Status.outstanding]

/-- The record of another request does not see an operation that it does not hold change hands. -/
theorem RecordOk.mono (h : RecordOk o g r) (ho : ExecutorState.SameTransfer o o')
    (hg : ExecutorState.SameTerms g g')
    (hst : o'.status = o.status ∨ o.status ≠ .reserved r.id ∧ o.status ≠ .consumed r.id) :
    RecordOk o' g' r := by
  obtain ⟨hp, h⟩ := h
  have hw : g'.windowNs = g.windowNs := by rw [hg]
  refine ⟨hp, ?_⟩
  split at h
  · obtain ⟨hb, hop, ha, hu⟩ := h
    refine ⟨by rw [ho.2, hw]; exact hb, ?_, ha, hu⟩
    rcases hst with hst | ⟨hst, _⟩
    · rw [hst, hop]
    · exact absurd hop hst
  · obtain ⟨hb, hop, ha, hu⟩ := h
    refine ⟨by rw [ho.2, hw]; exact hb, ?_, ha, hu⟩
    rcases hst with hst | ⟨hst, _⟩
    · rw [hst, hop]
    · exact absurd hop hst
  · obtain ⟨hf, hr, hop, ha⟩ := h
    refine ⟨by rw [ho.2]; exact hf, hr, ?_, ha⟩
    rcases hst with hst | ⟨_, hst⟩
    · rw [hst, hop]
    · exact absurd hop hst
  · obtain ⟨hf, hr, ha, hu⟩ := h
    exact ⟨by rw [ho.2]; exact hf, hr, ha, hu⟩
  · exact h

theorem RecordOk.pending_none (h : RecordOk o g r) (hs : r.status ≠ .evaluating) :
    r.pending = none := by
  rw [← Option.not_isSome_iff_eq_none]
  exact fun hp => hs (h.1.mpr hp)

theorem RecordOk.attempt_le (h : RecordOk o g r) : r.ledgerAttempt ≤ 2 := by
  obtain ⟨_, h⟩ := h
  split at h
  · rcases h.attempt with ha | ⟨ha, _⟩ <;> rw [ha] <;> decide
  · rcases h.attempt with ha | ⟨ha, _⟩ <;> rw [ha] <;> decide
  · rcases h.attempt with ha | ha <;> rw [ha] <;> decide
  · rw [h.attempt]; decide
  · rw [h.attempt]; decide

/-- An outcome that was ever unknown belongs to an outstanding or a succeeded transfer. -/
theorem RecordOk.outstanding_of_everUnknown (h : RecordOk o g r) (hu : r.everUnknown = true)
    (hs : r.status.isSucceeded = false) : r.status.outstanding = true := by
  obtain ⟨_, h⟩ := h
  split at h
  · next hst => rw [hst]; rfl
  · next hst => rw [hst]; rfl
  · next hst => rw [hst] at hs; cases hs
  · rw [h.everUnknown] at hu; cases hu
  · rw [h.everUnknown] at hu; cases hu

end Records

namespace ExecutorState

section Records
variable {s : ExecutorState Digest} {k : Digest} {o : Operation Digest} {g : Grant Digest}
  {r r' : RequestRecord Digest}

omit [Hashing Digest] in
theorem afterOutcome_undispatched (n : ℕ) (x : Result (Receipt Digest × Bool))
    (h : Undispatched r) : Undispatched (afterOutcome r n x) := by
  obtain ⟨hf, hv, ha, hu⟩ := h
  cases x with
  | error e => exact ⟨hf, hv, ha, hu⟩
  | ok v => exact ⟨hf, hv, ha, hu⟩

omit [Hashing Digest] in
theorem afterOutcome_status (r : RequestRecord Digest) (n : ℕ) (x : Result (Receipt Digest × Bool)) :
    (∃ why, (afterOutcome r n x).status = .needsReview why) ∨
      (afterOutcome r n x).status = .readyToDispatch ∨ (afterOutcome r n x).status = .received := by
  cases x with
  | error e => exact .inl ⟨_, rfl⟩
  | ok v =>
    obtain ⟨receipt, pass⟩ := v
    simp only [afterOutcome]
    split
    · exact .inl ⟨_, rfl⟩
    · split
      · exact .inr (.inl rfl)
      · exact .inr (.inr rfl)

omit [Hashing Digest] in
theorem afterOutcome_pending (r : RequestRecord Digest) (n : ℕ) (x : Result (Receipt Digest × Bool)) :
    (afterOutcome r n x).pending = none := by
  cases x <;> rfl

theorem RecordStep.recordOk (h : RecordStep s k r r') (hok : RecordOk o g r) :
    RecordOk o g r' := by
  have hund : r.status = .received ∨ r.status = .evaluating → Undispatched r := by
    rintro (hs | hs) <;> exact hok.undispatched (by rw [hs]; rfl)
  cases h with
  | start now p required o' hs =>
    obtain ⟨hf, hv, ha, hu⟩ := hund hs
    exact Undispatched.recordOk ⟨hf, hv, ha, hu⟩ (by simp) rfl
  | resend q hs hn h2 =>
    obtain ⟨hf, hv, ha, hu⟩ := hund hs
    have he : r.status = .evaluating := hok.1.mpr (by rw [hn]; rfl)
    exact Undispatched.recordOk ⟨hf, hv, ha, hu⟩ (by simp [he]) (by simp [he, Status.dispatched])
  | outdated hs =>
    obtain ⟨hf, hv, ha, hu⟩ := hund hs
    exact Undispatched.recordOk ⟨hf, hv, ha, hu⟩ (by simp) rfl
  | transport q hs hn =>
    obtain ⟨hf, hv, ha, hu⟩ := hund (.inr hs)
    unfold afterTransportFailure
    split
    · exact Undispatched.recordOk ⟨hf, hv, ha, hu⟩ (by simp) rfl
    · exact Undispatched.recordOk ⟨hf, hv, ha, hu⟩ (by simp [hs]) (by simp [hs, Status.dispatched])
  | judged q p required result hs hn hp hq =>
    refine (afterOutcome_undispatched _ _ (hund (.inr hs))).recordOk ?_ ?_
    · rw [afterOutcome_pending]
      obtain ⟨why, he⟩ | he | he := afterOutcome_status r p.signals.length
        (judge q.request required result) <;> simp [he]
    · obtain ⟨why, he⟩ | he | he := afterOutcome_status r p.signals.length
        (judge q.request required result) <;> rw [he] <;> rfl
  | report hs =>
    obtain ⟨hf, hv, ha, hu⟩ := hok.undispatched (by rw [hs]; rfl)
    have hn := hok.pending_none (by rw [hs]; simp)
    exact Undispatched.recordOk ⟨hf, hv, ha, hu⟩ (by simp [hn]) rfl
  | unknown why hs =>
    obtain ⟨hb, hop, ha, _⟩ := hok.outstanding hs
    have hn := hok.pending_none (by intro he; simp [he, Status.outstanding] at hs)
    refine Outstanding.recordOk ⟨hb, hop, ?_, fun _ => rfl⟩ hn rfl
    rcases ha with ha | ⟨ha, _⟩
    · exact .inl ha
    · exact .inr ⟨ha, rfl⟩
  | retry f hs hf h2 =>
    have hout : r.status.outstanding = true := by
      cases hst : r.status <;> simp_all [Status.isOutcomeUnknown, Status.outstanding]
    obtain ⟨hb, hop, ha, hu⟩ := hok.outstanding hout
    have hn := hok.pending_none (by intro he; simp [he, Status.outstanding] at hout)
    refine Outstanding.recordOk ⟨hb, hop, .inr ⟨?_, hu hs⟩, ?_⟩ hn rfl
    · rcases ha with ha | ⟨ha, _⟩
      · show r.ledgerAttempt + 1 = 2
        rw [ha]; rfl
      · rw [ha] at h2; exact absurd h2 (by decide)
    · intro h; simp [Status.isOutcomeUnknown] at h
  | cancel hf hv =>
    have hd : r.status.dispatched = false := by rw [hok.dispatched_eq, hf]; rfl
    obtain ⟨hf, hv, ha, hu⟩ := hok.undispatched hd
    exact Undispatched.recordOk ⟨hf, hv, ha, hu⟩ (by simp) rfl

omit [Hashing Digest] in
theorem recover_recordOk (hok : RecordOk o g r) : RecordOk o g r.recover := by
  unfold RequestRecord.recover
  split
  · next hs =>
    obtain ⟨hf, hv, ha, hu⟩ := hok.undispatched (by rw [hs]; rfl)
    exact Undispatched.recordOk ⟨hf, hv, ha, hu⟩ (by simp) rfl
  · next hs =>
    obtain ⟨hb, hop, ha, _⟩ := hok.outstanding (by rw [hs]; rfl)
    have hn := hok.pending_none (by rw [hs]; simp)
    refine Outstanding.recordOk ⟨hb, hop, ?_, fun _ => rfl⟩ hn rfl
    rcases ha with ha | ⟨ha, _⟩
    · exact .inl ha
    · exact .inr ⟨ha, rfl⟩
  · exact hok

end Records

/-- The record fits its own operation and grant. -/
def RecordValid (s : ExecutorState Digest) (r : RequestRecord Digest) : Prop :=
  ∃ o g, s.operations[r.operation]? = some o ∧ s.grants[r.grant]? = some g ∧ RecordOk o g r

/-- An operation is held, and was consumed, by a request that says so itself. -/
def OperationValid (s : ExecutorState Digest) (k : Digest) (o : Operation Digest) : Prop :=
  match o.status with
  | .available => True
  | .reserved q => ∃ r, s.requests[q]? = some r ∧ r.operation = k ∧ r.status.outstanding = true
  | .consumed q => ∃ r, s.requests[q]? = some r ∧ r.operation = k ∧ r.status.isSucceeded = true

structure Lifecycle (s : ExecutorState Digest) : Prop where
  record : ∀ (k : Digest) r, s.requests[k]? = some r → s.RecordValid r
  operation : ∀ (k : Digest) o, s.operations[k]? = some o → s.OperationValid k o

/-- A record that goes on holding what it held. -/
def StillHolds (r r' : RequestRecord Digest) : Prop :=
  r'.operation = r.operation ∧ (r.status.outstanding = true → r'.status.outstanding = true) ∧
    (r.status.isSucceeded = true → r'.status.isSucceeded = true)

section Lifecycle
variable {s s' : ExecutorState Digest} {k : Digest} {o : Operation Digest} {g : Grant Digest}
  {r r' : RequestRecord Digest}

omit [Hashing Digest] in
theorem StillHolds.refl (r : RequestRecord Digest) : StillHolds r r := ⟨rfl, id, id⟩

theorem RecordValid.extend (h : s.RecordValid r) (he : Extends s s')
    (hst : ∀ o o', s.operations[r.operation]? = some o → s'.operations[r.operation]? = some o' →
      o'.status = o.status ∨ o.status ≠ .reserved r.id ∧ o.status ≠ .consumed r.id) :
    s'.RecordValid r := by
  obtain ⟨o, g, ho, hg, hok⟩ := h
  obtain ⟨o', ho', hso⟩ := he.operations _ o ho
  obtain ⟨g', hg', hsg⟩ := he.grants _ g hg
  exact ⟨o', g', ho', hg', hok.mono hso hsg (hst o o' ho ho')⟩

theorem RecordValid.step (h : s.RecordValid r) (ht : SameTicket r r')
    (hok : ∀ o g, RecordOk o g r → RecordOk o g r') : s.RecordValid r' := by
  obtain ⟨o, g, ho, hg, hr⟩ := h
  refine ⟨o, g, ?_, ?_, hok o g hr⟩ <;> rw [ht] <;> assumption

theorem OperationValid.extend (h : s.OperationValid k o)
    (hr : Grows StillHolds s.requests s'.requests) : s'.OperationValid k o := by
  unfold OperationValid at h ⊢
  split at h
  · trivial
  · obtain ⟨r, hq, hk, hs⟩ := h
    obtain ⟨r', hq', ho, hout, _⟩ := hr _ r hq
    exact ⟨r', hq', ho.trans hk, hout hs⟩
  · obtain ⟨r, hq, hk, hs⟩ := h
    obtain ⟨r', hq', ho, _, hsuc⟩ := hr _ r hq
    exact ⟨r', hq', ho.trans hk, hsuc hs⟩

theorem RecordStep.stillHolds (h : RecordStep s k r r') (hok : RecordOk o g r) :
    StillHolds r r' := by
  refine ⟨by rw [h.sameTicket], ?_, ?_⟩
  · intro hs
    cases h with
    | unknown why => rfl
    | retry f => rfl
    | cancel hf =>
      have := hok.dispatched_eq
      rw [hf] at this
      cases hst : r.status <;> simp_all [Status.outstanding, Status.dispatched]
    | start _ _ _ _ h | resend _ h | outdated h => rcases h with h | h <;> simp [h, Status.outstanding] at hs
    | transport _ h | judged _ _ _ _ h | report h => simp [h, Status.outstanding] at hs
  · intro hs
    cases h with
    | cancel hf =>
      have := hok.dispatched_eq
      rw [hf] at this
      cases hst : r.status <;> simp_all [Status.isSucceeded, Status.dispatched]
    | start _ _ _ _ h | resend _ h | outdated h => rcases h with h | h <;> simp [h, Status.isSucceeded] at hs
    | transport _ h | judged _ _ _ _ h | report h => simp [h, Status.isSucceeded] at hs
    | unknown _ h => cases hst : r.status <;> simp_all [Status.isSucceeded, Status.outstanding]
    | retry _ h => cases hst : r.status <;> simp_all [Status.isSucceeded, Status.isOutcomeUnknown]

omit [Hashing Digest] in
theorem recover_stillHolds (r : RequestRecord Digest) : StillHolds r r.recover := by
  unfold RequestRecord.recover
  split
  · next hs => exact ⟨rfl, by simp [hs, Status.outstanding], by simp [hs, Status.isSucceeded]⟩
  · next hs => exact ⟨rfl, fun _ => rfl, by simp [hs, Status.isSucceeded]⟩
  · exact .refl r

theorem lifecycle_new (self owner engine : Principal) :
    (new self owner engine : ExecutorState Digest).Lifecycle := by
  constructor <;> intro k v h <;> simp [new] at h

/-- What `authorize` found, for the record that is about to be dispatched. -/
theorem ready_of_authorize {now : UInt64} {a : AuthorizedTransfer Digest}
    (hr : s.requests[r.id]? = some r) (ha : s.authorize r.caller r.id now = .ok a)
    (ho : s.operations[r.operation]? = some o) :
    r.status = .readyToDispatch ∧ o.status = .available := by
  obtain ⟨r₁, _, o₁, hr₁, _, _, hst, _, _, _, _, ho₁, hav, _⟩ := authorize_eq_ok.mp ha
  obtain rfl : r = r₁ := Option.some.inj (hr.symm.trans hr₁)
  obtain rfl : o = o₁ := Option.some.inj (ho.symm.trans ho₁)
  exact ⟨hst, hav⟩

theorem Lifecycle.change {op : Op Digest} (h : s.Lifecycle) (hc : s.Coherent)
    (hs : Change s op s') :
    s'.Lifecycle := by
  have hext := hs.extends
  have hreq := Grows.refl StillHolds.refl s.requests
  cases hs with
  | same => exact h
  | control mode paused ledgers => exact ⟨h.record, h.operation⟩
  | plan p hv hn => exact ⟨h.record, h.operation⟩
  | operation o hv hl hst hn =>
    refine ⟨fun k r hr => (h.record k r hr).extend hext fun o₁ o₂ h₁ h₂ => ?_,
      forall_insert (fun k o ho => (h.operation k o ho).extend hreq) ?_⟩
    · rw [get_insert_ne _ (by intro he; rw [he, hn] at h₁; cases h₁), h₁] at h₂
      cases h₂
      exact .inl rfl
    · unfold OperationValid
      rw [hst]
      trivial
  | revise o k evidence rev ho hl hst hrev =>
    refine ⟨fun k' r hr => (h.record k' r hr).extend hext fun o₁ o₂ h₁ h₂ => ?_,
      forall_insert (fun k o ho => (h.operation k o ho).extend hreq) ?_⟩
    · rw [get_insert] at h₂
      split at h₂
      · next he =>
        rw [he, ho] at h₁
        cases h₁; cases h₂
        exact .inl rfl
      · rw [h₁] at h₂
        cases h₂
        exact .inl rfl
    · unfold OperationValid
      simp only [hst]
  | grant g hw ht he hn =>
    exact ⟨fun k r hr => (h.record k r hr).extend hext fun o₁ o₂ h₁ h₂ =>
      .inl (by rw [Option.some.inj (h₁.symm.trans h₂)]),
      fun k o ho => (h.operation k o ho).extend hreq⟩
  | revoke g k rev hg hrev =>
    exact ⟨fun k r hr => (h.record k r hr).extend hext fun o₁ o₂ h₁ h₂ =>
      .inl (by rw [Option.some.inj (h₁.symm.trans h₂)]),
      fun k o ho => (h.operation k o ho).extend hreq⟩
  | submit caller nonce operation grant now o g p expires next hnonce hnext ho hg hp _ _ hfresh =>
    refine ⟨forall_insert (fun k r hr => (h.record k r hr).extend hext fun o₁ o₂ h₁ h₂ =>
      .inl (by rw [Option.some.inj (h₁.symm.trans h₂)])) ⟨o, g, ho, hg, ?_⟩,
      fun k o ho => (h.operation k o ho).extend (.new StillHolds.refl hfresh _)⟩
    exact Undispatched.recordOk ⟨rfl, rfl, rfl, rfl⟩ (by simp [newRecord]) rfl
  | record k r r' hr hrec =>
    obtain ⟨o, g, ho, hg, hok⟩ := h.record k r hr
    refine ⟨forall_insert h.record ?_, fun k o ho => (h.operation k o ho).extend ?_⟩
    · exact (h.record k r hr).step hrec.sameTicket fun _ _ => hrec.recordOk
    · exact .replace StillHolds.refl hr (hrec.stillHolds hok)
  | dispatch a b now r o g g' c hr _ _ ha _ ho _ hg hch hv =>
    obtain ⟨hst, hav⟩ := ready_of_authorize hr ha ho
    obtain ⟨o₁, g₁, ho₁, hg₁, hok⟩ := h.record _ r hr
    obtain rfl : o = o₁ := Option.some.inj (ho.symm.trans ho₁)
    obtain rfl : g = g₁ := Option.some.inj (hg.symm.trans hg₁)
    have hn : r.pending = none := hok.pending_none (by rw [hst]; simp)
    refine ⟨forall_insert (fun k r₂ hr₂ => (h.record k r₂ hr₂).extend hext fun o₁ o₂ h₁ h₂ => ?_)
      ⟨_, g', get_insert_self .., get_insert_self .., ?_⟩,
      forall_insert (fun k o₂ ho₂ => (h.operation k o₂ ho₂).extend ?_) ?_⟩
    · rw [get_insert] at h₂
      split at h₂
      · next he =>
        rw [he, ho] at h₁
        cases h₁
        exact .inr ⟨by simp [hav], by simp [hav]⟩
      · rw [h₁] at h₂
        cases h₂
        exact .inl rfl
    · refine Outstanding.recordOk ⟨⟨now, c, rfl, hch, ?_⟩, rfl, .inl rfl, ?_⟩ hn rfl
      · rw [reserve_sameTerms hv]; rfl
      · intro hu; simp [dispatched, Status.isOutcomeUnknown] at hu
    · refine .replace StillHolds.refl hr ⟨rfl, ?_, ?_⟩ <;>
        simp [hst, Status.outstanding, Status.isSucceeded]
    · exact ⟨_, get_insert_self .., rfl, rfl⟩
  | settle cmd outcome r v o g g' success text hr hout _ _ hset _ hv ho hst hg hse =>
    obtain ⟨o₁, g₁, ho₁, hg₁, hok⟩ := h.record _ r hr
    obtain rfl : o = o₁ := Option.some.inj (ho.symm.trans ho₁)
    obtain rfl : g = g₁ := Option.some.inj (hg.symm.trans hg₁)
    have hn := hok.pending_none (by intro he; simp [he, Status.outstanding] at hout)
    obtain ⟨⟨now, c, hf, _, _⟩, hop, ha, _⟩ := hok.outstanding hout
    refine ⟨forall_insert_of_ne (fun k r₂ hne hr₂ => (h.record k r₂ hr₂).extend hext
      fun o₁ o₂ h₁ h₂ => ?_) ⟨_, g', get_insert_self .., get_insert_self .., ?_⟩,
      forall_insert_of_ne (fun k o₂ hne ho₂ => ?_) ?_⟩
    · rw [get_insert] at h₂
      split at h₂
      · next he =>
        rw [he, ho] at h₁
        cases h₁
        have hid := (hc.request k r₂ hr₂).id_eq
        exact .inr ⟨by simp [hst, hid, Ne.symm hne], by simp [hst]⟩
      · rw [h₁] at h₂
        cases h₂
        exact .inl rfl
    · cases success with
      | true =>
        refine ⟨by simp [settled, hn], ⟨now, hf⟩, rfl, rfl, ?_⟩
        exact ha.imp id And.left
      | false =>
        have hu := (settlement_failed hset).2.1
        refine ⟨by simp [settled, hn], ⟨now, hf⟩, rfl, ?_, hu⟩
        show r.ledgerAttempt = 1
        simpa [hu] using ha
    · -- another operation is not held by this request
      have hvalid := h.operation k o₂ ho₂
      unfold OperationValid at hvalid ⊢
      split at hvalid
      · trivial
      · next q hq =>
        obtain ⟨r₂, hr₂, hk, hs₂⟩ := hvalid
        refine ⟨r₂, ?_, hk, hs₂⟩
        rw [get_insert_ne _ (by rintro rfl; rw [hr] at hr₂; cases hr₂; exact hne hk.symm)]
        exact hr₂
      · next q hq =>
        obtain ⟨r₂, hr₂, hk, hs₂⟩ := hvalid
        refine ⟨r₂, ?_, hk, hs₂⟩
        rw [get_insert_ne _ (by rintro rfl; rw [hr] at hr₂; cases hr₂; exact hne hk.symm)]
        exact hr₂
    · cases success with
      | true => exact ⟨_, get_insert_self .., rfl, rfl⟩
      | false => trivial
  | recover =>
    refine ⟨fun k r' hr' => ?_, fun k o ho => (h.operation k o ho).extend (.map recover_stillHolds _)⟩
    have hr'' : (s.requests.map fun _ r => r.recover)[k]? = some r' := hr'
    rw [get_map, Option.map_eq_some_iff] at hr''
    obtain ⟨r, hr, rfl⟩ := hr''
    exact (h.record k r hr).step (recover_sameTicket r) fun _ _ => recover_recordOk

end Lifecycle

end ExecutorState

end IcLaya
