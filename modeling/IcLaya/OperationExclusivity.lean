import IcLaya.RequestLifecycle

/-!
# One business operation, one spend

Over a whole run an operation is reserved by the one request that holds a charge for it, is
consumed once and for all, and passes to another request only after a definitive failure.
The commands of one request repeat one transfer under ascending attempt numbers.
-/
namespace IcLaya
open CheckedWords Fallible OrderedMaps TransitionSystems RequestRecord

variable {Digest : Type} [Hashing Digest]

namespace ExecutorState

/-- The request was sent to the ledger with this transfer, at least `a` times. -/
def Sent (s : ExecutorState Digest) (k : Digest) (f : FrozenTransfer Digest) (a : UInt8) : Prop :=
  ∃ r, s.requests[k]? = some r ∧ r.frozen = some f ∧ a ≤ r.ledgerAttempt

section Steps
variable {s s' : ExecutorState Digest} {k : Digest} {o : Operation Digest} {g : Grant Digest}
  {r r' : RequestRecord Digest} {op : Op Digest} {cmd : DispatchCommand Digest}

theorem RecordStep.attempt_le (h : RecordStep s r.id r r') : r.ledgerAttempt ≤ r'.ledgerAttempt := by
  cases h with
  | transport q => unfold afterTransportFailure; split <;> exact UInt8.le_refl _
  | judged q p required result =>
    cases judge q.request required result <;> exact UInt8.le_refl _
  | retry f hs hf h2 =>
    rw [UInt8.lt_iff_toNat_lt] at h2
    rw [UInt8.le_iff_toNat_le, UInt8.toNat_add]
    have : (2 : UInt8).toNat = 2 := rfl
    have : (1 : UInt8).toNat = 1 := rfl
    omega
  | _ => exact UInt8.le_refl _

theorem RecordChange.attempt_le (h : RecordChange s r op r') (hr : s.requests[r.id]? = some r)
    (ho : s.operations[r.operation]? = some o) (hok : RecordOk o g r) :
    r.ledgerAttempt ≤ r'.ledgerAttempt := by
  cases h with
  | step h => exact h.attempt_le
  | dispatch a b now v f _ hb =>
    have := hok.undispatched (by rw [(ready_of_authorize hr hb ho).1]; rfl)
    rw [this.attempt]
    exact UInt8.zero_le
  | recover =>
    unfold RequestRecord.recover
    split <;> exact UInt8.le_refl _
  | _ => exact UInt8.le_refl _

/-- What was sent stays sent. -/
theorem Sent.next (hcf : CollisionFree Digest) (hv : s.Valid) {f : FrozenTransfer Digest}
    {a : UInt8} (h : s.Sent k f a) (op : Op Digest) : (s.step op).Sent k f a := by
  obtain ⟨r, hr, hf, ha⟩ := h
  obtain ⟨r', hr', hch⟩ := (change_of_step hcf hv.coherent op).record_at hv.coherent hr
  obtain ⟨o, g, ho, _, hok⟩ := hv.lifecycle.record k r hr
  have hid := (hv.coherent.request k r hr).id_eq
  rw [← hid] at hr
  exact ⟨r', hr', hch.frozen hr ho hok hf, UInt8.le_trans ha (hch.attempt_le hr ho hok)⟩

/-- A command is the first for a request whose operation is free, or repeats the transfer of
a request whose outcome is unknown. -/
theorem command_cases (hv : s.Valid) (h : s.command op = some cmd) :
    ∃ r o, s.requests[cmd.request]? = some r ∧ s.operations[r.operation]? = some o ∧
      (s.step op).Sent cmd.request cmd.transfer cmd.attempt ∧
      cmd.transfer.proposal = o.proposal ∧
      (r.frozen = none ∧ cmd.attempt = 1 ∧ o.status = .available ∨
        r.frozen = some cmd.transfer ∧ r.ledgerAttempt = 1 ∧ cmd.attempt = 2 ∧
          o.status = .reserved cmd.request) := by
  cases op with
  | prepareDispatch a now =>
    obtain ⟨s', hp⟩ := command_prepareDispatch.mp h
    obtain ⟨r, hr, ⟨b, hb⟩, _, ⟨_, hbad, _⟩ | ⟨_, o, g, g', c, ho, _, _, _, _, hcmd, hs'⟩⟩ :=
      prepareDispatch_eq_ok.mp hp
    · cases hbad
    cases hcmd
    have hid := (hv.coherent.request _ r hr).id_eq
    rw [← hid] at hr
    obtain ⟨hst, hav⟩ := ready_of_authorize hr hb ho
    obtain ⟨_, _, _, _, hok⟩ := hv.lifecycle.record _ r hr
    have hu := hok.undispatched (by rw [hst]; rfl)
    refine ⟨r, o, hr, ho, ?_, rfl, .inl ⟨hu.frozen, rfl, hav⟩⟩
    simp only [step, hp, commit_ok, hs']
    exact ⟨_, get_insert_self .., rfl, UInt8.le_refl _⟩
  | retryUnknown caller k now =>
    obtain ⟨s', hp⟩ := command_retryUnknown.mp h
    obtain ⟨r, f, hr, _, _, hun, h2, hf, rfl, hs'⟩ := retryUnknown_eq_ok hp
    obtain ⟨o, g, ho, _, hok⟩ := hv.lifecycle.record _ r hr
    have hid := (hv.coherent.request _ r hr).id_eq
    have hout : r.status.outstanding = true := by
      cases hst : r.status <;> simp_all [Status.isOutcomeUnknown, Status.outstanding]
    obtain ⟨⟨now', c, hf', _, _⟩, hop, ha, _⟩ := hok.outstanding hout
    have ha : r.ledgerAttempt = 1 := by
      rcases ha with ha | ⟨ha, _⟩
      · exact ha
      · rw [ha] at h2; exact absurd h2 (by decide)
    rw [hf] at hf'
    cases hf'
    refine ⟨r, o, hr, ho, ?_, rfl, .inr ⟨hf, ha, by simp [ha], by rw [hop, hid]⟩⟩
    simp only [step, hp, commit_ok, hs']
    exact ⟨_, get_insert_self .., hf, UInt8.le_refl _⟩
  | _ => cases h

/-- A request that was sent and no longer holds its operation failed for good. -/
theorem failed_of_sent (hv : s.Valid) {f : FrozenTransfer Digest} {a : UInt8}
    (h : s.Sent k f a) (hr : s.requests[k]? = some r) (ho : s.operations[r.operation]? = some o)
    (hnr : o.status ≠ .reserved k) (hnc : o.status ≠ .consumed k) :
    ∃ why, r.status = .failedDefinitive why := by
  obtain ⟨r₁, hr₁, hf, _⟩ := h
  obtain rfl : r = r₁ := Option.some.inj (hr.symm.trans hr₁)
  obtain ⟨o₁, g, ho₁, _, hok⟩ := hv.lifecycle.record k r hr
  obtain rfl : o = o₁ := Option.some.inj (ho.symm.trans ho₁)
  have hid := (hv.coherent.request k r hr).id_eq
  have hd := hok.dispatched_eq
  rw [hf] at hd
  have hno : r.status.outstanding ≠ true := fun hs => hnr (hid ▸ (hok.outstanding hs).operation)
  have hns : r.status.isSucceeded ≠ true := fun hs => hnc (hid ▸ (hok.succeeded hs).operation)
  cases hst : r.status with
  | failedDefinitive why => exact ⟨why, rfl⟩
  | submitted => simp [hst, Status.outstanding] at hno
  | outcomeUnknown why => simp [hst, Status.outstanding] at hno
  | succeeded block => simp [hst, Status.isSucceeded] at hns
  | _ => simp [hst, Status.dispatched] at hd

theorem RecordChange.sameTicket (h : RecordChange s r op r') : SameTicket r r' := by
  cases h with
  | step h => exact h.sameTicket
  | recover => exact recover_sameTicket r
  | _ => rfl

end Steps

/-- The operation is reserved by a request. -/
def ReservedBy (s : ExecutorState Digest) (k q : Digest) : Prop :=
  ∃ o, s.operations[k]? = some o ∧ o.status = .reserved q

/-- The operation was consumed by a request. -/
def ConsumedBy (s : ExecutorState Digest) (k q : Digest) : Prop :=
  ∃ o, s.operations[k]? = some o ∧ o.status = .consumed q

/-- A request for the operation holds a reservation. -/
def HeldBy (s : ExecutorState Digest) (k q : Digest) : Prop :=
  ∃ r v, s.requests[q]? = some r ∧ r.operation = k ∧ r.reservation = some v

/-- A request for the operation succeeded. -/
def PaidBy (s : ExecutorState Digest) (k q : Digest) : Prop :=
  ∃ r, s.requests[q]? = some r ∧ r.operation = k ∧ r.status.isSucceeded = true

section States
variable {s : ExecutorState Digest} {k q : Digest}

theorem heldBy_iff (hv : s.Valid) : s.HeldBy k q ↔ s.ReservedBy k q := by
  constructor
  · rintro ⟨r, v, hr, rfl, hres⟩
    obtain ⟨o, g, ho, _, hok⟩ := hv.lifecycle.record q r hr
    have hop := (hok.outstanding (hok.outstanding_of_reservation hres)).operation
    exact ⟨o, ho, by rw [hop, (hv.coherent.request q r hr).id_eq]⟩
  · rintro ⟨o, ho, hst⟩
    have hvalid := hv.lifecycle.operation k o ho
    rw [OperationValid, hst] at hvalid
    obtain ⟨r, hr, hk, hout⟩ := hvalid
    obtain ⟨v, hold⟩ := hv.holds hr hout
    exact ⟨r, v, hr, hk, hold.reservation⟩

theorem paidBy_iff (hv : s.Valid) : s.PaidBy k q ↔ s.ConsumedBy k q := by
  constructor
  · rintro ⟨r, hr, rfl, hs⟩
    obtain ⟨o, g, ho, _, hok⟩ := hv.lifecycle.record q r hr
    exact ⟨o, ho, by rw [(hok.succeeded hs).operation, (hv.coherent.request q r hr).id_eq]⟩
  · rintro ⟨o, ho, hst⟩
    have hvalid := hv.lifecycle.operation k o ho
    rw [OperationValid, hst] at hvalid
    exact hvalid

theorem ReservedBy.unique {q' : Digest} (h : s.ReservedBy k q) (h' : s.ReservedBy k q') :
    q = q' := by
  obtain ⟨o, ho, hst⟩ := h
  obtain ⟨o', ho', hst'⟩ := h'
  cases ho.symm.trans ho'
  exact OperationStatus.reserved.inj (hst.symm.trans hst')

theorem ConsumedBy.unique {q' : Digest} (h : s.ConsumedBy k q) (h' : s.ConsumedBy k q') :
    q = q' := by
  obtain ⟨o, ho, hst⟩ := h
  obtain ⟨o', ho', hst'⟩ := h'
  cases ho.symm.trans ho'
  exact OperationStatus.consumed.inj (hst.symm.trans hst')

/-- A success is for good. -/
theorem PaidBy.next (hcf : CollisionFree Digest) (hv : s.Valid) (h : s.PaidBy k q)
    (op : Op Digest) : (s.step op).PaidBy k q := by
  obtain ⟨r, hr, hk, hs⟩ := h
  obtain ⟨r', hr', hch⟩ := (change_of_step hcf hv.coherent op).record_at hv.coherent hr
  obtain ⟨o, g, ho, _, hok⟩ := hv.lifecycle.record q r hr
  rw [← (hv.coherent.request q r hr).id_eq] at hr
  refine ⟨r', hr', by rw [hch.sameTicket]; exact hk, ?_⟩
  rcases hch.leadsTo hr ho hok with he | he
  · rw [he, hs]
  · cases hst : r.status <;> simp_all [Status.isSucceeded, Status.leadsTo]

theorem PaidBy.run (hcf : CollisionFree Digest) (hv : s.Valid) (h : s.PaidBy k q)
    (ops : List (Op Digest)) : (run step s ops).PaidBy k q :=
  run_stable Valid (fun s => s.PaidBy k q) (fun _ op hs => valid_step hcf hs op)
    (fun _ op hs hp => hp.next hcf hs op) hv h ops

theorem Sent.run (hcf : CollisionFree Digest) (hv : s.Valid) {f : FrozenTransfer Digest}
    {a : UInt8} (h : s.Sent k f a) (ops : List (Op Digest)) : (run step s ops).Sent k f a :=
  run_stable Valid (fun s => s.Sent k f a) (fun _ op hs => valid_step hcf hs op)
    (fun _ op hs hp => hp.next hcf hs op) hv h ops

/-- Of two commands the later one repeats the transfer of the earlier as attempt two, or is for
another request. -/
theorem Sent.next_command {f : FrozenTransfer Digest} {a : UInt8} {op : Op Digest}
    {cmd : DispatchCommand Digest} (hv : s.Valid) (h : s.Sent cmd.request f a)
    (hcmd : s.command op = some cmd) : cmd.transfer = f ∧ a ≤ 1 ∧ cmd.attempt = 2 := by
  obtain ⟨r, hr, hf, ha⟩ := h
  obtain ⟨r₁, o, hr₁, _, _, _, ⟨hn, _⟩ | ⟨hf₁, h1, h2, _⟩⟩ := command_cases hv hcmd
  · cases hr.symm.trans hr₁
    rw [hf] at hn
    cases hn
  · cases hr.symm.trans hr₁
    cases hf.symm.trans hf₁
    exact ⟨rfl, h1 ▸ ha, h2⟩

/-- When a command is produced, every other request for the same operation that was ever sent
has failed for good. -/
theorem Sent.failed_at_command {k : Digest} {f : FrozenTransfer Digest} {a : UInt8}
    {op : Op Digest} {cmd : DispatchCommand Digest} {r r' : RequestRecord Digest} (hv : s.Valid)
    (h : s.Sent k f a) (hcmd : s.command op = some cmd) (hne : k ≠ cmd.request)
    (hr : s.requests[k]? = some r) (hr' : s.requests[cmd.request]? = some r')
    (hop : r.operation = r'.operation) : ∃ why, r.status = .failedDefinitive why := by
  obtain ⟨r₁, o, hr₁, ho, _, _, hcase⟩ := command_cases hv hcmd
  cases hr'.symm.trans hr₁
  rw [← hop] at ho
  refine failed_of_sent hv h hr ho ?_ ?_
  · rcases hcase with ⟨_, _, hst⟩ | ⟨_, _, _, hst⟩ <;> simp [hst, Ne.symm hne]
  · rcases hcase with ⟨_, _, hst⟩ | ⟨_, _, _, hst⟩ <;> simp [hst]

end States

/-- For every run: the holder of an operation is unique and is the one it is reserved by; a
consumed operation stays consumed by the only request that ever succeeds for it; a command for
another request comes after a definitive failure; and the commands of one request carry one
transfer, first as attempt one and then as attempt two. -/
theorem operation_spent_once (hcf : CollisionFree Digest) (self owner engine : Principal)
    (ops : List (Op Digest)) :
    (∀ k q, (run step (new self owner engine) ops).HeldBy k q ↔
      (run step (new self owner engine) ops).ReservedBy k q) ∧
    (∀ k q q', (run step (new self owner engine) ops).HeldBy k q →
      (run step (new self owner engine) ops).HeldBy k q' → q = q') ∧
    (∀ pre post, ops = pre ++ post → ∀ k q,
      (run step (new self owner engine) pre).ConsumedBy k q →
      (run step (new self owner engine) ops).ConsumedBy k q ∧
      ∀ pre' post', ops = pre' ++ post' → ∀ q',
        (run step (new self owner engine) pre').PaidBy k q' → q' = q) ∧
    (∀ pre op post cmd, ops = pre ++ op :: post →
      (run step (new self owner engine) pre).command op = some cmd →
      cmd.attempt = 1 ∨ cmd.attempt = 2) ∧
    ∀ pre op mid op' post cmd cmd', ops = pre ++ op :: (mid ++ op' :: post) →
      (run step (new self owner engine) pre).command op = some cmd →
      (run step (new self owner engine) (pre ++ op :: mid)).command op' = some cmd' →
      (cmd.request = cmd'.request →
        cmd.transfer = cmd'.transfer ∧ cmd.attempt = 1 ∧ cmd'.attempt = 2) ∧
      ∀ r r', (run step (new self owner engine) (pre ++ op :: mid)).requests[cmd.request]? = some r →
        (run step (new self owner engine) (pre ++ op :: mid)).requests[cmd'.request]? = some r' →
        cmd.request ≠ cmd'.request → r.operation = r'.operation →
        ∃ why, r.status = .failedDefinitive why := by
  have hv : ∀ es : List (Op Digest), (run step (new self owner engine) es).Valid := fun es =>
    valid_run hcf (valid_new self owner engine) es
  have hpaid : ∀ pre post k q, ops = pre ++ post →
      (run step (new self owner engine) pre).PaidBy k q →
      (run step (new self owner engine) ops).PaidBy k q := by
    rintro pre post k q rfl hp
    rw [run_append]
    exact hp.run hcf (hv pre) post
  have hattempt : ∀ (pre : List (Op Digest)) op cmd,
      (run step (new self owner engine) pre).command op = some cmd →
      cmd.attempt = 1 ∨ cmd.attempt = 2 := by
    intro pre op cmd hcmd
    obtain ⟨_, _, _, _, _, _, ⟨_, h1, _⟩ | ⟨_, _, h2, _⟩⟩ := command_cases (hv pre) hcmd
    · exact .inl h1
    · exact .inr h2
  refine ⟨fun k q => heldBy_iff (hv ops), fun k q q' h h' => ?_, ?_,
    fun pre op post cmd _ hcmd => hattempt pre op cmd hcmd, ?_⟩
  · exact ((heldBy_iff (hv ops)).mp h).unique ((heldBy_iff (hv ops)).mp h')
  · intro pre post he k q hc
    have hfinal := (paidBy_iff (hv ops)).mp (hpaid pre post k q he ((paidBy_iff (hv pre)).mpr hc))
    refine ⟨hfinal, fun pre' post' he' q' hp => ?_⟩
    exact ((paidBy_iff (hv ops)).mp (hpaid pre' post' k q' he' hp)).unique hfinal
  · intro pre op mid op' post cmd cmd' _ hcmd hcmd'
    -- the first command is on record at every later state
    have hsent : (run step (new self owner engine) (pre ++ op :: mid)).Sent cmd.request
        cmd.transfer cmd.attempt := by
      obtain ⟨_, _, _, _, hs, _⟩ := command_cases (hv pre) hcmd
      rw [run_append, run_cons]
      exact hs.run hcf (valid_step hcf (hv pre) op) mid
    refine ⟨fun he => ?_, fun r r' hr hr' hne hop =>
      hsent.failed_at_command (hv _) hcmd' hne hr hr' hop⟩
    obtain ⟨ht, h1, h2⟩ := Sent.next_command (hv _) (he ▸ hsent) hcmd'
    refine ⟨ht.symm, ?_, h2⟩
    rcases hattempt pre op cmd hcmd with ha | ha
    · exact ha
    · rw [ha] at h1
      exact absurd h1 (by decide)

/-- The retry of an unknown outcome repeats the first command as attempt two. -/
theorem operation_spent_once_retried :
    ∃ cmd cmd', (run step Sample.start Sample.judged).command (.prepareDispatch Sample.token 8000) =
        some cmd ∧ (run step Sample.start Sample.unknown).command
        (.retryUnknown Sample.delegate Sample.request 9000) = some cmd' ∧
      cmd.transfer = cmd'.transfer ∧ cmd.attempt = 1 ∧ cmd'.attempt = 2 := by
  have h₁ : (run step Sample.start Sample.judged).command (.prepareDispatch Sample.token 8000) =
      some ⟨Sample.request, 1, Sample.frozen⟩ := by decide +kernel
  have h₂ : (run step Sample.start Sample.unknown).command
      (.retryUnknown Sample.delegate Sample.request 9000) =
      some ⟨Sample.request, 2, Sample.frozen⟩ := by decide +kernel
  exact ⟨_, _, h₁, h₂, ((operation_spent_once SymbolicDigest.collisionFree Sample.self Sample.owner
    Sample.engine Sample.retried).2.2.2.2 Sample.judged _ [_] _ [] _ _ rfl h₁ h₂).1 rfl⟩

end ExecutorState

end IcLaya
