import IcLaya.ListUpdates
import IcLaya.OperationExclusivity
import IcLaya.TransferComposition

/-!
# Messages, records and requests

`Change` lists what an event does. Its invariant `Exact` relates the messages in flight to the
ledger records and both to the statuses of the requests: a record comes from an executed message,
a success has a record, and every message of a failed request was executed and refused.
-/
namespace IcLaya
open CheckedWords Fallible ListUpdates OrderedMaps TransitionSystems MockLedger

variable {Digest : Type} [Hashing Digest]

def Status.isFailedDefinitive : Status → Bool | .failedDefinitive _ => true | _ => false

namespace ExecutorState
variable {s : ExecutorState Digest} {k : Digest} {r r' : RequestRecord Digest} {op : Op Digest}

theorem RecordStep.unsettled (h : RecordStep s k r r') :
    r'.status.isSucceeded = false ∧ r'.status.isFailedDefinitive = false := by
  cases h with
  | resend q hs => rcases hs with hs | hs <;> exact hs ▸ ⟨rfl, rfl⟩
  | transport q hs =>
    unfold afterTransportFailure
    split
    · exact ⟨rfl, rfl⟩
    · exact hs ▸ ⟨rfl, rfl⟩
  | judged q p required result =>
    obtain ⟨_, he⟩ | he | he := afterOutcome_status r p.signals.length
      (judge q.request required result) <;> exact he ▸ ⟨rfl, rfl⟩
  | _ => exact ⟨rfl, rfl⟩

/-- A settled record was settled before, or by the outcome of a command for its transfer. -/
theorem Valid.settled_origin (hcf : CollisionFree Digest) (hv : s.Valid)
    (hr' : (s.step op).requests[k]? = some r')
    (hst : r'.status.isSucceeded = true ∨ r'.status.isFailedDefinitive = true) :
    ∃ r, s.requests[k]? = some r ∧ (r = r' ∨ ∃ cmd outcome success text,
      op = .finishLedger cmd outcome ∧ cmd.request = k ∧ r.frozen = some cmd.transfer ∧
      settlement r cmd.attempt outcome = some (success, text) ∧ r' = settled r success text) := by
  have hs := change_of_step hcf hv.coherent op
  cases hr : s.requests[k]? with
  | none =>
    obtain ⟨_, _, _, _, _, _, _, _, _, _, _, _, _, _, _, rfl, _⟩ := hs.born hr hr'
    simp [newRecord, Status.isSucceeded, Status.isFailedDefinitive] at hst
  | some r =>
    refine ⟨r, rfl, ?_⟩
    obtain ⟨r₁, hr₁, hch⟩ := hs.record_at hv.coherent hr
    cases hr'.symm.trans hr₁
    cases hch with
    | same => exact .inl rfl
    | step h => simp [h.unsettled] at hst
    | dispatch => simp [dispatched, Status.isSucceeded, Status.isFailedDefinitive] at hst
    | settle cmd outcome success text _ hid hf hset =>
      exact .inr ⟨cmd, outcome, success, text, rfl, hid.trans (hv.coherent.request k r hr).id_eq,
        hf, hset, rfl⟩
    | recover =>
      unfold RequestRecord.recover at hst ⊢
      split at hst
      · simp [Status.isSucceeded, Status.isFailedDefinitive] at hst
      · simp [Status.isSucceeded, Status.isFailedDefinitive] at hst
      · exact .inl rfl

/-- A frozen transfer can be sent, and carries its request as memo. -/
theorem Valid.frozen_ok (hv : s.Valid) (hr : s.requests[k]? = some r)
    {f : FrozenTransfer Digest} (hf : r.frozen = some f) :
    f.memo = k ∧ f.proposal.validate = .ok () := by
  obtain ⟨o, g, ho, _, hok⟩ := hv.lifecycle.record k r hr
  have hid := (hv.coherent.request k r hr).id_eq
  have hval := (hv.coherent.operation _ o ho).2.1
  suffices h : ∃ now, r.frozen = some ⟨o.proposal, r.id, now⟩ by
    obtain ⟨now, h⟩ := h
    cases hf.symm.trans h
    exact ⟨hid, hval⟩
  have hd := hok.dispatched_eq
  rw [hf] at hd
  obtain ⟨_, hok⟩ := hok
  split at hok
  · obtain ⟨now, c, h, _⟩ := hok.booked; exact ⟨now, h⟩
  · obtain ⟨now, c, h, _⟩ := hok.booked; exact ⟨now, h⟩
  · exact hok.frozen
  · exact hok.frozen
  · rw [hok.frozen] at hf; cases hf

/-- The request of a new command is submitted. -/
theorem submitted_of_command {cmd : DispatchCommand Digest} (h : s.command op = some cmd) :
    ∃ r, (s.step op).requests[cmd.request]? = some r ∧ r.status = .submitted := by
  cases op with
  | prepareDispatch a now =>
    obtain ⟨s', hp⟩ := command_prepareDispatch.mp h
    obtain ⟨r, _, _, _, ⟨_, hbad, _⟩ | ⟨_, o, g, g', c, _, _, _, _, _, hcmd, hs'⟩⟩ :=
      prepareDispatch_eq_ok.mp hp
    · cases hbad
    cases hcmd
    simp only [step, hp, commit_ok, hs']
    exact ⟨_, get_insert_self .., rfl⟩
  | retryUnknown caller i now =>
    obtain ⟨s', hp⟩ := command_retryUnknown.mp h
    obtain ⟨r, f, _, _, _, _, _, _, rfl, hs'⟩ := retryUnknown_eq_ok hp
    simp only [step, hp, commit_ok, hs']
    exact ⟨_, get_insert_self .., rfl⟩
  | _ => cases h

end ExecutorState

namespace TransferSystem

/-- The ledgers know the executor by its own principal. -/
abbrev self (w : TransferSystem Digest) : Principal := w.executor.instancePrincipal

/-- What one event does. -/
inductive Change (debug : TransferError → String) (w : TransferSystem Digest) :
    TransferSystem Digest → Prop
  | same : Change debug w w
  | call (op : Op Digest) (hop : ∀ cmd outcome, op ≠ .finishLedger cmd outcome) :
      Change debug w { w with executor := w.executor.step op }
  | send (op : Op Digest) (cmd : DispatchCommand Digest) (hcmd : w.executor.command op = some cmd)
      (hop : ∀ cmd outcome, op ≠ .finishLedger cmd outcome) :
      Change debug w { w with
        executor := w.executor.step op
        transfers := w.transfers ++ [⟨cmd, none, none⟩] }
  | execute (i : ℕ) (m : TransferMessage Digest) (now : UInt64) (hm : w.transfers[i]? = some m)
      (hn : m.executed = none) : Change debug w (w.execute i m now)
  | deliver (i : ℕ) (m : TransferMessage Digest) (d : Delivery) (outcome : LedgerOutcome)
      (hm : w.transfers[i]? = some m) (hn : m.answer = none)
      (ho : sendOutcome debug m.executed d = some outcome) :
      Change debug w { w with
        executor := w.executor.step (.finishLedger m.cmd outcome)
        transfers := w.transfers.set i { m with answer := some (some outcome) } }
  | reconcile (caller : Principal) (id : Digest) (cmd : DispatchCommand Digest)
      (hcmd : w.executor.reconcileCommand caller id = .ok cmd) :
      Change debug w { w with lookups := w.lookups ++ [⟨cmd, none, none⟩] }
  | executeLookup (j : ℕ) (m : LookupMessage Digest) (hm : w.lookups[j]? = some m)
      (hn : m.executed = none) : Change debug w (w.executeLookup j m)
  | deliverLookup (j : ℕ) (m : LookupMessage Digest) (d : Delivery)
      (outcome : Option LedgerOutcome) (hm : w.lookups[j]? = some m) (hn : m.answer = none)
      (ho : lookupOutcome m.cmd.transfer.digest m.executed d = some outcome) :
      Change debug w { w with
        executor := w.finish m.cmd outcome
        lookups := w.lookups.set j { m with answer := some outcome } }
  | ledger (p : Principal) (l : MockLedger Digest)
      (hrec : ∀ h : Digest, l.records[(w.self, h)]? = (w.ledgers p).records[(w.self, h)]?)
      (hidx : (w.ledgers p).Indexed → l.Indexed) : Change debug w (w.putLedger p l)

variable {debug : TransferError → String} {w w' : TransferSystem Digest}

theorem change_of_send (op : Op Digest) (hop : ∀ cmd outcome, op ≠ .finishLedger cmd outcome) :
    Change debug w (w.send op) := by
  unfold send
  cases hcmd : w.executor.command op with
  | none => simpa using Change.call op hop
  | some cmd => exact .send op cmd hcmd hop

theorem change_of_step (debug : TransferError → String) (w : TransferSystem Digest)
    (e : TransferEvent Digest) : Change debug w (w.step debug e) := by
  cases e with
  | call op =>
    simp only [step]
    split
    · next hl => exact .call op (by rintro cmd outcome rfl; cases hl)
    · exact .same
  | dispatch caller id now =>
    simp only [step]
    split
    · exact change_of_send _ (by simp)
    · exact .same
  | retryMockTransfer caller id now =>
    simp only [step]
    split
    · exact change_of_send _ (by simp)
    · exact .same
  | execute i now =>
    simp only [step]
    split
    · next m hm =>
      split
      · next hn => exact .execute i m now hm hn
      · exact .same
    · exact .same
  | deliver i d =>
    simp only [step]
    split
    · next m hm =>
      split
      · next outcome hn ho => exact .deliver i m d outcome hm hn ho
      · exact .same
    · exact .same
  | reconcileMock caller id =>
    simp only [step]
    split
    · next cmd hcmd => exact .reconcile caller id cmd hcmd
    · exact .same
  | executeLookup j =>
    simp only [step]
    split
    · next m hm =>
      split
      · next hn => exact .executeLookup j m hm hn
      · exact .same
    · exact .same
  | deliverLookup j d =>
    simp only [step]
    split
    · next m hm =>
      split
      · next outcome hn ho => exact .deliverLookup j m d outcome hm hn ho
      · exact .same
    · exact .same
  | setFault ledger caller fault =>
    simp only [step]
    split
    · next l hl =>
      simp only [MockLedger.setFault, bind_eq_ok, pure_eq_ok] at hl
      obtain ⟨_, _, rfl⟩ := hl
      exact .ledger ledger _ (fun _ => rfl) id
    · exact .same
  | foreignTransfer ledger caller arg now =>
    simp only [step]
    split
    · exact .same
    · next hne =>
      obtain ⟨h, ht⟩ := icrc1Transfer_spec (w.ledgers ledger) ledger caller arg now
      refine .ledger ledger _ (fun h' => ?_) ht.indexed
      cases hv : (w.ledgers ledger).records[(w.self, h')]? with
      | some v => exact ht.records_stay hv
      | none =>
        rw [Option.eq_none_iff_forall_not_mem]
        intro v hv'
        exact hne (congrArg Prod.fst (ht.record_born hv hv').1).symm

/-- The ledger has a record of the transfer. -/
def Recorded (w : TransferSystem Digest) (f : FrozenTransfer Digest) : Prop :=
  ∃ v, (w.ledgers f.proposal.ledger).records[(w.self, f.digest)]? = some v

/-- The ledger found a block for the transfer, and has its record. -/
def Found (w : TransferSystem Digest) (f : FrozenTransfer Digest) (v : Lookup Digest) : Prop :=
  v.frozenHash = f.digest ∧ (∃ n : UInt64, v.blockIndex = toString n.toNat) ∧ w.Recorded f

/-- The execution committed a record. -/
def Committed (executed : Option (Option TransferResult)) : Prop :=
  executed = some none ∨ ∃ n, executed = some (some (.ok n))

/-- The reply names a block, new or old. -/
def Reported (executed : Option (Option TransferResult)) : Prop :=
  ∃ res, executed = some (some res) ∧ ∀ e, res = .error e → e.isDuplicate = true

structure Exact (w : TransferSystem Digest) : Prop where
  executor : w.executor.Valid
  sent : ∀ m ∈ w.transfers, m.cmd.attempt ≠ 0 ∧
    w.executor.Sent m.cmd.request m.cmd.transfer m.cmd.attempt
  ascending : (w.transfers.map Message.cmd).Pairwise fun c c' =>
    c.request = c'.request → c.attempt < c'.attempt
  indexed : ∀ p, (w.ledgers p).Indexed
  recorded : ∀ p h v, (w.ledgers p).records[(w.self, h)]? = some v → ∃ m ∈ w.transfers,
    m.cmd.transfer.proposal.ledger = p ∧ m.cmd.transfer.digest = h ∧ Committed m.executed
  reported : ∀ m ∈ w.transfers, Reported m.executed → w.Recorded m.cmd.transfer
  numbered : ∀ m ∈ w.transfers, ∀ n, m.executed = some (some (.ok n)) ∨
    m.executed = some (some (.error (.duplicate n))) → n < 2 ^ 64
  found : ∀ m ∈ w.lookups, ∀ v, m.executed = some (some v) → w.Found m.cmd.transfer v
  succeeded : ∀ (k : Digest) r f, w.executor.requests[k]? = some r →
    r.status.isSucceeded = true → r.frozen = some f → w.Recorded f
  failed : ∀ (k : Digest) r, w.executor.requests[k]? = some r →
    r.status.isFailedDefinitive = true → ∀ m ∈ w.transfers, m.cmd.request = k →
      ∃ e, m.executed = some (some (.error e))

theorem Committed.not_refused {ex : Option (Option TransferResult)} (h : Committed ex)
    {e : TransferError} (he : ex = some (some (.error e))) : False := by
  subst he
  rcases h with h | ⟨n, h⟩ <;> simp at h

/-- A reply that succeeds or repeats names a block. -/
theorem reported_of_outcome {ex : Option (Option TransferResult)} {d : Delivery}
    {outcome : LedgerOutcome} {text : String} (h : sendOutcome debug ex d = some outcome)
    (ho : outcome = .success text ∨ outcome = .duplicate text) : Reported ex := by
  unfold sendOutcome at h
  split at h
  · split at h
    · next result =>
      refine ⟨result, rfl, ?_⟩
      rintro e rfl
      cases h
      cases e with
      | duplicate => rfl
      | _ => simp [replyOutcome] at ho
    · cases h
  all_goals
    cases h
    simp at ho

/-- A definitive error is a refusal by the ledger. -/
theorem refused_of_outcome {ex : Option (Option TransferResult)} {d : Delivery} {why : String}
    (h : sendOutcome debug ex d = some (.definitiveError why)) :
    ∃ e, ex = some (some (.error e)) := by
  unfold sendOutcome at h
  split at h
  · split at h
    · next result =>
      cases result with
      | ok n => simp [replyOutcome] at h
      | error e => exact ⟨e, rfl⟩
    · cases h
  all_goals cases h

/-- A lookup reports a success only if it found a record. -/
theorem found_of_outcome {expected : Digest} {ex : Option (Option (Lookup Digest))} {d : Delivery}
    {outcome : LedgerOutcome} {text : String}
    (h : lookupOutcome expected ex d = some (some outcome))
    (ho : outcome = .success text ∨ outcome = .duplicate text) : ∃ v, ex = some (some v) := by
  unfold lookupOutcome at h
  split at h
  · split at h
    · next found => exact ⟨found, rfl⟩
    · cases h; simp at ho
    · cases h
  all_goals cases h

/-- A lookup never reports a definitive error. -/
theorem lookupOutcome_ne_error {expected : Digest} {ex : Option (Option (Lookup Digest))}
    {d : Delivery} {why : String} :
    lookupOutcome expected ex d ≠ some (some (.definitiveError why)) := by
  unfold lookupOutcome
  split
  · split
    · split <;> simp
    · simp
    · simp
  all_goals simp

theorem exact_new (self owner engine : Principal) (ledgerOwner : Principal → Principal) :
    (new self owner engine ledgerOwner : TransferSystem Digest).Exact where
  executor := ExecutorState.valid_new ..
  sent := by simp [new]
  ascending := .nil
  indexed := fun _ => indexed_new _
  recorded := by
    intro p h v hv
    simp [new, MockLedger.new] at hv
  reported := by simp [new]
  numbered := by simp [new]
  found := by simp [new]
  succeeded := by
    intro k r f hr
    simp [new, ExecutorState.new] at hr
  failed := by
    intro k r hr
    simp [new, ExecutorState.new] at hr

section Preservation
variable {cmd : DispatchCommand Digest} {i : ℕ} {m m' : TransferMessage Digest}

theorem self_step (hcf : CollisionFree Digest) (h : w.Exact) (op : Op Digest) :
    (w.executor.step op).instancePrincipal = w.self :=
  (ExecutorState.change_of_step hcf h.executor.coherent op).extends.instancePrincipal

/-- Two messages of one request under one attempt are one message. -/
theorem Exact.sole (h : w.Exact) (hm : m ∈ w.transfers) (hm' : m' ∈ w.transfers)
    (hr : m.cmd.request = m'.cmd.request) (ha : m.cmd.attempt = m'.cmd.attempt) : m = m' := by
  have hR : ∀ c : DispatchCommand Digest, ¬(c.request = c.request → c.attempt < c.attempt) :=
    fun c hc => UInt8.lt_irrefl _ (hc rfl)
  refine eq_of_pairwise hR h.ascending hm hm' ?_
  obtain ⟨_, r, hreq, hf, _⟩ := h.sent m hm
  obtain ⟨_, r', hreq', hf', _⟩ := h.sent m' hm'
  rw [hr] at hreq
  cases hreq.symm.trans hreq'
  have ht := Option.some.inj (hf.symm.trans hf')
  cases hc : m.cmd
  cases hc' : m'.cmd
  simp_all

theorem eq_one_of_le {a : UInt8} (h0 : a ≠ 0) (h1 : a ≤ 1) : a = 1 := by
  rw [UInt8.le_iff_toNat_le] at h1
  rw [ne_eq, ← UInt8.toNat_inj] at h0
  rw [← UInt8.toNat_inj]
  have : (1 : UInt8).toNat = 1 := rfl
  have : (0 : UInt8).toNat = 0 := rfl
  omega

/-- An executor call keeps the invariant if a success it reports has a record and an error it
reports was the reply to a message. -/
theorem Exact.executorStep (hcf : CollisionFree Digest) (h : w.Exact) (op : Op Digest)
    (hsucc : ∀ cmd outcome text, op = .finishLedger cmd outcome →
      outcome = .success text ∨ outcome = .duplicate text → w.Recorded cmd.transfer)
    (hfail : ∀ cmd why, op = .finishLedger cmd (.definitiveError why) →
      ∃ m ∈ w.transfers, m.cmd = cmd ∧ ∃ e, m.executed = some (some (.error e))) :
    Exact { w with executor := w.executor.step op } := by
  have hself := self_step hcf h op
  have hv := ExecutorState.valid_step hcf h.executor op
  have hrec : ∀ f, w.Recorded f → Recorded { w with executor := w.executor.step op } f := by
    rintro f ⟨v, hv⟩
    exact ⟨v, by rw [self, hself]; exact hv⟩
  refine ⟨hv, fun m hm => ⟨(h.sent m hm).1, (h.sent m hm).2.next hcf h.executor op⟩, h.ascending,
    h.indexed, ?_, fun m hm hr => hrec _ (h.reported m hm hr), h.numbered,
    fun m hm v hv => (h.found m hm v hv).imp id (And.imp id (hrec _)), ?_, ?_⟩
  · intro p fp v hp
    rw [self, hself] at hp
    exact h.recorded p fp v hp
  · intro k r' f hr' hst hf
    obtain ⟨r, hr, rfl | ⟨cmd, outcome, success, text, rfl, _, hfr, hset, rfl⟩⟩ :=
      h.executor.settled_origin hcf hr' (.inl hst)
    · exact hrec f (h.succeeded k r f hr hst hf)
    · cases success with
      | false => cases hst
      | true =>
        cases (hf.symm.trans hfr : some f = some cmd.transfer)
        exact hrec _ (hsucc cmd outcome text rfl (ExecutorState.settlement_succeeded hset))
  · intro k r' hr' hst m hm hmk
    obtain ⟨r, hr, rfl | ⟨cmd, outcome, success, text, rfl, hk, _, hset, rfl⟩⟩ :=
      h.executor.settled_origin hcf hr' (.inr hst)
    · exact h.failed k r hr hst m hm hmk
    · cases success with
      | true => cases hst
      | false =>
        obtain ⟨rfl, _, ha⟩ := ExecutorState.settlement_failed hset
        obtain ⟨m₀, hm₀, rfl, e, he⟩ := hfail cmd text rfl
        -- a request that fails was sent once, so the refused message is the only one
        obtain ⟨o, g, _, _, _, hok⟩ := hv.lifecycle.record k _ hr'
        have h1 : r.ledgerAttempt = 1 := hok.attempt
        obtain ⟨h0, r₁, hr₁, _, hle⟩ := h.sent m hm
        rw [hmk, hr] at hr₁
        cases hr₁
        rw [h1] at hle ha
        cases h.sole hm hm₀ (hmk.trans hk.symm) ((eq_one_of_le h0 hle).trans ha.symm)
        exact ⟨e, he⟩

/-- A new message of a submitted request. -/
theorem Exact.sendMessage (h : w.Exact) {r : RequestRecord Digest}
    (hr : w.executor.requests[cmd.request]? = some r) (hs : r.status = .submitted)
    (h0 : cmd.attempt ≠ 0) (hsent : w.executor.Sent cmd.request cmd.transfer cmd.attempt)
    (hlt : ∀ m ∈ w.transfers, m.cmd.request = cmd.request → m.cmd.attempt < cmd.attempt) :
    Exact { w with transfers := w.transfers ++ [⟨cmd, none, none⟩] } where
  executor := h.executor
  sent := forall_mem_concat h.sent ⟨h0, hsent⟩
  ascending := by
    rw [List.map_append, List.pairwise_append]
    refine ⟨h.ascending, List.pairwise_singleton .., ?_⟩
    simp only [List.mem_map, List.map_cons, List.map_nil, List.mem_singleton]
    rintro c ⟨m, hm, rfl⟩ c' rfl
    exact hlt m hm
  indexed := h.indexed
  recorded := by
    intro p fp v hv
    obtain ⟨m, hm, hrest⟩ := h.recorded p fp v hv
    exact ⟨m, List.mem_append_left _ hm, hrest⟩
  reported := forall_mem_concat h.reported (by rintro ⟨res, hres, _⟩; cases hres)
  numbered := forall_mem_concat h.numbered (by simp)
  found := h.found
  succeeded := h.succeeded
  failed := by
    intro k r' hr' hst
    refine forall_mem_concat (h.failed k r' hr' hst) ?_
    rintro rfl
    cases hr.symm.trans hr'
    rw [hs] at hst
    cases hst

/-- Only the callback of a message changes. -/
theorem Exact.answerMessage (h : w.Exact) (hm : w.transfers[i]? = some m)
    (a : Option (Option LedgerOutcome)) :
    Exact { w with transfers := w.transfers.set i { m with answer := a } } := by
  have hmem := List.mem_of_getElem? hm
  refine ⟨h.executor, forall_mem_set h.sent (h.sent m hmem), ?_, h.indexed, ?_,
    forall_mem_set h.reported (h.reported m hmem), forall_mem_set h.numbered (h.numbered m hmem),
    h.found, h.succeeded,
    fun k r hr hst => forall_mem_set (h.failed k r hr hst) (h.failed k r hr hst m hmem)⟩
  · show ((w.transfers.set i _).map _).Pairwise _
    rw [map_set_same (b := { m with answer := a }) Message.cmd hm rfl]
    exact h.ascending
  · intro p fp v hv
    obtain ⟨m₁, hm₁, hrest⟩ := h.recorded p fp v hv
    rcases mem_set_of_mem hm₁ hm with rfl | hm₁
    · exact ⟨_, mem_set_self hm, hrest⟩
    · exact ⟨m₁, hm₁, hrest⟩

/-- A ledger on which nothing happened to the executor's own records. -/
theorem Exact.ledgerStep (h : w.Exact) {p : Principal} {l : MockLedger Digest}
    (hrec : ∀ h : Digest, l.records[(w.self, h)]? = (w.ledgers p).records[(w.self, h)]?)
    (hidx : (w.ledgers p).Indexed → l.Indexed) : (w.putLedger p l).Exact := by
  have hsame : ∀ (q : Principal) (fp : Digest),
      ((w.putLedger p l).ledgers q).records[(w.self, fp)]? = (w.ledgers q).records[(w.self, fp)]? := by
    intro q fp
    show (Function.update w.ledgers p l q).records[_]? = _
    by_cases hq : q = p
    · rw [hq, Function.update_self, hrec]
    · rw [Function.update_of_ne hq]
  have hR : ∀ f, w.Recorded f → (w.putLedger p l).Recorded f := by
    rintro f ⟨v, hv⟩
    exact ⟨v, (hsame _ _).trans hv⟩
  refine ⟨h.executor, h.sent, h.ascending, fun q => ?_, fun q fp v hv => ?_,
    fun m hm hr => hR _ (h.reported m hm hr), h.numbered,
    fun m hm v hv => (h.found m hm v hv).imp id (And.imp id (hR _)),
    fun k r f hr hst hf => hR f (h.succeeded k r f hr hst hf), h.failed⟩
  · show (Function.update w.ledgers p l q).Indexed
    by_cases hq : q = p
    · rw [hq, Function.update_self]
      exact hidx (h.indexed p)
    · rw [Function.update_of_ne hq]
      exact h.indexed q
  · exact h.recorded q fp v ((hsame q fp).symm.trans hv)

/-- The transfer of a message that was sent can be read back by its ledger. -/
theorem Exact.transfer_ok (h : w.Exact) (hm : m ∈ w.transfers) :
    m.cmd.transfer.memo = m.cmd.request ∧ m.cmd.transfer.proposal.validate = .ok () := by
  obtain ⟨_, r, hr, hf, _⟩ := h.sent m hm
  exact h.executor.frozen_ok hr hf

/-- The ledger executes a message. -/
theorem Exact.executeStep (h : w.Exact) (hm : w.transfers[i]? = some m) (hn : m.executed = none)
    {l : MockLedger Digest} {reply : Option TransferResult}
    (ht : Transferred (w.ledgers m.cmd.transfer.proposal.ledger) w.self m.cmd.transfer.digest
      l reply) : (w.putExecution i m l reply).Exact := by
  have hmem := List.mem_of_getElem? hm
  have hl : ∀ q, Function.update w.ledgers m.cmd.transfer.proposal.ledger l q =
      if q = m.cmd.transfer.proposal.ledger then l else w.ledgers q := fun q => by
    rw [Function.update_apply]
  have hstay : ∀ f, w.Recorded f → (w.putExecution i m l reply).Recorded f := by
    rintro f ⟨v, hv⟩
    refine ⟨v, ?_⟩
    show (Function.update w.ledgers _ l _).records[_]? = _
    rw [hl]
    split
    · next hq => rw [hq] at hv; exact ht.records_stay hv
    · exact hv
  refine ⟨h.executor, forall_mem_set h.sent (h.sent m hmem), ?_, fun q => ?_, fun q fp v hnew => ?_,
    forall_mem_set (fun m₁ hm₁ hr => hstay _ (h.reported m₁ hm₁ hr)) ?_,
    forall_mem_set h.numbered fun n hr => ht.numbered (hr.imp Option.some.inj Option.some.inj),
    fun m₁ hm₁ v hv => (h.found m₁ hm₁ v hv).imp id (And.imp id (hstay _)),
    fun k r f hr hst hf => hstay f (h.succeeded k r f hr hst hf), fun k r hr hst => ?_⟩
  · show ((w.transfers.set i _).map _).Pairwise _
    rw [map_set_same (b := { m with executed := some reply }) Message.cmd hm rfl]
    exact h.ascending
  · show (Function.update w.ledgers _ l q).Indexed
    rw [hl]
    split
    · exact ht.indexed (h.indexed _)
    · exact h.indexed q
  · have hv : (Function.update w.ledgers _ l q).records[(w.self, fp)]? = some v := hnew
    clear hnew
    -- a record is an old one, or the one that this message committed
    by_cases hold : ∃ v, (w.ledgers q).records[(w.self, fp)]? = some v
    · obtain ⟨v₀, hv₀⟩ := hold
      obtain ⟨m₁, hm₁, hp, hf, hc⟩ := h.recorded q fp v₀ hv₀
      rcases mem_set_of_mem hm₁ hm with rfl | hm₁
      · rw [hn] at hc
        rcases hc with hc | ⟨_, hc⟩ <;> cases hc
      · exact ⟨m₁, hm₁, hp, hf, hc⟩
    · rw [hl] at hv
      split at hv
      · next hq =>
        subst hq
        have hnone := Option.eq_none_iff_forall_ne_some.mpr fun v hv => hold ⟨v, hv⟩
        obtain ⟨hkey, hreply⟩ := ht.record_born hnone hv
        refine ⟨_, mem_set_self hm, rfl, (congrArg Prod.snd hkey).symm, ?_⟩
        rcases hreply with rfl | ⟨n, rfl⟩
        · exact .inl rfl
        · exact .inr ⟨n, rfl⟩
      · exact absurd ⟨v, hv⟩ hold
  · rintro ⟨res, hres, hdup⟩
    obtain ⟨v, hv⟩ := ht.reported (Option.some.inj hres) hdup
    refine ⟨v, ?_⟩
    show (Function.update w.ledgers _ l _).records[_]? = _
    rw [hl, if_pos rfl]
    exact hv
  · refine forall_mem_set (h.failed k r hr hst) fun hk => ?_
    obtain ⟨e, he⟩ := h.failed k r hr hst m hmem hk
    rw [hn] at he
    cases he

/-- A change of the lookups keeps the invariant when what they found is recorded. -/
theorem Exact.lookupStep (h : w.Exact) {ls : List (LookupMessage Digest)}
    (hls : ∀ m ∈ ls, ∀ v, m.executed = some (some v) → w.Found m.cmd.transfer v) :
    Exact { w with lookups := ls } :=
  ⟨h.executor, h.sent, h.ascending, h.indexed, h.recorded, h.reported, h.numbered, hls, h.succeeded, h.failed⟩

theorem Exact.change (hcf : CollisionFree Digest) (h : w.Exact) (hc : Change debug w w') :
    w'.Exact := by
  cases hc with
  | same => exact h
  | call op hop =>
    exact h.executorStep hcf op (fun cmd outcome _ he => absurd he (hop cmd outcome))
      fun cmd _ he => absurd he (hop cmd _)
  | send op cmd hcmd hop =>
    have hstep := h.executorStep hcf op (fun cmd outcome _ he => absurd he (hop cmd outcome))
      fun cmd _ he => absurd he (hop cmd _)
    obtain ⟨r, hr, hs⟩ := ExecutorState.submitted_of_command hcmd
    obtain ⟨_, _, _, _, hsent, _, hcase⟩ := ExecutorState.command_cases h.executor hcmd
    refine hstep.sendMessage hr hs ?_ hsent fun m hm hk => ?_
    · rcases hcase with ⟨_, h1, _⟩ | ⟨_, _, h2, _⟩
      · rw [h1]; decide
      · rw [h2]; decide
    · obtain ⟨_, hle, h2⟩ := ExecutorState.Sent.next_command h.executor (hk ▸ (h.sent m hm).2) hcmd
      rw [h2]
      exact UInt8.lt_of_le_of_lt hle (by decide)
  | execute i m now hm hn =>
    exact h.executeStep hm hn
      (icrc1Transfer_toIcrc (h.transfer_ok (List.mem_of_getElem? hm)).2 _ _ now)
  | deliver i m d outcome hm hn ho =>
    have hmem := List.mem_of_getElem? hm
    have hstep := h.executorStep hcf (.finishLedger m.cmd outcome) ?_ ?_
    · exact hstep.answerMessage hm _
    · rintro cmd outcome text he htext
      cases he
      exact h.reported m hmem (reported_of_outcome ho htext)
    · rintro cmd why he
      cases he
      exact ⟨m, hmem, rfl, refused_of_outcome ho⟩
  | reconcile caller id cmd hcmd => exact h.lookupStep (forall_mem_concat h.found (by simp))
  | executeLookup j m hm hn =>
    refine h.lookupStep (forall_mem_set h.found fun v hv => ?_)
    have hrec := lookup_toIcrc_some (Option.some.inj hv)
    obtain ⟨hh, hb⟩ := h.indexed _ _ v hrec
    exact ⟨hh, hb, v, hrec⟩
  | deliverLookup j m d outcome hm hn ho =>
    have hmem := List.mem_of_getElem? hm
    cases outcome with
    | none => exact h.lookupStep (forall_mem_set h.found (h.found m hmem))
    | some outcome =>
      have hstep := h.executorStep hcf (.finishLedger m.cmd outcome) ?_ ?_
      · exact hstep.lookupStep (forall_mem_set hstep.found (hstep.found m hmem))
      · rintro cmd outcome text he htext
        cases he
        obtain ⟨v, hv⟩ := found_of_outcome ho htext
        exact (h.found m hmem v hv).2.2
      · rintro cmd why he
        cases he
        exact absurd ho lookupOutcome_ne_error
  | ledger p l hrec hidx => exact h.ledgerStep hrec hidx

theorem exact_run (hcf : CollisionFree Digest) (h : w.Exact) (es : List (TransferEvent Digest)) :
    (run (step debug) w es).Exact :=
  run_invariant Exact (fun w e h => h.change hcf (change_of_step debug w e)) h es

end Preservation

end TransferSystem

end IcLaya
