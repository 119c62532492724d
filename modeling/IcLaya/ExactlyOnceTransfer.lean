import IcLaya.TransferInvariant

/-!
# Exactly-once transfer

Across any interleaving of messages, faults and lost replies a request moves its money at most
once, it is known to have succeeded only if the ledger says so, and it fails only when nothing
that was sent for it can be executed any more.
-/
namespace IcLaya
open CheckedWords Fallible OrderedMaps TransitionSystems MockLedger

variable {Digest : Type} [Hashing Digest]

namespace TransferSystem
variable {debug : TransferError → String} {w : TransferSystem Digest} {k : Digest}

/-- A joint state that some finite sequence of events reaches from empty ledgers. -/
def Reachable (debug : TransferError → String) (w : TransferSystem Digest) : Prop :=
  ∃ self owner engine ledgerOwner es, w = run (step debug) (new self owner engine ledgerOwner) es

/-- The ledger `p` has a record of the executor under the fingerprint `h` of a transfer that
carries the request `k` as its memo. -/
def RecordOf (w : TransferSystem Digest) (k : Digest) (p : Principal) (h : Digest) : Prop :=
  (∃ v, (w.ledgers p).records[(w.self, h)]? = some v) ∧
    ∃ f : FrozenTransfer Digest, f.memo = k ∧ f.proposal.ledger = p ∧ f.digest = h

theorem exact_of_reachable (hcf : CollisionFree Digest) (h : w.Reachable debug) : w.Exact := by
  obtain ⟨self, owner, engine, ledgerOwner, es, rfl⟩ := h
  exact exact_run hcf (exact_new self owner engine ledgerOwner) es

/-- A record was committed by a message with the frozen transfer of its request. -/
theorem Exact.committed (h : w.Exact) {p : Principal} {fp : Digest} {v : Lookup Digest}
    (hv : (w.ledgers p).records[(w.self, fp)]? = some v) :
    ∃ m ∈ w.transfers, ∃ r f, w.executor.requests[m.cmd.request]? = some r ∧ r.frozen = some f ∧
      f.memo = m.cmd.request ∧ p = f.proposal.ledger ∧ fp = f.digest ∧ Committed m.executed := by
  obtain ⟨m, hm, rfl, rfl, hc⟩ := h.recorded p fp v hv
  obtain ⟨_, r, hr, hf, _⟩ := h.sent m hm
  exact ⟨m, hm, r, _, hr, hf, (h.transfer_ok hm).1, rfl, rfl, hc⟩

/-- A record of a request is the one of its frozen transfer. -/
theorem Exact.recordOf (hcf : CollisionFree Digest) (h : w.Exact) {p : Principal} {fp : Digest}
    (hr : w.RecordOf k p fp) : ∃ r f, w.executor.requests[k]? = some r ∧ r.frozen = some f ∧
      p = f.proposal.ledger ∧ fp = f.digest ∧
      ∃ m ∈ w.transfers, m.cmd.request = k ∧ Committed m.executed := by
  obtain ⟨⟨v, hv⟩, f, hk, _, hfp⟩ := hr
  obtain ⟨m, hm, r, f', hreq, hf, hmemo, hp, hfp', hc⟩ := h.committed hv
  cases FrozenTransfer.digest_inj hcf (hfp.trans hfp')
  cases hmemo.symm.trans hk
  exact ⟨r, f, hreq, hf, hp, hfp', m, hm, rfl, hc⟩

theorem Exact.recordOf_unique (hcf : CollisionFree Digest) (h : w.Exact) {p p' : Principal}
    {fp fp' : Digest} (hr : w.RecordOf k p fp) (hr' : w.RecordOf k p' fp') :
    p = p' ∧ fp = fp' := by
  obtain ⟨r, f, hreq, hf, hp, hfp, _⟩ := h.recordOf hcf hr
  obtain ⟨r', f', hreq', hf', hp', hfp', _⟩ := h.recordOf hcf hr'
  cases hreq.symm.trans hreq'
  cases hf.symm.trans hf'
  exact ⟨hp.trans hp'.symm, hfp.trans hfp'.symm⟩

/-- A failed request left no record. -/
theorem Exact.no_record_of_failed (hcf : CollisionFree Digest) (h : w.Exact)
    {r : RequestRecord Digest} (hr : w.executor.requests[k]? = some r)
    (hst : r.status.isFailedDefinitive = true) {p : Principal} {fp : Digest} :
    ¬w.RecordOf k p fp := by
  intro hrec
  obtain ⟨_, _, _, _, _, _, m, hm, hk, hc⟩ := h.recordOf hcf hrec
  obtain ⟨e, he⟩ := h.failed k r hr hst m hm hk
  exact hc.not_refused he

/-- Two requests for one operation do not both have a record: one of them has failed. -/
theorem Exact.record_per_operation (hcf : CollisionFree Digest) (h : w.Exact) {k' : Digest}
    {r r' : RequestRecord Digest} (hr : w.executor.requests[k]? = some r)
    (hr' : w.executor.requests[k']? = some r') (hop : r.operation = r'.operation)
    {p p' : Principal} {fp fp' : Digest} (hrec : w.RecordOf k p fp)
    (hrec' : w.RecordOf k' p' fp') : k = k' := by
  -- the request of a record holds its operation or has consumed it
  have hold : ∀ {q : Digest} {x : RequestRecord Digest} {l : Principal} {d : Digest},
      w.executor.requests[q]? = some x → w.RecordOf q l d →
      ∃ o, w.executor.operations[x.operation]? = some o ∧
        (o.status = .reserved q ∨ o.status = .consumed q) := by
    intro q x l d hx hrec
    obtain ⟨x₁, f, hx₁, hf, _⟩ := h.recordOf hcf hrec
    cases hx.symm.trans hx₁
    obtain ⟨o, g, ho, _, _⟩ := h.executor.lifecycle.record q x hx
    refine ⟨o, ho, ?_⟩
    by_contra hno
    rw [not_or] at hno
    obtain ⟨why, hst⟩ := ExecutorState.failed_of_sent h.executor ⟨x, hx, hf, UInt8.zero_le⟩ hx ho
      hno.1 hno.2
    exact h.no_record_of_failed hcf hx (by rw [hst]; rfl) hrec
  obtain ⟨o, ho, hst⟩ := hold hr hrec
  obtain ⟨o', ho', hst'⟩ := hold hr' hrec'
  rw [hop] at ho
  cases ho.symm.trans ho'
  rcases hst with hst | hst <;> rcases hst' with hst' | hst' <;> rw [hst] at hst' <;>
    cases hst' <;> rfl

/-- In every reachable joint state: a request has at most one record, and every record of the
executor is a request's; a request that succeeded has exactly the record of its frozen transfer;
one that failed for good has none, and nothing that was sent for it is still to be executed; and
an operation has at most one record over all its requests. -/
theorem exactly_once_transfer (hcf : CollisionFree Digest) (h : w.Reachable debug) :
    (∀ k p fp p' fp', w.RecordOf k p fp → w.RecordOf k p' fp' → p = p' ∧ fp = fp') ∧
    (∀ p fp v, (w.ledgers p).records[(w.self, fp)]? = some v →
      ∃ k r, w.executor.requests[k]? = some r ∧ w.RecordOf k p fp) ∧
    (∀ (k : Digest) r, w.executor.requests[k]? = some r → r.status.isSucceeded = true →
      ∃ f v, r.frozen = some f ∧
        (w.ledgers f.proposal.ledger).records[(w.self, f.digest)]? = some v ∧
        v.frozenHash = f.digest ∧
        ∀ p fp, w.RecordOf k p fp ↔ p = f.proposal.ledger ∧ fp = f.digest) ∧
    (∀ (k : Digest) r, w.executor.requests[k]? = some r → r.status.isFailedDefinitive = true →
      (∀ p fp, ¬w.RecordOf k p fp) ∧
        ∀ m ∈ w.transfers, m.cmd.request = k → m.executed ≠ none) ∧
    ∀ (k k' : Digest) r r', w.executor.requests[k]? = some r → w.executor.requests[k']? = some r' →
      r.operation = r'.operation → ∀ p p' fp fp', w.RecordOf k p fp → w.RecordOf k' p' fp' →
      k = k' ∧ p = p' ∧ fp = fp' := by
  have hw := exact_of_reachable hcf h
  refine ⟨fun k p fp p' fp' => hw.recordOf_unique hcf, fun p fp v hv => ?_, fun k r hr hst => ?_,
    fun k r hr hst => ⟨fun p fp => hw.no_record_of_failed hcf hr hst, fun m hm hk => ?_⟩, ?_⟩
  · obtain ⟨m, _, r, f, hr, _, hmemo, hp, hfp, _⟩ := hw.committed hv
    exact ⟨m.cmd.request, r, hr, ⟨v, hv⟩, f, hmemo, hp.symm, hfp.symm⟩
  · obtain ⟨o, g, _, _, hok⟩ := hw.executor.lifecycle.record k r hr
    obtain ⟨now, hf⟩ := (hok.succeeded hst).frozen
    obtain ⟨v, hv⟩ := hw.succeeded k r _ hr hst hf
    have hrec : w.RecordOf k o.proposal.ledger _ :=
      ⟨⟨v, hv⟩, _, (hw.executor.frozen_ok hr hf).1, rfl, rfl⟩
    refine ⟨_, v, hf, hv, (hw.indexed _ _ v hv).1, fun p fp => ⟨fun h => ?_, ?_⟩⟩
    · exact hw.recordOf_unique hcf h hrec
    · rintro ⟨rfl, rfl⟩
      exact hrec
  · obtain ⟨e, he⟩ := hw.failed k r hr hst m hm hk
    rw [he]
    exact Option.some_ne_none _
  · intro k k' r r' hr hr' hop p p' fp fp' hrec hrec'
    obtain rfl := hw.record_per_operation hcf hr hr' hop hrec hrec'
    exact ⟨rfl, hw.recordOf_unique hcf hrec hrec'⟩

end TransferSystem

namespace Sample

def transfers : TransferSystem SymbolicDigest :=
  .new self owner engine fun _ => owner

def sent : List (TransferEvent SymbolicDigest) :=
  judged.map .call ++ [.dispatch delegate request 8000]

/-- The reply to the first attempt is lost after the commit; the second one finds a duplicate. -/
def sentTwice : List (TransferEvent SymbolicDigest) :=
  sent ++ [.setFault ledger owner .commitThenCallbackTrap, .execute 0 8500, .deliver 0 .failed,
    .retryMockTransfer delegate request 9000, .execute 1 9500, .deliver 1 .reply]

end Sample

theorem TransferSystem.exactly_once_transfer_sentTwice :
    ∃ v, ((run (step fun _ => "") Sample.transfers Sample.sentTwice).ledgers
      Sample.ledger).records[(Sample.self, Sample.frozen.digest)]? = some v ∧
      v.frozenHash = Sample.frozen.digest := by
  obtain ⟨r, hr, hst, hf⟩ : ∃ r, (run (step fun _ => "") Sample.transfers
      Sample.sentTwice).executor.requests[Sample.request]? = some r ∧
      r.status.isSucceeded = true ∧ r.frozen = some Sample.frozen := by
    have h : ((run (step fun _ => "") Sample.transfers
        Sample.sentTwice).executor.requests[Sample.request]?).map
        (fun r => (r.status.isSucceeded, r.frozen)) = some (true, some Sample.frozen) := by
      decide +kernel
    obtain ⟨r, hr, he⟩ := Option.map_eq_some_iff.mp h
    exact ⟨r, hr, congrArg Prod.fst he, congrArg Prod.snd he⟩
  have hreach : Reachable (fun _ => "") (run (step fun _ => "") Sample.transfers Sample.sentTwice) :=
    ⟨Sample.self, Sample.owner, Sample.engine, fun _ => Sample.owner, Sample.sentTwice, rfl⟩
  obtain ⟨f, v, hf', hv, hh, _⟩ := (exactly_once_transfer SymbolicDigest.collisionFree
    hreach).2.2.1 Sample.request r hr hst
  cases hf.symm.trans hf'
  have hself : (run (step fun _ => "") Sample.transfers Sample.sentTwice).self = Sample.self := by
    decide +kernel
  have hl : Sample.frozen.proposal.ledger = Sample.ledger := rfl
  rw [hself, hl] at hv
  exact ⟨v, hv, hh⟩

end IcLaya
