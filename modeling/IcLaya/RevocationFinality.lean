import IcLaya.DispatchAuthorization
import IcLaya.RequestLifecycle

/-!
# Revocation and revision are final

A revoked grant stays revoked and a revision counter only grows, so the gate every dispatch and
every retry passes is shut for good on the requests that were submitted before. Settling what was
dispatched does not pass that gate.
-/
namespace IcLaya
open CheckedWords Fallible OrderedMaps TransitionSystems

variable {Digest : Type} [Hashing Digest]

namespace ExecutorState

/-- The grant is registered and revoked. -/
def Revoked (s : ExecutorState Digest) (k : Digest) : Prop :=
  ∃ g, s.grants[k]? = some g ∧ g.revoked = true

/-- The operation has a later revision than `rev`. -/
def RevisedPast (s : ExecutorState Digest) (k : Digest) (rev : UInt64) : Prop :=
  ∃ o, s.operations[k]? = some o ∧ rev < o.revision

section Steps
variable {s s' : ExecutorState Digest} {k : Digest} {r : RequestRecord Digest} {op : Op Digest}

/-- No call takes a revocation back. -/
theorem Change.revoked (h : Change s op s') :
    Grows (fun g g' => g.revoked = true → g'.revoked = true) s.grants s'.grants := by
  have hsame : Grows (fun g g' : Grant Digest => g.revoked = true → g'.revoked = true)
      s.grants s.grants := .refl (fun _ => id) _
  cases h with
  | grant g _ _ _ hn => exact .new (fun _ => id) hn g
  | revoke g k rev hg => exact .replace (fun _ => id) hg fun _ => rfl
  | dispatch a b now r o g g' c _ _ _ _ _ _ _ hg _ hv =>
    refine .replace (fun _ => id) hg fun h => ?_
    obtain ⟨_, _, _, _, _, _, _, rfl⟩ := Grant.reserve_eq_ok.mp hv
    exact h
  | settle cmd outcome r v o g g' success text _ _ _ _ _ _ _ _ _ hg hse =>
    refine .replace (fun _ => id) hg fun h => ?_
    obtain ⟨_, _, _, _, _, _, _, _, _, _, rfl⟩ := Grant.settle_eq_ok.mp hse
    exact h
  | _ => exact hsame

theorem Revoked.run (hcf : CollisionFree Digest) (hv : s.Valid) (h : s.Revoked k)
    (ops : List (Op Digest)) : (run step s ops).Revoked k := by
  refine run_stable Valid (Revoked · k) (fun _ op h => valid_step hcf h op) ?_ hv h ops
  rintro t op ht ⟨g, hg, hrev⟩
  obtain ⟨g', hg', hstay⟩ := (change_of_step hcf ht.coherent op).revoked k g hg
  exact ⟨g', hg', hstay hrev⟩

theorem RevisedPast.run (hcf : CollisionFree Digest) (hv : s.Valid) {rev : UInt64}
    (h : s.RevisedPast k rev) (ops : List (Op Digest)) : (run step s ops).RevisedPast k rev := by
  refine run_stable Valid (RevisedPast · k rev) (fun _ op h => valid_step hcf h op) ?_ hv h ops
  rintro t op ht ⟨o, ho, hlt⟩
  obtain ⟨o', ho', hle, _⟩ := (change_of_step hcf ht.coherent op).revised.1 k o ho
  exact ⟨o', ho', UInt64.lt_of_lt_of_le hlt hle⟩

/-- A stored record stays under its id with the terms of its submission. -/
theorem Valid.ticket_run (hcf : CollisionFree Digest) (hv : s.Valid)
    (hr : s.requests[k]? = some r) (ops : List (Op Digest)) :
    ∃ r', (run step s ops).requests[k]? = some r' ∧ SameTicket r r' := by
  refine run_stable Valid (fun t => ∃ r', t.requests[k]? = some r' ∧ SameTicket r r')
    (fun _ op h => valid_step hcf h op) ?_ hv ⟨r, hr, .refl r⟩ ops
  rintro t op ht ⟨r₁, hr₁, hsame⟩
  obtain ⟨r₂, hr₂, hsame₂⟩ := (change_of_step hcf ht.coherent op).extends.requests k r₁ hr₁
  refine ⟨r₂, hr₂, ?_⟩
  rw [SameTicket] at hsame hsame₂ ⊢
  rw [hsame₂, hsame]

end Steps

section Gate
variable {s s' : ExecutorState Digest} {k : Digest} {r : RequestRecord Digest}

/-- The request does not pass `current` at any time. -/
def Shut (s : ExecutorState Digest) (r : RequestRecord Digest) : Prop :=
  ∀ now, s.current r now ≠ .ok ()

theorem Revoked.shut (h : s.Revoked r.grant) : s.Shut r := by
  intro now hc
  obtain ⟨g, hg, hrev⟩ := h
  obtain ⟨_, _, o, g', p, _, hg', _, he, _⟩ := current_eq_ok.mp hc
  cases hg.symm.trans hg'
  rw [(Grant.eligible_eq_ok.mp he).1.2.1] at hrev
  cases hrev

theorem RevisedPast.shut (h : s.RevisedPast r.operation r.operationRevision) : s.Shut r := by
  intro now hc
  obtain ⟨o, ho, hlt⟩ := h
  obtain ⟨_, _, o', g, p, ho', _, _, _, hrev, _⟩ := current_eq_ok.mp hc
  cases ho.symm.trans ho'
  rw [hrev] at hlt
  exact UInt64.lt_irrefl _ hlt

theorem Shut.prepareDispatch (h : s.Shut r) (hc : s.Coherent) (hr : s.requests[k]? = some r)
    {a : AuthorizedTransfer Digest} (ha : a.request = k) (now : UInt64) :
    ∃ e, s.prepareDispatch a now = .error e := by
  cases hp : s.prepareDispatch a now with
  | error e => exact ⟨e, rfl⟩
  | ok res =>
    obtain ⟨r₁, hr₁, ⟨b, hb⟩, _⟩ := prepareDispatch_eq_ok.mp hp
    obtain rfl : r = r₁ := Option.some.inj (hr.symm.trans (ha ▸ hr₁))
    obtain ⟨r₂, _, _, hr₂, _, hcur, _⟩ := authorize_eq_ok.mp hb
    rw [(hc.request k r hr).id_eq, hr] at hr₂
    cases hr₂
    exact absurd hcur (h now)

theorem Shut.retryUnknown (h : s.Shut r) (hr : s.requests[k]? = some r) (caller : Principal)
    (now : UInt64) : ∃ e, s.retryUnknown caller k now = .error e := by
  cases hp : s.retryUnknown caller k now with
  | error e => exact ⟨e, rfl⟩
  | ok res =>
    obtain ⟨r₁, f, hr₁, hcur, _⟩ := retryUnknown_eq_ok hp
    obtain rfl : r = r₁ := Option.some.inj (hr.symm.trans hr₁)
    exact absurd hcur (h now)

/-- What the settlement of a request by a reported block leaves in the state. -/
def SettledBy (s : ExecutorState Digest) (k : Digest) (text : String) : Prop :=
  ∃ r o, s.requests[k]? = some r ∧ r.status = .succeeded text ∧ r.reservation = none ∧
    s.operations[r.operation]? = some o ∧ o.status = .consumed k

theorem Valid.settledBy (h : s.Valid) {cmd : DispatchCommand Digest} {outcome : LedgerOutcome}
    {text : String} (hr : s.requests[cmd.request]? = some r) (hout : r.status.outstanding = true)
    (hf : r.frozen = some cmd.transfer) (h0 : cmd.attempt ≠ 0)
    (hle : cmd.attempt ≤ r.ledgerAttempt)
    (ho : outcome = .success text ∨ outcome = .duplicate text)
    (hblock : validBlockIndex text = true) :
    ∃ s', s.finishLedger cmd outcome = .ok (s', .succeeded text) ∧ s'.SettledBy cmd.request text := by
  obtain ⟨s', hs⟩ := h.finishLedger_success hr hout hf h0 hle ho hblock
  refine ⟨s', hs, ?_⟩
  have hid := (h.coherent.request _ r hr).id_eq
  have hset : settlement r cmd.attempt outcome = some (true, text) := by
    rcases ho with rfl | rfl <;> rfl
  obtain ⟨r₁, hr₁, _, _, _, ⟨hsucc, _⟩ | ⟨_, _, ha⟩⟩ := finishLedger_eq_ok.mp hs
  · cases hr.symm.trans hr₁
    cases hst : r.status <;> simp_all [Status.outstanding, Status.isSucceeded]
  · cases hr.symm.trans hr₁
    obtain ⟨success, text', hset', _, hrec⟩ | ⟨hset', _⟩ := applyOutcome_eq_ok.mp ha
    · cases hset.symm.trans hset'
      obtain ⟨v, g, o, g', _, _, ho', _, _, _, rfl⟩ := settleRecord_eq_ok.mp hrec
      have hoid := (h.coherent.operation _ o ho').1
      refine ⟨settled r true text, { o with status := .consumed r.id }, ?_, rfl, rfl, ?_, ?_⟩
      · rw [hid, get_insert_self]
      · rw [hoid]
        exact get_insert_self ..
      · rw [hid]
    · cases hset.symm.trans hset'

end Gate

section Finality
variable {s s' : ExecutorState Digest} {k : Digest} {r : RequestRecord Digest}

theorem Valid.revoked (h : s.Valid) (hcf : CollisionFree Digest) {caller : Principal} {g : Digest}
    (hs : s.revoke caller g = .ok s') : s'.Valid ∧ s'.Revoked g := by
  constructor
  · have hstep := valid_step hcf h (.revoke caller g)
    rwa [step, hs] at hstep
  · obtain ⟨v, rev, _, _, rfl⟩ := revoke_eq_ok hs
    exact ⟨{ v with revoked := true, revision := rev }, get_insert_self .., rfl⟩

/-- A revision leaves every request on the operation behind. -/
theorem Evidenced.revised (h : s.Evidenced) (hv : s.Valid) (hcf : CollisionFree Digest)
    {caller : Principal} {evidence : String}
    (hs : s.reviseOperation caller r.operation evidence = .ok s') (hr : s.requests[k]? = some r) :
    s'.Valid ∧ s'.requests[k]? = some r ∧ s'.RevisedPast r.operation r.operationRevision := by
  obtain ⟨o, _, _, ho, _, _, _, hfresh⟩ := h k r hr
  have hstep := valid_step hcf hv (.reviseOperation caller r.operation evidence)
  rw [step, hs] at hstep
  obtain ⟨o', rev, ho', _, _, hrev, rfl⟩ := reviseOperation_eq_ok hs
  cases ho.symm.trans ho'
  refine ⟨hstep, hr, { o with evidence := evidence, revision := rev }, get_insert_self .., ?_⟩
  have hle := UInt64.le_iff_toNat_le.mp hfresh.operation
  rw [UInt64.lt_iff_toNat_lt]
  show r.operationRevision.toNat < rev.toNat
  omega

/-- Whatever calls follow, no request under a revoked grant is dispatched or retried, though a
success still settles it; and no request that was submitted before a revision is dispatched. -/
theorem revocation_and_revision_final (hcf : CollisionFree Digest) (self owner engine : Principal)
    (pre post : List (Op Digest)) :
    (∀ caller g s', (run step (new self owner engine) pre).revoke caller g = .ok s' →
      ∀ (k : Digest) r, (run step s' post).requests[k]? = some r → r.grant = g →
        (∀ a now, a.request = k → ∃ e, (run step s' post).prepareDispatch a now = .error e) ∧
        (∀ caller' now, ∃ e, (run step s' post).retryUnknown caller' k now = .error e) ∧
        (r.status.outstanding = true → ∀ cmd outcome text, cmd.request = k →
          r.frozen = some cmd.transfer → cmd.attempt ≠ 0 → cmd.attempt ≤ r.ledgerAttempt →
          (outcome = .success text ∨ outcome = .duplicate text) → validBlockIndex text = true →
          ∃ t, (run step s' post).finishLedger cmd outcome = .ok (t, .succeeded text) ∧
            t.SettledBy k text)) ∧
    (∀ caller o evidence s',
      (run step (new self owner engine) pre).reviseOperation caller o evidence = .ok s' →
      ∀ (k : Digest) r, (run step (new self owner engine) pre).requests[k]? = some r →
        r.operation = o →
        (∃ r', (run step s' post).requests[k]? = some r' ∧ SameTicket r r') ∧
        ∀ a now, a.request = k → ∃ e, (run step s' post).prepareDispatch a now = .error e) := by
  have hv := valid_run hcf (valid_new self owner engine) pre
  constructor
  · rintro caller g s' hs k r hr rfl
    obtain ⟨hv', hrevoked⟩ := hv.revoked hcf hs
    have hv'' := valid_run hcf hv' post
    have hshut := (hrevoked.run hcf hv' post).shut
    refine ⟨fun a now ha => hshut.prepareDispatch hv''.coherent hr ha now,
      fun caller' now => hshut.retryUnknown hr caller' now, ?_⟩
    rintro hout cmd outcome text rfl hf h0 hle ho hblock
    exact hv''.settledBy hr hout hf h0 hle ho hblock
  · rintro caller o evidence s' hs k r hr rfl
    obtain ⟨hv', hr', hpast⟩ := (evidenced_run hcf self owner engine pre).revised hv hcf hs hr
    obtain ⟨r', hr'', hsame⟩ := hv'.ticket_run hcf hr' post
    have hpast' := hpast.run hcf hv' post
    have hshut : (run step s' post).Shut r' := by
      rw [SameTicket] at hsame
      refine RevisedPast.shut ?_
      rw [hsame]
      exact hpast'
    exact ⟨⟨r', hr'', hsame⟩, fun a now ha =>
      hshut.prepareDispatch (valid_run hcf hv' post).coherent hr'' ha now⟩

/-- The grant of the sent invoice is revoked; the evidence of the judged one is replaced and then
put back. -/
theorem revocation_and_revision_final_sample :
    (∃ s', (run step Sample.start Sample.unknown).revoke Sample.owner Sample.grant.id = .ok s' ∧
      (∃ e, (run step s' [.setPaused Sample.owner false]).retryUnknown Sample.delegate
        Sample.request 9000 = .error e) ∧
      ∃ t, (run step s' [.setPaused Sample.owner false]).finishLedger
        ⟨Sample.request, 1, Sample.frozen⟩ (.success "0") = .ok (t, .succeeded "0") ∧
          t.SettledBy Sample.request "0") ∧
    ∃ s', (run step Sample.start Sample.judged).reviseOperation Sample.owner Sample.operation.id
        "not approved" = .ok s' ∧
      ∃ e, (run step s' [.reviseOperation Sample.owner Sample.operation.id
        Sample.operation.evidence]).prepareDispatch Sample.token 8000 = .error e := by
  constructor
  · obtain ⟨s', hs⟩ : ∃ s', (run step Sample.start Sample.unknown).revoke Sample.owner
        Sample.grant.id = .ok s' := exists_eq_ok (by decide +kernel)
    have hrun : run step s' [.setPaused Sample.owner false] = run step Sample.start
        (Sample.unknown ++ [.revoke Sample.owner Sample.grant.id, .setPaused Sample.owner false]) := by
      have hstep : (run step Sample.start Sample.unknown).step
          (.revoke Sample.owner Sample.grant.id) = s' := by rw [step, hs]; rfl
      rw [run_append, run_cons step (run step Sample.start Sample.unknown), hstep]
    have hmap : ((run step Sample.start (Sample.unknown ++ [.revoke Sample.owner Sample.grant.id,
        .setPaused Sample.owner false])).requests[Sample.request]?).map
        (fun r => (r.grant, r.status.outstanding, r.frozen, r.ledgerAttempt)) =
        some (Sample.grant.id, true, some Sample.frozen, 1) := by decide +kernel
    obtain ⟨r, hr, he⟩ := Option.map_eq_some_iff.mp hmap
    simp only [Prod.mk.injEq] at he
    obtain ⟨hg, hout, hf, ha⟩ := he
    rw [← hrun] at hr
    obtain ⟨_, hretry, hsettle⟩ := (revocation_and_revision_final SymbolicDigest.collisionFree
      Sample.self Sample.owner Sample.engine Sample.unknown [.setPaused Sample.owner false]).1
      Sample.owner Sample.grant.id s' hs Sample.request r hr hg
    exact ⟨s', hs, hretry Sample.delegate 9000, hsettle hout ⟨Sample.request, 1, Sample.frozen⟩
      (.success "0") "0" rfl hf (by decide) (by rw [ha]; decide) (.inl rfl) (by decide)⟩
  · obtain ⟨s', hs⟩ : ∃ s', (run step Sample.start Sample.judged).reviseOperation Sample.owner
        Sample.operation.id "not approved" = .ok s' := exists_eq_ok (by decide +kernel)
    have hmap : ((run step Sample.start Sample.judged).requests[Sample.request]?).map
        RequestRecord.operation = some Sample.operation.id := by decide +kernel
    obtain ⟨r, hr, ho⟩ := Option.map_eq_some_iff.mp hmap
    exact ⟨s', hs, ((revocation_and_revision_final SymbolicDigest.collisionFree
      Sample.self Sample.owner Sample.engine Sample.judged [.reviseOperation Sample.owner
        Sample.operation.id Sample.operation.evidence]).2
      Sample.owner Sample.operation.id "not approved" s' hs Sample.request r hr ho).2
      Sample.token 8000 rfl⟩

end Finality

end ExecutorState

end IcLaya
