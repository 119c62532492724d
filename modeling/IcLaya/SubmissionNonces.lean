import IcLaya.RevocationFinality

/-!
# Submissions and their nonces

The nonces below a caller's next one are exactly those of its records. A submission that names
one of them finds its record and leaves the state alone, so a call that is repeated creates
nothing more.
-/
namespace IcLaya
open CheckedWords Fallible OrderedMaps TransitionSystems

variable {Digest : Type} [Hashing Digest]

namespace ExecutorState

/-- The nonce the next submission of a caller must have. -/
def next (s : ExecutorState Digest) (caller : Principal) : UInt64 := s.nextNonce[caller]?.getD 0

/-- The record of a caller's submission with a nonce. -/
def RecordFor (s : ExecutorState Digest) (caller : Principal) (nonce : UInt64)
    (r : RequestRecord Digest) : Prop :=
  s.requests[s.requestId caller nonce]? = some r ∧ r.caller = caller ∧ r.nonce = nonce

/-- Every nonce below the next one has its record. -/
def Numbered (s : ExecutorState Digest) : Prop :=
  ∀ caller n, n < s.next caller → ∃ r, s.RecordFor caller n r

/-- The call adds a record. -/
def Creates (s : ExecutorState Digest) (op : Op Digest) : Prop :=
  ∃ (k : Digest) (r : RequestRecord Digest),
    s.requests[k]? = none ∧ (s.step op).requests[k]? = some r

section Steps
variable {s s' : ExecutorState Digest} {k : Digest} {r : RequestRecord Digest} {op : Op Digest}
  {caller : Principal} {nonce now : UInt64} {operation grant : Digest}

theorem submit_paused (h : s.paused = true) :
    s.submit caller nonce operation grant now = .error (.denied "paused") := by
  rw [submit, h]
  rfl

theorem submit_anonymous : ∃ e, s.submit .anonymous nonce operation grant now = .error e := by
  cases hs : s.submit .anonymous nonce operation grant now with
  | error e => exact ⟨e, rfl⟩
  | ok a =>
    simp only [submit, bind_eq_ok, rejectIf_eq_ok] at hs
    obtain ⟨_, _, _, h, _⟩ := hs
    exact absurd trivial h

/-- The record a coherent state stores for a caller and a nonce. -/
theorem Coherent.recordFor (h : s.Coherent) (hr : s.requests[k]? = some r) :
    k = s.requestId r.caller r.nonce ∧ s.RecordFor r.caller r.nonce r ∧ r.nonce < s.next r.caller := by
  have hc := h.request k r hr
  have hk : k = s.requestId r.caller r.nonce := hc.id_eq.symm.trans hc.derived
  exact ⟨hk, ⟨hk ▸ hr, rfl, rfl⟩, hc.numbered⟩

theorem RecordFor.extend (h : s.RecordFor caller nonce r) (he : Extends s s') :
    ∃ r', s'.RecordFor caller nonce r' := by
  obtain ⟨hr, hc, hn⟩ := h
  obtain ⟨r', hr', ht⟩ := he.requests _ r hr
  have hid : s'.requestId caller nonce = s.requestId caller nonce := by
    rw [requestId, requestId, he.instancePrincipal]
  exact ⟨r', hid ▸ hr', by rw [ht]; exact hc, by rw [ht]; exact hn⟩

/-- Only a submission moves a caller's next nonce, by one. -/
theorem Change.next (h : Change s op s') (caller : Principal) :
    s'.next caller = s.next caller ∨
      (s'.next caller).toNat = (s.next caller).toNat + 1 ∧
        (∃ r, s'.RecordFor caller (s.next caller) r) ∧
        ∃ nonce operation grant now, op = .submit caller nonce operation grant now := by
  cases h with
  | submit c nonce operation grant now o g p expires next hnonce hnext =>
    by_cases hc : caller = c
    · subst hc
      refine .inr ⟨?_, ⟨s.newRecord caller nonce operation grant o g p expires, ?_, rfl, hnonce⟩,
        nonce, operation, grant, now, rfl⟩
      · show ((s.nextNonce.insert caller next)[caller]?.getD 0).toNat = _
        rw [get_insert_self, Option.getD_some, hnext, hnonce]
        rfl
      · show (s.requests.insert _ _)[s.requestId caller (s.next caller)]? = _
        rw [ExecutorState.next, ← hnonce, get_insert_self]
    · left
      show (s.nextNonce.insert c next)[caller]?.getD 0 = s.nextNonce[caller]?.getD 0
      rw [get_insert_ne _ hc]
  | _ => exact .inl rfl

theorem Numbered.change (h : s.Numbered) (hs : Change s op s') : s'.Numbered := by
  intro caller n hn
  have hold : n < s.next caller → ∃ r, s'.RecordFor caller n r := fun hlt => by
    obtain ⟨r, hr⟩ := h caller n hlt
    exact hr.extend hs.extends
  obtain he | ⟨he, hr, _⟩ := hs.next caller
  · exact hold (he ▸ hn)
  · rw [UInt64.lt_iff_toNat_lt, he] at hn
    by_cases hlt : n < s.next caller
    · exact hold hlt
    · have heq : n = s.next caller := by
        apply UInt64.toNat_inj.mp
        rw [UInt64.lt_iff_toNat_lt] at hlt
        omega
      exact heq ▸ hr

theorem numbered_run (hcf : CollisionFree Digest) (self owner engine : Principal)
    (ops : List (Op Digest)) : (run step (new self owner engine) ops).Numbered := by
  refine run_stable Valid Numbered (fun _ op h => valid_step hcf h op) ?_
    (valid_new self owner engine) ?_ ops
  · intro s op hv h
    exact h.change (change_of_step hcf hv.coherent op)
  · intro caller n hn
    simp [next, new] at hn

theorem next_anonymous_run (hcf : CollisionFree Digest) (self owner engine : Principal)
    (ops : List (Op Digest)) : (run step (new self owner engine) ops).next .anonymous = 0 := by
  refine run_stable Valid (fun s => s.next .anonymous = 0) (fun _ op h => valid_step hcf h op) ?_
    (valid_new self owner engine) (by simp [next, new]) ops
  intro s op hv h
  obtain he | ⟨_, _, nonce, operation, grant, now, rfl⟩ :=
    (change_of_step hcf hv.coherent op).next .anonymous
  · rw [he, h]
  · obtain ⟨e, he⟩ : ∃ e, s.submit .anonymous nonce operation grant now = .error e :=
      submit_anonymous
    rw [step, he]
    exact h

/-- A submission with a nonce that was used is answered from its record. -/
theorem RecordFor.submit (h : s.RecordFor caller nonce r) (hp : s.paused = false)
    (hc : caller ≠ .anonymous) (hn : nonce < s.next caller) :
    s.submit caller nonce operation grant now =
      if r.operation = operation ∧ r.grant = grant then .ok (s, s.requestId caller nonce)
      else .error .idConflict := by
  rw [ExecutorState.submit, hp, rejectIf_bind (by simp), rejectIf_bind hc]
  dsimp only
  rw [ExecutorState.next] at hn
  rw [if_pos hn, h.1]
  rfl

theorem submit_gap (h : s.next caller < nonce) :
    ∃ e, s.submit caller nonce operation grant now = .error e := by
  cases hs : s.submit caller nonce operation grant now with
  | error e => exact ⟨e, rfl⟩
  | ok a =>
    simp only [ExecutorState.submit, bind_eq_ok, rejectIf_eq_ok] at hs
    obtain ⟨_, _, _, _, hs⟩ := hs
    rw [ExecutorState.next] at h
    rw [if_neg (UInt64.lt_asymm h)] at hs
    simp only [bind_eq_ok, rejectIf_eq_ok] at hs
    obtain ⟨_, hle, _⟩ := hs
    exact absurd h hle

omit [Hashing Digest] in
theorem TransferProposal.validate_ne_nonceConsumed (p : TransferProposal) :
    p.validate ≠ .error .nonceConsumed := by
  refine bind_ne_error (rejectIf_ne_error (by decide)) fun _ => ?_
  refine bind_ne_error (rejectIf_ne_error (by decide)) fun _ => ?_
  exact bind_ne_error (okOr_ne_error (by decide)) fun _ => by simp [pure, Except.pure]

omit [Hashing Digest] in
theorem Grant.eligible_ne_nonceConsumed (g : Grant Digest) (p : TransferProposal) :
    g.eligible caller p now ≠ .error .nonceConsumed := by
  refine bind_ne_error (rejectIf_ne_error (by decide)) fun _ => ?_
  refine bind_ne_error (rejectIf_ne_error (by decide)) fun _ => ?_
  exact TransferProposal.validate_ne_nonceConsumed p

/-- A failed submission has another reason than a used nonce without a record. -/
theorem Numbered.submit_ne_nonceConsumed (h : s.Numbered) :
    s.submit caller nonce operation grant now ≠ .error .nonceConsumed := by
  refine bind_ne_error (rejectIf_ne_error (by decide)) fun _ => ?_
  refine bind_ne_error (rejectIf_ne_error (by decide)) fun _ => ?_
  dsimp only
  split
  · next hlt =>
    obtain ⟨r, hr, _⟩ := h caller nonce hlt
    rw [hr]
    dsimp only
    split
    · simp [pure, Except.pure]
    · simp [throw, throwThe, MonadExceptOf.throw]
  · refine bind_ne_error (rejectIf_ne_error (by decide)) fun _ => ?_
    refine bind_ne_error (rejectIf_ne_error (by decide)) fun _ => ?_
    refine bind_ne_error (okOr_ne_error (by decide)) fun g => ?_
    refine bind_ne_error (okOr_ne_error (by decide)) fun o => ?_
    refine bind_ne_error (Grant.eligible_ne_nonceConsumed g o.proposal) fun _ => ?_
    refine bind_ne_error (rejectIf_ne_error (by decide)) fun _ => ?_
    refine bind_ne_error (okOr_ne_error (by decide)) fun p => ?_
    refine bind_ne_error (okOr_ne_error (by decide)) fun _ => ?_
    exact bind_ne_error (okOr_ne_error (by decide)) fun _ => by simp [pure, Except.pure]

/-- A submission whose record exists changes nothing. -/
theorem Coherent.step_submit (h : s.Coherent) (hr : s.requests[k]? = some r)
    (hc : r.caller = caller) (hn : r.nonce = nonce) :
    s.step (.submit caller nonce operation grant now) = s := by
  subst hc hn
  rw [step]
  cases hs : s.submit r.caller r.nonce operation grant now with
  | error e => rfl
  | ok a =>
    obtain ⟨_, ⟨he, _⟩ | ⟨_, _, _, _, _, hn, _⟩⟩ := submit_eq_ok hs
    · exact he
    · have hlt := (h.recordFor hr).2.2
      rw [next, ← hn] at hlt
      exact absurd hlt (UInt64.lt_irrefl _)

/-- A submission that creates a record creates that of its caller and nonce. -/
theorem Valid.created (h : s.Valid) (hcf : CollisionFree Digest)
    (hc : s.Creates (.submit caller nonce operation grant now)) :
    ∃ r, (s.step (.submit caller nonce operation grant now)).RecordFor caller nonce r := by
  obtain ⟨k, r, hk, hr⟩ := hc
  have hs := change_of_step hcf h.coherent (.submit caller nonce operation grant now)
  obtain ⟨_, _, _, _, _, _, _, _, _, hop, _, _, _, _, _, rfl, _⟩ := hs.born hk hr
  cases hop
  have hfor := ((h.coherent.change hs).recordFor hr).2.1
  exact ⟨_, hfor⟩

end Steps

/-- The nonces of a caller's records are those below its next one, one record each; records keep
the terms of their submission; outside a pause a used nonce is answered with the id of its record
or refused, and in a pause every submission is; a failed submission changes nothing; and of all
submissions with one caller and one nonce only one creates a record. -/
theorem submission_exactly_once (hcf : CollisionFree Digest) (self owner engine : Principal)
    (ops : List (Op Digest)) :
    (∀ caller n, n < (run step (new self owner engine) ops).next caller ↔
      ∃ (k : Digest) (r : RequestRecord Digest),
        (run step (new self owner engine) ops).requests[k]? = some r ∧ r.caller = caller ∧
          r.nonce = n) ∧
    (∀ (k k' : Digest) r r', (run step (new self owner engine) ops).requests[k]? = some r →
      (run step (new self owner engine) ops).requests[k']? = some r' → r.caller = r'.caller →
        r.nonce = r'.nonce → k = k') ∧
    (∀ post (k : Digest) r, (run step (new self owner engine) ops).requests[k]? = some r →
      ∃ r', (run step (new self owner engine) (ops ++ post)).requests[k]? = some r' ∧
        SameTicket r r') ∧
    (∀ caller n operation grant now, (run step (new self owner engine) ops).paused = false →
      n < (run step (new self owner engine) ops).next caller →
        ∃ r, (run step (new self owner engine) ops).RecordFor caller n r ∧
          (run step (new self owner engine) ops).submit caller n operation grant now =
            if r.operation = operation ∧ r.grant = grant then
              .ok (run step (new self owner engine) ops, r.id)
            else .error .idConflict) ∧
    (∀ caller n operation grant now, (run step (new self owner engine) ops).next caller < n →
      ∃ e, (run step (new self owner engine) ops).submit caller n operation grant now =
        .error e) ∧
    (∀ caller n operation grant now e,
      (run step (new self owner engine) ops).submit caller n operation grant now = .error e →
        e ≠ .nonceConsumed ∧ (run step (new self owner engine) ops).step
          (.submit caller n operation grant now) = run step (new self owner engine) ops) ∧
    (∀ caller n operation grant now, (run step (new self owner engine) ops).paused = true →
      (run step (new self owner engine) ops).submit caller n operation grant now =
        .error (.denied "paused")) ∧
    ∀ pre mid post caller n operation grant now operation' grant' now',
      ops = pre ++ .submit caller n operation grant now ::
        (mid ++ .submit caller n operation' grant' now' :: post) →
      (run step (new self owner engine) pre).Creates (.submit caller n operation grant now) →
      (run step (new self owner engine)
        (pre ++ .submit caller n operation grant now :: mid)).step
          (.submit caller n operation' grant' now') =
        run step (new self owner engine) (pre ++ .submit caller n operation grant now :: mid) := by
  have hv := valid_run hcf (valid_new self owner engine) ops
  have hnum := numbered_run hcf self owner engine ops
  refine ⟨fun caller n => ⟨fun h => ?_, ?_⟩, ?_, ?_, ?_, fun _ _ _ _ _ h => submit_gap h, ?_,
    fun _ _ _ _ _ h => submit_paused h, ?_⟩
  · obtain ⟨r, hr, hc, hn⟩ := hnum caller n h
    exact ⟨_, r, hr, hc, hn⟩
  · rintro ⟨k, r, hr, rfl, rfl⟩
    exact (hv.coherent.recordFor hr).2.2
  · intro k k' r r' hr hr' hc hn
    rw [(hv.coherent.recordFor hr).1, (hv.coherent.recordFor hr').1, hc, hn]
  · intro post k r hr
    rw [run_append]
    exact hv.ticket_run hcf hr post
  · intro caller n operation grant now hp hlt
    obtain ⟨r, hfor⟩ := hnum caller n hlt
    have hc : caller ≠ .anonymous := by
      rintro rfl
      rw [next_anonymous_run hcf self owner engine ops] at hlt
      exact absurd hlt (by simp)
    refine ⟨r, hfor, ?_⟩
    rw [hfor.submit hp hc hlt, (hv.coherent.request _ r hfor.1).id_eq]
  · intro caller n operation grant now e he
    refine ⟨?_, by rw [step, he]; rfl⟩
    rintro rfl
    exact hnum.submit_ne_nonceConsumed he
  · rintro pre mid post caller n operation grant now operation' grant' now' - hcreates
    have hv₀ := valid_run hcf (valid_new self owner engine) pre
    obtain ⟨r, hr, rfl, rfl⟩ := hv₀.created hcf hcreates
    rw [run_append, run_cons]
    have hv₁ := valid_step hcf hv₀ (.submit r.caller r.nonce operation grant now)
    obtain ⟨r', hr', hsame⟩ := hv₁.ticket_run hcf hr mid
    have hc : r'.caller = r.caller := by rw [hsame]
    have hn : r'.nonce = r.nonce := by rw [hsame]
    exact (valid_run hcf hv₁ mid).coherent.step_submit hr' hc hn

/-- The invoice is submitted twice and then with another operation. -/
theorem submission_exactly_once_repeated :
    ∃ r, (run step Sample.start Sample.setup).RecordFor Sample.delegate 0 r ∧
      (run step Sample.start Sample.setup).submit Sample.delegate 0 Sample.operation.id
        Sample.grant.id 6000 = .ok (run step Sample.start Sample.setup, r.id) ∧
      (run step Sample.start Sample.setup).submit Sample.delegate 0 (Sample.digest 99)
        Sample.grant.id 6000 = .error .idConflict := by
  have hpaused : (run step Sample.start Sample.setup).paused = false := by decide +kernel
  have hnext : 0 < (run step Sample.start Sample.setup).next Sample.delegate := by decide +kernel
  have hmap : ((run step Sample.start Sample.setup).requests[(run step Sample.start
      Sample.setup).requestId Sample.delegate 0]?).map (fun r => (r.operation, r.grant)) =
      some (Sample.operation.id, Sample.grant.id) := by decide +kernel
  have hall := submission_exactly_once SymbolicDigest.collisionFree Sample.self Sample.owner
    Sample.engine Sample.setup
  obtain ⟨r, hr, hsame⟩ := hall.2.2.2.1 Sample.delegate 0 Sample.operation.id Sample.grant.id 6000
    hpaused hnext
  obtain ⟨r', hr', hother⟩ := hall.2.2.2.1 Sample.delegate 0 (Sample.digest 99) Sample.grant.id 6000
    hpaused hnext
  obtain rfl : r = r' := Option.some.inj (hr.1.symm.trans hr'.1)
  obtain ⟨r₀, hr₀, he⟩ := Option.map_eq_some_iff.mp hmap
  obtain rfl : r = r₀ := Option.some.inj (hr.1.symm.trans hr₀)
  rw [Prod.mk.injEq] at he
  obtain ⟨ho, hg⟩ := he
  rw [if_pos ⟨ho, hg⟩] at hsame
  rw [if_neg fun h => absurd (ho.symm.trans h.1) (by decide)] at hother
  exact ⟨r, hr, hsame, hother⟩

/-- While the executor is paused the repeated submission is refused, though its record is there
with the same operation and grant. -/
theorem resubmission_paused :
    ∃ r, (run step Sample.start (Sample.setup ++ [.setPaused Sample.owner true])).RecordFor
        Sample.delegate 0 r ∧ r.operation = Sample.operation.id ∧ r.grant = Sample.grant.id ∧
      0 < (run step Sample.start (Sample.setup ++ [.setPaused Sample.owner true])).next
        Sample.delegate ∧
      (run step Sample.start (Sample.setup ++ [.setPaused Sample.owner true])).submit
        Sample.delegate 0 Sample.operation.id Sample.grant.id 6000 = .error (.denied "paused") := by
  have hpaused : (run step Sample.start (Sample.setup ++ [.setPaused Sample.owner true])).paused =
      true := by decide +kernel
  have hnext : 0 < (run step Sample.start (Sample.setup ++ [.setPaused Sample.owner true])).next
      Sample.delegate := by decide +kernel
  have hmap : ((run step Sample.start (Sample.setup ++ [.setPaused Sample.owner true])).requests[
      (run step Sample.start (Sample.setup ++ [.setPaused Sample.owner true])).requestId
        Sample.delegate 0]?).map (fun r => (r.caller, r.nonce, r.operation, r.grant)) =
      some (Sample.delegate, 0, Sample.operation.id, Sample.grant.id) := by decide +kernel
  obtain ⟨r, hr, he⟩ := Option.map_eq_some_iff.mp hmap
  simp only [Prod.mk.injEq] at he
  obtain ⟨hc, hn, ho, hg⟩ := he
  exact ⟨r, ⟨hr, hc, hn⟩, ho, hg, hnext, submit_paused hpaused⟩

end ExecutorState

end IcLaya
