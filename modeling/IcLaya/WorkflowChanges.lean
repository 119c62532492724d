import IcLaya.CanonicalPreimages
import IcLaya.OperationSpecs

/-!
# What one call can change

`Coherent` ties the keys of the maps to the ids of their values and resolves every
reference. From a coherent state a call makes one `Change`, and the next state is coherent.
Fresh request ids come from the hash; it is the only place where collisions matter here.
-/
namespace IcLaya
open CheckedWords Fallible OrderedMaps TransitionSystems

variable {Digest : Type} [Hashing Digest]

namespace ExecutorState

/-- A record is stored under its id, was numbered before the next nonce, and refers to
registered values. -/
structure RequestCoherent (s : ExecutorState Digest) (k : Digest) (r : RequestRecord Digest) :
    Prop where
  id_eq : r.id = k
  derived : r.id = s.requestId r.caller r.nonce
  numbered : r.nonce < s.nextNonce[r.caller]?.getD 0
  operation : ∃ o, s.operations[r.operation]? = some o
  grant : ∃ g, s.grants[r.grant]? = some g ∧ g.plan = r.plan
  plan : ∃ p, s.plans[r.plan]? = some p

structure Coherent (s : ExecutorState Digest) : Prop where
  plan : ∀ (k : Digest) p, s.plans[k]? = some p → p.id = k ∧ p.validate = .ok ()
  operation : ∀ (k : Digest) o, s.operations[k]? = some o →
    o.id = k ∧ o.proposal.validate = .ok () ∧ o.evidence.utf8ByteSize ≤ maxStateBytes
  grant : ∀ (k : Digest) g, s.grants[k]? = some g → g.id = k ∧ g.windowNs ≠ 0
  request : ∀ (k : Digest) r, s.requests[k]? = some r → s.RequestCoherent k r

/-- What one call does to one record while operations and grants stay. -/
inductive RecordStep (s : ExecutorState Digest) (k : Digest) (r : RequestRecord Digest) :
    RequestRecord Digest → Prop
  | start (now : UInt64) (p : Plan Digest) (required : RequiredSignal Digest) (o : Operation Digest)
      (hs : r.status = .received ∨ r.status = .evaluating) (hn : r.pending = none)
      (hc : s.current r now = .ok ()) (hp : s.plans[r.plan]? = some p)
      (hq : p.signals[r.receipts.length]? = some required)
      (ho : s.operations[r.operation]? = some o) :
      RecordStep s k r { r with
        pending := some ⟨slotRequest k r p o r.receipts.length required, true, 1⟩
        status := .evaluating }
  | resend (q : PendingEvaluation Digest) (hs : r.status = .received ∨ r.status = .evaluating)
      (hn : r.pending = some q) (h2 : q.sends < 2) :
      RecordStep s k r
        { r with pending := some { q with inFlight := true, sends := q.sends + 1 } }
  | outdated (hs : r.status = .received ∨ r.status = .evaluating) :
      RecordStep s k r { r with status := .stale, pending := none }
  | transport (q : PendingEvaluation Digest) (hs : r.status = .evaluating)
      (hn : r.pending = some q) : RecordStep s k r (afterTransportFailure r q)
  | judged (q : PendingEvaluation Digest) (p : Plan Digest) (required : RequiredSignal Digest)
      (result : Result (Receipt Digest)) (hs : r.status = .evaluating) (hn : r.pending = some q)
      (hp : s.plans[r.plan]? = some p) (hq : p.signals[r.receipts.length]? = some required) :
      RecordStep s k r (afterOutcome r p.signals.length (judge q.request required result))
  | report (hs : r.status = .readyToDispatch) : RecordStep s k r { r with status := .reported }
  | unknown (why : String) (hs : r.status.outstanding = true) :
      RecordStep s k r { r with everUnknown := true, status := .outcomeUnknown why }
  | retry (f : FrozenTransfer Digest) (hs : r.status.isOutcomeUnknown = true)
      (hf : r.frozen = some f) (h2 : r.ledgerAttempt < 2) :
      RecordStep s k r { r with ledgerAttempt := r.ledgerAttempt + 1, status := .submitted }
  | cancel (hf : r.frozen = none) (hv : r.reservation = none) :
      RecordStep s k r { r with pending := none, status := .cancelled }

/-- What one call can do to a coherent state. A submission, a dispatch and
a settlement name the call. -/
inductive Change (s : ExecutorState Digest) : Op Digest → ExecutorState Digest → Prop
  | same {op : Op Digest} : Change s op s
  | control {op : Op Digest} (mode : Mode) (paused : Bool) (ledgers : List Principal) :
      Change s op { s with mode := mode, paused := paused, mockLedgers := ledgers }
  | plan {op : Op Digest} (p : Plan Digest) (hv : p.validate = .ok ()) (hn : s.plans[p.id]? = none) :
      Change s op { s with plans := s.plans.insert p.id p }
  | operation {op : Op Digest} (o : Operation Digest) (hv : o.proposal.validate = .ok ())
      (hl : o.evidence.utf8ByteSize ≤ maxStateBytes) (hs : o.status = .available)
      (hn : s.operations[o.id]? = none) :
      Change s op { s with operations := s.operations.insert o.id o }
  | revise {op : Op Digest} (o : Operation Digest) (k : Digest) (evidence : String) (rev : UInt64)
      (ho : s.operations[k]? = some o) (hl : evidence.utf8ByteSize ≤ maxStateBytes)
      (hs : o.status = .available) (hrev : rev.toNat = o.revision.toNat + 1) :
      Change s op { s with
        operations := s.operations.insert k { o with evidence := evidence, revision := rev } }
  | grant {op : Op Digest} (g : Grant Digest) (hw : g.windowNs ≠ 0) (ht : g.total = default) (he : g.windows = ∅)
      (hn : s.grants[g.id]? = none) : Change s op { s with grants := s.grants.insert g.id g }
  | revoke {op : Op Digest} (g : Grant Digest) (k : Digest) (rev : UInt64) (hg : s.grants[k]? = some g)
      (hrev : rev.toNat = g.revision.toNat + 1) :
      Change s op { s with grants := s.grants.insert k { g with revoked := true, revision := rev } }
  | submit (caller : Principal) (nonce : UInt64) (operation grant : Digest) (now : UInt64)
      (o : Operation Digest) (g : Grant Digest) (p : Plan Digest) (expires next : UInt64)
      (hnonce : nonce = s.nextNonce[caller]?.getD 0) (hnext : next.toNat = nonce.toNat + 1)
      (ho : s.operations[operation]? = some o) (hg : s.grants[grant]? = some g)
      (hp : s.plans[g.plan]? = some p) (he : g.eligible caller o.proposal now = .ok ())
      (hs : o.status = .available) (hfresh : s.requests[s.requestId caller nonce]? = none) :
      Change s (.submit caller nonce operation grant now) { s with
        requests := s.requests.insert (s.requestId caller nonce)
          (s.newRecord caller nonce operation grant o g p expires)
        nextNonce := s.nextNonce.insert caller next }
  | record {op : Op Digest} (k : Digest) (r r' : RequestRecord Digest) (hr : s.requests[k]? = some r)
      (h : RecordStep s k r r') : Change s op (s.putRequest k r')
  | dispatch (a b : AuthorizedTransfer Digest) (now : UInt64) (r : RequestRecord Digest)
      (o : Operation Digest) (g g' : Grant Digest) (c : U128) (hr : s.requests[r.id]? = some r)
      (hid : a.request = r.id) (hsnap : a.snapshot = r.snapshot)
      (hb : s.authorize r.caller r.id now = .ok b) (hm : s.mode = .mock)
      (ho : s.operations[r.operation]? = some o) (hl : o.proposal.ledger ∈ s.mockLedgers)
      (hg : s.grants[r.grant]? = some g) (hc : o.proposal.charge = .ok c)
      (hv : g.reserve c (now / g.windowNs) = .ok g') :
      Change s (.prepareDispatch a now) { s with
        grants := s.grants.insert r.grant g'
        operations := s.operations.insert r.operation { o with status := .reserved r.id }
        requests := s.requests.insert r.id
          (dispatched r ⟨c, now / g.windowNs⟩ ⟨o.proposal, r.id, now⟩) }
  | settle (cmd : DispatchCommand Digest) (outcome : LedgerOutcome) (r : RequestRecord Digest)
      (v : Reservation) (o : Operation Digest) (g g' : Grant Digest) (success : Bool)
      (text : String) (hr : s.requests[r.id]? = some r) (hs : r.status.outstanding = true)
      (hid : cmd.request = r.id) (hf : r.frozen = some cmd.transfer)
      (hset : settlement r cmd.attempt outcome = some (success, text))
      (hblock : success = true → validBlockIndex text = true) (hv : r.reservation = some v)
      (ho : s.operations[r.operation]? = some o) (hst : o.status = .reserved r.id)
      (hg : s.grants[r.grant]? = some g) (hse : g.settle v.charge v.epoch success = .ok g') :
      Change s (.finishLedger cmd outcome) { s with
        grants := s.grants.insert r.grant g'
        operations := s.operations.insert r.operation
          { o with status := if success then .consumed r.id else .available }
        requests := s.requests.insert r.id (settled r success text) }
  | recover {op : Op Digest} : Change s op s.recoverAfterUpgrade

section Inversion
variable {s s' : ExecutorState Digest}

theorem Coherent.fresh (hcf : CollisionFree Digest) (h : s.Coherent) {caller : Principal}
    {nonce : UInt64} (hn : s.nextNonce[caller]?.getD 0 ≤ nonce) :
    s.requests[s.requestId caller nonce]? = none := by
  rw [Option.eq_none_iff_forall_not_mem]
  intro r hr
  have hc := h.request _ r hr
  have he : s.requestId caller nonce = s.requestId r.caller r.nonce := by
    rw [← hc.derived, hc.id_eq]
  obtain ⟨-, rfl, rfl⟩ := requestCanonical_inj (hcf he)
  exact absurd hc.numbered (UInt64.not_lt.mpr hn)

/-- No other submission has the id of a new one. -/
def FreshFor (s : ExecutorState Digest) : Op Digest → Prop
  | .submit caller nonce _ _ _ =>
    s.nextNonce[caller]?.getD 0 ≤ nonce → s.requests[s.requestId caller nonce]? = none
  | _ => True

theorem Coherent.freshFor (hcf : CollisionFree Digest) (h : s.Coherent) (op : Op Digest) :
    s.FreshFor op := by
  cases op with
  | submit caller nonce operation grant now => exact h.fresh hcf
  | _ => trivial

theorem change_of_prepareDispatch (h : s.Coherent) {a : AuthorizedTransfer Digest} {now : UInt64}
    {res : Result (DispatchCommand Digest)} (hs : s.prepareDispatch a now = .ok (s', res)) :
    Change s (.prepareDispatch a now) s' := by
  obtain ⟨r, hr, ⟨b, hb⟩, hsnap, ⟨_, _, rfl⟩ | ⟨hm, o, g, g', c, ho, hl, hg, hc, hv, _, rfl⟩⟩ :=
    prepareDispatch_eq_ok.mp hs
  · have hid := (h.request _ r hr).id_eq
    rw [← hid] at hr
    obtain ⟨r₁, _, _, hr₁, _, _, hst, _⟩ := authorize_eq_ok.mp hb
    obtain rfl : r = r₁ := Option.some.inj (hr.symm.trans hr₁)
    exact .record _ r _ hr (.report hst)
  · have hid := (h.request _ r hr).id_eq
    have hgid := (h.grant _ g hg).1
    have hoid := (h.operation _ o ho).1
    have hgid' : g'.id = r.grant := by
      obtain ⟨_, _, _, _, _, _, _, rfl⟩ := Grant.reserve_eq_ok.mp hv
      exact hgid
    rw [← hid] at hr
    have hch := Change.dispatch a b now r o g g' c hr hid.symm hsnap hb hm ho hl hg hc hv
    rw [← hgid', ← hoid] at hch
    exact hch

theorem change_of_finishLedger (h : s.Coherent) {cmd : DispatchCommand Digest}
    {outcome : LedgerOutcome} {status : Status}
    (hs : s.finishLedger cmd outcome = .ok (s', status)) :
    Change s (.finishLedger cmd outcome) s' := by
  obtain ⟨r, hr, hf, _, _, ⟨_, rfl, _⟩ | ⟨_, hout, ha⟩⟩ := finishLedger_eq_ok.mp hs
  · exact .same
  have hid := (h.request _ r hr).id_eq
  rw [← hid] at hr
  obtain ⟨success, text, hset, hblock, hrec⟩ | ⟨_, hrec⟩ := applyOutcome_eq_ok.mp ha
  · obtain ⟨v, g, o, g', hv, hg, ho, hst, hse, _, rfl⟩ := settleRecord_eq_ok.mp hrec
    have hgid : g'.id = r.grant := by
      obtain ⟨_, _, _, _, _, _, _, _, _, _, rfl⟩ := Grant.settle_eq_ok.mp hse
      exact (h.grant _ g hg).1
    have hch := Change.settle cmd outcome r v o g g' success text hr hout hid.symm hf hset hblock
      hv ho hst hg hse
    rw [← hgid, ← (h.operation _ o ho).1] at hch
    exact hch
  · obtain ⟨rfl, rfl⟩ := Prod.mk.inj hrec
    exact .record _ r _ hr (.unknown _ hout)

/-- Every call on a coherent state makes one of the listed changes, where ids do not collide. -/
theorem change_of_fresh (h : s.Coherent) (op : Op Digest) (hf : s.FreshFor op) :
    Change s op (s.step op) := by
  have hok : ∀ {α : Type} (f : α → ExecutorState Digest) (x : Result α),
      (∀ a, x = .ok a → Change s op (f a)) → Change s op (s.commit f x) := by
    intro α f x hx
    cases x with
    | error e => exact .same
    | ok a => exact hx a rfl
  cases op with
  | setMode caller mode =>
    refine hok _ _ fun s' hs => ?_
    obtain ⟨_, rfl⟩ := setMode_eq_ok hs
    exact .control mode s.paused s.mockLedgers
  | setPaused caller pause =>
    refine hok _ _ fun s' hs => ?_
    rw [setPaused_eq_ok hs]
    exact .control s.mode pause s.mockLedgers
  | addMockLedger caller ledger =>
    refine hok _ _ fun s' hs => ?_
    obtain ⟨ledgers, rfl⟩ := addMockLedger_eq_ok hs
    exact .control s.mode s.paused ledgers
  | installPlan caller p =>
    refine hok _ _ fun s' hs => ?_
    obtain ⟨hv, rfl | ⟨hn, rfl⟩⟩ := installPlan_eq_ok hs
    · exact .same
    · exact .plan p hv hn
  | installOperation caller o =>
    refine hok _ _ fun s' hs => ?_
    obtain ⟨hv, hl, hst, hn, rfl⟩ := installOperation_eq_ok hs
    exact .operation o hv hl hst hn
  | reviseOperation caller k evidence =>
    refine hok _ _ fun s' hs => ?_
    obtain ⟨o, rev, ho, hl, hst, hrev, rfl⟩ := reviseOperation_eq_ok hs
    exact .revise o k evidence rev ho hl hst hrev
  | installGrant caller g =>
    refine hok _ _ fun s' hs => ?_
    obtain ⟨hw, ht, he, _, _, hn, rfl⟩ := installGrant_eq_ok hs
    exact .grant g hw ht he hn
  | revoke caller k =>
    refine hok _ _ fun s' hs => ?_
    obtain ⟨g, rev, hg, hrev, rfl⟩ := revoke_eq_ok hs
    exact .revoke g k rev hg hrev
  | submit caller nonce operation grant now =>
    refine hok _ _ fun ⟨s', id⟩ hs => ?_
    obtain ⟨_, ⟨rfl, _⟩ | ⟨o, g, p, expires, next, hn, ho, hg, hp, he, hst, hnext, rfl⟩⟩ :=
      submit_eq_ok hs
    · exact .same
    · refine .submit caller nonce operation grant now o g p expires next hn hnext ho hg hp he hst ?_
      exact hf (hn ▸ UInt64.le_refl nonce)
  | beginEvaluation caller k now =>
    refine hok _ _ fun ⟨s', res⟩ hs => ?_
    obtain ⟨r, hr, hst, ⟨_, _, _, rfl⟩ | ⟨hc, ⟨q, hq, _, h2, _, rfl⟩ |
      ⟨p, required, o, hq, hp, hreq, ho, _, rfl⟩⟩⟩ := beginEvaluation_eq_ok hs
    · exact .record k r _ hr (.outdated hst)
    · exact .record k r _ hr (.resend q hst hq h2)
    · exact .record k r _ hr (.start now p required o hst hq hc hp hreq ho)
  | engineTransportFailed k evalId =>
    refine hok _ _ fun s' hs => ?_
    obtain ⟨r, q, hr, hst, hq, _, rfl⟩ := engineTransportFailed_eq_ok hs
    exact .record k r _ hr (.transport q hst hq)
  | finishEvaluation k evalId result now =>
    refine hok _ _ fun ⟨s', res⟩ hs => ?_
    obtain ⟨r, hr, ⟨rfl, _⟩ | ⟨_, hst, q, hq, _, ⟨_, _, _, rfl⟩ |
      ⟨p, required, _, hp, hreq, rfl, _⟩⟩⟩ := finishEvaluation_eq_ok hs
    · exact .same
    · exact .record k r _ hr (.outdated (.inr hst))
    · exact .record k r _ hr (.judged q p required result hst hq hp hreq)
  | prepareDispatch a now =>
    exact hok _ _ fun ⟨s', res⟩ hs => change_of_prepareDispatch h hs
  | finishLedger cmd outcome =>
    exact hok _ _ fun ⟨s', status⟩ hs => change_of_finishLedger h hs
  | retryUnknown caller k now =>
    refine hok _ _ fun ⟨s', cmd⟩ hs => ?_
    obtain ⟨r, f, hr, _, _, hu, h2, hf, _, rfl⟩ := retryUnknown_eq_ok hs
    exact .record k r _ hr (.retry f hu hf h2)
  | cancel caller k =>
    refine hok _ _ fun s' hs => ?_
    obtain ⟨r, hr, hf, hv, rfl⟩ := cancel_eq_ok hs
    exact .record k r _ hr (.cancel hf hv)
  | recoverAfterUpgrade => exact .recover

theorem change_of_step (hcf : CollisionFree Digest) (h : s.Coherent) (op : Op Digest) :
    Change s op (s.step op) := change_of_fresh h op (h.freshFor hcf op)

end Inversion

/-- The later version of an operation names the same transfer. -/
def SameTransfer (o o' : Operation Digest) : Prop := o'.id = o.id ∧ o'.proposal = o.proposal

/-- The later version of a grant gives the same permission: only its revocation, its revision
and its books can differ. -/
def SameTerms (g g' : Grant Digest) : Prop :=
  g' = { g with
    revision := g'.revision
    revoked := g'.revoked
    total := g'.total
    windows := g'.windows }

/-- The later version of a record is about the same submission. -/
def SameTicket (r r' : RequestRecord Digest) : Prop :=
  r' = { r with
    status := r'.status
    receipts := r'.receipts
    pending := r'.pending
    reservation := r'.reservation
    frozen := r'.frozen
    ledgerAttempt := r'.ledgerAttempt
    everUnknown := r'.everUnknown }

/-- What is registered stays registered, and only its mutable part moves. -/
structure Extends (s s' : ExecutorState Digest) : Prop where
  instancePrincipal : s'.instancePrincipal = s.instancePrincipal
  plans : Grows Eq s.plans s'.plans
  operations : Grows SameTransfer s.operations s'.operations
  grants : Grows SameTerms s.grants s'.grants
  requests : Grows SameTicket s.requests s'.requests
  nonces : Grows (· ≤ ·) s.nextNonce s'.nextNonce

section Relations
omit [Hashing Digest]

@[refl] theorem SameTransfer.refl (o : Operation Digest) : SameTransfer o o := ⟨rfl, rfl⟩
@[refl] theorem SameTerms.refl (g : Grant Digest) : SameTerms g g := rfl
@[refl] theorem SameTicket.refl (r : RequestRecord Digest) : SameTicket r r := rfl

theorem recover_sameTicket (r : RequestRecord Digest) : SameTicket r r.recover := by
  unfold RequestRecord.recover
  split <;> rfl

theorem reserve_sameTerms {g g' : Grant Digest} {c : U128} {e : UInt64}
    (h : g.reserve c e = .ok g') : SameTerms g g' := by
  obtain ⟨_, _, _, _, _, _, _, rfl⟩ := Grant.reserve_eq_ok.mp h
  rfl

theorem settle_sameTerms {g g' : Grant Digest} {c : U128} {e : UInt64} {success : Bool}
    (h : g.settle c e success = .ok g') : SameTerms g g' := by
  obtain ⟨_, _, _, _, _, _, _, _, _, _, rfl⟩ := Grant.settle_eq_ok.mp h
  rfl

end Relations

section Growth
variable {s s' : ExecutorState Digest} {k : Digest} {r r' : RequestRecord Digest}

theorem Extends.refl (s : ExecutorState Digest) : Extends s s :=
  ⟨rfl, .refl (fun _ => rfl) _, .refl SameTransfer.refl _, .refl SameTerms.refl _,
    .refl SameTicket.refl _, .refl UInt64.le_refl _⟩

theorem RecordStep.sameTicket (h : RecordStep s k r r') : SameTicket r r' := by
  cases h with
  | transport q => unfold afterTransportFailure; split <;> rfl
  | judged q p required result =>
    cases judge q.request required result with
    | error e => rfl
    | ok v => rfl
  | _ => rfl

theorem Change.extends {op : Op Digest} (h : Change s op s') : Extends s s' := by
  have hrefl := Extends.refl s
  cases h with
  | same => exact hrefl
  | control mode paused ledgers => exact ⟨rfl, hrefl.2, hrefl.3, hrefl.4, hrefl.5, hrefl.6⟩
  | plan p _ hn => exact { hrefl with plans := .new (fun _ => rfl) hn p }
  | operation o _ _ _ hn => exact { hrefl with operations := .new SameTransfer.refl hn o }
  | revise o k evidence rev ho =>
    exact { hrefl with operations := .replace SameTransfer.refl ho ⟨rfl, rfl⟩ }
  | grant g _ _ _ hn => exact { hrefl with grants := .new SameTerms.refl hn g }
  | revoke g k rev hg => exact { hrefl with grants := .replace SameTerms.refl hg rfl }
  | submit caller nonce operation grant now o g p expires next hnonce hnext ho hg hp _ _ hfresh =>
    refine { hrefl with requests := .new SameTicket.refl hfresh _, nonces := ?_ }
    cases hn : s.nextNonce[caller]? with
    | none => exact .new UInt64.le_refl hn next
    | some old =>
      refine .replace UInt64.le_refl hn ?_
      rw [hn, Option.getD_some] at hnonce
      rw [UInt64.le_iff_toNat_le, hnext, hnonce]
      exact Nat.le_succ _
  | record k r r' hr h => exact { hrefl with requests := .replace SameTicket.refl hr h.sameTicket }
  | dispatch a b now r o g g' c hr hid hsnap hb hm ho hl hg hc hv =>
    exact { hrefl with
      operations := .replace SameTransfer.refl ho ⟨rfl, rfl⟩
      grants := .replace SameTerms.refl hg (reserve_sameTerms hv)
      requests := .replace SameTicket.refl hr rfl }
  | settle cmd outcome r v o g g' success text hr hs hid hf hset hblock hv ho hst hg hse =>
    exact { hrefl with
      operations := .replace SameTransfer.refl ho ⟨rfl, rfl⟩
      grants := .replace SameTerms.refl hg (settle_sameTerms hse)
      requests := .replace SameTicket.refl hr rfl }
  | recover => exact { hrefl with requests := .map recover_sameTicket _ }

theorem RequestCoherent.extend (h : s.RequestCoherent k r) (he : Extends s s')
    (ht : SameTicket r r') : s'.RequestCoherent k r' := by
  obtain ⟨hid, hd, hn, ⟨o, ho⟩, ⟨g, hg, hgp⟩, p, hp⟩ := h
  rw [ht]
  obtain ⟨o', ho', _⟩ := he.operations _ o ho
  obtain ⟨g', hg', hterms⟩ := he.grants _ g hg
  obtain ⟨p', hp', _⟩ := he.plans _ p hp
  refine ⟨hid, ?_, ?_, ⟨o', ho'⟩, ⟨g', hg', ?_⟩, p', hp'⟩
  · show r.id = s'.requestId r.caller r.nonce
    rw [hd, requestId, requestId, he.instancePrincipal]
  · show r.nonce < s'.nextNonce[r.caller]?.getD 0
    cases hc : s.nextNonce[r.caller]? with
    | none => rw [hc] at hn; exact absurd hn (UInt64.not_lt.mpr (UInt64.zero_le))
    | some n =>
      obtain ⟨n', hn', hle⟩ := he.nonces _ n hc
      rw [hc, Option.getD_some] at hn
      rw [hn', Option.getD_some]
      exact UInt64.lt_of_lt_of_le hn hle
  · rw [hterms]; exact hgp

theorem coherent_new (self owner engine : Principal) :
    (new self owner engine : ExecutorState Digest).Coherent := by
  constructor <;> intro k v h <;> simp [new] at h

theorem Coherent.change {op : Op Digest} (h : s.Coherent) (hs : Change s op s') : s'.Coherent := by
  have hext := hs.extends
  have hold : ∀ (k : Digest) r, s.requests[k]? = some r → s'.RequestCoherent k r := fun k r hr =>
    (h.request k r hr).extend hext rfl
  cases hs with
  | same => exact h
  | control mode paused ledgers => exact ⟨h.plan, h.operation, h.grant, hold⟩
  | plan p hv hn =>
    exact ⟨forall_insert h.plan ⟨rfl, hv⟩, h.operation, h.grant, hold⟩
  | operation o hv hl hst hn =>
    exact ⟨h.plan, forall_insert h.operation ⟨rfl, hv, hl⟩, h.grant, hold⟩
  | revise o k evidence rev ho hl hst hrev =>
    obtain ⟨hid, hv, _⟩ := h.operation k o ho
    exact ⟨h.plan, forall_insert h.operation ⟨hid, hv, hl⟩, h.grant, hold⟩
  | grant g hw ht he hn =>
    exact ⟨h.plan, h.operation, forall_insert h.grant ⟨rfl, hw⟩, hold⟩
  | revoke g k rev hg hrev =>
    exact ⟨h.plan, h.operation, forall_insert h.grant (h.grant k g hg), hold⟩
  | submit caller nonce operation grant now o g p expires next hnonce hnext ho hg hp _ _ hfresh =>
    refine ⟨h.plan, h.operation, h.grant, forall_insert hold ?_⟩
    refine ⟨rfl, rfl, ?_, ⟨o, ho⟩, ⟨g, hg, rfl⟩, p, hp⟩
    show nonce < (s.nextNonce.insert caller next)[caller]?.getD 0
    rw [get_insert_self, Option.getD_some, UInt64.lt_iff_toNat_lt, hnext]
    exact Nat.lt_succ_self _
  | record k r r' hr hrec =>
    exact ⟨h.plan, h.operation, h.grant,
      forall_insert hold ((h.request k r hr).extend hext hrec.sameTicket)⟩
  | dispatch a b now r o g g' c hr hid hsnap hb hm ho hl hg hc hv =>
    refine ⟨h.plan, forall_insert h.operation (h.operation _ o ho), forall_insert h.grant ?_,
      forall_insert hold ((h.request _ r hr).extend hext rfl)⟩
    rw [reserve_sameTerms hv]
    exact h.grant _ g hg
  | settle cmd outcome r v o g g' success text hr hs hid hf hset hblock hv ho hst hg hse =>
    refine ⟨h.plan, forall_insert h.operation (h.operation _ o ho), forall_insert h.grant ?_,
      forall_insert hold ((h.request _ r hr).extend hext rfl)⟩
    rw [settle_sameTerms hse]
    exact h.grant _ g hg
  | recover =>
    refine ⟨h.plan, h.operation, h.grant, fun k r' hr' => ?_⟩
    have hr'' : (s.requests.map fun _ r => r.recover)[k]? = some r' := hr'
    rw [get_map, Option.map_eq_some_iff] at hr''
    obtain ⟨r, hr, rfl⟩ := hr''
    exact (h.request k r hr).extend hext (recover_sameTicket r)

/-- What one call does to the record of one request. -/
inductive RecordChange (s : ExecutorState Digest) (r : RequestRecord Digest) :
    Op Digest → RequestRecord Digest → Prop
  | same {op : Op Digest} : RecordChange s r op r
  | step {op : Op Digest} {r' : RequestRecord Digest} (h : RecordStep s r.id r r') :
      RecordChange s r op r'
  | dispatch (a b : AuthorizedTransfer Digest) (now : UInt64) (v : Reservation)
      (f : FrozenTransfer Digest) (hid : a.request = r.id)
      (hb : s.authorize r.caller r.id now = .ok b) :
      RecordChange s r (.prepareDispatch a now) (dispatched r v f)
  | settle (cmd : DispatchCommand Digest) (outcome : LedgerOutcome) (success : Bool)
      (text : String) (hs : r.status.outstanding = true) (hid : cmd.request = r.id)
      (hf : r.frozen = some cmd.transfer)
      (hset : settlement r cmd.attempt outcome = some (success, text))
      (hblock : success = true → validBlockIndex text = true) :
      RecordChange s r (.finishLedger cmd outcome) (settled r success text)
  | recover {op : Op Digest} : RecordChange s r op r.recover

/-- A stored record is followed by the record it becomes. -/
theorem Change.record_at {op : Op Digest} (h : Change s op s') (hc : s.Coherent)
    (hr : s.requests[k]? = some r) : ∃ r', s'.requests[k]? = some r' ∧ RecordChange s r op r' := by
  have hid := (hc.request k r hr).id_eq
  cases h with
  | record k' r₁ r' hr₁ hrec =>
    rw [putRequest_requests, get_insert]
    split
    · next he =>
      rw [he, hr₁] at hr
      cases hr
      refine ⟨r', rfl, .step ?_⟩
      rw [hid, he]
      exact hrec
    · exact ⟨r, hr, .same⟩
  | submit caller nonce operation grant now o g p expires next _ _ _ _ _ _ _ hfresh =>
    refine ⟨r, ?_, .same⟩
    rw [get_insert_ne _ (by rintro rfl; rw [hfresh] at hr; cases hr)]
    exact hr
  | dispatch a b now r₁ o g g' c hr₁ hid₁ _ hb =>
    dsimp only
    rw [get_insert]
    split
    · next he =>
      rw [he, hr₁] at hr
      cases hr
      exact ⟨_, rfl, .dispatch a b now _ _ hid₁ hb⟩
    · exact ⟨r, hr, .same⟩
  | settle cmd outcome r₁ v o g g' success text hr₁ hs hid₁ hf hset hblock =>
    dsimp only
    rw [get_insert]
    split
    · next he =>
      rw [he, hr₁] at hr
      cases hr
      exact ⟨_, rfl, .settle cmd outcome success text hs hid₁ hf hset hblock⟩
    · exact ⟨r, hr, .same⟩
  | recover =>
    refine ⟨r.recover, ?_, .recover⟩
    show (s.requests.map fun _ r => r.recover)[k]? = _
    rw [get_map, hr]
    rfl
  | _ => exact ⟨r, hr, .same⟩

/-- Only a submission creates a record. -/
theorem Change.born {op : Op Digest} (h : Change s op s') (hn : s.requests[k]? = none)
    (hr : s'.requests[k]? = some r) :
    ∃ caller nonce operation grant now o g p expires, op = .submit caller nonce operation grant now ∧
      s.operations[operation]? = some o ∧ s.grants[grant]? = some g ∧
      s.plans[g.plan]? = some p ∧ g.eligible caller o.proposal now = .ok () ∧
      o.status = .available ∧ r = s.newRecord caller nonce operation grant o g p expires ∧
      s'.operations = s.operations ∧ s'.grants = s.grants ∧ s'.plans = s.plans := by
  have hput : ∀ (k' : Digest) (r₁ r₂ : RequestRecord Digest), s.requests[k']? = some r₁ →
      (s.requests.insert k' r₂)[k]? ≠ some r := by
    intro k' r₁ r₂ hr₁ hr₂
    rw [get_insert] at hr₂
    split at hr₂
    · next he => rw [he, hr₁] at hn; cases hn
    · rw [hn] at hr₂; cases hr₂
  cases h with
  | submit caller nonce operation grant now o g p expires next _ _ ho hg hp he hs =>
    rw [get_insert] at hr
    split at hr
    · cases hr
      exact ⟨caller, nonce, operation, grant, now, o, g, p, expires, rfl, ho, hg, hp, he, hs, rfl,
        rfl, rfl, rfl⟩
    · rw [hn] at hr; cases hr
  | record k' r₁ r₂ hr₁ => exact absurd hr (hput k' r₁ r₂ hr₁)
  | dispatch a b now r₁ o g g' c hr₁ => exact absurd hr (hput _ r₁ _ hr₁)
  | settle cmd outcome r₁ v o g g' success text hr₁ => exact absurd hr (hput _ r₁ _ hr₁)
  | recover =>
    have hr'' : (s.requests.map fun _ r => r.recover)[k]? = some r := hr
    rw [get_map, hn] at hr''
    cases hr''
  | _ => exact absurd (hn.symm.trans hr) (by simp)

end Growth

end ExecutorState

end IcLaya
