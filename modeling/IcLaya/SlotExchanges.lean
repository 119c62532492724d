import IcLaya.DispatchAuthorization
import IcLaya.ListUpdates

/-!
# The executor's calls of the decision engine

`Tracked` relates the calls of `evaluate` to the records they were sent for, whatever came back of them
and in whatever order: it is kept by `begin_evaluation`, which sends a call, by the two callbacks,
which answer one, and by every call that exchanges no message with the engine.
-/
namespace IcLaya
open CheckedWords Fallible ListUpdates OrderedMaps TransitionSystems

/-- What the executor knows of a call of `evaluate`: for which request it was sent, what was sent, and
what came back. A call that failed on its way is `some none`. -/
structure Exchange (Digest : Type) where
  request : Digest
  req : DecisionRequest Digest
  answer : Option (Option (Result (Receipt Digest)))

/-- The calls that exchange a message with the engine. -/
def Op.evaluates {Digest : Type} [Ord Digest] : Op Digest → Bool
  | .beginEvaluation .. | .engineTransportFailed .. | .finishEvaluation .. => true
  | _ => false

variable {Digest : Type} [Hashing Digest]

/-- The callback of a call. -/
def Exchange.callback (m : Exchange Digest) (now : UInt64) : Option (Result (Receipt Digest)) → Op Digest
  | some r => .finishEvaluation m.request m.req.evaluationId r now
  | none => .engineTransportFailed m.request m.req.evaluationId

/-- The record can be asked for an evaluation, or waits for one. -/
def RequestRecord.active (r : RequestRecord Digest) : Prop :=
  r.status = .received ∨ r.status = .evaluating

namespace ExecutorState
variable {s s' : ExecutorState Digest} {k : Digest} {r r' : RequestRecord Digest} {op : Op Digest}

/-- A new record, or one that keeps its receipts and is as it was or no longer active. -/
def Quiet (s s' : ExecutorState Digest) : Prop :=
  ∀ (k : Digest) r', s'.requests[k]? = some r' →
    s.requests[k]? = none ∧ r'.receipts = [] ∧ r'.pending = none ∨
      ∃ r, s.requests[k]? = some r ∧ r'.receipts = r.receipts ∧ (r' = r ∨ ¬r'.active)

theorem Quiet.of_requests (h : s'.requests = s.requests) : Quiet s s' :=
  fun _ r' hr' => .inr ⟨r', h ▸ hr', rfl, .inl rfl⟩

theorem Quiet.insert (hs : s'.requests = s.requests.insert k r') (hr : s.requests[k]? = some r)
    (hrec : r'.receipts = r.receipts) (hact : ¬r'.active) : Quiet s s' := by
  intro a x hx
  rw [hs, get_insert] at hx
  split at hx
  · next he =>
    cases hx
    exact .inr ⟨r, he ▸ hr, hrec, .inr hact⟩
  · exact .inr ⟨x, hx, rfl, .inl rfl⟩

omit [Hashing Digest] in
theorem not_active (hs : r.status ≠ .received) (he : r.status ≠ .evaluating) : ¬r.active :=
  fun h => h.elim hs he

/-- A call that exchanges no message with the engine. -/
theorem quiet_step (hv : s.Valid) (hf : s.FreshFor op) (hop : op.evaluates = false) :
    Quiet s (s.step op) := by
  have hok : ∀ {α : Type} (f : α → ExecutorState Digest) (x : Result α),
      (∀ a, x = .ok a → Quiet s (f a)) → Quiet s (s.commit f x) := by
    intro α f x hx
    cases x with
    | error e => exact .of_requests rfl
    | ok a => exact hx a rfl
  cases op with
  | setMode caller mode =>
    refine hok _ _ fun s' hs => ?_
    obtain ⟨_, rfl⟩ := setMode_eq_ok hs
    exact .of_requests rfl
  | setPaused caller pause =>
    refine hok _ _ fun s' hs => ?_
    rw [setPaused_eq_ok hs]
    exact .of_requests rfl
  | addMockLedger caller ledger =>
    refine hok _ _ fun s' hs => ?_
    obtain ⟨ledgers, rfl⟩ := addMockLedger_eq_ok hs
    exact .of_requests rfl
  | installPlan caller p =>
    refine hok _ _ fun s' hs => ?_
    obtain ⟨_, rfl | ⟨_, rfl⟩⟩ := installPlan_eq_ok hs <;> exact .of_requests rfl
  | installOperation caller o =>
    refine hok _ _ fun s' hs => ?_
    obtain ⟨_, _, _, _, rfl⟩ := installOperation_eq_ok hs
    exact .of_requests rfl
  | reviseOperation caller k evidence =>
    refine hok _ _ fun s' hs => ?_
    obtain ⟨_, _, _, _, _, _, rfl⟩ := reviseOperation_eq_ok hs
    exact .of_requests rfl
  | installGrant caller g =>
    refine hok _ _ fun s' hs => ?_
    obtain ⟨_, _, _, _, _, _, rfl⟩ := installGrant_eq_ok hs
    exact .of_requests rfl
  | revoke caller k =>
    refine hok _ _ fun s' hs => ?_
    obtain ⟨_, _, _, _, rfl⟩ := revoke_eq_ok hs
    exact .of_requests rfl
  | submit caller nonce operation grant now =>
    refine hok _ _ fun ⟨s', id⟩ hs => ?_
    obtain ⟨_, ⟨rfl, _⟩ | ⟨o, g, p, expires, next, hn, _, _, _, _, _, _, rfl⟩⟩ := submit_eq_ok hs
    · exact .of_requests rfl
    · intro a x hx
      have hfresh : s.requests[s.requestId caller nonce]? = none :=
        hf (hn ▸ UInt64.le_refl nonce)
      rw [get_insert] at hx
      split at hx
      · next he =>
        cases hx
        exact .inl ⟨he ▸ hfresh, rfl, rfl⟩
      · exact .inr ⟨x, hx, rfl, .inl rfl⟩
  | prepareDispatch a now =>
    refine hok _ _ fun ⟨s', res⟩ hs => ?_
    obtain ⟨r, hr, _, _, ⟨_, _, rfl⟩ | ⟨_, _, _, _, _, _, _, _, _, _, _, rfl⟩⟩ :=
      prepareDispatch_eq_ok.mp hs
    · rw [← (hv.coherent.request _ r hr).id_eq] at hr
      exact .insert rfl hr rfl (not_active nofun nofun)
    · rw [← (hv.coherent.request _ r hr).id_eq] at hr
      exact .insert rfl hr rfl (not_active nofun nofun)
  | finishLedger cmd outcome =>
    refine hok _ _ fun ⟨s', status⟩ hs => ?_
    obtain ⟨r, hr, _, _, _, ⟨_, rfl, _⟩ | ⟨_, _, ha⟩⟩ := finishLedger_eq_ok.mp hs
    · exact .of_requests rfl
    rw [← (hv.coherent.request _ r hr).id_eq] at hr
    obtain ⟨success, text, _, _, hrec⟩ | ⟨_, hrec⟩ := applyOutcome_eq_ok.mp ha
    · obtain ⟨_, _, _, _, _, _, _, _, _, _, rfl⟩ := settleRecord_eq_ok.mp hrec
      refine .insert rfl hr rfl ?_
      cases success <;> exact not_active nofun nofun
    · obtain ⟨rfl, rfl⟩ := Prod.mk.inj hrec
      exact .insert rfl hr rfl (not_active nofun nofun)
  | retryUnknown caller k now =>
    refine hok _ _ fun ⟨s', cmd⟩ hs => ?_
    obtain ⟨r, f, hr, _, _, _, _, _, _, rfl⟩ := retryUnknown_eq_ok hs
    exact .insert rfl hr rfl (not_active nofun nofun)
  | cancel caller k =>
    refine hok _ _ fun s' hs => ?_
    obtain ⟨r, hr, _, _, rfl⟩ := cancel_eq_ok hs
    exact .insert rfl hr rfl (not_active nofun nofun)
  | recoverAfterUpgrade =>
    intro k r' hr'
    have hr'' : (s.requests.map fun _ r => r.recover)[k]? = some r' := hr'
    rw [get_map, Option.map_eq_some_iff] at hr''
    obtain ⟨r, hr, rfl⟩ := hr''
    refine .inr ⟨r, hr, ?_, ?_⟩
    · unfold RequestRecord.recover
      split <;> rfl
    · unfold RequestRecord.recover
      split
      · exact .inr (not_active nofun nofun)
      · exact .inr (not_active nofun nofun)
      · exact .inl rfl
  | _ => cases hop

/-- `evaluation_id` of a slot. -/
def slotId (k : Digest) (i : ℕ) (snapshot : Digest) : Digest := (slotCanonical k i snapshot).finish

/-- What the evaluation of a slot is bound to. -/
def slotBinding (k : Digest) (i : ℕ) (snapshot : Digest) : Binding Digest :=
  ⟨k, UInt8.ofNat i, 0, snapshot⟩

omit [Hashing Digest] in
theorem slotBinding_inj {k k' snapshot snapshot' : Digest} {i i' : ℕ} (hi : i < 2 ^ 8)
    (hi' : i' < 2 ^ 8) (h : slotBinding k i snapshot = slotBinding k' i' snapshot') :
    k = k' ∧ i = i' := by
  obtain ⟨hk, hslot, -, -⟩ := Binding.mk.inj h
  refine ⟨hk, ?_⟩
  rw [← UInt8.toNat_ofNat_of_lt' hi, ← UInt8.toNat_ofNat_of_lt' hi', hslot]

/-- A record has fewer receipts than a slot can count. -/
theorem Evidenced.length_lt (he : s.Evidenced) (hv : s.Valid) (hr : s.requests[k]? = some r) :
    r.receipts.length + 1 < 2 ^ 8 := by
  obtain ⟨o, g, p, _, _, hp, ha, _⟩ := he k r hr
  have hplan := (hv.coherent.plan _ p hp).2
  have hmax : p.signals.length ≤ maxSlots := by
    simp only [Plan.validate, bind_eq_ok, rejectIf_eq_ok, not_or, not_lt] at hplan
    obtain ⟨_, ⟨_, _, _, _, hl⟩, _⟩ := hplan
    exact hl
  have hle : r.receipts.length ≤ p.signals.length := by
    by_contra hlt
    rw [Nat.not_le] at hlt
    obtain ⟨signal, hs, _⟩ := ha.receipts p.signals.length _ (List.getElem?_eq_getElem hlt)
    rw [List.getElem?_eq_none (Nat.le_refl _)] at hs
    cases hs
  unfold maxSlots at hmax
  omega

end ExecutorState

open ExecutorState (slotId slotBinding)

section Exchanges
variable {log : List (Exchange Digest)} {s s' : ExecutorState Digest} {k : Digest}
  {r r' : RequestRecord Digest}

/-- How often the evaluation of a slot was sent. -/
def sends (log : List (Exchange Digest)) (b : Binding Digest) : ℕ :=
  log.countP fun m => decide (m.req.binding = some b)

/-- How many calls for a request are awaited. -/
def awaited (log : List (Exchange Digest)) (k : Digest) : ℕ :=
  log.countP fun m => decide (m.request = k) && m.answer.isNone

/-- The calls that were sent for an outstanding evaluation. -/
structure PendingCalls (log : List (Exchange Digest)) (k : Digest) (b : Binding Digest)
    (q : PendingEvaluation Digest) : Prop where
  counted : sends log b ≤ q.sends.toNat
  alike : ∀ m ∈ log, m.req.binding = some b → m.req = q.request
  idle : q.inFlight = false → awaited log k = 0
  sent : ∃ m ∈ log, m.request = k ∧ m.req = q.request
  waiting : ∀ m ∈ log, m.request = k → m.answer = none → m.req = q.request

/-- The calls that were sent for a record. -/
structure TrackedRecord (log : List (Exchange Digest)) (k : Digest) (r : RequestRecord Digest) :
    Prop where
  idle : r.active → r.pending = none →
    sends log (slotBinding k r.receipts.length r.snapshot) = 0 ∧ awaited log k = 0
  pending : ∀ q, r.pending = some q →
    PendingCalls log k (slotBinding k r.receipts.length r.snapshot) q
  stored : ∀ (i : ℕ) v, r.receipts[i]? = some v →
    ∃ m ∈ log, m.request = k ∧ m.req.binding = some (slotBinding k i r.snapshot) ∧
      m.answer = some (some (.ok v))

/-- The call asks for slot `i` of the record, and shows the engine the evidence that the record was
submitted with. -/
def Exchange.Shows (m : Exchange Digest) (s : ExecutorState Digest) (r : RequestRecord Digest)
    (i : ℕ) : Prop :=
  ∃ plan signal, s.plans[r.plan]? = some plan ∧ plan.signals[i]? = some signal ∧
    (∃ o, m.req = ExecutorState.slotRequest m.request r plan o i signal) ∧
    ∀ o, s.operations[r.operation]? = some o → o.revision = r.operationRevision →
      m.req = ExecutorState.slotRequest m.request r plan o i signal

/-- The call is for a slot of a record, the next one at most. -/
def Exchange.ForSlot (m : Exchange Digest) (s : ExecutorState Digest) : Prop :=
  ∃ r i, s.requests[m.request]? = some r ∧ i ≤ r.receipts.length ∧ m.Shows s r i

section Slots
variable {m : Exchange Digest} {i : ℕ}

theorem Exchange.Shows.slot (h : m.Shows s r i) :
    m.req.binding = some (slotBinding m.request i r.snapshot) ∧
      m.req.evaluationId = slotId m.request i r.snapshot := by
  obtain ⟨plan, signal, -, -, ⟨o, hreq⟩, -⟩ := h
  rw [hreq]
  exact ⟨rfl, rfl⟩

theorem slotRequest_congr (ht : ExecutorState.SameTicket r r') {o o' : Operation Digest}
    (ho : o'.evidence = o.evidence) (a : Digest) (plan : Plan Digest) (i : ℕ)
    (signal : RequiredSignal Digest) : ExecutorState.slotRequest a r' plan o' i signal =
      ExecutorState.slotRequest a r plan o i signal := by
  have hsnap : r'.snapshot = r.snapshot := by rw [ht]
  have hexp : r'.expiresAtNs = r.expiresAtNs := by rw [ht]
  simp only [ExecutorState.slotRequest, hsnap, hexp, ho]

/-- Whatever is registered or revised later, the call shows what it showed. -/
theorem Exchange.Shows.mono (h : m.Shows s r i) (ht : ExecutorState.SameTicket r r')
    (hp : Grows Eq s.plans s'.plans)
    (ho : ∀ o', s'.operations[r.operation]? = some o' → o'.revision = r.operationRevision →
      ∃ o, s.operations[r.operation]? = some o ∧ o.revision = r.operationRevision ∧
        o'.evidence = o.evidence) : m.Shows s' r' i := by
  obtain ⟨plan, signal, hplan, hsig, ⟨o, hreq⟩, hcur⟩ := h
  obtain ⟨plan', hplan', rfl⟩ := hp _ plan hplan
  have hplan_eq : r'.plan = r.plan := by rw [ht]
  have hop : r'.operation = r.operation := by rw [ht]
  have hrev : r'.operationRevision = r.operationRevision := by rw [ht]
  refine ⟨plan, signal, by rw [hplan_eq]; exact hplan', hsig,
    ⟨o, hreq.trans (slotRequest_congr ht rfl ..).symm⟩, fun o' ho' he' => ?_⟩
  rw [hop] at ho'
  rw [hrev] at he'
  obtain ⟨o₁, ho₁, he₁, hev⟩ := ho o' ho' he'
  rw [hcur o₁ ho₁ he₁]
  exact (slotRequest_congr ht hev ..).symm

theorem Exchange.Shows.ticket (h : m.Shows s r i) (ht : ExecutorState.SameTicket r r') :
    m.Shows (s.putRequest k r') r' i :=
  h.mono ht (.refl (fun _ => rfl) _) fun o ho he => ⟨o, ho, he, rfl⟩

/-- An operation that is at the revision of a record has the evidence of that revision. -/
theorem Exchange.Shows.change {op : Op Digest} {a : Digest} (h : m.Shows s r i) (he : s.Evidenced)
    (hr : s.requests[a]? = some r) (hch : ExecutorState.Change s op s')
    (ht : ExecutorState.SameTicket r r') : m.Shows s' r' i := by
  refine h.mono ht hch.extends.plans fun o' ho' he' => ?_
  obtain ⟨o, g, p, ho, -, -, -, hfresh⟩ := he a r hr
  obtain ⟨o₂, ho₂, hle, hsame⟩ := hch.revised.1 _ o ho
  cases ho'.symm.trans ho₂
  have heq : o.revision = r.operationRevision :=
    UInt64.le_antisymm (he' ▸ hle) hfresh.operation
  exact ⟨o, ho, heq, (hsame (he'.trans heq.symm)).2.1⟩

end Slots

/-- The calls of the executor and its records. -/
structure Tracked (s : ExecutorState Digest) (log : List (Exchange Digest)) : Prop where
  slot : ∀ m ∈ log, m.ForSlot s
  twice : ∀ b, sends log b ≤ 2
  alike : ∀ m ∈ log, ∀ m' ∈ log, m.req.binding = m'.req.binding → m.req = m'.req
  awaiting : ∀ k, awaited log k ≤ 1
  record : ∀ (k : Digest) r, s.requests[k]? = some r → TrackedRecord log k r

theorem Tracked.empty (self owner engine : Principal) :
    Tracked (.new self owner engine : ExecutorState Digest) [] := by
  refine ⟨fun m hm => absurd hm List.not_mem_nil, fun e => Nat.zero_le 2,
    fun m hm => absurd hm List.not_mem_nil, fun k => Nat.zero_le 1, fun k r hr => ?_⟩
  simp [ExecutorState.new] at hr

/-- No call was sent for another slot of a record than those up to the next one. -/
theorem Tracked.sends_eq_zero (h : Tracked s log) (hv : s.Valid) (he : s.Evidenced) {i : ℕ}
    (snapshot : Digest) (hi : i < 2 ^ 8)
    (hnew : ∀ r, s.requests[k]? = some r → r.receipts.length < i) :
    sends log (slotBinding k i snapshot) = 0 := by
  apply List.countP_eq_zero.mpr
  intro m hm heq
  obtain ⟨r, j, hr, hj, hshows⟩ := h.slot m hm
  have hbind := hshows.slot.1
  have hlt := he.length_lt hv hr
  have hsame := Option.some.inj (hbind.symm.trans (of_decide_eq_true heq))
  obtain ⟨hk, rfl⟩ := ExecutorState.slotBinding_inj (by omega) hi hsame
  have := hnew r (hk ▸ hr)
  omega

theorem Tracked.awaited_eq_zero (h : Tracked s log) (hr : s.requests[k]? = none) :
    awaited log k = 0 := by
  apply List.countP_eq_zero.mpr
  intro m hm heq
  rw [Bool.and_eq_true, decide_eq_true_iff] at heq
  obtain ⟨r, i, hr', -⟩ := h.slot m hm
  rw [heq.1, hr] at hr'
  cases hr'

/-- A call that exchanges no message. -/
theorem Tracked.quiet (h : Tracked s log) (hv : s.Valid) (he : s.Evidenced) (hv' : s'.Valid)
    {op : Op Digest} (hch : ExecutorState.Change s op s') (hq : s.Quiet s') : Tracked s' log := by
  have hext := hch.extends
  refine ⟨fun m hm => ?_, h.twice, h.alike, h.awaiting, fun k r' hr' => ?_⟩
  · obtain ⟨r, i, hr, hi, hshows⟩ := h.slot m hm
    obtain ⟨r', hr', ht⟩ := hext.requests _ r hr
    refine ⟨r', i, hr', ?_, hshows.change he hr hch ht⟩
    obtain ⟨hnone, -⟩ | ⟨r₁, hr₁, hrec, -⟩ := hq _ r' hr'
    · rw [hnone] at hr
      cases hr
    · cases hr.symm.trans hr₁
      rw [hrec]
      exact hi
  · obtain ⟨hnone, hrec, hpend⟩ | ⟨r, hr, hrec, hsame⟩ := hq k r' hr'
    · refine ⟨fun _ _ => ⟨?_, h.awaited_eq_zero hnone⟩, fun q hq => ?_, fun i v hv => ?_⟩
      · refine h.sends_eq_zero hv he _ (by rw [hrec]; exact Nat.two_pow_pos 8) fun r hr => ?_
        rw [hnone] at hr
        cases hr
      · rw [hpend] at hq
        cases hq
      · rw [hrec] at hv
        cases hv
    · have hold := h.record k r hr
      rcases hsame with rfl | hidle
      · exact hold
      · refine ⟨fun ha => absurd ha hidle, fun q hq => ?_, fun i v hv => ?_⟩
        · obtain ⟨o, g, -, -, hok⟩ := hv'.lifecycle.record k r' hr'
          exact absurd (.inr (hok.1.mpr (by rw [hq]; rfl))) hidle
        · obtain ⟨r₁, hr₁, ht⟩ := hext.requests _ r hr
          cases hr'.symm.trans hr₁
          have hsnap : r'.snapshot = r.snapshot := by rw [ht]
          rw [hsnap]
          exact hold.stored i v (hrec ▸ hv)

/-- A call stays one for a slot when its record is replaced. -/
theorem Exchange.ForSlot.put {m : Exchange Digest} (h : m.ForSlot s) (hr : s.requests[k]? = some r)
    (hlen : r.receipts.length ≤ r'.receipts.length) (ht : ExecutorState.SameTicket r r') :
    m.ForSlot (s.putRequest k r') := by
  obtain ⟨r₁, i, hr₁, hi, hshows⟩ := h
  unfold Exchange.ForSlot
  rw [ExecutorState.putRequest_requests, get_insert]
  split
  · next he =>
    rw [he, hr] at hr₁
    cases hr₁
    exact ⟨r', i, rfl, Nat.le_trans hi hlen, hshows.ticket ht⟩
  · exact ⟨r₁, i, hr₁, hi, hshows⟩

/-- One record is replaced; its receipts only get more. -/
theorem Tracked.put (h : Tracked s log) (hr : s.requests[k]? = some r)
    (hlen : r.receipts.length ≤ r'.receipts.length) (ht : ExecutorState.SameTicket r r')
    (hrec : TrackedRecord log k r') : Tracked (s.putRequest k r') log :=
  ⟨fun m hm => (h.slot m hm).put hr hlen ht, h.twice, h.alike, h.awaiting,
    forall_insert h.record hrec⟩

omit [Hashing Digest] in
theorem mem_of_append {m x : Exchange Digest} (h : m ∈ log ++ [x]) : m ∈ log ∨ m = x :=
  (List.mem_append.mp h).imp_right List.mem_singleton.mp

/-- No call of a request is awaited. -/
theorem answer_of_awaited (h : awaited log k = 0) {m : Exchange Digest} (hm : m ∈ log)
    (hk : m.request = k) : m.answer ≠ none := by
  intro hn
  have hfalse := List.countP_eq_zero.mp h m hm
  rw [hk, hn] at hfalse
  exact hfalse (by simp)

theorem sends_send (log : List (Exchange Digest)) (m : Exchange Digest) (b : Binding Digest) :
    sends (log ++ [m]) b = sends log b + if m.req.binding = some b then 1 else 0 := by
  simp only [sends, List.countP_append, List.countP_singleton, decide_eq_true_eq]

theorem awaited_send (log : List (Exchange Digest)) (req : DecisionRequest Digest) (k a : Digest) :
    awaited (log ++ [⟨k, req, none⟩]) a = awaited log a + if k = a then 1 else 0 := by
  simp only [awaited, List.countP_append, List.countP_singleton, Option.isNone_none, Bool.and_true,
    decide_eq_true_eq]

/-- A call is sent for the next slot of a record that waits for none. -/
theorem Tracked.send (h : Tracked s log) (hv : s.Valid) (he : s.Evidenced)
    (hr : s.requests[k]? = some r) {req : DecisionRequest Digest} {n : UInt8}
    (hrec : r'.receipts = r.receipts) (ht : ExecutorState.SameTicket r r')
    (hpend : r'.pending = some ⟨req, true, n⟩) (hslot : Exchange.ForSlot ⟨k, req, none⟩ s)
    (hbind : req.binding = some (slotBinding k r.receipts.length r.snapshot))
    (hn : sends log (slotBinding k r.receipts.length r.snapshot) + 1 ≤ n.toNat) (hn2 : n.toNat ≤ 2)
    (hlike : ∀ m ∈ log, m.req.binding = some (slotBinding k r.receipts.length r.snapshot) →
      m.req = req) (hzero : awaited log k = 0) :
    Tracked (s.putRequest k r') (log ++ [⟨k, req, none⟩]) := by
  have hlt := he.length_lt hv hr
  have hsnap : r'.snapshot = r.snapshot := by rw [ht]
  have hlen : r.receipts.length ≤ r'.receipts.length := Nat.le_of_eq (by rw [hrec])
  -- the evaluation is that of the record's next slot alone
  have hother : ∀ (a : Digest) x, a ≠ k → s.requests[a]? = some x →
      req.binding ≠ some (slotBinding a x.receipts.length x.snapshot) := by
    intro a x hne hx heq
    have hx' := he.length_lt hv hx
    have hsame := Option.some.inj (hbind.symm.trans heq)
    exact hne (ExecutorState.slotBinding_inj (by omega) (by omega) hsame).1.symm
  refine ⟨forall_mem_concat (fun m hm => (h.slot m hm).put hr hlen ht) (hslot.put hr hlen ht),
    fun b => ?_, ?_, fun a => ?_, ?_⟩
  · rw [sends_send]
    split
    · next heq =>
      obtain rfl := Option.some.inj (hbind.symm.trans heq)
      exact Nat.le_trans hn hn2
    · exact h.twice b
  · intro m hm m' hm' heq
    rcases mem_of_append hm with hm | rfl <;> rcases mem_of_append hm' with hm' | rfl
    · exact h.alike m hm m' hm' heq
    · exact hlike m hm (heq.trans hbind)
    · exact (hlike m' hm' (heq.symm.trans hbind)).symm
    · rfl
  · rw [awaited_send]
    split
    · next heq => rw [← heq, hzero]
    · exact h.awaiting a
  · refine forall_insert_of_ne (fun a x hne hx => ?_) ?_
    · obtain ⟨hidle, hpending, hstored⟩ := h.record a x hx
      have hno := hother a x hne hx
      refine ⟨fun ha hp => ?_, fun q hq => ?_, fun i v hi => ?_⟩
      · rw [sends_send, awaited_send, if_neg hno, if_neg hne.symm]
        exact hidle ha hp
      · obtain ⟨hsends, hmsgs, hidle, ⟨m, hm, hsent⟩, hwaiting⟩ := hpending q hq
        refine ⟨?_, forall_mem_concat hmsgs fun heq => absurd heq hno, ?_,
          ⟨m, List.mem_append_left _ hm, hsent⟩,
          forall_mem_concat hwaiting fun heq => absurd heq hne.symm⟩
        · rw [sends_send, if_neg hno]
          exact hsends
        · rw [awaited_send, if_neg hne.symm]
          exact hidle
      · obtain ⟨m, hm, hfit⟩ := hstored i v hi
        exact ⟨m, List.mem_append_left _ hm, hfit⟩
    · refine ⟨fun _ hp => ?_, fun q hq => ?_, fun i v hi => ?_⟩
      · rw [hpend] at hp
        cases hp
      · rw [hpend] at hq
        cases hq
        rw [hrec, hsnap]
        refine ⟨?_, forall_mem_concat hlike fun _ => rfl, fun hf => (by cases hf), ⟨_,
          List.mem_append_right _ (List.mem_singleton_self _), rfl, rfl⟩,
          forall_mem_concat (fun m hm hk hn => ?_) fun _ _ => rfl⟩
        · rw [sends_send, if_pos hbind]
          exact hn
        · exact absurd hn (answer_of_awaited hzero hm hk)
      · rw [hrec] at hi
        rw [hsnap]
        obtain ⟨m, hm, hfit⟩ := (h.record k r hr).stored i v hi
        exact ⟨m, List.mem_append_left _ hm, hfit⟩

/-- An outstanding evaluation is that of the next slot. -/
theorem pending_slot (hv : s.Valid) (he : s.Evidenced) (hr : s.requests[k]? = some r)
    {q : PendingEvaluation Digest} (hq : r.pending = some q) :
    q.request.binding = some (slotBinding k r.receipts.length r.snapshot) := by
  obtain ⟨o, g, p, -, -, -, ha, -⟩ := he k r hr
  obtain ⟨_, _, _, -, -, -, heq⟩ := ha.pending q hq
  rw [heq, (hv.coherent.request k r hr).id_eq]
  rfl

/-- `begin_evaluation` asks for a slot. -/
theorem Tracked.begun (h : Tracked s log) (hv : s.Valid) (he : s.Evidenced) {caller : Principal}
    {now : UInt64} {req : DecisionRequest Digest}
    (hb : s.beginEvaluation caller k now = .ok (s', .ok req)) :
    Tracked s' (log ++ [⟨k, req, none⟩]) := by
  obtain ⟨r, hr, hact, ⟨e, -, hbad, -⟩ | ⟨-, ⟨q, hq, hidle, h2, hres, rfl⟩ |
    ⟨p, required, o, hq, hp, hreq, ho, hres, rfl⟩⟩⟩ := ExecutorState.beginEvaluation_eq_ok hb
  · cases hbad
  · cases hres
    have hbind := pending_slot hv he hr hq
    obtain ⟨hsends, hlike, hzero, ⟨m, hm, rfl, hsent⟩, -⟩ := (h.record k r hr).pending q hq
    have hslot : Exchange.ForSlot ⟨m.request, q.request, none⟩ s := by
      have := h.slot m hm
      unfold Exchange.ForSlot Exchange.Shows at this ⊢
      rw [hsent] at this
      exact this
    have hlt : q.sends.toNat < 2 := UInt8.lt_iff_toNat_lt.mp h2
    have hn : (q.sends + 1).toNat = q.sends.toNat + 1 := by
      have hone : (1 : UInt8).toNat = 1 := rfl
      rw [UInt8.toNat_add, Nat.mod_eq_of_lt (by omega), hone]
    refine h.send hv he hr rfl rfl rfl hslot hbind ?_ ?_ hlike (hzero hidle)
    · rw [hn]
      exact Nat.succ_le_succ hsends
    · rw [hn]
      exact hlt
  · cases hres
    obtain ⟨hsends, hzero⟩ := (h.record k r hr).idle hact hq
    have hslot : Exchange.ForSlot
        ⟨k, ExecutorState.slotRequest k r p o r.receipts.length required, none⟩ s := by
      refine ⟨r, _, hr, Nat.le_refl _, p, required, hp, hreq, ⟨o, rfl⟩, fun o' ho' _ => ?_⟩
      cases ho.symm.trans ho'
      rfl
    refine h.send hv he hr rfl rfl rfl hslot rfl ?_ ?_ (fun m hm heq => ?_) hzero
    · exact Nat.succ_le_succ (Nat.le_of_eq hsends)
    · decide
    · exact absurd (decide_eq_true heq) (List.countP_eq_zero.mp hsends m hm)

/-- `begin_evaluation` finds the request outdated. -/
theorem quiet_begun {caller : Principal} {now : UInt64} {e : Error}
    (hb : s.beginEvaluation caller k now = .ok (s', .error e)) : s.Quiet s' := by
  obtain ⟨r, hr, -, ⟨_, -, -, rfl⟩ | ⟨-, ⟨q, -, -, -, hres, -⟩ |
    ⟨p, required, o, -, -, -, -, hres, -⟩⟩⟩ := ExecutorState.beginEvaluation_eq_ok hb
  · exact .insert rfl hr rfl (ExecutorState.not_active nofun nofun)
  · cases hres
  · cases hres

section Answers
variable {i : ℕ} {m : Exchange Digest} {outcome : Option (Result (Receipt Digest))}

theorem sends_answer (hm : log[i]? = some m) (outcome : Option (Result (Receipt Digest)))
    (b : Binding Digest) : sends (log.set i { m with answer := some outcome }) b = sends log b := by
  have hsends : ∀ log : List (Exchange Digest),
      sends log b = (log.map Exchange.req).countP fun req => decide (req.binding = some b) := by
    intro log
    rw [List.countP_map]
    rfl
  have hsame : (log.set i { m with answer := some outcome }).map Exchange.req =
      log.map Exchange.req := map_set_same Exchange.req hm rfl
  rw [hsends, hsends, hsame]

/-- What is answered is no longer awaited. -/
theorem awaited_answer (hm : log[i]? = some m) (hn : m.answer = none)
    (outcome : Option (Result (Receipt Digest))) (k : Digest) :
    awaited (log.set i { m with answer := some outcome }) k =
      awaited log k - if m.request = k then 1 else 0 := by
  obtain ⟨hi, rfl⟩ := List.getElem?_eq_some_iff.mp hm
  simp only [awaited, List.countP_set hi, hn, Option.isNone_none, Option.isNone_some, Bool.and_true,
    Bool.and_false, decide_eq_true_eq, Bool.false_eq_true, if_false, Nat.add_zero]

theorem Tracked.answer (h : Tracked s log) (hm : log[i]? = some m) (hn : m.answer = none)
    (outcome : Option (Result (Receipt Digest))) :
    Tracked s (log.set i { m with answer := some outcome }) := by
  have hmem := List.mem_of_getElem? hm
  have hsub : ∀ a, awaited (log.set i { m with answer := some outcome }) a ≤ awaited log a :=
    fun a => awaited_answer hm hn outcome a ▸ Nat.sub_le ..
  refine ⟨forall_mem_set h.slot (h.slot m hmem), fun e => ?_, ?_,
    fun a => Nat.le_trans (hsub a) (h.awaiting a), fun a x hx => ?_⟩
  · rw [sends_answer hm]
    exact h.twice e
  · exact forall_mem_set (fun x hx => forall_mem_set (h.alike x hx) (h.alike x hx m hmem))
      (forall_mem_set (h.alike m hmem) fun _ => rfl)
  · obtain ⟨hidle, hpending, hstored⟩ := h.record a x hx
    refine ⟨fun ha hp => ?_, fun q hq => ?_, fun j v hj => ?_⟩
    · obtain ⟨hsends, hzero⟩ := hidle ha hp
      exact ⟨by rw [sends_answer hm]; exact hsends, Nat.le_zero.mp (hzero ▸ hsub a)⟩
    · obtain ⟨hsends, hlike, hzero, ⟨x, hx, hsent⟩, hwaiting⟩ := hpending q hq
      refine ⟨by rw [sends_answer hm]; exact hsends, forall_mem_set hlike (hlike m hmem),
        fun hf => Nat.le_zero.mp (hzero hf ▸ hsub a), ?_,
        forall_mem_set hwaiting fun _ hans => (by cases hans)⟩
      rcases mem_set_of_mem hx hm with rfl | hx
      · exact ⟨_, mem_set_self hm, hsent⟩
      · exact ⟨x, hx, hsent⟩
    · obtain ⟨x, hx, hk, hbind, hans⟩ := hstored j v hj
      rcases mem_set_of_mem hx hm with rfl | hx
      · rw [hn] at hans
        cases hans
      · exact ⟨x, hx, hk, hbind, hans⟩

/-- A record waits for one call at most. -/
theorem Tracked.answered (h : Tracked s log) (hm : log[i]? = some m) (hn : m.answer = none)
    (outcome : Option (Result (Receipt Digest))) :
    awaited (log.set i { m with answer := some outcome }) m.request = 0 := by
  have := h.awaiting m.request
  rw [awaited_answer hm hn, if_pos rfl]
  omega

/-- The reply of a call is stored as the receipt of its slot, or not at all. -/
theorem Tracked.finished (h : Tracked s log) (hv : s.Valid) (he : s.Evidenced)
    (hm : log[i]? = some m) (hn : m.answer = none) (result : Result (Receipt Digest)) {now : UInt64}
    {res : Result Status}
    (hf : s.finishEvaluation m.request m.req.evaluationId result now = .ok (s', res)) :
    s.Quiet s' ∨ Tracked s' (log.set i { m with answer := some (some result) }) := by
  obtain ⟨r, hr, ⟨rfl, -⟩ | ⟨-, hst, q, hq, -, ⟨e, -, -, rfl⟩ |
    ⟨p, required, -, hp, hreq, rfl, -⟩⟩⟩ := ExecutorState.finishEvaluation_eq_ok hf
  · exact .inl (.of_requests rfl)
  · exact .inl (.insert rfl hr rfl (ExecutorState.not_active nofun nofun))
  right
  have hans := h.answer hm hn (some result)
  have hzero := h.answered hm hn (some result)
  have hsent := ((h.record _ r hr).pending q hq).waiting m (List.mem_of_getElem? hm) rfl hn
  have hbind := pending_slot hv he hr hq
  obtain ⟨-, -, hstored⟩ := hans.record _ r hr
  generalize hj : ExecutorState.judge q.request required result = judged
  cases judged with
  | error e =>
    refine hans.put hr (Nat.le_refl _) rfl ⟨fun hact => ?_, fun q hq => (by cases hq), hstored⟩
    exact absurd hact (ExecutorState.not_active nofun nofun)
  | ok x =>
    obtain ⟨v, pass⟩ := x
    have hres : result = .ok v := by
      simp only [ExecutorState.judge, bind_eq_ok, pure_eq_ok, Prod.mk.injEq] at hj
      obtain ⟨v', hv', _, _, _, _, rfl, _⟩ := hj
      exact hv'
    have hlt := he.length_lt hv hr
    refine hans.put hr ?_ rfl ⟨fun _ _ => ⟨?_, hzero⟩, fun q hq => (by cases hq), fun j w hw => ?_⟩
    · rw [ExecutorState.afterOutcome, List.length_append]
      exact Nat.le_add_right _ _
    · refine hans.sends_eq_zero hv he _ ?_ fun r₁ hr₁ => ?_
      · rw [ExecutorState.afterOutcome, List.length_append]
        exact hlt
      · cases hr.symm.trans hr₁
        rw [ExecutorState.afterOutcome, List.length_append]
        exact Nat.lt_succ_self _
    · rw [ExecutorState.afterOutcome, List.getElem?_append] at hw
      split at hw
      · exact hstored j w hw
      · next hge =>
        rw [List.getElem?_singleton] at hw
        split at hw
        · next hj0 =>
          obtain rfl : j = r.receipts.length := by omega
          cases hw
          rw [hres]
          exact ⟨_, mem_set_self hm, rfl, by rw [hsent]; exact hbind, rfl⟩
        · cases hw

/-- A transport failure leaves the record without a call, and with an evaluation to send again or
for review. -/
theorem Tracked.transport (h : Tracked s log) (hm : log[i]? = some m) (hn : m.answer = none)
    (hf : s.engineTransportFailed m.request m.req.evaluationId = .ok s') :
    s.Quiet s' ∨ Tracked s' (log.set i { m with answer := some none }) := by
  obtain ⟨r, q, hr, hst, hq, hid, rfl⟩ := ExecutorState.engineTransportFailed_eq_ok hf
  unfold ExecutorState.afterTransportFailure
  split
  · exact .inl (.insert rfl hr rfl (ExecutorState.not_active nofun nofun))
  · right
    have hans := h.answer hm hn none
    obtain ⟨-, hpending, hstored⟩ := hans.record _ r hr
    obtain ⟨hsends, hlike, -, hsent, hwaiting⟩ := hpending q hq
    refine hans.put hr (Nat.le_refl _) rfl ⟨fun _ hp => (by cases hp), fun q' hq' => ?_, hstored⟩
    cases hq'
    exact ⟨hsends, hlike, fun _ => h.answered hm hn none, hsent, hwaiting⟩

theorem fresh_callback (s : ExecutorState Digest) (m : Exchange Digest) (now : UInt64)
    (outcome : Option (Result (Receipt Digest))) : s.FreshFor (m.callback now outcome) := by
  cases outcome <;> trivial

/-- The callback of a call. -/
theorem Tracked.delivered (h : Tracked s log) (hv : s.Valid) (he : s.Evidenced)
    (hm : log[i]? = some m) (hn : m.answer = none) (now : UInt64)
    (outcome : Option (Result (Receipt Digest))) :
    Tracked (s.step (m.callback now outcome)) (log.set i { m with answer := some outcome }) := by
  have hch := ExecutorState.change_of_fresh hv.coherent _ (fresh_callback s m now outcome)
  suffices hs : s.Quiet (s.step (m.callback now outcome)) ∨
      Tracked (s.step (m.callback now outcome)) (log.set i { m with answer := some outcome }) from
    hs.elim (fun hq => (h.answer hm hn outcome).quiet hv he (hv.change hch) hch hq) id
  cases outcome with
  | none =>
    simp only [Exchange.callback, ExecutorState.step]
    cases hf : s.engineTransportFailed m.request m.req.evaluationId with
    | error e => exact .inl (.of_requests rfl)
    | ok s' => exact h.transport hm hn hf
  | some result =>
    simp only [Exchange.callback, ExecutorState.step]
    cases hf : s.finishEvaluation m.request m.req.evaluationId result now with
    | error e => exact .inl (.of_requests rfl)
    | ok x => exact h.finished hv he hm hn result hf

end Answers

end Exchanges

end IcLaya
