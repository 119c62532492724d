import IcLaya.WorkflowRuns

/-!
# What each operation does when it succeeds

One inversion lemma for each operation: a call that returns `Ok` passed all its guards and left
this state. Callers cite these and never unfold the operation.
-/
namespace IcLaya
open CheckedWords Fallible OrderedMaps

variable {Digest : Type} [Hashing Digest]

section GrantArithmetic
omit [Hashing Digest]

theorem Grant.eligible_eq_ok {g : Grant Digest} {caller : Principal} {p : TransferProposal}
    {now : UInt64} : g.eligible caller p now = .ok () ↔
      (caller = g.delegate ∧ g.revoked = false ∧ now < g.expiresAtNs) ∧
      (g.ledger = p.ledger ∧ g.fromSubaccount = p.fromSubaccount ∧ p.toAccount ∈ g.recipients ∧
        p.amount ≤ g.maxAmount ∧ p.fee ≤ g.maxFee) ∧ p.validate = .ok () := by
  simp only [eligible, bind_eq_ok, rejectIf_eq_ok, not_or, not_not, UInt64.not_le,
    BitVec.not_lt, Bool.not_eq_true]
  constructor
  · rintro ⟨_, h1, _, h2, h3⟩
    exact ⟨h1, h2, h3⟩
  · rintro ⟨h1, h2, h3⟩
    exact ⟨(), h1, (), h2, h3⟩

private theorem exists_twofold_sum {a b c : U128} (h : a.toNat + b.toNat + c.toNat < 2 ^ 128) :
    ∃ t : U128, (∃ t₀ : U128, t₀.toNat = a.toNat + b.toNat ∧ t.toNat = t₀.toNat + c.toNat) := by
  obtain ⟨t₀, h₀⟩ := exists_checkedAdd (a := a) (b := b) (by omega)
  rw [checkedAdd_eq_some] at h₀
  obtain ⟨t, ht⟩ := exists_checkedAdd (a := t₀) (b := c) (by omega)
  exact ⟨t, t₀, h₀, checkedAdd_eq_some.mp ht⟩

/-- A reservation is granted exactly when there is room for it, and then enters both books. -/
theorem Grant.reserve_eq_ok {g g' : Grant Digest} {c : U128} {e : UInt64} :
    g.reserve c e = .ok g' ↔
    (g.windows.contains e = false → g.windows.size < 64) ∧
      ∃ tr wr : U128, tr.toNat = g.total.reserved.toNat + c.toNat ∧
      wr.toNat = (g.windows[e]?.getD default).reserved.toNat + c.toNat ∧
      g.total.spent.toNat + tr.toNat ≤ g.totalCap.toNat ∧
      (g.windows[e]?.getD default).spent.toNat + wr.toNat ≤ g.windowCap.toNat ∧
      g' = { g with
        total := ⟨g.total.spent, tr⟩
        windows := g.windows.insert e ⟨(g.windows[e]?.getD default).spent, wr⟩ } := by
  simp only [reserve, bind_eq_ok, rejectIf_eq_ok, okOr_eq_ok, Option.bind_eq_some_iff,
    checkedAdd_eq_some, pure_eq_ok, not_and, not_or, Nat.not_le, Bool.not_eq_true,
    BitVec.not_lt, BitVec.le_def]
  constructor
  · rintro ⟨_, hw, t, ⟨t₀, ht₀, ht⟩, w, ⟨w₀, hw₀, hw'⟩, _, ⟨hct, hcw⟩, tr, htr, wr, hwr, rfl⟩
    exact ⟨hw, tr, wr, htr, hwr, by omega, by omega, rfl⟩
  · rintro ⟨hw, tr, wr, htr, hwr, hct, hcw, rfl⟩
    have hT := g.totalCap.isLt
    have hW := g.windowCap.isLt
    obtain ⟨t, t₀, ht₀, ht⟩ := exists_twofold_sum
      (a := g.total.spent) (b := g.total.reserved) (c := c) (by omega)
    obtain ⟨w, w₀, hw₀, hw'⟩ := exists_twofold_sum (a := (g.windows[e]?.getD default).spent)
      (b := (g.windows[e]?.getD default).reserved) (c := c) (by omega)
    exact ⟨(), hw, t, ⟨t₀, ht₀, ht⟩, w, ⟨w₀, hw₀, hw'⟩, (), ⟨by omega, by omega⟩, tr, htr,
      wr, hwr, rfl⟩

/-- A settlement takes the charge out of both books and, on success, counts it as spent. -/
theorem Grant.settle_eq_ok {g g' : Grant Digest} {c : U128} {e : UInt64} {success : Bool} :
    g.settle c e success = .ok g' ↔
    ∃ (old : Usage) (ts tr ws wr : U128), g.windows[e]? = some old ∧
      g.total.reserved.toNat = tr.toNat + c.toNat ∧ old.reserved.toNat = wr.toNat + c.toNat ∧
      ts.toNat = g.total.spent.toNat + (if success then c.toNat else 0) ∧
      ws.toNat = old.spent.toNat + (if success then c.toNat else 0) ∧
      g' = { g with total := ⟨ts, tr⟩, windows := g.windows.insert e ⟨ws, wr⟩ } := by
  cases success with
  | true =>
    simp only [settle, if_true, bind_eq_ok, okOr_eq_ok, checkedSub_eq_some, checkedAdd_eq_some,
      pure_eq_ok]
    constructor
    · rintro ⟨old, hold, tr, htr, wr, hwr, ts, hts, ws, hws, rfl⟩
      exact ⟨old, ts, tr, ws, wr, hold, htr, hwr, hts, hws, rfl⟩
    · rintro ⟨old, ts, tr, ws, wr, hold, htr, hwr, hts, hws, rfl⟩
      exact ⟨old, hold, tr, htr, wr, hwr, ts, hts, ws, hws, rfl⟩
  | false =>
    simp only [settle, Bool.false_eq_true, if_false, bind_eq_ok, okOr_eq_ok, checkedSub_eq_some,
      pure_eq_ok, Nat.add_zero, BitVec.toNat_inj]
    constructor
    · rintro ⟨old, hold, tr, htr, wr, hwr, ts, hts, ws, hws, rfl⟩
      exact ⟨old, ts, tr, ws, wr, hold, htr, hwr, hts.symm, hws.symm, rfl⟩
    · rintro ⟨old, ts, tr, ws, wr, hold, htr, hwr, hts, hws, rfl⟩
      exact ⟨old, hold, tr, htr, wr, hwr, ts, hts.symm, ws, hws.symm, rfl⟩

end GrantArithmetic

namespace ExecutorState
variable {s s' : ExecutorState Digest}

@[simp] theorem assertOwner_eq_ok {caller : Principal} {u : Unit} :
    s.assertOwner caller = .ok u ↔ caller = s.owner ∧ caller ≠ .anonymous := by
  simp [assertOwner]

theorem owned_eq_ok {caller : Principal} {id : Digest} {r : RequestRecord Digest} :
    s.owned caller id = .ok r ↔
      s.requests[id]? = some r ∧ (caller = r.caller ∨ caller = s.owner) := by
  simp only [owned, bind_eq_ok, okOr_eq_ok, rejectIf_eq_ok, pure_eq_ok]
  constructor
  · rintro ⟨_, h1, _, h2, rfl⟩
    exact ⟨h1, by tauto⟩
  · rintro ⟨h1, h2⟩
    exact ⟨r, h1, (), by tauto, rfl⟩

theorem current_eq_ok {r : RequestRecord Digest} {now : UInt64} :
    s.current r now = .ok () ↔ s.paused = false ∧ now < r.expiresAtNs ∧
      ∃ o g p, s.operations[r.operation]? = some o ∧ s.grants[r.grant]? = some g ∧
        s.plans[r.plan]? = some p ∧ g.eligible r.caller o.proposal now = .ok () ∧
        o.revision = r.operationRevision ∧ g.revision = r.grantRevision ∧
        snapshot o g p = r.snapshot := by
  simp only [current, bind_eq_ok, rejectIf_eq_ok, okOr_eq_ok, not_or, not_not, UInt64.not_le,
    Bool.not_eq_true]
  constructor
  · rintro ⟨_, h1, _, h2, o, h3, g, h4, p, h5, _, h6, h7⟩
    exact ⟨h1, h2, o, g, p, h3, h4, h5, h6, h7⟩
  · rintro ⟨h1, h2, o, g, p, h3, h4, h5, h6, h7⟩
    exact ⟨(), h1, (), h2, o, h3, g, h4, p, h5, (), h6, h7⟩

theorem setMode_eq_ok {caller : Principal} {mode : Mode} (h : s.setMode caller mode = .ok s') :
    mode ≠ .limitedLive ∧ s' = { s with mode := mode } := by
  simp only [setMode, bind_eq_ok, rejectIf_eq_ok, pure_eq_ok] at h
  obtain ⟨_, _, _, hm, rfl⟩ := h
  exact ⟨hm, rfl⟩

theorem setPaused_eq_ok {caller : Principal} {pause : Bool}
    (h : s.setPaused caller pause = .ok s') : s' = { s with paused := pause } := by
  simp only [setPaused, bind_eq_ok, pure_eq_ok] at h
  obtain ⟨_, _, rfl⟩ := h
  rfl

theorem addMockLedger_eq_ok {caller ledger : Principal}
    (h : s.addMockLedger caller ledger = .ok s') :
    ∃ ledgers, s' = { s with mockLedgers := ledgers } := by
  simp only [addMockLedger, bind_eq_ok] at h
  obtain ⟨_, _, h⟩ := h
  split at h
  · exact ⟨s.mockLedgers, (pure_eq_ok.mp h).symm⟩
  · simp only [bind_eq_ok, pure_eq_ok] at h
    obtain ⟨_, _, rfl⟩ := h
    exact ⟨_, rfl⟩

theorem installPlan_eq_ok {caller : Principal} {p : Plan Digest}
    (h : s.installPlan caller p = .ok s') :
    p.validate = .ok () ∧ (s' = s ∨ s.plans[p.id]? = none ∧
      s' = { s with plans := s.plans.insert p.id p }) := by
  simp only [installPlan, bind_eq_ok] at h
  obtain ⟨_, _, _, hv, h⟩ := h
  refine ⟨hv, ?_⟩
  split at h
  · left
    split at h
    · exact (pure_eq_ok.mp h).symm
    · simp at h
  · next hn =>
    right
    simp only [bind_eq_ok, pure_eq_ok] at h
    obtain ⟨_, _, rfl⟩ := h
    exact ⟨hn, rfl⟩

theorem installOperation_eq_ok {caller : Principal} {o : Operation Digest}
    (h : s.installOperation caller o = .ok s') :
    o.proposal.validate = .ok () ∧ o.evidence.utf8ByteSize ≤ maxStateBytes ∧
      o.status = .available ∧ s.operations[o.id]? = none ∧
      s' = { s with operations := s.operations.insert o.id o } := by
  simp only [installOperation, bind_eq_ok, rejectIf_eq_ok, pure_eq_ok, not_or, not_lt,
    not_not, Bool.not_eq_true, contains_false_iff_get] at h
  obtain ⟨_, _, _, hv, _, ⟨_, _, _, hl, hs⟩, _, hn, _, _, rfl⟩ := h
  exact ⟨hv, hl, hs, hn, rfl⟩

theorem reviseOperation_eq_ok {caller : Principal} {id : Digest} {evidence : String}
    (h : s.reviseOperation caller id evidence = .ok s') :
    ∃ o rev, s.operations[id]? = some o ∧ evidence.utf8ByteSize ≤ maxStateBytes ∧
      o.status = .available ∧ rev.toNat = o.revision.toNat + 1 ∧
      s' = { s with
        operations := s.operations.insert id { o with evidence := evidence, revision := rev } } := by
  simp only [reviseOperation, bind_eq_ok, rejectIf_eq_ok, okOr_eq_ok, pure_eq_ok, not_or, not_lt,
    not_not, checkedAdd64_eq_some] at h
  obtain ⟨_, _, _, ⟨_, hl⟩, o, ho, _, hs, rev, hrev, rfl⟩ := h
  exact ⟨o, rev, ho, hl, hs, hrev, rfl⟩

theorem installGrant_eq_ok {caller : Principal} {g : Grant Digest}
    (h : s.installGrant caller g = .ok s') :
    g.windowNs ≠ 0 ∧ g.total = default ∧ g.windows = ∅ ∧ g.recipients.length ≤ 16 ∧
      (∃ p, s.plans[g.plan]? = some p) ∧ s.grants[g.id]? = none ∧
      s' = { s with grants := s.grants.insert g.id g } := by
  simp only [installGrant, bind_eq_ok, rejectIf_eq_ok, pure_eq_ok, not_or, not_lt,
    not_not, Bool.not_eq_true, contains_iff_get,
    Std.ExtTreeMap.isEmpty_iff] at h
  obtain ⟨_, _, _, ⟨_, _, _, hw, ht, hws, _, _, hl, _⟩, _, _, _, hp, _, hg, _, _, rfl⟩ := h
  rw [← contains_iff_get, Bool.not_eq_true, contains_false_iff_get] at hg
  exact ⟨hw, ht, hws, hl, hp, hg, rfl⟩

theorem revoke_eq_ok {caller : Principal} {id : Digest} (h : s.revoke caller id = .ok s') :
    ∃ g rev, s.grants[id]? = some g ∧ rev.toNat = g.revision.toNat + 1 ∧
      s' = { s with grants := s.grants.insert id { g with revoked := true, revision := rev } } := by
  simp only [revoke, bind_eq_ok, okOr_eq_ok, pure_eq_ok, checkedAdd64_eq_some] at h
  obtain ⟨_, _, g, hg, rev, hrev, rfl⟩ := h
  exact ⟨g, rev, hg, hrev, rfl⟩

/-- The record a fresh submission installs. -/
def newRecord (s : ExecutorState Digest) (caller : Principal) (nonce : UInt64)
    (operation grant : Digest) (o : Operation Digest) (g : Grant Digest) (p : Plan Digest)
    (expires : UInt64) : RequestRecord Digest :=
  { id := s.requestId caller nonce, caller, nonce, operation, grant, plan := g.plan,
    operationRevision := o.revision, grantRevision := g.revision, snapshot := snapshot o g p,
    expiresAtNs := min expires g.expiresAtNs, status := .received, receipts := [],
    pending := none, reservation := none, frozen := none, ledgerAttempt := 0,
    everUnknown := false }

/-- A submission either repeats one that was accepted or installs a fresh record. -/
theorem submit_eq_ok {caller : Principal} {nonce now : UInt64} {operation grant id : Digest}
    (h : s.submit caller nonce operation grant now = .ok (s', id)) :
    id = s.requestId caller nonce ∧ (s' = s ∧ (∃ r, s.requests[id]? = some r) ∨
      ∃ o g p expires next, nonce = s.nextNonce[caller]?.getD 0 ∧
        s.operations[operation]? = some o ∧ s.grants[grant]? = some g ∧
        s.plans[g.plan]? = some p ∧ g.eligible caller o.proposal now = .ok () ∧
        o.status = .available ∧ next.toNat = nonce.toNat + 1 ∧
        s' = { s with
          requests := s.requests.insert (s.requestId caller nonce)
            (s.newRecord caller nonce operation grant o g p expires)
          nextNonce := s.nextNonce.insert caller next }) := by
  simp only [submit, bind_eq_ok, rejectIf_eq_ok] at h
  obtain ⟨_, _, _, _, h⟩ := h
  split at h
  · split at h
    · next r hr =>
      split at h
      · obtain ⟨rfl, rfl⟩ := Prod.mk.inj (pure_eq_ok.mp h)
        exact ⟨rfl, .inl ⟨rfl, r, hr⟩⟩
      · simp at h
    · simp at h
  · next hlt =>
    simp only [bind_eq_ok, rejectIf_eq_ok, okOr_eq_ok, pure_eq_ok, checkedAdd64_eq_some,
      Prod.mk.injEq, not_not] at h
    obtain ⟨_, hle, _, _, g, hg, o, ho, _, he, _, hs, p, hp, expires, _, next, hnext, rfl, rfl⟩ := h
    have hn : nonce = s.nextNonce[caller]?.getD 0 := UInt64.le_antisymm (UInt64.not_lt.mp hle) (UInt64.not_lt.mp hlt)
    refine ⟨rfl, .inr ⟨o, g, p, expires, next, hn, ho, hg, hp, he, hs, ?_, rfl⟩⟩
    rw [hn]
    exact hnext

/-- A begun evaluation is a new one, one that is sent again, or a request found outdated. -/
theorem beginEvaluation_eq_ok {caller : Principal} {id : Digest} {now : UInt64}
    {res : Result (DecisionRequest Digest)}
    (h : s.beginEvaluation caller id now = .ok (s', res)) :
    ∃ r, s.requests[id]? = some r ∧ (r.status = .received ∨ r.status = .evaluating) ∧
      ((∃ e, s.current r now = .error e ∧ res = .error e ∧
          s' = s.putRequest id { r with status := .stale, pending := none }) ∨
        s.current r now = .ok () ∧
        ((∃ q, r.pending = some q ∧ q.inFlight = false ∧ q.sends < 2 ∧ res = .ok q.request ∧
          s' = s.putRequest id
            { r with pending := some { q with inFlight := true, sends := q.sends + 1 } }) ∨
        ∃ p required o, r.pending = none ∧ s.plans[r.plan]? = some p ∧
          p.signals[r.receipts.length]? = some required ∧ s.operations[r.operation]? = some o ∧
          res = .ok (slotRequest id r p o r.receipts.length required) ∧
          s' = s.putRequest id
            { r with
              pending := some ⟨slotRequest id r p o r.receipts.length required, true, 1⟩
              status := .evaluating })) := by
  simp only [beginEvaluation, bind_eq_ok, rejectIf_eq_ok, owned_eq_ok] at h
  obtain ⟨r, ⟨hr, _⟩, _, hs, h⟩ := h
  refine ⟨r, hr, by tauto, ?_⟩
  split at h
  · next e he =>
    obtain ⟨rfl, rfl⟩ := Prod.mk.inj (pure_eq_ok.mp h)
    exact .inl ⟨e, he, rfl, rfl⟩
  · next hcur =>
    refine .inr ⟨hcur, ?_⟩
    split at h
    · next q hq =>
      simp only [bind_eq_ok, rejectIf_eq_ok, pure_eq_ok, Prod.mk.injEq, UInt8.not_le,
        Bool.not_eq_true] at h
      obtain ⟨_, hb, _, h2, rfl, rfl⟩ := h
      exact .inl ⟨q, hq, hb, h2, rfl, rfl⟩
    · next hq =>
      simp only [bind_eq_ok, okOr_eq_ok, pure_eq_ok, Prod.mk.injEq] at h
      obtain ⟨p, hp, required, hreq, o, ho, rfl, rfl⟩ := h
      exact .inr ⟨p, required, o, hq, hp, hreq, ho, rfl, rfl⟩

/-- The record after the engine call for its outstanding evaluation failed in transport. -/
def afterTransportFailure (r : RequestRecord Digest) (q : PendingEvaluation Digest) :
    RequestRecord Digest :=
  if 2 ≤ q.sends then { r with status := .needsReview "engine retry limit", pending := none }
  else { r with pending := some { q with inFlight := false } }

theorem engineTransportFailed_eq_ok {id evalId : Digest}
    (h : s.engineTransportFailed id evalId = .ok s') :
    ∃ r q, s.requests[id]? = some r ∧ r.status = .evaluating ∧ r.pending = some q ∧
      q.request.evaluationId = evalId ∧ s' = s.putRequest id (afterTransportFailure r q) := by
  simp only [engineTransportFailed, bind_eq_ok, rejectIf_eq_ok, okOr_eq_ok, not_not] at h
  obtain ⟨r, hr, _, hs, q, hq, _, he, h⟩ := h
  refine ⟨r, q, hr, hs, hq, he, ?_⟩
  unfold afterTransportFailure
  split at h
  · next hl => rw [if_pos hl]; exact (pure_eq_ok.mp h).symm
  · next hl => rw [if_neg hl]; exact (pure_eq_ok.mp h).symm

/-- A reply is a repeated one, finds the request outdated, or ends the outstanding evaluation. -/
theorem finishEvaluation_eq_ok {id evalId : Digest} {result : Result (Receipt Digest)}
    {now : UInt64} {res : Result Status}
    (h : s.finishEvaluation id evalId result now = .ok (s', res)) :
    ∃ r, s.requests[id]? = some r ∧
      (s' = s ∧ storedAnswer r evalId result = some res ∨
        storedAnswer r evalId result = none ∧ r.status = .evaluating ∧
        ∃ q, r.pending = some q ∧ q.request.evaluationId = evalId ∧
        ((∃ e, s.current r now = .error e ∧ res = .error e ∧
          s' = s.putRequest id { r with status := .stale, pending := none }) ∨
        ∃ p required, s.current r now = .ok () ∧ s.plans[r.plan]? = some p ∧
          p.signals[r.receipts.length]? = some required ∧
          s' = s.putRequest id
            (afterOutcome r p.signals.length (judge q.request required result)) ∧
          res = .ok (afterOutcome r p.signals.length (judge q.request required result)).status)) := by
  simp only [finishEvaluation, bind_eq_ok, okOr_eq_ok] at h
  obtain ⟨r, hr, h⟩ := h
  refine ⟨r, hr, ?_⟩
  split at h
  · next answer ha =>
    obtain ⟨rfl, rfl⟩ := Prod.mk.inj (pure_eq_ok.mp h)
    exact .inl ⟨rfl, ha⟩
  · next ha =>
    simp only [bind_eq_ok, rejectIf_eq_ok, okOr_eq_ok, not_not] at h
    obtain ⟨_, hs, q, hq, _, he, h⟩ := h
    refine .inr ⟨ha, hs, q, hq, he, ?_⟩
    split at h
    · next e hc =>
      obtain ⟨rfl, rfl⟩ := Prod.mk.inj (pure_eq_ok.mp h)
      exact .inl ⟨e, hc, rfl, rfl⟩
    · next hc =>
      simp only [bind_eq_ok, okOr_eq_ok, pure_eq_ok, Prod.mk.injEq] at h
      obtain ⟨p, hp, required, hreq, rfl, rfl⟩ := h
      exact .inr ⟨p, required, hc, hp, hreq, rfl, rfl⟩

theorem checkReceipt_eq_ok {id : Digest} {r : RequestRecord Digest} {p : Plan Digest}
    {signal : RequiredSignal Digest} {v : Receipt Digest} {i : ℕ} :
    checkReceipt id r p ((signal, v), i) = .ok () ↔
      v.stamp.binding = some ⟨id, UInt8.ofNat i, 0, r.snapshot⟩ ∧ v.stamp.model = p.model ∧
      v.stamp.schemaHash = signal.schema.schemaHash ∧
      v.stamp.calibration = some signal.calibration ∧ checkRule signal v = .ok true := by
  simp only [checkReceipt, bind_eq_ok, rejectIf_eq_ok, not_or, not_not]
  constructor
  · rintro ⟨_, ⟨h1, h2, h3, h4⟩, pass, h5, h6⟩
    exact ⟨h1, h2, h3, h4, by rw [h5, h6]⟩
  · rintro ⟨h1, h2, h3, h4, h5⟩
    exact ⟨(), ⟨h1, h2, h3, h4⟩, true, h5, rfl⟩

theorem authorize_eq_ok {caller : Principal} {id : Digest} {now : UInt64}
    {a : AuthorizedTransfer Digest} :
    s.authorize caller id now = .ok a ↔
    ∃ r p o, s.requests[id]? = some r ∧ (caller = r.caller ∨ caller = s.owner) ∧
      s.current r now = .ok () ∧ r.status = .readyToDispatch ∧ r.pending = none ∧
      s.plans[r.plan]? = some p ∧ r.receipts.length = p.signals.length ∧
      (∀ e ∈ (p.signals.zip r.receipts).zipIdx, checkReceipt id r p e = .ok ()) ∧
      s.operations[r.operation]? = some o ∧ o.status = .available ∧ a = ⟨id, r.snapshot⟩ := by
  simp only [authorize, bind_eq_ok, rejectIf_eq_ok, okOr_eq_ok, pure_eq_ok, owned_eq_ok,
    forM_eq_ok, not_or, not_not, Bool.not_eq_true, Option.isSome_eq_false_iff,
    Option.isNone_iff_eq_none]
  constructor
  · rintro ⟨r, ⟨hr, hcaller⟩, _, hc, _, ⟨hs, hn⟩, p, hp, _, hl, _, hall, o, ho, _, hst, rfl⟩
    exact ⟨r, p, o, hr, hcaller, hc, hs, hn, hp, hl, hall, ho, hst, rfl⟩
  · rintro ⟨r, p, o, hr, hcaller, hc, hs, hn, hp, hl, hall, ho, hst, rfl⟩
    exact ⟨r, ⟨hr, hcaller⟩, (), hc, (), ⟨hs, hn⟩, p, hp, (), hl, (), hall, o, ho, (), hst, rfl⟩

/-- The record after its dispatch was prepared. -/
def dispatched (r : RequestRecord Digest) (v : Reservation) (f : FrozenTransfer Digest) :
    RequestRecord Digest :=
  { r with reservation := some v, frozen := some f, status := .submitted, ledgerAttempt := 1 }

/-- A prepared dispatch only reports, or reserves the charge and the operation and freezes
the transfer. -/
theorem prepareDispatch_eq_ok {a : AuthorizedTransfer Digest} {now : UInt64}
    {res : Result (DispatchCommand Digest)} :
    s.prepareDispatch a now = .ok (s', res) ↔
    ∃ r, s.requests[a.request]? = some r ∧ (∃ b, s.authorize r.caller r.id now = .ok b) ∧
      a.snapshot = r.snapshot ∧
      ((s.mode = .reportOnly ∨ s.mode = .shadow) ∧ res = .error .reportOnly ∧
          s' = s.putRequest r.id { r with status := .reported } ∨
        s.mode = .mock ∧ ∃ o g g' c, s.operations[r.operation]? = some o ∧
          o.proposal.ledger ∈ s.mockLedgers ∧ s.grants[r.grant]? = some g ∧
          o.proposal.charge = .ok c ∧ g.reserve c (now / g.windowNs) = .ok g' ∧
          res = .ok ⟨r.id, 1, ⟨o.proposal, r.id, now⟩⟩ ∧
          s' = { s with
            grants := s.grants.insert g'.id g'
            operations := s.operations.insert o.id { o with status := .reserved r.id }
            requests := s.requests.insert r.id
              (dispatched r ⟨c, now / g.windowNs⟩ ⟨o.proposal, r.id, now⟩) }) := by
  simp only [prepareDispatch, bind_eq_ok, okOr_eq_ok, rejectIf_eq_ok, not_not]
  constructor
  · rintro ⟨r, hr, b, hb, _, hsnap, h⟩
    refine ⟨r, hr, ⟨b, hb⟩, hsnap, ?_⟩
    cases hm : s.mode with
    | reportOnly =>
      rw [hm] at h
      obtain ⟨rfl, rfl⟩ := Prod.mk.inj (pure_eq_ok.mp h)
      exact .inl ⟨.inl rfl, rfl, rfl⟩
    | shadow =>
      rw [hm] at h
      obtain ⟨rfl, rfl⟩ := Prod.mk.inj (pure_eq_ok.mp h)
      exact .inl ⟨.inr rfl, rfl, rfl⟩
    | limitedLive => rw [hm] at h; simp at h
    | mock =>
      rw [hm] at h
      simp only [bind_eq_ok, okOr_eq_ok, rejectIf_eq_ok, not_not, pure_eq_ok, Prod.mk.injEq] at h
      obtain ⟨o, ho, _, hl, g, hg, c, hc, g', hg', rfl, rfl⟩ := h
      exact .inr ⟨rfl, o, g, g', c, ho, hl, hg, hc, hg', rfl, rfl⟩
  · rintro ⟨r, hr, ⟨b, hb⟩, hsnap, ⟨hm | hm, rfl, rfl⟩ | ⟨hm, o, g, g', c, ho, hl, hg, hc, hg', rfl, rfl⟩⟩
    · exact ⟨r, hr, b, hb, (), hsnap, by rw [hm]; rfl⟩
    · exact ⟨r, hr, b, hb, (), hsnap, by rw [hm]; rfl⟩
    · refine ⟨r, hr, b, hb, (), hsnap, ?_⟩
      rw [hm]
      simp only [bind_eq_ok, okOr_eq_ok, rejectIf_eq_ok, not_not, pure_eq_ok, Prod.mk.injEq]
      exact ⟨o, ho, (), hl, g, hg, c, hc, g', hg', rfl, rfl⟩

/-- The record after its transfer was settled. -/
def settled (r : RequestRecord Digest) (success : Bool) (text : String) : RequestRecord Digest :=
  { r with
    reservation := none
    status := if success then .succeeded text else .failedDefinitive text }

theorem settleRecord_eq_ok {r : RequestRecord Digest} {success : Bool} {text : String}
    {status : Status} :
    s.settleRecord r success text = .ok (s', status) ↔
    ∃ v g o g', r.reservation = some v ∧ s.grants[r.grant]? = some g ∧
      s.operations[r.operation]? = some o ∧ o.status = .reserved r.id ∧
      g.settle v.charge v.epoch success = .ok g' ∧
      status = (settled r success text).status ∧
      s' = { s with
        grants := s.grants.insert g'.id g'
        operations := s.operations.insert o.id
          { o with status := if success then .consumed r.id else .available }
        requests := s.requests.insert r.id (settled r success text) } := by
  simp only [settleRecord, bind_eq_ok, okOr_eq_ok, rejectIf_eq_ok, not_not, pure_eq_ok,
    Prod.mk.injEq]
  constructor
  · rintro ⟨v, hv, g, hg, o, ho, _, hs, g', hg', rfl, rfl⟩
    exact ⟨v, g, o, g', hv, hg, ho, hs, hg', rfl, rfl⟩
  · rintro ⟨v, g, o, g', hv, hg, ho, hs, hg', rfl, rfl⟩
    exact ⟨v, hv, g, hg, o, ho, (), hs, g', hg', rfl, rfl⟩

/-- How a ledger outcome settles a command on a record, if it does: whether the transfer
happened, and the text to keep. -/
def settlement (r : RequestRecord Digest) (attempt : UInt8) : LedgerOutcome → Option (Bool × String)
  | .success index | .duplicate index => some (true, index)
  | .definitiveError why =>
    if r.everUnknown = false ∧ attempt = r.ledgerAttempt then some (false, why) else none
  | .unknown _ => none

omit [Hashing Digest] in
/-- Only a known error of the latest attempt settles a request as failed. -/
theorem settlement_failed {r : RequestRecord Digest} {attempt : UInt8} {outcome : LedgerOutcome}
    {text : String} (h : settlement r attempt outcome = some (false, text)) :
    outcome = .definitiveError text ∧ r.everUnknown = false ∧ attempt = r.ledgerAttempt := by
  cases outcome with
  | definitiveError e =>
    simp only [settlement] at h
    split at h
    · next hd => cases h; exact ⟨rfl, hd⟩
    · cases h
  | _ => simp [settlement] at h

omit [Hashing Digest] in
/-- Only a success or a duplicate settles a request as succeeded. -/
theorem settlement_succeeded {r : RequestRecord Digest} {attempt : UInt8} {outcome : LedgerOutcome}
    {text : String} (h : settlement r attempt outcome = some (true, text)) :
    outcome = .success text ∨ outcome = .duplicate text := by
  cases outcome with
  | success index => cases h; exact .inl rfl
  | duplicate index => cases h; exact .inr rfl
  | definitiveError e =>
    simp only [settlement] at h
    split at h <;> cases h
  | unknown e => cases h

theorem applyOutcome_eq_ok {r : RequestRecord Digest} {attempt : UInt8} {outcome : LedgerOutcome}
    {status : Status} :
    s.applyOutcome r attempt outcome = .ok (s', status) ↔
      (∃ success text, settlement r attempt outcome = some (success, text) ∧
        (success = true → validBlockIndex text = true) ∧
        s.settleRecord r success text = .ok (s', status)) ∨
      settlement r attempt outcome = none ∧ s.recordUnknown r outcome.text = (s', status) := by
  cases outcome with
  | success index => simp [applyOutcome, settlement]
  | duplicate index => simp [applyOutcome, settlement]
  | definitiveError e =>
    by_cases hd : r.everUnknown = false ∧ attempt = r.ledgerAttempt
    · simp [applyOutcome, settlement, hd]
    · simp [applyOutcome, settlement, hd, LedgerOutcome.text]
  | unknown e => simp [applyOutcome, settlement, LedgerOutcome.text]

/-- A ledger outcome answers a settled request again, settles an outstanding one, or leaves
it unknown. -/
theorem finishLedger_eq_ok {cmd : DispatchCommand Digest} {outcome : LedgerOutcome}
    {status : Status} :
    s.finishLedger cmd outcome = .ok (s', status) ↔
    ∃ r, s.requests[cmd.request]? = some r ∧ r.frozen = some cmd.transfer ∧ cmd.attempt ≠ 0 ∧
      cmd.attempt ≤ r.ledgerAttempt ∧
      (r.status.isSucceeded = true ∧ s' = s ∧ status = r.status ∨
        r.status.isSucceeded = false ∧ r.status.outstanding = true ∧
          s.applyOutcome r cmd.attempt outcome = .ok (s', status)) := by
  simp only [finishLedger, bind_eq_ok, okOr_eq_ok, rejectIf_eq_ok, not_or, not_not,
    UInt8.not_lt]
  constructor
  · rintro ⟨r, hr, _, ⟨hf, h0, hle⟩, h⟩
    refine ⟨r, hr, hf, h0, hle, ?_⟩
    cases hs : r.status.isSucceeded with
    | true =>
      rw [if_pos hs] at h
      obtain ⟨rfl, rfl⟩ := Prod.mk.inj (pure_eq_ok.mp h)
      exact .inl ⟨rfl, rfl, rfl⟩
    | false =>
      rw [hs, if_neg Bool.false_ne_true] at h
      simp only [bind_eq_ok, rejectIf_eq_ok, not_not] at h
      obtain ⟨_, ho, h⟩ := h
      exact .inr ⟨rfl, ho, h⟩
  · rintro ⟨r, hr, hf, h0, hle, ⟨hs, rfl, rfl⟩ | ⟨hs, ho, h⟩⟩
    · exact ⟨r, hr, (), ⟨hf, h0, hle⟩, by rw [if_pos hs]; rfl⟩
    · refine ⟨r, hr, (), ⟨hf, h0, hle⟩, ?_⟩
      rw [hs, if_neg Bool.false_ne_true]
      simp only [bind_eq_ok, rejectIf_eq_ok, not_not]
      exact ⟨(), ho, h⟩

/-- A retry sends the frozen transfer once more, as the next attempt. -/
theorem retryUnknown_eq_ok {caller : Principal} {id : Digest} {now : UInt64}
    {cmd : DispatchCommand Digest} (h : s.retryUnknown caller id now = .ok (s', cmd)) :
    ∃ r f, s.requests[id]? = some r ∧ s.current r now = .ok () ∧ s.mode = .mock ∧
      r.status.isOutcomeUnknown = true ∧ r.ledgerAttempt < 2 ∧ r.frozen = some f ∧
      cmd = ⟨id, r.ledgerAttempt + 1, f⟩ ∧
      s' = s.putRequest id
        { r with ledgerAttempt := r.ledgerAttempt + 1, status := .submitted } := by
  simp only [retryUnknown, bind_eq_ok, okOr_eq_ok, rejectIf_eq_ok, owned_eq_ok, not_or,
    not_not, UInt8.not_le, pure_eq_ok, Prod.mk.injEq] at h
  obtain ⟨r, ⟨hr, _⟩, _, hc, _, ⟨hm, hu, h2⟩, f, hf, _, _, rfl, rfl⟩ := h
  exact ⟨r, f, hr, hc, hm, hu, h2, hf, rfl, rfl⟩

theorem cancel_eq_ok {caller : Principal} {id : Digest} (h : s.cancel caller id = .ok s') :
    ∃ r, s.requests[id]? = some r ∧ r.frozen = none ∧ r.reservation = none ∧
      s' = s.putRequest id { r with pending := none, status := .cancelled } := by
  simp only [cancel, bind_eq_ok, rejectIf_eq_ok, owned_eq_ok, not_or, Bool.not_eq_true,
    Option.isSome_eq_false_iff, Option.isNone_iff_eq_none, pure_eq_ok] at h
  obtain ⟨r, ⟨hr, _⟩, _, ⟨hf, hv⟩, rfl⟩ := h
  exact ⟨r, hr, hf, hv, rfl⟩

end ExecutorState

end IcLaya
