import IcLaya.WorkflowRecords

/-!
# The public operations of the executor state (`workflow.rs`)

An operation that fails without touching the state is an `Except`. The three that
record something and still answer with an error (`beginEvaluation`, `finishEvaluation`,
`prepareDispatch`) return the new state together with that answer.
-/
namespace IcLaya
open CheckedWords Fallible OrderedMaps

variable {Digest : Type} [Hashing Digest]

namespace ExecutorState

def new (self owner engine : Principal) : ExecutorState Digest :=
  ⟨self, owner, engine, .reportOnly, false, ∅, ∅, ∅, ∅, ∅, []⟩

def putRequest (s : ExecutorState Digest) (k : Digest) (r : RequestRecord Digest) :
    ExecutorState Digest := { s with requests := s.requests.insert k r }

def assertOwner (s : ExecutorState Digest) (caller : Principal) : Result Unit :=
  rejectIf (caller ≠ s.owner ∨ caller = .anonymous) .unauthorized

def setMode (s : ExecutorState Digest) (caller : Principal) (mode : Mode) :
    Result (ExecutorState Digest) := do
  s.assertOwner caller
  rejectIf (mode = .limitedLive) .liveDisabled
  pure { s with mode := mode }

def setPaused (s : ExecutorState Digest) (caller : Principal) (pause : Bool) :
    Result (ExecutorState Digest) := do
  s.assertOwner caller
  pure { s with paused := pause }

/-- The commit of `register_mock_ledger`, after the handshake. -/
def addMockLedger (s : ExecutorState Digest) (caller ledger : Principal) :
    Result (ExecutorState Digest) := do
  s.assertOwner caller
  if ledger ∈ s.mockLedgers then pure s else do
    rejectIf (8 ≤ s.mockLedgers.length) .capacity
    pure { s with mockLedgers := s.mockLedgers ++ [ledger] }

def installPlan (s : ExecutorState Digest) (caller : Principal) (p : Plan Digest) :
    Result (ExecutorState Digest) := do
  s.assertOwner caller
  p.validate
  match s.plans[p.id]? with
  | some old => if old = p then pure s else throw .idConflict
  | none => do
    rejectIf (maxRegistry ≤ s.plans.size) .capacity
    pure { s with plans := s.plans.insert p.id p }

def installOperation (s : ExecutorState Digest) (caller : Principal) (o : Operation Digest) :
    Result (ExecutorState Digest) := do
  s.assertOwner caller
  o.proposal.validate
  rejectIf (o.id = Hashing.zero ∨ o.revision = 0 ∨ o.evidence.isEmpty ∨
    maxStateBytes < o.evidence.utf8ByteSize ∨ o.status ≠ .available) (.invalid "operation")
  rejectIf (s.operations.contains o.id) .idConflict
  rejectIf (maxRequests ≤ s.operations.size) .capacity
  pure { s with operations := s.operations.insert o.id o }

def reviseOperation (s : ExecutorState Digest) (caller : Principal) (id : Digest)
    (evidence : String) : Result (ExecutorState Digest) := do
  s.assertOwner caller
  rejectIf (evidence.isEmpty ∨ maxStateBytes < evidence.utf8ByteSize) .tooLong
  let o ← okOr s.operations[id]? .notFound
  rejectIf (o.status ≠ .available) .operationUsed
  let rev ← okOr (checkedAdd64 o.revision 1) .capacity
  pure { s with
    operations := s.operations.insert id { o with evidence := evidence, revision := rev } }

def installGrant (s : ExecutorState Digest) (caller : Principal) (g : Grant Digest) :
    Result (ExecutorState Digest) := do
  s.assertOwner caller
  rejectIf (g.id = Hashing.zero ∨ g.revision = 0 ∨ g.delegate = .anonymous ∨ g.windowNs = 0 ∨
    g.total ≠ default ∨ ¬g.windows.isEmpty ∨ g.revoked ∨ g.recipients = [] ∨
    16 < g.recipients.length ∨ g.maxAmount = 0 ∨ g.totalCap = 0 ∨ g.windowCap = 0)
    (.invalid "grant")
  g.recipients.forM Account.validate
  rejectIf (¬s.plans.contains g.plan) .notFound
  rejectIf (s.grants.contains g.id) .idConflict
  rejectIf (maxRegistry ≤ s.grants.size) .capacity
  pure { s with grants := s.grants.insert g.id g }

def revoke (s : ExecutorState Digest) (caller : Principal) (id : Digest) :
    Result (ExecutorState Digest) := do
  s.assertOwner caller
  let g ← okOr s.grants[id]? .notFound
  let rev ← okOr (checkedAdd64 g.revision 1) .capacity
  pure { s with grants := s.grants.insert id { g with revoked := true, revision := rev } }

def requestCanonical (self caller : Principal) (nonce : UInt64) : Canonical :=
  (((Canonical.new "ic-laya/workflow/v1").bytes self.asSlice).bytes caller.asSlice).u64 nonce

def requestId (s : ExecutorState Digest) (caller : Principal) (nonce : UInt64) : Digest :=
  (requestCanonical s.instancePrincipal caller nonce).finish

def submit (s : ExecutorState Digest) (caller : Principal) (nonce : UInt64)
    (operation grant : Digest) (now : UInt64) : Result (ExecutorState Digest × Digest) := do
  rejectIf s.paused (.denied "paused")
  rejectIf (caller = .anonymous) .unauthorized
  let next := s.nextNonce[caller]?.getD 0
  let id := s.requestId caller nonce
  if nonce < next then
    match s.requests[id]? with
    | some r => if r.operation = operation ∧ r.grant = grant then pure (s, id) else throw .idConflict
    | none => throw .nonceConsumed
  else do
    rejectIf (next < nonce) .nonceGap
    rejectIf (maxRequests ≤ s.requests.size ∨
      (¬s.nextNonce.contains caller ∧ maxRegistry ≤ s.nextNonce.size)) .capacity
    let g ← okOr s.grants[grant]? .notFound
    let o ← okOr s.operations[operation]? .notFound
    g.eligible caller o.proposal now
    rejectIf (o.status ≠ .available) .operationUsed
    let p ← okOr s.plans[g.plan]? .notFound
    let expires ← okOr (checkedAdd64 now 300000000000) .expired
    let newNonce ← okOr (checkedAdd64 next 1) .capacity
    let r : RequestRecord Digest :=
      { id, caller, nonce, operation, grant, plan := g.plan, operationRevision := o.revision,
        grantRevision := g.revision, snapshot := snapshot o g p,
        expiresAtNs := min expires g.expiresAtNs, status := .received, receipts := [],
        pending := none, reservation := none, frozen := none, ledgerAttempt := 0,
        everUnknown := false }
    pure ({ s with
      requests := s.requests.insert id r
      nextNonce := s.nextNonce.insert caller newNonce }, id)

def owned (s : ExecutorState Digest) (caller : Principal) (id : Digest) :
    Result (RequestRecord Digest) := do
  let r ← okOr s.requests[id]? .notFound
  rejectIf (caller ≠ r.caller ∧ caller ≠ s.owner) .unauthorized
  pure r

/-- The grant, the operation and the plan are those the request was submitted under. -/
def current (s : ExecutorState Digest) (r : RequestRecord Digest) (now : UInt64) :
    Result Unit := do
  rejectIf s.paused (.denied "paused")
  rejectIf (r.expiresAtNs ≤ now) .expired
  let o ← okOr s.operations[r.operation]? .notFound
  let g ← okOr s.grants[r.grant]? .notFound
  let p ← okOr s.plans[r.plan]? .notFound
  g.eligible r.caller o.proposal now
  rejectIf (o.revision ≠ r.operationRevision ∨ g.revision ≠ r.grantRevision ∨
    snapshot o g p ≠ r.snapshot) .stale

def slotCanonical (id : Digest) (slot : ℕ) (snapshot : Digest) : Canonical :=
  (((Canonical.new "ic-laya/slot/v1").digest id).u64 (UInt64.ofNat slot)).digest snapshot

/-- The request for one slot of a plan. -/
def slotRequest (id : Digest) (r : RequestRecord Digest) (p : Plan Digest) (o : Operation Digest)
    (slot : ℕ) (required : RequiredSignal Digest) : DecisionRequest Digest :=
  { evaluationId := (slotCanonical id slot r.snapshot).finish
    schemaHash := required.schema.schemaHash
    model := p.model
    calibration := some required.calibration
    binding := some ⟨id, UInt8.ofNat slot, 0, r.snapshot⟩
    state := o.evidence
    expiresAtNs := r.expiresAtNs }

def beginEvaluation (s : ExecutorState Digest) (caller : Principal) (id : Digest) (now : UInt64) :
    Result (ExecutorState Digest × Result (DecisionRequest Digest)) := do
  let r ← s.owned caller id
  rejectIf (r.status ≠ .received ∧ r.status ≠ .evaluating) .transition
  match s.current r now with
  | .error e => pure (s.putRequest id { r with status := .stale, pending := none }, .error e)
  | .ok _ =>
    match r.pending with
    | some p => do
      rejectIf p.inFlight .busy
      rejectIf (2 ≤ p.sends) .capacity
      pure (s.putRequest id
        { r with pending := some { p with inFlight := true, sends := p.sends + 1 } }, .ok p.request)
    | none => do
      let p ← okOr s.plans[r.plan]? .notFound
      let required ← okOr p.signals[r.receipts.length]? .transition
      let o ← okOr s.operations[r.operation]? .notFound
      let req := slotRequest id r p o r.receipts.length required
      pure (s.putRequest id
        { r with pending := some ⟨req, true, 1⟩, status := .evaluating }, .ok req)

def engineTransportFailed (s : ExecutorState Digest) (id evalId : Digest) :
    Result (ExecutorState Digest) := do
  let r ← okOr s.requests[id]? .notFound
  rejectIf (r.status ≠ .evaluating) .transition
  let p ← okOr r.pending .transition
  rejectIf (p.request.evaluationId ≠ evalId) .bindingMismatch
  if 2 ≤ p.sends then
    pure (s.putRequest id { r with status := .needsReview "engine retry limit", pending := none })
  else pure (s.putRequest id { r with pending := some { p with inFlight := false } })

def expectedStamp (req : DecisionRequest Digest) (required : RequiredSignal Digest)
    (backend : BackendKind) : Stamp Digest :=
  { evaluationId := req.evaluationId
    schemaHash := required.schema.schemaHash
    tokenizerHash := required.schema.tokenizerHash
    model := req.model
    calibration := req.calibration
    binding := req.binding
    stateHash := hash (asBytes req.state)
    profile := profile
    backend := backend }

/-- The closure of `finish_evaluation`: the receipt and whether its rule passed. -/
def judge (req : DecisionRequest Digest) (required : RequiredSignal Digest)
    (result : Result (Receipt Digest)) : Result (Receipt Digest × Bool) := do
  let receipt ← result
  rejectIf (receipt.stamp ≠ expectedStamp req required receipt.stamp.backend ∨
    receipt.inputTokens = 0 ∨ maxTokens < receipt.inputTokens.toNat) .bindingMismatch
  let pass ← checkRule required receipt
  pure (receipt, pass)

/-- The record after an outcome of its outstanding evaluation. -/
def afterOutcome (r : RequestRecord Digest) (signals : ℕ) :
    Result (Receipt Digest × Bool) → RequestRecord Digest
  | .ok (receipt, pass) =>
    { r with
      pending := none
      receipts := r.receipts ++ [receipt]
      status :=
        if ¬pass then .needsReview "registered rule did not pass"
        else if r.receipts.length + 1 = signals then .readyToDispatch
        else .received }
  | .error e => { r with pending := none, status := .needsReview e.display }

/-- A receipt that is stored already answers a repeated reply. -/
def storedAnswer (r : RequestRecord Digest) (evalId : Digest) :
    Result (Receipt Digest) → Option (Result Status)
  | .error _ => none
  | .ok incoming =>
    (r.receipts.find? fun v => v.stamp.evaluationId = evalId).map fun old =>
      if old = incoming then .ok r.status else .error .idConflict

def finishEvaluation (s : ExecutorState Digest) (id evalId : Digest)
    (result : Result (Receipt Digest)) (now : UInt64) :
    Result (ExecutorState Digest × Result Status) := do
  let r ← okOr s.requests[id]? .notFound
  match storedAnswer r evalId result with
  | some answer => pure (s, answer)
  | none => do
    rejectIf (r.status ≠ .evaluating) .transition
    let pending ← okOr r.pending .transition
    rejectIf (pending.request.evaluationId ≠ evalId) .bindingMismatch
    match s.current r now with
    | .error e => pure (s.putRequest id { r with status := .stale, pending := none }, .error e)
    | .ok _ => do
      let p ← okOr s.plans[r.plan]? .notFound
      let required ← okOr p.signals[r.receipts.length]? .notFound
      let r' := afterOutcome r p.signals.length (judge pending.request required result)
      pure (s.putRequest id r', .ok r'.status)

/-- The check `authorize` makes of the receipt in slot `i`. -/
def checkReceipt (id : Digest) (r : RequestRecord Digest) (p : Plan Digest)
    (e : (RequiredSignal Digest × Receipt Digest) × ℕ) : Result Unit := do
  let ((signal, v), i) := e
  rejectIf (v.stamp.binding ≠ some ⟨id, UInt8.ofNat i, 0, r.snapshot⟩ ∨ v.stamp.model ≠ p.model ∨
    v.stamp.schemaHash ≠ signal.schema.schemaHash ∨
    v.stamp.calibration ≠ some signal.calibration) .bindingMismatch
  let pass ← checkRule signal v
  rejectIf (¬pass) .bindingMismatch

def authorize (s : ExecutorState Digest) (caller : Principal) (id : Digest) (now : UInt64) :
    Result (AuthorizedTransfer Digest) := do
  let r ← s.owned caller id
  s.current r now
  rejectIf (r.status ≠ .readyToDispatch ∨ r.pending.isSome) .transition
  let p ← okOr s.plans[r.plan]? .notFound
  rejectIf (r.receipts.length ≠ p.signals.length) .bindingMismatch
  (p.signals.zip r.receipts).zipIdx.forM (checkReceipt id r p)
  let o ← okOr s.operations[r.operation]? .notFound
  rejectIf (o.status ≠ .available) .operationUsed
  pure ⟨id, r.snapshot⟩

def prepareDispatch (s : ExecutorState Digest) (authorization : AuthorizedTransfer Digest)
    (now : UInt64) : Result (ExecutorState Digest × Result (DispatchCommand Digest)) := do
  let r ← okOr s.requests[authorization.request]? .notFound
  let _ ← s.authorize r.caller r.id now
  rejectIf (authorization.snapshot ≠ r.snapshot) .bindingMismatch
  match s.mode with
  | .reportOnly | .shadow =>
    pure (s.putRequest r.id { r with status := .reported }, .error .reportOnly)
  | .limitedLive => throw .liveDisabled
  | .mock => do
    let op ← okOr s.operations[r.operation]? .notFound
    rejectIf (op.proposal.ledger ∉ s.mockLedgers) (.denied "unregistered mock ledger")
    let grant ← okOr s.grants[r.grant]? .notFound
    let charge ← op.proposal.charge
    let epoch := now / grant.windowNs
    let grant ← grant.reserve charge epoch
    let frozen : FrozenTransfer Digest := ⟨op.proposal, r.id, now⟩
    let r' := { r with
      reservation := some ⟨charge, epoch⟩
      frozen := some frozen
      status := .submitted
      ledgerAttempt := 1 }
    pure ({ s with
      grants := s.grants.insert grant.id grant
      operations := s.operations.insert op.id { op with status := .reserved r.id }
      requests := s.requests.insert r.id r' }, .ok ⟨r.id, 1, frozen⟩)

def settleRecord (s : ExecutorState Digest) (r : RequestRecord Digest) (success : Bool)
    (text : String) : Result (ExecutorState Digest × Status) := do
  let reservation ← okOr r.reservation .storage
  let g ← okOr s.grants[r.grant]? .storage
  let o ← okOr s.operations[r.operation]? .storage
  rejectIf (o.status ≠ .reserved r.id) .storage
  let g ← g.settle reservation.charge reservation.epoch success
  let status : Status := if success then .succeeded text else .failedDefinitive text
  pure ({ s with
    grants := s.grants.insert g.id g
    operations := s.operations.insert o.id
      { o with status := if success then .consumed r.id else .available }
    requests := s.requests.insert r.id { r with reservation := none, status := status } }, status)

/-- The last arm of `finish_ledger`: the outcome stays unknown for good. -/
def recordUnknown (s : ExecutorState Digest) (r : RequestRecord Digest) (why : String) :
    ExecutorState Digest × Status :=
  (s.putRequest r.id { r with everUnknown := true, status := .outcomeUnknown why },
    .outcomeUnknown why)

/-- The `match outcome` of `finish_ledger`. -/
def applyOutcome (s : ExecutorState Digest) (r : RequestRecord Digest) (attempt : UInt8) :
    LedgerOutcome → Result (ExecutorState Digest × Status)
  | .success index | .duplicate index => do
    rejectIf (¬validBlockIndex index) (.invalid "block index")
    s.settleRecord r true index
  | .definitiveError e =>
    if ¬r.everUnknown ∧ attempt = r.ledgerAttempt then s.settleRecord r false e
    else pure (s.recordUnknown r e)
  | .unknown e => pure (s.recordUnknown r e)

def finishLedger (s : ExecutorState Digest) (cmd : DispatchCommand Digest)
    (outcome : LedgerOutcome) : Result (ExecutorState Digest × Status) := do
  let r ← okOr s.requests[cmd.request]? .notFound
  rejectIf (r.frozen ≠ some cmd.transfer ∨ cmd.attempt = 0 ∨ r.ledgerAttempt < cmd.attempt)
    .bindingMismatch
  -- a terminal success is not undone by a late error callback
  if r.status.isSucceeded then pure (s, r.status) else do
    rejectIf (¬r.status.outstanding) .transition
    s.applyOutcome r cmd.attempt outcome

def retryUnknown (s : ExecutorState Digest) (caller : Principal) (id : Digest) (now : UInt64) :
    Result (ExecutorState Digest × DispatchCommand Digest) := do
  let r ← s.owned caller id
  s.current r now
  rejectIf (s.mode ≠ .mock ∨ ¬r.status.isOutcomeUnknown ∨ 2 ≤ r.ledgerAttempt)
    .transition
  let frozen ← okOr r.frozen .storage
  rejectIf (now < frozen.createdAtTimeNs ∨ mockDedupWindowNs < now - frozen.createdAtTimeNs)
    .expired
  let r' := { r with ledgerAttempt := r.ledgerAttempt + 1, status := .submitted }
  pure (s.putRequest id r', ⟨id, r'.ledgerAttempt, frozen⟩)

def cancel (s : ExecutorState Digest) (caller : Principal) (id : Digest) :
    Result (ExecutorState Digest) := do
  let r ← s.owned caller id
  rejectIf (r.frozen.isSome ∨ r.reservation.isSome) .outcomeUnknown
  pure (s.putRequest id { r with pending := none, status := .cancelled })

def recoverAfterUpgrade (s : ExecutorState Digest) : ExecutorState Digest :=
  { s with requests := s.requests.map fun _ r => r.recover, paused := true }

/-- A checked sum of charges. -/
def sumCharges (rs : List Reservation) : Result U128 :=
  rs.foldlM (fun a r => okOr (checkedAdd a r.charge) .budget) 0

/-- The reservations that requests hold under a grant. -/
def reservationsOf (s : ExecutorState Digest) (grant : Digest) : List Reservation :=
  ((values s.requests).filter fun r => r.grant = grant).filterMap RequestRecord.reservation

def checkWindow (s : ExecutorState Digest) (g : Grant Digest) (e : UInt64 × Usage) :
    Result Unit := do
  let actual := (((s.reservationsOf g.id).filter fun r => r.epoch = e.1).map
    Reservation.charge).sum
  rejectIf (e.2.reserved ≠ actual) .storage
  let used ← okOr (checkedAdd e.2.spent e.2.reserved) .budget
  rejectIf (g.windowCap < used) .storage

def checkGrant (s : ExecutorState Digest) (g : Grant Digest) : Result Unit := do
  let expected ← sumCharges (s.reservationsOf g.id)
  rejectIf (expected ≠ g.total.reserved) .storage
  let used ← okOr (checkedAdd g.total.spent g.total.reserved) .budget
  rejectIf (g.totalCap < used) .budget
  g.windows.toList.forM (s.checkWindow g)

def checkRequest (s : ExecutorState Digest) (r : RequestRecord Digest) : Result Unit := do
  let op ← okOr s.operations[r.operation]? .storage
  rejectIf (r.reservation.isSome ∧ (op.status ≠ .reserved r.id ∨ ¬r.status.outstanding)) .storage
  rejectIf (r.status.isSucceeded ∧ (r.reservation.isSome ∨ op.status ≠ .consumed r.id)) .storage
  rejectIf (s.nextNonce[r.caller]?.getD 0 ≤ r.nonce) .storage

def checkInvariants (s : ExecutorState Digest) : Result Unit := do
  (values s.grants).forM s.checkGrant
  (values s.requests).forM s.checkRequest

end ExecutorState

end IcLaya
