import IcLaya.MockLedger
import IcLaya.WorkflowRuns

/-!
# The executor and its ledgers

The messages between the executor canister and the mock ledgers (`executor/src/lib.rs`). A
transfer or a lookup is sent in one step, executed by the ledger at most once at any later
step, and answered at most once at any step, by its reply or by a transport failure. A callback
that traps is one that is never answered.
-/
namespace IcLaya
open CheckedWords Fallible OrderedMaps TransitionSystems

/-- A call to a ledger: what was sent, what the ledger did, and what the callback made of it. -/
structure Message (Digest Reply : Type) where
  cmd : DispatchCommand Digest
  executed : Option Reply
  answer : Option (Option LedgerOutcome)
  deriving DecidableEq

/-- A call to `icrc1_transfer`; the reply of a trapped execution is `none`. -/
abbrev TransferMessage (Digest : Type) := Message Digest (Option TransferResult)

/-- A call to `ic_laya_lookup`. -/
abbrev LookupMessage (Digest : Type) := Message Digest (Option (Lookup Digest))

structure TransferSystem (Digest : Type) [Ord Digest] where
  executor : ExecutorState Digest
  ledgers : Principal → MockLedger Digest
  transfers : List (TransferMessage Digest)
  lookups : List (LookupMessage Digest)

/-- How a call returns to the executor. -/
inductive Delivery | reply | undecodable | failed deriving DecidableEq

inductive TransferEvent (Digest : Type) [Ord Digest]
  | call (op : Op Digest)
  | dispatch (caller : Principal) (id : Digest) (now : UInt64)
  | retryMockTransfer (caller : Principal) (id : Digest) (now : UInt64)
  | execute (i : ℕ) (now : UInt64)
  | deliver (i : ℕ) (d : Delivery)
  | reconcileMock (caller : Principal) (id : Digest)
  | executeLookup (j : ℕ)
  | deliverLookup (j : ℕ) (d : Delivery)
  | setFault (ledger caller : Principal) (fault : Fault)
  | foreignTransfer (ledger caller : Principal) (arg : TransferArg) (now : UInt64)

variable {Digest : Type} [Hashing Digest]

/-- The calls that exchange no message with a ledger. -/
def Op.isLocal : Op Digest → Bool
  | .prepareDispatch .. | .retryUnknown .. | .finishLedger .. => false
  | _ => true

namespace ExecutorState

/-- `admitted`. -/
def admitted (s : ExecutorState Digest) (caller : Principal) : Result Unit :=
  rejectIf (¬(caller ≠ .anonymous ∧
    (caller = s.owner ∨ (values s.grants).any fun g => g.delegate = caller))) .unauthorized

/-- The part of `reconcile_mock` before its call: the command that is looked up. -/
def reconcileCommand (s : ExecutorState Digest) (caller : Principal) (id : Digest) :
    Result (DispatchCommand Digest) := do
  let r ← s.owned caller id
  rejectIf (¬r.status.outstanding) .transition
  let transfer ← okOr r.frozen .storage
  rejectIf (transfer.proposal.ledger ∉ s.mockLedgers) .unauthorized
  pure ⟨id, r.ledgerAttempt, transfer⟩

end ExecutorState

/-- The outcome `send` reads off a decoded reply. The text of an error is its debug image. -/
def replyOutcome (debug : TransferError → String) : TransferResult → LedgerOutcome
  | .ok index => .success (toString index)
  | .error (.duplicate duplicateOf) => .duplicate (toString duplicateOf)
  | .error e => .definitiveError (debug e)

/-- The outcome `send` hands to the executor. A transport failure proves nothing about
execution and can arrive before it. -/
def sendOutcome (debug : TransferError → String) (executed : Option (Option TransferResult)) :
    Delivery → Option LedgerOutcome
  | .reply =>
    match executed with
    | some (some result) => some (replyOutcome debug result)
    | _ => none
  | .undecodable => some (.unknown "undecodable ledger response")
  | .failed => some (.unknown "ledger call failed or timed out")

/-- What `reconcile_mock` hands to the executor, if anything, once its call returned. -/
def lookupOutcome (expected : Digest) (executed : Option (Option (Lookup Digest))) :
    Delivery → Option (Option LedgerOutcome)
  | .reply =>
    match executed with
    | some (some found) =>
      some (if found.frozenHash = expected then some (.success found.blockIndex) else none)
    | some none => some (some (.unknown "not found is not proof of non-execution"))
    | none => none
  | .undecodable | .failed => some none

namespace TransferSystem

/-- A fresh executor and empty ledgers. -/
def new (self owner engine : Principal) (ledgerOwner : Principal → Principal) :
    TransferSystem Digest :=
  ⟨.new self owner engine, fun p => .new (ledgerOwner p), [], []⟩

/-- An executor call whose command, if it has one, is sent at once. -/
def send (w : TransferSystem Digest) (op : Op Digest) : TransferSystem Digest :=
  { w with
    executor := w.executor.step op
    transfers := w.transfers ++ ((w.executor.command op).map fun cmd => ⟨cmd, none, none⟩).toList }

/-- The callback of a call. -/
def finish (w : TransferSystem Digest) (cmd : DispatchCommand Digest) :
    Option LedgerOutcome → ExecutorState Digest
  | some outcome => w.executor.step (.finishLedger cmd outcome)
  | none => w.executor

def putLedger (w : TransferSystem Digest) (ledger : Principal) (l : MockLedger Digest) :
    TransferSystem Digest := { w with ledgers := Function.update w.ledgers ledger l }

/-- The result of an execution: the ledger after it, and the reply. -/
def putExecution (w : TransferSystem Digest) (i : ℕ) (m : TransferMessage Digest)
    (l : MockLedger Digest) (reply : Option TransferResult) : TransferSystem Digest :=
  { w.putLedger m.cmd.transfer.proposal.ledger l with
    transfers := w.transfers.set i { m with executed := some reply } }

def execute (w : TransferSystem Digest) (i : ℕ) (m : TransferMessage Digest) (now : UInt64) :
    TransferSystem Digest :=
  let ledger := m.cmd.transfer.proposal.ledger
  let out := (w.ledgers ledger).icrc1Transfer ledger w.executor.instancePrincipal
    (toIcrc m.cmd.transfer) now
  w.putExecution i m out.1 out.2

def executeLookup (w : TransferSystem Digest) (j : ℕ) (m : LookupMessage Digest) :
    TransferSystem Digest :=
  let ledger := m.cmd.transfer.proposal.ledger
  let found := (w.ledgers ledger).lookup ledger w.executor.instancePrincipal
    (toIcrc m.cmd.transfer)
  { w with lookups := w.lookups.set j { m with executed := some found } }

/-- The state after an event; an event that cannot happen changes nothing. -/
def step (debug : TransferError → String) (w : TransferSystem Digest) :
    TransferEvent Digest → TransferSystem Digest
  | .call op => if op.isLocal then { w with executor := w.executor.step op } else w
  | .dispatch caller id now =>
    match w.executor.authorize caller id now with
    | .ok authorized => w.send (.prepareDispatch authorized now)
    | .error _ => w
  | .retryMockTransfer caller id now =>
    match w.executor.admitted caller with
    | .ok _ => w.send (.retryUnknown caller id now)
    | .error _ => w
  | .execute i now =>
    match w.transfers[i]? with
    | some m => if m.executed = none then w.execute i m now else w
    | none => w
  | .deliver i d =>
    match w.transfers[i]? with
    | some m =>
      match m.answer, sendOutcome debug m.executed d with
      | none, some outcome =>
        { w with
          executor := w.finish m.cmd (some outcome)
          transfers := w.transfers.set i { m with answer := some (some outcome) } }
      | _, _ => w
    | none => w
  | .reconcileMock caller id =>
    match w.executor.reconcileCommand caller id with
    | .ok cmd => { w with lookups := w.lookups ++ [⟨cmd, none, none⟩] }
    | .error _ => w
  | .executeLookup j =>
    match w.lookups[j]? with
    | some m => if m.executed = none then w.executeLookup j m else w
    | none => w
  | .deliverLookup j d =>
    match w.lookups[j]? with
    | some m =>
      match m.answer, lookupOutcome m.cmd.transfer.digest m.executed d with
      | none, some outcome =>
        { w with
          executor := w.finish m.cmd outcome
          lookups := w.lookups.set j { m with answer := some outcome } }
      | _, _ => w
    | none => w
  | .setFault ledger caller fault =>
    match (w.ledgers ledger).setFault caller fault with
    | .ok l => w.putLedger ledger l
    | .error _ => w
  | .foreignTransfer ledger caller arg now =>
    -- the executor canister itself calls a ledger by the events above only
    if caller = w.executor.instancePrincipal then w
    else w.putLedger ledger ((w.ledgers ledger).icrc1Transfer ledger caller arg now).1

end TransferSystem

end IcLaya
