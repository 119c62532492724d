import IcLaya.DecisionMath
import IcLaya.OrderedMaps
import IcLaya.SchemaCompiler

/-! The records of the workflow and what is computed from them alone (`workflow.rs`):
plan validation, the budget arithmetic of a grant, snapshots and the signal rules. -/
namespace IcLaya
open Std (ExtTreeMap)
open CheckedWords Fallible OrderedMaps

def maxRequests : ℕ := 512
def maxRegistry : ℕ := 64
def mockDedupWindowNs : UInt64 := 60000000000

inductive Mode | reportOnly | shadow | mock | limitedLive deriving DecidableEq

inductive Rule
  | noulTrue (minimumPpm : UInt32)
  | choiceIs (optionId : String) (minimumPpm : UInt32)
  | scoreTailAtMost (firstBadBin maximumPpm : UInt32)
  deriving DecidableEq

structure RequiredSignal (Digest : Type) where
  schema : CompiledSchema Digest
  calibration : Digest
  rule : Rule
  deriving DecidableEq

structure Plan (Digest : Type) where
  id : Digest
  version : UInt64
  model : Digest
  signals : List (RequiredSignal Digest)
  deriving DecidableEq

inductive OperationStatus (Digest : Type)
  | available
  | reserved (request : Digest)
  | consumed (request : Digest)
  deriving DecidableEq

structure Operation (Digest : Type) where
  id : Digest
  revision : UInt64
  evidence : String
  proposal : TransferProposal
  status : OperationStatus Digest
  deriving DecidableEq

structure Usage where
  spent : U128
  reserved : U128
  deriving DecidableEq

instance : Inhabited Usage := ⟨⟨0, 0⟩⟩

structure Grant (Digest : Type) where
  id : Digest
  revision : UInt64
  delegate : Principal
  plan : Digest
  ledger : Principal
  fromSubaccount : Subaccount
  recipients : List Account
  maxAmount : U128
  maxFee : U128
  totalCap : U128
  windowCap : U128
  windowNs : UInt64
  expiresAtNs : UInt64
  revoked : Bool
  total : Usage
  windows : ExtTreeMap UInt64 Usage

inductive Status
  | received
  | evaluating
  | readyToDispatch
  | reported
  | needsReview (why : String)
  | stale
  | cancelled
  | submitted
  | outcomeUnknown (why : String)
  | succeeded (block : String)
  | failedDefinitive (why : String)
  deriving DecidableEq

namespace Status

def isOutcomeUnknown : Status → Bool | outcomeUnknown _ => true | _ => false
def isSucceeded : Status → Bool | succeeded _ => true | _ => false

/-- `matches!(status, Submitted | OutcomeUnknown(_))`. -/
def outstanding : Status → Bool | submitted | outcomeUnknown _ => true | _ => false

end Status

structure PendingEvaluation (Digest : Type) where
  request : DecisionRequest Digest
  inFlight : Bool
  sends : UInt8
  deriving DecidableEq

structure Reservation where
  charge : U128
  epoch : UInt64
  deriving DecidableEq

structure FrozenTransfer (Digest : Type) where
  proposal : TransferProposal
  memo : Digest
  createdAtTimeNs : UInt64
  deriving DecidableEq

structure RequestRecord (Digest : Type) where
  id : Digest
  caller : Principal
  nonce : UInt64
  operation : Digest
  grant : Digest
  plan : Digest
  operationRevision : UInt64
  grantRevision : UInt64
  snapshot : Digest
  expiresAtNs : UInt64
  status : Status
  receipts : List (Receipt Digest)
  pending : Option (PendingEvaluation Digest)
  reservation : Option Reservation
  frozen : Option (FrozenTransfer Digest)
  ledgerAttempt : UInt8
  everUnknown : Bool
  deriving DecidableEq

structure DispatchCommand (Digest : Type) where
  request : Digest
  attempt : UInt8
  transfer : FrozenTransfer Digest
  deriving DecidableEq

inductive LedgerOutcome
  | success (index : String)
  | duplicate (index : String)
  | definitiveError (why : String)
  | unknown (why : String)
  deriving DecidableEq

def LedgerOutcome.text : LedgerOutcome → String
  | success t | duplicate t | definitiveError t | unknown t => t

structure AuthorizedTransfer (Digest : Type) where
  request : Digest
  snapshot : Digest
  deriving DecidableEq

structure ExecutorState (Digest : Type) [Ord Digest] where
  instancePrincipal : Principal
  owner : Principal
  engine : Principal
  mode : Mode
  paused : Bool
  plans : ExtTreeMap Digest (Plan Digest)
  operations : ExtTreeMap Digest (Operation Digest)
  grants : ExtTreeMap Digest (Grant Digest)
  requests : ExtTreeMap Digest (RequestRecord Digest)
  nextNonce : ExtTreeMap Principal UInt64
  mockLedgers : List Principal

variable {Digest : Type} [Hashing Digest]

def Rule.fits (rule : Rule) (s : Schema) : Bool :=
  match rule with
  | .noulTrue m => s.primitive == .noul && m ≤ ppm
  | .choiceIs optionId m => s.primitive == .choice && m ≤ ppm &&
      s.options.any fun o => o.id == optionId
  | .scoreTailAtMost first m => s.primitive == .score && decide (first.toNat < s.options.length) &&
      m ≤ ppm

def RequiredSignal.validate (s : RequiredSignal Digest) : Result Unit := do
  validateCompiled s.schema
  rejectIf (s.calibration = Hashing.zero) .uncalibrated
  rejectIf (¬s.rule.fits s.schema.schema) (.invalid "rule/schema mismatch")

def Plan.validate (p : Plan Digest) : Result Unit := do
  rejectIf (p.version = 0 ∨ p.id = Hashing.zero ∨ p.model = Hashing.zero ∨ p.signals = [] ∨
    maxSlots < p.signals.length) (.invalid "plan")
  p.signals.forM RequiredSignal.validate

namespace Grant

def eligible (g : Grant Digest) (caller : Principal) (p : TransferProposal) (now : UInt64) :
    Result Unit := do
  rejectIf (caller ≠ g.delegate ∨ g.revoked ∨ g.expiresAtNs ≤ now) .unauthorized
  rejectIf (g.ledger ≠ p.ledger ∨ g.fromSubaccount ≠ p.fromSubaccount ∨
    p.toAccount ∉ g.recipients ∨ g.maxAmount < p.amount ∨ g.maxFee < p.fee)
    (.denied "ledger/account/amount/fee")
  p.validate

def reserve (g : Grant Digest) (charge : U128) (epoch : UInt64) : Result (Grant Digest) := do
  rejectIf (¬g.windows.contains epoch ∧ 64 ≤ g.windows.size) .capacity
  let window := g.windows[epoch]?.getD default
  let total ← okOr ((checkedAdd g.total.spent g.total.reserved).bind (checkedAdd · charge)) .budget
  let win ← okOr ((checkedAdd window.spent window.reserved).bind (checkedAdd · charge)) .budget
  rejectIf (g.totalCap < total ∨ g.windowCap < win) .budget
  let totalReserved ← okOr (checkedAdd g.total.reserved charge) .budget
  let windowReserved ← okOr (checkedAdd window.reserved charge) .budget
  pure { g with
    total := ⟨g.total.spent, totalReserved⟩
    windows := g.windows.insert epoch ⟨window.spent, windowReserved⟩ }

def settle (g : Grant Digest) (charge : U128) (epoch : UInt64) (success : Bool) :
    Result (Grant Digest) := do
  let old ← okOr g.windows[epoch]? .storage
  let tr ← okOr (checkedSub g.total.reserved charge) .storage
  let wr ← okOr (checkedSub old.reserved charge) .storage
  let ts ← if success then okOr (checkedAdd g.total.spent charge) .budget else pure g.total.spent
  let ws ← if success then okOr (checkedAdd old.spent charge) .budget else pure old.spent
  pure { g with total := ⟨ts, tr⟩, windows := g.windows.insert epoch ⟨ws, wr⟩ }

end Grant

def FrozenTransfer.canonical (f : FrozenTransfer Digest) : Canonical :=
  (((Canonical.new "ic-laya/frozen-transfer/v1").digest (f.proposal.digest : Digest)).digest
    f.memo).u64 f.createdAtTimeNs

def FrozenTransfer.digest (f : FrozenTransfer Digest) : Digest := f.canonical.finish

/-- The bytes a snapshot hashes. -/
def snapshotCanonical (o : Operation Digest) (g : Grant Digest) (p : Plan Digest) : Canonical :=
  let h := ((((Canonical.new "ic-laya/snapshot/v1").digest o.id).u64 o.revision).text
    o.evidence).digest (o.proposal.digest : Digest)
  let h := ((((h.digest g.id).u64 g.revision).digest p.id).u64 p.version).digest p.model
  p.signals.foldl (fun h s => (h.digest s.schema.schemaHash).digest s.calibration) h

def snapshot (o : Operation Digest) (g : Grant Digest) (p : Plan Digest) : Digest :=
  (snapshotCanonical o g p).finish

/-- The last match of `check_rule`. -/
def Rule.check (rule : Rule) (s : Schema) (d : Distribution) : Result Bool :=
  match rule with
  | .noulTrue m => pure (m ≤ d.mass.getD 1 0 && !d.diagnostics.tied)
  | .choiceIs optionId m =>
    pure ((s.options[d.argmax]?.map OptionDef.id == some optionId) &&
      m ≤ d.mass.getD d.argmax 0 && !d.diagnostics.tied)
  | .scoreTailAtMost first m => do
    let t ← d.tail first.toNat
    pure (t ≤ m)

/-- Recomputes the distribution and applies the registered rule to it. -/
def checkRule (required : RequiredSignal Digest) (receipt : Receipt Digest) : Result Bool :=
  match receipt.outcome with
  | .abstained _ => pure false
  | .error e => throw e
  | .assessed v => do
    let d ← validateValue required.schema.schema v
    rejectIf (receipt.diagnostics ≠ some d.diagnostics) .bindingMismatch
    required.rule.check required.schema.schema d

/-- What `finish_ledger` asks of a block index: up to 128 ASCII digits. -/
def validBlockIndex (index : String) : Bool :=
  !index.isEmpty && index.utf8ByteSize ≤ 128 && index.toList.all Char.isDigit

/-- One entry of the loop of `recover_after_upgrade`. -/
def RequestRecord.recover (r : RequestRecord Digest) : RequestRecord Digest :=
  match r.status with
  | .evaluating => { r with status := .needsReview "upgrade interrupted inference", pending := none }
  | .submitted =>
    { r with status := .outcomeUnknown "upgrade interrupted callback", everUnknown := true }
  | _ => r

end IcLaya
