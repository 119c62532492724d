import IcLaya.TransitionSystems
import IcLaya.Workflow

/-!
# Calls on the executor state, and what one call can do

`Op` lists the public operations with all their arguments; forged commands and tokens
are allowed. `Change` says once what a call can do to the state, guards included, and
every invariant is derived from it.
-/
namespace IcLaya
open CheckedWords Fallible OrderedMaps TransitionSystems

inductive Op (Digest : Type) [Ord Digest]
  | setMode (caller : Principal) (mode : Mode)
  | setPaused (caller : Principal) (pause : Bool)
  | addMockLedger (caller ledger : Principal)
  | installPlan (caller : Principal) (p : Plan Digest)
  | installOperation (caller : Principal) (o : Operation Digest)
  | reviseOperation (caller : Principal) (id : Digest) (evidence : String)
  | installGrant (caller : Principal) (g : Grant Digest)
  | revoke (caller : Principal) (id : Digest)
  | submit (caller : Principal) (nonce : UInt64) (operation grant : Digest) (now : UInt64)
  | beginEvaluation (caller : Principal) (id : Digest) (now : UInt64)
  | engineTransportFailed (id evalId : Digest)
  | finishEvaluation (id evalId : Digest) (result : Result (Receipt Digest)) (now : UInt64)
  | prepareDispatch (authorization : AuthorizedTransfer Digest) (now : UInt64)
  | finishLedger (cmd : DispatchCommand Digest) (outcome : LedgerOutcome)
  | retryUnknown (caller : Principal) (id : Digest) (now : UInt64)
  | cancel (caller : Principal) (id : Digest)
  | recoverAfterUpgrade

variable {Digest : Type} [Hashing Digest]

namespace ExecutorState

/-- The state a call leaves behind. -/
def commit {α : Type} (s : ExecutorState Digest) (f : α → ExecutorState Digest) :
    Result α → ExecutorState Digest
  | .ok a => f a
  | .error _ => s

/-- The state after a call, whether it returned `Ok` or `Err`. -/
def step (s : ExecutorState Digest) : Op Digest → ExecutorState Digest
  | .setMode caller mode => s.commit id (s.setMode caller mode)
  | .setPaused caller pause => s.commit id (s.setPaused caller pause)
  | .addMockLedger caller ledger => s.commit id (s.addMockLedger caller ledger)
  | .installPlan caller p => s.commit id (s.installPlan caller p)
  | .installOperation caller o => s.commit id (s.installOperation caller o)
  | .reviseOperation caller i evidence => s.commit id (s.reviseOperation caller i evidence)
  | .installGrant caller g => s.commit id (s.installGrant caller g)
  | .revoke caller i => s.commit id (s.revoke caller i)
  | .submit caller nonce operation grant now =>
    s.commit Prod.fst (s.submit caller nonce operation grant now)
  | .beginEvaluation caller i now => s.commit Prod.fst (s.beginEvaluation caller i now)
  | .engineTransportFailed i evalId => s.commit id (s.engineTransportFailed i evalId)
  | .finishEvaluation i evalId result now =>
    s.commit Prod.fst (s.finishEvaluation i evalId result now)
  | .prepareDispatch authorization now => s.commit Prod.fst (s.prepareDispatch authorization now)
  | .finishLedger cmd outcome => s.commit Prod.fst (s.finishLedger cmd outcome)
  | .retryUnknown caller i now => s.commit Prod.fst (s.retryUnknown caller i now)
  | .cancel caller i => s.commit id (s.cancel caller i)
  | .recoverAfterUpgrade => s.recoverAfterUpgrade

/-- The dispatch command a call produces. -/
def command (s : ExecutorState Digest) : Op Digest → Option (DispatchCommand Digest)
  | .prepareDispatch authorization now =>
    match s.prepareDispatch authorization now with
    | .ok (_, .ok cmd) => some cmd
    | _ => none
  | .retryUnknown caller i now =>
    match s.retryUnknown caller i now with
    | .ok (_, cmd) => some cmd
    | _ => none
  | _ => none

theorem command_prepareDispatch {s : ExecutorState Digest} {a : AuthorizedTransfer Digest}
    {now : UInt64} {cmd : DispatchCommand Digest} :
    s.command (.prepareDispatch a now) = some cmd ↔
      ∃ s', s.prepareDispatch a now = .ok (s', .ok cmd) := by
  simp only [command]
  split
  · next s' cmd' h => simp [h]
  · next hn =>
    simp only [reduceCtorEq, false_iff, not_exists]
    exact fun s' h => hn s' cmd h

theorem command_retryUnknown {s : ExecutorState Digest} {caller : Principal} {i : Digest}
    {now : UInt64} {cmd : DispatchCommand Digest} :
    s.command (.retryUnknown caller i now) = some cmd ↔
      ∃ s', s.retryUnknown caller i now = .ok (s', cmd) := by
  simp only [command]
  split
  · next s' cmd' h => simp [h]
  · next hn =>
    simp only [reduceCtorEq, false_iff, not_exists]
    exact fun s' h => hn s' cmd h

/-- A state that some finite sequence of calls reaches from a new executor. -/
def Reachable (s : ExecutorState Digest) : Prop :=
  ∃ self owner engine ops, s = run step (new self owner engine) ops

@[simp] theorem commit_ok {α : Type} (s : ExecutorState Digest) (f : α → ExecutorState Digest)
    (a : α) : s.commit f (.ok a) = f a := rfl

@[simp] theorem commit_error {α : Type} (s : ExecutorState Digest)
    (f : α → ExecutorState Digest) (e : Error) : s.commit f (.error e) = s := rfl

@[simp] theorem putRequest_plans (s : ExecutorState Digest) (k : Digest) (r : RequestRecord Digest) :
    (s.putRequest k r).plans = s.plans := rfl
@[simp] theorem putRequest_operations (s : ExecutorState Digest) (k : Digest)
    (r : RequestRecord Digest) : (s.putRequest k r).operations = s.operations := rfl
@[simp] theorem putRequest_grants (s : ExecutorState Digest) (k : Digest)
    (r : RequestRecord Digest) : (s.putRequest k r).grants = s.grants := rfl
@[simp] theorem putRequest_nextNonce (s : ExecutorState Digest) (k : Digest)
    (r : RequestRecord Digest) : (s.putRequest k r).nextNonce = s.nextNonce := rfl
@[simp] theorem putRequest_requests (s : ExecutorState Digest) (k : Digest)
    (r : RequestRecord Digest) : (s.putRequest k r).requests = s.requests.insert k r := rfl
@[simp] theorem putRequest_instancePrincipal (s : ExecutorState Digest) (k : Digest)
    (r : RequestRecord Digest) : (s.putRequest k r).instancePrincipal = s.instancePrincipal := rfl

end ExecutorState

/-! A small deployment whose invoice is judged, dispatched and paid; closed instances of the
general theorems are about it. -/
namespace Sample

def owner : Principal := ⟨[1], by decide⟩
def engine : Principal := ⟨[2], by decide⟩
def self : Principal := ⟨[3], by decide⟩
def delegate : Principal := ⟨[5], by decide⟩
def ledger : Principal := ⟨[6], by decide⟩
def digest (n : UInt8) : SymbolicDigest := ⟨[n]⟩

def schema : Schema :=
  ⟨"risk", 1, .noul, "Is it approved?", [⟨"false", "no"⟩, ⟨"true", "yes"⟩]⟩

def compiled : CompiledSchema SymbolicDigest :=
  ⟨schema, schema.digest (digest 1), digest 1, [0, 7, 1, 2, 8, 2, 9, 1], [3, 5],
    ⟨0, 1, 2, 3, ["[MASK]"]⟩, 0⟩

def plan : Plan SymbolicDigest := ⟨digest 20, 1, digest 2, [⟨compiled, digest 3, .noulTrue 800000⟩]⟩

def recipient : Account := ⟨⟨[7], by decide⟩, Vector.replicate 32 0⟩
def proposal : TransferProposal := ⟨ledger, Vector.replicate 32 0, recipient, 100, 10⟩

def operation : Operation SymbolicDigest :=
  ⟨digest 21, 1, "invoice 7 is approved", proposal, .available⟩

def grant : Grant SymbolicDigest :=
  { id := digest 22, revision := 1, delegate, plan := plan.id, ledger,
    fromSubaccount := Vector.replicate 32 0, recipients := [recipient], maxAmount := 500,
    maxFee := 10, totalCap := 1000, windowCap := 500, windowNs := 1000,
    expiresAtNs := 1000000000000, revoked := false, total := default, windows := ∅ }

def start : ExecutorState SymbolicDigest := ExecutorState.new self owner engine
def request : SymbolicDigest := start.requestId delegate 0
def snapshot : SymbolicDigest := IcLaya.snapshot operation grant plan
def evalId : SymbolicDigest := (ExecutorState.slotCanonical request 0 snapshot).finish

def receipt : Receipt SymbolicDigest :=
  { stamp := ⟨evalId, compiled.schemaHash, digest 1, digest 2, some (digest 3),
      some ⟨request, 0, 0, snapshot⟩, hash (asBytes operation.evidence), profile, .checkpoint⟩
    outcome := .assessed (.noul 100000 900000)
    diagnostics := some ⟨900000, 800000, false⟩
    inputTokens := 20
    measuredInstructions := 7 }

def setup : List (Op SymbolicDigest) :=
  [.setMode owner .mock, .addMockLedger owner ledger, .installPlan owner plan,
    .installOperation owner operation, .installGrant owner grant,
    .submit delegate 0 operation.id grant.id 5000]

def judged : List (Op SymbolicDigest) :=
  setup ++ [.beginEvaluation delegate request 6000,
    .finishEvaluation request evalId (.ok receipt) 7000]

def token : AuthorizedTransfer SymbolicDigest := ⟨request, snapshot⟩
def frozen : FrozenTransfer SymbolicDigest := ⟨proposal, request, 8000⟩
def submitted : List (Op SymbolicDigest) := judged ++ [.prepareDispatch token 8000]

def unknown : List (Op SymbolicDigest) :=
  submitted ++ [.finishLedger ⟨request, 1, frozen⟩ (.unknown "ledger call failed or timed out")]

def retried : List (Op SymbolicDigest) := unknown ++ [.retryUnknown delegate request 9000]

def paid : List (Op SymbolicDigest) :=
  submitted ++ [.finishLedger ⟨request, 1, frozen⟩ (.success "0")]

end Sample

end IcLaya
