import IcLaya.BinaryCodecs
import IcLaya.DecisionEngine
import IcLaya.WorkflowRecords

/-!
# The layout of the snapshots

What `bincode` with integers of fixed width writes for the states of the executor and of the decision
engine: the fields of a structure in their order, an array without its length, a principal as bytes.
-/
namespace IcLaya.SnapshotLayout
open BinaryCodecs Codec

section Wire

def principal : Codec Principal :=
  bytes.iso Principal.asSlice (fun bs => if h : bs.length ≤ 29 then some ⟨bs, h⟩ else none)
    fun p => dif_pos p.length_le

def subaccount : Codec Subaccount := fixed 32 Vector.toList toBytes32 (by simp) toBytes32_toList

def error : Codec Error := variants {
  readers := [unit .unauthorized, text.field .invalid, unit .tooLong, unit .notFound,
    unit .bindingMismatch, unit .expired, unit .idConflict, unit .capacity,
    text.field .modelUnavailable, unit .numeric, unit .uncalibrated, unit .busy, unit .transition,
    unit .nonceConsumed, unit .nonceGap, unit .operationUsed, text.field .denied, unit .budget,
    unit .stale, unit .reportOnly, unit .liveDisabled, unit .outcomeUnknown, unit .storage]
  tag := fun
    | .unauthorized => 0 | .invalid _ => 1 | .tooLong => 2 | .notFound => 3 | .bindingMismatch => 4
    | .expired => 5 | .idConflict => 6 | .capacity => 7 | .modelUnavailable _ => 8 | .numeric => 9
    | .uncalibrated => 10 | .busy => 11 | .transition => 12 | .nonceConsumed => 13 | .nonceGap => 14
    | .operationUsed => 15 | .denied _ => 16 | .budget => 17 | .stale => 18 | .reportOnly => 19
    | .liveDisabled => 20 | .outcomeUnknown => 21 | .storage => 22
  body := fun
    | .invalid t | .modelUnavailable t | .denied t => text.encode t
    | _ => []
  fits := fun
    | .invalid t | .modelUnavailable t | .denied t => text.fits t
    | _ => true
  few := by simp
  read_body := fun e h => by
    cases e with
    | invalid t | modelUnavailable t | denied t => exact ⟨_, rfl, text.field_encode _ h⟩
    | _ => exact ⟨_, rfl, fun _ => rfl⟩ }

def primitive : Codec Primitive :=
  enumeration [.choice, .noul, .score] (fun | .choice => 0 | .noul => 1 | .score => 2) (by simp)
    fun p => by cases p <;> rfl

def backendKind : Codec BackendKind :=
  enumeration [.checkpoint, .syntheticFixture] (fun | .checkpoint => 0 | .syntheticFixture => 1)
    (by simp) fun k => by cases k <;> rfl

def optionDef : Codec OptionDef :=
  (text.pair text).record (fun o => (o.id, o.text)) (fun (i, t) => ⟨i, t⟩) fun _ => rfl

def schema : Codec Schema :=
  (text.pair (u64.pair (primitive.pair (text.pair optionDef.list)))).record
    (fun s => (s.id, s.version, s.primitive, s.instructions, s.options))
    (fun (i, v, p, t, os) => ⟨i, v, p, t, os⟩) fun _ => rfl

def specialTokens : Codec SpecialTokens :=
  (u32.pair (u32.pair (u32.pair (u32.pair text.list)))).record
    (fun t => (t.cls, t.sep, t.mask, t.pad, t.literals))
    (fun (c, s, m, p, ls) => ⟨c, s, m, p, ls⟩) fun _ => rfl

def decisionValue : Codec DecisionValue := variants {
  readers := [(text.list.pair (u32.list.pair text)).field fun x => .choice x.1 x.2.1 x.2.2,
    (u32.pair u32).field fun x => .noul x.1 x.2,
    (text.list.pair (u32.list.pair (u64.pair u32))).field
      fun x => .score x.1 x.2.1 x.2.2.1 x.2.2.2]
  tag := fun | .choice .. => 0 | .noul .. => 1 | .score .. => 2
  body := fun
    | .choice ids mass selected => (text.list.pair (u32.list.pair text)).encode (ids, mass, selected)
    | .noul f t => (u32.pair u32).encode (f, t)
    | .score ids mass level mean =>
      (text.list.pair (u32.list.pair (u64.pair u32))).encode (ids, mass, level, mean)
  fits := fun
    | .choice ids mass selected => (text.list.pair (u32.list.pair text)).fits (ids, mass, selected)
    | .noul f t => (u32.pair u32).fits (f, t)
    | .score ids mass level mean =>
      (text.list.pair (u32.list.pair (u64.pair u32))).fits (ids, mass, level, mean)
  few := by simp
  read_body := fun v h => by cases v <;> exact ⟨_, rfl, field_encode _ _ h⟩ }

def diagnostics : Codec Diagnostics :=
  (u32.pair (u32.pair bool)).record (fun d => (d.top1Ppm, d.marginPpm, d.tied))
    (fun (t, m, e) => ⟨t, m, e⟩) fun _ => rfl

def evaluationOutcome : Codec EvaluationOutcome := variants {
  readers := [decisionValue.field .assessed, text.field .abstained, error.field .error]
  tag := fun | .assessed _ => 0 | .abstained _ => 1 | .error _ => 2
  body := fun
    | .assessed v => decisionValue.encode v
    | .abstained t => text.encode t
    | .error e => error.encode e
  fits := fun
    | .assessed v => decisionValue.fits v
    | .abstained t => text.fits t
    | .error e => error.fits e
  few := by simp
  read_body := fun o h => by cases o <;> exact ⟨_, rfl, field_encode _ _ h⟩ }

def account : Codec Account :=
  (principal.pair subaccount).record (fun a => (a.owner, a.subaccount)) (fun (o, s) => ⟨o, s⟩)
    fun _ => rfl

def transferProposal : Codec TransferProposal :=
  (principal.pair (subaccount.pair (account.pair (u128.pair u128)))).record
    (fun p => (p.ledger, p.fromSubaccount, p.toAccount, p.amount, p.fee))
    (fun (l, s, a, m, f) => ⟨l, s, a, m, f⟩) fun _ => rfl

end Wire

variable {Digest : Type} [ByteDigest Digest]

/-! The order of the keys, under short names. -/
local instance digestTrans : Std.TransOrd Digest := Hashing.transOrd
local instance digestLawful : Std.LawfulEqOrd Digest := Hashing.lawfulEqOrd
local instance pairTrans : Std.TransOrd (Principal × Digest) := inferInstance
local instance pairLawful : Std.LawfulEqOrd (Principal × Digest) := inferInstance

/-- `[u8;32]`. -/
def digest : Codec Digest :=
  fixed 32 Hashing.toBytes Hashing.ofBytes ByteDigest.length_toBytes Hashing.ofBytes_toBytes

def compiledSchema : Codec (CompiledSchema Digest) :=
  (schema.pair (digest.pair (digest.pair (u32.list.pair (u32.list.pair
    (specialTokens.pair u32)))))).record
    (fun s => (s.schema, s.schemaHash, s.tokenizerHash, s.prefixIds, s.markers, s.special, s.qtypeId))
    (fun (s, h, t, p, m, x, q) => ⟨s, h, t, p, m, x, q⟩) fun _ => rfl

def binding : Codec (Binding Digest) :=
  (digest.pair (u8.pair (u32.pair digest))).record
    (fun b => (b.workflow, b.slot, b.attempt, b.snapshot)) (fun (w, i, a, s) => ⟨w, i, a, s⟩)
    fun _ => rfl

def decisionRequest : Codec (DecisionRequest Digest) :=
  (digest.pair (digest.pair (digest.pair (digest.option.pair (binding.option.pair
    (text.pair u64)))))).record
    (fun q => (q.evaluationId, q.schemaHash, q.model, q.calibration, q.binding, q.state,
      q.expiresAtNs))
    (fun (e, s, m, c, b, t, x) => ⟨e, s, m, c, b, t, x⟩) fun _ => rfl

def stamp : Codec (Stamp Digest) :=
  (digest.pair (digest.pair (digest.pair (digest.pair (digest.option.pair (binding.option.pair
    (digest.pair (text.pair backendKind)))))))).record
    (fun s => (s.evaluationId, s.schemaHash, s.tokenizerHash, s.model, s.calibration, s.binding,
      s.stateHash, s.profile, s.backend))
    (fun (e, s, t, m, c, b, h, p, k) => ⟨e, s, t, m, c, b, h, p, k⟩) fun _ => rfl

def receipt : Codec (Receipt Digest) :=
  (stamp.pair (evaluationOutcome.pair (diagnostics.option.pair (u32.pair u64)))).record
    (fun r => (r.stamp, r.outcome, r.diagnostics, r.inputTokens, r.measuredInstructions))
    (fun (s, o, d, n, i) => ⟨s, o, d, n, i⟩) fun _ => rfl

section Executor

def mode : Codec Mode :=
  enumeration [.reportOnly, .shadow, .mock, .limitedLive]
    (fun | .reportOnly => 0 | .shadow => 1 | .mock => 2 | .limitedLive => 3) (by simp)
    fun m => by cases m <;> rfl

def rule : Codec Rule := variants {
  readers := [u32.field .noulTrue, (text.pair u32).field fun x => .choiceIs x.1 x.2,
    (u32.pair u32).field fun x => .scoreTailAtMost x.1 x.2]
  tag := fun | .noulTrue _ => 0 | .choiceIs .. => 1 | .scoreTailAtMost .. => 2
  body := fun
    | .noulTrue m => u32.encode m
    | .choiceIs i m => (text.pair u32).encode (i, m)
    | .scoreTailAtMost b m => (u32.pair u32).encode (b, m)
  fits := fun
    | .noulTrue m => u32.fits m
    | .choiceIs i m => (text.pair u32).fits (i, m)
    | .scoreTailAtMost b m => (u32.pair u32).fits (b, m)
  few := by simp
  read_body := fun r h => by cases r <;> exact ⟨_, rfl, field_encode _ _ h⟩ }

def requiredSignal : Codec (RequiredSignal Digest) :=
  (compiledSchema.pair (digest.pair rule)).record (fun s => (s.schema, s.calibration, s.rule))
    (fun (s, c, r) => ⟨s, c, r⟩) fun _ => rfl

def plan : Codec (Plan Digest) :=
  (digest.pair (u64.pair (digest.pair requiredSignal.list))).record
    (fun p => (p.id, p.version, p.model, p.signals)) (fun (i, v, m, ss) => ⟨i, v, m, ss⟩)
    fun _ => rfl

def operationStatus : Codec (OperationStatus Digest) := variants {
  readers := [unit .available, digest.field .reserved, digest.field .consumed]
  tag := fun | .available => 0 | .reserved _ => 1 | .consumed _ => 2
  body := fun
    | .available => []
    | .reserved k | .consumed k => digest.encode k
  fits := fun _ => true
  few := by simp
  read_body := fun s _ => by
    cases s with
    | available => exact ⟨_, rfl, fun _ => rfl⟩
    | _ => exact ⟨_, rfl, field_encode _ _ rfl⟩ }

def operation : Codec (Operation Digest) :=
  (digest.pair (u64.pair (text.pair (transferProposal.pair operationStatus)))).record
    (fun o => (o.id, o.revision, o.evidence, o.proposal, o.status))
    (fun (i, r, e, p, s) => ⟨i, r, e, p, s⟩) fun _ => rfl

def usage : Codec Usage :=
  (u128.pair u128).record (fun u => (u.spent, u.reserved)) (fun (s, r) => ⟨s, r⟩) fun _ => rfl

def grant : Codec (Grant Digest) :=
  (digest.pair (u64.pair (principal.pair (digest.pair (principal.pair (subaccount.pair
    (account.list.pair (u128.pair (u128.pair (u128.pair (u128.pair (u64.pair (u64.pair (bool.pair
    (usage.pair (u64.map usage)))))))))))))))).record
    (fun g => (g.id, g.revision, g.delegate, g.plan, g.ledger, g.fromSubaccount, g.recipients,
      g.maxAmount, g.maxFee, g.totalCap, g.windowCap, g.windowNs, g.expiresAtNs, g.revoked, g.total,
      g.windows))
    (fun (i, r, d, p, l, s, rs, a, f, t, w, n, e, v, u, ws) =>
      ⟨i, r, d, p, l, s, rs, a, f, t, w, n, e, v, u, ws⟩) fun _ => rfl

def status : Codec Status := variants {
  readers := [unit .received, unit .evaluating, unit .readyToDispatch, unit .reported,
    text.field .needsReview, unit .stale, unit .cancelled, unit .submitted,
    text.field .outcomeUnknown, text.field .succeeded, text.field .failedDefinitive]
  tag := fun
    | .received => 0 | .evaluating => 1 | .readyToDispatch => 2 | .reported => 3 | .needsReview _ => 4
    | .stale => 5 | .cancelled => 6 | .submitted => 7 | .outcomeUnknown _ => 8 | .succeeded _ => 9
    | .failedDefinitive _ => 10
  body := fun
    | .needsReview t | .outcomeUnknown t | .succeeded t | .failedDefinitive t => text.encode t
    | _ => []
  fits := fun
    | .needsReview t | .outcomeUnknown t | .succeeded t | .failedDefinitive t => text.fits t
    | _ => true
  few := by simp
  read_body := fun s h => by
    cases s with
    | needsReview t | outcomeUnknown t | succeeded t | failedDefinitive t =>
      exact ⟨_, rfl, text.field_encode _ h⟩
    | _ => exact ⟨_, rfl, fun _ => rfl⟩ }

def pendingEvaluation : Codec (PendingEvaluation Digest) :=
  (decisionRequest.pair (bool.pair u8)).record (fun q => (q.request, q.inFlight, q.sends))
    (fun (q, f, n) => ⟨q, f, n⟩) fun _ => rfl

def reservation : Codec Reservation :=
  (u128.pair u64).record (fun v => (v.charge, v.epoch)) (fun (c, e) => ⟨c, e⟩) fun _ => rfl

def frozenTransfer : Codec (FrozenTransfer Digest) :=
  (transferProposal.pair (digest.pair u64)).record (fun f => (f.proposal, f.memo, f.createdAtTimeNs))
    (fun (p, m, t) => ⟨p, m, t⟩) fun _ => rfl

def requestRecord : Codec (RequestRecord Digest) :=
  (digest.pair (principal.pair (u64.pair (digest.pair (digest.pair (digest.pair (u64.pair (u64.pair
    (digest.pair (u64.pair (status.pair (receipt.list.pair (pendingEvaluation.option.pair
    (reservation.option.pair (frozenTransfer.option.pair (u8.pair bool)))))))))))))))).record
    (fun r => (r.id, r.caller, r.nonce, r.operation, r.grant, r.plan, r.operationRevision,
      r.grantRevision, r.snapshot, r.expiresAtNs, r.status, r.receipts, r.pending, r.reservation,
      r.frozen, r.ledgerAttempt, r.everUnknown))
    (fun (i, c, n, o, g, p, ro, rg, s, e, st, rs, q, v, f, a, u) =>
      ⟨i, c, n, o, g, p, ro, rg, s, e, st, rs, q, v, f, a, u⟩) fun _ => rfl

def executorState : Codec (ExecutorState Digest) :=
  (principal.pair (principal.pair (principal.pair (mode.pair (bool.pair ((digest.map plan).pair
    ((digest.map operation).pair ((digest.map grant).pair ((digest.map requestRecord).pair
    ((principal.map u64).pair principal.list)))))))))).record
    (fun s => (s.instancePrincipal, s.owner, s.engine, s.mode, s.paused, s.plans, s.operations,
      s.grants, s.requests, s.nextNonce, s.mockLedgers))
    (fun (i, o, e, m, b, ps, os, gs, rs, ns, ls) => ⟨i, o, e, m, b, ps, os, gs, rs, ns, ls⟩)
    fun _ => rfl

end Executor

section Engine
variable {F : Type} [Doubles F] (double : Codec F)

def calibration : Codec (Calibration F Digest) :=
  (digest.pair (digest.pair (digest.pair (digest.pair (double.pair (u64.pair (digest.pair
    (u64.pair bool)))))))).record
    (fun c => (c.id, c.model, c.schema, c.tokenizer, c.temperature, c.expiresAtNs, c.holdoutHash,
      c.sampleCount, c.testOnly))
    (fun (i, m, s, t, x, e, h, n, b) => ⟨i, m, s, t, x, e, h, n, b⟩) fun _ => rfl

def cached : Codec (Cached Digest) :=
  (digest.pair (result receipt error)).record (fun c => (c.fingerprint, c.result))
    (fun (f, r) => ⟨f, r⟩) fun _ => rfl

def callerQuota : Codec CallerQuota :=
  (u64.pair (u32.pair u32)).record (fun q => (q.epoch, q.used, q.maxPerMinute))
    (fun (e, n, m) => ⟨e, n, m⟩) fun _ => rfl

def engineState : Codec (EngineState F Digest) :=
  (digest.pair ((digest.map compiledSchema).pair ((digest.map (calibration double)).pair
    ((principal.map callerQuota).pair (((principal.pair digest).map cached).pair u32))))).record
    (fun s => (s.activeModel, s.schemas, s.calibrations, s.callers, s.cache, s.maxCacheEntries))
    (fun (m, ss, cs, qs, es, n) => ⟨m, ss, cs, qs, es, n⟩) fun _ => rfl

def upload : Codec Upload :=
  (bytes.pair (u64.pair (u64.pair (u64.pair specialTokens)))).record
    (fun u => (u.manifest, u.tokenizerLength, u.modelLength, u.received, u.special))
    (fun (m, t, l, r, s) => ⟨m, t, l, r, s⟩) fun _ => rfl

def persistent : Codec (Persistent F Digest) :=
  (principal.pair ((engineState double).pair (bool.pair upload.option))).record
    (fun p => (p.owner, p.engine, p.fixtureMode, p.upload)) (fun (o, e, f, u) => ⟨o, e, f, u⟩)
    fun _ => rfl

end Engine

/-- A code as a serializer: a value whose lengths cannot be written down has no image. -/
def bincode {T : Type} (c : Codec T) : Bincode T where
  serialize v := if c.fits v = true then some (c.encode v) else none
  deserialize := c.read

theorem serialize_eq_some {T : Type} {c : Codec T} {v : T} {bytes : List UInt8} :
    (bincode c).serialize v = some bytes ↔ c.fits v = true ∧ c.encode v = bytes := by
  simp only [SnapshotLayout.bincode, Option.ite_none_right_eq_some, Option.some_inj]

theorem bincode_inverts {T : Type} (c : Codec T) : (bincode c).Inverts := by
  intro v bytes h
  obtain ⟨hfits, rfl⟩ := serialize_eq_some.mp h
  exact c.read_encode hfits

end IcLaya.SnapshotLayout
