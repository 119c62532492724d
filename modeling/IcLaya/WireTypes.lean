import IcLaya.CheckedWords
import IcLaya.Digests
import IcLaya.Fallible

/-! The shared wire types, their canonical digests and their validation (`types.rs`).
Durations, amounts and counters keep the code's widths; a double is any type with
the operations the numeric code uses. -/
namespace IcLaya
open CheckedWords Fallible

def ppm : UInt32 := 1000000
def maxTokens : ℕ := 128
def maxPrefix : ℕ := 64
def maxStateBytes : ℕ := 16 * 1024
def maxSlots : ℕ := 3
def profile : String := "Compact128-v1"

inductive Error
  | unauthorized
  | invalid (what : String)
  | tooLong
  | notFound
  | bindingMismatch
  | expired
  | idConflict
  | capacity
  | modelUnavailable (why : String)
  | numeric
  | uncalibrated
  | busy
  | transition
  | nonceConsumed
  | nonceGap
  | operationUsed
  | denied (why : String)
  | budget
  | stale
  | reportOnly
  | liveDisabled
  | outcomeUnknown
  | storage
  deriving DecidableEq

/-- `to_string` of an error. -/
def Error.display : Error → String
  | .unauthorized => "unauthorized"
  | .invalid what => "invalid input: " ++ what
  | .tooLong => "input exceeds a registered limit"
  | .notFound => "unknown schema/model/operation"
  | .bindingMismatch => "version or binding mismatch"
  | .expired => "expired"
  | .idConflict => "duplicate ID with different content"
  | .capacity => "quota or bounded storage exhausted"
  | .modelUnavailable why => "model unavailable: " ++ why
  | .numeric => "invalid numeric output"
  | .uncalibrated => "uncalibrated or expired calibration"
  | .busy => "workflow busy"
  | .transition => "invalid state transition"
  | .nonceConsumed => "nonce already consumed"
  | .nonceGap => "unexpected nonce"
  | .operationUsed => "trusted business operation already reserved or consumed"
  | .denied why => "hard policy rejected request: " ++ why
  | .budget => "budget exhausted or arithmetic overflow"
  | .stale => "state changed during inference"
  | .reportOnly => "report-only; no transaction dispatched"
  | .liveDisabled => "live dispatch is not implemented/enabled in this release"
  | .outcomeUnknown => "ledger outcome is unknown; reservation retained"
  | .storage => "storage corruption or incompatible version"

abbrev Result (α : Type) := Except Error α

inductive Primitive | choice | noul | score deriving DecidableEq

namespace Primitive

def tag : Primitive → UInt64 | choice => 0 | noul => 1 | score => 2
def text : Primitive → String | choice => "choice" | noul => "noul" | score => "score"

def countValid (n : ℕ) : Primitive → Bool
  | choice => 2 ≤ n ∧ n ≤ 5
  | noul => n = 2
  | score => 3 ≤ n ∧ n ≤ 7

end Primitive

structure OptionDef where
  id : String
  text : String
  deriving DecidableEq

structure Schema where
  id : String
  version : UInt64
  primitive : Primitive
  instructions : String
  options : List OptionDef
  deriving DecidableEq

structure SpecialTokens where
  cls : UInt32
  sep : UInt32
  mask : UInt32
  pad : UInt32
  literals : List String
  deriving DecidableEq

structure CompiledSchema (Digest : Type) where
  schema : Schema
  schemaHash : Digest
  tokenizerHash : Digest
  prefixIds : List UInt32
  markers : List UInt32
  special : SpecialTokens
  qtypeId : UInt32
  deriving DecidableEq

structure TokenInput where
  inputIds : List UInt32
  markers : List UInt32
  qtypeId : UInt32
  deriving DecidableEq

inductive BackendKind | checkpoint | syntheticFixture deriving DecidableEq

structure Binding (Digest : Type) where
  workflow : Digest
  slot : UInt8
  attempt : UInt32
  snapshot : Digest
  deriving DecidableEq

structure DecisionRequest (Digest : Type) where
  evaluationId : Digest
  schemaHash : Digest
  model : Digest
  calibration : Option Digest
  binding : Option (Binding Digest)
  state : String
  expiresAtNs : UInt64
  deriving DecidableEq

structure Stamp (Digest : Type) where
  evaluationId : Digest
  schemaHash : Digest
  tokenizerHash : Digest
  model : Digest
  calibration : Option Digest
  binding : Option (Binding Digest)
  stateHash : Digest
  profile : String
  backend : BackendKind
  deriving DecidableEq

inductive DecisionValue
  | choice (optionIds : List String) (massPpm : List UInt32) (selectedId : String)
  | noul (falsePpm truePpm : UInt32)
  | score (binIds : List String) (massPpm : List UInt32) (expectedLevelMicrounits : UInt64)
      (meanPpm : UInt32)
  deriving DecidableEq

def DecisionValue.masses : DecisionValue → List UInt32
  | choice _ mass _ => mass
  | noul f t => [f, t]
  | score _ mass _ _ => mass

structure Diagnostics where
  top1Ppm : UInt32
  marginPpm : UInt32
  tied : Bool
  deriving DecidableEq

inductive EvaluationOutcome
  | assessed (value : DecisionValue)
  | abstained (why : String)
  | error (e : Error)
  deriving DecidableEq

structure Receipt (Digest : Type) where
  stamp : Stamp Digest
  outcome : EvaluationOutcome
  diagnostics : Option Diagnostics
  inputTokens : UInt32
  measuredInstructions : UInt64
  deriving DecidableEq

abbrev Subaccount := Vector UInt8 32

structure Account where
  owner : Principal
  subaccount : Subaccount
  deriving DecidableEq

structure TransferProposal where
  ledger : Principal
  fromSubaccount : Subaccount
  toAccount : Account
  amount : U128
  fee : U128
  deriving DecidableEq

section Digests
variable {Digest : Type} [Hashing Digest]

def Schema.digest (s : Schema) (tokenizer : Digest) : Digest :=
  let h := (((((Canonical.new "ic-laya/schema/v1").text s.id).u64 s.version).u64
    s.primitive.tag).text s.instructions).u64 (UInt64.ofNat s.options.length)
  let h := s.options.foldl (fun h o => (h.text o.id).text o.text) h
  ((h.digest tokenizer).text profile).finish

def Canonical.calibration (h : Canonical) : Option Digest → Canonical
  | some x => (h.u64 1).digest x
  | none => h.u64 0

def Canonical.binding (h : Canonical) : Option (Binding Digest) → Canonical
  | some b => ((((h.u64 1).digest b.workflow).u64 b.slot.toUInt64).u64 b.attempt.toUInt64).digest
      b.snapshot
  | none => h.u64 0

def DecisionRequest.canonical (q : DecisionRequest Digest) : Canonical :=
  let h := (((Canonical.new "ic-laya/evaluation/v1").digest q.evaluationId).digest
    q.schemaHash).digest q.model
  (((h.calibration q.calibration).binding q.binding).text q.state).u64 q.expiresAtNs

def DecisionRequest.digest (q : DecisionRequest Digest) : Digest := q.canonical.finish

def Account.write (a : Account) (h : Canonical) : Canonical :=
  (h.bytes a.owner.asSlice).bytes a.subaccount.toList

def TransferProposal.canonical (p : TransferProposal) : Canonical :=
  let h := ((Canonical.new "ic-laya/proposal/v1").bytes p.ledger.asSlice).bytes
    p.fromSubaccount.toList
  ((p.toAccount.write h).u128 p.amount).u128 p.fee

def TransferProposal.digest (p : TransferProposal) : Digest := p.canonical.finish

end Digests

def Account.validate (a : Account) : Result Unit :=
  rejectIf (a.owner = .anonymous ∨ a.owner = .managementCanister) (.invalid "recipient principal")

def TransferProposal.charge (p : TransferProposal) : Result U128 :=
  okOr (checkedAdd p.amount p.fee) .budget

def TransferProposal.validate (p : TransferProposal) : Result Unit := do
  p.toAccount.validate
  rejectIf (p.amount = 0 ∨ p.ledger = .anonymous ∨ p.ledger = .managementCanister)
    (.invalid "transfer proposal")
  let _ ← p.charge

theorem TransferProposal.charge_eq_ok {p : TransferProposal} {c : U128} :
    p.charge = .ok c ↔ c.toNat = p.amount.toNat + p.fee.toNat := by
  simp [charge, checkedAdd_eq_some]

/-- A validated proposal has a charge. -/
theorem TransferProposal.charge_of_validate {p : TransferProposal} (h : p.validate = .ok ()) :
    ∃ c, p.charge = .ok c := by
  simp only [validate, bind_eq_ok] at h
  obtain ⟨_, _, _, _, c, hc, _⟩ := h
  exact ⟨c, hc⟩

/-- The pre-image of a proposal determines every field. -/
theorem TransferProposal.canonical_append_inj {p q : TransferProposal} {r s : List UInt8}
    (h : p.canonical.written ++ r = q.canonical.written ++ s) : p = q ∧ r = s := by
  have hsub : ∀ v : Subaccount, v.toList.length < 2 ^ 64 := fun v => by simp
  simp only [canonical, Account.write, Canonical.new, Canonical.text, Canonical.bytes,
    Canonical.u128, List.append_assoc, List.append_cancel_left_eq] at h
  obtain ⟨hl, h⟩ := principal_append_inj h
  obtain ⟨hf, h⟩ := ByteFrames.frame_append_inj (hsub _) (hsub _) h
  obtain ⟨ho, h⟩ := principal_append_inj h
  obtain ⟨ht, h⟩ := ByteFrames.frame_append_inj (hsub _) (hsub _) h
  obtain ⟨ha, h⟩ := u128_append_inj h
  obtain ⟨he, h⟩ := u128_append_inj h
  obtain ⟨pl, pf, ⟨po, ps⟩, pa, pe⟩ := p
  obtain ⟨ql, qf, ⟨qo, qs⟩, qa, qe⟩ := q
  simp_all [Vector.toList_inj]

theorem TransferProposal.digest_inj {Digest : Type} [Hashing Digest] (hcf : CollisionFree Digest)
    {p q : TransferProposal} (h : (p.digest : Digest) = q.digest) : p = q := by
  have := hcf h
  exact (canonical_append_inj (r := []) (s := []) (by rw [this])).1

section RequestPreimage
variable {Digest : Type} [Hashing Digest]

private theorem calibration_append_inj {h : Canonical} {x y : Option Digest} {r s : List UInt8}
    (he : (h.calibration x).written ++ r = (h.calibration y).written ++ s) : x = y ∧ r = s := by
  cases x with
  | none =>
    cases y with
    | none => simpa [Canonical.calibration, Canonical.u64] using he
    | some y =>
      simp only [Canonical.calibration, Canonical.u64, Canonical.digest, List.append_assoc,
        List.append_cancel_left_eq] at he
      exact absurd (u64_append_inj he).1 (by decide)
  | some x =>
    cases y with
    | none =>
      simp only [Canonical.calibration, Canonical.u64, Canonical.digest, List.append_assoc,
        List.append_cancel_left_eq] at he
      exact absurd (u64_append_inj he).1 (by decide)
    | some y =>
      simp only [Canonical.calibration, Canonical.u64, Canonical.digest, List.append_assoc,
        List.append_cancel_left_eq] at he
      obtain ⟨hx, hr⟩ := Hashing.toBytes_append_inj he
      exact ⟨by rw [hx], hr⟩

private theorem binding_append_inj {h : Canonical} {x y : Option (Binding Digest)}
    {r s : List UInt8} (he : (h.binding x).written ++ r = (h.binding y).written ++ s) :
    x = y ∧ r = s := by
  cases x with
  | none =>
    cases y with
    | none => simpa [Canonical.binding, Canonical.u64] using he
    | some y =>
      simp only [Canonical.binding, Canonical.u64, Canonical.digest, List.append_assoc,
        List.append_cancel_left_eq] at he
      exact absurd (u64_append_inj he).1 (by decide)
  | some x =>
    cases y with
    | none =>
      simp only [Canonical.binding, Canonical.u64, Canonical.digest, List.append_assoc,
        List.append_cancel_left_eq] at he
      exact absurd (u64_append_inj he).1 (by decide)
    | some y =>
      simp only [Canonical.binding, Canonical.u64, Canonical.digest, List.append_assoc,
        List.append_cancel_left_eq] at he
      obtain ⟨hw, he⟩ := Hashing.toBytes_append_inj he
      obtain ⟨hs, he⟩ := u64_append_inj he
      obtain ⟨ha, he⟩ := u64_append_inj he
      rw [List.append_cancel_left_eq] at he
      obtain ⟨hn, hr⟩ := Hashing.toBytes_append_inj he
      obtain ⟨xw, xs, xa, xn⟩ := x
      obtain ⟨yw, ys, ya, yn⟩ := y
      have hs' : xs = ys := UInt8.toUInt64_inj.mp hs
      have ha' : xa = ya := UInt32.toUInt64_inj.mp ha
      exact ⟨by simp_all, hr⟩

private theorem calibration_written (h : Canonical) (x : Option Digest) :
    (h.calibration x).written = h.written ++ (Canonical.calibration ⟨[]⟩ x).written := by
  cases x <;> simp [Canonical.calibration, Canonical.u64, Canonical.digest]

private theorem binding_written (h : Canonical) (x : Option (Binding Digest)) :
    (h.binding x).written = h.written ++ (Canonical.binding ⟨[]⟩ x).written := by
  cases x <;> simp [Canonical.binding, Canonical.u64, Canonical.digest]

/-- The pre-image of an evaluation request determines every field. -/
theorem DecisionRequest.canonical_inj {q q' : DecisionRequest Digest}
    (hq : q.state.utf8ByteSize < 2 ^ 64) (hq' : q'.state.utf8ByteSize < 2 ^ 64)
    (h : q.canonical.written = q'.canonical.written) : q = q' := by
  simp only [canonical, Canonical.text, Canonical.bytes, Canonical.u64,
    binding_written (Canonical.calibration _ _), calibration_written (Canonical.digest _ _)] at h
  simp only [Canonical.digest, List.append_assoc, List.append_cancel_left_eq] at h
  obtain ⟨he, h⟩ := Hashing.toBytes_append_inj h
  rw [List.append_cancel_left_eq] at h
  obtain ⟨hs, h⟩ := Hashing.toBytes_append_inj h
  rw [List.append_cancel_left_eq] at h
  obtain ⟨hm, h⟩ := Hashing.toBytes_append_inj h
  obtain ⟨hc, h⟩ := calibration_append_inj h
  obtain ⟨hb, h⟩ := binding_append_inj h
  obtain ⟨ht, h⟩ := text_append_inj hq hq' h
  obtain ⟨hx, -⟩ := u64_append_inj (r := []) (s := []) (by simpa using h)
  obtain ⟨qe, qs, qm, qc, qb, qt, qx⟩ := q
  obtain ⟨re, rs, rm, rc, rb, rt, rx⟩ := q'
  simp_all

theorem DecisionRequest.digest_inj (hcf : CollisionFree Digest) {q q' : DecisionRequest Digest}
    (hq : q.state.utf8ByteSize < 2 ^ 64) (hq' : q'.state.utf8ByteSize < 2 ^ 64)
    (h : q.digest = q'.digest) : q = q' := canonical_inj hq hq' (hcf h)

end RequestPreimage

end IcLaya
