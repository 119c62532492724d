import IcLaya.JsonDocuments
import IcLaya.LoopOutcomes
import Mathlib.Algebra.Group.Int.Defs
import Mathlib.Order.Lattice

/-!
# Proposal triage (`tools/sns_proposal_triage.py`)

A proposal's priority is raised by two loops over its payload, which also write the reasons and
measure each selected change by a factor. The quotients behind the factor and the decimal texts of
integers can raise in Python; the priority never depends on them.
-/
namespace IcLaya.ProposalTriage
open Fallible JsonDocuments LoopOutcomes

inductive Priority | standard | review | criticalReview deriving DecidableEq

def Priority.rank : Priority → ℕ | standard => 0 | review => 1 | criticalReview => 2

instance : LinearOrder Priority :=
  LinearOrder.lift' Priority.rank fun a b h => by
    cases a <;> cases b <;> first | rfl | cases h

/-- A text, in the parts it is put together from. -/
abbrev Text := List Str

/-- What Python's own conversions give. -/
structure Python (F : Type) where
  /-- The quotient rounded to the nearest float. -/
  quotient : ℤ → ℤ → F
  max : F → F → F
  /-- `format(x, 'g')`. -/
  general : F → String
  tokens : ℤ → String
  isZero : F → Bool
  str : Json F → Text
  /-- `sys.get_int_max_str_digits()`; 0 is no limit. -/
  maxStrDigits : ℕ

def extremeFactor : ℤ := 1000
def reviewFactor : ℤ := 10

/-- Half a unit above the largest float; a quotient from here on is rounded out of range. -/
def floatLimit : ℤ := 2 ^ 1024 - 2 ^ 970

def parameters : List (String × String) :=
  [("neuron_minimum_dissolve_delay_to_vote_seconds", "minimum voting dissolve delay"),
   ("max_dissolve_delay_seconds", "maximum dissolve delay"),
   ("neuron_minimum_stake_e8s", "minimum neuron stake")]

structure Change (F : Type) where
  field : String
  old : ℤ
  new : ℤ
  direction : String
  changeFactor : F

structure Findings (F : Type) where
  priority : Priority
  reasons : List Text
  changes : List (Change F)

structure Report (F : Type) where
  proposalId : Json F
  actionType : Json F
  priority : Priority
  extraHumanReviewRequired : Bool
  reasons : List Text
  measuredChanges : List (Change F)
  policy : Text

variable {F : Type}

def isNull : Json F → Bool
  | .null => true
  | _ => false

section Python
variable (py : Python F)

/-- `a / b` of two positive integers. -/
def Python.trueDiv (a b : ℤ) : Except String F := do
  rejectIf (b * floatLimit ≤ a) "OverflowError: integer division result too large for a float"
  pure (py.quotient a b)

/-- The integer has more digits than Python writes out. -/
def Python.TooLong (n : ℤ) : Prop := py.maxStrDigits ≠ 0 ∧ 10 ^ py.maxStrDigits ≤ n.natAbs

instance (n : ℤ) : Decidable (py.TooLong n) := inferInstanceAs (Decidable (_ ∧ _))

/-- `str(n)`. -/
def Python.decimal (n : ℤ) : Except String String := do
  rejectIf (py.TooLong n) "ValueError: Exceeds the limit for integer string conversion"
  pure (toString n)

/-- The label, then `: {old} to {new}`. -/
def Python.fromTo (label : Str) (old new : ℤ) : Except String Text := do
  let old ← py.decimal old
  let new ← py.decimal new
  pure [label, .text ": ", .text old, .text " to ", .text new]

end Python

/-- `if priority != "critical_review": priority = "review"`, and a reason. -/
def Findings.review (f : Findings F) (reason : Text) : Findings F :=
  { f with
    priority := if f.priority ≠ .criticalReview then .review else f.priority
    reasons := f.reasons ++ [reason] }

/-- Both are positive integers. -/
def positivePair (old : Option ℤ) (new : Json F) : Option (ℤ × ℤ) :=
  match old, new with
  | some old, .int new => if 0 < old ∧ 0 < new then some (old, new) else none
  | _, _ => none

/-- `new >= old * factor or old >= new * factor`. -/
def changedBy (factor old new : ℤ) : Prop := old * factor ≤ new ∨ new * factor ≤ old

instance (factor old new : ℤ) : Decidable (changedBy factor old new) :=
  inferInstanceAs (Decidable (_ ∨ _))

/-- `payload.get(key)`, where it is not `None`. -/
def proposed (payload : Dict F) (key : String) : Option (Json F) :=
  (payload.get? key).filter fun v => !isNull v

section Triage
variable (py : Python F) (history : Str → Option ℤ) (payload : Dict F)

/-- One round of the loop over the selected parameters. -/
def selectedField (f : Findings F) (p : String × String) : Except String (Findings F) :=
  match proposed payload p.1 with
  | none => pure f
  | some new =>
    match positivePair (history (.text p.1)) new with
    | none => pure (f.review [.text p.2,
        .text ": historical value or proposed value is unavailable"])
    | some (old, new) => do
      let direction := if old < new then "increase" else if new < old then "decrease" else "unchanged"
      let up ← py.trueDiv new old
      let down ← py.trueDiv old new
      let factor := py.max up down
      let f := { f with changes := f.changes ++ [⟨p.1, old, new, direction, factor⟩] }
      let measured : Text := [.text " (", .text (py.general factor), .text "x ", .text direction,
        .text ")"]
      if changedBy extremeFactor old new then do
        let text ← py.fromTo (.text p.2) old new
        pure { f with priority := .criticalReview, reasons := f.reasons ++ [text ++ measured] }
      else if changedBy reviewFactor old new then do
        let text ← py.fromTo (.text p.2) old new
        pure (f.review (text ++ measured))
      else pure f

/-- The key is one of the selected parameters'. -/
def isSelected (k : Str) : Bool := parameters.any fun p => k = .text p.1

/-- One round of the loop over the payload. -/
def otherField (f : Findings F) (x : Str × Json F) : Except String (Findings F) :=
  if isNull x.2 ∨ isSelected x.1 then pure f
  else
    match history x.1, x.2 with
    | some old, .int new =>
      if new ≠ old then f.review <$> py.fromTo x.1 old new else pure f
    | _, _ => pure (f.review [x.1, .text ": change cannot be verified from historical values"])

/-- The branch of `ManageNervousSystemParameters`. -/
def parameterFindings : Json F → Except String (Findings F)
  | .dict payload =>
    if payload.all fun x => isNull x.2 then
      pure ⟨.review, [[.text "parameter payload contains no proposed values"]], []⟩
    else do
      let f ← parameters.foldlM (selectedField py history payload) ⟨.standard, [], []⟩
      payload.foldlM (otherField py history) f
  | _ => pure ⟨.review, [[.text "parameter payload is unavailable"]], []⟩

end Triage

def isText (s : String) : Json F → Bool
  | .str t => t = .text s
  | _ => false

/-- `bool(x)`. -/
def truthy (py : Python F) : Json F → Bool
  | .null => false
  | .bool b => b
  | .int n => n ≠ 0
  | .float x => !py.isZero x
  | .str s => s ≠ .text ""
  | .list xs => !xs.isEmpty
  | .dict kvs => !kvs.isEmpty

/-- `d.get(k)`. -/
def get (d : Dict F) (k : String) : Json F := (d.get? k).getD .null

def mintFindings (py : Python F) : Json F → Findings F
  | .dict payload =>
    match positivePair (some 1) (get payload "amount_e8s") with
    | some (_, amount) => ⟨.review, [[.text "token mint: ", .text (py.tokens amount),
        .text " tokens to one account; supply comparison unavailable"]], []⟩
    | none => ⟨.review, [[.text "token mint: amount is unavailable"]], []⟩
  | _ => ⟨.review, [[.text "token mint: amount is unavailable"]], []⟩

def metadataFindings : Json F → Findings F
  | .dict _ => ⟨.standard, [], []⟩
  | _ => ⟨.review, [[.text "metadata payload is unavailable"]], []⟩

def policy : Text := [.text ("experimental: >= 1000x change in selected governance parameters " ++
  "requires critical review; >= 10x and changes in other fields, " ++
  "token mints, and unknown actions require review; standard is not a safety certification")]

/-- `currentParameter` looks a field up in the text of the proposal. -/
def triage (py : Python F) (currentParameter : Json F → Str → Option ℤ) :
    Json F → Except String (Report F)
  | .dict proposal => do
    let action := get proposal "proposal_action_type"
    let payload := get proposal "proposal_action_payload"
    let f ←
      if isText "ManageNervousSystemParameters" action then
        parameterFindings py (currentParameter (get proposal "payload_text_rendering")) payload
      else if isText "MintSnsTokens" action then pure (mintFindings py payload)
      else if isText "ManageSnsMetadata" action then pure (metadataFindings payload)
      else pure ⟨.review, [.text "unsupported action type: " ::
        if truthy py action then py.str action else [.text "missing"]], []⟩
    pure ⟨get proposal "id", action, f.priority, f.priority ≠ .standard, f.reasons, f.changes, policy⟩
  | _ => throw "ValueError: proposal must be a JSON object"

end IcLaya.ProposalTriage
