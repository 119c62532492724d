import IcLaya.CheckedWords
import IcLaya.QueryTransport

/-!
# Query inference (`decision-engine/src/lib.rs`)

A query keeps nothing in the canister: the reply carries the whole session as bytes, raw or in a
transport envelope, and the next call brings it back. The readings of the instruction counter are
arguments. Both engines run through the same handlers.
-/
namespace IcLaya
open CheckedWords Fallible PanickingCode StagedRuns

/-- The counts are those of the phases of a model, at most seventy. -/
inductive QueryInferenceProgress
  | continue (state : List UInt8) (completed total : ℕ) (instructions : UInt64)
  | done (logits : List UInt32) (completed total : ℕ) (instructions : UInt64)
  deriving DecidableEq

namespace QueryInferenceProgress

def completed : QueryInferenceProgress → ℕ
  | .continue _ completed _ _ => completed
  | .done _ completed _ _ => completed

def total : QueryInferenceProgress → ℕ
  | .continue _ _ total _ => total
  | .done _ _ total _ => total

end QueryInferenceProgress

/-- The readings of the instruction counter at the start and the end of a handler. -/
structure Counter where
  start : UInt64
  stop : UInt64

def Counter.elapsed (c : Counter) : UInt64 := saturatingSub64 c.stop c.start

/-- The counter of a handler inside another one: `|| 0`. -/
def Counter.zero : Counter := ⟨0, 0⟩

/-- The steps of a loop that returns as soon as there are logits. -/
def runSteps {S : Type} (step : S → Result (S × Option (List UInt32))) :
    ℕ → S → Result (List UInt32 ⊕ S)
  | 0, s => .ok (.inr s)
  | n + 1, s => do
    let (s, logits) ← step s
    match logits with
    | some logits => pure (.inl logits)
    | none => runSteps step n s

/-- An inference engine, as the handlers call it. -/
structure Engine (T : Type) where
  begin : TokenInput → Result (Session Digest32 T)
  step : Session Digest32 T → Result (Session Digest32 T × Option (List UInt32))
  exportState : Session Digest32 T → Code Error (List UInt8)
  importState : List UInt8 → Code Error (Session Digest32 T)

def maxStepsInvalid : Error := .invalid "query max_steps must be 1..=16"

namespace Engine
variable {T : Type} (e : Engine T) (total : ℕ)

def queryBegin (input : TokenInput) (counter : Counter) : Code Error QueryInferenceProgress := do
  let session ← call (e.begin input)
  let state ← e.exportState session
  pure (.continue state 0 total counter.elapsed)

/-- What is replied after at most `width` steps. -/
def advance (width : ℕ) (session : Session Digest32 T) (counter : Counter) :
    Code Error QueryInferenceProgress := do
  match ← call (runSteps e.step width session) with
  | .inl logits => pure (.done logits total total counter.elapsed)
  | .inr session =>
    let state ← e.exportState session
    pure (.continue state session.next total counter.elapsed)

def queryContinue (state : List UInt8) (maxSteps : ℕ) (counter : Counter) :
    Code Error QueryInferenceProgress := do
  reject (¬(1 ≤ maxSteps ∧ maxSteps ≤ 16)) maxStepsInvalid
  let session ← e.importState state
  let left ← sub total session.next
  e.advance total (min maxSteps left) session counter

end Engine

section Handlers
variable {F : Type} [Doubles F] (t : Target) (m : LayaModel F Digest32)

def LayaModel.f32Engine : Engine Tensor where
  begin := m.beginInference
  step := m.stepInference
  exportState := m.exportInference t
  importState := m.importInference t

def LayaModel.int8Engine : Engine QTensor where
  begin := m.beginQuantized
  step := m.stepQuantized
  exportState := m.exportQuantized t
  importState := m.importQuantized t

def queryBegin (input : TokenInput) (counter : Counter) : Code Error QueryInferenceProgress :=
  (m.f32Engine t).queryBegin m.inferenceSteps input counter

def queryContinue (state : List UInt8) (maxSteps : ℕ) (counter : Counter) :
    Code Error QueryInferenceProgress :=
  (m.f32Engine t).queryContinue m.inferenceSteps state maxSteps counter

def queryBeginInt8 (input : TokenInput) (counter : Counter) : Code Error QueryInferenceProgress :=
  (m.int8Engine t).queryBegin m.inferenceSteps input counter

def queryContinueInt8 (state : List UInt8) (maxSteps : ℕ) (counter : Counter) :
    Code Error QueryInferenceProgress :=
  (m.int8Engine t).queryContinue m.inferenceSteps state maxSteps counter

def queryBeginBatch (input : TokenInput) (maxSteps : ℕ) (int8 : Bool) (counter : Counter) :
    Code Error QueryInferenceProgress := do
  reject (¬(1 ≤ maxSteps ∧ maxSteps ≤ 16)) maxStepsInvalid
  let total := m.inferenceSteps
  if int8 then do
    let session ← call (m.beginQuantized input)
    (m.int8Engine t).advance total (min maxSteps total) session counter
  else do
    let session ← call (m.beginInference input)
    (m.f32Engine t).advance total (min maxSteps total) session counter

variable (z : Zlib)

/-- `query_transport::pack` on the state of a reply. -/
def packed (counter : Counter) : QueryInferenceProgress → Code Error QueryInferenceProgress
  | .continue state completed total _ => do
    let state ← pack z state
    pure (.continue state completed total counter.elapsed)
  | .done logits completed total _ => pure (.done logits completed total counter.elapsed)

def transportedQuery (input : Option TokenInput) (wire : List UInt8) (maxSteps : ℕ) (int8 : Bool)
    (counter : Counter) : Code Error QueryInferenceProgress := do
  let progress ← match input with
    | some input =>
      if 0 < maxSteps then queryBeginBatch t m input maxSteps int8 .zero
      else if int8 then queryBeginInt8 t m input .zero else queryBegin t m input .zero
    | none => do
      let raw ← unpack z wire
      if int8 then queryContinueInt8 t m raw maxSteps .zero
      else queryContinue t m raw maxSteps .zero
  packed z counter progress

end Handlers

end IcLaya
