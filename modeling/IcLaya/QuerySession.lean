import IcLaya.QueryTransport
import IcLaya.RaisingMethods
import Mathlib.Data.List.Sort

/-!
# The client of the query inference (`tools/client_held_query.py`)

A session holds the last state the canister replied with and sends it back, raw, with a width. What
is done with texts (searching a reply, lowering a message) is a parameter, and so is `icp`: what
each attempt comes to, by its number and the bytes it was sent. A session also keeps what it sent.
-/
namespace IcLaya
open Fallible RaisingMethods WordStreams

inductive ActivationFormat | f32 | int8 deriving DecidableEq

/-- What the client reads out of a text; `field` is the number after a key, if the key is found. -/
structure Texts (Logit : Type) where
  lower : String → String
  statuses : String → List ℕ
  okVariant : String → Bool
  doneVariant : String → Bool
  continueVariant : String → Bool
  field : String → String → Option (Except Failure ℕ)
  blobs : String → Except Failure (List (List UInt8))
  logits : String → Except Failure (List Logit)

/-- The methods of the canister, by the parts of their names. -/
inductive QueryMethod
  | token (beginning int8 batch compressed : Bool)
  | inferTokens
  deriving DecidableEq

structure Request where
  method : QueryMethod
  payload : List UInt8
  deriving DecidableEq

/-- What an attempt comes to: a text, a `Failure` or `TimeoutExpired`, or an exception that the
client does not catch. -/
inductive Attempt
  | reply (text : String)
  | raises (timeout : Bool) (message : String)
  | escapes (message : String)

def contains (message value : String) : Bool := decide (value.toList <:+: message.toList)

/-- AUTO_BUNDLE -/
def autoBundle : List UInt8 :=
  [0xbb, 0x70, 0xb3, 0xf0, 0xf2, 0x80, 0x6b, 0xef, 0x5d, 0x4b, 0x67, 0x0f, 0x44, 0xbb, 0x60, 0x68,
    0x92, 0x06, 0x7f, 0xc0, 0xeb, 0xd9, 0x28, 0xbd, 0x68, 0x2b, 0x98, 0xeb, 0xdb, 0x2d, 0xc0, 0x92]

/-- The starting width of a call, by the number of tokens and the phases that are left. -/
def autoWidth (tokens : ℕ) (mode : ActivationFormat) (completed cap : ℤ) : ℤ :=
  let width :=
    if tokens ≤ 16 then 16
    else if tokens ≤ 43 then if mode = .f32 then 9 else 8
    else if tokens ≤ 65 then 6
    else if tokens ≤ 72 then if mode = .f32 then 6 else 5
    else if tokens ≤ (if mode = .f32 then 96 else 90) then 4
    else 3
  let width := min width cap
  let encoderLeft := max 0 (28 - completed)
  if encoderLeft = 0 ∨ encoderLeft = 1 ∨ encoderLeft + 2 ≤ width then min 16 (min cap (32 - completed))
  else min width (32 - completed)

section Encoders

/-- Unsigned LEB128. -/
def uleb (value : ℕ) : List UInt8 :=
  if value < 128 then [UInt8.ofNat value]
  else UInt8.ofNat (value % 128 + 128) :: uleb (value / 128)

def fieldHash (name : String) : ℕ :=
  name.toList.foldl (fun result c => (result * 223 + c.toNat) % 2 ^ 32) 0

structure QueryInput where
  inputIds : List ℤ
  markers : List ℤ
  qtypeId : ℤ
  deriving DecidableEq

def packU32 (v : ℤ) : List UInt8 := le32 (UInt32.ofNat v.toNat)

/-- The value of a field, by the field's name. -/
def QueryInput.value (inp : QueryInput) (name : String) : List UInt8 :=
  let vector (xs : List ℤ) := uleb xs.length ++ xs.flatMap packU32
  if name = "qtype_id" then packU32 inp.qtypeId
  else if name = "input_ids" then vector inp.inputIds
  else vector inp.markers

def stepsInvalid : Failure := "query steps must be 1..16"

def encodeInput (inp : QueryInput) (beginSteps : Option ℤ) : Except Failure (List UInt8) := do
  rejectIf (¬(1 ≤ inp.inputIds.length ∧ inp.inputIds.length ≤ 128) ∨
    ¬(2 ≤ inp.markers.length ∧ inp.markers.length ≤ 7) ∨ inp.qtypeId ∉ [0, 1, 2])
    "query input is outside supported token/marker/qtype bounds"
  rejectIf (∃ v ∈ inp.inputIds ++ inp.markers ++ [inp.qtypeId], ¬(0 ≤ v ∧ v ≤ 0xffffffff))
    "query input fields must be nat32 integers"
  let fields := (["input_ids", "markers", "qtype_id"].map fun name =>
    (fieldHash name, name)).insertionSort fun a b => a.1 ≤ b.1
  let table := [0x44, 0x49, 0x44, 0x4c, 0x02, 0x6d, 0x79, 0x6c, 0x03] ++ fields.flatMap fun field =>
    uleb field.1 ++ [if field.2 = "qtype_id" then 0x79 else 0x00]
  let values := fields.flatMap fun field => inp.value field.2
  match beginSteps with
  | none => pure (table ++ [0x01, 0x01] ++ values)
  | some steps => do
    rejectIf (¬(1 ≤ steps ∧ steps ≤ 16)) stepsInvalid
    pure (table ++ [0x02, 0x01, 0x79] ++ values ++ packU32 steps)

def encodeContinue (state : List UInt8) (steps : ℤ) : Except Failure (List UInt8) := do
  rejectIf (¬(1 ≤ steps ∧ steps ≤ 16)) stepsInvalid
  pure ([0x44, 0x49, 0x44, 0x4c, 0x01, 0x6d, 0x7b, 0x02, 0x00, 0x79] ++ uleb state.length ++ state ++
    packU32 steps)

end Encoders

inductive Progress (Logit : Type)
  | done (logits : List Logit) (completed total instructions : ℕ)
  | continue (state : List UInt8) (rawStateBytes : ℕ) (bundle : List UInt8)
      (activationFormat : ActivationFormat) (completed total instructions : ℕ)
  deriving DecidableEq

namespace Progress
variable {Logit : Type}

def isDone : Progress Logit → Bool
  | .done .. => true
  | .continue .. => false

def completed : Progress Logit → ℕ
  | .done _ completed _ _ => completed
  | .continue _ _ _ _ completed _ _ => completed

def total : Progress Logit → ℕ
  | .done _ _ total _ => total
  | .continue _ _ _ _ _ total _ => total

def instructions : Progress Logit → ℕ
  | .done _ _ _ instructions => instructions
  | .continue _ _ _ _ _ _ instructions => instructions

/-- `state or b""`. -/
def stateBytes : Progress Logit → List UInt8
  | .done .. => []
  | .continue state .. => state

def rawStateBytes : Progress Logit → ℕ
  | .done .. => 0
  | .continue _ rawStateBytes .. => rawStateBytes

end Progress

structure FailedAttempt where
  method : QueryMethod
  steps : ℤ
  requestCandidBytes : ℕ
  error : String
  deriving DecidableEq

structure QueryCall where
  method : QueryMethod
  completed : ℤ
  instructions : ℕ
  steps : ℤ
  requestCandidBytes : ℕ
  responseContinuationBytes : ℕ
  responseUncompressedStateBytes : ℕ
  deriving DecidableEq

/-- The bundle is kept as its bytes. -/
structure QuerySession (Logit : Type) where
  inp : QueryInput
  steps : ℤ
  auto : Bool
  autoCap : ℤ
  compression : Bool
  direct : Bool
  fusedBegin : Bool
  progress : Option (Progress Logit)
  calls : List QueryCall
  bundle : Option (List UInt8)
  retries : ℕ
  failedAttempts : List FailedAttempt
  activationFormat : ActivationFormat
  sent : List Request
  deriving DecidableEq

section Reading
variable {Logit : Type} (x : Texts Logit) (z : Zlib)

def transientFailure (timeout : Bool) (error : String) : Bool :=
  timeout ||
    let message := x.lower error
    let statuses := x.statuses message
    if statuses ≠ [] then statuses.all fun status => status ∈ [429, 502, 503, 504]
    else ["transport", "timed out", "connection refused", "connection reset",
      "error sending request", "temporarily unavailable"].any (contains message)

def instructionLimit (error : String) : Bool :=
  let message := x.lower error
  contains message "instruction" && ["limit", "exceeded"].any (contains message)

/-- `int(match[1].replace("_", ""))`, or the failure for a key that is not found. -/
def readField (key : String) (reply : String) (missing : Failure) : Except Failure ℕ := do
  let number ← okOr (x.field key reply) missing
  number

/-- `inspect_state`. Each round of its loop takes or gives a byte, so the rounds are fewer. -/
def inspect (state : List UInt8) : Except Failure (List UInt8 × ℕ) :=
  (inspectState z (2 * maxContinuationBytes + 2) state).getD (.error "no progress")

/-- The part of `decode_progress` on the one blob of a continuation. -/
def decodeState (state : List UInt8) (completed total instructions : ℕ) :
    Except Failure (Progress Logit) := do
  let (raw, rawSize) ← inspect z state
  let magic := raw.take 4
  rejectIf (raw.length < 60 ∨ ¬(magic = layq ∨ magic = layi)) "invalid continuation header"
  let words ← unpackFrom 2 raw 4
  let expectedRevision := if magic = layi then 2 else 1
  rejectIf (words ≠ [1, expectedRevision]) "unsupported continuation revision"
  let step ← unpackFrom 1 raw 44
  rejectIf (step.map UInt32.toNat ≠ [completed]) "continuation step differs from progress"
  pure (.continue state rawSize ((raw.drop 12).take 32) (if magic = layi then .int8 else .f32)
    completed total instructions)

def decodeProgress (reply : String) : Except Failure (Progress Logit) := do
  rejectIf (¬x.okVariant reply) reply
  let done := x.doneVariant reply
  rejectIf (¬done ∧ ¬x.continueVariant reply) "invalid query progress variant"
  let completed ← readField x "completed" reply "missing query progress field: completed"
  let total ← readField x "total" reply "missing query progress field: total"
  let instructions ← readField x "instructions" reply "missing query progress field: instructions"
  if done then do
    let logits ← x.logits reply
    pure (.done logits completed total instructions)
  else do
    let blobs ← x.blobs reply
    match blobs with
    | [state] => decodeState z state completed total instructions
    | _ => throw "expected exactly one continuation blob"

/-- The reply of a direct short query, which runs all the phases. -/
def decodeDirect (reply : String) : Except Failure (Progress Logit) := do
  rejectIf (¬x.okVariant reply) reply
  -- the number after the logits is evaluated last
  let number ← okOr (x.field "instructions" reply) "missing short-query instruction count"
  let logits ← x.logits reply
  let instructions ← number
  pure (.done logits 32 32 instructions)

end Reading

namespace QuerySession
variable {Logit : Type}

/-- `__init__`; without a width the client chooses it. -/
def new (inp : QueryInput) (steps : Option ℤ) (retries : ℕ) (activationFormat : ActivationFormat)
    (compression : Bool) : Except Failure (QuerySession Logit) := do
  rejectIf (∃ n ∈ steps, ¬(1 ≤ n ∧ n ≤ 16)) stepsInvalid
  let auto := steps.isNone
  let direct := auto && activationFormat = .f32 && inp.inputIds.length ≤ 16
  pure ⟨inp, steps.getD 1, auto, 16, compression, direct, auto && !direct, none, [], none, retries,
    [], activationFormat, []⟩

variable (x : Texts Logit) (z : Zlib) (icp : ℕ → Request → Attempt) (s : QuerySession Logit)

def beginning : Bool := s.progress.isNone

def method : QueryMethod :=
  if s.direct then .inferTokens
  else .token s.beginning (s.activationFormat = .int8) (s.beginning && s.fusedBegin) s.compression

/-- The bytes of the call with a width. -/
def payload (steps : ℤ) : Except Failure (List UInt8) :=
  match s.progress with
  | none => encodeInput s.inp (if s.fusedBegin then some steps else none)
  | some p => encodeContinue p.stateBytes steps

def send (request : Request) : QuerySession Logit := { s with sent := s.sent ++ [request] }

def failed (request : Request) (error : String) : QuerySession Logit :=
  { s with failedAttempts := s.failedAttempts ++
      [⟨request.method, s.steps, request.payload.length, String.ofList (error.toList.take 1024)⟩] }

/-- A batch that exhausts the instruction limit is tried again with half its width. -/
def halved : QuerySession Logit :=
  let steps := max 1 (s.steps / 2)
  { s with steps := steps, autoCap := if s.auto then min s.autoCap steps else s.autoCap }

/-- The attempts of a call, the bytes of the last one with its reply. -/
def attemptLoop (method : QueryMethod) (s : QuerySession Logit) (bytes : List UInt8)
    (attempts : ℕ) : Except Failure (List UInt8 × String) × QuerySession Logit :=
  let request : Request := ⟨method, bytes⟩
  match icp s.sent.length request with
  | .reply text => (.ok (bytes, text), s.send request)
  | .escapes error => (.error error, s.send request)
  | .raises timeout error =>
    let s' := (s.send request).failed request error
    if instructionLimit x error ∧ (¬s.beginning ∨ s.fusedBegin) ∧ 1 < s.steps then
      match s.payload s'.halved.steps with
      | .error e => (.error e, s'.halved)
      | .ok bytes => attemptLoop method s'.halved bytes attempts
    else if ¬transientFailure x timeout error ∨ s.retries ≤ attempts then (.error error, s')
    else attemptLoop method s' bytes (attempts + 1)
termination_by s.retries - attempts + s.steps.toNat
decreasing_by
  · simp only [halved, failed, send]
    omega
  · simp only [failed, send]
    omega

/-- The width an automatic session starts a call with. -/
def widened : QuerySession Logit :=
  let completed : ℤ := match s.progress with | none => 0 | some p => p.completed
  if s.auto ∧ ¬s.direct then
    { s with steps := autoWidth s.inp.inputIds.length s.activationFormat completed s.autoCap }
  else s

/-- The first half of `advance`: the call is made up and attempted. -/
def request : Method (QuerySession Logit) Failure (List UInt8 × String) := do
  let s ← Method.self
  Method.raiseIf (∃ p ∈ s.progress, p.isDone) "query inference is already complete"
  Method.assign widened
  let s ← Method.self
  let bytes ← Method.eval (s.payload s.steps)
  fun s => attemptLoop x icp s.method s bytes 0

def expected (next : Progress Logit) : ℤ :=
  if s.direct then 32
  else match s.progress with
    | none => if s.fusedBegin then min s.steps next.total else 0
    | some p => min (p.completed + s.steps) p.total

/-- The checks of a reply against the session's counts. -/
def checkProgress (next : Progress Logit) : Except Failure Unit := do
  let expected := s.expected next
  rejectIf ((next.completed : ℤ) ≠ expected ∨ ¬(0 ≤ expected ∧ expected ≤ next.total))
    "unexpected query progress"
  rejectIf (∃ p ∈ s.progress, next.total ≠ p.total) "query phase count changed"
  rejectIf (¬(next.isDone ↔ expected = next.total)) "query completion does not match phase count"
  match next with
  | .done logits .. =>
    rejectIf (logits.length ≠ s.inp.markers.length) "query logit count differs from marker count"
  | .continue .. => pure ()
  rejectIf (s.auto ∧ next.total ≠ 32) "automatic query grouping requires 32 phases"

/-- The checks of a continuation against the pinned pack, and the pin. -/
def checkContinuation (next : Progress Logit) : Method (QuerySession Logit) Failure Unit :=
  match next with
  | .done .. => pure ()
  | .continue _ _ bundle activationFormat _ total _ => do
    let s ← Method.self
    Method.raiseIf (activationFormat ≠ s.activationFormat) "query activation format changed"
    Method.raiseIf (∃ b ∈ s.bundle, b ≠ bundle) "query model changed"
    Method.assign fun s => { s with bundle := some bundle }
    Method.raiseIf (s.auto ∧ (bundle ≠ autoBundle ∨ total ≠ 32))
      "automatic query grouping requires the calibrated pack and 32 phases"

def recorded (s : QuerySession Logit) (bytes : List UInt8) (next : Progress Logit) :
    QuerySession Logit :=
  { s with
    calls := s.calls ++ [⟨s.method, s.expected next, next.instructions,
      if s.beginning ∧ ¬s.fusedBegin then 0 else s.steps, bytes.length, next.stateBytes.length,
      next.rawStateBytes⟩]
    progress := some next }

/-- The second half of `advance`: the reply is checked and taken over. -/
def receive (bytes : List UInt8) (reply : String) :
    Method (QuerySession Logit) Failure (Progress Logit) := do
  let s ← Method.self
  let next ← Method.eval (if s.direct then decodeDirect x reply else decodeProgress x z reply)
  Method.eval (s.checkProgress next)
  Method.assign fun s => if s.direct then { s with bundle := some autoBundle } else s
  checkContinuation next
  Method.assign fun s => s.recorded bytes next
  pure next

def advance : Method (QuerySession Logit) Failure (Progress Logit) := do
  let (bytes, reply) ← request x icp
  receive x z bytes reply

/-- The loop of `finish`; no result when the fuel runs out. -/
def advances : ℕ → Method (QuerySession Logit) Failure (Option Unit)
  | 0 => pure none
  | fuel + 1 => do
    let s ← Method.self
    if ∃ p ∈ s.progress, p.isDone then pure (some ())
    else do
      let _ ← advance x z icp
      advances fuel

structure Finished (Logit : Type) where
  inputTokens : ℕ
  logits : List Logit
  activationFormat : ActivationFormat
  instructions : ℕ
  inferenceQueryCalls : ℕ
  queryStepsPerCall : Option ℤ
  compression : Bool
  directShortQuery : Bool
  fusedBeginQuery : Bool
  queryCalls : List QueryCall
  bundle : Option (List UInt8)
  failedQueryAttempts : List FailedAttempt

/-- What `finish` reports of a session that is done. -/
def report (logits : List Logit) : Finished Logit :=
  ⟨s.inp.inputIds.length, logits, s.activationFormat, (s.calls.map QueryCall.instructions).sum,
    s.calls.length, if s.auto then none else some s.steps, s.compression, s.direct, s.fusedBegin,
    s.calls, s.bundle, s.failedAttempts⟩

def finish (fuel : ℕ) : Method (QuerySession Logit) Failure (Option (Finished Logit)) := do
  match ← advances x z icp fuel with
  | none => pure none
  | some () => do
    let s ← Method.self
    match s.progress with
    | some (.done logits ..) => pure (some (s.report logits))
    | _ => Method.raise "logits"

end QuerySession

end IcLaya
