import IcLaya.LayaModel
import IcLaya.OrderedMaps
import IcLaya.PanickingCode
import IcLaya.SingleArithmetic
import IcLaya.WordStreams
import Mathlib.Data.List.Sort

/-!
# Model packs (`laya-candle/src/pack.rs`)

A manifest lists the tensors of a pack with their shapes, places and hashes. The builder takes the
tensors one at a time, checks each against its entry, and assembles the model from their weights.
What a layer computes from its weights stays a parameter, and so does the reader of JSON.
-/
namespace IcLaya
open Std (ExtTreeMap)
open Fallible PanickingCode SingleArithmetic WordStreams

structure Int8Matrix where
  rows : ℕ
  cols : ℕ
  values : List Int8
  scales : List UInt32
  deriving DecidableEq

/-- Row-major bytes, then one scale for each row. -/
def Int8Matrix.fromBytes (t : Target) (bytes : List UInt8) (rows cols : ℕ) : CResult Int8Matrix := do
  rejectIf (rows = 0 ∨ cols = 0 ∨ 16384 < cols) "invalid int8 dimensions"
  let count ← okOr (checkedMul t rows cols) "int8 size overflow"
  let length ← okOr ((checkedMul t rows 4).bind (checkedAdd t count)) "int8 size overflow"
  rejectIf (bytes.length ≠ length) "invalid int8 payload length"
  let scales := (chunksExact 4 (bytes.drop count)).map ofLe32
  rejectIf (∃ s ∈ scales, ¬singleFinite s ∨ order s ≤ 0) "invalid int8 scale"
  pure ⟨rows, cols, (bytes.take count).map UInt8.toInt8, scales⟩

/-- Runtime storage: single floats only for vectors. -/
inductive Weight
  | f32 (t : Tensor)
  | int8 (t : Int8Matrix)
  deriving DecidableEq

def Weight.dims : Weight → List ℕ
  | .f32 t => t.dims
  | .int8 t => [t.rows, t.cols]

structure Linear where
  weight : Int8Matrix
  bias : Option Tensor

structure Norm (F : Type) where
  weight : Tensor
  bias : Option Tensor
  eps : F

structure Attention where
  qkv : Linear
  out : Linear
  heads : ℕ

structure EncoderLayer (F : Type) where
  attentionNorm : Option (Norm F)
  attention : Attention
  mlpNorm : Norm F
  wi : Linear
  wo : Linear
  theta : F
  distance : Option ℕ

structure DecisionLayer (F : Type) where
  norm1 : Norm F
  norm2 : Norm F
  attention : Attention
  linear1 : Linear
  linear2 : Linear
  normFirst : Bool
  activation : Activation

/-- What the layers compute from their weights, in one number format. -/
structure Kernels (F T : Type) where
  embed : Int8Matrix → Norm F → List UInt32 → CResult T
  encoder : EncoderLayer F → T → CResult T
  final : Norm F → Int8Matrix → UInt32 → T → CResult T
  decision : DecisionLayer F → T → Option (List UInt32) → CResult T
  score : Norm F → Linear → Linear → T → CResult T
  read : T → CResult (List UInt32)

abbrev Weights := ExtTreeMap String Weight
abbrev Shapes := ExtTreeMap String (List ℕ)

section Tensors
variable {F Digest : Type} [Doubles F]

def insertAll (p : String) (shapes : List (String × List ℕ)) (m : Shapes) : Shapes :=
  shapes.foldl (fun m x => m.insert (p ++ x.1) x.2) m

def encoderShapes (c : ModelConfig F) (m : Shapes) (i : ℕ) : Shapes :=
  let h := c.hiddenSize
  let p := "encoder." ++ toString i ++ "."
  let m := if 0 < i ∨ c.firstLayerAttentionNorm then m.insert (p ++ "attn_norm.weight") [h] else m
  insertAll p [("qkv.weight", [3 * h, h]), ("out.weight", [h, h]), ("mlp_norm.weight", [h]),
    ("wi.weight", [2 * c.intermediateSize, h]), ("wo.weight", [h, c.intermediateSize])] m

def decisionShapes (c : ModelConfig F) (m : Shapes) (i : ℕ) : Shapes :=
  let h := c.hiddenSize
  insertAll ("decision." ++ toString i ++ ".") [("qkv.weight", [3 * h, h]), ("qkv.bias", [3 * h]),
    ("out.weight", [h, h]), ("out.bias", [h]), ("norm1.weight", [h]), ("norm1.bias", [h]),
    ("norm2.weight", [h]), ("norm2.bias", [h]), ("linear1.weight", [c.decisionFf, h]),
    ("linear1.bias", [c.decisionFf]), ("linear2.weight", [h, c.decisionFf]), ("linear2.bias", [h])] m

def expectedTensors (c : ModelConfig F) : Result Shapes := do
  c.validate
  let h := c.hiddenSize
  let m : Shapes := ∅
  let m := (m.insert "embeddings.weight" [c.vocabSize, h]).insert "embeddings.norm.weight" [h]
  let m := m.insert "final_norm.weight" [h]
  let m := (List.range c.layers).foldl (encoderShapes c) m
  let m := m.insert "qtype.weight" [c.qtypes, h]
  let m := (List.range c.decisionLayers).foldl (decisionShapes c) m
  pure (insertAll "scorer." [("norm.weight", [h]), ("norm.bias", [h]), ("dense.weight", [h, h]),
    ("dense.bias", [h]), ("out.weight", [1, h]), ("out.bias", [1])] m)

namespace Weights

def weight (m : Weights) (name : String) : Result Weight :=
  okOr m[name]? (.invalid ("missing tensor: " ++ name))

def tensor (m : Weights) (name : String) : Result Tensor := do
  match ← weight m name with
  | .f32 t => pure t
  | .int8 _ => throw (.invalid ("expected F32: " ++ name))

def matrix (m : Weights) (name : String) : Result Int8Matrix := do
  match ← weight m name with
  | .int8 t => pure t
  | .f32 _ => throw (.invalid ("expected INT8 matrix: " ++ name))

/-- The bias next to a weight, where the layer has one. -/
def biasOf (m : Weights) (p : String) (bias : Bool) : Result (Option Tensor) :=
  if bias then some <$> tensor m (p ++ ".bias") else pure none

def linear (m : Weights) (p : String) (bias : Bool) : Result Linear := do
  pure ⟨← matrix m (p ++ ".weight"), ← biasOf m p bias⟩

def norm (m : Weights) (p : String) (bias : Bool) (eps : F) : Result (Norm F) := do
  pure ⟨← tensor m (p ++ ".weight"), ← biasOf m p bias, eps⟩

end Weights

open Weights in
def encoderLayer (c : ModelConfig F) (m : Weights) (i : ℕ) : Result (EncoderLayer F) := do
  let p := "encoder." ++ toString i
  let isLocal := i % c.globalEvery ≠ 0
  let attentionNorm ← if 0 < i ∨ c.firstLayerAttentionNorm
    then some <$> norm m (p ++ ".attn_norm") false c.normEps else pure none
  pure {
    attentionNorm := attentionNorm
    attention := ⟨← linear m (p ++ ".qkv") false, ← linear m (p ++ ".out") false, c.attentionHeads⟩
    mlpNorm := ← norm m (p ++ ".mlp_norm") false c.normEps
    wi := ← linear m (p ++ ".wi") false
    wo := ← linear m (p ++ ".wo") false
    theta := if isLocal then c.localRopeTheta else c.globalRopeTheta
    distance := if isLocal then some (c.localAttention / 2) else none }

open Weights in
def decisionLayer (c : ModelConfig F) (m : Weights) (i : ℕ) : Result (DecisionLayer F) := do
  let p := "decision." ++ toString i
  pure {
    norm1 := ← norm m (p ++ ".norm1") true c.decisionNormEps
    norm2 := ← norm m (p ++ ".norm2") true c.decisionNormEps
    attention := ⟨← linear m (p ++ ".qkv") true, ← linear m (p ++ ".out") true, c.decisionHeads⟩
    linear1 := ← linear m (p ++ ".linear1") true
    linear2 := ← linear m (p ++ ".linear2") true
    normFirst := c.decisionNormFirst
    activation := c.decisionActivation }

/-- A weight has its name's shape, and is stored as singles only where that is a vector's. -/
def Weight.fits (w : Weight) (shape : List ℕ) : Bool :=
  w.dims = shape && match w with | .f32 _ => shape.length = 1 | .int8 _ => true

/-- The phases of a model in one number format. -/
def Kernels.phases {T : Type} (k : Kernels F T) (embedding : Int8Matrix) (embeddingNorm : Norm F)
    (layers : List (EncoderLayer F)) (finalNorm : Norm F) (qtype : Int8Matrix)
    (decision : List (DecisionLayer F)) (scorerNorm : Norm F) (scorerDense scorerOut : Linear) :
    Phases T where
  embed := k.embed embedding embeddingNorm
  layers := layers.map k.encoder
  final := k.final finalNorm qtype
  decision := decision.map k.decision
  score := k.score scorerNorm scorerDense scorerOut
  read := k.read

theorem length_of_mapM {α β ε : Type} {f : α → Except ε β} {xs : List α} {ys : List β}
    (h : xs.mapM f = .ok ys) : ys.length = xs.length := by
  induction xs generalizing ys with
  | nil =>
    cases h
    rfl
  | cons x xs ih =>
    simp only [List.mapM_cons, bind_eq_ok, pure_eq_ok] at h
    obtain ⟨y, -, ys', hys, rfl⟩ := h
    rw [List.length_cons, List.length_cons, ih hys]

open Weights in
/-- `LayaModel::from_weights`. -/
def fromWeights (k : Kernels F Tensor) (q : Kernels F QTensor) (c : ModelConfig F) (bundle : Digest)
    (kind : BackendKind) (m : Weights) : Result (LayaModel F Digest) := do
  let expected ← expectedTensors c
  rejectIf (expected.size ≠ m.size) (.invalid "unexpected tensor set")
  expected.toList.forM fun x => do
    let w ← okOr m[x.1]? (.invalid ("missing " ++ x.1))
    rejectIf (¬w.fits x.2) (.invalid ("shape/dtype: " ++ x.1))
  match hl : (List.range c.layers).mapM (encoderLayer c m),
      hd : (List.range c.decisionLayers).mapM (decisionLayer c m) with
  | .error e, _ => throw e
  | _, .error e => throw e
  | .ok layers, .ok decision => do
    let embedding ← matrix m "embeddings.weight"
    let embeddingNorm ← norm m "embeddings.norm" false c.normEps
    let finalNorm ← norm m "final_norm" false c.normEps
    let qtype ← matrix m "qtype.weight"
    let scorerNorm ← norm m "scorer.norm" true c.scorerNormEps
    let scorerDense ← linear m "scorer.dense" true
    let scorerOut ← linear m "scorer.out" true
    -- the configuration was validated by `expectedTensors`
    if hv : c.validate = .ok () then
      have hlayers : layers.length = c.layers := (length_of_mapM hl).trans List.length_range
      have hdecision : decision.length = c.decisionLayers :=
        (length_of_mapM hd).trans List.length_range
      pure {
        config := c
        bundle := bundle
        backendKind := kind
        f32 := k.phases embedding embeddingNorm layers finalNorm qtype decision scorerNorm
          scorerDense scorerOut
        q8 := q.phases embedding embeddingNorm layers finalNorm qtype decision scorerNorm
          scorerDense scorerOut
        valid := hv
        f32_layers := (List.length_map _).trans hlayers
        f32_decision := (List.length_map _).trans hdecision
        q8_layers := (List.length_map _).trans hlayers
        q8_decision := (List.length_map _).trans hdecision }
    else throw (.invalid "unsupported architecture config")

end Tensors

inductive StorageKind | f32 | i8Row deriving DecidableEq

structure TensorEntry (Digest : Type) where
  storage : StorageKind
  name : String
  shape : List ℕ
  offset : UInt64
  length : UInt64
  sha256 : Digest
  deriving DecidableEq

structure Manifest (F Digest : Type) where
  format : String
  sourceRepo : String
  sourceRevision : String
  testOnly : Bool
  tokenizerSha256 : Digest
  primitiveToQtype : Vector UInt32 3
  config : ModelConfig F
  totalBytes : UInt64
  tensors : List (TensorEntry Digest)

def hexDigit (b : UInt8) : Bool :=
  (48 ≤ b && b ≤ 57) || (97 ≤ b && b ≤ 102) || (65 ≤ b && b ≤ 70)

def packFormat : String := "ic-laya-int8-pack-v1"
def maxTensor : ℕ := 256 * 1024 * 1024
def maxTotal : ℕ := 2 * 1024 * 1024 * 1024
def maxManifest : ℕ := 2 * 1024 * 1024

section Packs
variable {F Digest : Type} [Doubles F] [Hashing Digest]

/-- The bytes an entry takes, by its shape and storage. -/
def TensorEntry.bytes (e : TensorEntry Digest) : Code Error ℕ := do
  let count ← e.shape.foldlM (fun a b => okOr (checkedMul .bits64 a b) (.raise .tooLong)) 1
  match e.storage with
  | .f32 => do
    reject (e.shape.length ≠ 1) (.invalid "expected INT8 matrix storage")
    okOr (checkedMul .bits64 count 4) (.raise .tooLong)
  | .i8Row =>
    match e.shape with
    | [rows, cols] => do
      reject (16384 < cols) (.invalid "int8 storage/shape")
      okOr (checkedAdd .bits64 count (← mul .bits64 rows 4)) (.raise .tooLong)
    | _ => throw (.raise (.invalid "int8 storage/shape"))

/-- One entry: a new name with its expected shape, right behind the entries before it. -/
def TensorEntry.check (expected : Shapes) (pos : ℕ) (names : List String) (e : TensorEntry Digest) :
    Code Error ℕ := do
  reject (e.name ∈ names ∨ expected[e.name]? ≠ some e.shape ∨ e.offset.toNat ≠ pos)
    (.invalid "tensor name/shape/offset")
  let len ← e.bytes
  reject (e.length.toNat ≠ len ∨ maxTensor < len) .tooLong
  okOr (checkedAdd .bits64 pos len) (.raise .tooLong)

def checkEntries (expected : Shapes) (pos : ℕ) (names : List String) :
    List (TensorEntry Digest) → Code Error ℕ
  | [] => pure pos
  | e :: es => do
    let pos ← e.check expected pos names
    checkEntries expected pos (e.name :: names) es

namespace Manifest

def validate (m : Manifest F Digest) : Code Error Unit := do
  reject (m.format ≠ packFormat ∨ m.sourceRepo.isEmpty ∨ m.sourceRevision.isEmpty ∨
    m.totalBytes = 0 ∨ maxTotal < m.totalBytes.toNat) (.invalid "pack metadata")
  reject (¬m.testOnly ∧ (m.sourceRevision.utf8ByteSize ≠ 40 ∨
    ¬(asBytes m.sourceRevision).all hexDigit))
    (.invalid "a real pack requires an immutable source commit")
  reject (m.primitiveToQtype.toList.insertionSort (· ≤ ·) ≠ [0, 1, 2]) (.invalid "qtype map")
  let expected ← call (expectedTensors m.config)
  reject (expected.size ≠ m.tensors.length) (.invalid "tensor count")
  let pos ← checkEntries expected 0 [] m.tensors
  reject (pos ≠ m.totalBytes.toNat) (.invalid "pack length")

/-- `json` reads a manifest off its text. -/
def parse (json : List UInt8 → Except String (Manifest F Digest)) (raw : List UInt8) :
    Code Error (Manifest F Digest) := do
  reject (maxManifest < raw.length) .tooLong
  let m ← call ((json raw).mapError .invalid)
  m.validate
  pure m

section Parsed
variable {json : List UInt8 → Except String (Manifest F Digest)} {raw : List UInt8}
  {m : Manifest F Digest}

omit [Hashing Digest] in
theorem parse_eq_ok : parse json raw = .ok m ↔
    raw.length ≤ maxManifest ∧ json raw = .ok m ∧ m.validate = .ok () := by
  simp only [parse, bind_eq_ok, reject_eq_ok, call_eq_ok, mapError_eq_ok, pure_eq_ok, not_lt]
  constructor
  · rintro ⟨_, hsize, m', hjson, _, hvalid, rfl⟩
    exact ⟨hsize, hjson, hvalid⟩
  · rintro ⟨hsize, hjson, hvalid⟩
    exact ⟨(), hsize, m, hjson, (), hvalid, rfl⟩

omit [Hashing Digest] in
theorem totalBytes_of_parse (h : parse json raw = .ok m) : m.totalBytes.toNat ≤ maxTotal := by
  have hvalid := (parse_eq_ok.mp h).2.2
  rw [validate, bind_eq_ok] at hvalid
  obtain ⟨_, hmeta, _⟩ := hvalid
  simp only [reject_eq_ok, not_or, not_lt] at hmeta
  exact hmeta.2.2.2.2

end Parsed
end Manifest

/-- Warm-up, one tensor at a time. -/
structure Builder (F Digest : Type) where
  manifest : Manifest F Digest
  bundle : Digest
  next : ℕ
  tensors : Weights

namespace Builder

def new (json : List UInt8 → Except String (Manifest F Digest)) (raw : List UInt8) :
    Code Error (Builder F Digest) := do
  pure ⟨← Manifest.parse json raw, hash raw, 0, ∅⟩

def nextEntry (b : Builder F Digest) : Option (TensorEntry Digest) := b.manifest.tensors[b.next]?

/-- `Tensor::from_raw_buffer`. -/
def fromRawBuffer (bytes : List UInt8) (shape : List ℕ) : CResult Tensor :=
  Tensor.fromVec ((chunksExact 4 bytes).map ofLe32) shape

/-- The weight that the bytes of an entry stand for. -/
def weightOf (t : Target) (e : TensorEntry Digest) (bytes : List UInt8) : Result Weight :=
  match e.storage with
  | .f32 => do
    rejectIf (∃ b ∈ chunksExact 4 bytes, ¬singleFinite (ofLe32 b)) .numeric
    .f32 <$> modelError (fromRawBuffer bytes e.shape)
  | .i8Row =>
    .int8 <$> (Int8Matrix.fromBytes t bytes (e.shape.getD 0 0) (e.shape.getD 1 0)).mapError .invalid

def push (t : Target) (b : Builder F Digest) (bytes : List UInt8) : Result (Builder F Digest) := do
  let e ← okOr b.nextEntry .transition
  rejectIf (bytes.length ≠ e.length.toNat ∨ hash bytes ≠ e.sha256) (.invalid "tensor integrity")
  let w ← weightOf t e bytes
  pure { b with tensors := b.tensors.insert e.name w, next := b.next + 1 }

def finish (k : Kernels F Tensor) (q : Kernels F QTensor) (b : Builder F Digest) :
    Result (LayaModel F Digest) := do
  rejectIf (b.next ≠ b.manifest.tensors.length) .transition
  let kind := if b.manifest.testOnly then .syntheticFixture else .checkpoint
  fromWeights k q b.manifest.config b.bundle kind b.tensors

end Builder
end Packs
end IcLaya
