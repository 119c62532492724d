import IcLaya.JsonDocuments
import IcLaya.PackTables
import IcLaya.QuantizedContinuation

/-!
# The pack exporters (`tools/pack_checkpoint.py`, `tools/quantize_pack.py`)

`exportPack` writes a checkpoint as a pack of single floats, and `quantize` makes an int8 pack of it.
The files of a source are taken as their tensors in single precision, and the files of JSON as
their documents.
-/
namespace IcLaya
open Std (ExtTreeMap)
open Fallible JsonDocuments SingleArithmetic WordStreams

/-- A function of Python: its value, or what it raises. -/
abbrev Py (α : Type) := Except String α

namespace PackExporter
variable {F : Type}

def f32Format : String := "ic-laya-f32-pack-v1"
def int8Format : String := "ic-laya-int8-pack-v1"
def maxTensor : ℕ := 256 * 1024 * 1024
def maxTotal : ℕ := 2 * 1024 ^ 3

/-- `d[k]`. -/
def item (d : Dict F) (k : String) : Py (Json F) := okOr (d.get? k) ("KeyError: " ++ k)

def asDict : Json F → Py (Dict F)
  | .dict d => pure d
  | _ => throw "TypeError"

def asList : Json F → Py (List (Json F))
  | .list xs => pure xs
  | _ => throw "TypeError"

def asInt : Json F → Py ℤ
  | .int n => pure n
  | _ => throw "TypeError"

/-- An integer under a key; the configurations considered have integers there. -/
def intItem (d : Dict F) (k : String) : Py ℤ := item d k >>= asInt

def isText (s : String) : Json F → Bool
  | .str (.text t) => t = s
  | _ => false

/-- `set(d) == {..}`. -/
def hasKeys (d : Dict F) (ks : List String) : Bool :=
  d.length = ks.length && ks.all fun k => (d.get? k).isSome

def integers (ns : List ℤ) : Json F := .list (ns.map .int)

def naturals (ns : List ℕ) : Json F := .list (ns.map fun n => .int n)

/-- `list(hashlib.sha256(raw).digest())`. -/
def sha (Digest : Type) [Hashing Digest] (raw : List UInt8) : Json F :=
  naturals ((Hashing.toBytes (hash raw : Digest)).map UInt8.toNat)

/-- A list of the naturals written, for a comparison. -/
def isNaturals (ns : List ℕ) (v : Json F) : Bool :=
  match v with
  | .list xs => xs.mapM (fun x => match x with | .int n => some n | _ => none) =
      some (ns.map fun n => (n : ℤ))
  | _ => false

section Config
variable [Doubles F]
open Doubles

/-- `bool(v)`. -/
def truthy : Json F → Bool
  | .null => false
  | .bool b => b
  | .int n => n ≠ 0
  | .float x => !eq x (lit 0)
  | .str s => s ≠ .text ""
  | .list xs => !xs.isEmpty
  | .dict d => !d.isEmpty

/-- `np.isfinite(v) and lo < v <= hi`. To Python a bool is an integer. -/
def within (lo hi : ℕ) : Json F → Bool
  | .int n => lo < n ∧ n ≤ hi
  | .bool b => lo < b.toNat ∧ b.toNat ≤ hi
  | .float x => isFinite x && !le x (lit lo) && le x (lit hi)
  | _ => false

def validateConfig (c : Dict F) : Py Unit := do
  let h ← intItem c "hidden_size"
  let vocab ← intItem c "vocab_size"
  let layers ← intItem c "layers"
  rejectIf (¬((0 < h ∧ h ≤ 2048) ∧ (5 ≤ vocab ∧ vocab ≤ 300000) ∧ (1 ≤ layers ∧ layers ≤ 64)))
    "unsupported backbone dimensions"
  let heads ← intItem c "attention_heads"
  rejectIf (heads < 1 ∨ h % heads ≠ 0 ∨ h / heads % 2 ≠ 0) "invalid rotary head dimensions"
  let decisionHeads ← intItem c "decision_heads"
  let decisionLayers ← intItem c "decision_layers"
  rejectIf (decisionHeads < 1 ∨ h % decisionHeads ≠ 0 ∨ ¬(1 ≤ decisionLayers ∧ decisionLayers ≤ 4))
    "invalid decision head dimensions"
  let globalEvery ← intItem c "global_every"
  let localAttention ← intItem c "local_attention"
  let qtypes ← intItem c "qtypes"
  rejectIf (globalEvery < 1 ∨ localAttention < 1 ∨ qtypes ≠ 3)
    "invalid attention/qtype configuration"
  let mask ← intItem c "mask_token_id"
  rejectIf (¬(0 ≤ mask ∧ mask < vocab)) "invalid mask id"
  ["intermediate_size", "decision_ff"].forM fun k => do
    let n ← intItem c k
    rejectIf (¬(1 ≤ n ∧ n ≤ 16384)) k
  ["norm_eps", "decision_norm_eps", "scorer_norm_eps"].forM fun k => do
    let v ← item c k
    rejectIf (¬within 0 1 v) k
  ["global_rope_theta", "local_rope_theta"].forM fun k => do
    let v ← item c k
    rejectIf (¬within 1 1000000000000 v) k
  let activation ← item c "decision_activation"
  rejectIf (¬(isText "Relu" activation ∨ isText "Gelu" activation)) "unsupported activation"

/-- `model_reference.shapes`, on a validated configuration. -/
def shapes (c : Dict F) : Py Shapes := do
  let h := (← intItem c "hidden_size").toNat
  let vocab := (← intItem c "vocab_size").toNat
  let layers := (← intItem c "layers").toNat
  let m : Shapes := ((ExtTreeMap.empty.insert "embeddings.weight" [vocab, h]).insert
    "embeddings.norm.weight" [h]).insert "final_norm.weight" [h]
  -- asked of the first layer
  let firstNorm ← item c "first_layer_attention_norm"
  let intermediate := (← intItem c "intermediate_size").toNat
  let m := (List.range layers).foldl (fun m i =>
    let p := "encoder." ++ toString i
    let m := if i ≠ 0 ∨ truthy firstNorm then m.insert (p ++ ".attn_norm.weight") [h] else m
    insertAll (p ++ ".") [("qkv.weight", [3 * h, h]), ("out.weight", [h, h]),
      ("mlp_norm.weight", [h]), ("wi.weight", [2 * intermediate, h]),
      ("wo.weight", [h, intermediate])] m) m
  let m := m.insert "qtype.weight" [3, h]
  let decisionLayers := (← intItem c "decision_layers").toNat
  let ff := (← intItem c "decision_ff").toNat
  let m := (List.range decisionLayers).foldl (fun m i =>
    insertAll ("decision." ++ toString i ++ ".") [("qkv.weight", [3 * h, h]),
      ("qkv.bias", [3 * h]), ("out.weight", [h, h]), ("out.bias", [h]), ("norm1.weight", [h]),
      ("norm1.bias", [h]), ("norm2.weight", [h]), ("norm2.bias", [h]), ("linear1.weight", [ff, h]),
      ("linear1.bias", [ff]), ("linear2.weight", [h, ff]), ("linear2.bias", [h])] m) m
  pure (insertAll "scorer." [("norm.weight", [h]), ("norm.bias", [h]), ("dense.weight", [h, h]),
    ("dense.bias", [h]), ("out.weight", [1, h]), ("out.bias", [1])] m)

end Config

section Sources

/-- The tensors of a source by their names, each name once. -/
def sourceReader (files : List (List (String × Tensor))) : Py (List (String × Tensor)) := do
  rejectIf (files = []) "source must contain safetensors, never a pickle checkpoint"
  files.flatten.foldlM (fun index x => do
    rejectIf (x.1 ∈ index.map Prod.fst) ("duplicate source tensor " ++ x.1)
    pure (index ++ [x])) []

def read (index : List (String × Tensor)) : Json F → Py Tensor
  | .str (.text name) => okOr (index.lookup name) ("missing source tensor " ++ name)
  | _ => throw "missing source tensor"

/-- An array of the given values. -/
def array (dims : List ℕ) (values : List UInt32) : Py Tensor :=
  if h : values.length = dims.prod then pure ⟨dims, values, h⟩ else throw "ValueError"

/-- `a.T` of a matrix. -/
def transpose (a : Tensor) : Py Tensor :=
  match a.dims with
  | [rows, cols] => array [cols, rows] ((List.range cols).flatMap fun j =>
      (List.range rows).map fun i => a.values.getD (i * cols + j) 0)
  | _ => throw "transpose requires a matrix"

/-- `np.concatenate(.., axis=0)`. -/
def concatenate (arrays : List Tensor) : Py Tensor := do
  rejectIf (arrays = [] ∨ ∃ a ∈ arrays, a.dims = []) "ValueError"
  let tail := ((arrays.map Tensor.dims).headD []).tail
  rejectIf (∃ a ∈ arrays, a.dims.tail ≠ tail) "ValueError"
  array ((arrays.map fun a => a.dims.headD 0).sum :: tail) (arrays.flatMap Tensor.values)

def isZero [Doubles F] : Json F → Bool
  | .int n => n = 0
  | .bool b => !b
  | .float x => Doubles.eq x (Doubles.lit 0)
  | _ => false

def resolve [Doubles F] (index : List (String × Tensor)) (spec : Json F) : Py Tensor :=
  match spec with
  | .str _ => read index spec
  | .dict d =>
    match Dict.get? d "source", Dict.get? d "transpose", Dict.get? d "concat", Dict.get? d "axis" with
    | some source, some (.bool true), _, _ =>
      if d.length = 2 then do transpose (← read index source)
      else throw "mapping permits source name, explicit transpose, or axis-0 concat only"
    | _, _, some (.list names), some axis =>
      if d.length = 2 ∧ isZero axis then do concatenate (← names.mapM (read index))
      else throw "mapping permits source name, explicit transpose, or axis-0 concat only"
    | _, _, _, _ => throw "mapping permits source name, explicit transpose, or axis-0 concat only"
  | _ => throw "mapping permits source name, explicit transpose, or axis-0 concat only"

end Sources

/-- The arguments of `exportPack`. -/
structure ExportArgs (F : Type) where
  files : List (List (String × Tensor))
  config : Json F
  mapping : Json F
  tokenizer : List UInt8
  repo : Str
  revision : Str
  qtypes : List ℤ
  testOnly : Bool

/-- A directory that an exporter leaves. -/
structure Directory (F : Type) where
  manifest : Json F
  model : List UInt8
  tokenizer : List UInt8

/-- The entries, the position and the bytes so far. -/
structure Written (F : Type) where
  entries : List (Json F)
  position : ℕ
  bytes : List UInt8

section Export
variable (Digest : Type) [Hashing Digest] [Doubles F]

def entryOf (name : String) (shape : List ℕ) (offset : ℕ) (raw : List UInt8) : Dict F :=
  [(.text "name", .str (.text name)), (.text "shape", naturals shape),
    (.text "offset", .int offset), (.text "length", .int raw.length),
    (.text "sha256", sha Digest raw)]

def writeTensor (mapped : Dict F) (index : List (String × Tensor)) (w : Written F)
    (x : String × List ℕ) : Py (Written F) := do
  let values ← resolve index (← item mapped x.1)
  rejectIf (values.dims ≠ x.2) ("shape mismatch for " ++ x.1)
  rejectIf (∃ v ∈ values.values, ¬singleFinite v) ("nonfinite tensor " ++ x.1)
  let raw := le32s values.values
  rejectIf (maxTensor < raw.length ∨ maxTotal < w.position + raw.length) "pack exceeds v0.1 limits"
  pure ⟨w.entries ++ [.dict (entryOf Digest x.1 x.2 w.position raw)], w.position + raw.length,
    w.bytes ++ raw⟩

/-- 40 hexadecimal digits, which are one byte each. -/
def immutable : Str → Bool
  | .text s => s.utf8ByteSize = 40 && (asBytes s).all hexDigit
  | .lone _ _ => false

/-- `export`; `isJson` says whether the tokenizer's file can be loaded. -/
def exportPack (isJson : List UInt8 → Bool) (a : ExportArgs F) : Py (Directory F) := do
  rejectIf (a.repo = .text "" ∨ a.revision = .text "") "source identity required"
  rejectIf (¬a.testOnly ∧ ¬immutable a.revision)
    "real model export requires a 40-character immutable revision"
  rejectIf (a.qtypes.insertionSort (· ≤ ·) ≠ [0, 1, 2])
    "qtypes must map Choice,Noul,Score to a permutation of 0,1,2"
  let c ← asDict a.config
  validateConfig c
  let mapped ← asDict a.mapping
  let expected ← shapes c
  rejectIf (¬hasKeys mapped (expected.toList.map Prod.fst)) "mapping mismatch"
  rejectIf (¬(0 < a.tokenizer.length ∧ a.tokenizer.length ≤ 32 * 1024 ^ 2)) "tokenizer size"
  rejectIf (¬isJson a.tokenizer) "JSONDecodeError"
  let index ← sourceReader a.files
  let w ← expected.toList.foldlM (writeTensor Digest mapped index) ⟨[], 0, []⟩
  pure {
    manifest := .dict [(.text "format", .str (.text f32Format)), (.text "source_repo", .str a.repo),
      (.text "source_revision", .str a.revision), (.text "test_only", .bool a.testOnly),
      (.text "tokenizer_sha256", sha Digest a.tokenizer),
      (.text "primitive_to_qtype", integers a.qtypes), (.text "config", a.config),
      (.text "total_bytes", .int w.position), (.text "tensors", .list w.entries)]
    model := w.bytes
    tokenizer := a.tokenizer }

end Export

section Quantize
variable (Digest : Type) [Hashing Digest] [Doubles F]

/-- `np.floor(np.abs(scaled) + np.float32(.5))`, in single precision. -/
def roundHalfUp (mag : ℕ) : ℕ := units (roundRatio (units mag + 2 ^ 148) 1) / 2 ^ 149

/-- A value over the scale of its row, rounded and clipped. -/
def quantizedValue (scale v : UInt32) : Int8 :=
  let q := min (roundHalfUp (quotient (magnitude v) (magnitude scale))) 127
  if negative v then -Int8.ofNat q else Int8.ofNat q

/-- A row's values; the scale of a row is computed as `int8::quantize_row` does. -/
def quantizedRow (row : List UInt32) : List UInt8 :=
  row.map fun v => (quantizedValue (rowScale row) v).toUInt8

/-- How a tensor is stored, and as which bytes. -/
def quantizeTensor (shape : List ℕ) (values : List UInt32) : String × List UInt8 :=
  match shape with
  | [_, cols] =>
    let rows := chunksExact cols values
    ("I8Row", rows.flatMap quantizedRow ++ le32s (rows.map rowScale))
  | _ => ("F32", le32s values)

/-- `dict(entry, storage=.., offset=.., length=.., sha256=..)`. -/
def restored (entry : Dict F) (storage : String) (offset : ℕ) (raw : List UInt8) : Dict F :=
  (((entry.set "storage" (.str (.text storage))).set "offset" (.int offset)).set "length"
    (.int raw.length)).set "sha256" (sha Digest raw)

/-- One entry: its bytes follow the ones read before. -/
def quantizeEntry (expected : Shapes) (x : Written F × ℕ × List UInt8) (e : Json F) :
    Py (Written F × ℕ × List UInt8) := do
  let (w, sourceOffset, src) := x
  let entry ← asDict e
  let name ← item entry "name"
  let shape ← okOr (match name with | .str (.text s) => expected[s]? | _ => none) "KeyError"
  let length := shape.prod * 4
  let given ← item entry "shape"
  let offset ← intItem entry "offset"
  let len ← intItem entry "length"
  rejectIf (¬isNaturals shape given ∨ offset ≠ sourceOffset ∨ len ≠ length ∨ maxTensor < length)
    "tensor shape/offset/length"
  let raw := src.take length
  let digest ← item entry "sha256"
  rejectIf (¬isNaturals ((Hashing.toBytes (hash raw : Digest)).map UInt8.toNat) digest)
    "tensor integrity"
  let values := (chunksExact 4 raw).map ofLe32
  rejectIf (values.length ≠ shape.prod) "ValueError"
  rejectIf (∃ v ∈ values, ¬singleFinite v) "nonfinite weight"
  let (storage, stored) := quantizeTensor shape values
  pure (⟨w.entries ++ [.dict (restored Digest entry storage w.position stored)],
    w.position + stored.length, w.bytes ++ stored⟩, sourceOffset + length, src.drop length)

def quantize (source : Directory F) : Py (Directory F) := do
  let manifest ← asDict source.manifest
  rejectIf (¬isText f32Format (← item manifest "format")) "source must be a canonical F32 pack"
  let c ← asDict (← item manifest "config")
  validateConfig c
  let expected ← shapes c
  let tensors ← asList (← item manifest "tensors")
  let names ← tensors.mapM fun e => do item (← asDict e) "name"
  rejectIf (tensors.length ≠ expected.size ∨
    ¬expected.toList.all fun x => names.any (isText x.1)) "tensor set mismatch"
  let total ← intItem manifest "total_bytes"
  rejectIf (¬(0 < total ∧ total ≤ maxTotal) ∨ (source.model.length : ℤ) ≠ total)
    "model length mismatch"
  let digest ← item manifest "tokenizer_sha256"
  rejectIf (¬isNaturals ((Hashing.toBytes (hash source.tokenizer : Digest)).map UInt8.toNat) digest)
    "tokenizer integrity"
  let (w, sourceOffset, _) ← tensors.foldlM (quantizeEntry Digest expected)
    (⟨[], 0, []⟩, 0, source.model)
  rejectIf ((sourceOffset : ℤ) ≠ total) "source total length"
  pure {
    manifest := .dict (((manifest.set "format" (.str (.text int8Format))).set "total_bytes"
      (.int w.position)).set "tensors" (.list w.entries))
    model := w.bytes
    tokenizer := source.tokenizer }

end Quantize
end PackExporter
end IcLaya
