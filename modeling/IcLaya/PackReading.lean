import IcLaya.PackExporter
import IcLaya.Sha256

/-!
# Reading a manifest

What `serde` makes of the document that a manifest's text spells: one reader for each field of
`Manifest`, `ModelConfig` and `TensorEntry`. Unknown fields are skipped.
-/
namespace IcLaya
open Fallible JsonDocuments PanickingCode WordStreams

namespace PackReading
variable {F Digest : Type} [Doubles F] [Hashing Digest] (t : Target)

def readStorage : Json F → Option StorageKind
  | .str (.text "F32") => some .f32
  | .str (.text "I8Row") => some .i8Row
  | _ => none

def readActivation : Json F → Option Activation
  | .str (.text "Relu") => some .relu
  | .str (.text "Gelu") => some .gelu
  | _ => none

/-- `[u8;32]`. -/
def readDigest (v : Json F) : Option Digest := do
  let ns ← readList (readNat 256) v
  if ns.length = 32 then Hashing.ofBytes (ns.map UInt8.ofNat) else none

/-- `[u32;3]`. -/
def readMapping (v : Json F) : Option (Vector UInt32 3) := do
  match ← readList (readNat (2 ^ 32)) v with
  | [a, b, c] => some #v[UInt32.ofNat a, UInt32.ofNat b, UInt32.ofNat c]
  | _ => none

def readU64 (v : Json F) : Option UInt64 := (readNat (2 ^ 64) v).map UInt64.ofNat

def readEntry (v : Json F) : Option (TensorEntry Digest) := do
  let d ← readDict v
  pure {
    storage := ← fieldD d "storage" readStorage .f32
    name := ← field d "name" readText
    shape := ← field d "shape" (readList (readNat t.words))
    offset := ← field d "offset" readU64
    length := ← field d "length" readU64
    sha256 := ← field d "sha256" readDigest }

/-- `reread` is how a float that was written is read again. -/
def readConfig (reread : F → F) (v : Json F) : Option (ModelConfig F) := do
  let d ← readDict v
  let usize k := field d k (readNat t.words)
  let f64 k := field d k (readFloat (fun n => Doubles.lit n) reread)
  pure {
    vocabSize := ← usize "vocab_size"
    hiddenSize := ← usize "hidden_size"
    layers := ← usize "layers"
    attentionHeads := ← usize "attention_heads"
    intermediateSize := ← usize "intermediate_size"
    normEps := ← f64 "norm_eps"
    globalEvery := ← usize "global_every"
    localAttention := ← usize "local_attention"
    globalRopeTheta := ← f64 "global_rope_theta"
    localRopeTheta := ← f64 "local_rope_theta"
    firstLayerAttentionNorm := ← field d "first_layer_attention_norm" readBool
    decisionLayers := ← usize "decision_layers"
    decisionHeads := ← usize "decision_heads"
    decisionFf := ← usize "decision_ff"
    decisionNormEps := ← f64 "decision_norm_eps"
    decisionNormFirst := ← field d "decision_norm_first" readBool
    decisionActivation := ← field d "decision_activation" readActivation
    scorerNormEps := ← f64 "scorer_norm_eps"
    qtypes := ← usize "qtypes"
    maskTokenId := UInt32.ofNat (← field d "mask_token_id" (readNat (2 ^ 32))) }

def readManifest (reread : F → F) (v : Json F) : Option (Manifest F Digest) :=
  if standard Doubles.isFinite v then do
    let d ← readDict v
    pure {
      format := ← field d "format" readText
      sourceRepo := ← field d "source_repo" readText
      sourceRevision := ← field d "source_revision" readText
      testOnly := ← field d "test_only" readBool
      tokenizerSha256 := ← field d "tokenizer_sha256" readDigest
      primitiveToQtype := ← field d "primitive_to_qtype" readMapping
      config := ← field d "config" (readConfig t reread)
      totalBytes := ← field d "total_bytes" readU64
      tensors := ← field d "tensors" (readList (readEntry t)) }
  else none

end PackReading

/-! The smallest configuration, and how its floats are written. -/
namespace PackReading.Sample

def config : Dict ℚ := [(.text "hidden_size", .int 2), (.text "vocab_size", .int 5),
  (.text "layers", .int 1), (.text "attention_heads", .int 1), (.text "decision_heads", .int 1),
  (.text "decision_layers", .int 1), (.text "global_every", .int 1),
  (.text "local_attention", .int 1), (.text "qtypes", .int 3), (.text "mask_token_id", .int 4),
  (.text "intermediate_size", .int 1), (.text "decision_ff", .int 1),
  (.text "norm_eps", .float (1 / 2)), (.text "decision_norm_eps", .float (1 / 2)),
  (.text "scorer_norm_eps", .float (1 / 2)), (.text "global_rope_theta", .int 160000),
  (.text "local_rope_theta", .int 10000), (.text "decision_activation", .str (.text "Gelu")),
  (.text "first_layer_attention_norm", .bool false), (.text "decision_norm_first", .bool true)]

/-- The only float of the sample. -/
def repr : ℚ → List UInt8 := fun _ => ascii "0.5"

end PackReading.Sample
end IcLaya
