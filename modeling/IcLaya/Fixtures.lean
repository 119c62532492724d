import IcLaya.EngineState

/-! The deterministic test fixtures (`demo.rs`): a tokenizer that hashes words and a backend whose
logits do not depend on the state. They understand no language. -/
namespace IcLaya.Demo
open Fallible

variable {Digest : Type} [Hashing Digest]

def fixtureBundle : Digest := hash (asBytes "TEST-ONLY-STATE-INDEPENDENT-FIXTURE-v1")

def splitWhitespace (s : String) : List String :=
  ((s.toList.splitOnP fun c => whiteSpace c).filter fun w => !w.isEmpty).map String.ofList

/-- The token of a word: the first two bytes of its hash, past the special tokens. -/
def wordToken (Digest : Type) [Hashing Digest] (word : String) : UInt32 :=
  match Hashing.toBytes (hash (asBytes word) : Digest) with
  | a :: b :: _ => 10 + (a.toUInt32 * 256 + b.toUInt32)
  | _ => 10

def fixtureTokenizer : TextTokenizer Digest where
  encodePiece text := .ok ((splitWhitespace text).map (wordToken Digest))
  fingerprint := hash (asBytes "TEST-ONLY-WHITESPACE-TOKENIZER-v1")
  specialTokens := ⟨1, 2, 3, 0, ["[CLS]", "[SEP]", "[MASK]", "[PAD]"]⟩

def fixtureBackend : InferenceBackend Digest where
  bundleId := fixtureBundle
  kind := .syntheticFixture
  infer input :=
    -- the singles 4, -2, -3; -4, 4; 5, 1, 0, -2, -4
    match input.qtypeId.toNat, input.markers.length with
    | 0, 3 => .ok [0x40800000, 0xc0000000, 0xc0400000]
    | 1, 2 => .ok [0xc0800000, 0x40800000]
    | 2, 5 => .ok [0x40a00000, 0x3f800000, 0, 0xc0000000, 0xc0800000]
    | _, _ => .error (.invalid "fixture supports only demonstration schemas")

def refundRequested : Schema where
  id := "RefundRequested"
  version := 1
  primitive := .noul
  instructions := "Does the customer ask for a refund?"
  options := [⟨"false", "false"⟩, ⟨"true", "true"⟩]

end IcLaya.Demo
