import IcLaya.SchemaCompiler
import Mathlib.Data.List.Destutter
import Mathlib.Data.List.Sort
import Mathlib.Order.Basic

/-! The tokenizer adapter (`hf-tokenizer/src/lib.rs`). The tokenizer library and the reader of
its JSON are parameters; the adapter checks the special tokens and collects their literals. -/
namespace IcLaya
open Fallible

/-- What the adapter uses of the tokenizer library, without truncation and padding. -/
structure HfLibrary where
  idToToken : UInt32 → Option String
  encode : String → Except String (List UInt32)

/-- An entry of `added_tokens`: whether it is marked special, and its text. -/
structure AddedToken where
  special : Bool
  content : Option String

/-- Reading the bytes of a tokenizer file: as a tokenizer, and as JSON for its added tokens. -/
structure HfReader where
  fromBytes : List UInt8 → Except String HfLibrary
  addedTokens : List UInt8 → Except String (List AddedToken)

def maxTokenizer : ℕ := 32 * 1024 * 1024

namespace HfTokenizer

/-- The literal of an added special token joins the list. -/
def addLiteral (literals : List String) (t : AddedToken) : Result (List String) :=
  if t.special then do
    let text ← okOr t.content (.invalid "added token")
    pure (if text ∈ literals then literals else literals ++ [text])
  else pure literals

def fromBytes {Digest : Type} [Hashing Digest] (r : HfReader) (bytes : List UInt8)
    (special : SpecialTokens) : Result (TextTokenizer Digest) := do
  rejectIf (bytes = [] ∨ maxTokenizer < bytes.length) .tooLong
  let inner ← (r.fromBytes bytes).mapError .invalid
  [special.cls, special.sep, special.mask, special.pad].forM fun id => do
    let token ← okOr (inner.idToToken id) (.invalid "special token id")
    rejectIf (token ∉ special.literals) (.invalid "special literal list")
  let tokens ← (r.addedTokens bytes).mapError .invalid
  let literals ← tokens.foldlM addLiteral special.literals
  let literals := (literals.insertionSort (· ≤ ·)).destutter (· ≠ ·)
  pure {
    encodePiece := fun text => (inner.encode text).mapError .invalid
    fingerprint := hash bytes
    specialTokens := { special with literals := literals } }

theorem fingerprint_of_fromBytes {Digest : Type} [Hashing Digest] {r : HfReader}
    {bytes : List UInt8} {special : SpecialTokens} {t : TextTokenizer Digest}
    (h : fromBytes r bytes special = .ok t) : t.fingerprint = hash bytes := by
  simp only [fromBytes, bind_eq_ok, pure_eq_ok] at h
  obtain ⟨-, -, inner, -, -, -, tokens, -, literals, -, rfl⟩ := h
  rfl

end HfTokenizer
end IcLaya
