import IcLaya.WireTypes
import Mathlib.Data.List.Infix

/-! Schema validation, compilation and prompt rendering (`schema.rs`). A tokenizer
encodes one piece of text at a time; the compiled prefix marks every option. -/
namespace IcLaya
open Fallible

/-- A tokenizer that adds no special tokens and truncates nothing. -/
structure TextTokenizer (Digest : Type) where
  encodePiece : String → Result (List UInt32)
  fingerprint : Digest
  specialTokens : SpecialTokens

def identifierChar (c : Char) : Bool := c.isAlphanum || "_-.:".toList.contains c

def identifier (s : String) : Bool :=
  !s.isEmpty && s.utf8ByteSize ≤ 64 && s.toList.all identifierChar

def containsReserved (s : String) (t : SpecialTokens) : Bool :=
  t.literals.any fun x => !x.isEmpty && decide (x.toList <:+: s.toList)

def control (ids : List UInt32) (s : SpecialTokens) : Bool :=
  ids.any fun x => [s.cls, s.sep, s.mask, s.pad].contains x

/-- Unicode `White_Space`. -/
def whiteSpace (c : Char) : Bool :=
  let n := c.toNat
  (0x9 ≤ n && n ≤ 0xd) || n == 0x20 || n == 0x85 || n == 0xa0 || n == 0x1680 ||
    (0x2000 ≤ n && n ≤ 0x200a) || n == 0x2028 || n == 0x2029 || n == 0x202f || n == 0x205f ||
    n == 0x3000

/-- `trim().is_empty()`. -/
def blank (s : String) : Bool := s.toList.all whiteSpace

def validateSchema (s : Schema) : Result Unit := do
  rejectIf (¬identifier s.id ∨ s.version = 0 ∨ blank s.instructions ∨
    2048 < s.instructions.utf8ByteSize ∨ ¬s.primitive.countValid s.options.length)
    (.invalid "schema header")
  rejectIf ((∃ o ∈ s.options, ¬identifier o.id ∨ blank o.text ∨ 1024 < o.text.utf8ByteSize) ∨
    ¬(s.options.map OptionDef.id).Nodup) (.invalid "option id/text")
  rejectIf (s.primitive = .noul ∧ s.options.map OptionDef.id ≠ ["false", "true"])
    (.invalid "Noul order must be false,true")

/-- Positions that strictly increase and all hold the mask. -/
def markersIncrease (prefixIds : List UInt32) (mask : UInt32) : Option UInt32 → List UInt32 → Bool
  | _, [] => true
  | prev, p :: ps => prefixIds[p.toNat]? == some mask && prev.all (· < p) &&
      markersIncrease prefixIds mask (some p) ps

section Compiled
variable {Digest : Type} [Hashing Digest]

/-- The prefix and the marker positions of the options, after what is written already. -/
def compileOptions (t : TextTokenizer Digest) (special : SpecialTokens) :
    List OptionDef → List UInt32 → List UInt32 → Result (List UInt32 × List UInt32)
  | [], prefixIds, markers => pure (prefixIds, markers)
  | o :: os, prefixIds, markers => do
    let ids ← t.encodePiece (" " ++ o.text)
    rejectIf (ids = [] ∨ 48 < ids.length) .tooLong
    rejectIf (control ids special) (.invalid "option control token")
    compileOptions t special os (prefixIds ++ special.mask :: ids)
      (markers ++ [UInt32.ofNat prefixIds.length])

def compile (s : Schema) (t : TextTokenizer Digest) (qtypeId : UInt32) :
    Result (CompiledSchema Digest) := do
  validateSchema s
  rejectIf (3 ≤ qtypeId) (.invalid "qtype mapping")
  let special := t.specialTokens
  rejectIf (¬[special.cls, special.sep, special.mask, special.pad].Nodup ∨ special.literals = [])
    (.invalid "special token config")
  rejectIf (containsReserved s.instructions special ∨
    ∃ o ∈ s.options, containsReserved o.text special) (.invalid "reserved token literal")
  let ids ← t.encodePiece (s.primitive.text ++ " question: " ++ s.instructions)
  rejectIf (ids = [] ∨ control ids special) (.invalid "instruction tokens")
  let (prefixIds, markers) ←
    compileOptions t special s.options (special.cls :: ids ++ [special.sep]) []
  let prefixIds := prefixIds ++ [special.sep]
  rejectIf (maxPrefix < prefixIds.length) .tooLong
  pure ⟨s, s.digest t.fingerprint, t.fingerprint, prefixIds, markers, special, qtypeId⟩

def validateCompiled (s : CompiledSchema Digest) : Result Unit := do
  validateSchema s.schema
  rejectIf (s.schemaHash ≠ s.schema.digest s.tokenizerHash ∨ maxPrefix < s.prefixIds.length ∨
    s.prefixIds.length < 5 ∨ s.prefixIds.head? ≠ some s.special.cls ∨
    s.prefixIds.getLast? ≠ some s.special.sep ∨ s.markers.length ≠ s.schema.options.length ∨
    3 ≤ s.qtypeId) .bindingMismatch
  rejectIf (¬markersIncrease s.prefixIds s.special.mask none s.markers) .bindingMismatch
  rejectIf (s.prefixIds.count s.special.mask ≠ s.markers.length) .bindingMismatch

/-- The token input of a state text, never truncated. -/
def render (s : CompiledSchema Digest) (t : TextTokenizer Digest) (state : String) :
    Result TokenInput := do
  validateCompiled s
  rejectIf (t.fingerprint ≠ s.tokenizerHash ∨ t.specialTokens ≠ s.special) .bindingMismatch
  rejectIf (state.isEmpty ∨ maxStateBytes < state.utf8ByteSize) .tooLong
  rejectIf (containsReserved state s.special) (.invalid "reserved token literal")
  let ids ← t.encodePiece state
  rejectIf (ids = [] ∨ control ids s.special) (.invalid "state tokens")
  rejectIf (maxTokens < s.prefixIds.length + ids.length + 1) .tooLong
  pure ⟨s.prefixIds ++ ids ++ [s.special.sep], s.markers, s.qtypeId⟩

end Compiled

end IcLaya
