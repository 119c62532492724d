import Mathlib.Data.Int.Notation
import Mathlib.Data.Nat.Notation
import Mathlib.Tactic.Common

/-!
# JSON documents

A document as Python loads and dumps it: numbers are integers or floats, the floats need not be
finite, and a string can hold a lone surrogate. Behind it what a typed reader takes from the text:
integers of a bounded width, Unicode strings, and no `NaN`.
-/
namespace IcLaya.JsonDocuments

def highSurrogate (u : UInt16) : Bool := 0xd800 ≤ u && u < 0xdc00
def lowSurrogate (u : UInt16) : Bool := 0xdc00 ≤ u && u < 0xe000

/-- Every surrogate is one of a pair. -/
def wellFormed : List UInt16 → Bool
  | [] => true
  | u :: us =>
    if highSurrogate u then
      match us with
      | v :: vs => lowSurrogate v && wellFormed vs
      | [] => false
    else !lowSurrogate u && wellFormed us

/-- A string by its UTF-16 units, which is how it is written: Unicode text, or not. -/
inductive Str
  | text (s : String)
  | lone (units : List UInt16) (h : wellFormed units = false)
  deriving DecidableEq

inductive Json (F : Type)
  | null
  | bool (b : Bool)
  | int (n : ℤ)
  | float (x : F)
  | str (s : Str)
  | list (xs : List (Json F))
  | dict (kvs : List (Str × Json F))

/-- The pairs of a `dict`, in the order of insertion. -/
abbrev Dict (F : Type) := List (Str × Json F)

def utf16 (c : Char) : List UInt16 :=
  if c.val < 0x10000 then [c.val.toUInt16]
  else
    let v : UInt32 := c.val - 0x10000
    [(0xd800 : UInt16) + (v >>> 10).toUInt16, (0xdc00 : UInt16) + (v &&& 0x3ff).toUInt16]

def Str.units : Str → List UInt16
  | .text s => s.toList.flatMap utf16
  | .lone units _ => units

variable {F α : Type}

namespace Dict

def get? (d : Dict F) (k : String) : Option (Json F) :=
  (d.find? fun x => x.1 = .text k).map Prod.snd

/-- `d[k] = v`: in the place of the key, or at the end. -/
def set (d : Dict F) (k : String) (v : Json F) : Dict F :=
  if d.any fun x => x.1 = .text k then d.map fun x => if x.1 = .text k then (x.1, v) else x
  else d ++ [(.text k, v)]

end Dict

section Text
variable (repr : F → List UInt8)

def ascii (s : String) : List UInt8 := s.toList.map fun c => c.toNat.toUInt8

def hexDigits (u : UInt16) : List UInt8 :=
  [u >>> 12, (u >>> 8) &&& 15, (u >>> 4) &&& 15, u &&& 15].map fun d =>
    if d < 10 then 48 + d.toUInt8 else 87 + d.toUInt8

/-- `ensure_ascii`. -/
def escape (u : UInt16) : List UInt8 :=
  if u = 34 then [92, 34]
  else if u = 92 then [92, 92]
  else if u = 10 then [92, 110]
  else if u = 13 then [92, 114]
  else if u = 9 then [92, 116]
  else if u = 12 then [92, 102]
  else if u = 8 then [92, 98]
  else if 32 ≤ u ∧ u ≤ 126 then [u.toUInt8]
  else [92, 117] ++ hexDigits u

def quoted (s : Str) : List UInt8 := [34] ++ s.units.flatMap escape ++ [34]

def newline (depth : ℕ) : List UInt8 := 10 :: List.replicate (2 * depth) 32

mutual

/-- `json.dumps(.., indent=2)`, with the text of a float. -/
def dumps (depth : ℕ) : Json F → List UInt8
  | .null => ascii "null"
  | .bool b => ascii (if b then "true" else "false")
  | .int n => ascii (toString n)
  | .float x => repr x
  | .str s => quoted s
  | .list [] => ascii "[]"
  | .list (x :: xs) => ascii "[" ++ newline (depth + 1) ++ dumps (depth + 1) x ++
      dumpItems (depth + 1) xs ++ newline depth ++ ascii "]"
  | .dict [] => ascii "\x7b\x7d"
  | .dict ((k, v) :: kvs) => ascii "\x7b" ++ newline (depth + 1) ++ quoted k ++ ascii ": " ++
      dumps (depth + 1) v ++ dumpPairs (depth + 1) kvs ++ newline depth ++ ascii "\x7d"

def dumpItems (depth : ℕ) : List (Json F) → List UInt8
  | [] => []
  | x :: xs => ascii "," ++ newline depth ++ dumps depth x ++ dumpItems depth xs

def dumpPairs (depth : ℕ) : List (Str × Json F) → List UInt8
  | [] => []
  | (k, v) :: kvs => ascii "," ++ newline depth ++ quoted k ++ ascii ": " ++ dumps depth v ++
      dumpPairs depth kvs

end

/-! The length of a text, added up from the lengths of its parts. -/

mutual

def dumpedLength (depth : ℕ) : Json F → ℕ
  | .null => 4
  | .bool b => if b then 4 else 5
  | .int n => (ascii (toString n)).length
  | .float x => (repr x).length
  | .str s => (quoted s).length
  | .list [] => 2
  | .list (x :: xs) => 6 + 4 * depth + (dumpedLength (depth + 1) x + dumpedItems (depth + 1) xs)
  | .dict [] => 2
  | .dict ((k, v) :: kvs) => 8 + 4 * depth + (quoted k).length +
      (dumpedLength (depth + 1) v + dumpedPairs (depth + 1) kvs)

def dumpedItems (depth : ℕ) : List (Json F) → ℕ
  | [] => 0
  | x :: xs => 2 + 2 * depth + dumpedLength depth x + dumpedItems depth xs

def dumpedPairs (depth : ℕ) : List (Str × Json F) → ℕ
  | [] => 0
  | (k, v) :: kvs => 4 + 2 * depth + (quoted k).length + dumpedLength depth v +
      dumpedPairs depth kvs

end

theorem length_newline (depth : ℕ) : (newline depth).length = 2 * depth + 1 := by simp [newline]

theorem length_marks : (ascii "[").length = 1 ∧ (ascii "]").length = 1 ∧ (ascii ",").length = 1 ∧
    (ascii ": ").length = 2 ∧ (ascii "\x7b").length = 1 ∧ (ascii "\x7d").length = 1 := by decide

mutual

theorem length_dumps (depth : ℕ) :
    (j : Json F) → (dumps repr depth j).length = dumpedLength repr depth j
  | .null => rfl
  | .bool b => by cases b <;> rfl
  | .int n => rfl
  | .float x => rfl
  | .str s => rfl
  | .list [] => rfl
  | .list (x :: xs) => by
    have hx := length_dumps (depth + 1) x
    have hxs := length_dumpItems (depth + 1) xs
    simp only [dumps, dumpedLength, List.length_append, length_newline, length_marks, hx, hxs]
    omega
  | .dict [] => rfl
  | .dict ((k, v) :: kvs) => by
    have hv := length_dumps (depth + 1) v
    have hkvs := length_dumpPairs (depth + 1) kvs
    simp only [dumps, dumpedLength, List.length_append, length_newline, length_marks, hv, hkvs]
    omega

theorem length_dumpItems (depth : ℕ) :
    (xs : List (Json F)) → (dumpItems repr depth xs).length = dumpedItems repr depth xs
  | [] => rfl
  | x :: xs => by
    have hx := length_dumps depth x
    have hxs := length_dumpItems depth xs
    simp only [dumpItems, dumpedItems, List.length_append, length_newline, length_marks, hx, hxs]
    omega

theorem length_dumpPairs (depth : ℕ) :
    (kvs : List (Str × Json F)) → (dumpPairs repr depth kvs).length = dumpedPairs repr depth kvs
  | [] => rfl
  | (k, v) :: kvs => by
    have hv := length_dumps depth v
    have hkvs := length_dumpPairs depth kvs
    simp only [dumpPairs, dumpedPairs, List.length_append, length_newline, length_marks, hv, hkvs]
    omega

end

end Text

section Readers
variable (isFinite : F → Bool)

mutual

/-- No `NaN` and no `Infinity` in the text. -/
def standard : Json F → Bool
  | .float x => isFinite x
  | .list xs => standardItems xs
  | .dict kvs => standardPairs kvs
  | _ => true

def standardItems : List (Json F) → Bool
  | [] => true
  | x :: xs => standard x && standardItems xs

def standardPairs : List (Str × Json F) → Bool
  | [] => true
  | (_, v) :: kvs => standard v && standardPairs kvs

end

/-- The keys of an object that is read are strings of the reader. -/
def textKeys (d : Dict F) : Bool := d.all fun x => match x.1 with | .text _ => true | .lone _ _ => false

def readText : Json F → Option String
  | .str (.text s) => some s
  | _ => none

def readBool : Json F → Option Bool
  | .bool b => some b
  | _ => none

/-- An unsigned integer below a bound. -/
def readNat (bound : ℕ) : Json F → Option ℕ
  | .int n => if 0 ≤ n ∧ n.toNat < bound then some n.toNat else none
  | _ => none

/-- A float, from a number of either kind. -/
def readFloat (ofInt : ℤ → F) (reread : F → F) : Json F → Option F
  | .int n => some (ofInt n)
  | .float x => some (reread x)
  | _ => none

def readList (read : Json F → Option α) : Json F → Option (List α)
  | .list xs => xs.mapM read
  | _ => none

def readDict : Json F → Option (Dict F)
  | .dict d => if textKeys d then some d else none
  | _ => none

def field (d : Dict F) (k : String) (read : Json F → Option α) : Option α := d.get? k >>= read

/-- A field with a default. -/
def fieldD (d : Dict F) (k : String) (read : Json F → Option α) (a : α) : Option α :=
  match d.get? k with
  | some v => read v
  | none => some a

end Readers

end IcLaya.JsonDocuments
