import IcLaya.WireTypes
import Mathlib.Data.List.Sort
import Mathlib.Data.Rat.Floor

/-!
# Decision values and their distributions (`math.rs`)

A `Distribution` carries its own validity. Doubles are a type with the operations the
code applies to them, so that the same text reads with IEEE or with exact arithmetic;
a single is its bit pattern.
-/
namespace IcLaya
open Fallible

/-- Bin counts between two and seven, and masses that sum to one million. -/
def Distribution.Valid (mass : List UInt32) : Prop :=
  2 ≤ mass.length ∧ mass.length ≤ 7 ∧ mass.all (· ≤ ppm) = true ∧
    (mass.map UInt32.toNat).sum = ppm.toNat

instance (mass : List UInt32) : Decidable (Distribution.Valid mass) := by
  unfold Distribution.Valid; infer_instance

structure Distribution where
  mass : List UInt32
  valid : Distribution.Valid mass
  deriving DecidableEq

namespace Distribution

def new (mass : List UInt32) : Result Distribution :=
  if h : Valid mass then .ok ⟨mass, h⟩ else .error .numeric

theorem new_eq_ok {mass : List UInt32} {d : Distribution} : new mass = .ok d ↔ mass = d.mass := by
  unfold new
  split
  · next h =>
    simp only [Except.ok.injEq]
    constructor
    · rintro rfl; rfl
    · intro he; cases d; cases he; rfl
  · next h =>
    simp only [reduceCtorEq, false_iff]
    exact fun he => h (he ▸ d.valid)

/-- The first index of a largest mass. -/
def argmax (d : Distribution) : ℕ :=
  (List.range' 1 (d.mass.length - 1)).foldl
    (fun best i => if d.mass.getD best 0 < d.mass.getD i 0 then i else best) 0

def diagnostics (d : Distribution) : Diagnostics :=
  let x := d.mass.insertionSort (· ≥ ·)
  ⟨x.getD 0 0, x.getD 0 0 - x.getD 1 0, x.getD 0 0 == x.getD 1 0⟩

def expectedLevelMicrounits (d : Distribution) : UInt64 :=
  UInt64.ofNat ((d.mass.zipIdx.map fun p => p.2 * p.1.toNat).sum)

def meanPpm (d : Distribution) : UInt32 :=
  let n := d.expectedLevelMicrounits.toNat
  let k := d.mass.length - 1
  UInt32.ofNat ((n + k / 2) / k)

/-- The mass of the bins from `first` on. -/
def tail (d : Distribution) (first : ℕ) : Result UInt32 := do
  rejectIf (d.mass.length ≤ first) (.invalid "tail bin")
  pure ((d.mass.drop first).foldl (· + ·) 0)

def cdf (d : Distribution) (through : ℕ) : Result UInt32 := do
  rejectIf (d.mass.length ≤ through) (.invalid "cdf bin")
  pure ((d.mass.take (through + 1)).foldl (· + ·) 0)

end Distribution

/-- The operations on doubles, and from singles, that the numeric code uses. -/
class Doubles (F : Type) where
  lit : ℚ → F
  isFinite : F → Bool
  le : F → F → Bool
  eq : F → F → Bool
  add : F → F → F
  sub : F → F → F
  mul : F → F → F
  div : F → F → F
  abs : F → F
  floor : F → F
  exp : F → F
  /-- `total_cmp` is not greater. -/
  totalLe : F → F → Bool
  ofU32 : UInt32 → F
  toU32 : F → UInt32
  ofSingle : UInt32 → F
  maxSingle : UInt32 → UInt32 → UInt32

/-- The number a finite single stands for. -/
def singleValue (bits : UInt32) : ℚ :=
  let exponent := ((bits >>> 23) &&& 0xff).toNat
  let mantissa := (bits &&& 0x7fffff).toNat
  let magnitude : ℚ := if exponent = 0 then mantissa / 2 ^ 149
    else (2 ^ 23 + mantissa) * 2 ^ exponent / 2 ^ 150
  if bits >>> 31 = 1 then -magnitude else magnitude

/-- Exact arithmetic. The exponential is cut off after twenty terms. -/
instance : Doubles ℚ where
  lit := id
  isFinite := fun _ => true
  le := fun a b => decide (a ≤ b)
  eq := fun a b => decide (a = b)
  add := (· + ·)
  sub := (· - ·)
  mul := (· * ·)
  div := (· / ·)
  abs := fun a => |a|
  floor := fun a => (⌊a⌋ : ℚ)
  exp := fun a => (List.range 20).foldr (fun k s => 1 + a / (k + 1) * s) 1
  totalLe := fun a b => decide (a ≤ b)
  ofU32 := fun n => n.toNat
  toU32 := fun a => UInt32.ofNat (min ⌊a⌋.toNat (2 ^ 32 - 1))
  ofSingle := singleValue
  maxSingle := fun a b => if singleValue a ≤ singleValue b then b else a

/-- A single is finite unless its exponent field is full. -/
def singleFinite (bits : UInt32) : Bool := (bits >>> 23) &&& 0xff != 0xff

section Numeric
variable {F : Type} [Doubles F]
open Doubles

def temperatureInRange (t : F) : Bool := le (lit (1 / 1000000)) t && le t (lit 1000000)

/-- Largest remainder: the floors, and one more unit for the `left` largest fractions. -/
def apportion (probabilities : List F) : Result Distribution := do
  rejectIf (¬(2 ≤ probabilities.length ∧ probabilities.length ≤ 7) ∨
    ∃ p ∈ probabilities, ¬isFinite p ∨ ¬le (lit 0) p ∨ ¬le p (lit 1)) .numeric
  let sum := probabilities.foldl add (lit 0)
  rejectIf (¬le (abs (sub sum (lit 1))) (lit (1 / 100000000))) .numeric
  let scaled := probabilities.map fun p => mul p (ofU32 ppm)
  let mass := scaled.map fun p => toU32 (floor p)
  let used := (mass.map UInt32.toNat).sum
  rejectIf (ppm.toNat < used) .numeric
  let left := ppm.toNat - used
  rejectIf (mass.length < left) .numeric
  let fraction := (scaled.zip mass).map fun p => sub p.1 (ofU32 p.2)
  -- the sort is stable, so equal fractions keep ascending indices
  let order := fraction.zipIdx.insertionSort fun a b => totalLe b.1 a.1
  let raised := (order.take left).map Prod.snd
  Distribution.new (mass.zipIdx.map fun p => if p.2 ∈ raised then p.1 + 1 else p.1)

def fromLogits (logits : List UInt32) (temperature : F) : Result Distribution := do
  rejectIf (¬(2 ≤ logits.length ∧ logits.length ≤ 7) ∨ ¬logits.all singleFinite ∨
    ¬isFinite temperature ∨ ¬temperatureInRange temperature) .numeric
  let top := ofSingle (logits.foldl (maxSingle F) 0xff800000)
  let p := logits.map fun x => exp (div (sub (ofSingle x) top) temperature)
  let total := p.foldl add (lit 0)
  rejectIf (¬isFinite total ∨ le total (lit 0)) .numeric
  apportion (p.map fun x => div x total)

end Numeric

def value (schema : Schema) (d : Distribution) : Result DecisionValue := do
  rejectIf (¬schema.primitive.countValid d.mass.length ∨ schema.options.length ≠ d.mass.length)
    .bindingMismatch
  let ids := schema.options.map OptionDef.id
  match schema.primitive with
  | .choice => pure (.choice ids d.mass (ids.getD d.argmax ""))
  | .noul => pure (.noul (d.mass.getD 0 0) (d.mass.getD 1 0))
  | .score => pure (.score ids d.mass d.expectedLevelMicrounits d.meanPpm)

/-- Recomputes every redundant field of an untrusted value. -/
def validateValue (schema : Schema) (v : DecisionValue) : Result Distribution := do
  let d ← Distribution.new v.masses
  let w ← value schema d
  rejectIf (w ≠ v) .bindingMismatch
  pure d

/-- An accepted value is the canonical one of the distribution it yields. -/
theorem validateValue_eq_ok {schema : Schema} {v : DecisionValue} {d : Distribution}
    (h : validateValue schema v = .ok d) : v.masses = d.mass ∧ value schema d = .ok v := by
  simp only [validateValue, bind_eq_ok, Distribution.new_eq_ok, rejectIf_eq_ok, pure_eq_ok] at h
  obtain ⟨d', hd, w, hw, _, hwv, rfl⟩ := h
  exact ⟨hd, by rw [hw, not_not.mp hwv]⟩

end IcLaya
