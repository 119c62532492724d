import Mathlib.Data.BitVec

/-! Checked addition and subtraction of fixed-width words. Each succeeds exactly when
the exact result fits, and then computes it. -/
namespace IcLaya.CheckedWords

/-- `u128`. -/
abbrev U128 := BitVec 128

section BitVectors
variable {w : ℕ}

def checkedAdd (a b : BitVec w) : Option (BitVec w) :=
  if a.toNat + b.toNat < 2 ^ w then some (a + b) else none

def checkedSub (a b : BitVec w) : Option (BitVec w) := if b.toNat ≤ a.toNat then some (a - b) else none

theorem checkedAdd_eq_some {a b c : BitVec w} :
    checkedAdd a b = some c ↔ c.toNat = a.toNat + b.toNat := by
  unfold checkedAdd
  split
  · next h =>
    simp only [Option.some.injEq, ← BitVec.toNat_inj, BitVec.toNat_add, Nat.mod_eq_of_lt h]
    exact eq_comm
  · next h =>
    have := c.isLt
    simp only [reduceCtorEq, false_iff]
    omega

theorem checkedSub_eq_some {a b c : BitVec w} :
    checkedSub a b = some c ↔ a.toNat = c.toNat + b.toNat := by
  unfold checkedSub
  split
  · next h =>
    simp only [Option.some.injEq, ← BitVec.toNat_inj, BitVec.toNat_sub_of_le (BitVec.le_def.mpr h)]
    omega
  · next h =>
    simp only [reduceCtorEq, false_iff]
    omega

theorem exists_checkedAdd {a b : BitVec w} (h : a.toNat + b.toNat < 2 ^ w) :
    ∃ c, checkedAdd a b = some c := ⟨a + b, by simp [checkedAdd, h]⟩

theorem exists_checkedSub {a b : BitVec w} (h : b.toNat ≤ a.toNat) :
    ∃ c, checkedSub a b = some c := ⟨a - b, by simp [checkedSub, h]⟩

end BitVectors

def checkedAdd64 (a b : UInt64) : Option UInt64 :=
  if a.toNat + b.toNat < 2 ^ 64 then some (a + b) else none

theorem checkedAdd64_eq_some {a b c : UInt64} :
    checkedAdd64 a b = some c ↔ c.toNat = a.toNat + b.toNat := by
  unfold checkedAdd64
  split
  · next h =>
    simp only [Option.some.injEq, ← UInt64.toNat_inj, UInt64.toNat_add, Nat.mod_eq_of_lt h]
    exact eq_comm
  · next h =>
    have := c.toNat_lt
    simp only [reduceCtorEq, false_iff]
    omega

def saturatingSub64 (a b : UInt64) : UInt64 := if b ≤ a then a - b else 0

def saturatingAdd64 (a b : UInt64) : UInt64 := (checkedAdd64 a b).getD (UInt64.ofNat (2 ^ 64 - 1))

end IcLaya.CheckedWords
