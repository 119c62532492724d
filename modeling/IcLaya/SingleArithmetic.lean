import Mathlib.Tactic.NormNum
import Mathlib.Data.Nat.Log

/-!
# Single-precision arithmetic on bit patterns

A finite single is a whole multiple of the smallest subnormal, so its magnitude is a natural number
of units, and a quotient of two magnitudes is a ratio of natural numbers. Rounding is to nearest,
ties to even; the bit pattern of a magnitude grows with it.
-/
namespace IcLaya.SingleArithmetic

/-- The bits without the sign. -/
def magnitude (bits : UInt32) : ℕ := bits.toNat % 2 ^ 31

def negative (bits : UInt32) : Bool := 2 ^ 31 ≤ bits.toNat

/-- A number by its bits, in the order of the reals; both zeros are 0. -/
def order (bits : UInt32) : ℤ := if negative bits then -magnitude bits else magnitude bits

/-- A magnitude in units of the smallest subnormal. -/
def units (mag : ℕ) : ℕ :=
  if mag < 2 ^ 23 then mag else (2 ^ 23 + mag % 2 ^ 23) * 2 ^ (mag / 2 ^ 23 - 1)

/-- `n / d`, rounded to nearest, ties to even. -/
def nearest (n d : ℕ) : ℕ :=
  if 2 * (n % d) < d ∨ 2 * (n % d) = d ∧ n / d % 2 = 0 then n / d else n / d + 1

/-- The magnitude nearest to `n / d` units. A rounded significand of `2 ^ 24` carries into the
exponent. -/
def roundRatio (n d : ℕ) : ℕ :=
  let k := Nat.log2 (n / d) - 23
  min (k * 2 ^ 23 + nearest n (d * 2 ^ k)) 0x7f800000

/-- The quotient of two magnitudes. -/
def quotient (a b : ℕ) : ℕ := roundRatio (units a * 2 ^ 149) (units b)

/-- A magnitude rounded to an integer, halves away from zero. -/
def roundAway (mag : ℕ) : ℕ := (units mag + 2 ^ 148) / 2 ^ 149

theorem nearest_le (n d : ℕ) : nearest n d ≤ n / d + 1 := by
  unfold nearest
  split <;> omega

/-- A ratio below `2 ^ (j + 24)` units has an exponent of at most `j`. -/
theorem roundRatio_le {n d j : ℕ} (h : n / d < 2 ^ (j + 24)) :
    roundRatio n d ≤ j * 2 ^ 23 + 2 ^ 24 := by
  have hlog : (n / d).log2 < j + 24 := by
    by_cases hz : n / d = 0
    · rw [hz, Nat.log2_zero]
      omega
    · exact (Nat.log2_lt hz).mpr h
  have hsignificand : n / (d * 2 ^ ((n / d).log2 - 23)) < 2 ^ 24 := by
    rw [← Nat.div_div_eq_div_mul, Nat.div_lt_iff_lt_mul (Nat.two_pow_pos _), ← Nat.pow_add]
    exact Nat.lt_log2_self.trans_le (Nat.pow_le_pow_right (by omega) (by omega))
  have hnearest := nearest_le n (d * 2 ^ ((n / d).log2 - 23))
  have hk : ((n / d).log2 - 23) * 2 ^ 23 ≤ j * 2 ^ 23 := Nat.mul_le_mul_right _ (by omega)
  rw [roundRatio]
  exact min_le_iff.mpr (.inl (Nat.add_le_add hk (hnearest.trans hsignificand)))

theorem units_lt {mag : ℕ} (h : mag < 0x7f800000) : units mag < 2 ^ 24 * 2 ^ 253 := by
  unfold units
  split
  · next hs =>
    have hone : 1 ≤ 2 ^ 253 := Nat.one_le_two_pow
    omega
  · have hf : 2 ^ 23 + mag % 2 ^ 23 < 2 ^ 24 := by omega
    have he : mag / 2 ^ 23 - 1 ≤ 253 := by omega
    calc (2 ^ 23 + mag % 2 ^ 23) * 2 ^ (mag / 2 ^ 23 - 1)
        < 2 ^ 24 * 2 ^ (mag / 2 ^ 23 - 1) := Nat.mul_lt_mul_of_pos_right hf (Nat.two_pow_pos _)
      _ ≤ 2 ^ 24 * 2 ^ 253 := Nat.mul_le_mul_left _ (Nat.pow_le_pow_right (by omega) he)

end IcLaya.SingleArithmetic
