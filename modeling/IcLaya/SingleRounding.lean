import IcLaya.SingleArithmetic
import Mathlib.Tactic.Ring
import Mathlib.Order.Monotone.Basic
import Mathlib.Order.Basic

/-!
# Rounding to single precision

A rational magnitude is rounded past a single exactly when it lies past the midpoint between that
single and the next, or on the midpoint and the single's last bit is odd. From this one fact follow
that rounding keeps the singles, that it is monotone, and which ratios round to a given single.
-/
namespace IcLaya.SingleArithmetic

/-- The magnitude of infinity: its units are the first power of two that is not a single. -/
def infinity : ℕ := 0x7f800000

/-- A significand above its exponent. -/
theorem units_scaled {k s : ℕ} (hs : s ≤ 2 ^ 24) (hk : k = 0 ∨ 2 ^ 23 ≤ s) :
    units (k * 2 ^ 23 + s) = s * 2 ^ k := by
  unfold units
  by_cases hsmall : k * 2 ^ 23 + s < 2 ^ 23
  · have hzero : k = 0 := by omega
    rw [if_pos hsmall, hzero]
    omega
  · rw [if_neg hsmall]
    by_cases hcarry : s = 2 ^ 24
    · have hmod : (k * 2 ^ 23 + s) % 2 ^ 23 = 0 := by omega
      have hdiv : (k * 2 ^ 23 + s) / 2 ^ 23 - 1 = k + 1 := by omega
      rw [hmod, hdiv, hcarry, Nat.pow_succ]
      ring
    · have hmod : (k * 2 ^ 23 + s) % 2 ^ 23 = s - 2 ^ 23 := by omega
      have hdiv : (k * 2 ^ 23 + s) / 2 ^ 23 - 1 = k := by omega
      rw [hmod, hdiv, Nat.add_sub_cancel' (by omega)]

theorem units_lt_succ (m : ℕ) : units m < units (m + 1) := by
  have hs : m % 2 ^ 23 < 2 ^ 23 := Nat.mod_lt _ (by omega)
  by_cases hz : m < 2 ^ 23
  · have hone := units_scaled (k := 0) (s := m) (by omega) (.inl rfl)
    have hnext := units_scaled (k := 0) (s := m + 1) (by omega) (.inl rfl)
    simp only [Nat.zero_mul, Nat.zero_add, Nat.pow_zero, Nat.mul_one] at hone hnext
    omega
  · have hsplit : m = (m / 2 ^ 23 - 1) * 2 ^ 23 + (2 ^ 23 + m % 2 ^ 23) := by omega
    have hone := units_scaled (k := m / 2 ^ 23 - 1) (s := 2 ^ 23 + m % 2 ^ 23) (by omega)
      (.inr (by omega))
    have hnext := units_scaled (k := m / 2 ^ 23 - 1) (s := 2 ^ 23 + m % 2 ^ 23 + 1) (by omega)
      (.inr (by omega))
    rw [← hsplit] at hone
    rw [← Nat.add_assoc, ← hsplit] at hnext
    rw [hone, hnext]
    exact Nat.mul_lt_mul_of_pos_right (Nat.lt_succ_self _) (Nat.two_pow_pos _)

theorem units_strictMono : StrictMono units := strictMono_nat_of_lt_succ units_lt_succ

theorem units_le_iff {a b : ℕ} : units a ≤ units b ↔ a ≤ b := units_strictMono.le_iff_le

theorem units_lt_iff {a b : ℕ} : units a < units b ↔ a < b := units_strictMono.lt_iff_lt

/-- A magnitude that `n / d` units lie above, by the midpoint to the next one. -/
def Passed (n d m : ℕ) : Prop :=
  (units m + units (m + 1)) * d < 2 * n ∨ (units m + units (m + 1)) * d = 2 * n ∧ m % 2 = 1

theorem passed_even {n d m : ℕ} (h : m % 2 = 0) :
    Passed n d m ↔ (units m + units (m + 1)) * d < 2 * n := by
  unfold Passed
  omega

theorem passed_odd {n d m : ℕ} (h : m % 2 = 1) :
    Passed n d m ↔ (units m + units (m + 1)) * d ≤ 2 * n := by
  unfold Passed
  omega

/-- Rounding to an integer passes the odd halves. -/
theorem lt_nearest_iff {n d j : ℕ} (hd : 0 < d) :
    j < nearest n d ↔ (2 * j + 1) * d < 2 * n ∨ (2 * j + 1) * d = 2 * n ∧ j % 2 = 1 := by
  have hn := Nat.div_add_mod' n d
  have hr : n % d < d := Nat.mod_lt n hd
  have hexpand : (2 * j + 1) * d = 2 * (j * d) + d := by ring
  unfold nearest
  rw [hexpand]
  rcases Nat.lt_trichotomy j (n / d) with hlt | rfl | hgt
  · have hmul : (j + 1) * d ≤ n / d * d := Nat.mul_le_mul_right d hlt
    rw [Nat.add_mul, Nat.one_mul] at hmul
    split <;> omega
  · split <;> omega
  · have hmul : (n / d + 1) * d ≤ j * d := Nat.mul_le_mul_right d hgt
    rw [Nat.add_mul, Nat.one_mul] at hmul
    split <;> omega

/-- Rounding is the one way to cut the ratios at the midpoints. -/
theorem lt_roundRatio_iff {n d m : ℕ} (hd : 0 < d) (hm : m < infinity) :
    m < roundRatio n d ↔ Passed n d m := by
  have hlog : n / d < 2 ^ ((n / d).log2 + 1) := Nat.lt_log2_self
  generalize hk : (n / d).log2 - 23 = k
  have hlow : k = 0 ∨ 2 ^ 23 * (d * 2 ^ k) ≤ n := by
    by_cases hz : k = 0
    · exact .inl hz
    · have hne : n / d ≠ 0 := by
        intro he
        rw [he, Nat.log2_zero] at hk
        omega
      have hself := Nat.log2_self_le hne
      have he : (n / d).log2 = 23 + k := by omega
      rw [he, Nat.pow_add, Nat.le_div_iff_mul_le hd] at hself
      refine .inr (le_trans (le_of_eq ?_) hself)
      ring
  have hhigh : n < 2 ^ 24 * (d * 2 ^ k) := by
    have hle : 2 ^ ((n / d).log2 + 1) ≤ 2 ^ (24 + k) :=
      Nat.pow_le_pow_right (by omega) (by omega)
    have hlt := (Nat.div_lt_iff_lt_mul hd).mp (Nat.lt_of_lt_of_le hlog hle)
    refine lt_of_lt_of_eq hlt ?_
    rw [Nat.pow_add]
    ring
  have hpos : 0 < d * 2 ^ k := Nat.mul_pos hd (Nat.two_pow_pos k)
  have hround : m < roundRatio n d ↔ m < k * 2 ^ 23 + nearest n (d * 2 ^ k) := by
    rw [roundRatio, hk, lt_min_iff]
    exact and_iff_left hm
  rw [hround]
  by_cases hbelow : m < k * 2 ^ 23 + (if k = 0 then 0 else 2 ^ 23)
  · -- the single lies below the binade of the ratio
    have hkpos : k ≠ 0 := by
      rintro rfl
      rw [if_pos rfl] at hbelow
      omega
    rw [if_neg hkpos] at hbelow
    have hn := hlow.resolve_left hkpos
    have hnear : 2 ^ 23 ≤ nearest n (d * 2 ^ k) := by
      have hlt := (lt_nearest_iff (n := n) (j := 2 ^ 23 - 1) hpos).mpr (.inl (by omega))
      omega
    have hnext : units (m + 1) ≤ 2 ^ 23 * 2 ^ k := by
      rw [← units_scaled (k := k) (s := 2 ^ 23) (by omega) (.inr (le_refl _)), units_le_iff]
      omega
    have hsum : (units m + units (m + 1)) * d < 2 * n := by
      have hlt := units_lt_succ m
      calc (units m + units (m + 1)) * d < (2 * (2 ^ 23 * 2 ^ k)) * d :=
            Nat.mul_lt_mul_of_pos_right (by omega) hd
        _ = 2 * (2 ^ 23 * (d * 2 ^ k)) := by ring
        _ ≤ 2 * n := Nat.mul_le_mul_left 2 hn
    exact iff_of_true (by omega) (.inl hsum)
  · by_cases habove : m < k * 2 ^ 23 + 2 ^ 24
    · -- in the binade the midpoints are the odd halves of the last place
      obtain ⟨s, rfl⟩ : ∃ s, m = k * 2 ^ 23 + s := ⟨m - k * 2 ^ 23, by split at hbelow <;> omega⟩
      have hs : k = 0 ∨ 2 ^ 23 ≤ s := by
        by_cases hz : k = 0
        · exact .inl hz
        · rw [if_neg hz] at hbelow
          exact .inr (by omega)
      have hone := units_scaled (k := k) (s := s) (by omega) hs
      have hnext := units_scaled (k := k) (s := s + 1) (by omega) (hs.imp_right (by omega))
      have hmid : (units (k * 2 ^ 23 + s) + units (k * 2 ^ 23 + s + 1)) * d =
          (2 * s + 1) * (d * 2 ^ k) := by
        rw [Nat.add_assoc, hone, hnext]
        ring
      have hodd : (k * 2 ^ 23 + s) % 2 = s % 2 := by omega
      rw [Passed, hmid, hodd, ← lt_nearest_iff hpos]
      omega
    · -- the single lies above the binade
      have hnear : nearest n (d * 2 ^ k) ≤ 2 ^ 24 := by
        have hle := nearest_le n (d * 2 ^ k)
        have hdiv : n / (d * 2 ^ k) < 2 ^ 24 := (Nat.div_lt_iff_lt_mul hpos).mpr hhigh
        omega
      have hunits : 2 ^ 24 * 2 ^ k ≤ units m := by
        rw [← units_scaled (k := k) (s := 2 ^ 24) (le_refl _) (.inr (by omega)), units_le_iff]
        omega
      have hsum : 2 * n < (units m + units (m + 1)) * d := by
        have hlt := units_lt_succ m
        calc 2 * n < 2 * (2 ^ 24 * (d * 2 ^ k)) := by omega
          _ = (2 * (2 ^ 24 * 2 ^ k)) * d := by ring
          _ ≤ (units m + units (m + 1)) * d := Nat.mul_le_mul_right d (by omega)
      refine iff_of_false (by omega) ?_
      rintro (h | ⟨h, -⟩) <;> omega

theorem roundRatio_le_infinity (n d : ℕ) : roundRatio n d ≤ infinity := min_le_right _ _

/-- A larger ratio is not rounded to a smaller single. -/
theorem roundRatio_mono {n d n' d' : ℕ} (hd : 0 < d) (hd' : 0 < d') (h : n * d' ≤ n' * d) :
    roundRatio n d ≤ roundRatio n' d' := by
  by_contra hlt
  have hm : roundRatio n' d' < roundRatio n d := Nat.not_le.mp hlt
  have hinf := Nat.lt_of_lt_of_le hm (roundRatio_le_infinity n d)
  have hpassed := (lt_roundRatio_iff hd hinf).mp hm
  refine Nat.lt_irrefl _ ((lt_roundRatio_iff hd' hinf).mpr ?_)
  generalize roundRatio n' d' = m at hpassed
  unfold Passed at hpassed ⊢
  generalize units m + units (m + 1) = x at hpassed ⊢
  have hscaled : ∀ {y z : ℕ}, y * d ≤ z * d → y ≤ z := fun h => Nat.le_of_mul_le_mul_right h hd
  rcases hpassed with hlt' | ⟨heq, hodd⟩
  · refine .inl (Nat.lt_of_mul_lt_mul_right (a := d) ?_)
    calc x * d' * d = x * d * d' := by ring
      _ < 2 * n * d' := Nat.mul_lt_mul_of_pos_right hlt' hd'
      _ = 2 * (n * d') := by ring
      _ ≤ 2 * (n' * d) := Nat.mul_le_mul_left 2 h
      _ = 2 * n' * d := by ring
  · have hle : x * d' ≤ 2 * n' := by
      refine hscaled ?_
      calc x * d' * d = x * d * d' := by ring
        _ = 2 * (n * d') := by rw [heq]; ring
        _ ≤ 2 * (n' * d) := Nat.mul_le_mul_left 2 h
        _ = 2 * n' * d := by ring
    rcases Nat.lt_or_eq_of_le hle with hlt' | heq'
    · exact .inl hlt'
    · exact .inr ⟨heq', hodd⟩

/-- A single is rounded to itself. -/
theorem roundRatio_units {d m : ℕ} (hd : 0 < d) (hm : m ≤ infinity) :
    roundRatio (units m * d) d = m := by
  apply Nat.le_antisymm
  · by_contra hlt
    have hinf := Nat.lt_of_lt_of_le (Nat.not_le.mp hlt) (roundRatio_le_infinity _ d)
    have hpassed := (lt_roundRatio_iff hd hinf).mp (Nat.not_le.mp hlt)
    have hnext := Nat.mul_lt_mul_of_pos_right (units_lt_succ m) hd
    unfold Passed at hpassed
    rw [Nat.add_mul] at hpassed
    rcases hpassed with h | ⟨h, -⟩ <;> omega
  · rcases Nat.eq_zero_or_pos m with rfl | hpos
    · exact Nat.zero_le _
    · obtain ⟨j, rfl⟩ : ∃ j, m = j + 1 := ⟨m - 1, by omega⟩
      refine (lt_roundRatio_iff hd hm).mpr (.inl ?_)
      have hnext := Nat.mul_lt_mul_of_pos_right (units_lt_succ j) hd
      rw [Nat.add_mul]
      omega

theorem roundRatio_le_of_le {n d m : ℕ} (hd : 0 < d) (hm : m ≤ infinity) (h : n ≤ units m * d) :
    roundRatio n d ≤ m := by
  rw [← roundRatio_units hd hm]
  exact roundRatio_mono hd hd (Nat.mul_le_mul_right d h)

theorem le_roundRatio_of_le {n d m : ℕ} (hd : 0 < d) (hm : m ≤ infinity) (h : units m * d ≤ n) :
    m ≤ roundRatio n d := by
  refine le_of_eq_of_le (roundRatio_units hd hm).symm ?_
  exact roundRatio_mono hd hd (Nat.mul_le_mul_right d h)

/-- A common factor does not change a ratio. -/
theorem roundRatio_mul {n d c : ℕ} (hd : 0 < d) (hc : 0 < c) :
    roundRatio (n * c) (d * c) = roundRatio n d := by
  have hdc : 0 < d * c := Nat.mul_pos hd hc
  refine Nat.le_antisymm (roundRatio_mono hdc hd ?_) (roundRatio_mono hd hdc ?_)
  · exact le_of_eq (by ring)
  · exact le_of_eq (by ring)

section Exact

/-- A number of at most 24 bits at any exponent is a single. -/
theorem exists_units {n e : ℕ} (hn : n ≤ 2 ^ 24) (he : e ≤ 253) :
    ∃ m ≤ infinity, units m = n * 2 ^ e := by
  have hinf : infinity = 253 * 2 ^ 23 + 2 ^ 24 := by decide
  have hscale : ∀ t ≤ e, n * 2 ^ t ≤ 2 ^ 24 → e = t ∨ 2 ^ 23 ≤ n * 2 ^ t →
      ∃ m ≤ infinity, units m = n * 2 ^ e := by
    intro t ht hle hk
    refine ⟨(e - t) * 2 ^ 23 + n * 2 ^ t, ?_, ?_⟩
    · rw [hinf]
      exact Nat.add_le_add (Nat.mul_le_mul_right _ (by omega)) hle
    · rw [units_scaled hle (hk.imp_left (by omega)), Nat.mul_assoc, ← Nat.pow_add,
        Nat.add_sub_cancel' ht]
  rcases Nat.eq_zero_or_pos n with rfl | hpos
  · exact ⟨0, Nat.zero_le _, by rw [Nat.zero_mul]; rfl⟩
  have hlog : n.log2 ≤ 24 := by
    have hlt := (Nat.log2_lt (k := 25) (Nat.pos_iff_ne_zero.mp hpos)).mpr (by omega)
    omega
  have hself := Nat.log2_self_le (Nat.pos_iff_ne_zero.mp hpos)
  have hlt : n < 2 ^ (n.log2 + 1) := Nat.lt_log2_self
  by_cases hfit : 23 ≤ n.log2
  · refine hscale 0 (Nat.zero_le e) (by omega) (.inr ?_)
    have hle : 2 ^ 23 ≤ 2 ^ n.log2 := Nat.pow_le_pow_right (by omega) hfit
    omega
  · have hup : ∀ t, n.log2 + t ≤ 23 → n * 2 ^ t ≤ 2 ^ 24 := by
      intro t ht
      have hmul := Nat.mul_lt_mul_of_pos_right hlt (Nat.two_pow_pos t)
      rw [← Nat.pow_add] at hmul
      have hle : 2 ^ (n.log2 + 1 + t) ≤ 2 ^ 24 := Nat.pow_le_pow_right (by omega) (by omega)
      omega
    by_cases hsmall : e ≤ 23 - n.log2
    · exact hscale e (le_refl e) (hup e (by omega)) (.inl rfl)
    · refine hscale (23 - n.log2) (by omega) (hup _ (by omega)) (.inr ?_)
      have hmul := Nat.mul_le_mul_right (2 ^ (23 - n.log2)) hself
      rw [← Nat.pow_add] at hmul
      have he' : n.log2 + (23 - n.log2) = 23 := by omega
      rwa [he'] at hmul

/-- What has at most 24 bits is not changed by rounding. -/
theorem units_roundRatio {n e : ℕ} (hn : n ≤ 2 ^ 24) (he : e ≤ 253) :
    units (roundRatio (n * 2 ^ e) 1) = n * 2 ^ e := by
  obtain ⟨m, hm, hu⟩ := exists_units hn he
  rw [← hu, ← Nat.mul_one (units m), roundRatio_units (by omega) hm, Nat.mul_one]

/-- A rounded ratio, between two numbers of at most 24 bits. -/
theorem units_roundRatio_mem {n d a b e : ℕ} (hd : 0 < d) (he : e ≤ 253) (ha : a ≤ 2 ^ 24)
    (hb : b ≤ 2 ^ 24) (hlow : a * 2 ^ e * d ≤ n) (hhigh : n ≤ b * 2 ^ e * d) :
    a * 2 ^ e ≤ units (roundRatio n d) ∧ units (roundRatio n d) ≤ b * 2 ^ e := by
  obtain ⟨x, hx, hxu⟩ := exists_units ha he
  obtain ⟨y, hy, hyu⟩ := exists_units hb he
  rw [← hxu] at hlow ⊢
  rw [← hyu] at hhigh ⊢
  exact ⟨units_le_iff.mpr (le_roundRatio_of_le hd hx hlow),
    units_le_iff.mpr (roundRatio_le_of_le hd hy hhigh)⟩

/-- A single by its exponent and its significand. -/
theorem units_eq_scaled (m : ℕ) :
    ∃ k s, units m = s * 2 ^ k ∧ s < 2 ^ 24 ∧ (k = 0 ∨ 2 ^ 23 ≤ s) := by
  unfold units
  by_cases hs : m < 2 ^ 23
  · exact ⟨0, m, by rw [if_pos hs]; omega, by omega, .inl rfl⟩
  · exact ⟨m / 2 ^ 23 - 1, 2 ^ 23 + m % 2 ^ 23, by rw [if_neg hs], by omega, .inr (by omega)⟩

end Exact

section Operations

/-- The magnitudes of 0.5 and 1. -/
def half : ℕ := 0x3f000000
def one : ℕ := 0x3f800000

/-- The sum of two numbers of one sign. -/
def total (a b : ℕ) : ℕ := roundRatio (units a + units b) 1

/-- The difference of a number and one that is no larger. -/
def difference (a b : ℕ) : ℕ := roundRatio (units a - units b) 1

def product (a b : ℕ) : ℕ := roundRatio (units a * units b) (2 ^ 149)

/-- The integer part. -/
def whole (a : ℕ) : ℕ := units a / 2 ^ 149

/-- A number without its fraction. -/
def truncated (a : ℕ) : ℕ := roundRatio (whole a * 2 ^ 149) 1

/-- The integer part, and one more where the fraction is at least a half. -/
def roundByTruncation (a : ℕ) : ℕ :=
  total (truncated a) (if half ≤ difference a (truncated a) then one else 0)

theorem units_half : units half = 2 ^ 148 := by decide +kernel
theorem units_one : units one = 2 ^ 149 := by decide +kernel

variable {a b : ℕ}

/-- The integer part and the fraction have at most 24 bits; a number with a fraction is below
`2 ^ 23`. -/
theorem fraction_bits (ha : a ≤ infinity) :
    units (truncated a) = whole a * 2 ^ 149 ∧
      units (difference a (truncated a)) = units a % 2 ^ 149 ∧
      (units a % 2 ^ 149 ≠ 0 → whole a < 2 ^ 23) := by
  obtain ⟨k, s, hu, hs, -⟩ := units_eq_scaled a
  by_cases hlarge : 149 ≤ k
  · -- an integer
    have hsplit : units a = s * 2 ^ (k - 149) * 2 ^ 149 := by
      rw [hu, Nat.mul_assoc, ← Nat.pow_add, Nat.sub_add_cancel hlarge]
    have hmod : units a % 2 ^ 149 = 0 := by rw [hsplit, Nat.mul_mod_left]
    have hwhole : whole a * 2 ^ 149 = units a := Nat.div_mul_cancel (Nat.dvd_of_mod_eq_zero hmod)
    have htrunc : units (truncated a) = units a := by
      rw [truncated, hwhole, ← Nat.mul_one (units a), roundRatio_units (by omega) ha,
        Nat.mul_one]
    refine ⟨by rw [htrunc, hwhole], ?_, fun h => absurd hmod h⟩
    rw [difference, htrunc, Nat.sub_self, hmod]
    rfl
  · have hpow : (2 : ℕ) ^ 149 = 2 ^ (149 - k) * 2 ^ k := by
      rw [← Nat.pow_add, Nat.sub_add_cancel (by omega)]
    have hwhole : whole a < 2 ^ 23 := by
      rw [whole, Nat.div_lt_iff_lt_mul (Nat.two_pow_pos _), hu]
      calc s * 2 ^ k < 2 ^ 24 * 2 ^ k := Nat.mul_lt_mul_of_pos_right hs (Nat.two_pow_pos k)
        _ ≤ 2 ^ 24 * 2 ^ 148 := Nat.mul_le_mul_left _ (Nat.pow_le_pow_right (by omega) (by omega))
        _ = 2 ^ 23 * 2 ^ 149 := by norm_num
    have htrunc : units (truncated a) = whole a * 2 ^ 149 :=
      units_roundRatio (by omega) (by omega)
    refine ⟨htrunc, ?_, fun _ => hwhole⟩
    have hfraction : units a - units (truncated a) = (s % 2 ^ (149 - k)) * 2 ^ k := by
      have hdiv := Nat.div_add_mod' (units a) (2 ^ 149)
      have hmod : units a % 2 ^ 149 = (s % 2 ^ (149 - k)) * 2 ^ k := by
        rw [hu, hpow, Nat.mul_mod_mul_right]
      rw [htrunc, whole]
      omega
    have hbits : s % 2 ^ (149 - k) ≤ 2 ^ 24 := (Nat.mod_le _ _).trans (by omega)
    rw [difference, hfraction, units_roundRatio hbits (by omega), hu, hpow, Nat.mul_mod_mul_right]

theorem roundByTruncation_le (a : ℕ) : roundByTruncation a ≤ infinity := roundRatio_le_infinity _ _

/-- Rounding by truncation is rounding halves away from zero. -/
theorem units_roundByTruncation (ha : a ≤ infinity) :
    units (roundByTruncation a) = roundAway a * 2 ^ 149 := by
  obtain ⟨htrunc, hfraction, hsmall⟩ := fraction_bits ha
  have hdiv := Nat.div_add_mod' (units a) (2 ^ 149)
  have hhalf : half ≤ difference a (truncated a) ↔ 2 ^ 148 ≤ units a % 2 ^ 149 := by
    rw [← units_le_iff, units_half, hfraction]
  have hpow : (2 : ℕ) ^ 149 = 2 * 2 ^ 148 := Nat.pow_succ'
  have hmod : units a % 2 ^ 149 < 2 ^ 149 := Nat.mod_lt _ (Nat.two_pow_pos _)
  have haway : roundAway a = whole a + if 2 ^ 148 ≤ units a % 2 ^ 149 then 1 else 0 := by
    unfold roundAway whole
    generalize units a / 2 ^ 149 = w at hdiv ⊢
    generalize units a % 2 ^ 149 = f at hdiv hmod ⊢
    split
    · rw [Nat.div_eq_iff (Nat.two_pow_pos _)]
      omega
    · rw [Nat.div_eq_iff (Nat.two_pow_pos _)]
      omega
  rw [haway]
  unfold roundByTruncation total
  rw [htrunc]
  by_cases hup : 2 ^ 148 ≤ units a % 2 ^ 149
  · have hlt := hsmall (by have hpos := Nat.two_pow_pos 148; omega)
    have hsum : whole a * 2 ^ 149 + 2 ^ 149 = (whole a + 1) * 2 ^ 149 := by ring
    rw [if_pos (hhalf.mpr hup), if_pos hup, units_one, hsum]
    exact units_roundRatio (by omega) (by omega)
  · rw [if_neg (mt hhalf.mp hup), if_neg hup, Nat.add_zero, show units 0 = 0 from rfl, Nat.add_zero]
    exact htrunc

end Operations

end IcLaya.SingleArithmetic
