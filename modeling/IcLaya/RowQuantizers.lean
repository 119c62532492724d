import IcLaya.SingleRounding
import IcLaya.LaneChunks
import IcLaya.PackExporter

/-!
# Rows of signed bytes (`int8_quant.rs`, `tools/quantize_pack.py`)

The runtime quantizes a row in two ways, number by number or in lanes of four, and the exporter in a
third. The lanes round by truncation and are the runtime's rounding; the exporter adds a half and
takes the floor, in single precision, and that sum is rounded too.
-/
namespace IcLaya
open Fallible SingleArithmetic WordStreams LaneChunks PackExporter

section Lanes

/-- The bits of a number by its sign and its magnitude. -/
def withSign (neg : Bool) (mag : ℕ) : UInt32 := UInt32.ofNat (if neg then 2 ^ 31 + mag else mag)

/-- `f32x4_div`. -/
def divide (a b : UInt32) : UInt32 :=
  withSign (negative a != negative b) (quotient (magnitude a) (magnitude b))

/-- `f32x4_min` and `f32x4_max`, on numbers. -/
def lower (a b : UInt32) : UInt32 := if order b < order a then b else a
def upper (a b : UInt32) : UInt32 := if order a < order b then b else a

/-- `i32x4_trunc_sat_f32x4`. -/
def truncSat (v : UInt32) : ℤ :=
  if negative v then max (-whole (magnitude v)) (-2 ^ 31) else min (whole (magnitude v)) (2 ^ 31 - 1)

/-- `i16x8_narrow_i32x4` and `i8x16_narrow_i16x8`. -/
def narrow16 (n : ℤ) : ℤ := max (-2 ^ 15) (min n (2 ^ 15 - 1))
def narrow8 (n : ℤ) : ℤ := max (-2 ^ 7) (min n (2 ^ 7 - 1))

/-- The magnitude of 127. -/
def clip : ℕ := 0x42fe0000

/-- One lane of the vector loop. -/
def laneValue (scale v : UInt32) : Int8 :=
  let x := divide v scale
  let rounded := roundByTruncation (magnitude x)
  let signed := withSign (negative x) rounded
  let q := truncSat (upper (withSign true clip) (lower signed (withSign false clip)))
  Int8.ofInt (narrow8 (narrow16 q))

/-- The scale of a row with that peak. -/
def scaleOf (peak : ℕ) : UInt32 :=
  if peak = 0 then 0x3f800000 else UInt32.ofNat (max (quotient peak clip) (magnitude minPositive))

/-- `int8_quant::row` in lanes of four. -/
def quantizeLanes (row : List UInt32) : CResult (UInt32 × List Int8) := do
  let lanes ← (chunksExact 4 row).foldlM (fun peak chunk => do
    rejectIf (∃ v ∈ chunk, magnitude maxSingle < magnitude v) "nonfinite int8 activation"
    pure (List.zipWith max peak (chunk.map magnitude))) [0, 0, 0, 0]
  let peak := lanes.foldl max 0
  let peak ← (tail 4 row).foldlM (fun peak v => do
    rejectIf (¬singleFinite v) "nonfinite int8 activation"
    pure (max peak (magnitude v))) peak
  let scale := scaleOf peak
  pure (scale, (chunksExact 4 row).flatMap (List.map (laneValue scale)) ++
    (tail 4 row).map (quantizeValue scale))

end Lanes

/-- A row of `quantize()`: `np.max` has no value for an empty row. -/
def quantizeExported (row : List UInt32) : Py (UInt32 × List Int8) := do
  let peak ← okOr (row.map magnitude).max? "ValueError"
  let scale := scaleOf peak
  let scaled := row.map (divide · scale)
  pure (scale, scaled.map fun x =>
    let q := min (roundHalfUp (magnitude x)) 127
    if negative x then -Int8.ofNat q else Int8.ofNat q)

section Signs
variable {v : UInt32} {m : ℕ}

theorem magnitude_withSign {neg : Bool} (h : m < 2 ^ 31) :
    magnitude (withSign neg m) = m ∧ negative (withSign neg m) = neg := by
  unfold magnitude negative withSign
  rw [UInt32.toNat_ofNat']
  cases neg with
  | false =>
    rw [if_neg Bool.false_ne_true, Nat.mod_eq_of_lt (a := m) (b := 2 ^ 32) (by omega)]
    exact ⟨Nat.mod_eq_of_lt h, decide_eq_false (by omega)⟩
  | true =>
    rw [if_pos rfl, Nat.mod_eq_of_lt (a := 2 ^ 31 + m) (b := 2 ^ 32) (by omega)]
    exact ⟨by omega, decide_eq_true (by omega)⟩

theorem withSign_false (m : ℕ) : withSign false m = UInt32.ofNat m := rfl

theorem order_withSign {neg : Bool} (h : m < 2 ^ 31) :
    order (withSign neg m) = if neg then -(m : ℤ) else m := by
  obtain ⟨hm, hn⟩ := @magnitude_withSign m neg h
  rw [order, hm, hn]

theorem lt_of_le_infinity (h : m ≤ infinity) : m < 2 ^ 31 := Nat.lt_of_le_of_lt h (by decide)

theorem divide_facts {scale : UInt32} (hscale : negative scale = false) :
    magnitude (divide v scale) = quotient (magnitude v) (magnitude scale) ∧
      negative (divide v scale) = negative v := by
  obtain ⟨hm, hn⟩ := @magnitude_withSign _ (negative v != negative scale)
    (lt_of_le_infinity (roundRatio_le_infinity (units (magnitude v) * 2 ^ 149)
      (units (magnitude scale))))
  refine ⟨hm, hn.trans ?_⟩
  rw [hscale]
  cases negative v <;> rfl

end Signs

section LaneValues

theorem units_clip : units clip = 127 * 2 ^ 149 := by decide +kernel

/-- A rounded number, clipped and truncated in its lane. -/
private theorem truncSat_clipped {neg : Bool} {r n : ℕ} (hr : r ≤ infinity)
    (hu : units r = n * 2 ^ 149) :
    truncSat (upper (withSign true clip) (lower (withSign neg r) (withSign false clip))) =
      if neg then -((min n 127 : ℕ) : ℤ) else (min n 127 : ℕ) := by
  have hlt : r < clip ↔ n < 127 := by
    rw [← units_lt_iff, units_clip, hu]
    exact Nat.mul_lt_mul_right (Nat.two_pow_pos _)
  have hwhole : whole r = n := by rw [whole, hu, Nat.mul_div_cancel _ (Nat.two_pow_pos _)]
  have hclip : whole clip = 127 := by decide +kernel
  have hr31 := lt_of_le_infinity hr
  have hc31 : clip < 2 ^ 31 := by decide
  have hbits : ∀ neg m, m < 2 ^ 31 → truncSat (withSign neg m) =
      if neg then max (-(whole m : ℤ)) (-2 ^ 31) else min (whole m : ℤ) (2 ^ 31 - 1) := by
    intro neg m hm
    obtain ⟨h1, h2⟩ := @magnitude_withSign m neg hm
    rw [truncSat, h1, h2]
  have hpos : 0 < clip := by decide
  cases neg with
  | true =>
    have hlower : lower (withSign true r) (withSign false clip) = withSign true r := by
      rw [lower, order_withSign hr31, order_withSign hc31]
      exact if_neg (by simp only [if_true, Bool.false_eq_true, if_false]; omega)
    rw [hlower, upper, order_withSign hr31, order_withSign hc31]
    simp only [if_true]
    by_cases h : r < clip
    · rw [if_pos (by omega), hbits _ _ hr31, hwhole]
      simp only [if_true]
      omega
    · rw [if_neg (by omega), hbits _ _ hc31, hclip]
      simp only [if_true]
      omega
  | false =>
    have hupper : ∀ m, m < 2 ^ 31 →
        upper (withSign true clip) (withSign false m) = withSign false m := by
      intro m hm
      rw [upper, order_withSign hm, order_withSign hc31]
      exact if_pos (by simp only [if_true, Bool.false_eq_true, if_false]; omega)
    rw [lower, order_withSign hr31, order_withSign hc31]
    simp only [Bool.false_eq_true, if_false]
    by_cases h : r < clip
    · rw [if_neg (by omega), hupper r hr31, hbits _ _ hr31, hwhole]
      simp only [Bool.false_eq_true, if_false]
      omega
    · by_cases he : r = clip
      · rw [if_neg (by omega), hupper r hr31, he, hbits _ _ hc31, hclip]
        simp only [Bool.false_eq_true, if_false]
        omega
      · rw [if_pos (by omega), hupper clip hc31, hbits _ _ hc31, hclip]
        simp only [Bool.false_eq_true, if_false]
        omega

/-- A byte of a sign and a magnitude. -/
theorem signedByte_eq {neg : Bool} {m : ℕ} (h : m ≤ 127) :
    (if neg then -Int8.ofNat m else Int8.ofNat m) = Int8.ofInt (if neg then -(m : ℤ) else m) := by
  have hall : ∀ m : Fin 128, ∀ neg : Bool, (if neg then -Int8.ofNat m else Int8.ofNat m) =
      Int8.ofInt (if neg then -((m : ℕ) : ℤ) else (m : ℕ)) := by
    decide +kernel
  exact hall ⟨m, by omega⟩ neg

/-- What is clipped already is not saturated. -/
theorem narrow_of_le {n : ℤ} (hlow : -127 ≤ n) (hhigh : n ≤ 127) : narrow8 (narrow16 n) = n := by
  unfold narrow8 narrow16
  omega

/-- A lane rounds and clips as the loop over single numbers does. -/
theorem laneValue_eq {scale v : UInt32} (hscale : negative scale = false) :
    laneValue scale v = quantizeValue scale v := by
  obtain ⟨hm, hn⟩ := divide_facts (v := v) hscale
  have hle : quotient (magnitude v) (magnitude scale) ≤ infinity := roundRatio_le_infinity _ _
  unfold laneValue quantizeValue
  dsimp only
  rw [hm, hn]
  generalize quotient (magnitude v) (magnitude scale) = a at hle
  rw [truncSat_clipped (roundByTruncation_le a) (units_roundByTruncation hle)]
  have h127 : min (roundAway a) 127 ≤ 127 := min_le_right _ _
  rw [signedByte_eq h127]
  cases negative v <;> rw [narrow_of_le] <;> simp only [if_true, Bool.false_eq_true, if_false] <;>
    omega

end LaneValues

section Rows
variable {row : List UInt32}

/-- Both sides divide the peak by 127. -/
theorem scaleOf_peak (row : List UInt32) :
    scaleOf (row.foldl (fun a v => max a (magnitude v)) 0) = rowScale row := by
  have hratio : ∀ peak, quotient peak clip = roundRatio (units peak) 127 := by
    intro peak
    rw [quotient, units_clip]
    exact roundRatio_mul (by omega) (Nat.two_pow_pos _)
  rw [scaleOf, rowScale, hratio]

theorem negative_rowScale (h : ∀ v ∈ row, singleFinite v) : negative (rowScale row) = false := by
  have hpos := (rowScale_positive h).2
  unfold order at hpos
  cases hn : negative (rowScale row) with
  | false => rfl
  | true =>
    rw [hn, if_pos rfl] at hpos
    omega

/-- The two loops of the runtime quantize every row alike. -/
theorem quantizeLanes_eq (row : List UInt32) : quantizeLanes row = quantizeRow row := by
  have hmax : magnitude maxSingle = infinity - 1 := by decide
  have hfinite : ∀ v, magnitude maxSingle < magnitude v ↔ ¬singleFinite v := by
    intro v
    rw [singleFinite_iff, hmax]
    unfold infinity
    omega
  have hguard : ∀ chunk : List UInt32, (∃ v ∈ chunk, magnitude maxSingle < magnitude v) ↔
      ∃ v ∈ chunk, ¬singleFinite v := fun chunk => exists_congr fun v => and_congr_right fun _ =>
        hfinite v
  have hrow := @exists_chunks _ 4 (fun v => ¬singleFinite v) row
  unfold quantizeLanes quantizeRow
  simp only [hguard]
  by_cases hbad : ∃ v ∈ row, ¬singleFinite v
  · rw [rejectIf_stop hbad, foldlM_guard]
    rcases hrow.mp hbad with hchunks | htail
    · rw [if_pos hchunks]
      rfl
    · by_cases hchunks : ∃ chunk ∈ chunksExact 4 row, ∃ v ∈ chunk, ¬singleFinite v
      · rw [if_pos hchunks]
        rfl
      · rw [if_neg hchunks, ok_bind, foldlM_guard, if_pos htail]
        rfl
  · have hnone := mt hrow.mpr hbad
    rw [not_or] at hnone
    rw [rejectIf_bind hbad, foldlM_guard, if_neg hnone.1, ok_bind, foldlM_guard,
      if_neg hnone.2, ok_bind]
    have hscale : scaleOf ((tail 4 row).foldl (fun peak v => max peak (magnitude v))
        (((chunksExact 4 row).foldl (fun peak chunk => List.zipWith max peak (chunk.map magnitude))
          [0, 0, 0, 0]).foldl max 0)) = rowScale row := by
      rw [@foldl_max_chunks _ 4 [0, 0, 0, 0] magnitude row rfl]
      exact scaleOf_peak row
    have hfinite' : ∀ v ∈ row, singleFinite v = true := fun v hv =>
      Decidable.not_not.mp fun hno => hbad ⟨v, hv, hno⟩
    have hlanes : laneValue (rowScale row) = quantizeValue (rowScale row) :=
      funext fun v => laneValue_eq (negative_rowScale hfinite')
    rw [hscale, hlanes, map_chunks]

/-- What the exporter writes for a row. -/
theorem quantizeExported_eq (hrow : row ≠ []) (h : ∀ v ∈ row, singleFinite v) :
    quantizeExported row =
      .ok (rowScale row, row.map (quantizedValue (rowScale row))) := by
  have hmax : (row.map magnitude).max? = some (row.foldl (fun a v => max a (magnitude v)) 0) := by
    cases row with
    | nil => exact absurd rfl hrow
    | cons v row => rw [List.map_cons, List.max?_cons', List.foldl_map, List.foldl_cons, Nat.zero_max]
  have hbytes : ∀ v, (let q := min (roundHalfUp (magnitude (divide v (rowScale row)))) 127
      if negative (divide v (rowScale row)) then -Int8.ofNat q else Int8.ofNat q) =
        quantizedValue (rowScale row) v := by
    intro v
    obtain ⟨hm, hn⟩ := divide_facts (v := v) (negative_rowScale h)
    rw [hm, hn]
    rfl
  unfold quantizeExported
  rw [hmax]
  show Except.ok _ = _
  rw [scaleOf_peak, List.map_map]
  congr 3
  funext v
  exact hbytes v

end Rows

section Halves
variable {a : ℕ}

/-- Below a half nothing is rounded up, but for the last single. -/
private theorem rounded_below_half (h : a ≤ 0x3effffff) :
    roundAway a = 0 ∧ (roundHalfUp a = 0 ↔ a ≠ 0x3effffff) := by
  have hsum : units 0x3efffffe + 2 ^ 148 = units 0x3f7fffff := by decide +kernel
  have hlast : units 0x3f7fffff < 2 ^ 149 := by decide +kernel
  rcases Nat.lt_or_eq_of_le h with hlt | rfl
  · have hu : units a ≤ units 0x3efffffe := units_le_iff.mpr (by omega)
    have hround : units (roundRatio (units a + 2 ^ 148) 1) ≤ units 0x3f7fffff :=
      units_le_iff.mpr (roundRatio_le_of_le (by omega) (by decide) (by omega))
    refine ⟨Nat.div_eq_of_lt (by omega), iff_of_true ?_ (Nat.ne_of_lt hlt)⟩
    exact Nat.div_eq_of_lt (by omega)
  · exact ⟨by decide +kernel, iff_of_false (by decide +kernel) fun hne => hne rfl⟩

/-- From a half up to one both are 1. -/
private theorem rounded_to_one (h : 2 ^ 148 ≤ units a) (hone : units a < 2 ^ 149) :
    roundHalfUp a = 1 ∧ roundAway a = 1 := by
  have hpow : (2 : ℕ) ^ 149 = 2 * 2 ^ 148 := Nat.pow_succ'
  obtain ⟨hlow, hhigh⟩ := units_roundRatio_mem (n := units a + 2 ^ 148) (d := 1) (a := 2)
    (b := 3) (e := 148) (by omega) (by omega) (by omega) (by omega) (by omega) (by omega)
  rw [roundHalfUp, roundAway, Nat.div_eq_iff (Nat.two_pow_pos _),
    Nat.div_eq_iff (Nat.two_pow_pos _)]
  omega

/-- From 128 on both are clipped. -/
private theorem rounded_past_clip (h : 2 ^ 7 * 2 ^ 149 ≤ units a) :
    2 ^ 7 ≤ roundHalfUp a ∧ 2 ^ 7 ≤ roundAway a := by
  obtain ⟨m, hm, hmu⟩ := exists_units (n := 2 ^ 7) (e := 149) (by omega) (by omega)
  have hround : units m ≤ units (roundRatio (units a + 2 ^ 148) 1) :=
    units_le_iff.mpr (le_roundRatio_of_le (by omega) hm (by omega))
  rw [roundHalfUp, roundAway, Nat.le_div_iff_mul_le (Nat.two_pow_pos _),
    Nat.le_div_iff_mul_le (Nat.two_pow_pos _)]
  omega

/-- The significand and the exponent of a number from 1 up to 128. -/
private theorem significand_between (hone : 2 ^ 149 ≤ units a) (hclip : units a < 2 ^ 7 * 2 ^ 149) :
    ∃ k s, units a = s * 2 ^ k ∧ s < 2 ^ 24 ∧ 125 < k ∧ k < 133 := by
  obtain ⟨k, s, hu, hs, hk⟩ := units_eq_scaled a
  have hlow : 2 ^ 149 < 2 ^ (24 + k) := by
    refine Nat.lt_of_le_of_lt hone ?_
    rw [hu, Nat.pow_add]
    exact Nat.mul_lt_mul_of_pos_right hs (Nat.two_pow_pos k)
  have hk1 := (Nat.pow_lt_pow_iff_right (by omega)).mp hlow
  have hs23 := hk.resolve_left (by omega)
  have hhigh : 2 ^ (23 + k) < 2 ^ 156 := by
    rw [Nat.pow_add]
    refine Nat.lt_of_le_of_lt (Nat.mul_le_mul_right _ hs23) ?_
    rw [← hu]
    exact hclip
  have hk2 := (Nat.pow_lt_pow_iff_right (by omega)).mp hhigh
  exact ⟨k, s, hu, hs, by omega, by omega⟩

/-- Between 1 and 128 the sum with a half is a single, or rounded to a number of halves past a
power of two. -/
private theorem rounded_between (hone : 2 ^ 149 ≤ units a) (hclip : units a < 2 ^ 7 * 2 ^ 149) :
    roundHalfUp a = roundAway a := by
  have hpow : (2 : ℕ) ^ 149 = 2 * 2 ^ 148 := Nat.pow_succ'
  obtain ⟨k, s, hu, hs, hk1, hk2⟩ := significand_between hone hclip
  have hhalf : 2 ^ (148 - k) * 2 ^ k = 2 ^ 148 := by
    rw [← Nat.pow_add, Nat.sub_add_cancel (by omega)]
  have hsum : units a + 2 ^ 148 = (s + 2 ^ (148 - k)) * 2 ^ k := by rw [Nat.add_mul, hhalf, hu]
  by_cases hfit : s + 2 ^ (148 - k) ≤ 2 ^ 24
  · rw [roundHalfUp, roundAway, hsum, units_roundRatio hfit (by omega)]
  · obtain ⟨e, rfl⟩ : ∃ e, k = 125 + e := ⟨k - 125, by omega⟩
    have hbits : 2 ^ e ≤ 2 ^ 7 := Nat.pow_le_pow_right (by omega) (by omega)
    have hcarry : 2 * 2 ^ e * 2 ^ 148 = 2 ^ 24 * 2 ^ (125 + e) := by
      rw [Nat.pow_add]
      ring
    have hlow : 2 ^ 24 * 2 ^ (125 + e) ≤ units a + 2 ^ 148 := by
      rw [hsum]
      exact Nat.mul_le_mul_right _ (Nat.le_of_lt (Nat.not_le.mp hfit))
    have hhigh : units a < 2 ^ 24 * 2 ^ (125 + e) := by
      rw [hu]
      exact Nat.mul_lt_mul_of_pos_right hs (Nat.two_pow_pos _)
    have hnext : (2 * 2 ^ e + 1) * 2 ^ 148 = 2 * 2 ^ e * 2 ^ 148 + 2 ^ 148 := by ring
    have hexpand : 2 * 2 ^ e * 2 ^ 148 = 2 ^ e * 2 ^ 149 := by
      rw [hpow]
      ring
    obtain ⟨hge, hle⟩ := units_roundRatio_mem (n := units a + 2 ^ 148) (d := 1)
      (a := 2 * 2 ^ e) (b := 2 * 2 ^ e + 1) (e := 148) (by omega) (by omega) (by omega) (by omega)
      (by omega) (by omega)
    have h1 : roundHalfUp a = 2 ^ e := by
      rw [roundHalfUp, Nat.div_eq_iff (Nat.two_pow_pos _)]
      omega
    have h2 : roundAway a = 2 ^ e := by
      rw [roundAway, Nat.div_eq_iff (Nat.two_pow_pos _)]
      omega
    rw [h1, h2]

/-- The two ways to round agree, up to the clip, on all but one number: the last one below a half
is a half short of 1 by less than singles below 1 are apart. -/
theorem clipped_roundHalfUp (a : ℕ) :
    min (roundHalfUp a) 127 = min (roundAway a) 127 ↔ a ≠ 0x3effffff := by
  by_cases hbelow : a ≤ 0x3effffff
  · obtain ⟨haway, hup⟩ := rounded_below_half hbelow
    rw [haway, ← hup]
    omega
  · refine iff_of_true ?_ (by omega)
    have hhalf : 2 ^ 148 ≤ units a := by
      rw [← units_half, units_le_iff]
      unfold half
      omega
    rcases Nat.lt_or_ge (units a) (2 ^ 149) with hone | hone
    · obtain ⟨h1, h2⟩ := rounded_to_one hhalf hone
      rw [h1, h2]
    · rcases Nat.lt_or_ge (units a) (2 ^ 7 * 2 ^ 149) with hclip | hclip
      · rw [rounded_between hone hclip]
      · obtain ⟨h1, h2⟩ := rounded_past_clip hclip
        omega

end Halves

section Agreement
variable {row : List UInt32}

/-- `a / b` is just below a half: nearer to the last single below it than to any other. -/
def BelowHalf (a b : ℕ) : Prop :=
  (2 ^ 25 - 3) * units b < 2 ^ 26 * units a ∧ 2 ^ 26 * units a < (2 ^ 25 - 1) * units b

instance (a b : ℕ) : Decidable (BelowHalf a b) := by unfold BelowHalf; infer_instance

theorem quotient_eq_below_half {a b : ℕ} (hb : 0 < units b) :
    quotient a b = 0x3effffff ↔ BelowHalf a b := by
  have hlow : units 0x3efffffe + units (0x3efffffe + 1) = (2 ^ 25 - 3) * 2 ^ 124 := by
    decide +kernel
  have hhigh : units 0x3effffff + units (0x3effffff + 1) = (2 ^ 25 - 1) * 2 ^ 124 := by
    decide +kernel
  have hpos : 0 < 2 ^ 124 := Nat.two_pow_pos 124
  have hsides : ∀ c, c * 2 ^ 124 * units b = c * units b * 2 ^ 124 := fun c => by ring
  have htwice : 2 * (units a * 2 ^ 149) = 2 ^ 26 * units a * 2 ^ 124 := by ring
  have hmore := (lt_roundRatio_iff (n := units a * 2 ^ 149) hb (by decide)).trans
    (passed_even (show 0x3efffffe % 2 = 0 by decide))
  have hless := (lt_roundRatio_iff (n := units a * 2 ^ 149) hb (by decide)).trans
    (passed_odd (show 0x3effffff % 2 = 1 by decide))
  rw [hlow, hsides, htwice, Nat.mul_lt_mul_right hpos] at hmore
  rw [hhigh, hsides, htwice, Nat.mul_le_mul_right_iff hpos] at hless
  have hnot := not_congr hless
  rw [Nat.not_lt, Nat.not_le] at hnot
  rw [BelowHalf, ← hmore, ← hnot, quotient]
  omega

/-- A magnitude just below a half of the single nearest to the peak over 127, which is taken to be a
normal one. -/
def JustBelowHalf (peak mag : ℕ) : Prop :=
  BelowHalf mag (max (roundRatio (units peak) 127) (magnitude minPositive))

instance (peak mag : ℕ) : Decidable (JustBelowHalf peak mag) := by
  unfold JustBelowHalf; infer_instance

/-- The largest magnitude of a row. -/
def peakOf (row : List UInt32) : ℕ := row.foldl (fun a v => max a (magnitude v)) 0

/-- A signed byte shows its magnitude. -/
private theorem signedByte_inj {neg : Bool} {p q : ℕ} (hp : p ≤ 127) (hq : q ≤ 127) :
    ((if neg then -Int8.ofNat p else Int8.ofNat p) =
      if neg then -Int8.ofNat q else Int8.ofNat q) ↔ p = q := by
  refine ⟨fun h => ?_, fun h => by rw [h]⟩
  rw [signedByte_eq hp, signedByte_eq hq] at h
  have hint := congrArg Int8.toInt h
  cases neg with
  | true =>
    simp only [if_true] at hint
    rw [Int8.toInt_ofInt_of_le (by omega) (by omega), Int8.toInt_ofInt_of_le (by omega) (by omega)]
      at hint
    omega
  | false =>
    simp only [Bool.false_eq_true, if_false] at hint
    rw [Int8.toInt_ofInt_of_le (by omega) (by omega), Int8.toInt_ofInt_of_le (by omega) (by omega)]
      at hint
    omega

/-- The scale of a row that is not all zeros. -/
theorem magnitude_rowScale (hpeak : peakOf row ≠ 0) : magnitude (rowScale row) =
    max (roundRatio (units (peakOf row)) 127) (magnitude minPositive) := by
  have hle := roundRatio_le_infinity (units (peakOf row)) 127
  have hmin : magnitude minPositive = 0x00800000 := by decide
  have hinf : infinity = 0x7f800000 := rfl
  obtain ⟨hm, -⟩ := @magnitude_withSign (max (roundRatio (units (peakOf row)) 127)
    (magnitude minPositive)) false (by omega)
  rw [withSign_false] at hm
  unfold rowScale
  dsimp only
  rw [← peakOf, if_neg hpeak]
  exact hm

/-- The two roundings of a value differ just below a half of the scale. -/
theorem quantizedValue_eq_iff {v : UInt32} (hv : v ∈ row) :
    quantizedValue (rowScale row) v = quantizeValue (rowScale row) v ↔
      ¬JustBelowHalf (peakOf row) (magnitude v) := by
  have hle : magnitude v ≤ peakOf row := le_foldl_max hv 0
  have hvalues : quantizedValue (rowScale row) v = quantizeValue (rowScale row) v ↔
      quotient (magnitude v) (magnitude (rowScale row)) ≠ 0x3effffff := by
    unfold quantizedValue quantizeValue
    dsimp only
    rw [signedByte_inj (min_le_right _ _) (min_le_right _ _)]
    exact clipped_roundHalfUp _
  rw [hvalues]
  apply not_congr
  by_cases hpeak : peakOf row = 0
  · -- a row of zeros
    have hzero : magnitude v = 0 := by omega
    have hno : ¬JustBelowHalf (peakOf row) (magnitude v) := by
      rw [hzero]
      rintro ⟨h, -⟩
      exact Nat.not_lt_zero _ h
    have hquotient : quotient 0 (magnitude (rowScale row)) = 0 := by
      have hscale : rowScale row = 0x3f800000 := by
        unfold rowScale
        dsimp only
        rw [← peakOf, if_pos hpeak]
      rw [hscale]
      decide +kernel
    rw [hzero, hquotient]
    rw [hzero] at hno
    exact iff_of_false (by decide) hno
  · have hpos : 0 < units (magnitude (rowScale row)) := by
      rw [magnitude_rowScale hpeak]
      have hmin : 0 < magnitude minPositive := by decide
      have hlt := units_lt_iff.mpr (lt_of_lt_of_le hmin (le_max_right
        (roundRatio (units (peakOf row)) 127) _))
      omega
    rw [quotient_eq_below_half hpos, magnitude_rowScale hpeak, JustBelowHalf]

/-- The exporter and the two loops of the runtime agree on a row of numbers exactly when it has a
number and no number just below a half of the scale. -/
theorem exported_row_quantized (row : List UInt32) (h : ∀ v ∈ row, singleFinite v) :
    (∃ r, quantizeExported row = .ok r ∧ quantizeRow row = .ok r ∧ quantizeLanes row = .ok r) ↔
      row ≠ [] ∧ ∀ v ∈ row, ¬JustBelowHalf (peakOf row) (magnitude v) := by
  have hfinite : ¬∃ v ∈ row, ¬singleFinite v := fun ⟨v, hv, hno⟩ => hno (h v hv)
  have hrow : quantizeRow row = .ok (rowScale row, row.map (quantizeValue (rowScale row))) := by
    rw [quantizeRow, rejectIf_bind hfinite]
    rfl
  rw [quantizeLanes_eq, hrow]
  constructor
  · rintro ⟨r, hexported, hr, -⟩
    obtain rfl := Except.ok.inj hr
    have hne : row ≠ [] := by
      rintro rfl
      cases hexported
    refine ⟨hne, fun v hv => (quantizedValue_eq_iff hv).mp ?_⟩
    rw [quantizeExported_eq hne h] at hexported
    have hmap := congrArg Prod.snd (Except.ok.inj hexported)
    exact List.map_inj_left.mp hmap v hv
  · rintro ⟨hne, hno⟩
    refine ⟨_, ?_, rfl, rfl⟩
    rw [quantizeExported_eq hne h, List.map_congr_left fun v hv =>
      (quantizedValue_eq_iff hv).mpr (hno v hv)]

/-- 190.5 and 0.5: the scale is 1.5. -/
theorem exported_row_quantized_sample :
    ∃ r, quantizeExported [0x433e8000, 0x3f000000] = .ok r ∧
      quantizeRow [0x433e8000, 0x3f000000] = .ok r ∧
      quantizeLanes [0x433e8000, 0x3f000000] = .ok r :=
  (exported_row_quantized [0x433e8000, 0x3f000000] (by decide)).mpr
    ⟨List.cons_ne_nil _ _, by decide +kernel⟩

/-- 190.5 and the last single below 0.75: the exporter writes 1 for it, the runtime 0. -/
theorem exported_row_differs :
    quantizeExported [0x433e8000, 0x3f3fffff] = .ok (0x3fc00000, [127, 1]) ∧
      quantizeRow [0x433e8000, 0x3f3fffff] = .ok (0x3fc00000, [127, 0]) := by
  decide +kernel

end Agreement
end IcLaya
