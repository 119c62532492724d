import IcLaya.LoopOutcomes
import IcLaya.RowQuantizers

/-!
# The fixed-point epilogue (`epilogue.rs`)

Integer sums are scaled by a coefficient of 31 fractional bits, shifted by a bias and rounded to a
signed byte, number by number or in lanes of four with wrapping 64-bit arithmetic. `validate` and
`prepare` bound the sums in integers, the coefficients in single precision at the largest scale, and
the biases in double precision against a limit that is no double.
-/
namespace IcLaya.Epilogue
open Fallible SingleArithmetic WordStreams LaneChunks PanickingCode LoopOutcomes

/-- `Q`, as bits. -/
def q31 : UInt32 := 0x4f000000
def halfUnit : ℕ := 2 ^ 30
def maxSum : ℕ := 2 ^ 28
def biasLimit : ℕ := 2 ^ 63 - 1 - 2 ^ 59 - halfUnit

structure Input where
  tokens : ℕ
  outputs : ℕ
  groups : ℕ
  sums : List Int32
  sx : List UInt32
  sw : List UInt32
  sy : List UInt32
  bias : Option (List UInt32)

/-- `!v.is_finite() || v <= 0.` -/
def notPositive (v : UInt32) : Prop := ¬singleFinite v ∨ order v ≤ 0

instance (v : UInt32) : Decidable (notPositive v) := by unfold notPositive; infer_instance

def Input.validate (t : Target) (input : Input) : Code String Unit := do
  reject (input.tokens = 0 ∨ input.outputs = 0 ∨ input.groups = 0 ∨
    input.outputs % input.groups ≠ 0) "epilogue lengths"
  let count ← mul t input.tokens input.outputs
  reject (input.sums.length ≠ count ∨ input.sx.length ≠ input.tokens ∨
    input.sw.length ≠ input.outputs ∨ input.sy.length ≠ input.groups ∨
    ∃ b ∈ input.bias, b.length ≠ input.outputs) "epilogue lengths"
  reject ((∃ v ∈ input.sums, maxSum < v.toInt.natAbs) ∨
    (∃ v ∈ input.sx ++ input.sw ++ input.sy, notPositive v) ∨
    ∃ b ∈ input.bias, ∃ v ∈ b, ¬singleFinite v) "epilogue numeric input"

section Singles

/-- A product of singles. -/
def multiply (a b : UInt32) : UInt32 :=
  withSign (negative a != negative b) (product (magnitude a) (magnitude b))

/-- `f.round() as i32`. -/
def roundToInt (f : UInt32) : ℤ :=
  let n := roundAway (magnitude f)
  if negative f then max (-n) (-2 ^ 31) else min n (2 ^ 31 - 1)

/-- `((sx * ratio) * Q).round() as i32`. -/
def coefficient (sx ratio : UInt32) : ℤ := roundToInt (multiply (multiply sx ratio) q31)

/-- The coefficient of a lane: truncated, and one more where the fraction is at least a half. -/
def laneCoefficient (sx ratio : UInt32) : ℤ :=
  let f := multiply (multiply sx ratio) q31
  -- the fraction of a negative number is not positive
  truncSat (withSign (negative f)
    (if negative f then truncated (magnitude f) else roundByTruncation (magnitude f)))

end Singles

section Doubles

/-- `n / d`, rounded to the 53 bits of a double, ties to even. -/
def roundDouble (n d : ℕ) : ℕ :=
  let k := Nat.log2 (n / d) - 52
  nearest n (d * 2 ^ k) * 2 ^ k

/-- `(b as f64 * Q as f64).round()`, in magnitude; doubles are multiples of `2 ^ -1074`. -/
def scaledMagnitude (b : UInt32) : ℕ :=
  let x := roundDouble (units (magnitude b) * 2 ^ 925 * (2 ^ 31 * 2 ^ 1074)) (2 ^ 1074)
  (x + 2 ^ 1073) / 2 ^ 1074

/-- `fixed as i64`. -/
def scaledBias (b : UInt32) : ℤ := if negative b then -scaledMagnitude b else scaledMagnitude b

end Doubles

structure Prepared where
  coeff : List UInt32
  bias : List ℤ
  deriving DecidableEq

/-- `input.bias.as_ref().map_or(0., |b| b[c])` -/
def biasAt (input : Input) (c : ℕ) : Code String UInt32 :=
  match input.bias with
  | none => pure 0
  | some bias => unwrap bias[c]?

/-- One round of `prepare`: the ratio and the bias of an output. -/
def prepareOutput (input : Input) (width : ℕ) (peak : UInt32) (c : ℕ) :
    Code String (UInt32 × ℤ) := do
  let scale ← unwrap input.sy[c / width]?
  let weight ← unwrap input.sw[c]?
  let ratio := divide weight scale
  reject (¬singleFinite ratio ∨ order q31 ≤ order (multiply (multiply peak ratio) q31))
    "Q31 coefficient range"
  let b ← biasAt input c
  let b := divide b scale
  -- a finite single times 2^31 is a finite double
  reject (¬singleFinite b ∨ roundDouble biasLimit 1 ≤ scaledMagnitude b) "Q31 bias range"
  pure (ratio, scaledBias b)

def prepare (input : Input) : Code String Prepared := do
  let width ← unwrap (if input.groups = 0 then none else some (input.outputs / input.groups))
  let peak := input.sx.foldl upper 0
  let outputs ← (List.range input.outputs).mapM (prepareOutput input width peak)
  pure ⟨outputs.map Prod.fst, outputs.map Prod.snd⟩

section Scalar

/-- A checked `i64`. -/
def int64 (n : ℤ) : Code String ℤ := if -2 ^ 63 ≤ n ∧ n < 2 ^ 63 then .ok n else .error .panic

def shifted (n : ℤ) : Code String (Int8 × Bool) := do
  let mag ← if n.natAbs + halfUnit < 2 ^ 64 then .ok (n.natAbs + halfUnit) else .error .panic
  let mag := mag / 2 ^ 31
  let q := Int8.ofNat (min mag 127)
  pure (if n < 0 then -q else q, 127 < mag)

/-- `shifted(sums[c] as i64 * m as i64 + bias[c])`. -/
def scalarCell (sx : UInt32) (cell : Int32 × UInt32 × ℤ) : Code String (Int8 × Bool) := do
  let (sum, ratio, b) := cell
  let product ← int64 (sum.toInt * coefficient sx ratio)
  let n ← int64 (product + b)
  shifted n

/-- The bytes of cells, and how many of them were clipped. -/
def collected (cells : List (Int8 × Bool)) : List Int8 × ℕ :=
  (cells.map Prod.fst, cells.countP Prod.snd)

def integerRow (sums : List Int32) (sx : UInt32) (coeff : List UInt32) (bias : List ℤ) :
    Code String (List Int8 × ℕ) := do
  let cells ← (List.range sums.length).mapM fun c => do
    let ratio ← unwrap coeff[c]?
    let sum ← unwrap sums[c]?
    let b ← unwrap bias[c]?
    scalarCell sx (sum, ratio, b)
  pure (collected cells)

end Scalar

section Lanes

/-- Wrapping lanes of 64 and of 32 bits. -/
def wrap64 (n : ℤ) : ℤ := n.bmod (2 ^ 64)
def wrap32 (n : ℤ) : ℤ := n.bmod (2 ^ 32)

/-- One lane of `rounded`. -/
def laneRounded (n : ℤ) : ℤ × Bool :=
  let mag := wrap64 (wrap64 n.natAbs + halfUnit) / 2 ^ 31
  let clipped := decide (127 < mag)
  let q := if clipped then 127 else mag
  (if n < 0 then wrap64 (-q) else q, clipped)

/-- One lane of a chunk, from the two multiplied lanes to the packed byte. -/
def laneCell (sx : UInt32) (cell : Int32 × UInt32 × ℤ) : Int8 × Bool :=
  let (sum, ratio, b) := cell
  let (q, clipped) := laneRounded (wrap64 (sum.toInt * laneCoefficient sx ratio + b))
  -- the low words of both halves
  (Int8.ofInt (narrow8 (narrow16 (wrap32 q))), clipped)

/-- `integer_row` on wasm32. -/
def integerRowLanes (sums : List Int32) (sx : UInt32) (coeff : List UInt32) (bias : List ℤ) :
    Code String (List Int8 × ℕ) := do
  let _ ← unwrap (if coeff.length = sums.length ∧ bias.length = sums.length then some () else none)
  let cells := sums.zip (coeff.zip bias)
  let rest ← (tail 4 cells).mapM (scalarCell sx)
  pure (collected ((chunksExact 4 cells).flatMap (List.map (laneCell sx)) ++ rest))

end Lanes

/-- The rows of `fixed_integer`, by either `integer_row`. -/
def fixedInteger (t : Target)
    (row : List Int32 → UInt32 → List UInt32 → List ℤ → Code String (List Int8 × ℕ))
    (input : Input) (p : Prepared) : Code String (List Int8 × ℕ) := do
  let rows ← (List.range input.tokens).mapM fun k => do
    let start ← mul t k input.outputs
    let stop ← mul t (k + 1) input.outputs
    let sums ← slice input.sums start stop
    let sx ← unwrap input.sx[k]?
    row sums sx p.coeff p.bias
  pure (rows.flatMap Prod.fst, (rows.map Prod.snd).sum)

section Rounding

/-- `n / 2 ^ 31`, rounded half away from zero. -/
def HalfAway (n r : ℤ) : Prop :=
  2 * (n - r * 2 ^ 31).natAbs ≤ 2 ^ 31 ∧
    (2 * (n - r * 2 ^ 31).natAbs = 2 ^ 31 → n.natAbs < r.natAbs * 2 ^ 31)

/-- A byte of a rounded number. -/
def clampByte (r : ℤ) : Int8 := Int8.ofInt (max (-127) (min r 127))

def roundShift (n : ℤ) : ℤ :=
  if n < 0 then -((n.natAbs + halfUnit) / 2 ^ 31 : ℕ) else ((n.natAbs + halfUnit) / 2 ^ 31 : ℕ)

/-- What becomes of an exact value. -/
def cellOf (n : ℤ) : Int8 × Bool := (clampByte (roundShift n), 127 < (roundShift n).natAbs)

/-- The exact value of a cell. -/
def cellValue (sx : UInt32) (cell : Int32 × UInt32 × ℤ) : ℤ :=
  cell.1.toInt * coefficient sx cell.2.1 + cell.2.2

/-- A value that leaves room for the half in a signed word of 64 bits. -/
def Fits (n : ℤ) : Prop := n.natAbs + halfUnit < 2 ^ 63

theorem halfAway_roundShift (n : ℤ) : HalfAway n (roundShift n) := by
  unfold HalfAway roundShift halfUnit
  split <;> constructor <;> omega

theorem natAbs_roundShift (n : ℤ) : (roundShift n).natAbs = (n.natAbs + halfUnit) / 2 ^ 31 := by
  unfold roundShift
  split <;> omega

theorem shifted_eq {n : ℤ} (h : Fits n) : shifted n = .ok (cellOf n) := by
  unfold Fits at h
  have hbyte : (if n < 0 then -Int8.ofNat (min ((n.natAbs + halfUnit) / 2 ^ 31) 127)
      else Int8.ofNat (min ((n.natAbs + halfUnit) / 2 ^ 31) 127)) = clampByte (roundShift n) := by
    have hsigned := @signedByte_eq (decide (n < 0)) (min ((n.natAbs + halfUnit) / 2 ^ 31) 127)
      (min_le_right _ _)
    simp only [decide_eq_true_eq] at hsigned
    rw [hsigned, clampByte, roundShift]
    congr 1
    split <;> omega
  unfold shifted
  rw [if_pos (by omega), ok_bind]
  dsimp only
  rw [hbyte, cellOf, natAbs_roundShift]
  rfl

end Rounding

section Cells
variable {sx : UInt32} {cell : Int32 × UInt32 × ℤ}

/-- A coefficient of 31 fractional bits. -/
def IsFraction (m : ℤ) : Prop := 0 ≤ m ∧ m < 2 ^ 31

/-- A cell whose parts pass the checks. -/
structure Checked (sx : UInt32) (cell : Int32 × UInt32 × ℤ) : Prop where
  sum : cell.1.toInt.natAbs ≤ maxSum
  positive : negative (multiply (multiply sx cell.2.1) q31) = false
  finite : magnitude (multiply (multiply sx cell.2.1) q31) ≤ infinity
  fraction : IsFraction (coefficient sx cell.2.1)
  bias : cell.2.2.natAbs < 2 ^ 63 - 2 ^ 59 - halfUnit

theorem natAbs_product {sum m : ℤ} (hs : sum.natAbs ≤ maxSum) (hm : IsFraction m) :
    (sum * m).natAbs < 2 ^ 59 := by
  have hm' : m.natAbs ≤ 2 ^ 31 - 1 := by
    unfold IsFraction at hm
    omega
  rw [Int.natAbs_mul]
  refine Nat.lt_of_le_of_lt (Nat.mul_le_mul hs hm') ?_
  unfold maxSum
  norm_num

theorem Checked.fits (h : Checked sx cell) : Fits (cellValue sx cell) := by
  have hproduct := natAbs_product h.sum h.fraction
  have hbias := h.bias
  unfold Fits cellValue halfUnit at *
  omega

theorem Checked.scalar (h : Checked sx cell) :
    scalarCell sx cell = .ok (cellOf (cellValue sx cell)) := by
  have hproduct := natAbs_product h.sum h.fraction
  have hfits := h.fits
  have hint : ∀ n : ℤ, Fits n → int64 n = .ok n := by
    intro n hn
    unfold Fits at hn
    exact if_pos (by omega)
  have hsmall : Fits (cell.1.toInt * coefficient sx cell.2.1) := by
    unfold Fits halfUnit
    omega
  unfold scalarCell
  dsimp only
  rw [hint _ hsmall, ok_bind]
  show (int64 (cellValue sx cell) >>= shifted) = _
  rw [hint _ hfits, ok_bind, shifted_eq hfits]

theorem wrap64_eq {n : ℤ} (h : n.natAbs < 2 ^ 63) : wrap64 n = n := by
  unfold wrap64
  rw [Int.bmod_eq_of_le] <;> omega

/-- A lane of a value that fits. -/
theorem laneRounded_eq {n : ℤ} (h : Fits n) :
    laneRounded n = (max (-127) (min (roundShift n) 127), decide (127 < (roundShift n).natAbs)) := by
  unfold Fits halfUnit at h
  have habs : wrap64 n.natAbs = n.natAbs := wrap64_eq (by omega)
  have hsum : wrap64 (n.natAbs + halfUnit) = n.natAbs + halfUnit :=
    wrap64_eq (by unfold halfUnit; omega)
  have hmag : ((n.natAbs + halfUnit : ℤ)) / 2 ^ 31 = (roundShift n).natAbs := by
    rw [natAbs_roundShift]
    push_cast
    rfl
  have hclipped : (127 < ((roundShift n).natAbs : ℤ)) ↔ 127 < (roundShift n).natAbs := by omega
  have hsign : roundShift n = if n < 0 then -((roundShift n).natAbs : ℤ)
      else (roundShift n).natAbs := by
    rw [natAbs_roundShift]
    rfl
  unfold laneRounded
  rw [habs, hsum, hmag]
  generalize (roundShift n).natAbs = mag at hclipped hsign ⊢
  rw [hsign]
  simp only [hclipped, decide_eq_true_eq]
  by_cases hc : 127 < mag
  · rw [if_pos hc, wrap64_eq (by omega)]
    refine Prod.ext ?_ rfl
    dsimp only
    split <;> omega
  · rw [if_neg hc, wrap64_eq (by omega)]
    refine Prod.ext ?_ rfl
    dsimp only
    split <;> omega

/-- On a product that is not negative the lanes round by truncation. -/
theorem laneCoefficient_eq {ratio : UInt32}
    (h : negative (multiply (multiply sx ratio) q31) = false)
    (hle : magnitude (multiply (multiply sx ratio) q31) ≤ infinity) :
    laneCoefficient sx ratio = coefficient sx ratio := by
  unfold laneCoefficient coefficient roundToInt
  dsimp only
  rw [h]
  generalize magnitude (multiply (multiply sx ratio) q31) = a at hle
  obtain ⟨hm, hn⟩ := @magnitude_withSign (roundByTruncation a) false
    (lt_of_le_infinity (roundByTruncation_le a))
  have hwhole : whole (roundByTruncation a) = roundAway a := by
    rw [whole, units_roundByTruncation hle, Nat.mul_div_cancel _ (Nat.two_pow_pos _)]
  simp only [Bool.false_eq_true, if_false, truncSat, hm, hn, hwhole]

theorem Checked.lane (h : Checked sx cell) : laneCell sx cell = cellOf (cellValue sx cell) := by
  have hfits := h.fits
  have hcoefficient := laneCoefficient_eq h.positive h.finite
  have hvalue : wrap64 (cell.1.toInt * laneCoefficient sx cell.2.1 + cell.2.2) =
      cellValue sx cell := by
    rw [hcoefficient]
    refine wrap64_eq ?_
    unfold Fits at hfits
    exact Nat.lt_of_le_of_lt (Nat.le_add_right _ _) hfits
  unfold laneCell
  dsimp only
  rw [hvalue, laneRounded_eq hfits]
  dsimp only
  generalize hr : max (-127) (min (roundShift (cellValue sx cell)) 127) = r
  have hwrap : wrap32 r = r := by
    unfold wrap32
    rw [Int.bmod_eq_of_le] <;> omega
  rw [hwrap, narrow_of_le (by omega) (by omega), cellOf, clampByte, hr]

end Cells

section Coefficients

/-- The magnitude of `Q`. -/
def scaleUp : ℕ := 0x4f000000

theorem units_scaleUp : units scaleUp = 2 ^ 31 * 2 ^ 149 := by decide +kernel

theorem product_mono {a b c d : ℕ} (hab : a ≤ b) (hcd : c ≤ d) : product a c ≤ product b d :=
  roundRatio_mono (Nat.two_pow_pos _) (Nat.two_pow_pos _)
    (Nat.mul_le_mul_right _ (Nat.mul_le_mul (units_le_iff.mpr hab) (units_le_iff.mpr hcd)))

/-- The check at the peak bounds the coefficient of every smaller scale: the product with a ratio is
below 1, and the singles below 1 are far enough from it. -/
theorem roundAway_coefficient {peak scale ratio : ℕ} (hle : scale ≤ peak)
    (h : product (product peak ratio) scaleUp < scaleUp) :
    roundAway (product (product scale ratio) scaleUp) < 2 ^ 31 := by
  have hbelow : product scale ratio ≤ one - 1 := by
    have hpeak : product peak ratio < one := by
      by_contra hno
      refine Nat.not_le.mpr h (le_roundRatio_of_le (Nat.two_pow_pos _) (by decide) ?_)
      rw [Nat.mul_comm]
      refine Nat.mul_le_mul_right _ ?_
      rw [← units_one, units_le_iff]
      exact Nat.not_lt.mp hno
    have hmono := product_mono hle (Nat.le_refl ratio)
    omega
  have hlast : units (one - 1) = (2 ^ 24 - 1) * 2 ^ 125 := by decide +kernel
  have hproduct : units (product scale ratio) * units scaleUp ≤
      (2 ^ 24 - 1) * 2 ^ 156 * 2 ^ 149 := by
    rw [units_scaleUp]
    refine le_trans (Nat.mul_le_mul_right _ (units_le_iff.mpr hbelow)) (le_of_eq ?_)
    rw [hlast]
    ring
  obtain ⟨-, hhigh⟩ := units_roundRatio_mem (a := 0) (e := 156) (Nat.two_pow_pos 149) (by omega)
    (by omega) (show 2 ^ 24 - 1 ≤ 2 ^ 24 by omega) (by rw [Nat.zero_mul, Nat.zero_mul]; omega)
    hproduct
  rw [roundAway, Nat.div_lt_iff_lt_mul (Nat.two_pow_pos _)]
  refine Nat.lt_of_le_of_lt (Nat.add_le_add_right hhigh _) ?_
  norm_num

theorem multiply_facts {a b : UInt32} (ha : negative a = false) (hb : negative b = false) :
    magnitude (multiply a b) = product (magnitude a) (magnitude b) ∧
      negative (multiply a b) = false := by
  obtain ⟨hm, hn⟩ := @magnitude_withSign (product (magnitude a) (magnitude b))
    (negative a != negative b) (lt_of_le_infinity (roundRatio_le_infinity _ _))
  refine ⟨hm, hn.trans ?_⟩
  rw [ha, hb]
  rfl

theorem order_of_not_negative {v : UInt32} (h : negative v = false) : order v = magnitude v := by
  rw [order, h]
  rfl

theorem not_negative_of_positive {v : UInt32} (h : ¬notPositive v) : negative v = false := by
  unfold notPositive order at h
  cases hn : negative v with
  | false => rfl
  | true =>
    rw [hn, if_pos rfl] at h
    omega

/-- The peak of scales that are not negative. -/
theorem peak_facts {sx : List UInt32} {a : UInt32} (ha : negative a = false)
    (h : ∀ v ∈ sx, negative v = false) :
    negative (sx.foldl upper a) = false ∧ magnitude a ≤ magnitude (sx.foldl upper a) ∧
      ∀ v ∈ sx, magnitude v ≤ magnitude (sx.foldl upper a) := by
  induction sx generalizing a with
  | nil => exact ⟨ha, le_refl _, fun v hv => absurd hv List.not_mem_nil⟩
  | cons v sx ih =>
    obtain ⟨hv, hrest⟩ := List.forall_mem_cons.mp h
    have hupper : negative (upper a v) = false ∧ magnitude a ≤ magnitude (upper a v) ∧
        magnitude v ≤ magnitude (upper a v) := by
      unfold upper
      rw [order_of_not_negative ha, order_of_not_negative hv]
      by_cases hlt : (magnitude a : ℤ) < magnitude v
      · rw [if_pos hlt]
        exact ⟨hv, by omega, le_refl _⟩
      · rw [if_neg hlt]
        exact ⟨ha, le_refl _, by omega⟩
    obtain ⟨hn, hle, hall⟩ := ih hupper.1 hrest
    refine ⟨hn, hupper.2.1.trans hle, fun w hw => ?_⟩
    rcases List.mem_cons.mp hw with rfl | hw
    · exact hupper.2.2.trans hle
    · exact hall w hw

/-- A scale under the peak, with a ratio that passed the check at the peak. -/
theorem coefficient_facts {peak sx ratio : UInt32} (hpeak : negative peak = false)
    (hsx : negative sx = false) (hratio : negative ratio = false)
    (hle : magnitude sx ≤ magnitude peak)
    (h : order (multiply (multiply peak ratio) q31) < order q31) :
    negative (multiply (multiply sx ratio) q31) = false ∧
      magnitude (multiply (multiply sx ratio) q31) ≤ infinity ∧
        IsFraction (coefficient sx ratio) := by
  have hq : negative q31 = false := by decide
  have hmag : magnitude q31 = scaleUp := by decide
  obtain ⟨hm₁, hn₁⟩ := multiply_facts hsx hratio
  obtain ⟨hm₂, hn₂⟩ := multiply_facts hn₁ hq
  obtain ⟨hp₁, hk₁⟩ := multiply_facts hpeak hratio
  obtain ⟨hp₂, hk₂⟩ := multiply_facts hk₁ hq
  rw [order_of_not_negative hk₂, order_of_not_negative hq, hp₂, hp₁, hmag] at h
  have hlt := roundAway_coefficient hle (Int.ofNat_lt.mp h)
  rw [hm₁, hmag] at hm₂
  refine ⟨hn₂, hm₂.trans_le (roundRatio_le_infinity _ _), ?_⟩
  unfold coefficient roundToInt IsFraction
  dsimp only
  rw [hn₂, hm₂]
  simp only [Bool.false_eq_true, if_false]
  generalize roundAway (product (product (magnitude sx) (magnitude ratio)) scaleUp) = m at hlt
  omega

end Coefficients

section Rows
variable {t : Target} {input : Input} {p : Prepared}

/-- What the checks of `validate` say. -/
structure Input.Valid (t : Target) (input : Input) : Prop where
  groups : input.groups ≠ 0
  whole : input.outputs % input.groups = 0
  outputs : input.outputs ≠ 0
  small : input.tokens * input.outputs < t.words
  sums : input.sums.length = input.tokens * input.outputs
  sx : input.sx.length = input.tokens
  bounded : ∀ v ∈ input.sums, v.toInt.natAbs ≤ maxSum
  positive : ∀ v ∈ input.sx ++ input.sw ++ input.sy, ¬notPositive v

theorem Input.valid_of_validate (h : input.validate t = .ok ()) : input.Valid t := by
  simp only [validate, bind_eq_ok, reject_eq_ok, mul_eq_ok, not_or, not_exists, not_and, not_not,
    not_lt] at h
  obtain ⟨_, ⟨_, houtputs, hgroups, hwhole⟩, _, ⟨hsmall, rfl⟩, _, ⟨hsums, hsx, -⟩, hbounded,
    hpositive, -⟩ := h
  exact ⟨hgroups, hwhole, houtputs, hsmall, hsums, hsx, hbounded, hpositive⟩

/-- What the checks of `prepare` say about one output. -/
structure PreparedOutput (peak : UInt32) (r : UInt32 × ℤ) : Prop where
  ratio : negative r.1 = false
  coefficient : order (multiply (multiply peak r.1) q31) < order q31
  bias : r.2.natAbs < 2 ^ 63 - 2 ^ 59 - halfUnit

/-- The limit of the biases as a double: the next one above it. -/
theorem roundDouble_biasLimit : roundDouble biasLimit 1 = 2 ^ 63 - 2 ^ 59 - halfUnit := by
  decide +kernel

theorem natAbs_scaledBias (b : UInt32) : (scaledBias b).natAbs = scaledMagnitude b := by
  unfold scaledBias
  split <;> omega

theorem prepareOutput_facts {width c : ℕ} {peak : UInt32} {r : UInt32 × ℤ}
    (hpositive : ∀ v ∈ input.sx ++ input.sw ++ input.sy, ¬notPositive v)
    (h : prepareOutput input width peak c = .ok r) : PreparedOutput peak r := by
  have hmem : ∀ {xs : List UInt32} {i : ℕ} {v : UInt32},
      (∀ v ∈ xs, negative v = false) → xs[i]? = some v → negative v = false :=
    fun hall hget => hall _ (List.mem_of_getElem? hget)
  have hscales : ∀ v ∈ input.sy, negative v = false := fun v hv =>
    not_negative_of_positive (hpositive v (List.mem_append_right _ hv))
  have hweights : ∀ v ∈ input.sw, negative v = false := fun v hv =>
    not_negative_of_positive (hpositive v (List.mem_append_left _ (List.mem_append_right _ hv)))
  simp only [prepareOutput, bind_eq_ok, unwrap, okOr_eq_ok, reject_eq_ok, not_or, not_not, not_le,
    pure_eq_ok] at h
  obtain ⟨scale, hscale, weight, hweight, _, ⟨-, hcoefficient⟩, b, -, _, ⟨-, hbias⟩, rfl⟩ := h
  refine ⟨?_, hcoefficient, ?_⟩
  · rw [(divide_facts (hmem hscales hscale)).2]
    exact hmem hweights hweight
  · dsimp only
    rw [natAbs_scaledBias, ← roundDouble_biasLimit]
    exact hbias

theorem prepare_facts (hpositive : ∀ v ∈ input.sx ++ input.sw ++ input.sy, ¬notPositive v)
    (h : prepare input = .ok p) :
    p.coeff.length = input.outputs ∧ p.bias.length = input.outputs ∧
      ∀ c < input.outputs, ∃ r, p.coeff[c]? = some r.1 ∧ p.bias[c]? = some r.2 ∧
        PreparedOutput (input.sx.foldl upper 0) r := by
  simp only [prepare, bind_eq_ok, pure_eq_ok] at h
  obtain ⟨width, -, outputs, houtputs, rfl⟩ := h
  have hall := forall₂_of_mapM houtputs
  have hlength : outputs.length = input.outputs := by rw [← hall.length_eq, List.length_range]
  refine ⟨by rw [List.length_map, hlength], by rw [List.length_map, hlength], fun c hc => ?_⟩
  have hlt : c < outputs.length := by omega
  have hc' := List.forall₂_iff_get.mp hall
  have hone := hc'.2 c (by rw [List.length_range]; exact hc) hlt
  refine ⟨outputs[c], ?_, ?_, prepareOutput_facts hpositive hone⟩
  · rw [List.getElem?_map, List.getElem?_eq_getElem hlt]
    rfl
  · rw [List.getElem?_map, List.getElem?_eq_getElem hlt]
    rfl

/-- Both loops over a row whose cells are checked. -/
theorem row_eq {sums : List Int32} {sx : UInt32} {n : ℕ} {value : ℕ → ℤ} (hsums : sums.length = n)
    (hcoeff : p.coeff.length = n) (hbias : p.bias.length = n)
    (h : ∀ c < n, ∃ sum ratio b, sums[c]? = some sum ∧ p.coeff[c]? = some ratio ∧
      p.bias[c]? = some b ∧ Checked sx (sum, ratio, b) ∧ value c = cellValue sx (sum, ratio, b)) :
    integerRow sums sx p.coeff p.bias =
        .ok (collected ((List.range n).map fun c => cellOf (value c))) ∧
      integerRowLanes sums sx p.coeff p.bias =
        .ok (collected ((List.range n).map fun c => cellOf (value c))) := by
  constructor
  · unfold integerRow
    rw [hsums]
    have hloop : ∀ c < n, (do
        let ratio ← unwrap p.coeff[c]?
        let sum ← unwrap sums[c]?
        let b ← unwrap p.bias[c]?
        scalarCell sx (sum, ratio, b) : Code String _) = .ok (cellOf (value c)) := by
      intro c hc
      obtain ⟨sum, ratio, b, h₁, h₂, h₃, hchecked, hvalue⟩ := h c hc
      rw [h₁, h₂, h₃, hvalue]
      exact hchecked.scalar
    rw [mapM_range_eq_ok hloop]
    rfl
  · have hcells : ∀ c, (hc : c < (sums.zip (p.coeff.zip p.bias)).length) →
        Checked sx (sums.zip (p.coeff.zip p.bias))[c] ∧
          value c = cellValue sx (sums.zip (p.coeff.zip p.bias))[c] := by
      intro c hc
      rw [List.length_zip, List.length_zip] at hc
      obtain ⟨sum, ratio, b, h₁, h₂, h₃, hchecked, hvalue⟩ := h c (by omega)
      obtain ⟨_, rfl⟩ := List.getElem?_eq_some_iff.mp h₁
      obtain ⟨_, rfl⟩ := List.getElem?_eq_some_iff.mp h₂
      obtain ⟨_, rfl⟩ := List.getElem?_eq_some_iff.mp h₃
      rw [List.getElem_zip, List.getElem_zip]
      exact ⟨hchecked, hvalue⟩
    have hlength : (sums.zip (p.coeff.zip p.bias)).length = n := by
      rw [List.length_zip, List.length_zip]
      omega
    have hchecked : ∀ cell ∈ sums.zip (p.coeff.zip p.bias), Checked sx cell := by
      intro cell hcell
      obtain ⟨c, hc, rfl⟩ := List.getElem_of_mem hcell
      exact (hcells c hc).1
    have hrest : (tail 4 (sums.zip (p.coeff.zip p.bias))).mapM (scalarCell sx) =
        .ok ((tail 4 (sums.zip (p.coeff.zip p.bias))).map (laneCell sx)) := by
      refine mapM_eq_ok fun cell hcell => ?_
      have hmem := hchecked cell (List.mem_of_mem_drop hcell)
      rw [hmem.scalar, hmem.lane]
    have hmap : (sums.zip (p.coeff.zip p.bias)).map (laneCell sx) =
        (List.range n).map fun c => cellOf (value c) := by
      refine List.ext_getElem (by rw [List.length_map, List.length_map, List.length_range, hlength])
        fun c hc _ => ?_
      rw [List.length_map] at hc
      obtain ⟨hone, hvalue⟩ := hcells c hc
      rw [List.getElem_map, List.getElem_map, List.getElem_range, hone.lane, hvalue]
    unfold integerRowLanes
    rw [if_pos ⟨by omega, by omega⟩]
    show (do
      let rest ← (tail 4 (sums.zip (p.coeff.zip p.bias))).mapM (scalarCell sx)
      pure (collected ((chunksExact 4 (sums.zip (p.coeff.zip p.bias))).flatMap
        (List.map (laneCell sx)) ++ rest)) : Code String _) = _
    rw [hrest, ok_bind, map_chunks, hmap]
    rfl

end Rows

section Elements
variable {t : Target} {input : Input} {p : Prepared}

/-- The sum, the coefficient and the bias of an element. -/
def Input.element (input : Input) (p : Prepared) (k c : ℕ) : Option (ℤ × ℤ × ℤ) := do
  let sum ← input.sums[k * input.outputs + c]?
  let sx ← input.sx[k]?
  let ratio ← p.coeff[c]?
  let b ← p.bias[c]?
  some (sum.toInt, coefficient sx ratio, b)

/-- `sum * m + b`. -/
def Input.value (input : Input) (p : Prepared) (k c : ℕ) : ℤ :=
  match input.element p k c with
  | some (sum, m, b) => sum * m + b
  | none => 0

/-- An element of a checked input. -/
theorem Input.Valid.element (hv : input.Valid t) (hp : prepare input = .ok p) {k c : ℕ}
    (hk : k < input.tokens) (hc : c < input.outputs) :
    ∃ sum sx ratio b, input.sums[k * input.outputs + c]? = some sum ∧ input.sx[k]? = some sx ∧
      p.coeff[c]? = some ratio ∧ p.bias[c]? = some b ∧ Checked sx (sum, ratio, b) := by
  obtain ⟨-, -, hall⟩ := prepare_facts hv.positive hp
  obtain ⟨r, hratio, hb, hprepared⟩ := hall c hc
  have hindex : k * input.outputs + c < input.sums.length := by
    rw [hv.sums]
    exact StoreLoops.row_lt hk hc
  have hkx : k < input.sx.length := by rw [hv.sx]; exact hk
  have hsx : ∀ v ∈ input.sx, negative v = false := fun v hmem =>
    not_negative_of_positive (hv.positive v (List.mem_append_left _ (List.mem_append_left _ hmem)))
  obtain ⟨hpeak, -, hle⟩ := @peak_facts input.sx 0 (by decide) hsx
  have hmem := List.getElem_mem hkx
  obtain ⟨hpositive, hfinite, hfraction⟩ := coefficient_facts hpeak (hsx _ hmem) hprepared.ratio
    (hle _ hmem) hprepared.coefficient
  exact ⟨_, _, r.1, r.2, List.getElem?_eq_getElem hindex, List.getElem?_eq_getElem hkx, hratio, hb,
    ⟨hv.bounded _ (List.getElem_mem hindex), hpositive, hfinite, hfraction, hprepared.bias⟩⟩

/-- The rows of an input, one after the other. -/
theorem fixedInteger_eq (hv : input.Valid t)
    {row : List Int32 → UInt32 → List UInt32 → List ℤ → Code String (List Int8 × ℕ)}
    {cells : ℕ → List (Int8 × Bool)}
    (h : ∀ k < input.tokens, ∀ sx, input.sx[k]? = some sx →
      row ((input.sums.drop (k * input.outputs)).take input.outputs) sx p.coeff p.bias =
        .ok (collected (cells k))) :
    fixedInteger t row input p = .ok ((List.range input.tokens).flatMap fun k =>
      (cells k).map Prod.fst, ((List.range input.tokens).map fun k =>
        (cells k).countP Prod.snd).sum) := by
  have hrows : ∀ k < input.tokens, (do
      let start ← mul t k input.outputs
      let stop ← mul t (k + 1) input.outputs
      let sums ← slice input.sums start stop
      let sx ← unwrap input.sx[k]?
      row sums sx p.coeff p.bias : Code String _) = .ok (collected (cells k)) := by
    intro k hk
    have hle : (k + 1) * input.outputs ≤ input.tokens * input.outputs :=
      Nat.mul_le_mul_right _ hk
    have hstep : (k + 1) * input.outputs = k * input.outputs + input.outputs := Nat.succ_mul _ _
    have hsmall := hv.small
    have hkx : k < input.sx.length := by rw [hv.sx]; exact hk
    rw [mul_of_lt (by omega), ok_bind, mul_of_lt (by omega), ok_bind,
      slice_of_le (by omega) (by rw [hv.sums]; exact hle), ok_bind,
      List.getElem?_eq_getElem hkx, hstep, Nat.add_sub_cancel_left]
    exact h k hk _ (List.getElem?_eq_getElem hkx)
  unfold fixedInteger
  rw [mapM_range_eq_ok hrows, ok_bind]
  show Except.ok _ = _
  rw [List.flatMap_map, List.map_map]
  rfl

/-- The epilogue is exact: no sum, product or shifted magnitude leaves its word, in single numbers
or in lanes, both loops write the same bytes and count the same clips, and every byte is the exact
value over `2 ^ 31`, rounded half away from zero and clipped. -/
theorem epilogue_exact (t : Target) (input : Input) (p : Prepared)
    (hvalid : input.validate t = .ok ()) (hp : prepare input = .ok p) :
    ∃ rounded : ℕ → ℕ → ℤ,
      (∀ k < input.tokens, ∀ c < input.outputs, ∃ sum m b,
        input.element p k c = some (sum, m, b) ∧ (0 ≤ m ∧ m < 2 ^ 31) ∧
          (sum * m).natAbs < 2 ^ 63 ∧ (sum * m + b).natAbs + 2 ^ 30 < 2 ^ 63 ∧
          HalfAway (sum * m + b) (rounded k c)) ∧
      ∀ row, row = integerRow ∨ row = integerRowLanes →
        fixedInteger t row input p =
          .ok ((List.range input.tokens).flatMap fun k =>
              (List.range input.outputs).map fun c => clampByte (rounded k c),
            ((List.range input.tokens).map fun k =>
              (List.range input.outputs).countP fun c => 127 < (rounded k c).natAbs).sum) := by
  have hv := Input.valid_of_validate hvalid
  have helement : ∀ {k c sum sx ratio b}, input.sums[k * input.outputs + c]? = some sum →
      input.sx[k]? = some sx → p.coeff[c]? = some ratio → p.bias[c]? = some b →
        input.element p k c = some (sum.toInt, coefficient sx ratio, b) ∧
          input.value p k c = cellValue sx (sum, ratio, b) := by
    intro k c sum sx ratio b h₁ h₂ h₃ h₄
    have he : input.element p k c = some (sum.toInt, coefficient sx ratio, b) := by
      rw [Input.element, h₁, h₂, h₃, h₄]
      rfl
    exact ⟨he, by rw [Input.value, he]; rfl⟩
  refine ⟨fun k c => roundShift (input.value p k c), fun k hk c hc => ?_, fun row hrow => ?_⟩
  · obtain ⟨sum, sx, ratio, b, h₁, h₂, h₃, h₄, hchecked⟩ := hv.element hp hk hc
    obtain ⟨he, hvalue⟩ := helement h₁ h₂ h₃ h₄
    have hproduct := natAbs_product hchecked.sum hchecked.fraction
    refine ⟨_, _, _, he, hchecked.fraction, Nat.lt_trans hproduct (by norm_num), hchecked.fits, ?_⟩
    show HalfAway (cellValue sx (sum, ratio, b)) (roundShift (input.value p k c))
    rw [hvalue]
    exact halfAway_roundShift _
  · obtain ⟨hcoeff, hbias, -⟩ := prepare_facts hv.positive hp
    have hrows : ∀ k < input.tokens, ∀ sx, input.sx[k]? = some sx →
        row ((input.sums.drop (k * input.outputs)).take input.outputs) sx p.coeff p.bias =
          .ok (collected ((List.range input.outputs).map fun c => cellOf (input.value p k c))) := by
      intro k hk sx hsx
      have hlength : ((input.sums.drop (k * input.outputs)).take input.outputs).length =
          input.outputs := by
        have hle : (k + 1) * input.outputs ≤ input.tokens * input.outputs :=
          Nat.mul_le_mul_right _ hk
        rw [Nat.succ_mul, ← hv.sums] at hle
        rw [List.length_take, List.length_drop]
        omega
      obtain ⟨hscalar, hlanes⟩ := row_eq hlength hcoeff hbias fun c hc => by
        obtain ⟨sum, sx', ratio, b, h₁, h₂, h₃, h₄, hchecked⟩ := hv.element hp hk hc
        obtain rfl := Option.some.inj (hsx.symm.trans h₂)
        refine ⟨sum, ratio, b, ?_, h₃, h₄, hchecked, (helement h₁ h₂ h₃ h₄).2⟩
        rw [List.getElem?_take_of_lt hc, List.getElem?_drop]
        exact h₁
      rcases hrow with rfl | rfl
      · exact hscalar
      · exact hlanes
    rw [fixedInteger_eq hv hrows]
    simp only [List.map_map, List.countP_map]
    rfl

/-- Ties at both signs, and sums that are clipped, at a scale of a half. -/
def Sample.ties : Input :=
  ⟨2, 4, 1, [1, -1, 3, -3, 511, -511, 0, 0], [0x3f000000, 0x3f000000],
    List.replicate 4 0x3f800000, [0x3f800000], some [0, 0, 0, 0]⟩

def Sample.prepared : Prepared := ⟨List.replicate 4 0x3f800000, [0, 0, 0, 0]⟩

theorem epilogue_exact_sample : ∃ r, fixedInteger .bits32 integerRow Sample.ties Sample.prepared =
    .ok r ∧ fixedInteger .bits32 integerRowLanes Sample.ties Sample.prepared = .ok r ∧
    r.1 = [1, -1, 2, -2, 127, -127, 0, 0] ∧ r.2 = 2 := by
  obtain ⟨rounded, -, hrows⟩ := epilogue_exact .bits32 Sample.ties Sample.prepared
    (by decide +kernel) (by decide +kernel)
  have hscalar := hrows integerRow (.inl rfl)
  have hresult : fixedInteger .bits32 integerRow Sample.ties Sample.prepared =
      .ok ([1, -1, 2, -2, 127, -127, 0, 0], 2) := by
    decide +kernel
  have hr := Except.ok.inj (hscalar.symm.trans hresult)
  refine ⟨_, hscalar, hrows integerRowLanes (.inr rfl), ?_, ?_⟩
  · exact congrArg Prod.fst hr
  · exact congrArg Prod.snd hr

end Elements

end IcLaya.Epilogue
