import IcLaya.PanickingCode
import IcLaya.RankedLists
import IcLaya.ReceiptInvariant
import Mathlib.Algebra.Order.BigOperators.Group.List

/-!
# Canonical decision values

A value carries what follows from its masses; whoever receives it recomputes that. A value is
accepted exactly when it is the one of its distribution, and what is recomputed are the sums, the
mean and the ranking of the masses, without an index out of range or a sum that leaves its word.
-/
namespace IcLaya
open Fallible PanickingCode RankedLists

section WeightedSums

/-- Every entry times its position. -/
def weighted (xs : List ℕ) (k : ℕ) : ℕ := ((xs.zipIdx k).map fun p => p.2 * p.1).sum

theorem weighted_shift (xs : List ℕ) (k : ℕ) : weighted xs (k + 1) = xs.sum + weighted xs k := by
  unfold weighted
  induction xs generalizing k with
  | nil => rfl
  | cons x xs ih =>
    simp only [List.zipIdx_cons, List.map_cons, List.sum_cons, ih (k + 1), Nat.add_mul]
    omega

/-- An entry at position `j` counts once in each of the first `j` proper tails. -/
theorem weighted_eq_tails (xs : List ℕ) :
    weighted xs 0 = ((List.range' 1 (xs.length - 1)).map fun j => (xs.drop j).sum).sum := by
  have hall : ∀ ys : List ℕ, weighted ys 0 =
      ((List.range ys.length).map fun j => (ys.drop (j + 1)).sum).sum := by
    intro ys
    induction ys with
    | nil => rfl
    | cons y ys ih =>
      have hhead : weighted (y :: ys) 0 = weighted ys 1 := by
        simp only [weighted, List.zipIdx_cons, List.map_cons, List.sum_cons, Nat.zero_mul,
          Nat.zero_add]
      have htails : (List.range (ys.length + 1)).map (fun j => ((y :: ys).drop (j + 1)).sum) =
          ys.sum :: (List.range ys.length).map fun j => (ys.drop (j + 1)).sum := by
        rw [List.range_succ_eq_map, List.map_cons, List.map_map]
        rfl
      rw [hhead, weighted_shift, ih, List.length_cons, htails, List.sum_cons]
  rw [hall]
  cases xs with
  | nil => rfl
  | cons x xs =>
    have hlast : ((x :: xs).drop (xs.length + 1)).sum = 0 := by simp
    rw [List.length_cons, Nat.add_sub_cancel, List.range_succ, List.map_append, List.sum_append,
      List.map_singleton, List.sum_singleton, hlast, List.range'_eq_map_range, List.map_map]
    simp only [Function.comp_def, Nat.add_comm 1, Nat.add_zero]

/-- Half of the divisor is added before the division. -/
theorem round_half_up (n k : ℕ) : (((n + k / 2) / k : ℕ) : ℤ) = ⌊(n : ℚ) / k + 1 / 2⌋ := by
  rcases Nat.eq_zero_or_pos k with rfl | hk
  · norm_num
  · have hdouble : (n + k / 2) / k = (2 * n + k) / (2 * k) := by
      rw [← Nat.div_div_eq_div_mul]
      congr 1
      omega
    have hfrac : (n : ℚ) / k + 1 / 2 = ((2 * n + k : ℕ) : ℚ) / ((2 * k : ℕ) : ℚ) := by
      push_cast
      field_simp
    rw [hdouble, hfrac, Rat.floor_natCast_div_natCast, Int.natCast_div]

end WeightedSums

namespace Distribution
variable (d : Distribution)

/-- The masses as numbers. -/
def parts : List ℕ := d.mass.map UInt32.toNat

@[simp] theorem length_parts : d.parts.length = d.mass.length := List.length_map _

theorem sum_parts : d.parts.sum = 1000000 := d.valid.2.2.2

theorem le_of_mem_parts {x : ℕ} (h : x ∈ d.parts) : x ≤ 1000000 :=
  (List.le_sum_of_mem h).trans_eq d.sum_parts

theorem parts_getD (i : ℕ) : (d.mass.getD i 0).toNat = d.parts.getD i 0 := by
  rw [parts, List.getD_eq_getElem?_getD, List.getD_eq_getElem?_getD, List.getElem?_map]
  cases d.mass[i]? <;> rfl

theorem argmax_eq_best : d.argmax = best d.parts 0 (d.parts.length - 1) := by
  simp only [argmax, best, length_parts, UInt32.lt_iff_toNat_lt, parts_getD]

/-- The first bin of the largest mass. -/
theorem argmax_leads : Leads d.parts d.argmax (d.parts.getD d.argmax 0) := by
  have hne : d.parts ≠ [] := by
    refine List.ne_nil_of_length_pos ?_
    have := d.valid.1
    rw [length_parts]
    omega
  rw [argmax_eq_best]
  exact leads_best 0 hne

theorem argmax_lt : d.argmax < d.mass.length := by
  have h := (List.getElem?_eq_some_iff.mp d.argmax_leads.1).1
  rwa [length_parts] at h

/-- The sorted masses begin with the largest one and the largest of the others. -/
theorem sorted_mass : ∃ j x y rest, d.mass.insertionSort (· ≥ ·) = x :: y :: rest ∧
    d.parts.getD d.argmax 0 = x.toNat ∧ d.parts[j]? = some y.toNat ∧ j ≠ d.argmax ∧ y ≤ x ∧
      ∀ k c, d.parts[k]? = some c → k ≠ d.argmax → c ≤ y.toNat := by
  have htwo : 2 ≤ d.parts.length := d.length_parts.symm ▸ d.valid.1
  obtain ⟨i, j, a, b, rest, hsort, hlead, hj, hne, hle⟩ := sorted_top_two htwo
  have hi := hlead.unique d.argmax_leads
  subst hi
  have hmap : (d.mass.insertionSort (· ≥ ·)).map UInt32.toNat = a :: b :: rest := by
    rw [← hsort, parts]
    exact List.map_insertionSort _ _ _ _ fun x _ y _ => UInt32.le_iff_toNat_le
  match hs : d.mass.insertionSort (· ≥ ·), hmap with
  | x :: y :: rest, hmap =>
    obtain ⟨rfl, hrest⟩ := List.cons.inj hmap
    obtain ⟨rfl, -⟩ := List.cons.inj hrest
    refine ⟨j, x, y, rest, rfl, ?_, hj, hne, UInt32.le_iff_toNat_le.mpr (hlead.le hj), hle⟩
    rw [List.getD_eq_getElem?_getD, hlead.1]
    rfl

/-- The diagnostics are about the largest mass and the largest of the others. -/
theorem diagnostics_spec : ∃ j b, d.parts[j]? = some b ∧ j ≠ d.argmax ∧
    (∀ k c, d.parts[k]? = some c → k ≠ d.argmax → c ≤ b) ∧
    d.diagnostics.top1Ppm.toNat = d.parts.getD d.argmax 0 ∧
    d.diagnostics.marginPpm.toNat = d.parts.getD d.argmax 0 - b ∧
    (d.diagnostics.tied = true ↔ d.parts.getD d.argmax 0 = b) := by
  obtain ⟨j, x, y, rest, hsort, htop, hj, hne, hle, hothers⟩ := d.sorted_mass
  refine ⟨j, _, hj, hne, hothers, ?_, ?_, ?_⟩ <;>
    simp only [diagnostics, hsort, htop, List.getD_cons_zero, List.getD_cons_succ, beq_iff_eq]
  · exact UInt32.toNat_sub_of_le _ _ hle
  · exact UInt32.toNat_inj.symm

/-- The mass of the bins from `j` on. -/
def tailFrom (j : ℕ) : UInt32 := (d.mass.drop j).foldl (· + ·) 0

/-- The mass of the bins up to `j`. -/
def cdfThrough (j : ℕ) : UInt32 := (d.mass.take (j + 1)).foldl (· + ·) 0

theorem take_add_drop (j : ℕ) : (d.parts.take j).sum + (d.parts.drop j).sum = 1000000 := by
  rw [← List.sum_append, List.take_append_drop, d.sum_parts]

theorem toNat_tailFrom (j : ℕ) : (d.tailFrom j).toNat = (d.parts.drop j).sum := by
  have hsum := d.take_add_drop j
  have hzero : (0 : UInt32).toNat = 0 := rfl
  rw [parts, ← List.map_drop] at hsum ⊢
  rw [tailFrom, toNat_foldl_add 0 _ (by omega), hzero, Nat.zero_add]

theorem toNat_cdfThrough (j : ℕ) : (d.cdfThrough j).toNat = (d.parts.take (j + 1)).sum := by
  have hsum := d.take_add_drop (j + 1)
  have hzero : (0 : UInt32).toNat = 0 := rfl
  rw [parts, ← List.map_take] at hsum ⊢
  rw [cdfThrough, toNat_foldl_add 0 _ (by omega), hzero, Nat.zero_add]

theorem weighted_le : weighted d.parts 0 ≤ (d.mass.length - 1) * 1000000 := by
  rw [weighted_eq_tails, length_parts]
  have hle := List.sum_le_card_nsmul
    ((List.range' 1 (d.mass.length - 1)).map fun j => (d.parts.drop j).sum) 1000000 fun x hx => by
      obtain ⟨j, -, rfl⟩ := List.mem_map.mp hx
      have := d.take_add_drop j
      omega
  rwa [List.length_map, List.length_range'] at hle

theorem toNat_expected : d.expectedLevelMicrounits.toNat = weighted d.parts 0 := by
  have hsum : (d.mass.zipIdx.map fun p => p.2 * p.1.toNat).sum = weighted d.parts 0 := by
    rw [weighted, parts, List.zipIdx_map, List.map_map]
    rfl
  have hle := d.weighted_le
  have hlength := d.valid.2.1
  rw [expectedLevelMicrounits, hsum]
  exact UInt64.toNat_ofNat_of_lt' (by show _ < 2 ^ 64; omega)

theorem mean_le : (d.expectedLevelMicrounits.toNat + (d.mass.length - 1) / 2) /
    (d.mass.length - 1) ≤ 1000000 := by
  have hle := d.weighted_le
  have hlength := d.valid.1
  rw [← toNat_expected] at hle
  refine Nat.lt_succ_iff.mp ((Nat.div_lt_iff_lt_mul (by omega)).mpr ?_)
  have : (1000000 + 1) * (d.mass.length - 1) = (d.mass.length - 1) * 1000000 +
      (d.mass.length - 1) := by ring
  show _ < (1000000 + 1) * (d.mass.length - 1)
  omega

theorem toNat_meanPpm : d.meanPpm.toNat = (d.expectedLevelMicrounits.toNat +
    (d.mass.length - 1) / 2) / (d.mass.length - 1) := by
  have hle := d.mean_le
  exact UInt32.toNat_ofNat_of_lt' (by show _ < 2 ^ 32; omega)

/-- What the derived numbers of a distribution are. -/
structure Derived (d : Distribution) : Prop where
  tail : ∀ j < d.mass.length, d.tail j = .ok (d.tailFrom j)
  cdf : ∀ j < d.mass.length, d.cdf j = .ok (d.cdfThrough j)
  expected : d.expectedLevelMicrounits.toNat =
    ((List.range' 1 (d.mass.length - 1)).map fun j => (d.tailFrom j).toNat).sum
  expected_le : d.expectedLevelMicrounits.toNat ≤ (d.mass.length - 1) * 1000000
  mean : (d.meanPpm.toNat : ℤ) =
    ⌊(d.expectedLevelMicrounits.toNat : ℚ) / (d.mass.length - 1 : ℕ) + 1 / 2⌋
  mean_le : d.meanPpm.toNat ≤ 1000000
  cdf_add_tail : ∀ j < d.mass.length - 1,
    (d.cdfThrough j).toNat + (d.tailFrom (j + 1)).toNat = 1000000
  cdf_mono : ∀ i j, i ≤ j → d.cdfThrough i ≤ d.cdfThrough j
  tail_anti : ∀ i j, i ≤ j → d.tailFrom j ≤ d.tailFrom i
  largest : ∃ (i j : ℕ) (a b : UInt32), (d.mass[i]? = some a ∧ d.mass[j]? = some b ∧ j ≠ i) ∧
    (∀ x ∈ d.mass, x ≤ a) ∧ (∀ k x, d.mass[k]? = some x → k ≠ i → x ≤ b) ∧
    d.diagnostics.top1Ppm = a ∧ d.diagnostics.marginPpm.toNat = a.toNat - b.toNat
  tied : d.diagnostics.tied = true ↔ ∃ (i j : ℕ) (a : UInt32), i ≠ j ∧ d.mass[i]? = some a ∧ d.mass[j]? = some a ∧
    ∀ x ∈ d.mass, x ≤ a

theorem mass_of_parts {i x : ℕ} (h : d.parts[i]? = some x) :
    ∃ a, d.mass[i]? = some a ∧ a.toNat = x := by
  rw [parts, List.getElem?_map] at h
  exact Option.map_eq_some_iff.mp h

theorem parts_of_mass {i : ℕ} {a : UInt32} (h : d.mass[i]? = some a) :
    d.parts[i]? = some a.toNat := by
  rw [parts, List.getElem?_map, h]
  rfl

theorem derived : d.Derived := by
  obtain ⟨j, b, hj, hne, hle, htop, hmargin, htied⟩ := d.diagnostics_spec
  obtain ⟨a, ha, hvalue⟩ := d.mass_of_parts d.argmax_leads.1
  obtain ⟨b, hb, rfl⟩ := d.mass_of_parts hj
  rw [← hvalue] at htop hmargin htied
  have hmax : ∀ x ∈ d.mass, x ≤ a := by
    intro x hx
    obtain ⟨k, hk⟩ := List.mem_iff_getElem?.mp hx
    have hlead := d.argmax_leads.le (d.parts_of_mass hk)
    rwa [← hvalue, ← UInt32.le_iff_toNat_le] at hlead
  refine ⟨fun j hj => ?_, fun j hj => ?_, ?_, ?_, ?_, ?_, fun j _ => ?_, fun i j hij => ?_,
    fun i j hij => ?_, ?_, ?_⟩
  · rw [tail, rejectIf_bind (not_le.mpr hj)]
    rfl
  · rw [cdf, rejectIf_bind (not_le.mpr hj)]
    rfl
  · simp only [toNat_expected, weighted_eq_tails, length_parts, toNat_tailFrom]
  · rw [toNat_expected]
    exact d.weighted_le
  · rw [toNat_meanPpm, round_half_up]
  · rw [toNat_meanPpm]
    exact d.mean_le
  · rw [toNat_cdfThrough, toNat_tailFrom, take_add_drop]
  · have hi := d.take_add_drop (i + 1)
    have hsub := (List.drop_sublist_drop_left d.parts (show i + 1 ≤ j + 1 by omega)).sum_le_sum
      fun _ _ => Nat.zero_le _
    have hj := d.take_add_drop (j + 1)
    rw [UInt32.le_iff_toNat_le, toNat_cdfThrough, toNat_cdfThrough]
    omega
  · rw [UInt32.le_iff_toNat_le, toNat_tailFrom, toNat_tailFrom]
    exact (List.drop_sublist_drop_left d.parts hij).sum_le_sum fun _ _ => Nat.zero_le _
  · refine ⟨d.argmax, j, a, b, ⟨ha, hb, hne⟩, hmax, fun k x hk hki => ?_,
      UInt32.toNat_inj.mp htop, hmargin⟩
    exact UInt32.le_iff_toNat_le.mpr (hle k _ (d.parts_of_mass hk) hki)
  · rw [htied]
    constructor
    · intro he
      exact ⟨d.argmax, j, a, hne.symm, ha, UInt32.toNat_inj.mp he ▸ hb, hmax⟩
    · rintro ⟨i, k, x, hik, hi, hk, hx⟩
      -- one of the two is not the first bin of the largest mass
      have hxa : x = a := UInt32.le_antisymm (hmax x (List.mem_of_getElem? hi))
        (hx a (List.mem_of_getElem? ha))
      have hba : a.toNat ≤ b.toNat := by
        by_cases he : i = d.argmax
        · exact hxa ▸ hle k _ (d.parts_of_mass hk) fun hk' => hik (he.trans hk'.symm)
        · exact hxa ▸ hle i _ (d.parts_of_mass hi) he
      exact le_antisymm hba (UInt32.le_iff_toNat_le.mp (hmax b (List.mem_of_getElem? hb)))

end Distribution

section Values
variable {schema : Schema} {d : Distribution} {v : DecisionValue}

/-- A value holds the masses of its distribution, one for each option. -/
theorem masses_of_value (h : value schema d = .ok v) :
    v.masses = d.mass ∧ d.mass.length = schema.options.length := by
  simp only [value, bind_eq_ok, rejectIf_eq_ok, not_or, not_not] at h
  obtain ⟨-, ⟨hcount, hlength⟩, h⟩ := h
  refine ⟨?_, hlength.symm⟩
  split at h <;> cases h
  · rfl
  · next hnoul =>
    rw [hnoul] at hcount
    have htwo : d.mass.length = 2 := of_decide_eq_true hcount
    obtain ⟨f, t, hmass⟩ := List.length_eq_two.mp htwo
    rw [hmass]
    rfl
  · rfl

theorem validateValue_iff : validateValue schema v = .ok d ↔
    d.mass.length = schema.options.length ∧ value schema d = .ok v := by
  constructor
  · intro h
    have hv := (validateValue_eq_ok h).2
    exact ⟨(masses_of_value hv).2, hv⟩
  · rintro ⟨-, hv⟩
    simp only [validateValue, bind_eq_ok, Distribution.new_eq_ok, rejectIf_eq_ok, pure_eq_ok]
    exact ⟨d, (masses_of_value hv).1, v, hv, (), by simp, rfl⟩

/-- Every distribution over the options of a valid schema has a value. -/
theorem value_of_length (hs : validateSchema schema = .ok ())
    (hl : d.mass.length = schema.options.length) : ∃ v, value schema d = .ok v := by
  simp only [validateSchema, bind_eq_ok, rejectIf_eq_ok, not_or, not_not] at hs
  obtain ⟨-, ⟨-, -, -, -, hcount⟩, -⟩ := hs
  have hpass : ¬(¬schema.primitive.countValid d.mass.length = true ∨
      schema.options.length ≠ d.mass.length) :=
    not_or.mpr ⟨not_not.mpr (hl ▸ hcount), not_not.mpr hl.symm⟩
  rw [value, rejectIf_bind hpass]
  dsimp only
  split <;> exact ⟨_, rfl⟩

theorem Distribution.ext_mass {d d' : Distribution} (h : d.mass = d'.mass) : d = d' := by
  cases d
  cases h
  rfl

end Values

/-! The same code with every index, sum and division checked. -/
namespace Trapping

/-- A sum of `u32`. -/
def sum32 (xs : List UInt32) : Code Error UInt32 :=
  UInt32.ofNat <$> xs.foldlM (fun a x => add .bits32 a x.toNat) 0

def argmax (d : Distribution) : Code Error ℕ :=
  (List.range' 1 (d.mass.length - 1)).foldlM (fun best i => do
    let x ← unwrap d.mass[i]?
    let y ← unwrap d.mass[best]?
    pure (if y < x then i else best)) 0

def diagnostics (d : Distribution) : Code Error Diagnostics := do
  let x := d.mass.insertionSort (· ≥ ·)
  let first ← unwrap x[0]?
  let second ← unwrap x[1]?
  let margin ← sub first.toNat second.toNat
  pure ⟨first, UInt32.ofNat margin, first == second⟩

def expectedLevelMicrounits (d : Distribution) : Code Error UInt64 :=
  UInt64.ofNat <$> d.mass.zipIdx.foldlM (fun a x => do
    add .bits64 a (← mul .bits64 x.2 x.1.toNat)) 0

def meanPpm (d : Distribution) : Code Error UInt32 := do
  let n ← expectedLevelMicrounits d
  let k ← sub d.mass.length 1
  let n ← add .bits64 n.toNat (k / 2)
  let mean ← unwrap (if k = 0 then none else some (n / k))
  pure (UInt32.ofNat mean)

def tail (d : Distribution) (first : ℕ) : Code Error UInt32 := do
  reject (d.mass.length ≤ first) (.invalid "tail bin")
  sum32 (← slice d.mass first d.mass.length)

def cdf (d : Distribution) (through : ℕ) : Code Error UInt32 := do
  reject (d.mass.length ≤ through) (.invalid "cdf bin")
  sum32 (← slice d.mass 0 (through + 1))

/-- `Distribution::new`: the masses are added as `u64`. -/
def new (mass : List UInt32) : Code Error Distribution := do
  reject (¬(2 ≤ mass.length ∧ mass.length ≤ 7) ∨ ∃ x ∈ mass, ppm < x) .numeric
  let _ ← mass.foldlM (fun a x => add .bits64 a x.toNat) 0
  call (Distribution.new mass)

def value (schema : Schema) (d : Distribution) : Code Error DecisionValue := do
  reject (¬schema.primitive.countValid d.mass.length ∨ schema.options.length ≠ d.mass.length)
    .bindingMismatch
  let ids := schema.options.map OptionDef.id
  match schema.primitive with
  | .choice => pure (.choice ids d.mass (← unwrap ids[← argmax d]?))
  | .noul => pure (.noul (← unwrap d.mass[0]?) (← unwrap d.mass[1]?))
  | .score => pure (.score ids d.mass (← expectedLevelMicrounits d) (← meanPpm d))

def validateValue (schema : Schema) (v : DecisionValue) : Code Error Distribution := do
  let d ← new v.masses
  let w ← value schema d
  reject (w ≠ v) .bindingMismatch
  pure d

def ruleCheck (rule : Rule) (s : Schema) (d : Distribution) : Code Error Bool :=
  match rule with
  | .noulTrue m => do
    let t ← unwrap d.mass[1]?
    if m ≤ t then pure !(← diagnostics d).tied else pure false
  | .choiceIs optionId m => do
    let o ← unwrap s.options[← argmax d]?
    if o.id = optionId then
      let x ← unwrap d.mass[← argmax d]?
      if m ≤ x then pure !(← diagnostics d).tied else pure false
    else pure false
  | .scoreTailAtMost first m => do
    let t ← tail d first.toNat
    pure (t ≤ m)

def checkRule {Digest : Type} (required : RequiredSignal Digest) (receipt : Receipt Digest) :
    Code Error Bool :=
  match receipt.outcome with
  | .abstained _ => pure false
  | .error e => throw (.raise e)
  | .assessed v => do
    let d ← validateValue required.schema.schema v
    let g ← diagnostics d
    reject (receipt.diagnostics ≠ some g) .bindingMismatch
    ruleCheck required.rule required.schema.schema d

theorem getElem?_of_lt {α : Type} {xs : List α} {i : ℕ} (a : α) (h : i < xs.length) :
    xs[i]? = some (xs.getD i a) := by
  rw [List.getD_eq_getElem?_getD, List.getElem?_eq_getElem h]
  rfl

/-- A loop of checked additions whose total fits. -/
theorem foldlM_add {α : Type} {t : Target} {f : α → ℕ} {step : ℕ → α → Code Error ℕ} {xs : List α}
    {a : ℕ} (hstep : ∀ x ∈ xs, ∀ a, step a x = add t a (f x)) (h : a + (xs.map f).sum < t.words) :
    xs.foldlM step a = .ok (a + (xs.map f).sum) := by
  induction xs generalizing a with
  | nil => rfl
  | cons x xs ih =>
    rw [List.map_cons, List.sum_cons, ← Nat.add_assoc] at h ⊢
    rw [List.foldlM_cons, hstep x List.mem_cons_self, add_of_lt (by omega), ok_bind]
    exact ih (fun y hy => hstep y (List.mem_cons_of_mem x hy)) h

theorem sum32_eq {xs : List UInt32} (h : (xs.map UInt32.toNat).sum < 2 ^ 32) :
    sum32 xs = .ok (xs.foldl (· + ·) 0) := by
  have hzero : (0 : UInt32).toNat = 0 := rfl
  have hsum := toNat_foldl_add 0 xs (by rwa [hzero, Nat.zero_add])
  rw [sum32, foldlM_add (fun _ _ _ => rfl) (by rwa [Nat.zero_add]), ← hzero, ← hsum]
  exact congrArg Except.ok UInt32.ofNat_toNat

variable (d : Distribution)

/-- An induction over the steps of the loop: its indices are those of bins. -/
theorem argmax_eq : argmax d = .ok d.argmax := by
  have hget : ∀ i (h : i < d.mass.length), d.mass[i].toNat = d.parts.getD i 0 := by
    intro i h
    rw [← d.parts_getD, List.getD_eq_getElem?_getD, List.getElem?_eq_getElem h]
    rfl
  have hstep : ∀ m i, m < d.mass.length → i < d.mass.length → (do
      let x ← unwrap d.mass[i]?
      let y ← unwrap d.mass[m]?
      pure (if y < x then i else m) : Code Error ℕ) =
        .ok (if d.parts.getD m 0 < d.parts.getD i 0 then i else m) := by
    intro m i hm hi
    rw [List.getElem?_eq_getElem hi, List.getElem?_eq_getElem hm, ← hget m hm, ← hget i hi]
    simp only [← UInt32.lt_iff_toNat_lt]
    rfl
  have hloop : ∀ n < d.mass.length, (List.range' 1 n).foldlM (fun best i => do
      let x ← unwrap d.mass[i]?
      let y ← unwrap d.mass[best]?
      pure (if y < x then i else best)) 0 = (.ok (best d.parts 0 n) : Code Error ℕ) := by
    intro n
    induction n with
    | zero => exact fun _ => rfl
    | succ n ih =>
      intro hn
      have hle := (best_ahead d.parts 0 n).1
      rw [List.range'_1_concat, List.foldlM_append, ih (by omega), ok_bind, Nat.add_comm 1 n,
        List.foldlM_cons, hstep _ _ (by omega) hn, ok_bind, best_succ]
      rfl
  have hlength := d.valid.1
  rw [argmax, hloop _ (by omega), d.argmax_eq_best, d.length_parts]

theorem diagnostics_eq : diagnostics d = .ok d.diagnostics := by
  obtain ⟨j, x, y, rest, hsort, -, -, -, hle, -⟩ := d.sorted_mass
  have hmargin : UInt32.ofNat (x.toNat - y.toNat) = x - y := by
    rw [← UInt32.toNat_sub_of_le _ _ hle, UInt32.ofNat_toNat]
  simp only [diagnostics, hsort, Distribution.diagnostics, List.getElem?_cons_zero,
    List.getElem?_cons_succ, List.getD_cons_zero, List.getD_cons_succ,
    sub_of_le (UInt32.le_iff_toNat_le.mp hle), unwrap, okOr, ok_bind, hmargin]
  rfl

theorem expectedLevelMicrounits_eq :
    expectedLevelMicrounits d = .ok d.expectedLevelMicrounits := by
  have hsum : (d.mass.zipIdx.map fun p => p.2 * p.1.toNat).sum = weighted d.parts 0 := by
    rw [weighted, Distribution.parts, List.zipIdx_map, List.map_map]
    rfl
  have hle := d.weighted_le
  have hlength := d.valid.2.1
  have hfits : 0 + (d.mass.zipIdx.map fun p => p.2 * p.1.toNat).sum < Target.bits64.words := by
    rw [hsum]
    show _ < 2 ^ 64
    omega
  have hstep : ∀ x ∈ d.mass.zipIdx, ∀ a, (do add .bits64 a (← mul .bits64 x.2 x.1.toNat)) =
      (add .bits64 a (x.2 * x.1.toNat) : Code Error ℕ) := by
    intro x hx a
    have hone : x.2 * x.1.toNat ≤ (d.mass.zipIdx.map fun p => p.2 * p.1.toNat).sum :=
      List.le_sum_of_mem (List.mem_map.mpr ⟨x, hx, rfl⟩)
    rw [mul_of_lt (by omega), ok_bind]
  rw [expectedLevelMicrounits, foldlM_add hstep hfits, Nat.zero_add]
  rfl

theorem meanPpm_eq : meanPpm d = .ok d.meanPpm := by
  have hexpected := d.derived.expected_le
  have hlength := d.valid
  have hk : ¬d.mass.length - 1 = 0 := by have := hlength.1; omega
  have hsum : d.expectedLevelMicrounits.toNat + (d.mass.length - 1) / 2 < Target.bits64.words := by
    have := hlength.2.1
    show _ < 2 ^ 64
    omega
  rw [meanPpm, expectedLevelMicrounits_eq, ok_bind, sub_of_le (Nat.one_le_of_lt hlength.1), ok_bind,
    add_of_lt hsum, ok_bind, if_neg hk]
  rfl

theorem tail_eq (first : ℕ) : tail d first = call (d.tail first) := by
  unfold tail Distribution.tail
  by_cases h : d.mass.length ≤ first
  · rw [reject_stop h, rejectIf_stop h]
    rfl
  · have hsum := d.tail_sum_le first
    have hdrop : (d.mass.drop first).take (d.mass.length - first) = d.mass.drop first :=
      List.take_of_length_le (List.length_drop ..).le
    rw [reject_pass h, rejectIf_bind h, slice_of_le (by omega) (Nat.le_refl _), ok_bind, hdrop,
      sum32_eq (by omega)]
    rfl

theorem cdf_eq (through : ℕ) : cdf d through = call (d.cdf through) := by
  unfold cdf Distribution.cdf
  by_cases h : d.mass.length ≤ through
  · rw [reject_stop h, rejectIf_stop h]
    rfl
  · have hsum := d.take_add_drop (through + 1)
    rw [Distribution.parts, ← List.map_take] at hsum
    rw [reject_pass h, rejectIf_bind h, slice_of_le (Nat.zero_le _) (by omega), ok_bind,
      List.drop_zero, Nat.sub_zero, sum32_eq (by omega)]
    rfl

theorem new_eq (mass : List UInt32) : new mass = call (Distribution.new mass) := by
  unfold new
  by_cases h : ¬(2 ≤ mass.length ∧ mass.length ≤ 7) ∨ ∃ x ∈ mass, ppm < x
  · have hinvalid : ¬Distribution.Valid mass := by
      rintro ⟨h2, h7, hall, -⟩
      refine h.elim (absurd ⟨h2, h7⟩) ?_
      rintro ⟨x, hx, hlt⟩
      have hle := of_decide_eq_true (List.all_eq_true.mp hall x hx)
      exact absurd hlt (UInt32.not_lt.mpr hle)
    rw [reject_stop h, Distribution.new, dif_neg hinvalid]
    rfl
  · obtain ⟨hlength, hall⟩ := not_or.mp h
    have hsum : (mass.map UInt32.toNat).sum ≤ mass.length * 1000000 := by
      have hle := List.sum_le_card_nsmul (mass.map UInt32.toNat) 1000000 fun n hn => by
        obtain ⟨x, hx, rfl⟩ := List.mem_map.mp hn
        exact UInt32.le_iff_toNat_le.mp (UInt32.not_lt.mp fun hlt => hall ⟨x, hx, hlt⟩)
      rwa [List.length_map] at hle
    have hfits : 0 + (mass.map UInt32.toNat).sum < Target.bits64.words := by
      have := (not_not.mp hlength).2
      show _ < 2 ^ 64
      omega
    rw [reject_pass h, foldlM_add (fun _ _ _ => rfl) hfits, ok_bind]

theorem value_eq (schema : Schema) : value schema d = call (IcLaya.value schema d) := by
  unfold value IcLaya.value
  by_cases h : ¬schema.primitive.countValid d.mass.length = true ∨
      schema.options.length ≠ d.mass.length
  · rw [reject_stop h, rejectIf_stop h]
    rfl
  · have hlength : (schema.options.map OptionDef.id).length = d.mass.length := by
      rw [List.length_map]
      exact not_not.mp (not_or.mp h).2
    have htwo := d.valid.1
    rw [reject_pass h, rejectIf_bind h]
    dsimp only
    cases schema.primitive with
    | choice =>
      dsimp only
      rw [argmax_eq, ok_bind, getElem?_of_lt "" (hlength ▸ d.argmax_lt)]
      rfl
    | noul =>
      dsimp only
      rw [getElem?_of_lt 0 (by omega), getElem?_of_lt 0 (show 1 < d.mass.length by omega)]
      rfl
    | score =>
      dsimp only
      rw [expectedLevelMicrounits_eq, ok_bind, meanPpm_eq]
      rfl

theorem validateValue_eq (schema : Schema) (v : DecisionValue) :
    validateValue schema v = call (IcLaya.validateValue schema v) := by
  unfold validateValue IcLaya.validateValue
  rw [new_eq]
  cases Distribution.new v.masses with
  | error e => rfl
  | ok d =>
    rw [call_ok, ok_bind, ok_bind, value_eq]
    cases IcLaya.value schema d with
    | error e => rfl
    | ok w =>
      rw [call_ok, ok_bind, ok_bind]
      by_cases h : w ≠ v
      · rw [reject_stop h, rejectIf_stop h]
        rfl
      · rw [reject_pass h, rejectIf_bind h]
        rfl

theorem ruleCheck_eq (rule : Rule) {s : Schema} (h : d.mass.length = s.options.length) :
    ruleCheck rule s d = call (rule.check s d) := by
  have htwo := d.valid.1
  cases rule with
  | noulTrue m =>
    rw [ruleCheck, getElem?_of_lt 0 (show 1 < d.mass.length by omega), diagnostics_eq]
    simp only [unwrap, okOr, ok_bind, Rule.check]
    by_cases hm : m ≤ d.mass.getD 1 0
    · rw [if_pos hm, decide_eq_true hm]
      rfl
    · rw [if_neg hm, decide_eq_false hm]
      rfl
  | choiceIs optionId m =>
    have hlt : d.argmax < s.options.length := h ▸ d.argmax_lt
    have hoption := List.getElem?_eq_getElem hlt
    simp only [ruleCheck, argmax_eq, hoption, getElem?_of_lt 0 d.argmax_lt, diagnostics_eq, unwrap, okOr,
      ok_bind, Rule.check, Option.map_some, Option.some_beq_some]
    by_cases hid : s.options[d.argmax].id = optionId
    · by_cases hm : m ≤ d.mass.getD d.argmax 0
      · rw [if_pos hid, if_pos hm, beq_iff_eq.mpr hid, decide_eq_true hm]
        rfl
      · rw [if_pos hid, if_neg hm, beq_iff_eq.mpr hid, decide_eq_false hm]
        rfl
    · rw [if_neg hid, beq_eq_false_iff_ne.mpr hid]
      rfl
  | scoreTailAtMost first m =>
    rw [ruleCheck, tail_eq, Rule.check]
    cases d.tail first.toNat <;> rfl

/-- The rule's check neither panics nor answers differently. -/
theorem checkRule_eq {Digest : Type} (required : RequiredSignal Digest) (receipt : Receipt Digest) :
    checkRule required receipt = call (IcLaya.checkRule required receipt) := by
  unfold checkRule IcLaya.checkRule
  cases receipt.outcome with
  | abstained why => rfl
  | error e => rfl
  | assessed v =>
    dsimp only
    rw [validateValue_eq]
    cases hd : IcLaya.validateValue required.schema.schema v with
    | error e => rfl
    | ok d =>
      rw [call_ok, ok_bind, ok_bind, diagnostics_eq, ok_bind]
      by_cases h : receipt.diagnostics ≠ some d.diagnostics
      · rw [reject_stop h, rejectIf_stop h]
        rfl
      · rw [reject_pass h, rejectIf_bind h, ruleCheck_eq d _ (validateValue_iff.mp hd).1]

end Trapping

/-- What a rule asks, option by option. -/
def Rule.Met (rule : Rule) (s : Schema) (d : Distribution) : Prop :=
  match rule with
  | .noulTrue m => ∃ f t : UInt32, d.mass = [f, t] ∧ m ≤ t ∧ f ≠ t
  | .choiceIs optionId m => ∃ (i : ℕ) (o : OptionDef) (x : UInt32), s.options[i]? = some o ∧
      o.id = optionId ∧ d.mass[i]? = some x ∧ m ≤ x ∧
      ∀ (k : ℕ) (y : UInt32), d.mass[k]? = some y → k ≠ i → y < x
  | .scoreTailAtMost first m => ∃ t, d.tail first.toNat = .ok t ∧ t ≤ m

section Rules
variable {rule : Rule} {s : Schema} {d : Distribution}

/-- Without a tie the first largest mass is the only one. -/
theorem Distribution.not_tied_iff : d.diagnostics.tied = false ↔
    ∀ (k : ℕ) (y : UInt32), d.mass[k]? = some y → k ≠ d.argmax → y < d.mass.getD d.argmax 0 := by
  obtain ⟨j, b, hj, hne, hle, -, -, htied⟩ := d.diagnostics_spec
  rw [← Bool.not_eq_true, htied]
  constructor
  · intro hb k y hk hki
    have hyb := hle k _ (d.parts_of_mass hk) hki
    have hba := d.argmax_leads.le hj
    rw [UInt32.lt_iff_toNat_lt, d.parts_getD]
    omega
  · intro hall hb
    obtain ⟨y, hy, rfl⟩ := d.mass_of_parts hj
    have hlt := UInt32.lt_iff_toNat_lt.mp (hall j y hy hne)
    rw [d.parts_getD] at hlt
    omega

theorem Rule.holds_iff_met (hfits : rule.fits s = true) (hl : d.mass.length = s.options.length)
    (hcount : s.primitive.countValid s.options.length = true) : rule.Holds s d ↔ rule.Met s d := by
  cases rule with
  | noulTrue m =>
    have hnoul : s.primitive = .noul := by
      simp only [fits, Bool.and_eq_true, beq_iff_eq] at hfits
      exact hfits.1
    have htwo : d.mass.length = 2 := by
      rw [hnoul, ← hl] at hcount
      exact of_decide_eq_true hcount
    obtain ⟨f, t, hmass⟩ := List.length_eq_two.mp htwo
    have htied : d.diagnostics.tied = false ↔ f ≠ t := by
      rw [← Bool.not_eq_true, d.derived.tied, hmass]
      refine not_congr ⟨?_, fun he => ?_⟩
      · rintro ⟨i, k, x, hik, hi, hk, -⟩
        have hbound : ∀ n y, ([f, t] : List UInt32)[n]? = some y → n = 0 ∧ y = f ∨ n = 1 ∧ y = t := by
          intro n y hn
          match n, hn with
          | 0, hn => exact .inl ⟨rfl, (Option.some.inj hn).symm⟩
          | 1, hn => exact .inr ⟨rfl, (Option.some.inj hn).symm⟩
        rcases hbound i x hi with ⟨rfl, rfl⟩ | ⟨rfl, rfl⟩ <;>
          rcases hbound k _ hk with ⟨rfl, h⟩ | ⟨rfl, h⟩
        · exact absurd rfl hik
        · exact h
        · exact h.symm
        · exact absurd rfl hik
      · exact ⟨0, 1, t, by decide, by rw [he]; rfl, rfl, by simp [he]⟩
    simp only [Holds, Met, htied, hmass]
    constructor
    · rintro ⟨hm, hne⟩
      exact ⟨f, t, rfl, hm, hne⟩
    · rintro ⟨f', t', he, hm, hne⟩
      cases he
      exact ⟨hm, hne⟩
  | choiceIs optionId m =>
    simp only [Holds, Met, Distribution.not_tied_iff, Option.map_eq_some_iff]
    constructor
    · rintro ⟨⟨o, ho, hid⟩, hm, hall⟩
      exact ⟨d.argmax, o, _, ho, hid, Trapping.getElem?_of_lt 0 d.argmax_lt, hm, hall⟩
    · rintro ⟨i, o, x, ho, hid, hx, hm, hall⟩
      have hi : i = d.argmax := by
        by_contra hne
        have hlt := hall _ _ (Trapping.getElem?_of_lt 0 d.argmax_lt) fun he => hne he.symm
        have hle := d.argmax_leads.le (d.parts_of_mass hx)
        rw [UInt32.lt_iff_toNat_lt, d.parts_getD] at hlt
        omega
      subst hi
      have hget : d.mass.getD d.argmax 0 = x := by
        rw [List.getD_eq_getElem?_getD, hx]
        rfl
      exact ⟨⟨o, ho, hid⟩, hget ▸ hm, hget ▸ hall⟩
  | scoreTailAtMost first m =>
    simp only [Holds, Met]
    constructor
    · rintro ⟨hlt, hm⟩
      refine ⟨_, d.derived.tail _ hlt, UInt32.le_iff_toNat_le.mpr ?_⟩
      rw [d.toNat_tailFrom, Distribution.parts, ← List.map_drop]
      exact hm
    · rintro ⟨t, ht, hm⟩
      have hlt : first.toNat < d.mass.length := by
        simp only [Distribution.tail, bind_eq_ok, rejectIf_eq_ok, not_le] at ht
        exact ht.choose_spec.1
      cases Except.ok.inj ((d.derived.tail _ hlt).symm.trans ht)
      refine ⟨hlt, ?_⟩
      rw [UInt32.le_iff_toNat_le, d.toNat_tailFrom, Distribution.parts, ← List.map_drop] at hm
      exact hm

end Rules

/-- No derived number panics. -/
structure Trapping.Computes (d : Distribution) : Prop where
  tail : ∀ j, Trapping.tail d j = call (d.tail j)
  cdf : ∀ j, Trapping.cdf d j = call (d.cdf j)
  expected : Trapping.expectedLevelMicrounits d = .ok d.expectedLevelMicrounits
  mean : Trapping.meanPpm d = .ok d.meanPpm
  diagnostics : Trapping.diagnostics d = .ok d.diagnostics

variable {Digest : Type} [Hashing Digest]

theorem validSignal {p : Plan Digest} (hp : p.validate = .ok ()) {required : RequiredSignal Digest}
    (hmem : required ∈ p.signals) : validateSchema required.schema.schema = .ok () ∧
      required.rule.fits required.schema.schema = true := by
  rw [Plan.validate, bind_eq_ok] at hp
  obtain ⟨-, -, hsignals⟩ := hp
  have hsignal := forM_eq_ok.mp hsignals required hmem
  simp only [RequiredSignal.validate, validateCompiled, bind_eq_ok, rejectIf_eq_ok, not_not] at hsignal
  obtain ⟨_, ⟨_, hschema, _⟩, _, _, hfits⟩ := hsignal
  exact ⟨hschema, hfits⟩

theorem decision_values_canonical :
    (∀ schema : Schema, validateSchema schema = .ok () →
      (∀ v d, validateValue schema v = .ok d ↔
        d.mass.length = schema.options.length ∧ value schema d = .ok v) ∧
      (∀ v d d', value schema d = .ok v → value schema d' = .ok v → d = d') ∧
      ∀ d : Distribution, d.mass.length = schema.options.length →
        (∃ v, value schema d = .ok v ∧ validateValue schema v = .ok d) ∧ d.Derived ∧
          Trapping.Computes d) ∧
    ∀ p : Plan Digest, p.validate = .ok () → ∀ required ∈ p.signals, ∀ receipt : Receipt Digest,
      Trapping.checkRule required receipt ≠ .error .panic ∧
      (Trapping.checkRule required receipt = .ok true ↔ ∃ v d, receipt.outcome = .assessed v ∧
        value required.schema.schema d = .ok v ∧ receipt.diagnostics = some d.diagnostics ∧
        required.rule.Met required.schema.schema d) := by
  refine ⟨fun schema hs => ⟨fun v d => validateValue_iff, fun v d d' hv hv' => ?_, fun d hl =>
    ⟨?_, d.derived, ⟨Trapping.tail_eq d, Trapping.cdf_eq d, Trapping.expectedLevelMicrounits_eq d,
      Trapping.meanPpm_eq d, Trapping.diagnostics_eq d⟩⟩⟩, fun p hp required hmem receipt => ?_⟩
  · exact Distribution.ext_mass ((masses_of_value hv).1.symm.trans (masses_of_value hv').1)
  · obtain ⟨v, hv⟩ := value_of_length hs hl
    exact ⟨v, hv, validateValue_iff.mpr ⟨hl, hv⟩⟩
  · obtain ⟨hs, hfits⟩ := validSignal hp hmem
    have hcount : required.schema.schema.primitive.countValid
        required.schema.schema.options.length = true := by
      simp only [validateSchema, bind_eq_ok, rejectIf_eq_ok, not_or, not_not] at hs
      exact hs.choose_spec.1.2.2.2.2
    rw [Trapping.checkRule_eq, call_eq_ok, checkRule_eq_true]
    refine ⟨call_ne_panic _, ?_⟩
    constructor
    · rintro ⟨v, d, houtcome, hmasses, hv, hdiagnostics, hholds⟩
      exact ⟨v, d, houtcome, hv, hdiagnostics,
        (Rule.holds_iff_met hfits (masses_of_value hv).2 hcount).mp hholds⟩
    · rintro ⟨v, d, houtcome, hv, hdiagnostics, hmet⟩
      exact ⟨v, d, houtcome, (masses_of_value hv).1, hv, hdiagnostics,
        (Rule.holds_iff_met hfits (masses_of_value hv).2 hcount).mpr hmet⟩

open Sample in
/-- The receipt of the approved invoice passes. -/
theorem decision_values_canonical_sample : plan.validate = .ok () ∧
    Trapping.checkRule ⟨compiled, digest 3, .noulTrue 800000⟩ receipt = .ok true := by
  have hplan : plan.validate = .ok () := by decide +kernel
  refine ⟨hplan, (((decision_values_canonical.2 plan hplan _ List.mem_cons_self) receipt).2).mpr ?_⟩
  exact ⟨_, ⟨[100000, 900000], by decide⟩, rfl, rfl, by decide +kernel, 100000, 900000, rfl, by decide, by decide⟩

end IcLaya
