import IcLaya.DecisionValues

/-!
# Largest remainders in exact arithmetic

Read over the rationals, `apportion` gives every bin the floor of its share of a million and one
unit more to the largest remainders, earlier bins first. A sum that is off by a hundred-millionth
leaves between none and all of the bins to raise, so no check behind the sum's fails.
-/
namespace IcLaya.Apportionment
open Fallible RankedLists

/-- The share of a million. -/
def scaled (p : ℚ) : ℚ := p * 1000000

/-- The whole units of a share. -/
def floorUnits (p : ℚ) : ℕ := ⌊scaled p⌋.toNat

section Shares
variable {p : ℚ} (h0 : 0 ≤ p)
include h0

theorem floorUnits_cast : ((floorUnits p : ℕ) : ℤ) = ⌊scaled p⌋ := by
  refine Int.toNat_of_nonneg (Int.floor_nonneg.mpr ?_)
  unfold scaled
  positivity

theorem floorUnits_le : (floorUnits p : ℚ) ≤ scaled p := by
  have hle := Int.floor_le (scaled p)
  rwa [← floorUnits_cast h0, Int.cast_natCast] at hle

theorem scaled_lt : scaled p < floorUnits p + 1 := by
  have hlt := Int.lt_floor_add_one (scaled p)
  rwa [← floorUnits_cast h0, Int.cast_natCast] at hlt

theorem fract_scaled : scaled p - floorUnits p = Int.fract (scaled p) := by
  rw [Int.fract, ← floorUnits_cast h0, Int.cast_natCast]

theorem floorUnits_le_million (h1 : p ≤ 1) : floorUnits p ≤ 1000000 := by
  have hle : (floorUnits p : ℚ) ≤ 1000000 := (floorUnits_le h0).trans (by unfold scaled; linarith)
  exact_mod_cast hle

end Shares

section Totals
variable {ps : List ℚ} (h0 : ∀ p ∈ ps, 0 ≤ p)
include h0

theorem sum_floors_le : ((ps.map floorUnits).sum : ℚ) ≤ ps.sum * 1000000 := by
  induction ps with
  | nil => simp
  | cons p ps ih =>
    have hp := floorUnits_le (h0 p List.mem_cons_self)
    have hps := ih fun q hq => h0 q (List.mem_cons_of_mem p hq)
    simp only [List.map_cons, List.sum_cons, Nat.cast_add, add_mul]
    unfold scaled at hp
    exact add_le_add hp hps

theorem sum_lt_floors : ps.sum * 1000000 ≤ (ps.map floorUnits).sum + ps.length := by
  induction ps with
  | nil => simp
  | cons p ps ih =>
    have hp := scaled_lt (h0 p List.mem_cons_self)
    have hps := ih fun q hq => h0 q (List.mem_cons_of_mem p hq)
    simp only [List.map_cons, List.sum_cons, List.length_cons, Nat.cast_add, add_mul, Nat.cast_one]
    unfold scaled at hp
    linarith

/-- The units left over: none to all of the bins. -/
theorem floors_between (hsum : |ps.sum - 1| ≤ 1 / 100000000) :
    (ps.map floorUnits).sum ≤ 1000000 ∧ 1000000 ≤ (ps.map floorUnits).sum + ps.length := by
  obtain ⟨hlo, hhi⟩ := abs_le.mp hsum
  have hle := sum_floors_le h0
  have hlt := sum_lt_floors h0
  have hup : ((ps.map floorUnits).sum : ℚ) < 1000001 := by linarith
  have hdown : (999999 : ℚ) < (ps.map floorUnits).sum + ps.length := by linarith
  have hup' : (ps.map floorUnits).sum < 1000001 := by exact_mod_cast hup
  have hdown' : 999999 < (ps.map floorUnits).sum + ps.length := by exact_mod_cast hdown
  omega

end Totals

/-- The bins that are rounded up. -/
def raisedBins (ps : List ℚ) : List ℕ :=
  chosen (fun a b => Doubles.totalLe b.1 a.1 = true) (1000000 - (ps.map floorUnits).sum)
    (ps.map fun p => Int.fract (scaled p))

section Rounds
variable {ps : List ℚ}

/-- The masses of a bin: its floor, as a word. -/
def floorMass (p : ℚ) : UInt32 := UInt32.ofNat (floorUnits p)

theorem toNat_floorMass {p : ℚ} (h0 : 0 ≤ p) (h1 : p ≤ 1) :
    (floorMass p).toNat = floorUnits p := by
  have hle := floorUnits_le_million h0 h1
  exact UInt32.toNat_ofNat_of_lt' (by show _ < 2 ^ 32; omega)

theorem toU32_floor {p : ℚ} (h0 : 0 ≤ p) (h1 : p ≤ 1) :
    Doubles.toU32 (Doubles.floor (scaled p)) = floorMass p := by
  have hle := floorUnits_le_million h0 h1
  have hfloor : ⌊((⌊scaled p⌋ : ℤ) : ℚ)⌋.toNat = floorUnits p := by rw [Int.floor_intCast, floorUnits]
  show UInt32.ofNat (min ⌊((⌊scaled p⌋ : ℤ) : ℚ)⌋.toNat (2 ^ 32 - 1)) = _
  rw [hfloor, Nat.min_eq_left (by omega), floorMass]

/-- The words of the masses are the raised floors. -/
theorem toNat_raised (h : ∀ p ∈ ps, 0 ≤ p ∧ p ≤ 1) (bins : List ℕ) :
    ((ps.map floorMass).zipIdx.map fun x => if x.2 ∈ bins then x.1 + 1 else x.1).map UInt32.toNat =
      raise bins (ps.map floorUnits) := by
  simp only [raise, List.zipIdx_map, List.map_map]
  refine List.map_congr_left fun x hx => ?_
  obtain ⟨h0, h1⟩ := h x.1 (List.fst_mem_of_mem_zipIdx hx)
  have hfloor := toNat_floorMass h0 h1
  have hle := floorUnits_le_million h0 h1
  simp only [Function.comp_apply, Prod.map_fst, Prod.map_snd, id_eq]
  split
  · rw [UInt32.toNat_add, hfloor]
    exact Nat.mod_eq_of_lt (by show floorUnits x.1 + 1 < 2 ^ 32; omega)
  · exact hfloor

/-- What is left over decides how many bins are raised. -/
theorem length_raisedBins (h : ∀ p ∈ ps, 0 ≤ p ∧ p ≤ 1) (hsum : |ps.sum - 1| ≤ 1 / 100000000) :
    (raisedBins ps).length = 1000000 - (ps.map floorUnits).sum := by
  have hbetween := (floors_between (fun p hp => (h p hp).1) hsum).2
  refine length_chosen _ ?_
  rw [List.length_map]
  omega

theorem sum_raised (h : ∀ p ∈ ps, 0 ≤ p ∧ p ≤ 1) (hsum : |ps.sum - 1| ≤ 1 / 100000000) :
    (raise (raisedBins ps) (ps.map floorUnits)).sum = 1000000 := by
  have hbetween := (floors_between (fun p hp => (h p hp).1) hsum).1
  have hlt : ∀ i ∈ raisedBins ps, i < (ps.map floorUnits).length := by
    intro i hi
    have hlt := lt_of_mem_chosen _ hi
    rwa [List.length_map] at hlt ⊢
  have hnodup : (raisedBins ps).Nodup := chosen_nodup _ _ _
  rw [sum_raise hnodup hlt, length_raisedBins h hsum]
  omega

/-- The function succeeds, and its masses are the floors with the chosen bins raised. -/
theorem apportion_eq_ok (hlength : 2 ≤ ps.length ∧ ps.length ≤ 7) (h : ∀ p ∈ ps, 0 ≤ p ∧ p ≤ 1)
    (hsum : |ps.sum - 1| ≤ 1 / 100000000) :
    ∃ d, apportion ps = .ok d ∧ d.parts = raise (raisedBins ps) (ps.map floorUnits) := by
  obtain ⟨hused, hleft⟩ := floors_between (fun p hp => (h p hp).1) hsum
  have hppm : ppm.toNat = 1000000 := rfl
  have hshare : ∀ p : ℚ, Doubles.mul p (Doubles.ofU32 ppm) = scaled p := fun p => by
    show p * ((ppm.toNat : ℕ) : ℚ) = p * 1000000
    rw [hppm]
    norm_num
  have hrange : ¬(¬(2 ≤ ps.length ∧ ps.length ≤ 7) ∨ ∃ p ∈ ps, ¬Doubles.isFinite p = true ∨
      ¬Doubles.le (Doubles.lit 0) p = true ∨ ¬Doubles.le p (Doubles.lit 1) = true) := by
    refine not_or.mpr ⟨not_not.mpr hlength, ?_⟩
    rintro ⟨p, hp, hfinite | hneg | hbig⟩
    · exact hfinite rfl
    · exact hneg (decide_eq_true (h p hp).1)
    · exact hbig (decide_eq_true (h p hp).2)
  have htotal : ps.foldl Doubles.add (Doubles.lit 0) = ps.sum := List.sum_eq_foldl.symm
  have hclose : ¬¬Doubles.le (Doubles.abs (Doubles.sub ps.sum (Doubles.lit 1)))
      (Doubles.lit (1 / 100000000)) = true := not_not.mpr (decide_eq_true hsum)
  have hmass : (ps.map scaled).map (fun p => Doubles.toU32 (Doubles.floor p)) = ps.map floorMass := by
    rw [List.map_map]
    exact List.map_congr_left fun p hp => toU32_floor (h p hp).1 (h p hp).2
  have hfloors : (ps.map floorMass).map UInt32.toNat = ps.map floorUnits := by
    rw [List.map_map]
    exact List.map_congr_left fun p hp => toNat_floorMass (h p hp).1 (h p hp).2
  have hfraction : ((ps.map scaled).zip (ps.map floorMass)).map
      (fun p => Doubles.sub p.1 (Doubles.ofU32 p.2)) = ps.map fun p => Int.fract (scaled p) := by
    rw [List.zip_map', List.map_map]
    refine List.map_congr_left fun p hp => ?_
    rw [← fract_scaled (h p hp).1, ← toNat_floorMass (h p hp).1 (h p hp).2]
    rfl
  simp only [apportion, rejectIf_bind hrange, htotal, rejectIf_bind hclose, hshare, hmass, hfloors,
    hfraction, hppm, rejectIf_bind (not_lt.mpr hused)]
  have hcount : ¬(ps.map floorMass).length < 1000000 - (ps.map floorUnits).sum := by
    rw [List.length_map]
    omega
  have hwords := toNat_raised h (raisedBins ps)
  have htotals := sum_raised h hsum
  have hvalid : Distribution.Valid
      ((ps.map floorMass).zipIdx.map fun x => if x.2 ∈ raisedBins ps then x.1 + 1 else x.1) := by
    refine ⟨?_, ?_, List.all_eq_true.mpr fun x hx => decide_eq_true ?_, hwords ▸ htotals⟩
    · simpa using hlength.1
    · simpa using hlength.2
    · have hle := List.le_sum_of_mem (List.mem_map_of_mem (f := UInt32.toNat) hx)
      rw [hwords, htotals] at hle
      exact UInt32.le_iff_toNat_le.mpr hle
  rw [rejectIf_bind hcount]
  exact ⟨⟨_, hvalid⟩, Distribution.new_eq_ok.mpr rfl, hwords⟩

/-- Who is rounded up has a larger remainder than who is not, or the same one and comes first. -/
theorem ahead_of_raised {i j : ℕ} {p q : ℚ} (hi : ps[i]? = some p) (hj : ps[j]? = some q)
    (hin : i ∈ raisedBins ps) (hout : j ∉ raisedBins ps) :
    Ahead (Int.fract (scaled p), i) (Int.fract (scaled q), j) := by
  refine ahead_of_chosen _ (fun _ _ => decide_eq_true_iff) ?_ ?_ hin hout
  · rw [List.getElem?_map, hi]
    rfl
  · rw [List.getElem?_map, hj]
    rfl

end Rounds

/-- Largest remainders: every mass is a floor or one more, in the order of the probabilities. -/
theorem apportion_largest_remainder {ps : List ℚ} (hlength : 2 ≤ ps.length ∧ ps.length ≤ 7)
    (h : ∀ p ∈ ps, 0 ≤ p ∧ p ≤ 1) (hsum : |ps.sum - 1| ≤ 1 / 100000000) :
    ∃ d, apportion ps = .ok d ∧ d.mass.length = ps.length ∧ d.parts.sum = 1000000 ∧
      (∀ (i : ℕ) (p : ℚ), ps[i]? = some p → ∃ x : ℕ, d.parts[i]? = some x ∧ x ≤ 1000000 ∧
        ((x : ℤ) = ⌊p * 1000000⌋ ∨ (x : ℤ) = ⌊p * 1000000⌋ + 1)) ∧
      (∀ (i j : ℕ) (p q : ℚ) (x y : ℕ), ps[i]? = some p → ps[j]? = some q → d.parts[i]? = some x →
        d.parts[j]? = some y →
          (q < p → y ≤ x) ∧ (p = q → i < j → y ≤ x ∧ x ≤ y + 1) ∧
          ((x : ℤ) = ⌊p * 1000000⌋ + 1 → (y : ℤ) = ⌊q * 1000000⌋ →
            Int.fract (q * 1000000) ≤ Int.fract (p * 1000000))) ∧
      (d.diagnostics.tied = false → ∃ p, ps[d.argmax]? = some p ∧ ∀ q ∈ ps, q ≤ p) := by
  obtain ⟨d, hd, hparts⟩ := apportion_eq_ok hlength h hsum
  have hshape : d.mass.length = ps.length := by
    rw [← d.length_parts, hparts, raise, List.length_map, List.length_zipIdx, List.length_map]
  have hget : ∀ (i : ℕ) (p : ℚ), ps[i]? = some p → d.parts[i]? =
      some (if i ∈ raisedBins ps then floorUnits p + 1 else floorUnits p) := by
    intro i p hp
    rw [hparts, raise_getElem?, List.getElem?_map, hp]
    rfl
  have hfloor : ∀ (i : ℕ) (p : ℚ), ps[i]? = some p → ((floorUnits p : ℕ) : ℤ) = ⌊p * 1000000⌋ :=
    fun i p hp => floorUnits_cast (h p (List.mem_of_getElem? hp)).1
  have horder : ∀ (i j : ℕ) (p q : ℚ) (x y : ℕ), ps[i]? = some p → ps[j]? = some q → d.parts[i]? = some x →
      d.parts[j]? = some y → q < p → y ≤ x := by
    intro i j p q x y hi hj hx hy hlt
    cases Option.some.inj ((hget i p hi).symm.trans hx)
    cases Option.some.inj ((hget j q hj).symm.trans hy)
    have hmono : floorUnits q ≤ floorUnits p := by
      have hle : ⌊q * 1000000⌋ ≤ ⌊p * 1000000⌋ := Int.floor_le_floor (by linarith)
      rw [← hfloor i p hi, ← hfloor j q hj] at hle
      exact_mod_cast hle
    rcases hmono.lt_or_eq with hfl | hfl
    · split <;> split <;> omega
    · -- of two equal floors the larger share has the larger remainder
      have hfract : Int.fract (scaled q) < Int.fract (scaled p) := by
        rw [← fract_scaled (h q (List.mem_of_getElem? hj)).1,
          ← fract_scaled (h p (List.mem_of_getElem? hi)).1, hfl]
        unfold scaled
        linarith
      by_cases hin : j ∈ raisedBins ps
      · have hip : i ∈ raisedBins ps := by
          by_contra hout
          rcases ahead_of_raised hj hi hin hout with hf | ⟨hf, -⟩
          · exact lt_asymm hf hfract
          · exact hfract.ne hf.symm
        rw [if_pos hin, if_pos hip, hfl]
      · rw [if_neg hin, hfl]
        split <;> omega
  refine ⟨d, hd, hshape, d.sum_parts, fun i p hp => ?_, fun i j p q x y hi hj hx hy =>
    ⟨horder i j p q x y hi hj hx hy, fun hpq hij => ?_, fun hup hdown => ?_⟩, fun htied => ?_⟩
  · refine ⟨_, hget i p hp, d.le_of_mem_parts (List.mem_of_getElem? (hget i p hp)), ?_⟩
    rw [← hfloor i p hp]
    split
    · exact .inr (by push_cast; rfl)
    · exact .inl rfl
  · subst hpq
    cases Option.some.inj ((hget i p hi).symm.trans hx)
    cases Option.some.inj ((hget j p hj).symm.trans hy)
    by_cases hin : j ∈ raisedBins ps
    · have hip : i ∈ raisedBins ps := by
        by_contra hout
        rcases ahead_of_raised hj hi hin hout with hf | ⟨-, hf⟩
        · exact lt_irrefl _ hf
        · exact absurd hf (by omega)
      rw [if_pos hin, if_pos hip]
      omega
    · rw [if_neg hin]
      split <;> omega
  · cases Option.some.inj ((hget i p hi).symm.trans hx)
    cases Option.some.inj ((hget j q hj).symm.trans hy)
    rw [← hfloor i p hi] at hup
    rw [← hfloor j q hj] at hdown
    have hin : i ∈ raisedBins ps := by
      by_contra hout
      rw [if_neg hout] at hup
      omega
    have hout : j ∉ raisedBins ps := by
      intro hjn
      rw [if_pos hjn] at hdown
      omega
    exact (ahead_of_raised hi hj hin hout).elim le_of_lt fun hf => hf.1.le
  · have hlt : d.argmax < ps.length := hshape ▸ d.argmax_lt
    refine ⟨ps[d.argmax], List.getElem?_eq_getElem hlt, fun q hq => ?_⟩
    obtain ⟨j, hj⟩ := List.mem_iff_getElem?.mp hq
    by_contra hgt
    obtain ⟨x, hmass⟩ : ∃ x, d.parts[d.argmax]? = some x :=
      ⟨_, hget _ _ (List.getElem?_eq_getElem hlt)⟩
    have hle := horder j d.argmax q _ _ _ hj (List.getElem?_eq_getElem hlt) (hget j q hj) hmass
      (not_le.mp hgt)
    obtain ⟨y, hy, hvalue⟩ := d.mass_of_parts (hget j q hj)
    have hne : j ≠ d.argmax := by
      rintro rfl
      rw [List.getElem?_eq_getElem hlt] at hj
      exact hgt (Option.some.inj hj).ge
    have hsmall := UInt32.lt_iff_toNat_lt.mp (Distribution.not_tied_iff.mp htied j y hy hne)
    have hargmax : d.parts.getD d.argmax 0 = x := by rw [List.getD_eq_getElem?_getD, hmass]; rfl
    rw [d.parts_getD, hvalue, hargmax] at hsmall
    exact absurd hle (not_le.mpr hsmall)

/-- Three thirds: the first bin is rounded up. -/
theorem apportion_largest_remainder_thirds :
    ∃ d, apportion [1 / 3, 1 / 3, 1 / (3 : ℚ)] = .ok d ∧ d.parts.sum = 1000000 ∧
      d.mass = [333334, 333333, 333333] := by
  have hthirds : ∀ p ∈ [1 / 3, 1 / 3, 1 / (3 : ℚ)], 0 ≤ p ∧ p ≤ 1 := by
    intro p hp
    simp at hp
    subst hp
    norm_num
  obtain ⟨d, hd, -, hsum, -⟩ := apportion_largest_remainder (by decide) hthirds (by norm_num)
  have hvalue : apportion [1 / 3, 1 / 3, 1 / (3 : ℚ)] =
      .ok ⟨[333334, 333333, 333333], by decide⟩ := by decide +kernel
  cases Except.ok.inj (hd.symm.trans hvalue)
  exact ⟨_, hvalue, hsum, rfl⟩

end IcLaya.Apportionment
