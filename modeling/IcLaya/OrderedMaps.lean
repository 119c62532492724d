import Std.Data.ExtTreeMap
import Mathlib.Algebra.BigOperators.Group.List.Basic
import Mathlib.Algebra.Ring.Nat
import Mathlib.Data.List.Dedup
import Mathlib.Data.List.Perm.Basic

/-!
# Ordered maps and sums over their values

Lookup rules for `Std.ExtTreeMap` over a lawful order, stated with equality of keys,
and the sum of a measure over all values of a map. An insertion changes such a sum
by the measure of the value it adds less that of the value it replaces.
-/
namespace IcLaya.OrderedMaps
open Std (ExtTreeMap TransOrd LawfulEqOrd)

variable {κ ν μ : Type} [Ord κ] [TransOrd κ] [LawfulEqOrd κ]

theorem get_insert [DecidableEq κ] (m : ExtTreeMap κ ν) (k a : κ) (v : ν) :
    (m.insert k v)[a]? = if a = k then some v else m[a]? := by
  rw [ExtTreeMap.getElem?_insert]
  simp only [Std.compare_eq_iff_eq, eq_comm (a := a)]

@[simp] theorem get_insert_self (m : ExtTreeMap κ ν) (k : κ) (v : ν) :
    (m.insert k v)[k]? = some v := by simp

theorem get_insert_ne (m : ExtTreeMap κ ν) {k a : κ} (h : a ≠ k) (v : ν) :
    (m.insert k v)[a]? = m[a]? := by
  rw [ExtTreeMap.getElem?_insert]
  simp [Ne.symm h]

/-- Writing back the value a key already has changes nothing. -/
theorem insert_get (m : ExtTreeMap κ ν) {k : κ} {v : ν} (h : m[k]? = some v) :
    m.insert k v = m := by
  apply ExtTreeMap.ext_getElem?
  intro a
  rw [ExtTreeMap.getElem?_insert]
  split
  · next he => rw [← Std.compare_eq_iff_eq.mp he, h]
  · rfl

/-- The later of two insertions at one key wins. -/
theorem insert_insert (m : ExtTreeMap κ ν) (k : κ) (v w : ν) :
    (m.insert k v).insert k w = m.insert k w := by
  apply ExtTreeMap.ext_getElem?
  intro a
  rw [ExtTreeMap.getElem?_insert, ExtTreeMap.getElem?_insert, ExtTreeMap.getElem?_insert]
  split <;> rfl

omit [LawfulEqOrd κ] in
theorem contains_iff_get (m : ExtTreeMap κ ν) (k : κ) :
    m.contains k = true ↔ ∃ v, m[k]? = some v := by
  rw [ExtTreeMap.contains_eq_isSome_getElem?, Option.isSome_iff_exists]

omit [LawfulEqOrd κ] in
theorem contains_false_iff_get (m : ExtTreeMap κ ν) (k : κ) :
    m.contains k = false ↔ m[k]? = none := by
  rw [ExtTreeMap.contains_eq_isSome_getElem?, Option.isSome_eq_false_iff, Option.isNone_iff_eq_none]

theorem get_map (m : ExtTreeMap κ ν) (f : ν → μ) (a : κ) :
    (m.map fun _ v => f v)[a]? = (m[a]?).map f := by
  simp [ExtTreeMap.getElem?_map]

theorem forall_insert_of_ne {m : ExtTreeMap κ ν} {P : κ → ν → Prop} {k : κ} {v : ν}
    (h : ∀ (a : κ) x, a ≠ k → m[a]? = some x → P a x) (hv : P k v) :
    ∀ (a : κ) x, (m.insert k v)[a]? = some x → P a x := by
  intro a x hx
  rw [ExtTreeMap.getElem?_insert] at hx
  split at hx
  · next he => cases hx; exact Std.compare_eq_iff_eq.mp he ▸ hv
  · next hn => exact h a x (fun he => hn (Std.compare_eq_iff_eq.mpr he.symm)) hx

/-- An insertion keeps what holds of every entry if it holds of the new one. -/
theorem forall_insert {m : ExtTreeMap κ ν} {P : κ → ν → Prop} {k : κ} {v : ν}
    (h : ∀ (a : κ) x, m[a]? = some x → P a x) (hv : P k v) :
    ∀ (a : κ) x, (m.insert k v)[a]? = some x → P a x :=
  forall_insert_of_ne (fun a x _ => h a x) hv

/-- Every entry of the first map has a successor in the second. -/
def Grows (R : ν → ν → Prop) (m m' : ExtTreeMap κ ν) : Prop :=
  ∀ (a : κ) x, m[a]? = some x → ∃ y, m'[a]? = some y ∧ R x y

section Growth
variable {R : ν → ν → Prop} {m m' : ExtTreeMap κ ν}

omit [LawfulEqOrd κ] in
theorem Grows.refl (hR : ∀ x, R x x) (m : ExtTreeMap κ ν) : Grows R m m :=
  fun _ x hx => ⟨x, hx, hR x⟩

theorem Grows.replace (hR : ∀ x, R x x) {k : κ} {v w : ν} (hv : m[k]? = some v) (hw : R v w) :
    Grows R m (m.insert k w) := by
  intro a x hx
  rw [ExtTreeMap.getElem?_insert]
  split
  · next he =>
    rw [← Std.compare_eq_iff_eq.mp he, hv] at hx
    cases hx
    exact ⟨w, rfl, hw⟩
  · exact ⟨x, hx, hR x⟩

theorem Grows.new (hR : ∀ x, R x x) {k : κ} (hk : m[k]? = none) (w : ν) :
    Grows R m (m.insert k w) := by
  intro a x hx
  rw [ExtTreeMap.getElem?_insert]
  split
  · next he =>
    rw [← Std.compare_eq_iff_eq.mp he, hk] at hx
    cases hx
  · exact ⟨x, hx, hR x⟩

theorem Grows.map {f : ν → ν} (hf : ∀ x, R x (f x)) (m : ExtTreeMap κ ν) :
    Grows R m (m.map fun _ v => f v) := by
  intro a x hx
  exact ⟨f x, by rw [get_map, hx]; rfl, hf x⟩

end Growth

/-- The values in ascending order of their keys. -/
def values (m : ExtTreeMap κ ν) : List ν := m.toList.map Prod.snd

theorem mem_values (m : ExtTreeMap κ ν) (v : ν) : v ∈ values m ↔ ∃ k : κ, m[k]? = some v := by
  simp only [values, List.mem_map, Prod.exists, ExtTreeMap.mem_toList_iff_getElem?_eq_some,
    exists_eq_right]

/-- The sum of a measure over all values. -/
def sumValues (m : ExtTreeMap κ ν) (f : ν → ℕ) : ℕ := ((values m).map f).sum

private theorem nodup_toList (m : ExtTreeMap κ ν) : m.toList.Nodup := by
  have h := ExtTreeMap.distinct_keys_toList (t := m)
  refine h.imp ?_
  intro a b hab he
  exact hab (by simp [he])

private theorem toList_insert_perm (m : ExtTreeMap κ ν) (k : κ) (v : ν) :
    (m.insert k v).toList.Perm ((k, v) :: (m.erase k).toList) := by
  apply (List.perm_ext_iff_of_nodup (nodup_toList _) ?_).mpr
  · intro p
    obtain ⟨a, b⟩ := p
    rw [List.mem_cons]
    simp only [ExtTreeMap.mem_toList_iff_getElem?_eq_some, ExtTreeMap.getElem?_insert,
      ExtTreeMap.getElem?_erase, Std.compare_eq_iff_eq, Prod.mk.injEq]
    by_cases h : k = a
    · subst h; simp [eq_comm]
    · simp [h, Ne.symm h]
  · refine List.nodup_cons.mpr ⟨?_, nodup_toList _⟩
    simp [ExtTreeMap.mem_toList_iff_getElem?_eq_some]

theorem sumValues_insert (m : ExtTreeMap κ ν) (k : κ) (v : ν) (f : ν → ℕ) :
    sumValues (m.insert k v) f = f v + sumValues (m.erase k) f := by
  have h := (((toList_insert_perm m k v).map Prod.snd).map f).sum_eq
  simpa [sumValues, values] using h

omit [LawfulEqOrd κ] in
@[simp] theorem sumValues_empty (f : ν → ℕ) : sumValues (∅ : ExtTreeMap κ ν) f = 0 := by
  have h : (∅ : ExtTreeMap κ ν).toList = [] := ExtTreeMap.toList_eq_nil_iff.mpr rfl
  simp [sumValues, values, h]

/-- A replaced value leaves the sum and the new one enters it. -/
theorem sumValues_replace {m : ExtTreeMap κ ν} {k : κ} {old : ν} (h : m[k]? = some old)
    (v : ν) (f : ν → ℕ) : sumValues (m.insert k v) f + f old = sumValues m f + f v := by
  have hm := sumValues_insert m k old f
  rw [insert_get m h] at hm
  rw [sumValues_insert m k v f, hm]
  omega

theorem sumValues_new {m : ExtTreeMap κ ν} {k : κ} (h : m[k]? = none) (v : ν) (f : ν → ℕ) :
    sumValues (m.insert k v) f = sumValues m f + f v := by
  have he : m.erase k = m := by
    apply ExtTreeMap.ext_getElem?
    intro a
    rw [ExtTreeMap.getElem?_erase]
    split
    · next hc => rw [← Std.compare_eq_iff_eq.mp hc, h]
    · rfl
  rw [sumValues_insert, he, Nat.add_comm]

/-- One insertion after the other. -/
def putAll (m : ExtTreeMap κ ν) (xs : List (κ × ν)) : ExtTreeMap κ ν :=
  xs.foldl (fun m x => m.insert x.1 x.2) m

omit [LawfulEqOrd κ] in
theorem putAll_append (m : ExtTreeMap κ ν) (xs ys : List (κ × ν)) :
    putAll m (xs ++ ys) = putAll (putAll m xs) ys := List.foldl_append

omit [LawfulEqOrd κ] in
theorem putAll_flatMap {ι : Type} (f : ι → List (κ × ν)) (is : List ι) (m : ExtTreeMap κ ν) :
    putAll m (is.flatMap f) = is.foldl (fun m i => putAll m (f i)) m := by
  induction is generalizing m with
  | nil => rfl
  | cons i is ih => rw [List.flatMap_cons, putAll_append, ih, List.foldl_cons]

theorem get_putAll {m : ExtTreeMap κ ν} {xs : List (κ × ν)} (h : (xs.map Prod.fst).Nodup)
    (hnew : ∀ x ∈ xs, m[x.1]? = none) {k : κ} {v : ν} :
    (putAll m xs)[k]? = some v ↔ m[k]? = some v ∨ (k, v) ∈ xs := by
  induction xs generalizing m with
  | nil => simp [putAll]
  | cons x xs ih =>
    obtain ⟨hx, hxs⟩ := List.nodup_cons.mp h
    have hnone := hnew x List.mem_cons_self
    have hne : ∀ y ∈ xs, y.1 ≠ x.1 := fun y hy he => hx (List.mem_map.mpr ⟨y, hy, he⟩)
    have hstep : putAll m (x :: xs) = putAll (m.insert x.1 x.2) xs := rfl
    rw [hstep, ih hxs fun y hy => (get_insert_ne m (hne y hy) x.2).trans
      (hnew y (List.mem_cons_of_mem x hy)), List.mem_cons]
    by_cases he : k = x.1
    · subst he
      have hv : (x.1, v) = x ↔ x.2 = v := ⟨fun hp => (congrArg Prod.snd hp).symm, fun hp => hp ▸ rfl⟩
      rw [get_insert_self, Option.some_inj, hnone, hv]
      simp
    · have hp : (k, v) ≠ x := fun hp => he (congrArg Prod.fst hp)
      rw [get_insert_ne m he]
      simp [hp]

/-- Entries under different keys are the entries of the map they are put into. -/
theorem toList_putAll_perm {xs : List (κ × ν)} (h : (xs.map Prod.fst).Nodup) :
    (putAll (∅ : ExtTreeMap κ ν) xs).toList.Perm xs := by
  refine (List.perm_ext_iff_of_nodup (nodup_toList _) (List.Nodup.of_map _ h)).mpr fun x => ?_
  rw [ExtTreeMap.mem_toList_iff_getElem?_eq_some, get_putAll h fun _ _ => by simp]
  simp

/-- One value is bounded by the sum over all. -/
theorem le_sumValues {m : ExtTreeMap κ ν} {k : κ} {v : ν} (h : m[k]? = some v) (f : ν → ℕ) :
    f v ≤ sumValues m f := by
  have := sumValues_insert m k v f
  rw [insert_get m h] at this
  omega

theorem sumValues_congr {m : ExtTreeMap κ ν} {f g : ν → ℕ}
    (h : ∀ (k : κ) v, m[k]? = some v → f v = g v) : sumValues m f = sumValues m g := by
  refine congrArg List.sum (List.map_congr_left fun v hv => ?_)
  obtain ⟨k, hk⟩ := (mem_values m v).mp hv
  exact h k v hk

theorem sumValues_eq_zero {m : ExtTreeMap κ ν} {f : ν → ℕ}
    (h : ∀ (k : κ) v, m[k]? = some v → f v = 0) : sumValues m f = 0 := by
  rw [sumValues_congr (g := fun _ => 0) h]
  simp [sumValues]

omit [LawfulEqOrd κ] in
/-- A map over the values commutes with the sum. -/
theorem sumValues_map (m : ExtTreeMap κ ν) (g : ν → μ) (f : μ → ℕ) :
    sumValues (m.map fun _ v => g v) f = sumValues m (f ∘ g) := by
  simp [sumValues, values, ExtTreeMap.toList_map, Function.comp_def]

omit [LawfulEqOrd κ] in
/-- A sum over a selection of the values is a sum over all of them. -/
theorem sum_filterMap_values (m : ExtTreeMap κ ν) (f : ν → Option μ) (h : μ → ℕ) :
    (((values m).filterMap f).map h).sum = sumValues m fun v => (f v).elim 0 h := by
  unfold sumValues
  induction values m with
  | nil => rfl
  | cons v vs ih => cases hf : f v <;> simp [hf, ih]

end IcLaya.OrderedMaps
