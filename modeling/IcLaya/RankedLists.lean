import Mathlib.Algebra.Ring.Nat
import Mathlib.Data.List.Sort
import Mathlib.Data.Nat.Notation

/-!
# Ranked lists

The entries of a list from the largest down, equal ones in the order of their positions: what a
stable sort gives. The first of them are chosen and raised, or the first two are compared.
-/
namespace IcLaya.RankedLists

variable {α : Type} [LinearOrder α]

/-- Larger, or as large and earlier. -/
def Ahead (a b : α × ℕ) : Prop := b.1 < a.1 ∨ b.1 = a.1 ∧ a.2 < b.2

section Ranking
variable {r : α × ℕ → α × ℕ → Prop} [DecidableRel r] (hr : ∀ a b, r a b ↔ b.1 ≤ a.1)
include hr

/-- An entry before all others in position is put behind the larger ones only. -/
theorem pairwise_orderedInsert {a : α × ℕ} {xs : List (α × ℕ)} (h : xs.Pairwise Ahead)
    (ha : ∀ b ∈ xs, a.2 < b.2) : (xs.orderedInsert r a).Pairwise Ahead := by
  induction xs with
  | nil => exact List.pairwise_singleton _ _
  | cons b xs ih =>
    obtain ⟨hb, hxs⟩ := List.pairwise_cons.mp h
    by_cases hab : r a b
    · have hle := (hr a b).mp hab
      rw [List.orderedInsert_cons_of_le _ _ hab]
      refine List.pairwise_cons.mpr ⟨fun c hc => ?_, h⟩
      have hlater := ha c hc
      rcases List.mem_cons.mp hc with rfl | hc
      · exact hle.lt_or_eq.imp_right fun he => ⟨he, hlater⟩
      · have hcb : c.1 ≤ b.1 := (hb c hc).elim le_of_lt fun he => he.1.le
        exact (hcb.trans hle).lt_or_eq.imp_right fun he => ⟨he, hlater⟩
    · rw [List.orderedInsert_of_not_le _ _ hab]
      refine List.pairwise_cons.mpr ⟨fun c hc => ?_, ih hxs fun c hc => ha c (List.mem_cons_of_mem b hc)⟩
      rcases (List.mem_orderedInsert _).mp hc with rfl | hc
      · exact .inl (not_le.mp fun hle => hab ((hr _ _).mpr hle))
      · exact hb c hc

/-- An induction from the last entry on: each is inserted before all later ones. -/
theorem pairwise_ranked (xs : List α) (k : ℕ) :
    ((xs.zipIdx k).insertionSort r).Pairwise Ahead := by
  induction xs generalizing k with
  | nil => exact List.Pairwise.nil
  | cons x xs ih =>
    rw [List.zipIdx_cons, List.insertionSort_cons]
    refine pairwise_orderedInsert hr (ih (k + 1)) fun b hb => ?_
    have hmem := (List.mem_insertionSort _).mp hb
    exact List.le_snd_of_mem_zipIdx hmem

end Ranking

section Choice
variable (r : α × ℕ → α × ℕ → Prop) [DecidableRel r]

/-- The positions of the first `n` in the ranking. -/
def chosen (n : ℕ) (xs : List α) : List ℕ := ((xs.zipIdx.insertionSort r).take n).map Prod.snd

omit [LinearOrder α] in
theorem ranked_positions (xs : List α) :
    ((xs.zipIdx.insertionSort r).map Prod.snd).Perm (List.range xs.length) := by
  have hperm := (List.perm_insertionSort r xs.zipIdx).map Prod.snd
  rwa [List.zipIdx_map_snd, ← List.range_eq_range'] at hperm

omit [LinearOrder α] in
theorem chosen_sublist (n : ℕ) (xs : List α) :
    (chosen r n xs).Sublist ((xs.zipIdx.insertionSort r).map Prod.snd) :=
  (List.take_sublist _ _).map Prod.snd

omit [LinearOrder α] in
theorem chosen_nodup (n : ℕ) (xs : List α) : (chosen r n xs).Nodup :=
  (chosen_sublist r n xs).nodup ((ranked_positions r xs).nodup_iff.mpr List.nodup_range)

omit [LinearOrder α] in
theorem lt_of_mem_chosen {n i : ℕ} {xs : List α} (h : i ∈ chosen r n xs) : i < xs.length :=
  List.mem_range.mp ((ranked_positions r xs).mem_iff.mp ((chosen_sublist r n xs).mem h))

omit [LinearOrder α] in
theorem length_chosen {n : ℕ} {xs : List α} (h : n ≤ xs.length) : (chosen r n xs).length = n := by
  rw [chosen, List.length_map, List.length_take, List.length_insertionSort, List.length_zipIdx]
  exact Nat.min_eq_left h

/-- Who is chosen is ahead of who is not. -/
theorem ahead_of_chosen (hr : ∀ a b, r a b ↔ b.1 ≤ a.1) {n i j : ℕ} {xs : List α} {a b : α}
    (hi : xs[i]? = some a) (hj : xs[j]? = some b) (hin : i ∈ chosen r n xs)
    (hout : j ∉ chosen r n xs) : Ahead (a, i) (b, j) := by
  have hpair := pairwise_ranked hr xs 0
  obtain ⟨x, hx, rfl⟩ := List.mem_map.mp hin
  have hxs : xs[x.2]? = some x.1 :=
    List.mem_zipIdx_iff_getElem?.mp ((List.mem_insertionSort r).mp (List.mem_of_mem_take hx))
  cases Option.some.inj (hi.symm.trans hxs)
  have hy : (b, j) ∈ xs.zipIdx.insertionSort r :=
    (List.mem_insertionSort r).mpr (List.mem_zipIdx_iff_getElem?.mpr hj)
  rw [← List.take_append_drop n (xs.zipIdx.insertionSort r)] at hpair hy
  rcases List.mem_append.mp hy with hy | hy
  · exact absurd (List.mem_map.mpr ⟨_, hy, rfl⟩) hout
  · exact (List.pairwise_append.mp hpair).2.2 x hx _ hy

end Choice

section Raising

/-- The entries at the given positions grow by one. -/
def raise (positions : List ℕ) (xs : List ℕ) : List ℕ :=
  xs.zipIdx.map fun x => if x.2 ∈ positions then x.1 + 1 else x.1

theorem raise_getElem? (positions xs : List ℕ) (i : ℕ) : (raise positions xs)[i]? =
    xs[i]?.map fun x => if i ∈ positions then x + 1 else x := by
  rw [raise, List.getElem?_map, List.getElem?_zipIdx]
  cases xs[i]? <;> simp

/-- As many units are added as there are positions. -/
theorem sum_raise {positions xs : List ℕ} (hnodup : positions.Nodup)
    (hlt : ∀ i ∈ positions, i < xs.length) : (raise positions xs).sum = xs.sum + positions.length := by
  have hsplit : ∀ ys : List (ℕ × ℕ), (ys.map fun x => if x.2 ∈ positions then x.1 + 1 else x.1).sum =
      (ys.map Prod.fst).sum + ((ys.map Prod.snd).filter (· ∈ positions)).length := by
    intro ys
    induction ys with
    | nil => rfl
    | cons y ys ih =>
      simp only [List.map_cons, List.sum_cons, ih, List.filter_cons, decide_eq_true_eq]
      split
      · rw [List.length_cons]
        omega
      · omega
  have hcount : ((List.range xs.length).filter (· ∈ positions)).Perm positions := by
    refine (List.perm_ext_iff_of_nodup (List.nodup_range.filter _) hnodup).mpr fun i => ?_
    rw [List.mem_filter, List.mem_range, decide_eq_true_eq]
    exact and_iff_right_of_imp (hlt i)
  rw [raise, hsplit, List.zipIdx_map_fst, List.zipIdx_map_snd, ← List.range_eq_range',
    hcount.length_eq]

end Raising

section Leading

/-- The first position of a largest entry. -/
def Leads (xs : List α) (i : ℕ) (a : α) : Prop :=
  xs[i]? = some a ∧ ∀ k c, xs[k]? = some c → k ≠ i → Ahead (a, i) (c, k)

theorem Leads.unique {xs : List α} {i j : ℕ} {a b : α} (hi : Leads xs i a) (hj : Leads xs j b) :
    i = j := by
  by_contra hne
  rcases hi.2 j b hj.1 fun he => hne he.symm with h | ⟨h, hlt⟩ <;>
    rcases hj.2 i a hi.1 hne with h' | ⟨h', hlt'⟩
  · exact lt_asymm h h'
  · exact h.ne h'.symm
  · exact h'.ne h.symm
  · exact lt_asymm hlt hlt'

theorem Leads.le {xs : List α} {i k : ℕ} {a c : α} (h : Leads xs i a) (hk : xs[k]? = some c) :
    c ≤ a := by
  by_cases he : k = i
  · subst he
    exact (Option.some.inj (hk.symm.trans h.1)).le
  · exact (h.2 k c hk he).elim le_of_lt fun hc => hc.1.le

/-- The loop that keeps the best index so far. -/
def best (xs : List α) (d : α) (n : ℕ) : ℕ :=
  (List.range' 1 n).foldl (fun m i => if xs.getD m d < xs.getD i d then i else m) 0

theorem best_succ (xs : List α) (d : α) (n : ℕ) : best xs d (n + 1) =
    if xs.getD (best xs d n) d < xs.getD (n + 1) d then n + 1 else best xs d n := by
  rw [best, List.range'_1_concat, List.foldl_append, Nat.add_comm 1 n]
  rfl

/-- An induction over the steps of the loop. -/
theorem best_ahead (xs : List α) (d : α) (n : ℕ) : best xs d n ≤ n ∧ ∀ k ≤ n, k ≠ best xs d n →
    Ahead (xs.getD (best xs d n) d, best xs d n) (xs.getD k d, k) := by
  induction n with
  | zero => exact ⟨Nat.le_refl 0, fun k hk hne => absurd (Nat.le_zero.mp hk) hne⟩
  | succ n ih =>
    obtain ⟨hle, hahead⟩ := ih
    rw [best_succ]
    split
    · next hlt =>
      refine ⟨Nat.le_refl _, fun k hk hne => .inl ?_⟩
      by_cases hkm : k = best xs d n
      · exact hkm ▸ hlt
      · have hkn := hahead k (by omega) hkm
        exact lt_of_le_of_lt (hkn.elim le_of_lt fun hc => hc.1.le) hlt
    · next hge =>
      refine ⟨by omega, fun k hk hne => ?_⟩
      by_cases hkn : k = n + 1
      · subst hkn
        exact (not_lt.mp hge).lt_or_eq.imp_right fun he => ⟨he, by omega⟩
      · exact hahead k (by omega) hne

theorem leads_best {xs : List α} (d : α) (h : xs ≠ []) :
    Leads xs (best xs d (xs.length - 1)) (xs.getD (best xs d (xs.length - 1)) d) := by
  have hpos := List.length_pos_iff.mpr h
  obtain ⟨hle, hahead⟩ := best_ahead xs d (xs.length - 1)
  refine ⟨?_, fun k c hk hne => ?_⟩
  · rw [List.getD_eq_getElem?_getD, List.getElem?_eq_getElem (by omega)]
    rfl
  · have hlt := (List.getElem?_eq_some_iff.mp hk).1
    have hget : xs.getD k d = c := by rw [List.getD_eq_getElem?_getD, hk]; rfl
    exact hget ▸ hahead k (by omega) hne

/-- The two first entries of the sorted list, and where they stand. -/
theorem sorted_top_two {xs : List α} (h : 2 ≤ xs.length) : ∃ i j a b rest,
    xs.insertionSort (· ≥ ·) = a :: b :: rest ∧ Leads xs i a ∧ xs[j]? = some b ∧ j ≠ i ∧
      ∀ k c, xs[k]? = some c → k ≠ i → c ≤ b := by
  let r : α × ℕ → α × ℕ → Prop := fun x y => x.1 ≥ y.1
  have hmap := List.map_insertionSort r (· ≥ ·) Prod.fst xs.zipIdx fun _ _ _ _ => Iff.rfl
  rw [List.zipIdx_map_fst] at hmap
  have hpair := pairwise_ranked (r := r) (fun _ _ => Iff.rfl) xs 0
  have hlength : 2 ≤ (xs.zipIdx.insertionSort r).length := by
    rwa [List.length_insertionSort, List.length_zipIdx]
  have hmem : ∀ x, x ∈ xs.zipIdx.insertionSort r ↔ xs[x.2]? = some x.1 := fun x =>
    (List.mem_insertionSort r).trans List.mem_zipIdx_iff_getElem?
  have hnodup := (ranked_positions r xs).nodup_iff.mpr List.nodup_range
  match hs : xs.zipIdx.insertionSort r, hlength with
  | x :: y :: rest, _ =>
    rw [hs] at hmap hpair hmem hnodup
    obtain ⟨hx, hrest⟩ := List.pairwise_cons.mp hpair
    obtain ⟨hy, -⟩ := List.pairwise_cons.mp hrest
    have hother : ∀ k c, xs[k]? = some c → k ≠ x.2 → (c, k) ∈ y :: rest := by
      intro k c hk hne
      refine (List.mem_cons.mp ((hmem (c, k)).mpr hk)).resolve_left fun he => hne ?_
      exact congrArg Prod.snd he
    refine ⟨x.2, y.2, x.1, y.1, rest.map Prod.fst, hmap.symm, ⟨(hmem x).mp List.mem_cons_self,
      fun k c hk hne => hx _ (hother k c hk hne)⟩, (hmem y).mp (by simp), ?_, fun k c hk hne => ?_⟩
    · intro he
      simp only [List.map_cons, List.nodup_cons, List.mem_cons, not_or] at hnodup
      exact hnodup.1.1 he.symm
    · rcases List.mem_cons.mp (hother k c hk hne) with he | hc
      · exact (congrArg Prod.fst he).le
      · exact (hy _ hc).elim le_of_lt fun hle => hle.1.le

end Leading

end IcLaya.RankedLists
