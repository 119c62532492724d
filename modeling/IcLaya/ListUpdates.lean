import Mathlib.Data.List.Basic

/-! One entry of a list is replaced: what is in the list before and after. -/
namespace IcLaya.ListUpdates

variable {α β : Type} {xs : List α} {i : ℕ} {a b x : α}

theorem mem_set_self (ha : xs[i]? = some a) : b ∈ xs.set i b :=
  List.mem_iff_getElem?.mpr ⟨i, List.getElem?_set_self (List.getElem?_eq_some_iff.mp ha).1⟩

/-- Every other entry is still there. -/
theorem mem_set_of_mem (h : x ∈ xs) (ha : xs[i]? = some a) : x = a ∨ x ∈ xs.set i b := by
  obtain ⟨j, hj⟩ := List.mem_iff_getElem?.mp h
  by_cases hij : i = j
  · subst hij
    exact .inl (Option.some.inj (hj.symm.trans ha))
  · exact .inr (List.mem_iff_getElem?.mpr ⟨j, by rw [List.getElem?_set_ne hij, hj]⟩)

/-- A property of every entry that the replacement has too. -/
theorem forall_mem_set {P : α → Prop} (h : ∀ x ∈ xs, P x) (hb : P b) : ∀ x ∈ xs.set i b, P x := by
  intro x hx
  rcases List.mem_or_eq_of_mem_set hx with hx | rfl
  · exact h x hx
  · exact hb

theorem forall_mem_concat {P : α → Prop} (h : ∀ x ∈ xs, P x) (hb : P b) :
    ∀ x ∈ xs ++ [b], P x := by
  intro x hx
  rcases List.mem_append.mp hx with hx | hx
  · exact h x hx
  · rw [List.mem_singleton.mp hx]; exact hb

/-- A replacement that agrees with the old entry under a map is not seen through it. -/
theorem map_set_same (f : α → β) (ha : xs[i]? = some a) (h : f b = f a) :
    (xs.set i b).map f = xs.map f := by
  apply List.ext_getElem?
  intro j
  simp only [List.getElem?_map]
  by_cases hij : i = j
  · subst hij
    rw [List.getElem?_set_self (List.getElem?_eq_some_iff.mp ha).1, ha]
    exact congrArg some h
  · rw [List.getElem?_set_ne hij]

/-- Entries that a strict order tells apart are equal when their keys are. -/
theorem eq_of_pairwise {f : α → β} {R : β → β → Prop} (hR : ∀ c, ¬R c c)
    (h : (xs.map f).Pairwise R) (ha : a ∈ xs) (hb : b ∈ xs) (he : f a = f b) : a = b := by
  induction xs with
  | nil => cases ha
  | cons x xs ih =>
    simp only [List.map_cons, List.pairwise_cons, List.mem_map, forall_exists_index, and_imp,
      forall_apply_eq_imp_iff₂] at h
    rcases List.mem_cons.mp ha with hax | hax
    · rcases List.mem_cons.mp hb with hbx | hbx
      · rw [hax, hbx]
      · have hr := h.1 b hbx
        rw [← hax, he] at hr
        exact absurd hr (hR _)
    · rcases List.mem_cons.mp hb with hbx | hbx
      · have hr := h.1 a hax
        rw [← hbx, he] at hr
        exact absurd hr (hR _)
      · exact ih h.2 hax hbx

end IcLaya.ListUpdates
