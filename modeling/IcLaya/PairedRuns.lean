import IcLaya.Fallible
import IcLaya.OrderedMaps
import Mathlib.Data.List.Perm.Subperm
import Mathlib.Data.Option.Basic

/-!
# Two runs next to each other

Fallible computations of two runs that end alike, ordered maps of two runs that have the same
keys and related values, and maps of which one has further entries that read as the default.
-/
namespace IcLaya.PairedRuns
open Fallible OrderedMaps
open Std (ExtTreeMap TransOrd LawfulEqOrd)

section Results
variable {ε α β γ δ : Type} {P : α → β → Prop} {Q : γ → δ → Prop}

/-- Both computations return, with related results, or both fail. -/
def Alike (P : α → β → Prop) : Except ε α → Except ε β → Prop
  | .ok a, .ok b => P a b
  | .error _, .error _ => True
  | _, _ => False

theorem Alike.pure {a : α} {b : β} (h : P a b) :
    Alike P (.ok a : Except ε α) (.ok b) := h

theorem Alike.bind {x : Except ε α} {y : Except ε β} {f : α → Except ε γ} {g : β → Except ε δ}
    (h : Alike P x y) (hf : ∀ a b, P a b → Alike Q (f a) (g b)) :
    Alike Q (x >>= f) (y >>= g) := by
  cases x with
  | error e =>
    cases y with
    | error e' => exact trivial
    | ok b => exact h.elim
  | ok a =>
    cases y with
    | error e' => exact h.elim
    | ok b => exact hf a b h

/-- One statement that both computations share. -/
theorem Alike.shared (x : Except ε α) {f : α → Except ε γ} {g : α → Except ε δ}
    (hf : ∀ a, x = .ok a → Alike Q (f a) (g a)) : Alike Q (x >>= f) (x >>= g) := by
  cases x with
  | error e => exact trivial
  | ok a => exact hf a rfl

theorem Alike.mono {R : α → β → Prop} {x : Except ε α} {y : Except ε β} (h : Alike P x y)
    (hP : ∀ a b, P a b → R a b) : Alike R x y := by
  cases x <;> cases y <;> first | exact h.elim | exact trivial | exact hP _ _ h

end Results

section Maps
variable {κ ν μ : Type} [Ord κ] [TransOrd κ] [LawfulEqOrd κ]

/-- The same keys, with related values. -/
def Paired (R : κ → ν → μ → Prop) (m : ExtTreeMap κ ν) (m' : ExtTreeMap κ μ) : Prop :=
  ∀ k, Option.Rel (R k) m[k]? m'[k]?

variable {R R' : κ → ν → μ → Prop} {m : ExtTreeMap κ ν} {m' : ExtTreeMap κ μ} {k : κ} {v : ν} {w : μ}

omit [LawfulEqOrd κ] in
theorem Paired.mono (h : Paired R m m') (hR : ∀ k v w, R k v w → R' k v w) : Paired R' m m' := by
  intro k
  have hk := h k
  generalize m[k]? = x at hk ⊢
  generalize m'[k]? = y at hk ⊢
  cases hk with
  | some hr => exact .some (hR k _ _ hr)
  | none => exact .none

omit [LawfulEqOrd κ] in
theorem Paired.get (h : Paired R m m') (hv : m[k]? = some v) : ∃ w, m'[k]? = some w ∧ R k v w := by
  have hk := h k
  rw [hv] at hk
  cases hw : m'[k]? with
  | none =>
    rw [hw] at hk
    cases hk
  | some w =>
    rw [hw] at hk
    cases hk with
    | some hr => exact ⟨w, rfl, hr⟩

omit [LawfulEqOrd κ] in
theorem Paired.get_none (h : Paired R m m') (hv : m[k]? = none) : m'[k]? = none := by
  have hk := h k
  rw [hv] at hk
  cases hw : m'[k]? with
  | none => rfl
  | some w =>
    rw [hw] at hk
    cases hk

omit [LawfulEqOrd κ] in
theorem Paired.get_of_second (h : Paired R m m') (hw : m'[k]? = some w) :
    ∃ v, m[k]? = some v ∧ R k v w := by
  cases hv : m[k]? with
  | none =>
    rw [h.get_none hv] at hw
    cases hw
  | some v =>
    obtain ⟨w', hw', hr⟩ := h.get hv
    rw [hw] at hw'
    cases hw'
    exact ⟨v, rfl, hr⟩

omit [LawfulEqOrd κ] in
/-- Two lookups of one key. -/
theorem Paired.lookup {ε : Type} (h : Paired R m m') (k : κ) (e : ε) :
    Alike (fun v w => m[k]? = some v ∧ m'[k]? = some w ∧ R k v w) (okOr m[k]? e) (okOr m'[k]? e) := by
  cases hv : m[k]? with
  | none =>
    rw [h.get_none hv]
    exact trivial
  | some v =>
    obtain ⟨w, hw, hr⟩ := h.get hv
    rw [hw]
    exact ⟨rfl, rfl, hr⟩

/-- Entries that are replaced, one of each map. -/
theorem Paired.replace (h : Paired R m m') (hkeep : ∀ a v w, a ≠ k → R a v w → R' a v w)
    (hr : R' k v w) : Paired R' (m.insert k v) (m'.insert k w) := by
  intro a
  rw [ExtTreeMap.getElem?_insert, ExtTreeMap.getElem?_insert]
  by_cases ha : compare k a = .eq
  · rw [if_pos ha, if_pos ha, ← Std.compare_eq_iff_eq.mp ha]
    exact .some hr
  · rw [if_neg ha, if_neg ha]
    have hne : a ≠ k := fun he => ha (Std.compare_eq_iff_eq.mpr he.symm)
    have hk := h a
    generalize m[a]? = x at hk ⊢
    generalize m'[a]? = y at hk ⊢
    cases hk with
    | some hr => exact .some (hkeep a _ _ hne hr)
    | none => exact .none

theorem Paired.insert (h : Paired R m m') (hr : R k v w) : Paired R (m.insert k v) (m'.insert k w) :=
  h.replace (fun _ _ _ _ hr => hr) hr

/-- An entry that only the second map replaces. -/
theorem Paired.replace_second (h : Paired R m m') (hkeep : ∀ a v w, R a v w → R' a v w)
    (hv : m[k]? = some v) (hr : R' k v w) : Paired R' m (m'.insert k w) := by
  rw [← insert_get m hv]
  exact h.replace (fun a v w _ hs => hkeep a v w hs) hr

theorem Paired.map {ν' μ' : Type} {S : κ → ν' → μ' → Prop} (h : Paired R m m') {f : ν → ν'} {g : μ → μ'}
    (hf : ∀ k v w, R k v w → S k (f v) (g w)) :
    Paired S (m.map fun _ v => f v) (m'.map fun _ w => g w) := by
  intro k
  rw [get_map, get_map]
  have hk := h k
  generalize m[k]? = x at hk ⊢
  generalize m'[k]? = y at hk ⊢
  cases hk with
  | some hr => exact .some (hf k _ _ hr)
  | none => exact .none

/-- A map with more keys is no smaller. -/
theorem size_le_of_keys {m : ExtTreeMap κ ν} {m' : ExtTreeMap κ μ}
    (h : ∀ k, m.contains k = true → m'.contains k = true) : m.size ≤ m'.size := by
  have hnodup : ∀ {ι : Type} (x : ExtTreeMap κ ι), x.keys.Nodup := fun x =>
    (ExtTreeMap.distinct_keys (t := x)).imp fun hne he => hne (Std.compare_eq_iff_eq.mpr he)
  have hsub : m.keys ⊆ m'.keys := by
    intro k hk
    rw [ExtTreeMap.mem_keys, ExtTreeMap.mem_iff_contains] at hk ⊢
    exact h k hk
  rw [← ExtTreeMap.length_keys, ← ExtTreeMap.length_keys]
  exact ((hnodup m).subperm hsub).length_le

omit [LawfulEqOrd κ] in
theorem Paired.contains (h : Paired R m m') (k : κ) : m.contains k = m'.contains k := by
  have hk := h k
  rw [ExtTreeMap.contains_eq_isSome_getElem?, ExtTreeMap.contains_eq_isSome_getElem?]
  generalize m[k]? = x at hk ⊢
  generalize m'[k]? = y at hk ⊢
  cases hk <;> rfl

theorem Paired.size (h : Paired R m m') : m.size = m'.size :=
  Nat.le_antisymm (size_le_of_keys fun k hk => h.contains k ▸ hk)
    (size_le_of_keys fun k hk => (h.contains k).symm ▸ hk)

end Maps

section Padding
variable {κ ν : Type} [Ord κ] [TransOrd κ] [LawfulEqOrd κ] [Inhabited ν]

/-- The second map has the entries of the first and up to `n` further ones, all of them the
default. -/
structure Pads (n : ℕ) (m m' : ExtTreeMap κ ν) : Prop where
  reads : ∀ k : κ, m'[k]?.getD default = m[k]?.getD default
  grows : ∀ k, m.contains k = true → m'.contains k = true
  size : m'.size ≤ m.size + n

variable {n n' : ℕ} {m m' : ExtTreeMap κ ν} {k : κ}

omit [LawfulEqOrd κ] in
theorem Pads.refl (n : ℕ) (m : ExtTreeMap κ ν) : Pads n m m :=
  ⟨fun _ => rfl, fun _ => id, Nat.le_add_right _ _⟩

omit [LawfulEqOrd κ] in
theorem Pads.mono (h : Pads n m m') (hn : n ≤ n') : Pads n' m m' :=
  ⟨h.reads, h.grows, h.size.trans (Nat.add_le_add_left hn _)⟩

omit [LawfulEqOrd κ] in
theorem Pads.get (h : Pads n m m') {v : ν} (hv : m[k]? = some v) : m'[k]? = some v := by
  obtain ⟨w, hw⟩ := (contains_iff_get m' k).mp (h.grows k ((contains_iff_get m k).mpr ⟨v, hv⟩))
  have hk := h.reads k
  rw [hv, hw] at hk
  rw [hw]
  exact congrArg some hk

omit [LawfulEqOrd κ] in
/-- A key that both maps write. -/
theorem Pads.insert (h : Pads n m m') (k : κ) (v : ν) : Pads n (m.insert k v) (m'.insert k v) := by
  constructor
  · intro a
    rw [ExtTreeMap.getElem?_insert, ExtTreeMap.getElem?_insert]
    split
    · rfl
    · exact h.reads a
  · intro a ha
    rw [ExtTreeMap.contains_insert, Bool.or_eq_true] at ha ⊢
    exact ha.imp_right (h.grows a)
  · have hle := h.size
    simp only [ExtTreeMap.size_insert]
    cases hc : m.contains k with
    | true =>
      rw [h.grows k hc]
      exact hle
    | false =>
      simp only [Bool.false_eq_true, if_false]
      split <;> omega

/-- A key that only the second map writes, with what a reader finds there anyway. -/
theorem Pads.pad (h : Pads n m m') (k : κ) :
    Pads (n + 1) m (m'.insert k (m'[k]?.getD default)) := by
  constructor
  · intro a
    rw [ExtTreeMap.getElem?_insert, ← h.reads a]
    split
    · next he => rw [Std.compare_eq_iff_eq.mp he, Option.getD_some]
    · rfl
  · intro a ha
    rw [ExtTreeMap.contains_insert, h.grows a ha, Bool.or_true]
  · have hle := h.size
    rw [ExtTreeMap.size_insert]
    split <;> omega

/-- Where only the second map has a key, it is the larger one. -/
theorem Pads.size_lt (h : Pads n m m') (hk : m.contains k = false) (hk' : m'.contains k = true)
    (v : ν) : m.size < m'.size := by
  have hle : (m.insert k v).size ≤ m'.size := by
    refine size_le_of_keys fun a ha => ?_
    rw [ExtTreeMap.contains_insert, Bool.or_eq_true] at ha
    rcases ha with ha | ha
    · rw [← Std.compare_eq_iff_eq.mp (beq_iff_eq.mp ha)]
      exact hk'
    · exact h.grows a ha
  simp only [ExtTreeMap.size_insert, hk, Bool.false_eq_true, if_false] at hle
  exact hle

end Padding

end IcLaya.PairedRuns
