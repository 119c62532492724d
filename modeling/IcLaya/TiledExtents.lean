import Mathlib.Data.Nat.Notation
import Mathlib.Data.Set.Lattice
import Mathlib.Order.CompletePartialOrder
import Mathlib.Order.Interval.Set.Disjoint

/-!
# Extents laid end to end

Extents of a file that follow each other without a gap: they lie apart, they fill the range that
they span, and what was written one after the other is cut out again.
-/
namespace IcLaya.TiledExtents

/-- An offset and a length. -/
abbrev Extent := ℕ × ℕ

/-- The positions of an extent. -/
def range (x : Extent) : Set ℕ := Set.Ico x.1 (x.1 + x.2)

/-- Each extent begins where the one before it ends. -/
inductive Tiles : ℕ → ℕ → List Extent → Prop
  | nil (a : ℕ) : Tiles a a []
  | cons {a b n : ℕ} {xs : List Extent} (h : Tiles (a + n) b xs) : Tiles a b ((a, n) :: xs)

namespace Tiles
variable {a b : ℕ} {xs : List Extent}

theorem le (h : Tiles a b xs) : a ≤ b := by
  induction h with
  | nil a => exact Nat.le_refl a
  | cons _ ih => omega

theorem within (h : Tiles a b xs) : ∀ x ∈ xs, a ≤ x.1 ∧ x.1 + x.2 ≤ b := by
  induction h with
  | nil a => exact fun x hx => (nomatch hx)
  | cons h ih =>
    intro x hx
    rcases List.mem_cons.mp hx with rfl | hx
    · exact ⟨Nat.le_refl _, h.le⟩
    · obtain ⟨hlo, hhi⟩ := ih x hx
      exact ⟨by omega, hhi⟩

theorem disjoint (h : Tiles a b xs) : xs.Pairwise fun x y => Disjoint (range x) (range y) := by
  induction h with
  | nil a => exact List.Pairwise.nil
  | cons h ih =>
    refine List.pairwise_cons.mpr ⟨fun y hy => ?_, ih⟩
    exact Set.Ico_disjoint_Ico_same.mono_right (Set.Ico_subset_Ico_left (h.within y hy).1)

/-- Together they fill the range. -/
theorem cover (h : Tiles a b xs) : ⋃ x ∈ xs, range x = Set.Ico a b := by
  induction h with
  | nil a => simp
  | cons h ih =>
    have hsplit : ∀ (x : Extent) (xs : List Extent),
        ⋃ y ∈ x :: xs, range y = range x ∪ ⋃ y ∈ xs, range y := by
      intro x xs
      simp only [List.mem_cons, Set.iUnion_iUnion_eq_or_left]
    rw [hsplit, ih]
    exact Set.Ico_union_Ico_eq_Ico (Nat.le_add_right _ _) h.le

end Tiles

section Cuts
variable {α : Type} {a b : ℕ} {xs : List Extent}

def cut (bytes : List α) (x : Extent) : List α := (bytes.drop x.1).take x.2

theorem length_cut {bytes : List α} {x : Extent} (h : x.1 + x.2 ≤ bytes.length) :
    (cut bytes x).length = x.2 := by
  rw [cut, List.length_take, List.length_drop]
  omega

/-- What was written one after the other is cut out again. -/
theorem Tiles.cut_flatten (h : Tiles a b xs) {pre : List α} {parts : List (List α)}
    (hpre : pre.length = a) (hparts : parts.map List.length = xs.map Prod.snd) :
    xs.map (cut (pre ++ parts.flatten)) = parts := by
  induction h generalizing pre parts with
  | nil a => exact (List.map_eq_nil_iff.mp hparts).symm
  | @cons a b n xs h ih =>
    cases parts with
    | nil => cases hparts
    | cons part parts =>
      obtain ⟨hpart, hrest⟩ := List.cons.inj hparts
      have hend : (pre ++ part).length = a + n := by rw [List.length_append, hpre, hpart]
      have hnext := ih hend hrest
      rw [List.append_assoc] at hnext
      rw [List.map_cons, List.flatten_cons, hnext, cut, ← hpre, List.drop_left]
      congr 1
      exact List.take_left' hpart

end Cuts

end IcLaya.TiledExtents
