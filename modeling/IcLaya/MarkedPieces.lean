import Mathlib.Data.List.Basic
import Mathlib.Data.Nat.Notation

/-!
# Marked pieces

Pieces in a row, each behind a mark that no piece holds, and a stop after the last one. The
marks stand where the pieces begin, and the row can be taken apart in one way only.
-/
namespace IcLaya.MarkedPieces

variable {α : Type} {stop : α → Prop} {m d : α} {p p' r r' : List α} {ps ps' : List (List α)}

/-- Every piece behind the mark. -/
def marked (m : α) (ps : List (List α)) : List α := ps.flatMap (m :: ·)

/-- Where the marks stand when the first one is written at `n`. -/
def starts : ℕ → List (List α) → List ℕ
  | _, [] => []
  | n, p :: ps => n :: starts (n + (p.length + 1)) ps

@[simp] theorem marked_nil : marked m [] = [] := rfl

@[simp] theorem marked_cons : marked m (p :: ps) = m :: (p ++ marked m ps) := rfl

@[simp] theorem length_starts (n : ℕ) (ps : List (List α)) : (starts n ps).length = ps.length := by
  induction ps generalizing n with
  | nil => rfl
  | cons p ps ih => simp [starts, ih]

theorem length_le_marked (m : α) (ps : List (List α)) : ps.length ≤ (marked m ps).length := by
  induction ps with
  | nil => exact Nat.le_refl 0
  | cons p ps ih =>
    rw [marked_cons, List.length_cons, List.length_cons, List.length_append]
    omega

/-- A piece ends at the first stop. -/
theorem piece_inj (hp : ∀ x ∈ p, ¬stop x) (hp' : ∀ x ∈ p', ¬stop x) {d d' : α} (hd : stop d)
    (hd' : stop d') (h : p ++ d :: r = p' ++ d' :: r') : p = p' ∧ d = d' ∧ r = r' := by
  induction p generalizing p' with
  | nil =>
    cases p' with
    | nil => simpa using h
    | cons y p' =>
      have hy : d = y := by simpa using congrArg List.head? h
      exact absurd (hy ▸ hd) (hp' y List.mem_cons_self)
  | cons x p ih =>
    cases p' with
    | nil =>
      have hx : x = d' := by simpa using congrArg List.head? h
      exact absurd (hx ▸ hd') (hp x List.mem_cons_self)
    | cons y p' =>
      rw [List.forall_mem_cons] at hp hp'
      obtain ⟨hxy, htail⟩ := List.cons.inj h
      obtain ⟨hpp, hdd, hrr⟩ := ih hp.2 hp'.2 htail
      exact ⟨by rw [hxy, hpp], hdd, hrr⟩

/-- What follows a piece begins with a stop. -/
theorem stop_after (hm : stop m) (hd : stop d) (ps : List (List α)) (r : List α) :
    ∃ e t, stop e ∧ marked m ps ++ d :: r = e :: t := by
  cases ps with
  | nil => exact ⟨d, r, hd, rfl⟩
  | cons p ps => exact ⟨m, _, hm, rfl⟩

/-- A row of marked pieces is taken apart in one way. -/
theorem marked_inj (hm : stop m) (hd : stop d) (hne : m ≠ d) (hps : ∀ p ∈ ps, ∀ x ∈ p, ¬stop x)
    (hps' : ∀ p ∈ ps', ∀ x ∈ p, ¬stop x)
    (h : marked m ps ++ d :: r = marked m ps' ++ d :: r') : ps = ps' ∧ r = r' := by
  induction ps generalizing ps' with
  | nil =>
    cases ps' with
    | nil => exact ⟨rfl, (List.cons.inj h).2⟩
    | cons p' ps' => exact absurd (List.cons.inj h).1.symm hne
  | cons p ps ih =>
    cases ps' with
    | nil => exact absurd (List.cons.inj h).1 hne
    | cons p' ps' =>
      rw [List.forall_mem_cons] at hps hps'
      simp only [marked_cons, List.cons_append, List.append_assoc, List.cons.injEq, true_and] at h
      obtain ⟨e, t, he, hrest⟩ := stop_after hm hd ps r
      obtain ⟨e', t', he', hrest'⟩ := stop_after hm hd ps' r'
      rw [hrest, hrest'] at h
      obtain ⟨hpp, hee, htt⟩ := piece_inj hps.1 hps'.1 he he' h
      rw [← hee, ← htt, ← hrest] at hrest'
      obtain ⟨hpieces, htail⟩ := ih hps.2 hps'.2 hrest'.symm
      exact ⟨by rw [hpp, hpieces], htail⟩

/-- A piece stands behind its mark. -/
theorem marked_at {i : ℕ} (pre post : List α) (h : ps[i]? = some p) :
    ∃ k, (starts pre.length ps)[i]? = some k ∧
      (m :: p) <+: (pre ++ (marked m ps ++ post)).drop k := by
  induction ps generalizing i pre with
  | nil => simp at h
  | cons q ps ih =>
    cases i with
    | zero =>
      obtain rfl : q = p := by simpa using h
      refine ⟨pre.length, rfl, ?_⟩
      rw [List.drop_left]
      simp
    | succ i =>
      obtain ⟨k, hk, hstands⟩ := ih (pre ++ m :: q) (by simpa using h)
      refine ⟨k, ?_, by simpa using hstands⟩
      simpa [starts] using hk

theorem lt_of_mem_starts {k n : ℕ} (h : k ∈ starts n ps) : k < n + (marked m ps).length := by
  induction ps generalizing n with
  | nil => nomatch h
  | cons p ps ih =>
    simp only [marked_cons, List.length_cons, List.length_append]
    rcases List.mem_cons.mp h with rfl | h
    · omega
    · have := ih h
      omega

variable [DecidableEq α]

/-- The marks are at the starts and nowhere else. -/
theorem idxsOf_marked (n : ℕ) (h : ∀ p ∈ ps, m ∉ p) : (marked m ps).idxsOf m n = starts n ps := by
  induction ps generalizing n with
  | nil => rfl
  | cons p ps ih =>
    rw [List.forall_mem_cons] at h
    have hnone : p.idxsOf m (n + 1) = [] := by
      rw [List.idxsOf_eq_nil_iff]
      intro y hy
      exact beq_eq_false_iff_ne.mpr fun he => h.1 (he ▸ hy)
    have hstart : n + 1 + p.length = n + (p.length + 1) := by omega
    rw [marked_cons, List.idxsOf_cons, if_pos (beq_self_eq_true m), List.idxsOf_append, hnone,
      List.nil_append, ih _ h.2, hstart, starts]

/-- The marks of a row between two parts that hold none. -/
theorem idxsOf_row {pre post : List α} (hpre : m ∉ pre) (hps : ∀ p ∈ ps, m ∉ p) (hpost : m ∉ post) :
    (pre ++ (marked m ps ++ post)).idxsOf m = starts pre.length ps := by
  have hnone : ∀ {l : List α} (n : ℕ), m ∉ l → l.idxsOf m n = [] := by
    intro l n hl
    rw [List.idxsOf_eq_nil_iff]
    intro y hy
    exact beq_eq_false_iff_ne.mpr fun he => hl (he ▸ hy)
  rw [List.idxsOf_append, List.idxsOf_append, hnone _ hpre, hnone _ hpost, idxsOf_marked _ hps,
    List.nil_append, List.append_nil, Nat.zero_add]

end IcLaya.MarkedPieces
