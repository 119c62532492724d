import IcLaya.Fallible
import IcLaya.WordStreams

/-!
# Loops in lanes

A loop takes whole chunks of a list first and what is left over one by one. Done so, a fold of
maxima and a map are the plain ones.
-/
namespace IcLaya.LaneChunks
open Fallible WordStreams

variable {α β ε σ : Type}

/-- What `chunks_exact` leaves over. -/
def tail (k : ℕ) (xs : List α) : List α := xs.drop (xs.length / k * k)

/-- The chunks and the tail are the list. -/
theorem flatten_chunksExact (k : ℕ) (xs : List α) :
    (chunksExact k xs).flatten ++ tail k xs = xs := by
  have htake : ∀ n, ((List.range n).map fun i => (xs.drop (i * k)).take k).flatten =
      xs.take (n * k) := by
    intro n
    induction n with
    | zero => simp
    | succ n ih =>
      rw [List.range_succ, List.map_append, List.flatten_append, ih, Nat.add_mul, Nat.one_mul,
        List.take_add]
      simp
  rw [chunksExact, htake, tail, List.take_append_drop]

/-- A map over the chunks and over the tail. -/
theorem map_chunks {k : ℕ} (f : α → β) (xs : List α) :
    (chunksExact k xs).flatMap (List.map f) ++ (tail k xs).map f = xs.map f := by
  rw [List.flatMap_def, ← List.map_flatten, ← List.map_append, flatten_chunksExact]

theorem exists_chunks {k : ℕ} {p : α → Prop} {xs : List α} :
    (∃ x ∈ xs, p x) ↔ (∃ chunk ∈ chunksExact k xs, ∃ x ∈ chunk, p x) ∨ ∃ x ∈ tail k xs, p x := by
  have hall : (∃ x ∈ xs, p x) ↔ ∃ x ∈ (chunksExact k xs).flatten ++ tail k xs, p x := by
    rw [flatten_chunksExact]
  rw [hall]
  simp only [List.mem_append, List.mem_flatten, or_and_right, exists_or]
  refine or_congr ⟨?_, ?_⟩ Iff.rfl
  · rintro ⟨x, ⟨chunk, hc, hx⟩, hp⟩
    exact ⟨chunk, hc, x, hx, hp⟩
  · rintro ⟨chunk, hc, x, hx, hp⟩
    exact ⟨x, ⟨chunk, hc, hx⟩, hp⟩

/-- The maximum of a list and a bound. -/
theorem foldl_max (a : ℕ) (xs : List ℕ) : xs.foldl max a = max a (xs.foldl max 0) := by
  induction xs generalizing a with
  | nil => exact (Nat.max_zero a).symm
  | cons x xs ih => rw [List.foldl_cons, List.foldl_cons, ih (max a x), ih (max 0 x)]; omega

theorem le_foldl_max {f : α → ℕ} {xs : List α} {x : α} (h : x ∈ xs) (a : ℕ) :
    f x ≤ xs.foldl (fun a x => max a (f x)) a := by
  induction xs generalizing a with
  | nil => exact absurd h List.not_mem_nil
  | cons y xs ih =>
    rcases List.mem_cons.mp h with rfl | hx
    · have hfold : (x :: xs).foldl (fun a x => max a (f x)) a =
          max (max a (f x)) ((xs.map f).foldl max 0) := by
        rw [List.foldl_cons, ← foldl_max, List.foldl_map]
      omega
    · exact ih hx _

/-- Lane by lane maxima have the maximum of both. -/
theorem foldl_max_zipWith {xs ys : List ℕ} (h : xs.length = ys.length) :
    (List.zipWith max xs ys).foldl max 0 = max (xs.foldl max 0) (ys.foldl max 0) := by
  induction xs generalizing ys with
  | nil =>
    obtain rfl := List.eq_nil_of_length_eq_zero h.symm
    rfl
  | cons x xs ih =>
    obtain ⟨y, ys, rfl⟩ := List.exists_cons_of_length_eq_add_one h.symm
    have hrest := ih (Nat.succ.inj h)
    rw [List.zipWith_cons_cons, List.foldl_cons, List.foldl_cons, List.foldl_cons, foldl_max,
      foldl_max (max 0 x), foldl_max (max 0 y), hrest]
    omega

/-- The maximum over a list by the maxima in its lanes. -/
theorem foldl_max_chunks {k : ℕ} {peaks : List ℕ} (f : α → ℕ) (xs : List α)
    (h : peaks.length = k) :
    (tail k xs).foldl (fun a x => max a (f x))
        (((chunksExact k xs).foldl (fun p c => List.zipWith max p (c.map f)) peaks).foldl max 0) =
      xs.foldl (fun a x => max a (f x)) (peaks.foldl max 0) := by
  have hchunks : ∀ (chunks : List (List α)) (peaks : List ℕ), peaks.length = k →
      (∀ c ∈ chunks, c.length = k) →
        (chunks.foldl (fun p c => List.zipWith max p (c.map f)) peaks).foldl max 0 =
          chunks.flatten.foldl (fun a x => max a (f x)) (peaks.foldl max 0) := by
    intro chunks
    induction chunks with
    | nil => intro peaks _ _; rfl
    | cons c chunks ih =>
      intro peaks hp hc
      obtain ⟨hlength, hrest⟩ := List.forall_mem_cons.mp hc
      have heq : peaks.length = (c.map f).length := by rw [hp, List.length_map, hlength]
      have hzip : (List.zipWith max peaks (c.map f)).length = k := by
        rw [List.length_zipWith, ← heq, hp, Nat.min_self]
      have hfold : c.foldl (fun a x => max a (f x)) (peaks.foldl max 0) =
          max (peaks.foldl max 0) ((c.map f).foldl max 0) := by
        rw [← foldl_max, List.foldl_map]
      rw [List.foldl_cons, ih _ hzip hrest, foldl_max_zipWith heq, List.flatten_cons,
        List.foldl_append, hfold]
  rw [hchunks _ _ h fun c hc => length_of_mem_chunksExact hc, ← List.foldl_append,
    flatten_chunksExact]

/-- A fold that checks each element before it takes it in. -/
theorem foldlM_guard {p : α → Prop} [DecidablePred p] {e : ε} {f : σ → α → σ} (xs : List α)
    (s : σ) : xs.foldlM (fun s x => do rejectIf (p x) e; pure (f s x)) s =
      if ∃ x ∈ xs, p x then .error e else .ok (xs.foldl f s) := by
  induction xs generalizing s with
  | nil => rfl
  | cons x xs ih =>
    rw [List.foldlM_cons]
    by_cases hx : p x
    · rw [if_pos ⟨x, List.mem_cons_self, hx⟩, rejectIf_stop hx]
      rfl
    · rw [rejectIf_bind hx]
      refine (ih (f s x)).trans ?_
      simp only [List.mem_cons, exists_eq_or_imp, hx, false_or, List.foldl_cons]

end IcLaya.LaneChunks
