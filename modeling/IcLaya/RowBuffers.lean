import IcLaya.LoopOutcomes

/-!
# Buffers of rows

A flat buffer is read and written one row at a time: row `i` of width `w` is the slice from `i * w`
to `(i + 1) * w`. A loop that writes every row leaves the rows it wrote, one after the other.
-/
namespace IcLaya.RowBuffers
open Fallible PanickingCode StoreLoops LoopOutcomes

variable {ε α β : Type} {w n i a b : ℕ} {xs ys : List α}

/-- The row number `i`. -/
def rowAt (w : ℕ) (xs : List α) (i : ℕ) : List α := (xs.drop (i * w)).take w

/-- `buffer[a..b].copy_from_slice(ys)`. -/
def writeSlice (xs : List α) (a b : ℕ) (ys : List α) : Code ε (List α) :=
  if a ≤ b ∧ b ≤ xs.length ∧ ys.length = b - a then .ok (xs.take a ++ ys ++ xs.drop b)
  else .error .panic

theorem le_of_row (hi : i < n) (h : xs.length = n * w) : i * w + w ≤ xs.length := by
  have hle : (i + 1) * w ≤ n * w := Nat.mul_le_mul_right w hi
  rw [Nat.add_mul, Nat.one_mul] at hle
  omega

theorem length_rowAt (hi : i < n) (h : xs.length = n * w) : (rowAt w xs i).length = w := by
  have hle := le_of_row hi h
  rw [rowAt, List.length_take, List.length_drop]
  omega

theorem getElem?_rowAt {k : ℕ} (hk : k < w) : (rowAt w xs i)[k]? = xs[i * w + k]? := by
  rw [rowAt, List.getElem?_take, if_pos hk, List.getElem?_drop]

/-- Cells that are those of a row, in order. -/
theorem rowAt_eq (hy : ys.length = w) (h : ∀ k < w, xs[i * w + k]? = ys[k]?) :
    rowAt w xs i = ys := by
  apply List.ext_getElem?
  intro k
  by_cases hk : k < w
  · rw [getElem?_rowAt hk, h k hk]
  · have hlength : (rowAt w xs i).length ≤ w := List.length_take_le _ _
    rw [List.getElem?_eq_none (by omega), List.getElem?_eq_none (by omega)]

/-- A row is read. -/
theorem slice_row (hi : i < n) (h : xs.length = n * w) (ha : a = i * w) (hb : b = i * w + w) :
    (slice xs a b : Code ε (List α)) = .ok (rowAt w xs i) := by
  subst ha hb
  rw [slice_of_le (Nat.le_add_right _ _) (le_of_row hi h), Nat.add_sub_cancel_left]
  rfl

/-- A slice is written: the cells that it covers, and the others. -/
theorem writeSlice_eq_ok (hab : a ≤ b) (hb : b ≤ xs.length) (hy : ys.length = b - a) :
    ∃ r, (writeSlice xs a b ys : Code ε (List α)) = .ok r ∧ r.length = xs.length ∧
      ∀ k, r[k]? = if a ≤ k ∧ k < b then ys[k - a]? else xs[k]? := by
  refine ⟨_, if_pos ⟨hab, hb, hy⟩, ?_, fun k => ?_⟩
  · simp only [List.length_append, List.length_take, List.length_drop]
    omega
  · have htake : (xs.take a).length = a := by
      rw [List.length_take]
      omega
    by_cases hka : k < a
    · rw [if_neg (by omega), List.append_assoc, List.getElem?_append_left (by omega),
        List.getElem?_take, if_pos hka]
    · by_cases hkb : k < b
      · rw [if_pos (by omega), List.append_assoc, List.getElem?_append_right (by omega), htake,
          List.getElem?_append_left (by omega)]
      · rw [if_neg (by omega), List.getElem?_append_right
          (by rw [List.length_append]; omega), List.length_append, htake, List.getElem?_drop]
        congr 1
        omega

/-- A row is written; the others stay. -/
theorem writeSlice_row (hi : i < n) (h : xs.length = n * w) (hy : ys.length = w) (ha : a = i * w)
    (hb : b = i * w + w) :
    ∃ r, (writeSlice xs a b ys : Code ε (List α)) = .ok r ∧ r.length = n * w ∧
      rowAt w r i = ys ∧ ∀ j < n, j ≠ i → rowAt w r j = rowAt w xs j := by
  subst ha hb
  have hwidth : ys.length = i * w + w - i * w := by omega
  obtain ⟨r, hr, hlength, hcells⟩ := writeSlice_eq_ok (ε := ε) (Nat.le_add_right (i * w) w)
    (le_of_row hi h) hwidth
  refine ⟨r, hr, hlength.trans h, rowAt_eq hy fun k hk => ?_, fun j hj hne => ?_⟩
  · rw [hcells, if_pos ⟨Nat.le_add_right _ _, Nat.add_lt_add_left hk _⟩, Nat.add_sub_cancel_left]
  · refine rowAt_eq (length_rowAt hj h) fun k hk => ?_
    rw [hcells, getElem?_rowAt hk]
    refine if_neg fun hin => hne ?_
    obtain ⟨c, hc⟩ := Nat.exists_eq_add_of_le hin.1
    have hcw : c < w := by omega
    exact (row_inj hk hcw hc).1

/-- A buffer is its rows, one after the other. -/
theorem eq_flatMap_rows (h : xs.length = n * w) : xs = (List.range n).flatMap (rowAt w xs) := by
  induction n generalizing xs with
  | zero =>
    rw [Nat.zero_mul] at h
    exact List.length_eq_zero_iff.mp h
  | succ n ih =>
    have hle : n * w ≤ xs.length := by
      rw [h, Nat.succ_mul]
      omega
    have hinit : (xs.take (n * w)).length = n * w := by
      rw [List.length_take]
      omega
    have hrows : ∀ i < n, rowAt w (xs.take (n * w)) i = rowAt w xs i := by
      intro i hi
      refine rowAt_eq (length_rowAt (Nat.lt_succ_of_lt hi) h) fun k hk => ?_
      rw [List.getElem?_take, if_pos (row_lt hi hk), getElem?_rowAt hk]
    have hlast : rowAt w xs n = xs.drop (n * w) := by
      refine List.take_of_length_le ?_
      rw [List.length_drop, h, Nat.succ_mul]
      omega
    rw [List.range_succ, List.flatMap_append, List.flatMap_singleton, hlast]
    conv_lhs => rw [← List.take_append_drop (n * w) xs, ih hinit]
    congr 1
    exact List.flatMap_congr fun i hi => hrows i (List.mem_range.mp hi)

theorem eq_flatMap {f : ℕ → List α} (h : xs.length = n * w) (hf : ∀ i < n, rowAt w xs i = f i) :
    xs = (List.range n).flatMap f := by
  rw [eq_flatMap_rows h]
  exact List.flatMap_congr fun i hi => hf i (List.mem_range.mp hi)

theorem length_flatMap_rows {f : ℕ → List α} (hf : ∀ i < n, (f i).length = w) :
    ((List.range n).flatMap f).length = n * w := by
  induction n with
  | zero => simp
  | succ n ih =>
    rw [List.range_succ, List.flatMap_append, List.length_append,
      ih fun i hi => hf i (Nat.lt_succ_of_lt hi), List.flatMap_singleton,
      hf n (Nat.lt_succ_self n), Nat.succ_mul]

/-- The rows of a buffer that was put together from rows. -/
theorem rowAt_flatMap {f : ℕ → List α} (hf : ∀ i < n, (f i).length = w) (hi : i < n) :
    rowAt w ((List.range n).flatMap f) i = f i := by
  induction n with
  | zero => exact absurd hi (Nat.not_lt_zero i)
  | succ n ih =>
    have hinit := length_flatMap_rows fun i hi => hf i (Nat.lt_succ_of_lt hi)
    rw [List.range_succ, List.flatMap_append, List.flatMap_singleton]
    by_cases hin : i < n
    · rw [← ih (fun i hi => hf i (Nat.lt_succ_of_lt hi)) hin]
      refine rowAt_eq (length_rowAt hin hinit) fun k hk => ?_
      rw [List.getElem?_append_left (by rw [hinit]; exact row_lt hin hk), getElem?_rowAt hk]
    · obtain rfl : i = n := by omega
      rw [rowAt, List.drop_left' hinit]
      exact List.take_of_length_le (Nat.le_of_eq (hf i hi))

section Rows
variable {P Q : ℕ → Prop} {row : ℕ → List α}

/-- A row of rows. -/
theorem rowAt_rowAt {m j : ℕ} (hj : j < m) :
    rowAt w (rowAt (m * w) xs i) j = rowAt w xs (i * m + j) := by
  have hle : j * w + w ≤ m * w := by
    rw [← Nat.succ_mul]
    exact Nat.mul_le_mul_right w hj
  rw [rowAt, rowAt, rowAt, List.drop_take, List.drop_drop, List.take_take, Nat.min_eq_left (by omega),
    Nat.add_mul, Nat.mul_assoc]

/-- A buffer of `n` rows of which those in `P` have been written. -/
structure RowsDone (n w : ℕ) (row : ℕ → List α) (P : ℕ → Prop) (xs : List α) : Prop where
  length_eq : xs.length = n * w
  get : ∀ i < n, P i → rowAt w xs i = row i

theorem RowsDone.none (h : xs.length = n * w) (hP : ∀ i < n, ¬P i) : RowsDone n w row P xs :=
  ⟨h, fun i hi hp => absurd hp (hP i hi)⟩

theorem RowsDone.mono (h : RowsDone n w row P xs) (hQ : ∀ i < n, Q i → P i) :
    RowsDone n w row Q xs :=
  ⟨h.length_eq, fun i hi hq => h.get i hi (hQ i hi hq)⟩

/-- One more row is written. -/
theorem RowsDone.write (h : RowsDone n w row P xs) (hi : i < n) (hy : ys = row i)
    (hlength : (row i).length = w) (ha : a = i * w) (hb : b = i * w + w)
    (hQ : ∀ j < n, Q j → P j ∨ j = i) :
    ∃ r, (writeSlice xs a b ys : Code ε (List α)) = .ok r ∧ RowsDone n w row Q r := by
  obtain ⟨r, hr, hsame, hset, hkept⟩ := writeSlice_row (ε := ε) hi h.length_eq (hy ▸ hlength) ha hb
  refine ⟨r, hr, hsame, fun j hj hq => ?_⟩
  by_cases he : j = i
  · rw [he, hset, hy]
  · rw [hkept j hj he]
    exact h.get j hj ((hQ j hj hq).resolve_right he)

theorem RowsDone.eq_flatMap (h : RowsDone n w row P xs) (hP : ∀ i < n, P i) :
    xs = (List.range n).flatMap row :=
  RowBuffers.eq_flatMap h.length_eq fun i hi => h.get i hi (hP i hi)

end Rows

section Filling
variable {P Q : ℕ → ℕ → Prop} {cell : ℕ → ℕ → α} {buffer : List α}

/-- A buffer of `n` rows whose cells in `P` have been written. -/
structure Filled (n w : ℕ) (cell : ℕ → ℕ → α) (P : ℕ → ℕ → Prop) (buffer : List α) : Prop where
  length_eq : buffer.length = n * w
  get : ∀ i < n, ∀ j < w, P i j → buffer[i * w + j]? = some (cell i j)

theorem Filled.replicate (v : α) : Filled n w cell (fun _ _ => False) (List.replicate (n * w) v) :=
  ⟨List.length_replicate, fun _ _ _ _ h => h.elim⟩

theorem Filled.mono (h : Filled n w cell P buffer) (hQ : ∀ i < n, ∀ j < w, Q i j → P i j) :
    Filled n w cell Q buffer :=
  ⟨h.length_eq, fun i hi j hj hq => h.get i hi j hj (hQ i hi j hj hq)⟩

/-- A rectangle of cells is written. -/
theorem Filled.rectangle {t r R C : ℕ} {val : ℕ × ℕ → α → Code ε α} (h : Filled n w cell P buffer)
    (hR : t + R ≤ n) (hC : r + C ≤ w)
    (hval : ∀ j : ℕ × ℕ, j.1 < R → j.2 < C → ∀ c, val j c = .ok (cell (t + j.1) (r + j.2)))
    (hQ : ∀ i < n, ∀ j < w, Q i j → P i j ∨ (t ≤ i ∧ i < t + R) ∧ r ≤ j ∧ j < r + C) :
    Ends (Filled n w cell Q) (fun _ => False) ((List.range R ×ˢ List.range C).foldlM
      (fun buffer j => update buffer (LoopOutcomes.rectangle w t r j) (val j)) buffer) := by
  have hlength : (t + R) * w ≤ buffer.length := by
    rw [h.length_eq]
    exact Nat.mul_le_mul_right w hR
  obtain ⟨b, hb, hsame, hset, hkept⟩ := rectangle_eq_ok
    (g := fun j _ => cell (t + j.1) (r + j.2)) hval hC hlength
  rw [hb]
  refine ⟨hsame.trans h.length_eq, fun i hi j hj hq => ?_⟩
  by_cases hin : (t ≤ i ∧ i < t + R) ∧ r ≤ j ∧ j < r + C
  · obtain ⟨⟨hti, hiR⟩, hrj, hjC⟩ := hin
    have hplace : LoopOutcomes.rectangle w t r (i - t, j - r) = i * w + j := by
      simp only [LoopOutcomes.rectangle]
      congr 2 <;> omega
    have hcell := hset (i - t, j - r) (by dsimp only; omega) (by dsimp only; omega)
    have hlt : i * w + j < buffer.length := by
      rw [h.length_eq]
      exact row_lt hi hj
    rw [hplace, List.getElem?_eq_getElem hlt] at hcell
    rw [hcell]
    simp only [Option.map_some]
    congr 2 <;> omega
  · have hp := ((hQ i hi j hj hq).resolve_right hin)
    rw [hkept, h.get i hi j hj hp]
    intro x hx₁ hx₂ heq
    obtain ⟨hrow, hcol⟩ := row_inj (show r + x.2 < w by omega) hj heq
    exact hin ⟨by omega, by omega⟩

/-- A buffer all of whose cells are written. -/
theorem Filled.eq_flatMap (h : Filled n w cell (fun _ _ => True) buffer) :
    buffer = (List.range n).flatMap fun i => (List.range w).map (cell i) := by
  refine RowBuffers.eq_flatMap h.length_eq fun i hi => ?_
  refine rowAt_eq (by rw [List.length_map, List.length_range]) fun k hk => ?_
  rw [h.get i hi k hk trivial, List.getElem?_map, List.getElem?_range hk, Option.map_some]

end Filling

end IcLaya.RowBuffers
