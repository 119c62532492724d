import IcLaya.StoreLoops
import Mathlib.Data.List.Nodup
import Mathlib.Data.List.Forall2

/-!
# Outcomes of loops

What a fallible computation returns and how it fails, in one statement, with a rule for each way
computations are put together: one after the other, a counting loop, and a loop that takes a range
in tiles of several sizes.
-/
namespace IcLaya.LoopOutcomes
open Fallible PanickingCode StoreLoops

variable {ε α β σ ι : Type}

/-- A computation that returns has `Q`, and one that fails has `E`. -/
def Ends (Q : α → Prop) (E : ε → Prop) : Except ε α → Prop
  | .ok a => Q a
  | .error e => E e

section Rules
variable {Q : α → Prop} {R : β → Prop} {E : ε → Prop} {x : Except ε α}

theorem Ends.mono {Q' : α → Prop} {E' : ε → Prop} (h : Ends Q E x) (hq : ∀ a, Q a → Q' a)
    (he : ∀ e, E e → E' e) : Ends Q' E' x := by
  cases x with
  | ok a => exact hq a h
  | error e => exact he e h

theorem Ends.imp {Q' : α → Prop} (h : Ends Q E x) (hq : ∀ a, Q a → Q' a) : Ends Q' E x :=
  h.mono hq fun _ he => he

theorem Ends.bind {f : α → Except ε β} (h : Ends Q E x) (hf : ∀ a, Q a → Ends R E (f a)) :
    Ends R E (x >>= f) := by
  cases x with
  | ok a => exact hf a h
  | error e => exact h

theorem Ends.ok {a : α} (h : Ends Q E x) (hx : x = .ok a) : Q a := by
  rw [hx] at h
  exact h

theorem Ends.error {e : ε} (h : Ends Q E x) (hx : x = .error e) : E e := by
  rw [hx] at h
  exact h

theorem Ends.exists_ok (h : Ends Q (fun _ => False) x) : ∃ a, x = .ok a ∧ Q a := by
  cases x with
  | ok a => exact ⟨a, rfl, h⟩
  | error e => exact h.elim

/-- A computation that cannot fail and returns one value only. -/
theorem Ends.eq_ok {b : α} (h : Ends (fun a => a = b) (fun _ => False) x) : x = .ok b := by
  cases x with
  | ok a => exact congrArg Except.ok h
  | error e => exact h.elim

end Rules

section Counting
variable {E : ε → Prop} {I : ℕ → σ → Prop} {f : σ → ℕ → Except ε σ} {n : ℕ} {s : σ}

/-- `for k in 0..n`: what every round preserves holds after the last one. -/
theorem Ends.range (h : I 0 s)
    (hbody : ∀ k s, k < n → I k s → Ends (I (k + 1)) E (f s k)) :
    Ends (I n) E ((List.range n).foldlM f s) := by
  induction n with
  | zero => exact h
  | succ n ih =>
    rw [List.range_succ, List.foldlM_append]
    refine (ih fun k s hk => hbody k s (Nat.lt_succ_of_lt hk)).bind fun s hs => ?_
    rw [List.foldlM_cons]
    refine (hbody n s (Nat.lt_succ_self n) hs).bind fun s hs => ?_
    exact hs

/-- `for (k, x) in xs.iter().enumerate()`. -/
theorem Ends.zipIdx {l : List α} {f : σ → α × ℕ → Except ε σ} (h : I 0 s)
    (hbody : ∀ k x s, l[k]? = some x → I k s → Ends (I (k + 1)) E (f s (x, k))) :
    Ends (I l.length) E (l.zipIdx.foldlM f s) := by
  have hloop : ∀ (ys : List α) (k : ℕ) (s : σ), l.drop k = ys → k + ys.length = l.length →
      I k s → Ends (I l.length) E ((ys.zipIdx k).foldlM f s) := by
    intro ys
    induction ys with
    | nil =>
      intro k s _ hlen hs
      rw [← hlen]
      exact hs
    | cons y ys ih =>
      intro k s hdrop hlen hs
      have hget : l[k]? = some y := by
        rw [← List.head?_drop, hdrop]
        rfl
      rw [List.zipIdx_cons, List.foldlM_cons]
      refine (hbody k y s hget hs).bind fun s hs => ih (k + 1) s ?_ ?_ hs
      · rw [← List.drop_drop, hdrop]
        rfl
      · rw [← hlen, List.length_cons]
        omega
  exact hloop l 0 s rfl (Nat.zero_add _) h

/-- A loop that collects what its rounds return. -/
theorem mapM_range_eq_ok {f : ℕ → Except ε α} {g : ℕ → α} (h : ∀ k < n, f k = .ok (g k)) :
    (List.range n).mapM f = .ok ((List.range n).map g) := by
  have hall : ∀ xs : List ℕ, (∀ k ∈ xs, k < n) → xs.mapM f = .ok (xs.map g) := by
    intro xs hxs
    induction xs with
    | nil => rfl
    | cons k xs ih =>
      rw [List.mapM_cons, h k (hxs k List.mem_cons_self), ok_bind,
        ih fun j hj => hxs j (List.mem_cons_of_mem k hj)]
      rfl
  exact hall _ fun k hk => List.mem_range.mp hk

/-- A loop that collects fails where one of its rounds does. -/
theorem Ends.mapM {f : α → Except ε β} {xs : List α} {Q : α → β → Prop}
    (h : ∀ x ∈ xs, Ends (Q x) E (f x)) : Ends (List.Forall₂ Q xs) E (xs.mapM f) := by
  induction xs with
  | nil => exact List.Forall₂.nil
  | cons x xs ih =>
    rw [List.mapM_cons]
    refine (h x List.mem_cons_self).bind fun y hy => ?_
    refine (ih fun z hz => h z (List.mem_cons_of_mem x hz)).bind fun ys hys => ?_
    exact List.Forall₂.cons hy hys

/-- A loop over a range that collects. -/
theorem Ends.mapM_range {n : ℕ} {f : ℕ → Except ε α} {Q : ℕ → α → Prop}
    (h : ∀ k < n, Ends (Q k) E (f k)) :
    Ends (fun ys => ∀ k < n, ∃ y, ys[k]? = some y ∧ Q k y) E ((List.range n).mapM f) := by
  refine (Ends.mapM fun k hk => h k (List.mem_range.mp hk)).imp fun ys hys k hk => ?_
  have hlength : k < ys.length := by
    rw [← hys.length_eq, List.length_range]
    exact hk
  refine ⟨ys[k], List.getElem?_eq_getElem hlength, ?_⟩
  have hget := hys.get (by rw [List.length_range]; exact hk) hlength
  rwa [List.get_eq_getElem, List.get_eq_getElem, List.getElem_range] at hget

/-- Each entry of a collected list is what its round returned. -/
theorem forall₂_of_mapM {f : α → Except ε β} {xs : List α} {ys : List β}
    (h : xs.mapM f = .ok ys) : List.Forall₂ (fun x y => f x = .ok y) xs ys := by
  have hself : ∀ x, Ends (fun y => f x = .ok y) (fun _ => True) (f x) := by
    intro x
    cases f x with
    | ok y => exact rfl
    | error e => exact trivial
  exact (Ends.mapM fun x _ => hself x).ok h

end Counting

section Tiles

/-- How large the next tile is, by how much of the range is left. -/
structure TileSizes where
  pick : ℕ → ℕ
  pos : ∀ left, 0 < left → 0 < pick left
  le : ∀ left, 0 < left → pick left ≤ left

/-- `while t < n { body(size, t); t += size }`. -/
def tileLoop (sizes : TileSizes) (body : ℕ → ℕ → σ → Except ε σ) (n t : ℕ) (s : σ) : Except ε σ :=
  if t < n then do
    let size := sizes.pick (n - t)
    let s ← body size t s
    tileLoop sizes body n (t + size) s
  else .ok s
termination_by n - t
decreasing_by
  have hpos := sizes.pos (n - t) (by omega)
  omega

variable {S : TileSizes} {E : ε → Prop} {I : ℕ → σ → Prop} {f : ℕ → ℕ → σ → Except ε σ}
  {n t : ℕ} {s : σ}

/-- The tiles follow each other without a gap up to the end of the range. -/
theorem Ends.tiles (h : I t s) (ht : t ≤ n)
    (hbody : ∀ size t s, t + size ≤ n → I t s → Ends (I (t + size)) E (f size t s)) :
    Ends (I n) E (tileLoop S f n t s) := by
  induction hk : n - t using Nat.strongRecOn generalizing t s with
  | _ k ih =>
    rw [tileLoop]
    by_cases hlt : t < n
    · have hle := S.le (n - t) (by omega)
      have hpos := S.pos (n - t) (by omega)
      rw [if_pos hlt]
      refine (hbody _ t s (by omega) h).bind fun s hs => ?_
      exact ih (n - (t + S.pick (n - t))) (by omega) hs (by omega) rfl
    · obtain rfl : t = n := by omega
      rw [if_neg hlt]
      exact h

end Tiles

section Unrolling
variable {E : ε → Prop}

/-- `while k + width < stop { body(k); body(k + width); k += 2 * width }` and, if one chunk is left,
its round. -/
def unrolled (width : ℕ) (hwidth : 0 < width) (body : σ → ℕ → Except ε σ) (stop k : ℕ) (s : σ) :
    Except ε σ :=
  if k + width < stop then do
    let s ← body s k
    let s ← body s (k + width)
    unrolled width hwidth body stop (k + 2 * width) s
  else if k < stop then body s k
  else .ok s
termination_by stop - k

/-- Every chunk is taken once, in order. -/
theorem Ends.unrolled {width stop k m n : ℕ} {w : 0 < width} {body : σ → ℕ → Except ε σ}
    {I : ℕ → σ → Prop} {s : σ} (hk : k = m * width) (hstop : stop = n * width) (hle : k ≤ stop)
    (h : I k s) (hbody : ∀ k s, k + width ≤ stop → I k s → Ends (I (k + width)) E (body s k)) :
    Ends (I stop) E (unrolled width w body stop k s) := by
  induction hj : stop - k using Nat.strongRecOn generalizing k m s with
  | _ j ih =>
    have hmn : ∀ d, m + d < n → k + d * width + width ≤ stop := by
      intro d hd
      have := Nat.mul_le_mul_right width hd
      rw [Nat.succ_mul, Nat.add_mul] at this
      omega
    rw [LoopOutcomes.unrolled]
    by_cases htwo : k + width < stop
    · have hm : m + 1 < n := by
        rw [hk, hstop, ← Nat.succ_mul] at htwo
        exact Nat.lt_of_mul_lt_mul_right htwo
      have hnext := hmn 1 hm
      rw [if_pos htwo]
      refine (hbody k s (by omega) h).bind fun s hs => ?_
      refine (hbody (k + width) s (by omega) hs).bind fun s hs => ?_
      rw [show k + width + width = k + 2 * width by omega] at hs
      exact ih _ (by omega) (show k + 2 * width = (m + 2) * width by rw [hk, Nat.add_mul])
        (by omega) hs rfl
    · rw [if_neg htwo]
      by_cases hone : k < stop
      · have hm : m < n := by
          rw [hk, hstop] at hone
          exact Nat.lt_of_mul_lt_mul_right hone
        have hend : k + width = stop := by
          have := hmn 0 hm
          omega
        rw [if_pos hone, ← hend]
        exact hbody k s (by omega) h
      · obtain rfl : k = stop := by omega
        rw [if_neg hone]
        exact h

end Unrolling

section Updates
variable {js : List ι} {dst : ι → ℕ} {val : ι → α → Code ε α} {buffer : List α}

/-- `buffer[k] = f(buffer[k])`. -/
def update (buffer : List α) (k : ℕ) (f : α → Code ε α) : Code ε (List α) := do
  let old ← unwrap buffer[k]?
  let new ← f old
  pure (buffer.set k new)

/-- Rounds that update one cell each, no two of them the same one. -/
theorem updates_eq_ok {g : ι → α → α} (hval : ∀ j ∈ js, ∀ c, val j c = .ok (g j c))
    (hdst : ∀ j ∈ js, dst j < buffer.length)
    (hinj : ∀ i ∈ js, ∀ j ∈ js, dst i = dst j → i = j) (hnodup : js.Nodup) :
    ∃ r, js.foldlM (fun buffer j => update buffer (dst j) (val j)) buffer = .ok r ∧
      r.length = buffer.length ∧ (∀ j ∈ js, r[dst j]? = buffer[dst j]?.map (g j)) ∧
      ∀ k, (∀ j ∈ js, dst j ≠ k) → r[k]? = buffer[k]? := by
  induction js generalizing buffer with
  | nil => exact ⟨buffer, rfl, rfl, fun j hj => absurd hj List.not_mem_nil, fun k _ => rfl⟩
  | cons a js ih =>
    have ha : dst a < buffer.length := hdst a List.mem_cons_self
    obtain ⟨hnotin, hnodup⟩ := List.nodup_cons.mp hnodup
    have happart : ∀ j ∈ js, dst j ≠ dst a := fun j hj he =>
      hnotin (hinj j (List.mem_cons_of_mem a hj) a List.mem_cons_self he ▸ hj)
    have htail : ∀ j ∈ js, dst j < (buffer.set (dst a) (g a buffer[dst a])).length := by
      intro j hj
      rw [List.length_set]
      exact hdst j (List.mem_cons_of_mem a hj)
    obtain ⟨r, hr, hlength, hset, hkept⟩ := ih
      (fun j hj => hval j (List.mem_cons_of_mem a hj)) htail
      (fun i hi j hj => hinj i (List.mem_cons_of_mem a hi) j (List.mem_cons_of_mem a hj)) hnodup
    refine ⟨r, ?_, by rw [hlength, List.length_set], ?_, ?_⟩
    · have hfirst : update buffer (dst a) (val a) =
          .ok (buffer.set (dst a) (g a buffer[dst a])) := by
        rw [update, List.getElem?_eq_getElem ha]
        show (val a buffer[dst a] >>= _) = _
        rw [hval a List.mem_cons_self, ok_bind]
        rfl
      rw [List.foldlM_cons, hfirst, ok_bind]
      exact hr
    · intro j hj
      rcases List.mem_cons.mp hj with rfl | hj
      · rw [hkept (dst j) happart, List.getElem?_set_self ha, List.getElem?_eq_getElem ha]
        rfl
      · rw [hset j hj, List.getElem?_set_ne (happart j hj).symm]
    · intro k hk
      rw [hkept k fun j hj => hk j (List.mem_cons_of_mem a hj),
        List.getElem?_set_ne (hk a List.mem_cons_self)]

/-- A rectangle of cells of a buffer with rows of `width` cells. -/
def rectangle (width t r : ℕ) (j : ℕ × ℕ) : ℕ := (t + j.1) * width + (r + j.2)

theorem rectangle_inj {width t r C : ℕ} (hC : r + C ≤ width) {i j : ℕ × ℕ} (hi : i.2 < C)
    (hj : j.2 < C) (h : rectangle width t r i = rectangle width t r j) : i = j := by
  obtain ⟨hrow, hcol⟩ := row_inj (show r + i.2 < width by omega) (by omega) h
  exact Prod.ext (by omega) (by omega)

/-- A rectangle is updated cell by cell. -/
theorem rectangle_eq_ok {width t r R C : ℕ} {val : ℕ × ℕ → α → Code ε α} {g : ℕ × ℕ → α → α}
    (hval : ∀ j : ℕ × ℕ, j.1 < R → j.2 < C → ∀ c, val j c = .ok (g j c)) (hC : r + C ≤ width)
    (hR : (t + R) * width ≤ buffer.length) :
    ∃ b, (List.range R ×ˢ List.range C).foldlM
        (fun buffer j => update buffer (rectangle width t r j) (val j)) buffer = .ok b ∧
      b.length = buffer.length ∧
      (∀ j : ℕ × ℕ, j.1 < R → j.2 < C →
        b[rectangle width t r j]? = buffer[rectangle width t r j]?.map (g j)) ∧
      ∀ k, (∀ j : ℕ × ℕ, j.1 < R → j.2 < C → rectangle width t r j ≠ k) → b[k]? = buffer[k]? := by
  have hmem : ∀ j : ℕ × ℕ, j ∈ List.range R ×ˢ List.range C ↔ j.1 < R ∧ j.2 < C := by
    intro j
    rw [List.mem_product, List.mem_range, List.mem_range]
  have hdst : ∀ j ∈ List.range R ×ˢ List.range C, rectangle width t r j < buffer.length := by
    intro j hj
    obtain ⟨hi, hc⟩ := (hmem j).mp hj
    exact Nat.lt_of_lt_of_le (row_lt (by omega) (by omega)) hR
  have hcells : ∀ j ∈ List.range R ×ˢ List.range C, ∀ c, val j c = .ok (g j c) :=
    fun j hj => hval j ((hmem j).mp hj).1 ((hmem j).mp hj).2
  obtain ⟨b, hb, hlength, hset, hkept⟩ := updates_eq_ok hcells hdst
    (fun i hi j hj => rectangle_inj hC ((hmem i).mp hi).2 ((hmem j).mp hj).2)
    (List.Nodup.product List.nodup_range List.nodup_range)
  exact ⟨b, hb, hlength, fun j hi hc => hset j ((hmem j).mpr ⟨hi, hc⟩),
    fun k hk => hkept k fun j hj => hk j ((hmem j).mp hj).1 ((hmem j).mp hj).2⟩

end Updates

end IcLaya.LoopOutcomes
