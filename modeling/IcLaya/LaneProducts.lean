import IcLaya.FixedPointEpilogue
import IcLaya.Int8Products
import IcLaya.LaneChunks

/-!
# The same products in lanes (`int8.rs`, `q8_ops.rs`, wasm32)

Sixteen bytes are taken at a time and four sums are kept for each cell; the main loop takes two such
chunks a round. No lane wraps, so the lanes together hold the plain sum.
-/
namespace IcLaya
open Fallible PanickingCode LoopOutcomes RowBuffers StoreLoops WordStreams LaneChunks
open Epilogue (wrap32)

section Lanes
variable {ε : Type}

/-- `i32x4_dot_i16x8` of bytes that were extended: the products of neighbours are added. -/
def dotLanes : List Int8 → List Int8 → List ℤ
  | x₀ :: x₁ :: xs, y₀ :: y₁ :: ys =>
    wrap32 (x₀.toInt * y₀.toInt + x₁.toInt * y₁.toInt) :: dotLanes xs ys
  | _, _ => []

/-- `i32x4_extadd_pairwise_i16x8` of bytes that were extended. -/
def pairLanes : List Int8 → List ℤ
  | x₀ :: x₁ :: xs => (x₀.toInt + x₁.toInt) :: pairLanes xs
  | _ => []

/-- `i32x4_add` -/
def addLanes (a b : List ℤ) : List ℤ := List.zipWith (fun a b => wrap32 (a + b)) a b

/-- What sixteen pairs of bytes add to the four lanes. -/
def chunkDots (x y : List Int8) : List ℤ :=
  addLanes (dotLanes (x.take 8) (y.take 8)) (dotLanes (x.drop 8) (y.drop 8))

/-- What sixteen bytes add to the four lanes. -/
def chunkSums (x : List Int8) : List ℤ := addLanes (pairLanes (x.take 8)) (pairLanes (x.drop 8))

theorem wrap32_eq {n : ℤ} (h : |n| < 2 ^ 31) : wrap32 n = n := by
  rw [abs_lt] at h
  unfold wrap32
  rw [Int.bmod_eq_of_le] <;> omega

theorem dot_cons (x y : Int8) (xs ys : List Int8) :
    dot (x :: xs) (y :: ys) = x.toInt * y.toInt + dot xs ys := by
  simp [dot]

/-- Lanes that hold a number together, each of them small. -/
structure Held (v : ℤ) (bound : ℤ) (lanes : List ℤ) : Prop where
  length_eq : lanes.length = 4
  sum_eq : lanes.sum = v
  small : ∀ l ∈ lanes, |l| ≤ bound

/-- Two products of bytes. -/
theorem abs_pair (x₀ x₁ y₀ y₁ : Int8) :
    |x₀.toInt * y₀.toInt + x₁.toInt * y₁.toInt| ≤ 2 ^ 15 := by
  have hadd := abs_add_le (x₀.toInt * y₀.toInt) (x₁.toInt * y₁.toInt)
  have h₀ := abs_product x₀ y₀
  have h₁ := abs_product x₁ y₁
  omega

/-- The lanes of pairs: half as many as bytes, of the same sum. -/
theorem dotLanes_spec {n : ℕ} {x y : List Int8} (hx : x.length = 2 * n) (hy : y.length = 2 * n) :
    (dotLanes x y).length = n ∧ (dotLanes x y).sum = dot x y ∧ ∀ l ∈ dotLanes x y, |l| ≤ 2 ^ 15 := by
  induction n generalizing x y with
  | zero =>
    obtain rfl := List.eq_nil_of_length_eq_zero hx
    obtain rfl := List.eq_nil_of_length_eq_zero hy
    exact ⟨rfl, rfl, fun l hl => absurd hl List.not_mem_nil⟩
  | succ n ih =>
    obtain ⟨x₀, x, rfl⟩ := List.exists_cons_of_length_eq_add_one hx
    obtain ⟨x₁, x, rfl⟩ := List.exists_cons_of_length_eq_add_one (Nat.succ.inj hx)
    obtain ⟨y₀, y, rfl⟩ := List.exists_cons_of_length_eq_add_one hy
    obtain ⟨y₁, y, rfl⟩ := List.exists_cons_of_length_eq_add_one (Nat.succ.inj hy)
    obtain ⟨hlength, hsum, hsmall⟩ := ih (x := x) (y := y) (by simp at hx; omega)
      (by simp at hy; omega)
    have hpair := abs_pair x₀ x₁ y₀ y₁
    rw [dotLanes, wrap32_eq (hpair.trans_lt (by norm_num))]
    refine ⟨by rw [List.length_cons, hlength], ?_, ?_⟩
    · rw [List.sum_cons, hsum, dot_cons, dot_cons, Int.add_assoc]
    · intro l hl
      rcases List.mem_cons.mp hl with rfl | hl
      · exact hpair
      · exact hsmall l hl

theorem addLanes_held {u v b c : ℤ} {xs ys : List ℤ} (hx : Held u b xs) (hy : Held v c ys)
    (hbc : b + c < 2 ^ 31) : Held (u + v) (b + c) (addLanes xs ys) := by
  have hadd : addLanes xs ys = List.zipWith (fun a b => a + b) xs ys := by
    refine List.ext_getElem (by simp [addLanes]) fun i h₁ h₂ => ?_
    simp only [addLanes, List.getElem_zipWith]
    have hi : i < xs.length ∧ i < ys.length := by
      rw [List.length_zipWith] at h₂
      omega
    exact wrap32_eq (((abs_add_le _ _).trans (add_le_add (hx.small _ (List.getElem_mem hi.1))
      (hy.small _ (List.getElem_mem hi.2)))).trans_lt hbc)
  rw [hadd]
  refine ⟨by rw [List.length_zipWith, hx.length_eq, hy.length_eq]; rfl, ?_, fun l hl => ?_⟩
  · have hsum : ∀ (xs ys : List ℤ), xs.length = ys.length →
        (List.zipWith (fun a b => a + b) xs ys).sum = xs.sum + ys.sum := by
      intro xs
      induction xs with
      | nil => intro ys hys; obtain rfl := List.eq_nil_of_length_eq_zero hys.symm; rfl
      | cons x xs ih =>
        intro ys hys
        obtain ⟨y, ys, rfl⟩ := List.exists_cons_of_length_eq_add_one hys.symm
        rw [List.zipWith_cons_cons, List.sum_cons, ih ys (Nat.succ.inj hys), List.sum_cons,
          List.sum_cons]
        omega
    rw [hsum xs ys (hx.length_eq.trans hy.length_eq.symm), hx.sum_eq, hy.sum_eq]
  · obtain ⟨i, hi, rfl⟩ := List.getElem_of_mem hl
    rw [List.getElem_zipWith]
    have hlt : i < xs.length ∧ i < ys.length := by
      rw [List.length_zipWith] at hi
      omega
    exact (abs_add_le _ _).trans (add_le_add (hx.small _ (List.getElem_mem hlt.1))
      (hy.small _ (List.getElem_mem hlt.2)))

theorem dot_append {x₁ x₂ y₁ y₂ : List Int8} (h : x₁.length = y₁.length) :
    dot (x₁ ++ x₂) (y₁ ++ y₂) = dot x₁ y₁ + dot x₂ y₂ := by
  rw [dot, List.zipWith_append h, List.sum_append]
  rfl

theorem chunkDots_held {x y : List Int8} (hx : x.length = 16) (hy : y.length = 16) :
    Held (dot x y) (2 ^ 16) (chunkDots x y) := by
  have hhalf : ∀ {u v : List Int8}, u.length = 8 → v.length = 8 →
      Held (dot u v) (2 ^ 15) (dotLanes u v) := by
    intro u v hu hv
    obtain ⟨hlength, hsum, hsmall⟩ := dotLanes_spec (n := 4) hu hv
    exact ⟨hlength, hsum, hsmall⟩
  have htake : (x.take 8).length = 8 ∧ (y.take 8).length = 8 := by
    rw [List.length_take, List.length_take]
    omega
  have hdrop : (x.drop 8).length = 8 ∧ (y.drop 8).length = 8 := by
    rw [List.length_drop, List.length_drop]
    omega
  have hsum := addLanes_held (hhalf htake.1 htake.2) (hhalf hdrop.1 hdrop.2) (by norm_num)
  rwa [← dot_append (htake.1.trans htake.2.symm), List.take_append_drop, List.take_append_drop,
    show (2 ^ 15 : ℤ) + 2 ^ 15 = 2 ^ 16 by norm_num] at hsum

/-- A sum of neighbours is a product with ones. -/
theorem pairLanes_eq {n : ℕ} {x : List Int8} (hx : x.length = 2 * n) :
    pairLanes x = dotLanes x (List.replicate x.length 1) := by
  induction n generalizing x with
  | zero =>
    obtain rfl := List.eq_nil_of_length_eq_zero hx
    rfl
  | succ n ih =>
    obtain ⟨x₀, x, rfl⟩ := List.exists_cons_of_length_eq_add_one hx
    obtain ⟨x₁, x, rfl⟩ := List.exists_cons_of_length_eq_add_one (Nat.succ.inj hx)
    have hsmall : |x₀.toInt + x₁.toInt| < 2 ^ 31 := by
      have hadd := abs_add_le x₀.toInt x₁.toInt
      have h₀ := abs_toInt x₀
      have h₁ := abs_toInt x₁
      omega
    rw [List.length_cons, List.length_cons, List.replicate_succ, List.replicate_succ, dotLanes,
      pairLanes, ih (by simp at hx; omega), show (1 : Int8).toInt = 1 by rfl, Int.mul_one,
      Int.mul_one, wrap32_eq hsmall]

theorem chunkSums_eq {x : List Int8} (hx : x.length = 16) :
    chunkSums x = chunkDots x (List.replicate 16 1) := by
  have htake : (x.take 8).length = 8 := by
    rw [List.length_take]
    omega
  have hdrop : (x.drop 8).length = 8 := by
    rw [List.length_drop]
    omega
  rw [chunkSums, pairLanes_eq (n := 4) htake, pairLanes_eq (n := 4) hdrop, htake, hdrop]
  rfl

/-- One chunk further in two rows. -/
theorem Held.chunk {x y : List Int8} {lanes : List ℤ} {k : ℕ} (hx : k + 16 ≤ x.length)
    (hy : k + 16 ≤ y.length) (hk : k + 16 ≤ 16384)
    (h : Held (dot (x.take k) (y.take k)) (k * 2 ^ 12) lanes) :
    Held (dot (x.take (k + 16)) (y.take (k + 16))) ((k + 16 : ℕ) * 2 ^ 12)
      (addLanes lanes (chunkDots ((x.drop k).take 16) ((y.drop k).take 16))) := by
  have hchunk : ∀ {u : List Int8}, k + 16 ≤ u.length → ((u.drop k).take 16).length = 16 := by
    intro u hu
    rw [List.length_take, List.length_drop]
    omega
  have hsame : (x.take k).length = (y.take k).length := by
    rw [List.length_take, List.length_take]
    omega
  have hadd := addLanes_held h (chunkDots_held (hchunk hx) (hchunk hy)) (by push_cast; omega)
  rw [← dot_append hsame, ← List.take_add, ← List.take_add] at hadd
  have hbound : (k : ℤ) * 2 ^ 12 + 2 ^ 16 = ((k + 16 : ℕ) : ℤ) * 2 ^ 12 := by
    push_cast
    ring
  rwa [hbound] at hadd

end Lanes

section Kernels
variable {ε : Type}

/-- The body of the chunk loop of `dot_tile` (wasm32): every cell takes in its chunk. -/
def chunkStep (R C : ℕ) (a b : List Int8) (cols : ℕ) (acc : List (List (List ℤ))) (offset : ℕ) :
    Code ε (List (List (List ℤ))) :=
  (List.range R).mapM fun i => do
    let x ← slice a (i * cols + offset) (i * cols + offset + 16)
    (List.range C).mapM fun j => do
      let y ← slice b (j * cols + offset) (j * cols + offset + 16)
      let lanes ← unwrap (acc[i]?.bind fun row => row[j]?)
      pure (addLanes lanes (chunkDots x y))

/-- The accumulator of `dot_tile` (wasm32) once the chunks before `stop` are taken in. -/
def tileLanes (R C : ℕ) (a b : List Int8) (cols stop : ℕ) : Code ε (List (List (List ℤ))) :=
  unrolled 16 (by norm_num) (chunkStep R C a b cols) stop 0
    (List.replicate R (List.replicate C (List.replicate 4 0)))

/-- `dot_tile` (wasm32) -/
def dotTileLanes (R C : ℕ) (a b : List Int8) (cols : ℕ) : Code ε (List (List ℤ)) := do
  unwrap (if R ≤ 64 ∧ C ≤ 16 ∧ cols ≤ 16384 ∧ a.length = R * cols ∧ b.length = C * cols then some ()
    else none)
  let stop := cols / 16 * 16
  let acc ← tileLanes R C a b cols stop
  (List.range R).mapM fun i => (List.range C).mapM fun j => do
    let lanes ← unwrap (acc[i]?.bind fun row => row[j]?)
    let sum ← lanes.tail.foldlM add32 (lanes.headD 0)
    (List.range (cols - stop)).foldlM (fun sum k => do
      let x ← unwrap a[i * cols + (stop + k)]?
      let y ← unwrap b[j * cols + (stop + k)]?
      add32 sum (x.toInt * y.toInt)) sum

def statistics (src : List Int8) : Code ε (ℤ × ℤ) := do
  unwrap (if src ≠ [] ∧ src.length ≤ 16384 then some () else none)
  pure (src.foldl (fun (sum, squares) v => (sum + v.toInt, squares + v.toInt * v.toInt)) (0, 0))

/-- The lanes of the sum and of the squares over some chunks. -/
def sumLanes (chunks : List (List Int8)) : List ℤ × List ℤ :=
  chunks.foldl (fun (sum, squares) v => (addLanes sum (chunkSums v), addLanes squares (chunkDots v v)))
    (List.replicate 4 0, List.replicate 4 0)

/-- `statistics` (wasm32); the lanes are summed in 64 bits. -/
def statisticsLanes (src : List Int8) : Code ε (ℤ × ℤ) := do
  unwrap (if src ≠ [] ∧ src.length ≤ 16384 then some () else none)
  let (sum, squares) := sumLanes (chunksExact 16 src)
  pure ((tail 16 src).foldl (fun (sum, squares) v => (sum + v.toInt, squares + v.toInt * v.toInt))
    (sum.sum, squares.sum))

variable {a b : List Int8} {R C cols : ℕ}

/-- The cells of the accumulator after `k` columns. -/
def Accumulated (R C cols : ℕ) (a b : List Int8) (k : ℕ) (acc : List (List (List ℤ))) : Prop :=
  ∀ i < R, ∃ row, acc[i]? = some row ∧ ∀ j < C, ∃ lanes, row[j]? = some lanes ∧
    Held (dot ((rowAt cols a i).take k) ((rowAt cols b j).take k)) (k * 2 ^ 12) lanes

/-- A chunk of a row is loaded. -/
theorem slice_chunk {n i k : ℕ} (hi : i < n) (ha : a.length = n * cols) (hk : k + 16 ≤ cols) :
    (slice a (i * cols + k) (i * cols + k + 16) : Code ε (List Int8)) =
      .ok (((rowAt cols a i).drop k).take 16) := by
  have hle := le_of_row hi ha
  rw [slice_of_le (Nat.le_add_right _ 16) (by omega), Nat.add_sub_cancel_left, rowAt, List.drop_take,
    List.drop_drop, List.take_take, min_eq_left (by omega)]

theorem chunkStep_ends {k : ℕ} {acc : List (List (List ℤ))} (ha : a.length = R * cols)
    (hb : b.length = C * cols) (hcols : cols ≤ 16384) (hk : k + 16 ≤ cols)
    (h : Accumulated R C cols a b k acc) :
    Ends (Accumulated R C cols a b (k + 16)) (fun _ : Fault ε => False)
      (chunkStep R C a b cols acc k) := by
  refine Ends.mapM_range fun i hi => ?_
  obtain ⟨row, hrow, hlanes⟩ := h i hi
  rw [slice_chunk hi ha hk, ok_bind]
  refine Ends.mapM_range fun j hj => ?_
  obtain ⟨lanes, hget, hheld⟩ := hlanes j hj
  rw [slice_chunk hj hb hk, ok_bind, hrow, Option.bind_some, hget]
  have hx := length_rowAt hi ha
  have hy := length_rowAt hj hb
  exact hheld.chunk (by omega) (by omega) (by omega)

/-- Four small lanes are added up. -/
theorem sumLanes_eq_ok {v bound : ℤ} {lanes : List ℤ} (h : Held v bound lanes)
    (hbound : 4 * bound < 2 ^ 31) :
    (lanes.tail.foldlM add32 (lanes.headD 0) : Code ε ℤ) = .ok v := by
  obtain ⟨l₀, rest, rfl⟩ := List.exists_cons_of_length_eq_add_one h.length_eq
  obtain ⟨l₁, rest, rfl⟩ := List.exists_cons_of_length_eq_add_one (Nat.succ.inj h.length_eq)
  obtain ⟨l₂, l₃, rfl⟩ : ∃ l₂ l₃, rest = [l₂, l₃] :=
    List.length_eq_two.mp (Nat.succ.inj (Nat.succ.inj h.length_eq))
  have hsmall : ∀ l ∈ [l₀, l₁, l₂, l₃], |l| ≤ bound := h.small
  simp only [List.mem_cons, List.not_mem_nil, or_false, forall_eq_or_imp, forall_eq, abs_le]
    at hsmall
  have hsum : l₀ + l₁ + l₂ + l₃ = v := by
    rw [← h.sum_eq]
    simp only [List.sum_cons, List.sum_nil]
    omega
  show (add32 l₀ l₁ >>= fun s => add32 s l₂ >>= fun s => add32 s l₃ >>= pure) = _
  rw [add32_eq_ok (by rw [abs_lt]; omega), ok_bind, add32_eq_ok (by rw [abs_lt]; omega), ok_bind,
    add32_eq_ok (by rw [abs_lt]; omega), ok_bind, hsum]
  rfl

/-- The loop over some chunks: every lane holds its part, and none overflows. -/
theorem tileLanes_ends (hcols : cols ≤ 16384) (ha : a.length = R * cols) (hb : b.length = C * cols)
    {n : ℕ} (hn : n ≤ cols / 16) : Ends (Accumulated R C cols a b (n * 16)) (fun _ : Fault ε => False)
      (tileLanes R C a b cols (n * 16)) := by
  have hzero : Accumulated R C cols a b 0
      (List.replicate R (List.replicate C (List.replicate 4 0))) := by
    intro i hi
    refine ⟨_, List.getElem?_replicate_of_lt hi, fun j hj =>
      ⟨_, List.getElem?_replicate_of_lt hj, rfl, ?_, fun l hl => ?_⟩⟩
    · rfl
    · rw [List.eq_of_mem_replicate hl]
      norm_num
  exact Ends.unrolled (w := by norm_num) (k := 0) (m := 0) (n := n)
    (Nat.zero_mul 16).symm rfl (Nat.zero_le _) hzero fun k acc hk h =>
      chunkStep_ends (ε := ε) ha hb hcols (by omega) h

/-- The kernel in lanes computes the plain tile, and no lane and no sum overflows. -/
theorem dotTileLanes_eq (hR : R ≤ 64) (hC : C ≤ 16) (hcols : cols ≤ 16384)
    (ha : a.length = R * cols) (hb : b.length = C * cols) :
    (dotTileLanes R C a b cols : Code ε _) = dotTile R C a b cols := by
  have hstop : cols / 16 * 16 ≤ cols := Nat.div_mul_le_self cols 16
  have hacc := tileLanes_ends (ε := ε) hcols ha hb (Nat.le_refl (cols / 16))
  rw [dotTileLanes, if_pos ⟨hR, hC, hcols, ha, hb⟩, dotTile_eq_ok ha hb hcols]
  refine Ends.eq_ok (hacc.bind fun acc hacc => ?_)
  rw [mapM_range_eq_ok fun i hi => mapM_range_eq_ok fun j hj => ?_]
  · rfl
  obtain ⟨row, hrow, hlanes⟩ := hacc i hi
  obtain ⟨lanes, hget, hheld⟩ := hlanes j hj
  rw [hrow, Option.bind_some, hget]
  show (lanes.tail.foldlM add32 (lanes.headD 0) >>= _) = _
  have hbound : 4 * ((cols / 16 * 16 : ℕ) * 2 ^ 12 : ℤ) < 2 ^ 31 := by omega
  rw [sumLanes_eq_ok hheld hbound, ok_bind]
  refine dotLoop_eq_ok hstop (length_rowAt hi ha) (length_rowAt hj hb) (fun k hk => ?_)
    (fun k hk => ?_) hcols
  · exact (getElem?_rowAt (by omega)).symm
  · exact (getElem?_rowAt (by omega)).symm

/-- The two sums of a stretch of bytes. -/
def sumsOf (src : List Int8) : ℤ × ℤ := (dot src (List.replicate src.length 1), dot src src)

theorem foldl_statistics (src : List Int8) (s : ℤ × ℤ) :
    src.foldl (fun s v => (s.1 + v.toInt, s.2 + v.toInt * v.toInt)) s =
      (s.1 + (sumsOf src).1, s.2 + (sumsOf src).2) := by
  induction src generalizing s with
  | nil => simp [sumsOf, dot]
  | cons v src ih =>
    rw [List.foldl_cons, ih]
    simp only [sumsOf, List.length_cons, List.replicate_succ, dot_cons,
      show (1 : Int8).toInt = 1 by rfl, Int.mul_one, Int.add_assoc]

theorem sumsOf_append (x y : List Int8) :
    sumsOf (x ++ y) = ((sumsOf x).1 + (sumsOf y).1, (sumsOf x).2 + (sumsOf y).2) := by
  unfold sumsOf
  rw [List.length_append, List.replicate_add, dot_append List.length_replicate.symm,
    dot_append rfl]

/-- The lanes over whole chunks hold the two sums. -/
theorem chunks_held (chunks : List (List Int8)) (h : ∀ c ∈ chunks, c.length = 16)
    (hle : chunks.length ≤ 1024) :
    Held (sumsOf chunks.flatten).1 (chunks.length * 2 ^ 16) (sumLanes chunks).1 ∧
      Held (sumsOf chunks.flatten).2 (chunks.length * 2 ^ 16) (sumLanes chunks).2 := by
  induction chunks using List.reverseRecOn with
  | nil =>
    have hzero : Held 0 ((0 : ℕ) * 2 ^ 16) (List.replicate 4 0) := by
      refine ⟨rfl, rfl, fun l hl => ?_⟩
      rw [List.eq_of_mem_replicate hl]
      norm_num
    exact ⟨hzero, hzero⟩
  | append_singleton chunks c ih =>
    rw [List.length_append, List.length_singleton] at hle ⊢
    have hc : c.length = 16 := h c (by simp)
    obtain ⟨hsum, hsquares⟩ := ih (fun c hc => h c (List.mem_append_left _ hc)) (by omega)
    have hsmall : (chunks.length * 2 ^ 16 : ℤ) + 2 ^ 16 < 2 ^ 31 := by omega
    have hnext : ((chunks.length + 1 : ℕ) * 2 ^ 16 : ℤ) = chunks.length * 2 ^ 16 + 2 ^ 16 := by
      push_cast
      ring
    have hones : (List.replicate 16 (1 : Int8)).length = 16 := List.length_replicate
    rw [List.flatten_append, List.flatten_singleton, sumsOf_append, hnext]
    simp only [sumLanes, List.foldl_append, List.foldl_cons, List.foldl_nil]
    refine ⟨addLanes_held hsum ?_ hsmall, addLanes_held hsquares (chunkDots_held hc hc) hsmall⟩
    rw [chunkSums_eq hc, sumsOf, hc]
    exact chunkDots_held hc hones

/-- The statistics in lanes are the plain ones. -/
theorem statisticsLanes_eq (src : List Int8) :
    (statisticsLanes src : Code ε _) = statistics src := by
  unfold statisticsLanes statistics
  by_cases h : src ≠ [] ∧ src.length ≤ 16384
  · rw [if_pos h]
    have hchunks := chunks_held (chunksExact 16 src)
      (fun c hc => length_of_mem_chunksExact hc) (by
        rw [chunksExact, List.length_map, List.length_range]
        omega)
    refine congrArg Except.ok ?_
    show (tail 16 src).foldl (fun s v => (s.1 + v.toInt, s.2 + v.toInt * v.toInt)) _ =
      src.foldl (fun s v => (s.1 + v.toInt, s.2 + v.toInt * v.toInt)) _
    rw [foldl_statistics, foldl_statistics]
    have hsums := sumsOf_append (chunksExact 16 src).flatten (tail 16 src)
    rw [flatten_chunksExact] at hsums
    rw [hsums, ← hchunks.1.sum_eq, ← hchunks.2.sum_eq]
    simp [sumLanes]
  · rw [if_neg h]
    rfl

/-- The kernels in lanes are the plain ones: a tile of any shape has the exact dot products, and a
row its exact sums, whatever is left over beyond the whole chunks. After any number of chunks the
four lanes of a cell hold the exact product of what was read; each of them, and each sum of two
products, is far below the end of 32 bits. -/
theorem lane_kernels_exact :
    (∀ (R C cols : ℕ) (a b : List Int8), R ≤ 64 → C ≤ 16 → cols ≤ 16384 → a.length = R * cols →
      b.length = C * cols →
      (dotTileLanes R C a b cols : Code String _) = dotTile R C a b cols ∧
        (dotTile R C a b cols : Code String _) = .ok ((List.range R).map fun i =>
          (List.range C).map fun j => dot (rowAt cols a i) (rowAt cols b j)) ∧
        ∀ n ≤ cols / 16, ∃ acc, (tileLanes R C a b cols (n * 16) : Code String _) = .ok acc ∧
          Accumulated R C cols a b (n * 16) acc) ∧
    (∀ src : List Int8, (statisticsLanes src : Code String _) = statistics src ∧
      (src.length ≤ 16384 → ∀ n, let chunks := (chunksExact 16 src).take n
        Held (sumsOf chunks.flatten).1 (chunks.length * 2 ^ 16) (sumLanes chunks).1 ∧
          Held (sumsOf chunks.flatten).2 (chunks.length * 2 ^ 16) (sumLanes chunks).2)) ∧
    (∀ x y : List Int8, x.length = 16 → y.length = 16 →
      Held (dot x y) (2 ^ 16) (chunkDots x y) ∧
        Held (dot x (List.replicate 16 1)) (2 ^ 16) (chunkSums x)) ∧
    ∀ x₀ x₁ y₀ y₁ : Int8, |x₀.toInt * y₀.toInt + x₁.toInt * y₁.toInt| ≤ 2 ^ 15 := by
  refine ⟨fun R C cols a b hR hC hcols ha hb => ⟨dotTileLanes_eq hR hC hcols ha hb,
    dotTile_eq_ok ha hb hcols, fun n hn => Ends.exists_ok (tileLanes_ends hcols ha hb hn)⟩,
    fun src => ⟨statisticsLanes_eq src, fun hsrc n => chunks_held _ (fun c hc =>
      length_of_mem_chunksExact (List.mem_of_mem_take hc)) ?_⟩, fun x y hx hy =>
    ⟨chunkDots_held hx hy, ?_⟩, abs_pair⟩
  · rw [List.length_take, chunksExact, List.length_map, List.length_range]
    omega
  · rw [chunkSums_eq hx]
    exact chunkDots_held hx List.length_replicate

/-- A chunk and a tail of the lowest bytes. -/
theorem lane_kernels_exact_sample :
    (dotTileLanes 1 1 (List.replicate 17 (-128)) (List.replicate 17 (-128)) 17 : Code String _) =
      .ok [[278528]] := by
  have htile := lane_kernels_exact.1 1 1 17 (List.replicate 17 (-128)) (List.replicate 17 (-128))
    (by decide) (by decide) (by decide) rfl rfl
  exact htile.1.trans (htile.2.1.trans (by decide +kernel))

end Kernels

end IcLaya
