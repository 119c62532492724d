import IcLaya.ModelPack
import IcLaya.QuantizedContinuation
import IcLaya.RowBuffers

/-!
# Products of signed bytes (`laya-candle/src/int8.rs`)

A product is taken in tiles: 64 to 1 rows of activations against 16 to 1 rows of weights. The tiles
of every shape leave what the plain triple loop leaves; no index leaves its buffer and no sum leaves
32 bits.
-/
namespace IcLaya
open Fallible PanickingCode LoopOutcomes RowBuffers StoreLoops

/-- The floating-point arithmetic of the engine on singles, as bits. -/
structure Singles (F : Type) where
  /-- `v as f32` -/
  ofInt : ℤ → UInt32
  add : UInt32 → UInt32 → UInt32
  sub : UInt32 → UInt32 → UInt32
  mul : UInt32 → UInt32 → UInt32
  div : UInt32 → UInt32 → UInt32
  max : UInt32 → UInt32 → UInt32
  sqrt : UInt32 → UInt32
  exp : UInt32 → UInt32
  gelu : UInt32 → UInt32
  /-- `((v - mean) * inv) as f32`, by the epsilon, the sums, the width and the scale of a row. -/
  normalized : F → ℤ × ℤ → ℕ → UInt32 → Int8 → UInt32
  /-- The sine and the cosine for a position and a pair of a head's columns. -/
  rotation : F → ℕ → ℕ → ℕ → UInt32 × UInt32

/-- The exact sum of the products. -/
def dot (xs ys : List Int8) : ℤ := (List.zipWith (fun x y => x.toInt * y.toInt) xs ys).sum

section Sums
variable {ε : Type}

/-- `i32` addition, with the overflow check. -/
def add32 (a b : ℤ) : Code ε ℤ :=
  if -2 ^ 31 ≤ a + b ∧ a + b < 2 ^ 31 then .ok (a + b) else .error .panic

theorem add32_eq_ok {a b : ℤ} (h : |a + b| < 2 ^ 31) : (add32 a b : Code ε ℤ) = .ok (a + b) := by
  rw [abs_lt] at h
  exact if_pos ⟨by omega, h.2⟩

theorem abs_toInt (x : Int8) : |x.toInt| ≤ 128 := by
  have hle := Int8.le_toInt x
  have hlt := Int8.toInt_lt x
  rw [abs_le]
  omega

theorem abs_product (x y : Int8) : |x.toInt * y.toInt| ≤ 2 ^ 14 := by
  rw [abs_mul]
  calc |x.toInt| * |y.toInt| ≤ 128 * 128 :=
        mul_le_mul (abs_toInt x) (abs_toInt y) (abs_nonneg _) (by norm_num)
    _ = 2 ^ 14 := by norm_num

theorem dot_take_succ {xs ys : List Int8} {k : ℕ} (hx : k < xs.length) (hy : k < ys.length) :
    dot (xs.take (k + 1)) (ys.take (k + 1)) =
      dot (xs.take k) (ys.take k) + xs[k].toInt * ys[k].toInt := by
  have hzip : k < (List.zipWith (fun x y => x.toInt * y.toInt) xs ys).length := by
    rw [List.length_zipWith]
    omega
  unfold dot
  rw [← List.take_zipWith, ← List.take_zipWith, List.take_add_one, List.getElem?_eq_getElem hzip,
    List.sum_append]
  simp

theorem abs_dot_take {x y : List Int8} {k : ℕ} (hx : k ≤ x.length) (hy : k ≤ y.length) :
    |dot (x.take k) (y.take k)| ≤ k * 2 ^ 14 := by
  induction k with
  | zero => simp [dot]
  | succ k ih =>
    rw [dot_take_succ hx hy]
    have hsum := abs_add_le (dot (x.take k) (y.take k)) (x[k].toInt * y[k].toInt)
    have hproduct := abs_product x[k] y[k]
    have hbound := ih (by omega) (by omega)
    push_cast
    omega

end Sums
section Tiles
variable {F ε : Type} (f : Singles F)

def dotTile (R C : ℕ) (a b : List Int8) (cols : ℕ) : Code ε (List (List ℤ)) :=
  (List.range R).mapM fun i => (List.range C).mapM fun j =>
    (List.range cols).foldlM (fun sum k => do
      let x ← unwrap a[i * cols + k]?
      let y ← unwrap b[j * cols + k]?
      add32 sum (x.toInt * y.toInt)) 0

/-- The row tiles of 64 to 1 rows. -/
def rowTiles : TileSizes where
  pick left := if 64 ≤ left then 64 else if 32 ≤ left then 32 else if 16 ≤ left then 16
    else if 8 ≤ left then 8 else if 4 ≤ left then 4 else if 2 ≤ left then 2 else 1
  pos := by grind
  le := by grind

/-- The column tiles of 16 to 1 columns. -/
def columnTiles : TileSizes where
  pick left := if 16 ≤ left then 16 else if 8 ≤ left then 8 else if 4 ≤ left then 4 else 1
  pos := by grind
  le := by grind

def storeTile (sums : List (List ℤ)) (sx : List UInt32) (w : Int8Matrix) (R C t r : ℕ)
    (out : List UInt32) : Code ε (List UInt32) :=
  (List.range R ×ˢ List.range C).foldlM (fun out j =>
    update out (rectangle w.rows t r j) fun _ => do
      let sum ← unwrap (sums[j.1]?.bind fun sums => sums[j.2]?)
      let x ← unwrap sx[t + j.1]?
      let s ← unwrap w.scales[r + j.2]?
      pure (f.mul (f.mul (f.ofInt sum) x) s)) out

def writeTile (a : List Int8) (sx : List UInt32) (w : Int8Matrix) (R t : ℕ) (out : List UInt32) :
    Code ε (List UInt32) := do
  let a ← slice a (t * w.cols) ((t + R) * w.cols)
  tileLoop columnTiles (fun C r out => do
    let b ← slice w.values (r * w.cols) ((r + C) * w.cols)
    let sums ← dotTile R C a b w.cols
    storeTile f sums sx w R C t r out) w.rows 0 out

def resize {α : Type} (xs : List α) (n : ℕ) (v : α) : List α :=
  xs.take n ++ List.replicate (n - xs.length) v

/-- The rows that are computed: three left over are padded to four. -/
def paddedTokens (tokens : ℕ) : ℕ := if tokens % 4 = 3 then (tokens + 3) / 4 * 4 else tokens

def matmul (activation : List Int8) (scales : List UInt32) (w : Int8Matrix) (tokens : ℕ) :
    Code ε (List UInt32) := do
  let padded := paddedTokens tokens
  let (a, sx) := if padded ≠ tokens then
      (resize activation (padded * w.cols) 0, resize scales padded 0x3f800000)
    else (activation, scales)
  let out ← tileLoop rowTiles (writeTile f a sx w) padded 0 (List.replicate (padded * w.rows) 0)
  pure (out.take (tokens * w.rows))

/-- `integer_dots`, into a buffer of `n` sums. -/
def integerDots (a b : List Int8) (out : List ℤ) : Code ε (List ℤ) := do
  unwrap (if a ≠ [] ∧ a.length ≤ 16384 ∧ b.length = a.length * out.length then some () else none)
  tileLoop columnTiles (fun C c sums => do
    let b ← slice b (c * a.length) ((c + C) * a.length)
    let tile ← dotTile 1 C a b a.length
    let row ← unwrap tile[0]?
    writeSlice sums c (c + C) row) out.length 0 out

end Tiles

section Correct
variable {F ε : Type} {f : Singles F} {a b : List Int8} {w : Int8Matrix} {R C t r n cols : ℕ}

/-- The inner loop of `dot_tile` from a column on, on two rows of at most 16384 bytes. -/
theorem dotLoop_eq_ok {x y : List Int8} {get₁ get₂ : ℕ → Option Int8} {m : ℕ} (hm : m ≤ cols)
    (hx : x.length = cols) (hy : y.length = cols) (h₁ : ∀ k < cols - m, get₁ k = x[m + k]?)
    (h₂ : ∀ k < cols - m, get₂ k = y[m + k]?) (hcols : cols ≤ 16384) :
    (List.range (cols - m)).foldlM (fun sum k => do
      let x ← unwrap (get₁ k)
      let y ← unwrap (get₂ k)
      add32 sum (x.toInt * y.toInt)) (dot (x.take m) (y.take m)) = (.ok (dot x y) : Code ε ℤ) := by
  have hloop := Ends.range (E := fun _ : Fault ε => False)
    (I := fun k sum => sum = dot (x.take (m + k)) (y.take (m + k)))
    (f := fun sum k => do
      let x ← unwrap (get₁ k)
      let y ← unwrap (get₂ k)
      add32 sum (x.toInt * y.toInt))
    (n := cols - m) rfl fun k sum hk hsum => by
      have hkx : m + k < x.length := by omega
      have hky : m + k < y.length := by omega
      rw [hsum, h₁ k hk, h₂ k hk, List.getElem?_eq_getElem hkx, List.getElem?_eq_getElem hky]
      show Ends _ _ (add32 _ _)
      have hbound := abs_dot_take (x := x) (y := y) (k := m + k + 1) (by omega) (by omega)
      rw [dot_take_succ hkx hky] at hbound
      rw [add32_eq_ok (hbound.trans_lt (by push_cast; omega))]
      exact (dot_take_succ hkx hky).symm
  rw [Nat.add_sub_cancel' hm, List.take_of_length_le (Nat.le_of_eq hx),
    List.take_of_length_le (Nat.le_of_eq hy)] at hloop
  exact hloop.eq_ok

/-- Every cell of a tile is the exact dot product of its rows. -/
theorem dotTile_eq_ok (ha : a.length = R * cols) (hb : b.length = C * cols) (hcols : cols ≤ 16384) :
    (dotTile R C a b cols : Code ε _) = .ok ((List.range R).map fun i => (List.range C).map fun j =>
      dot (rowAt cols a i) (rowAt cols b j)) := by
  refine mapM_range_eq_ok fun i hi => mapM_range_eq_ok fun j hj => ?_
  refine dotLoop_eq_ok (Nat.zero_le cols) (length_rowAt hi ha) (length_rowAt hj hb)
    (fun k hk => ?_) (fun k hk => ?_) hcols
  · rw [Nat.zero_add, getElem?_rowAt (show k < cols from hk)]
  · rw [Nat.zero_add, getElem?_rowAt (show k < cols from hk)]

/-- A matrix as it is read from bytes: whole rows, each with a scale. -/
structure Int8Matrix.Valid (w : Int8Matrix) : Prop where
  cols_le : w.cols ≤ 16384
  values : w.values.length = w.rows * w.cols
  scales : w.scales.length = w.rows

def Int8Matrix.row (w : Int8Matrix) (r : ℕ) : List Int8 := rowAt w.cols w.values r

/-- The product of a quantized row with a row of weights. -/
def Int8Matrix.cell (w : Int8Matrix) (f : Singles F) (xs : List Int8) (sx : UInt32) (r : ℕ) : UInt32 :=
  f.mul (f.mul (f.ofInt (dot xs (w.row r))) sx) (w.scales.getD r 0)

theorem unwrap_getElem? {α : Type} {xs : List α} {k : ℕ} (hk : k < xs.length) (d : α) :
    (unwrap xs[k]? : Code ε α) = .ok (xs.getD k d) := by
  rw [List.getD_eq_getElem?_getD, List.getElem?_eq_getElem hk]
  rfl

/-- The rows of a slice of whole rows. -/
theorem slice_rows {α : Type} {xs : List α} {c : ℕ} (hn : n + R ≤ t) (h : xs.length = t * c) :
    ∃ ys, (slice xs (n * c) ((n + R) * c) : Code ε (List α)) = .ok ys ∧ ys.length = R * c ∧
      ∀ i < R, rowAt c ys i = rowAt c xs (n + i) := by
  have hle : (n + R) * c ≤ xs.length := by
    rw [h]
    exact Nat.mul_le_mul_right c hn
  have hwidth : (n + R) * c - n * c = R * c := by rw [← Nat.sub_mul, Nat.add_sub_cancel_left]
  refine ⟨_, slice_of_le (Nat.mul_le_mul_right c (Nat.le_add_right n R)) hle, ?_, fun i hi => ?_⟩
  · rw [hwidth, List.length_take, List.length_drop]
    rw [Nat.add_mul] at hle
    omega
  · have hin : i * c + c ≤ R * c := by
      rw [← Nat.succ_mul]
      exact Nat.mul_le_mul_right c hi
    rw [hwidth, rowAt, rowAt, List.drop_take, List.drop_drop, List.take_take, Nat.add_mul]
    congr 1
    omega

theorem dots_get {x y : ℕ → List Int8} {i j : ℕ} (hi : i < R) (hj : j < C) :
    (unwrap (((List.range R).map fun i => (List.range C).map fun j => dot (x i) (y j))[i]?.bind
      fun sums => sums[j]?) : Code ε ℤ) = .ok (dot (x i) (y j)) := by
  rw [List.getElem?_map, List.getElem?_range hi, Option.map_some, Option.bind_some,
    List.getElem?_map, List.getElem?_range hj]
  rfl

/-- A tile of columns of some rows of a product. -/
theorem writeTile_ends {sx : List UInt32} {out : List UInt32} (hw : w.Valid)
    (ha : a.length = n * w.cols) (hsx : sx.length = n) (hR : t + R ≤ n)
    (h : Filled n w.rows (fun i => w.cell f (rowAt w.cols a i) (sx.getD i 0)) (fun i _ => i < t)
      out) :
    Ends (Filled n w.rows (fun i => w.cell f (rowAt w.cols a i) (sx.getD i 0))
      fun i _ => i < t + R) (fun _ : Fault ε => False) (writeTile f a sx w R t out) := by
  obtain ⟨a', ha', hlength, hrows⟩ := slice_rows (ε := ε) hR ha
  rw [writeTile, ha', ok_bind]
  refine (Ends.tiles (I := fun r => Filled n w.rows
    (fun i => w.cell f (rowAt w.cols a i) (sx.getD i 0)) fun i j => i < t ∨ i < t + R ∧ j < r)
    (h.mono fun i _ j _ hi => hi.resolve_right fun hj => Nat.not_lt_zero j hj.2)
    (Nat.zero_le _) fun C r out hC h => ?_).imp fun out h =>
      h.mono fun i _ j hj hi => .inr ⟨hi, hj⟩
  obtain ⟨b, hb, hlengthb, hrowsb⟩ := slice_rows (ε := ε) hC hw.values
  rw [hb, ok_bind, dotTile_eq_ok hlength hlengthb hw.cols_le, ok_bind, storeTile]
  refine h.rectangle hR hC (fun j hi hj c => ?_) fun i _ j _ hij => ?_
  · rw [dots_get hi hj, ok_bind, unwrap_getElem? (by omega) 0, ok_bind,
      unwrap_getElem? (by rw [hw.scales]; omega) 0, ok_bind, hrows j.1 hi, hrowsb j.2 hj]
    rfl
  · omega

/-- The row tiles of a product, whatever the number of rows. -/
theorem rowLoop_eq_ok {sx : List UInt32} (hw : w.Valid) (ha : a.length = n * w.cols)
    (hsx : sx.length = n) :
    (tileLoop rowTiles (writeTile f a sx w) n 0 (List.replicate (n * w.rows) 0) : Code ε _) =
      .ok ((List.range n).flatMap fun t => (List.range w.rows).map
        (w.cell f (rowAt w.cols a t) (sx.getD t 0))) := by
  have hloop := Ends.tiles (S := rowTiles) (E := fun _ : Fault ε => False)
    (I := fun t => Filled n w.rows (fun i => w.cell f (rowAt w.cols a i) (sx.getD i 0))
      fun i _ => i < t)
    ((Filled.replicate 0).mono fun i _ _ _ hi => Nat.not_lt_zero i hi) (Nat.zero_le n)
    fun R t out hR h => writeTile_ends (R := R) hw ha hsx hR h
  exact (hloop.imp fun out h => (h.mono fun i hi _ _ _ => hi).eq_flatMap).eq_ok

theorem length_resize {α : Type} {xs : List α} (v : α) (h : xs.length ≤ n) :
    (resize xs n v).length = n := by
  rw [resize, List.length_append, List.length_take, List.length_replicate]
  omega

theorem getElem?_resize {α : Type} {xs : List α} {k : ℕ} (v : α) (h : xs.length ≤ n)
    (hk : k < xs.length) : (resize xs n v)[k]? = xs[k]? := by
  rw [resize, List.take_of_length_le h, List.getElem?_append_left hk]

/-- Rows that padding leaves as they are. -/
theorem rowAt_resize {xs : List Int8} {c m i : ℕ} (h : xs.length = m * c) (hmn : m ≤ n)
    (hi : i < m) : rowAt c (resize xs (n * c) 0) i = rowAt c xs i := by
  have hle : xs.length ≤ n * c := h ▸ Nat.mul_le_mul_right c hmn
  refine rowAt_eq (length_rowAt hi h) fun k hk => ?_
  rw [getElem?_resize 0 hle (h ▸ row_lt hi hk), getElem?_rowAt hk]

theorem le_paddedTokens (tokens : ℕ) : tokens ≤ paddedTokens tokens := by
  unfold paddedTokens
  split <;> omega

/-- `matmul` leaves the plain product of every row of activations with every row of weights; the
rows that it pads are cut off. -/
theorem matmul_eq_ok {tokens : ℕ} {activation : List Int8} {scales : List UInt32} (hw : w.Valid)
    (ha : activation.length = tokens * w.cols) (hsx : scales.length = tokens) :
    (matmul f activation scales w tokens : Code ε _) = .ok ((List.range tokens).flatMap fun t =>
      (List.range w.rows).map (w.cell f (rowAt w.cols activation t) (scales.getD t 0))) := by
  have hle := le_paddedTokens tokens
  have hcells : ∀ g : ℕ → List UInt32, (∀ i < paddedTokens tokens, (g i).length = w.rows) →
      ((List.range (paddedTokens tokens)).flatMap g).take (tokens * w.rows) =
        (List.range tokens).flatMap g := by
    intro g hg
    have hsplit : List.range (paddedTokens tokens) = List.range tokens ++
        (List.range (paddedTokens tokens - tokens)).map (tokens + ·) := by
      rw [← List.range_add, Nat.add_sub_cancel' hle]
    rw [hsplit, List.flatMap_append]
    exact List.take_left' (length_flatMap_rows fun i hi => hg i (hi.trans_le hle))
  have hwidth : ∀ (xs : List Int8) (sx : UInt32),
      ((List.range w.rows).map (w.cell f xs sx)).length = w.rows := by simp
  rw [matmul]
  by_cases hpad : paddedTokens tokens ≠ tokens
  · have hlength : (resize activation (paddedTokens tokens * w.cols) 0).length =
        paddedTokens tokens * w.cols :=
      length_resize 0 (ha ▸ Nat.mul_le_mul_right w.cols hle)
    have hscales : (resize scales (paddedTokens tokens) 0x3f800000).length = paddedTokens tokens :=
      length_resize _ (hsx ▸ hle)
    simp only [if_pos hpad]
    rw [rowLoop_eq_ok hw hlength hscales, ok_bind, hcells _ fun i _ => hwidth _ _]
    refine congrArg Except.ok (List.flatMap_congr fun t ht => ?_)
    have ht := List.mem_range.mp ht
    rw [rowAt_resize ha hle ht, List.getD_eq_getElem?_getD,
      getElem?_resize _ (hsx ▸ hle) (hsx ▸ ht), ← List.getD_eq_getElem?_getD]
  · have hsame := not_not.mp hpad
    simp only [if_neg hpad]
    rw [hsame, rowLoop_eq_ok hw ha hsx, ok_bind, List.take_of_length_le
      (Nat.le_of_eq (length_flatMap_rows fun i _ => hwidth _ _))]
    rfl

/-- `integer_dots` leaves the dot product of the input with every row. -/
theorem integerDots_eq_ok {out : List ℤ} (ha : a ≠ []) (hle : a.length ≤ 16384)
    (hb : b.length = a.length * out.length) :
    (integerDots a b out : Code ε _) =
      .ok ((List.range out.length).map fun j => dot a (rowAt a.length b j)) := by
  have hrows : b.length = out.length * a.length := hb.trans (Nat.mul_comm _ _)
  have hself : rowAt a.length a 0 = a := by
    rw [rowAt, Nat.zero_mul, List.drop_zero, List.take_length]
  rw [integerDots, if_pos ⟨ha, hle, hb⟩]
  have hloop := Ends.tiles (S := columnTiles) (E := fun _ : Fault ε => False)
    (I := fun c sums => sums.length = out.length ∧
      ∀ j < c, sums[j]? = some (dot a (rowAt a.length b j)))
    (f := fun C c sums => do
      let b ← slice b (c * a.length) ((c + C) * a.length)
      let tile ← dotTile 1 C a b a.length
      let row ← unwrap tile[0]?
      writeSlice sums c (c + C) row)
    (s := out) ⟨rfl, fun j hj => absurd hj (Nat.not_lt_zero j)⟩ (Nat.zero_le out.length)
    fun C c sums hC hsums => by
      obtain ⟨hlength, hdone⟩ := hsums
      obtain ⟨tile, htile, hwidth, htiles⟩ := slice_rows (ε := ε) hC hrows
      have hone : a.length = 1 * a.length := (Nat.one_mul _).symm
      rw [htile, ok_bind, dotTile_eq_ok hone hwidth hle, ok_bind]
      have hend : c + C ≤ sums.length := by omega
      have hrow : ((List.range C).map fun j =>
          dot (rowAt a.length a 0) (rowAt a.length tile j)).length = c + C - c := by simp
      obtain ⟨r, hr, hsame, hcells⟩ := writeSlice_eq_ok (ε := ε) (Nat.le_add_right c C) hend hrow
      show Ends _ _ (writeSlice sums c (c + C) _)
      rw [hr]
      refine ⟨hsame.trans hlength, fun j hj => ?_⟩
      rw [hcells]
      by_cases hin : c ≤ j
      · rw [if_pos ⟨hin, hj⟩, List.getElem?_map, List.getElem?_range (by omega), Option.map_some,
          hself, htiles _ (by omega), Nat.add_sub_cancel' hin]
      · rw [if_neg (by omega), hdone j (by omega)]
  refine (hloop.imp fun sums h => List.ext_getElem? fun j => ?_).eq_ok
  by_cases hj : j < out.length
  · rw [h.2 j hj, List.getElem?_map, List.getElem?_range hj, Option.map_some]
  · rw [List.getElem?_eq_none (by omega),
      List.getElem?_eq_none (by rw [List.length_map, List.length_range]; omega)]

end Correct

end IcLaya
