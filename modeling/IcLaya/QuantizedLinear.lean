import IcLaya.QuantizedTensors

/-!
# Linear layers on signed bytes (`laya-candle/src/int8.rs`)

A linear layer takes tiles of tokens against tiles of columns and quantizes each group of a row when
its block is full. It leaves the table of the plain products, whatever the shape of the tiles.
-/
namespace IcLaya
open Fallible PanickingCode LoopOutcomes RowBuffers StoreLoops

section Linear
variable {F : Type} (f : Singles F)

def q8StoreTile (sums : List (List ℤ)) (sx sw : List UInt32) (bias : Option (List UInt32))
    (R C r width : ℕ) (out : List UInt32) : Code String (List UInt32) :=
  (List.range R ×ˢ List.range C).foldlM (fun out j =>
    update out (rectangle width 0 r j) fun _ => do
      let sum ← unwrap (sums[j.1]?.bind fun sums => sums[j.2]?)
      let x ← unwrap sx[j.1]?
      let s ← unwrap sw[j.2]?
      let b ← bias.elim (pure 0) fun b => unwrap b[j.2]?
      pure (f.add (f.mul (f.mul (f.ofInt sum) x) s) b)) out

namespace Int8Matrix
variable (w : Int8Matrix) (x : QTensor) (bias : Option (List UInt32))

/-- The products of a tile of rows with one group of columns, in a block that is used again. -/
def q8Block (a : List Int8) (R t base width : ℕ) (block : List UInt32) : Code String (List UInt32) :=
  tileLoop columnTiles (fun C r block => do
    let b ← slice w.values ((base + r) * w.cols) ((base + r + C) * w.cols)
    let sums ← dotTile R C a b w.cols
    let sx ← slice x.scales t (t + R)
    let sw ← slice w.scales (base + r) (base + r + C)
    let bias ← bias.elim (pure none) fun b => some <$> slice b (base + r) (base + r + C)
    q8StoreTile f sums sx sw bias R C r width block) width 0 block

def q8Tile (R t : ℕ) (out : QTensor) : Code String QTensor := do
  let a ← slice x.values (t * w.cols) ((t + R) * w.cols)
  let width ← wholeDiv w.rows out.groups
  let s ← (List.range out.groups).foldlM (fun s group => do
    let base := group * width
    let block ← w.q8Block f x bias a R t base width s.2
    let out ← (List.range R).foldlM (fun out i => do
      let row ← slice block (i * width) ((i + 1) * width)
      let p ← quantizePart out.values out.scales ((t + i) * w.rows + base) width
        ((t + i) * out.groups + group) row
      pure { out with values := p.1, scales := p.2 }) s.1
    pure (out, block)) (out, List.replicate (R * width) 0)
  pure s.1

def forwardQ8Grouped (groups : ℕ) : Code String QTensor := do
  reject (x.cols ≠ w.cols ∨ x.groups ≠ 1 ∨ groups = 0 ∨ w.rows % groups ≠ 0 ∨
    bias.any fun b => b.length ≠ w.rows) "q8 linear shape"
  let result ← QTensor.zerosGrouped x.rows w.rows groups
  tileLoop rowTiles (w.q8Tile f x bias) x.rows 0 result

def forwardQ8 : Code String QTensor := w.forwardQ8Grouped f x bias 1

/-- A product of a quantized row with a row of weights, and its bias. -/
def biased (p : UInt32 × List Int8) (r : ℕ) : UInt32 :=
  f.add (w.cell f p.2 p.1 r) (bias.elim 0 fun b => b.getD r 0)

def outputs (p : UInt32 × List Int8) (base width : ℕ) : List UInt32 :=
  (List.range width).map fun j => w.biased f bias p (base + j)

end Int8Matrix

end Linear

section LinearTiles
variable {F : Type} {f : Singles F} {w : Int8Matrix} {x : QTensor} {bias : Option (List UInt32)}
  {R t n base width groups : ℕ} {a : List Int8}

/-- What a linear layer asks of its weights and its input. -/
structure Int8Matrix.Fits (w : Int8Matrix) (bias : Option (List UInt32)) (n : ℕ) (x : QTensor) :
    Prop where
  valid : w.Valid
  bias : ∀ b, bias = some b → b.length = w.rows
  input : x.Shaped n 1 w.cols

theorem slice_getD {α : Type} {xs : List α} {a C : ℕ} (h : a + C ≤ xs.length) (d : α) :
    ∃ ys, (slice xs a (a + C) : Code String (List α)) = .ok ys ∧
      ∀ j < C, (unwrap ys[j]? : Code String α) = .ok (xs.getD (a + j) d) := by
  refine ⟨_, slice_of_le (Nat.le_add_right a C) h, fun j hj => ?_⟩
  rw [Nat.add_sub_cancel_left, List.getElem?_take, if_pos hj, List.getElem?_drop]
  exact unwrap_getElem? (by omega) d

theorem slice_bias {C r : ℕ} (hb : ∀ b, bias = some b → b.length = w.rows)
    (hr : base + r + C ≤ w.rows) :
    ∃ ys : Option (List UInt32), (bias.elim (pure none) fun b =>
        some <$> slice b (base + r) (base + r + C) : Code String _) = .ok ys ∧
      ∀ j < C, (ys.elim (pure 0) fun b => unwrap b[j]? : Code String UInt32) =
        .ok (bias.elim 0 fun b => b.getD (base + r + j) 0) := by
  cases bias with
  | none => exact ⟨none, rfl, fun j _ => rfl⟩
  | some b =>
    have hend : base + r + C ≤ b.length := by
      rw [hb b rfl]
      exact hr
    obtain ⟨ys, hys, hget⟩ := slice_getD hend 0
    refine ⟨some ys, ?_, hget⟩
    show (some <$> slice b _ _ : Code String _) = _
    rw [hys]
    rfl

/-- The block of a tile holds the products of its rows with the columns of the group. -/
theorem q8Block_ends {block : List UInt32} (hf : w.Fits bias n x) (hR : t + R ≤ n)
    (hbase : base + width ≤ w.rows) (ha : a.length = R * w.cols)
    (hrows : ∀ i < R, rowAt w.cols a i = rowAt w.cols x.values (t + i))
    (hblock : block.length = R * width) :
    Ends (fun block => block.length = R * width ∧
        ∀ i < R, rowAt width block i = w.outputs f bias (x.part w.cols (t + i)) base width)
      (fun _ => False) (w.q8Block f x bias a R t base width block) := by
  have hloop := Ends.tiles (S := columnTiles) (E := fun _ : Fault String => False)
    (I := fun r => Filled R width
      (fun i j => w.biased f bias (x.part w.cols (t + i)) (base + j)) fun _ j => j < r)
    (f := fun C r block => do
      let b ← slice w.values ((base + r) * w.cols) ((base + r + C) * w.cols)
      let sums ← dotTile R C a b w.cols
      let sx ← slice x.scales t (t + R)
      let sw ← slice w.scales (base + r) (base + r + C)
      let bias ← bias.elim (pure none) fun b => some <$> slice b (base + r) (base + r + C)
      q8StoreTile f sums sx sw bias R C r width block)
    (n := width) (t := 0) (s := block)
    ⟨hblock, fun i _ j _ hj => absurd hj (Nat.not_lt_zero j)⟩ (Nat.zero_le width)
    fun C r block hC h => by
      have hscales : t + R ≤ x.scales.length := by
        rw [hf.input.scales, Nat.mul_one]
        exact hR
      obtain ⟨b, hb, hlength, hrowsb⟩ := slice_rows (ε := String) (n := base + r) (R := C)
        (by omega) hf.valid.values
      obtain ⟨sx, hsx, hgetx⟩ := slice_getD (C := R) hscales 0
      have hend : base + r + C ≤ w.scales.length := by
        rw [hf.valid.scales]
        omega
      obtain ⟨sw, hsw, hgetw⟩ := slice_getD hend 0
      rw [hf.valid.scales] at hend
      obtain ⟨bs, hbs, hgetb⟩ := slice_bias hf.bias hend
      rw [hb, ok_bind, dotTile_eq_ok ha hlength hf.valid.cols_le, ok_bind, hsx, ok_bind, hsw,
        ok_bind, hbs, ok_bind, q8StoreTile]
      refine h.rectangle (by omega) hC (fun j hi hj c => ?_) fun i hi j _ hij => by omega
      rw [dots_get hi hj, ok_bind, hgetx j.1 hi, ok_bind, hgetw j.2 hj, ok_bind, hgetb j.2 hj,
        ok_bind, hrows j.1 hi, hrowsb j.2 hj, Nat.zero_add, ← Nat.add_assoc]
      rfl
  refine hloop.imp fun block h => ⟨h.length_eq, fun i hi => ?_⟩
  refine rowAt_eq (by simp [Int8Matrix.outputs]) fun k hk => ?_
  rw [h.get i hi k hk hk, Int8Matrix.outputs, List.getElem?_map, List.getElem?_range hk]
  rfl

/-- The outputs of a linear layer, group by group. -/
def Int8Matrix.groupRow (w : Int8Matrix) (f : Singles F) (bias : Option (List UInt32)) (x : QTensor)
    (groups k : ℕ) : List UInt32 :=
  w.outputs f bias (x.part w.cols (k / groups)) (k % groups * (w.rows / groups)) (w.rows / groups)

theorem length_groupRow (k : ℕ) :
    (w.groupRow f bias x groups k).length = w.rows / groups := by
  simp [Int8Matrix.groupRow, Int8Matrix.outputs]

theorem q8Tile_ends {out : QTensor} (hf : w.Fits bias n x) (hg : 0 < groups)
    (hdvd : w.rows % groups = 0) (hR : t + R ≤ n)
    (h : QTensor.Filling n groups (w.rows / groups) (w.groupRow f bias x groups)
      (fun k => k / groups < t) out) :
    Ends (QTensor.Filling n groups (w.rows / groups) (w.groupRow f bias x groups)
      fun k => k / groups < t + R) (Stopped (n * groups) (w.groupRow f bias x groups))
      (w.q8Tile f x bias R t out) := by
  obtain ⟨width, hwidth⟩ : ∃ width, width = w.rows / groups := ⟨_, rfl⟩
  have hrowsw : w.rows = groups * width := by
    rw [hwidth, Nat.mul_div_cancel' (Nat.dvd_of_mod_eq_zero hdvd)]
  have hvalues : x.values.length = n * w.cols := by rw [hf.input.values, Nat.mul_one]
  obtain ⟨a, ha, hlength, hrows⟩ := slice_rows (ε := String) hR hvalues
  rw [← hwidth] at h ⊢
  rw [Int8Matrix.q8Tile, ha, ok_bind, wholeDiv_of_pos (h.1.groups_eq ▸ hg), ok_bind,
    h.1.groups_eq, ← hwidth]
  have hloop := Ends.range
    (I := fun group s => QTensor.Filling n groups width (w.groupRow f bias x groups)
      (fun k => k / groups < t ∨ k / groups < t + R ∧ k % groups < group) s.1 ∧
        s.2.length = R * width)
    (E := Stopped (n * groups) (w.groupRow f bias x groups))
    (f := fun s group => do
      let block ← w.q8Block f x bias a R t (group * width) width s.2
      let out ← (List.range R).foldlM (fun out i => do
        let row ← slice block (i * width) ((i + 1) * width)
        let p ← quantizePart out.values out.scales ((t + i) * w.rows + group * width) width
          ((t + i) * out.groups + group) row
        pure { out with values := p.1, scales := p.2 }) s.1
      pure (out, block))
    (n := groups) (s := (out, List.replicate (R * width) 0))
    ⟨h.mono fun k _ hk => by omega, List.length_replicate⟩ fun group s hgroup hs => by
      have hbase : group * width + width ≤ w.rows := by
        rw [hrowsw, ← Nat.succ_mul]
        exact Nat.mul_le_mul_right width hgroup
      refine ((q8Block_ends (f := f) hf hR hbase hlength hrows hs.2).mono (fun _ h => h)
        fun _ h => h.elim).bind fun block hblock => ?_
      refine (Ends.range (I := fun i => QTensor.Filling n groups width (w.groupRow f bias x groups)
        fun k => (k / groups < t ∨ k / groups < t + R ∧ k % groups < group) ∨
          k / groups < t + i ∧ k % groups = group) (hs.1.mono fun k _ hk => by omega)
        fun i out hi h => ?_).bind fun out h => ?_
      · have hk : (t + i) * groups + group < n * groups := row_lt (by omega) hgroup
        have hkey : (t + i) * out.groups + group = (t + i) * groups + group := by
          rw [h.1.groups_eq]
        have hfirst : (t + i) * w.rows + group * width = ((t + i) * groups + group) * width := by
          rw [hrowsw, Nat.add_mul ((t + i) * groups), Nat.mul_assoc]
        obtain ⟨hdiv, hmod⟩ := div_mod_part (r := t + i) hgroup
        have hrow : w.groupRow f bias x groups ((t + i) * groups + group) =
            rowAt width block i := by
          rw [hblock.2 i hi, Int8Matrix.groupRow, hdiv, hmod, hwidth]
        rw [slice_row hi hblock.1 rfl (Nat.succ_mul i width), ok_bind, hkey]
        refine (h.2.quantize hk hfirst hrow.symm (by rw [length_groupRow, hwidth])
          fun k hkn hq => ?_).bind fun p hp => h.parts hp
        by_cases he : k / groups = t + i ∧ k % groups = group
        · right
          rw [← Nat.div_add_mod' k groups, he.1, he.2]
        · left
          omega
      · exact ⟨h.mono fun k _ hk => by omega, hblock.1⟩
  refine hloop.bind fun s hs => hs.1.mono fun k hk hlt => ?_
  exact .inr ⟨hlt, Nat.mod_lt k hg⟩

/-- A linear layer quantizes, for every token and every group, what the plain products are. -/
theorem forwardQ8Grouped_eq (hf : w.Fits bias n x) (hg : 0 < groups) (hdvd : w.rows % groups = 0) :
    w.forwardQ8Grouped f x bias groups =
      okOr (QTensor.quantizeParts n groups (w.rows / groups) (w.groupRow f bias x groups))
        nonfinite := by
  have hshape : ¬(x.cols ≠ w.cols ∨ x.groups ≠ 1 ∨ groups = 0 ∨ w.rows % groups ≠ 0 ∨
      bias.any fun b => b.length ≠ w.rows) := by
    have hcols := hf.input.cols_eq
    rw [Nat.one_mul] at hcols
    have hbias : ¬(bias.any fun b => b.length ≠ w.rows) = true := by
      cases bias with
      | none => exact Bool.false_ne_true
      | some b => simp [hf.bias b rfl]
    have hgroups := hf.input.groups_eq
    rintro (h | h | h | h | h)
    · exact h hcols
    · exact h hgroups
    · omega
    · exact h hdvd
    · exact hbias h
  refine QTensor.quantizeParts_ends ?_
  have hrowsw : w.rows = groups * (w.rows / groups) :=
    (Nat.mul_div_cancel' (Nat.dvd_of_mod_eq_zero hdvd)).symm
  have hzeros := QTensor.zerosGrouped_ends n (w.rows / groups) (w.groupRow f bias x groups)
    (P := fun k => k / groups < 0) hg fun k => Nat.not_lt_zero _
  rw [← hrowsw] at hzeros
  rw [Int8Matrix.forwardQ8Grouped, reject_pass hshape, hf.input.rows_eq]
  refine hzeros.bind fun out hout => ?_
  have hloop := Ends.tiles (S := rowTiles) (f := w.q8Tile f x bias) hout (Nat.zero_le n)
    fun R t out hR h => q8Tile_ends (R := R) hf hg hdvd hR h
  exact hloop.imp fun out h => h.mono fun k hk _ => (Nat.div_lt_iff_lt_mul hg).mpr hk

end LinearTiles

section Products
variable {F : Type}

/-- Arithmetic on bits as whole numbers. -/
def Singles.words : Singles ℚ where
  ofInt n := UInt32.ofInt n
  add a b := a + b
  sub a b := a - b
  mul a b := a * b
  div a b := a / b
  max a b := Max.max a b
  sqrt a := a
  exp a := a
  gelu a := a
  normalized _ _ _ s v := UInt32.ofInt v.toInt * s
  rotation _ _ _ _ := (0, 1)

/-- The tiled products are the plain ones, whatever the tiles, groups and padding: `matmul` leaves
every token's product with every row of weights, a linear layer quantizes for every token and group
the products of the group's columns, and `integer_dots` leaves the dot product with every row. -/
theorem tiled_products_plain (f : Singles F) (w : Int8Matrix) (hw : w.Valid) :
    (∀ tokens activation scales, activation.length = tokens * w.cols → scales.length = tokens →
      (matmul f activation scales w tokens : Code String _) = .ok ((List.range tokens).flatMap
        fun t => (List.range w.rows).map (w.cell f (rowAt w.cols activation t) (scales.getD t 0)))) ∧
    (∀ (x : QTensor) n bias groups, x.Shaped n 1 w.cols → (∀ b ∈ bias, b.length = w.rows) →
      0 < groups → w.rows % groups = 0 →
      w.forwardQ8Grouped f x bias groups = okOr (QTensor.quantizeParts n groups (w.rows / groups)
        fun k => (List.range (w.rows / groups)).map fun j =>
          w.biased f bias (x.part w.cols (k / groups)) (k % groups * (w.rows / groups) + j))
        nonfinite) ∧
    ∀ (a b : List Int8) (out : List ℤ), a ≠ [] → a.length ≤ 16384 →
      b.length = a.length * out.length →
      (integerDots a b out : Code String _) =
        .ok ((List.range out.length).map fun j => dot a (rowAt a.length b j)) := by
  refine ⟨fun tokens activation scales ha hs => matmul_eq_ok hw ha hs,
    fun x n bias groups hx hb hg hdvd => forwardQ8Grouped_eq ⟨hw, fun b hbias => ?_, hx⟩ hg hdvd,
    fun a b out ha hle hb => integerDots_eq_ok ha hle hb⟩
  exact hb b (Option.mem_def.mpr hbias)

/-- Three tokens are padded to four; a linear layer of two columns; two dot products. -/
theorem tiled_products_plain_sample :
    (matmul Singles.words [1, 0, 0, 1, 1, 1] [1, 1, 1] ⟨1, 2, [2, 3], [1]⟩ 3 : Code String _) =
      .ok [2, 3, 5] ∧
    Int8Matrix.forwardQ8Grouped Singles.words ⟨2, 1, [1, 1], [0x3f800000, 0x3f800000]⟩
      ⟨1, 1, [1], [1], 1⟩ none 2 = .ok ⟨1, 2, [127, 127], [0x3c010204, 0x3c010204], 2⟩ ∧
    (integerDots [1, 2] [3, 4, 5, 6] [0, 0] : Code String _) = .ok [11, 17] := by
  have hplain := tiled_products_plain Singles.words ⟨1, 2, [2, 3], [1]⟩
    ⟨by decide, by decide, by decide⟩
  have hlinear := (tiled_products_plain Singles.words ⟨2, 1, [1, 1], [0x3f800000, 0x3f800000]⟩
    ⟨by decide, by decide, by decide⟩).2.1 ⟨1, 1, [1], [1], 1⟩ 1 none 2 ⟨rfl, rfl, rfl, rfl, rfl⟩
    (fun b hb => nomatch hb) (by decide) rfl
  refine ⟨(hplain.1 3 [1, 0, 0, 1, 1, 1] [1, 1, 1] rfl rfl).trans (by decide +kernel),
    hlinear.trans (by decide +kernel), ?_⟩
  exact (hplain.2.2 [1, 2] [3, 4, 5, 6] [0, 0] (by decide) (by decide) rfl).trans (by decide +kernel)

end Products

end IcLaya
