import IcLaya.QuantizedLayers

/-!
# Layers on single floats (`laya-candle/src/lib.rs`, `int8.rs`)

The kernels of the tensor library are parameters. Those that move numbers are known by what they
move; those that calculate compute a row of their result from the same row of their operands, and a
product from that row of its left operand and the whole right one.
-/
namespace IcLaya
open Fallible PanickingCode LoopOutcomes RowBuffers

/-- Over the last dimension, or number by number. -/
inductive UnaryKernel
  | meanKeepdim | maxKeepdim | sumKeepdim | sqr | sqrt | exp | relu | geluErf

inductive ScalarKernel
  | add | mul

inductive BinaryKernel
  | add | broadcastAdd | broadcastSub | broadcastMul | broadcastDiv

/-- The tensor library; `contiguous` changes the layout only. -/
structure Candle (F : Type) where
  unary : UnaryKernel → Tensor → Code String Tensor
  scalar : ScalarKernel → Tensor → F → Code String Tensor
  binary : BinaryKernel → Tensor → Tensor → Code String Tensor
  matmul : Tensor → Tensor → Code String Tensor
  /-- By the dimension, the start and the length. -/
  narrow : Tensor → ℕ → ℕ → ℕ → Code String Tensor
  reshape : Tensor → List ℕ → Code String Tensor
  transpose : Tensor → ℕ → ℕ → Code String Tensor
  indexSelect : Tensor → List UInt32 → ℕ → Code String Tensor
  /-- `1.0 / (d as f64).sqrt()` -/
  inverseSqrt : ℕ → F

section Code
variable {F : Type} (c : Candle F) (f : Singles F)

def Tensor.dims2 (x : Tensor) : Code String (ℕ × ℕ) :=
  match x.dims with
  | [a, b] => .ok (a, b)
  | _ => .error (.raise "unexpected rank")

/-- The rows are quantized, multiplied as signed bytes and put together again. -/
def Int8Matrix.forward (w : Int8Matrix) (x : Tensor) : Code String Tensor := do
  let (tokens, cols) ← x.dims2
  reject (cols ≠ w.cols) "int8 linear shape"
  assertThat (cols ≠ 0)
  let quantized ← (List.range tokens).mapM fun t => call (quantizeRow (rowAt cols x.values t))
  let out ← matmul f (quantized.flatMap Prod.snd) (quantized.map Prod.fst) w tokens
  call (Tensor.fromVec out [tokens, w.rows])

def Linear.forward (l : Linear) (x : Tensor) : Code String Tensor := do
  let y ← l.weight.forward f x
  l.bias.elim (pure y) fun b => c.binary .broadcastAdd y b

def Norm.forward (n : Norm F) (x : Tensor) : Code String Tensor := do
  let mean ← c.unary .meanKeepdim x
  let centered ← c.binary .broadcastSub x mean
  let squares ← c.unary .sqr centered
  let var ← c.unary .meanKeepdim squares
  let var ← c.scalar .add var n.eps
  let root ← c.unary .sqrt var
  let y ← c.binary .broadcastDiv centered root
  let y ← c.binary .broadcastMul y n.weight
  n.bias.elim (pure y) fun b => c.binary .broadcastAdd y b

def softmaxLast (x : Tensor) : Code String Tensor := do
  let max ← c.unary .maxKeepdim x
  let shifted ← c.binary .broadcastSub x max
  let e ← c.unary .exp shifted
  let sum ← c.unary .sumKeepdim e
  c.binary .broadcastDiv e sum

namespace Attention

/-- `reshape((t, self.heads, d))?.transpose(0, 1)?` -/
def split (y : Tensor) (t heads d : ℕ) : Code String Tensor := do
  let y ← c.reshape y [t, heads, d]
  c.transpose y 0 1

/-- The queries attend to the keys, and their heads are merged and projected. -/
def attend (a : Attention) (q k v : Tensor) (t h d : ℕ) : Code String Tensor := do
  let k ← c.transpose k 1 2
  let scores ← c.matmul q k
  let scores ← c.scalar .mul scores (c.inverseSqrt d)
  let probs ← softmaxLast c scores
  let merged ← c.matmul probs v
  let merged ← c.transpose merged 0 1
  let merged ← c.reshape merged [t, h]
  a.out.forward c f merged

/-- `Attention::forward` without positions and a mask, as the decision layers call it. -/
def forward (a : Attention) (x : Tensor) : Code String Tensor := do
  let (t, h) ← x.dims2
  let d ← wholeDiv h a.heads
  let y ← a.qkv.forward c f x
  let q ← c.narrow y 1 0 h
  let q ← split c q t a.heads d
  let k ← c.narrow y 1 h h
  let k ← split c k t a.heads d
  let v ← c.narrow y 1 (2 * h) h
  let v ← split c v t a.heads d
  a.attend c f q k v t h d

def forwardMarkers (a : Attention) (x : Tensor) (markers : List UInt32) : Code String Tensor := do
  let (t, h) ← x.dims2
  let d ← wholeDiv h a.heads
  let m := markers.length
  let y ← a.qkv.forward c f x
  let q ← c.narrow y 1 0 h
  let q ← c.indexSelect q markers 0
  let q ← split c q m a.heads d
  let k ← c.narrow y 1 h h
  let k ← split c k t a.heads d
  let v ← c.narrow y 1 (2 * h) h
  let v ← split c v t a.heads d
  a.attend c f q k v m h d

end Attention

namespace DecisionLayer

def activationKernel : Activation → UnaryKernel
  | .relu => .relu
  | .gelu => .geluErf

def ff (l : DecisionLayer F) (x : Tensor) : Code String Tensor := do
  let x ← l.linear1.forward c f x
  let x ← c.unary (activationKernel l.activation) x
  l.linear2.forward c f x

def forward (l : DecisionLayer F) (x : Tensor) : Code String Tensor :=
  if l.normFirst then do
    let normalized ← l.norm1.forward c x
    let attended ← l.attention.forward c f normalized
    let x ← c.binary .add x attended
    let normalized ← l.norm2.forward c x
    let out ← l.ff c f normalized
    c.binary .add x out
  else do
    let attended ← l.attention.forward c f x
    let sum ← c.binary .add x attended
    let x ← l.norm1.forward c sum
    let out ← l.ff c f x
    let sum ← c.binary .add x out
    l.norm2.forward c sum

def forwardMarkers (l : DecisionLayer F) (x : Tensor) (markers : List UInt32) :
    Code String Tensor := do
  let selected ← c.indexSelect x markers 0
  if l.normFirst then do
    let normalized ← l.norm1.forward c x
    let attended ← l.attention.forwardMarkers c f normalized markers
    let x ← c.binary .add selected attended
    let normalized ← l.norm2.forward c x
    let out ← l.ff c f normalized
    c.binary .add x out
  else do
    let attended ← l.attention.forwardMarkers c f x markers
    let sum ← c.binary .add selected attended
    let x ← l.norm1.forward c sum
    let out ← l.ff c f x
    let sum ← c.binary .add x out
    l.norm2.forward c sum

end DecisionLayer

end Code

/-- The rows `ids` of each matrix of a tensor, of `n` rows each. -/
structure Picked (ids : List UInt32) (lead : List ℕ) (n w : ℕ) (x x' : Tensor) : Prop where
  whole : x.dims = lead ++ [n, w]
  part : x'.dims = lead ++ [ids.length, w]
  row : ∀ i < lead.prod, ∀ r < ids.length, rowAt w x'.values (i * ids.length + r) =
    rowAt w x.values (i * n + (ids.getD r 0).toNat)

/-- If the whole computation returns, so does the one for some rows, with those rows of its result. -/
def Follows (ids : List UInt32) (lead : List ℕ) (n : ℕ) (whole part : Code String Tensor) : Prop :=
  ∀ y, whole = .ok y → ∃ y', part = .ok y' ∧ ∃ w, Picked ids lead n w y y'

/-- A kernel that works row by row. -/
def RowLocal (op : Tensor → Code String Tensor) : Prop :=
  ∀ ids lead n w x x', (∀ id ∈ ids, id.toNat < n) → Picked ids lead n w x x' →
    Follows ids lead n (op x) (op x')

namespace Candle
variable {F : Type}

/-- What the kernels move. -/
structure Moves (c : Candle F) : Prop where
  narrow : ∀ x y n w start length, x.dims = [n, w] → c.narrow x 1 start length = .ok y →
    y.dims = [n, length]
  reshape : ∀ x y dims, c.reshape x dims = .ok y ↔ y.dims = dims ∧ y.values = x.values
  transpose : ∀ x a b d, x.dims = [a, b, d] → ∃ y, c.transpose x 0 1 = .ok y ∧ y.dims = [b, a, d] ∧
    ∀ i < a, ∀ j < b, rowAt d y.values (j * a + i) = rowAt d x.values (i * b + j)
  indexSelect : ∀ x ids n w, x.dims = [n, w] → (∀ id ∈ ids, id.toNat < n) →
    ∃ y, c.indexSelect x ids 0 = .ok y ∧ Picked ids [] n w x y

/-- What the kernels calculate, they calculate row by row; a product is one of the rows of its left
operand. -/
structure RowWise (c : Candle F) : Prop where
  unary : ∀ op, RowLocal (c.unary op)
  scalar : ∀ op v, RowLocal (c.scalar op · v)
  /-- With a vector on the right. -/
  vector : ∀ op v, v.dims.length = 1 → RowLocal (c.binary op · v)
  binary : ∀ op ids lead n w u x x' y y', (∀ id ∈ ids, id.toNat < n) → Picked ids lead n w x x' →
    Picked ids lead n u y y' → Follows ids lead n (c.binary op x y) (c.binary op x' y')
  matmul : ∀ k, RowLocal (c.matmul · k)

end Candle

section Rows
variable {F : Type} {c : Candle F} {f : Singles F} {ids : List UInt32} {lead : List ℕ} {n w u : ℕ}
  {x x' y y' : Tensor}

theorem Follows.bind {lead' : List ℕ} {a a' : Code String Tensor}
    {g g' : Tensor → Code String Tensor} (h : Follows ids lead n a a')
    (hg : ∀ y y' w, Picked ids lead n w y y' → Follows ids lead' n (g y) (g' y')) :
    Follows ids lead' n (a >>= g) (a' >>= g') := by
  intro z hz
  obtain ⟨y, hy, hz⟩ := bind_eq_ok.mp hz
  obtain ⟨y', hy', w, hpicked⟩ := h y hy
  obtain ⟨z', hz', hlast⟩ := hg y y' w hpicked z hz
  exact ⟨z', by rw [hy', ok_bind, hz'], hlast⟩

theorem Follows.pure (h : Picked ids lead n w y y') :
    Follows ids lead n (pure y) (pure y') := by
  rintro _ ⟨⟩
  exact ⟨y', rfl, w, h⟩

/-- A statement that both computations share. -/
theorem Follows.shared {α : Type} (a : Code String α) {g g' : α → Code String Tensor}
    (hg : ∀ v, a = .ok v → Follows ids lead n (g v) (g' v)) :
    Follows ids lead n (a >>= g) (a >>= g') := by
  intro z hz
  obtain ⟨v, hv, hz⟩ := bind_eq_ok.mp hz
  obtain ⟨z', hz', hlast⟩ := hg v hv z hz
  exact ⟨z', by rw [hv, ok_bind, hz'], hlast⟩

theorem dims2_eq_ok {a b : ℕ} (h : x.dims = [a, b]) : x.dims2 = .ok (a, b) := by
  rw [Tensor.dims2, h]

/-- Rows that are the same at the same places are the same tensor. -/
theorem Picked.unique (h : Picked ids lead n w x y) (h' : Picked ids lead n w x y') : y = y' := by
  have hlength : ∀ {z : Tensor}, z.dims = lead ++ [ids.length, w] →
      z.values.length = lead.prod * ids.length * w := fun {z} hz => by
    rw [z.length_eq, hz]
    simp [Nat.mul_assoc]
  refine Tensor.ext (h.part.trans h'.part.symm) ?_
  refine (eq_flatMap (hlength h.part) fun k hk => ?_).trans (eq_flatMap_rows (hlength h'.part)).symm
  have hpos : 0 < ids.length := by
    by_contra hzero
    rw [Nat.eq_zero_of_not_pos hzero, Nat.mul_zero] at hk
    exact Nat.not_lt_zero k hk
  have hdiv := Nat.div_lt_of_lt_mul (Nat.mul_comm lead.prod _ ▸ hk)
  have hmod := Nat.mod_lt k hpos
  have hsplit : k / ids.length * ids.length + k % ids.length = k := Nat.div_add_mod' k ids.length
  have hrow := h.row _ hdiv _ hmod
  rw [hsplit] at hrow
  have hrow' := h'.row _ hdiv _ hmod
  rw [hsplit] at hrow'
  exact hrow.trans hrow'.symm

theorem quantizeRow_eq_ok {row : List UInt32} {p : UInt32 × List Int8} :
    quantizeRow row = .ok p ↔ (∀ v ∈ row, singleFinite v) ∧ p = quantizedPart row := by
  simp only [quantizeRow, bind_eq_ok, rejectIf_eq_ok, pure_eq_ok, not_exists, not_and, not_not]
  constructor
  · rintro ⟨_, hfinite, rfl⟩
    exact ⟨hfinite, rfl⟩
  · rintro ⟨hfinite, rfl⟩
    exact ⟨(), hfinite, rfl⟩

/-- What a row becomes. -/
def Int8Matrix.products (w : Int8Matrix) (f : Singles F) (row : List UInt32) : List UInt32 :=
  (List.range w.rows).map (w.cell f (quantizedPart row).2 (quantizedPart row).1)

theorem Int8Matrix.length_products (w : Int8Matrix) (f : Singles F) (row : List UInt32) :
    (w.products f row).length = w.rows := by
  rw [products, List.length_map, List.length_range]

/-- Rows that can be multiplied. -/
structure Int8Matrix.Multiplies (w : Int8Matrix) (n : ℕ) (x : Tensor) : Prop where
  dims : x.dims = [n, w.cols]
  cols : w.cols ≠ 0
  finite : ∀ t < n, ∀ v ∈ rowAt w.cols x.values t, singleFinite v

theorem Tensor.length_values {a b : ℕ} (h : x.dims = [a, b]) : x.values.length = a * b := by
  rw [x.length_eq, h]
  simp

theorem Int8Matrix.multiplies_of_forward {w : Int8Matrix} (hx : x.dims = [n, u])
    (hy : w.forward f x = .ok y) : w.Multiplies n x := by
  rw [forward, dims2_eq_ok hx, ok_bind] at hy
  simp only [bind_eq_ok, reject_eq_ok, not_not] at hy
  obtain ⟨_, rfl, _, hcols, quantized, hquantized, -⟩ := hy
  have hall := forall₂_of_mapM hquantized
  refine ⟨hx, fun hzero => ?_, fun t ht => ?_⟩
  · rw [assertThat, if_neg (not_not.mpr hzero)] at hcols
    cases hcols
  · have hlength : quantized.length = n := hall.length_eq.symm.trans List.length_range
    have hget := hall.get (i := t) (by simpa using ht) (by omega)
    rw [List.get_eq_getElem, List.get_eq_getElem, List.getElem_range, call_eq_ok,
      quantizeRow_eq_ok] at hget
    exact hget.1

theorem Int8Matrix.Multiplies.forward {w : Int8Matrix} (h : w.Multiplies n x) (hw : w.Valid) :
    ∃ y, w.forward f x = .ok y ∧ y.dims = [n, w.rows] ∧
      ∀ t < n, rowAt w.rows y.values t = w.products f (rowAt w.cols x.values t) := by
  have hlength := Tensor.length_values h.dims
  have hrows : ∀ t < n, (rowAt w.cols x.values t).length = w.cols := fun t ht =>
    length_rowAt ht hlength
  obtain ⟨part, hpart⟩ : ∃ part, part = fun t => quantizedPart (rowAt w.cols x.values t) := ⟨_, rfl⟩
  have hwidth : ∀ t < n, (part t).2.length = w.cols := fun t ht => by
    rw [hpart]
    exact (length_quantizedPart _).trans (hrows t ht)
  have hquantized : (List.range n).mapM (fun t =>
      (call (quantizeRow (rowAt w.cols x.values t)) : Code String _)) = .ok ((List.range n).map part) :=
    mapM_range_eq_ok fun t ht => by
      rw [call_eq_ok, quantizeRow_eq_ok, hpart]
      exact ⟨h.finite t ht, rfl⟩
  have hvalues : ((List.range n).map part).flatMap Prod.snd = (List.range n).flatMap fun t =>
      (part t).2 := List.flatMap_map ..
  have hactivation : ((List.range n).flatMap fun t => (part t).2).length = n * w.cols :=
    length_flatMap_rows hwidth
  have hscales : (((List.range n).map part).map Prod.fst).length = n := by simp
  have hproduct := matmul_eq_ok (f := f) (ε := String) hw hactivation hscales
  have hout : ((List.range n).flatMap fun t => (List.range w.rows).map
      (w.cell f (rowAt w.cols ((List.range n).flatMap fun t => (part t).2) t)
        ((((List.range n).map part).map Prod.fst).getD t 0))) =
      (List.range n).flatMap fun t => w.products f (rowAt w.cols x.values t) := by
    refine List.flatMap_congr fun t ht => ?_
    have ht := List.mem_range.mp ht
    rw [rowAt_flatMap hwidth ht, List.map_map, List.getD_eq_getElem?_getD, List.getElem?_map,
      List.getElem?_range ht, products, hpart]
    rfl
  rw [hout] at hproduct
  have hsize : ((List.range n).flatMap fun t => w.products f (rowAt w.cols x.values t)).length =
      [n, w.rows].prod := by
    rw [length_flatMap_rows fun t _ => w.length_products f _]
    simp
  refine ⟨⟨[n, w.rows], _, hsize⟩, ?_, rfl, fun t ht => rowAt_flatMap
    (fun t _ => w.length_products f _) ht⟩
  rw [Int8Matrix.forward, dims2_eq_ok h.dims, ok_bind]
  dsimp only
  rw [reject_pass (not_not.mpr rfl), assertThat_bind h.cols, hquantized, ok_bind, hvalues, hproduct,
    ok_bind, Tensor.fromVec_of_length hsize]
  rfl

theorem index_lt (hm : ∀ id ∈ ids, id.toNat < n) {r : ℕ} (hr : r < ids.length) :
    (ids.getD r 0).toNat < n := by
  rw [List.getD_eq_getElem?_getD, List.getElem?_eq_getElem hr]
  exact hm _ (List.getElem_mem hr)

theorem Picked.row_one (h : Picked ids [] n w x x') {r : ℕ} (hr : r < ids.length) :
    rowAt w x'.values r = rowAt w x.values (ids.getD r 0).toNat := by
  have hrow := h.row 0 (by simp) r hr
  rwa [Nat.zero_mul, Nat.zero_mul, Nat.zero_add, Nat.zero_add] at hrow

theorem Picked.of_rows (hx : x.dims = [n, w]) (hx' : x'.dims = [ids.length, w])
    (h : ∀ r < ids.length, rowAt w x'.values r = rowAt w x.values (ids.getD r 0).toNat) :
    Picked ids [] n w x x' := by
  refine ⟨hx, hx', fun i hi r hr => ?_⟩
  obtain rfl : i = 0 := by simpa using hi
  rw [Nat.zero_mul, Nat.zero_mul, Nat.zero_add, Nat.zero_add, h r hr]

theorem Int8Matrix.forward_follows {w : Int8Matrix} (hw : w.Valid) (hm : ∀ id ∈ ids, id.toNat < n)
    (hx : Picked ids [] n u x x') : Follows ids [] n (w.forward f x) (w.forward f x') := by
  intro y hy
  have hwhole := multiplies_of_forward hx.whole hy
  obtain ⟨z, hz, hdims, hrow⟩ := hwhole.forward (f := f) hw
  cases Except.ok.inj (hy.symm.trans hz)
  obtain rfl : u = w.cols := by
    have := hx.whole.symm.trans hwhole.dims
    simpa using this
  have hpart : w.Multiplies ids.length x' := by
    refine ⟨hx.part, hwhole.cols, fun r hr => ?_⟩
    rw [hx.row_one hr]
    exact hwhole.finite _ (index_lt hm hr)
  obtain ⟨y', hy', hdims', hrow'⟩ := hpart.forward (f := f) hw
  refine ⟨y', hy', w.rows, Picked.of_rows hdims hdims' fun r hr => ?_⟩
  rw [hrow' r hr, hrow _ (index_lt hm hr), hx.row_one hr]

section Layers
variable {h inner : ℕ}

theorem Linear.Fits.forward_follows {l : Linear} (hl : l.Fits h inner) (hc : c.RowWise)
    (hm : ∀ id ∈ ids, id.toNat < n) (hx : Picked ids [] n w x x') :
    Follows ids [] n (l.forward c f x) (l.forward c f x') := by
  refine (Int8Matrix.forward_follows hl.valid hm hx).bind fun y y' u hy => ?_
  cases hb : l.bias with
  | none => exact Follows.pure hy
  | some b =>
    have hrank : b.dims.length = 1 := by rw [hl.bias b hb, List.length_singleton]
    exact hc.vector _ _ hrank ids [] n u y y' hm hy

theorem Norm.Fits.forward_follows {norm : Norm F} (hnorm : norm.Fits h) (hc : c.RowWise)
    (hm : ∀ id ∈ ids, id.toNat < n) (hx : Picked ids lead n w x x') :
    Follows ids lead n (norm.forward c x) (norm.forward c x') := by
  have hvector : ∀ op (v : Tensor), v.dims = [h] → RowLocal (c.binary op · v) := fun op v hv =>
    hc.vector op v (by rw [hv, List.length_singleton])
  refine (hc.unary .meanKeepdim ids lead n w x x' hm hx).bind fun mean mean' _ hmean => ?_
  refine (hc.binary .broadcastSub ids lead n _ _ _ _ _ _ hm hx hmean).bind
    fun centered centered' _ hcentered => ?_
  refine (hc.unary .sqr ids lead n _ _ _ hm hcentered).bind fun squares squares' _ hsquares => ?_
  refine (hc.unary .meanKeepdim ids lead n _ _ _ hm hsquares).bind fun var var' _ hvar => ?_
  refine (hc.scalar .add norm.eps ids lead n _ _ _ hm hvar).bind fun var var' _ hvar => ?_
  refine (hc.unary .sqrt ids lead n _ _ _ hm hvar).bind fun root root' _ hroot => ?_
  refine (hc.binary .broadcastDiv ids lead n _ _ _ _ _ _ hm hcentered hroot).bind
    fun y y' _ hy => ?_
  refine (hvector .broadcastMul _ hnorm.weight ids lead n _ _ _ hm hy).bind fun y y' _ hy => ?_
  cases hb : norm.bias with
  | none => exact Follows.pure hy
  | some b => exact hvector _ b (hnorm.bias b hb) ids lead n _ y y' hm hy

theorem softmaxLast_follows (hc : c.RowWise) (hm : ∀ id ∈ ids, id.toNat < n)
    (hx : Picked ids lead n w x x') :
    Follows ids lead n (softmaxLast c x) (softmaxLast c x') := by
  refine (hc.unary .maxKeepdim ids lead n _ _ _ hm hx).bind fun max max' _ hmax => ?_
  refine (hc.binary .broadcastSub ids lead n _ _ _ _ _ _ hm hx hmax).bind
    fun shifted shifted' _ hshifted => ?_
  refine (hc.unary .exp ids lead n _ _ _ hm hshifted).bind fun e e' _ he => ?_
  refine (hc.unary .sumKeepdim ids lead n _ _ _ hm he).bind fun sum sum' _ hsum => ?_
  exact hc.binary .broadcastDiv ids lead n _ _ _ _ _ _ hm he hsum

namespace Attention
variable {heads d : ℕ}

/-- The rows that are left are as wide as their heads. -/
theorem width_of_reshape {a b : ℕ} (hm : ∀ id ∈ ids, id.toNat < n) (h : n * a = n * b) :
    ids = [] ∨ a = b := by
  cases ids with
  | nil => exact .inl rfl
  | cons id rest =>
    exact .inr (Nat.eq_of_mul_eq_mul_left (Nat.zero_lt_of_lt (hm id List.mem_cons_self)) h)

/-- The heads of some rows are those rows of the heads. -/
theorem split_follows (hc : c.Moves) (hm : ∀ id ∈ ids, id.toNat < n)
    (hx : Picked ids [] n h x x') :
    Follows ids [heads] n (split c x n heads d) (split c x' ids.length heads d) := by
  intro z hz
  obtain ⟨y, hy, hz⟩ := bind_eq_ok.mp hz
  obtain ⟨hdims, hvalues⟩ := (hc.reshape _ _ _).mp hy
  obtain ⟨q, hq, hqdims, hqrow⟩ := hc.transpose y n heads d hdims
  cases Except.ok.inj (hz.symm.trans hq)
  have hwide : ids = [] ∨ h = heads * d := by
    refine width_of_reshape hm ?_
    rw [← Tensor.length_values hx.whole, ← hvalues, y.length_eq, hdims]
    simp
  have hsize : x'.values.length = [ids.length, heads, d].prod := by
    rw [Tensor.length_values hx.part]
    rcases hwide with rfl | rfl <;> simp
  obtain ⟨y', hdims', hvalues'⟩ : ∃ y' : Tensor, y'.dims = [ids.length, heads, d] ∧
      y'.values = x'.values := ⟨⟨_, _, hsize⟩, rfl, rfl⟩
  have hy' := (hc.reshape x' y' _).mpr ⟨hdims', hvalues'⟩
  obtain ⟨q', hq', hqdims', hqrow'⟩ := hc.transpose y' ids.length heads d hdims'
  refine ⟨q', by rw [split, hy', ok_bind, hq'], d, hqdims, hqdims', fun i hi r hr => ?_⟩
  have hi : i < heads := by simpa using hi
  obtain rfl : h = heads * d := hwide.resolve_left (List.ne_nil_of_length_pos (by omega))
  have hlt := index_lt hm hr
  rw [hqrow' r hr i hi, hqrow _ hlt i hi, hvalues, hvalues', ← rowAt_rowAt hi, ← rowAt_rowAt hi,
    hx.row_one hr]

/-- A row that is cut into pieces. -/
theorem rowAt_pieces {xs : List UInt32} {i : ℕ} (hi : i < n) (hlength : xs.length = n * (heads * d)) :
    rowAt (heads * d) xs i = (List.range heads).flatMap fun j => rowAt d xs (i * heads + j) :=
  eq_flatMap (length_rowAt hi hlength) fun _ hj => rowAt_rowAt hj

/-- The heads of some rows are merged to those rows. -/
theorem merge_follows (hc : c.Moves) (hm : ∀ id ∈ ids, id.toNat < n)
    (hx : Picked ids [heads] n d x x') :
    Follows ids [] n (c.transpose x 0 1 >>= fun y => c.reshape y [n, h])
      (c.transpose x' 0 1 >>= fun y => c.reshape y [ids.length, h]) := by
  intro z hz
  obtain ⟨q, hq, hqdims, hqrow⟩ := hc.transpose x heads n d hx.whole
  obtain ⟨q', hq', hqdims', hqrow'⟩ := hc.transpose x' heads ids.length d hx.part
  rw [hq, ok_bind] at hz
  obtain ⟨hdims, hvalues⟩ := (hc.reshape _ _ _).mp hz
  have hlength : q.values.length = n * (heads * d) := by
    rw [q.length_eq, hqdims]
    simp
  have hlength' : q'.values.length = ids.length * (heads * d) := by
    rw [q'.length_eq, hqdims']
    simp
  have hwide : ids = [] ∨ h = heads * d := by
    refine width_of_reshape hm ?_
    rw [← hlength, ← hvalues, Tensor.length_values hdims]
  have hsize : q'.values.length = [ids.length, h].prod := by
    rw [hlength']
    rcases hwide with rfl | rfl <;> simp
  have hz' := (hc.reshape q' ⟨[ids.length, h], q'.values, hsize⟩ _).mpr ⟨rfl, rfl⟩
  refine ⟨_, by rw [hq', ok_bind, hz'], h, Picked.of_rows hdims rfl fun r hr => ?_⟩
  obtain rfl : h = heads * d := hwide.resolve_left (List.ne_nil_of_length_pos (by omega))
  have hlt := index_lt hm hr
  rw [hvalues, rowAt_pieces hr hlength', rowAt_pieces hlt hlength]
  refine List.flatMap_congr fun j hj => ?_
  have hj := List.mem_range.mp hj
  rw [hqrow' j hj r hr, hqrow j hj _ hlt]
  exact hx.row j (by simpa using hj) r hr

theorem attend_follows {a : Attention} {k v q q' : Tensor} (ha : a.Fits inner) (ht : c.Moves)
    (hc : c.RowWise) (hm : ∀ id ∈ ids, id.toNat < n) (hq : Picked ids [heads] n w q q') :
    Follows ids [] n (a.attend c f q k v n h d) (a.attend c f q' k v ids.length h d) := by
  refine Follows.shared _ fun k _ => ?_
  refine (hc.matmul k ids [heads] n _ _ _ hm hq).bind fun scores scores' _ hscores => ?_
  refine (hc.scalar .mul (c.inverseSqrt d) ids [heads] n _ _ _ hm hscores).bind
    fun scores scores' _ hscores => ?_
  refine (softmaxLast_follows hc hm hscores).bind fun probs probs' _ hprobs => ?_
  refine (hc.matmul v ids [heads] n _ _ _ hm hprobs).bind fun merged merged' _ hmerged => ?_
  have hrest := (merge_follows (h := h) ht hm hmerged).bind fun y y' _ hy =>
    ha.out.forward_follows (f := f) hc hm hy
  rwa [bind_assoc, bind_assoc] at hrest

/-- Attention for some rows is what attention for all leaves at those rows. -/
theorem forward_follows {a : Attention} (ha : a.Fits inner) (ht : c.Moves) (hc : c.RowWise)
    (hm : ∀ id ∈ ids, id.toNat < n) (hx : x.dims = [n, w]) :
    Follows ids [] n (a.forward c f x) (a.forwardMarkers c f x ids) := by
  rw [forward, forwardMarkers, dims2_eq_ok hx, ok_bind, ok_bind]
  refine Follows.shared _ fun d _ => Follows.shared _ fun y hy => Follows.shared _ fun q hq => ?_
  obtain ⟨selected, -, hselected⟩ := ht.indexSelect x ids n w hx hm
  obtain ⟨_, -, u, hypicked⟩ := ha.qkv.forward_follows (f := f) hc hm hselected y hy
  have hqdims := ht.narrow y q n u 0 w hypicked.whole hq
  obtain ⟨queries, hqueries, hpicked⟩ := ht.indexSelect q ids n w hqdims hm
  rw [hqueries, ok_bind]
  refine (split_follows ht hm hpicked).bind fun q q' u hq => ?_
  refine Follows.shared _ fun k _ => Follows.shared _ fun k _ => ?_
  refine Follows.shared _ fun v _ => Follows.shared _ fun v _ => ?_
  exact attend_follows ha ht hc hm hq

end Attention

namespace DecisionLayer
variable {l : DecisionLayer F}

theorem Fits.ff_follows (hl : l.Fits h inner) (hc : c.RowWise) (hm : ∀ id ∈ ids, id.toNat < n)
    (hx : Picked ids [] n w x x') : Follows ids [] n (l.ff c f x) (l.ff c f x') := by
  refine (hl.linear1.forward_follows hc hm hx).bind fun y y' _ hy => ?_
  refine (hc.unary _ ids [] n _ y y' hm hy).bind fun z z' _ hz => ?_
  exact hl.linear2.forward_follows hc hm hz

/-- A layer for some rows is what the whole layer leaves at those rows. -/
theorem Fits.forward_follows (hl : l.Fits h inner) (ht : c.Moves) (hc : c.RowWise)
    (hm : ∀ id ∈ ids, id.toNat < n) (hx : x.dims = [n, w]) :
    Follows ids [] n (l.forward c f x) (l.forwardMarkers c f x ids) := by
  obtain ⟨selected, hselected, hpicked⟩ := ht.indexSelect x ids n w hx hm
  rw [forward, forwardMarkers, hselected, ok_bind]
  by_cases hfirst : l.normFirst = true
  · rw [if_pos hfirst, if_pos hfirst]
    refine Follows.shared _ fun normalized hnormalized => ?_
    obtain ⟨_, -, u, hdims⟩ := hl.norm1.forward_follows hc hm hpicked normalized hnormalized
    refine (Attention.forward_follows hl.attention ht hc hm hdims.whole).bind
      fun attended attended' _ hattended => ?_
    refine (hc.binary .add ids [] n _ _ _ _ _ _ hm hpicked hattended).bind
      fun sum sum' _ hsum => ?_
    refine (hl.norm2.forward_follows hc hm hsum).bind fun second second' _ hsecond => ?_
    refine (hl.ff_follows hc hm hsecond).bind fun out out' _ hout => ?_
    exact hc.binary .add ids [] n _ _ _ _ _ _ hm hsum hout
  · rw [if_neg hfirst, if_neg hfirst]
    refine (Attention.forward_follows hl.attention ht hc hm hx).bind
      fun attended attended' _ hattended => ?_
    refine (hc.binary .add ids [] n _ _ _ _ _ _ hm hpicked hattended).bind
      fun sum sum' _ hsum => ?_
    refine (hl.norm1.forward_follows hc hm hsum).bind fun first first' _ hfirst => ?_
    refine (hl.ff_follows hc hm hfirst).bind fun out out' _ hout => ?_
    refine (hc.binary .add ids [] n _ _ _ _ _ _ hm hfirst hout).bind fun sum sum' _ hsum => ?_
    exact hl.norm2.forward_follows hc hm hsum

/-- The marker rows of a layer. -/
theorem Fits.forward_select (hl : l.Fits h inner) (ht : c.Moves) (hc : c.RowWise)
    (hm : ∀ id ∈ ids, id.toNat < n) (hx : x.dims = [n, w]) (hy : l.forward c f x = .ok y) :
    l.forwardMarkers c f x ids = c.indexSelect y ids 0 := by
  obtain ⟨rows, hrows, u, hpicked⟩ := hl.forward_follows ht hc hm hx y hy
  obtain ⟨selected, hselected, hpicked'⟩ := ht.indexSelect y ids n u hpicked.whole hm
  rw [hrows, hselected, hpicked.unique hpicked']

end DecisionLayer

end Layers

end Rows

/-! A tensor library of plain loops, on bits as whole numbers. -/
namespace PlainLoops
variable {ids : List UInt32} {lead : List ℕ} {n w : ℕ} {x x' : Tensor}

theorem length_table (lead : List ℕ) (n w : ℕ) (cell : ℕ → ℕ → ℕ → UInt32) :
    ((List.range (lead.prod * n)).flatMap fun t => (List.range w).map (cell (t / n) (t % n))).length =
      (lead ++ [n, w]).prod := by
  rw [length_flatMap_rows fun t _ => by rw [List.length_map, List.length_range]]
  simp [Nat.mul_assoc]

/-- Matrices by their cells. -/
def table (lead : List ℕ) (n w : ℕ) (cell : ℕ → ℕ → ℕ → UInt32) : Tensor :=
  ⟨lead ++ [n, w], _, length_table lead n w cell⟩

theorem row_table {cell : ℕ → ℕ → ℕ → UInt32} {i r : ℕ} (hi : i < lead.prod) (hr : r < n) :
    rowAt w (table lead n w cell).values (i * n + r) = (List.range w).map (cell i r) := by
  have hlt : i * n + r < lead.prod * n := by nlinarith
  have hdiv : (i * n + r) / n = i := by
    rw [Nat.mul_comm, Nat.mul_add_div (by omega), Nat.div_eq_of_lt hr, Nat.add_zero]
  have hmod : (i * n + r) % n = r := by rw [Nat.mul_comm, Nat.mul_add_mod, Nat.mod_eq_of_lt hr]
  refine (rowAt_flatMap (fun t _ => by rw [List.length_map, List.length_range]) hlt).trans ?_
  rw [hdiv, hmod]

/-- The matrices of a tensor: how many, and their sizes. -/
def sizes (x : Tensor) : Option (List ℕ × ℕ × ℕ) :=
  match x.dims.reverse with
  | w :: n :: lead => some (lead.reverse, n, w)
  | _ => none

theorem sizes_eq (h : x.dims = lead ++ [n, w]) : sizes x = some (lead, n, w) := by
  simp [sizes, h]

/-- What a row becomes, by the number and the sizes of the matrices. -/
def byRow (row : List ℕ → ℕ → Option (ℕ × (ℕ → List UInt32 → ℕ → UInt32))) (x : Tensor) :
    Code String Tensor := do
  let size ← okOr (sizes x) (.raise "unexpected rank")
  let op ← okOr (row size.1 size.2.2) (.raise "shape mismatch")
  pure (table size.1 size.2.1 op.1 fun i r =>
    op.2 i (rowAt size.2.2 x.values (i * size.2.1 + r)))

theorem rowLocal_byRow (row : List ℕ → ℕ → Option (ℕ × (ℕ → List UInt32 → ℕ → UInt32))) :
    RowLocal (byRow row) := by
  intro ids lead n w x x' hm hx y hy
  rw [byRow, sizes_eq hx.whole] at hy
  rw [byRow, sizes_eq hx.part]
  simp only [bind_eq_ok, okOr_eq_ok, pure_eq_ok] at hy ⊢
  obtain ⟨_, ⟨⟩, op, hop, rfl⟩ := hy
  refine ⟨_, ⟨_, rfl, op, hop, rfl⟩, op.1, rfl, rfl, fun i hi r hr => ?_⟩
  rw [row_table hi hr, row_table hi (index_lt hm hr), hx.row i hi r hr]

/-- Both tensors have the same matrices; the right one may have one column. -/
def byRows (cell : List UInt32 → List UInt32 → ℕ → UInt32) (x y : Tensor) : Code String Tensor := do
  let size ← okOr (sizes x) (.raise "unexpected rank")
  let other ← okOr (sizes y) (.raise "unexpected rank")
  reject (size.1 ≠ other.1 ∨ size.2.1 ≠ other.2.1 ∨ (other.2.2 ≠ size.2.2 ∧ other.2.2 ≠ 1))
    "shape mismatch"
  pure (table size.1 size.2.1 size.2.2 fun i r =>
    cell (rowAt size.2.2 x.values (i * size.2.1 + r)) (rowAt other.2.2 y.values (i * size.2.1 + r)))

theorem byRows_follows {u : ℕ} {y y' : Tensor} (cell : List UInt32 → List UInt32 → ℕ → UInt32)
    (hm : ∀ id ∈ ids, id.toNat < n) (hx : Picked ids lead n w x x') (hy : Picked ids lead n u y y') :
    Follows ids lead n (byRows cell x y) (byRows cell x' y') := by
  intro z hz
  rw [byRows, sizes_eq hx.whole, sizes_eq hy.whole] at hz
  rw [byRows, sizes_eq hx.part, sizes_eq hy.part]
  simp only [bind_eq_ok, okOr_eq_ok, pure_eq_ok, reject_eq_ok] at hz ⊢
  obtain ⟨_, ⟨⟩, _, ⟨⟩, _, hpass, rfl⟩ := hz
  refine ⟨_, ⟨_, rfl, _, rfl, (), ?_, rfl⟩, w, rfl, rfl, fun i hi r hr => ?_⟩
  · simpa using hpass
  · rw [row_table hi hr, row_table hi (index_lt hm hr), hx.row i hi r hr, hy.row i hi r hr]

/-- The number that stands in a row, or alone in it. -/
def cellOf (row : List UInt32) (k : ℕ) : UInt32 := if row.length = 1 then row.headD 0 else row.getD k 0

def unaryRow : UnaryKernel → ℕ → ℕ × (List UInt32 → ℕ → UInt32)
  | .meanKeepdim, w => (1, fun row _ => row.foldl (· + ·) 0 / UInt32.ofNat w)
  | .maxKeepdim, _ => (1, fun row _ => row.foldl max 0)
  | .sumKeepdim, _ => (1, fun row _ => row.foldl (· + ·) 0)
  | .sqr, w => (w, fun row k => row.getD k 0 * row.getD k 0)
  | .sqrt, w => (w, fun row k => UInt32.ofNat (row.getD k 0).toNat.sqrt)
  | .exp, w | .relu, w | .geluErf, w => (w, fun row k => row.getD k 0)

def scalarCell : ScalarKernel → ℚ → UInt32 → UInt32
  | .add, v, a => a + UInt32.ofInt v.floor
  | .mul, v, a => UInt32.ofInt (v * a.toNat).floor

def binaryCell : BinaryKernel → UInt32 → UInt32 → UInt32
  | .add, a, b | .broadcastAdd, a, b => a + b
  | .broadcastSub, a, b => a - b
  | .broadcastMul, a, b => a * b
  | .broadcastDiv, a, b => a / b

/-- The product with a matrix for each matrix. -/
def productRow (k : Tensor) (lead : List ℕ) (w : ℕ) : Option (ℕ × (ℕ → List UInt32 → ℕ → UInt32)) :=
  (sizes k).bind fun size => if size.1 = lead ∧ size.2.1 = w then
    some (size.2.2, fun i row j => (List.range w).foldl (fun sum l =>
      sum + row.getD l 0 * k.values.getD ((i * w + l) * size.2.2 + j) 0) 0) else none

def candle : Candle ℚ where
  unary op := byRow fun _ w => some ((unaryRow op w).1, fun _ => (unaryRow op w).2)
  scalar op x v := byRow (fun _ w => some (w, fun _ row k => scalarCell op v (row.getD k 0))) x
  binary op x y := if y.dims.length = 1 then
      byRow (fun _ w => some (w, fun _ row k =>
        binaryCell op (row.getD k 0) (cellOf y.values k))) x
    else byRows (fun a b k => binaryCell op (a.getD k 0) (cellOf b k)) x y
  matmul x k := byRow (productRow k) x
  narrow x dim start length := match x.dims, dim with
    | [n, w], 1 => if start + length ≤ w then
        .ok (table [] n length fun _ r k => x.values.getD (r * w + (start + k)) 0)
      else .error (.raise "narrow")
    | _, _ => .error (.raise "narrow")
  reshape x dims := call (Tensor.fromVec x.values dims)
  transpose x dim₁ dim₂ := match x.dims, dim₁, dim₂ with
    | [a, b, d], 0, 1 =>
      .ok (table [b] a d fun j i k => (rowAt d x.values (i * b + j)).getD k 0)
    | [a, b, d], 1, 2 =>
      .ok (table [a] d b fun i k j => (rowAt d x.values (i * b + j)).getD k 0)
    | _, _, _ => .error (.raise "transpose")
  indexSelect x ids dim := match x.dims, dim with
    | [n, w], 0 => if ∀ id ∈ ids, id.toNat < n then
        .ok (table [] ids.length w fun _ r k =>
          (rowAt w x.values (ids.getD r 0).toNat).getD k 0)
      else .error (.raise "index-select")
    | _, _ => .error (.raise "index-select")
  inverseSqrt d := 1 / d

/-- A row by its numbers. -/
theorem map_getD {row : List UInt32} (h : row.length = w) :
    (List.range w).map (fun k => row.getD k 0) = row := by
  refine List.ext_getElem (by simp [h]) fun k hk _ => ?_
  rw [List.getElem_map, List.getElem_range, List.getD_eq_getElem?_getD,
    List.getElem?_eq_getElem (by simpa [h] using hk)]
  rfl

theorem candle_moves : candle.Moves where
  narrow x y n w start length hx hy := by
    simp only [candle, hx] at hy
    split at hy
    · cases hy
      rfl
    · cases hy
  reshape x y dims := by
    show call (Tensor.fromVec x.values dims) = _ ↔ _
    rw [call_eq_ok, Tensor.fromVec_eq_ok]
  transpose x a b d hx := by
    have hlength : x.values.length = (a * b) * d := by
      rw [x.length_eq, hx]
      simp [Nat.mul_assoc]
    refine ⟨_, by simp only [candle, hx]; rfl, rfl, fun i hi j hj => ?_⟩
    have hlt : i * b + j < a * b := by nlinarith
    rw [row_table (by simpa using hj) hi, map_getD (length_rowAt hlt hlength)]
  indexSelect x ids n w hx hm := by
    refine ⟨_, by simp only [candle, hx]; exact if_pos hm, Picked.of_rows hx rfl fun r hr => ?_⟩
    have hrow : rowAt w (table [] ids.length w fun _ r k =>
        (rowAt w x.values (ids.getD r 0).toNat).getD k 0).values (0 * ids.length + r) = _ :=
      row_table (by simp) hr
    rw [Nat.zero_mul, Nat.zero_add] at hrow
    rw [hrow, map_getD (length_rowAt (index_lt hm hr) (Tensor.length_values hx))]

theorem candle_rowWise : candle.RowWise where
  unary op := rowLocal_byRow fun _ w => some ((unaryRow op w).1, fun _ => (unaryRow op w).2)
  scalar op v := rowLocal_byRow fun _ w => some (w, fun _ row k => scalarCell op v (row.getD k 0))
  matmul k := rowLocal_byRow (productRow k)
  vector op v hv := by
    have hop : (candle.binary op · v) = byRow fun _ w => some (w, fun _ row k =>
        binaryCell op (row.getD k 0) (cellOf v.values k)) := funext fun _ => if_pos hv
    rw [hop]
    exact rowLocal_byRow _
  binary op ids lead n w u x x' y y' hm hx hy := by
    have hrank : ∀ m, (lead ++ [m, u]).length ≠ 1 := fun m => by simp
    show Follows ids lead n (ite _ _ _) (ite _ _ _)
    rw [if_neg (hy.whole ▸ hrank n), if_neg (hy.part ▸ hrank ids.length)]
    exact byRows_follows _ hm hx hy

end PlainLoops

end IcLaya
