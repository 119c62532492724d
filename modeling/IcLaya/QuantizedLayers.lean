import IcLaya.LaneProducts
import IcLaya.QuantizedAttention

/-!
# Layers on signed bytes (`laya-candle/src/quantized.rs`)

Every operator returns rows of the sizes that its weights call for, or stops at a number that is not
finite; no check of a shape, no index and no assertion fails. Operators that follow each other then
do so too, up to whole layers.
-/
namespace IcLaya
open Fallible PanickingCode LoopOutcomes RowBuffers StoreLoops

section Code
variable {F : Type} (f : Singles F)

def Tensor.toVec1 (t : Tensor) : Code String (List UInt32) := do
  reject (t.dims.length ≠ 1) "unexpected rank"
  pure t.values

/-- `bias.map(to_vec1).transpose()?` -/
def biasRow (b : Option Tensor) : Code String (Option (List UInt32)) :=
  b.elim (pure none) fun b => some <$> b.toVec1

namespace Linear

def q8Grouped (l : Linear) (x : QTensor) (groups : ℕ) : Code String QTensor := do
  let bias ← biasRow l.bias
  l.weight.forwardQ8Grouped f x bias groups

def q8 (l : Linear) (x : QTensor) : Code String QTensor := do
  let bias ← biasRow l.bias
  l.weight.forwardQ8 f x bias

end Linear

/-- `normalize_affine`; the mean and the factor come from the sums of the row and its scale. -/
def normalizeAffine (src : List Int8) (eps : F) (sums : ℤ × ℤ) (scale : UInt32) (w : List UInt32)
    (b : Option (List UInt32)) (width : ℕ) : Code String (List UInt32) := do
  assertThat (src.length = width)
  assertThat (w.length = width)
  assertThat (b.all fun b => b.length = width)
  (List.range src.length).mapM fun c => do
    let v ← unwrap src[c]?
    let s ← unwrap w[c]?
    let t ← b.elim (pure 0) fun b => unwrap b[c]?
    pure (f.add (f.mul (f.normalized eps sums width scale v) s) t)

namespace Norm

def q8 (n : Norm F) (x : QTensor) : Code String QTensor := do
  reject (x.groups ≠ 1) "q8 norm input grouping"
  let w ← n.weight.toVec1
  let b ← biasRow n.bias
  QTensor.fillRows x.rows x.cols fun r => do
    let row ← slice x.values (r * x.cols) ((r + 1) * x.cols)
    let sums ← statistics row
    let scale ← unwrap x.scales[r]?
    normalizeAffine f row n.eps sums scale w b x.cols

end Norm

namespace Attention

def q8 (a : Attention) (x : QTensor) (theta : Option F) (distance : Option ℕ)
    (markers : Option (List UInt32)) : Code String QTensor := do
  let d ← wholeDiv x.cols a.heads
  let y ← a.qkv.q8Grouped f x (3 * a.heads)
  let ids := markers.elim (List.range x.rows) fun m => m.map UInt32.toNat
  let merged ← Heads.merged f ⟨y, x.rows, x.cols, d, a.heads, theta, distance⟩ ids
  a.out.q8 f merged

end Attention

/-- The first half of a row, activated, gates the second. -/
def gated (y : QTensor) : Code String QTensor :=
  let half := y.cols / 2
  QTensor.fillRows y.rows half fun r => (List.range half).mapM fun c => do
    let a ← y.value f r c
    let b ← y.value f r (half + c)
    pure (f.mul (f.gelu a) b)

namespace EncoderLayer

def q8 (l : EncoderLayer F) (x : QTensor) : Code String QTensor := do
  let normalized ← l.attentionNorm.elim (pure x) fun n => n.q8 f x
  let attended ← l.attention.q8 f normalized (some l.theta) l.distance none
  let x ← x.add f attended
  let normalized ← l.mlpNorm.q8 f x
  let y ← l.wi.q8Grouped f normalized 2
  let gate ← gated f y
  let out ← l.wo.q8 f gate
  x.add f out

end EncoderLayer

def activate : Activation → UInt32 → UInt32
  | .relu, v => f.max v 0
  | .gelu, v => f.gelu v

namespace DecisionLayer

def ffQ8 (l : DecisionLayer F) (x : QTensor) : Code String QTensor := do
  let x ← l.linear1.q8 f x
  let x ← x.map f (activate f l.activation)
  l.linear2.q8 f x

def q8 (l : DecisionLayer F) (x : QTensor) (markers : Option (List UInt32)) :
    Code String QTensor := do
  let selected ← markers.elim (pure x) fun m => x.select m
  if l.normFirst then do
    let normalized ← l.norm1.q8 f x
    let attended ← l.attention.q8 f normalized none none markers
    let x ← selected.add f attended
    let normalized ← l.norm2.q8 f x
    let out ← l.ffQ8 f normalized
    x.add f out
  else do
    let attended ← l.attention.q8 f x none none markers
    let sum ← selected.add f attended
    let x ← l.norm1.q8 f sum
    let out ← l.ffQ8 f x
    let sum ← x.add f out
    l.norm2.q8 f sum

end DecisionLayer

end Code

section Tables
variable {F : Type} (f : Singles F)

namespace QTensor

/-- A table of rows, one group each. -/
abbrev quantizeRows (n width : ℕ) (row : ℕ → List UInt32) : Option QTensor :=
  quantizeParts n 1 width row

def mapTable (x : QTensor) (g : UInt32 → UInt32) : Option QTensor :=
  quantizeRows x.rows x.cols fun r => (singles f x.cols (x.part x.cols r)).map g

def addTable (x y : QTensor) : Option QTensor :=
  quantizeRows x.rows x.cols fun r => sums f x.cols (x.part x.cols r) (y.part x.cols (y.addend r))

def gatedTable (y : QTensor) : Option QTensor :=
  let half := y.cols / 2
  quantizeRows y.rows half fun r => (List.range half).map fun c =>
    f.mul (f.gelu (single f (y.part half (r * 2)) c)) (single f (y.part half (r * 2 + 1)) c)

end QTensor

def Linear.table (l : Linear) (x : QTensor) (groups : ℕ) : Option QTensor :=
  QTensor.quantizeParts x.rows groups (l.weight.rows / groups)
    (l.weight.groupRow f (l.bias.map Tensor.values) x groups)

/-- A normalized part, with its weights and its bias. -/
def Norm.row (n : Norm F) (width : ℕ) (p : UInt32 × List Int8) : List UInt32 :=
  (List.range width).map fun c =>
    f.add (f.mul (f.normalized n.eps (sumsOf p.2) width p.1 (p.2.getD c 0))
      (n.weight.values.getD c 0)) (n.bias.elim 0 fun b => b.values.getD c 0)

def Norm.table (n : Norm F) (x : QTensor) : Option QTensor :=
  QTensor.quantizeRows x.rows x.cols fun r => n.row f x.cols (x.part x.cols r)

def Attention.table (a : Attention) (x : QTensor) (theta : Option F) (distance : Option ℕ)
    (ids : List ℕ) : Option QTensor := do
  let y ← a.qkv.table f x (3 * a.heads)
  let m ← Heads.table f ⟨y, x.rows, x.cols, x.cols / a.heads, a.heads, theta, distance⟩ ids
  a.out.table f m 1

def EncoderLayer.table (l : EncoderLayer F) (x : QTensor) : Option QTensor := do
  let normalized ← l.attentionNorm.elim (some x) fun n => n.table f x
  let attended ← l.attention.table f normalized (some l.theta) l.distance (List.range x.rows)
  let x ← x.addTable f attended
  let normalized ← l.mlpNorm.table f x
  let y ← l.wi.table f normalized 2
  let gate ← y.gatedTable f
  let out ← l.wo.table f gate 1
  x.addTable f out

namespace DecisionLayer

def ffTable (l : DecisionLayer F) (x : QTensor) : Option QTensor := do
  let x ← l.linear1.table f x 1
  let x ← x.mapTable f (activate f l.activation)
  l.linear2.table f x 1

/-- The layer on the rows of `ids`, whose hidden rows are `selected`. -/
def table (l : DecisionLayer F) (x selected : QTensor) (ids : List ℕ) : Option QTensor :=
  if l.normFirst then do
    let normalized ← l.norm1.table f x
    let attended ← l.attention.table f normalized none none ids
    let x ← selected.addTable f attended
    let normalized ← l.norm2.table f x
    let out ← l.ffTable f normalized
    x.addTable f out
  else do
    let attended ← l.attention.table f x none none ids
    let sum ← selected.addTable f attended
    let x ← l.norm1.table f sum
    let out ← l.ffTable f x
    let sum ← x.addTable f out
    l.norm2.table f sum

end DecisionLayer

end Tables

section Steps

/-- Code that leaves a table with rows of one shape, or stops at a number that is not finite. -/
structure Computes (rows groups width : ℕ) (code : Code String QTensor) (spec : Option QTensor) :
    Prop where
  eq : code = okOr spec nonfinite
  shaped : ∀ y, spec = some y → y.Shaped rows groups width

variable {rows groups width n g w : ℕ} {code : Code String QTensor} {spec : Option QTensor}

theorem Computes.pure {x : QTensor} (h : x.Shaped rows groups width) :
    Computes rows groups width (.ok x) (some x) :=
  ⟨rfl, fun _ hy => Option.some.inj hy ▸ h⟩

/-- One step after the other. -/
theorem Computes.bind (h : Computes rows groups width code spec)
    {next : QTensor → Code String QTensor} {after : QTensor → Option QTensor}
    (hnext : ∀ y, y.Shaped rows groups width → Computes n g w (next y) (after y)) :
    Computes n g w (code >>= next) (spec >>= after) := by
  refine ⟨?_, fun y hy => ?_⟩
  · rw [h.eq]
    exact okOr_bind fun y hy => (hnext y (h.shaped y hy)).eq
  · obtain ⟨x, hx, hy⟩ := Option.bind_eq_some_iff.mp hy
    exact (hnext x (h.shaped x hx)).shaped y hy

theorem Computes.parts {row : ℕ → List UInt32}
    (heq : code = okOr (QTensor.quantizeParts rows groups width row) nonfinite)
    (hw : ∀ k < rows * groups, (row k).length = width) :
    Computes rows groups width code (QTensor.quantizeParts rows groups width row) :=
  ⟨heq, fun _ hy => QTensor.quantizeParts_shaped hw hy⟩

end Steps

section Operators
variable {F : Type} {f : Singles F} {x y : QTensor} {n m width rows cols groups : ℕ} {l : Linear}
  {norm : Norm F}

/-- A bias of a length. -/
def FitsBias (bias : Option Tensor) (length : ℕ) : Prop := ∀ b, bias = some b → b.dims = [length]

structure Linear.Fits (l : Linear) (rows cols : ℕ) : Prop where
  valid : l.weight.Valid
  rows_eq : l.weight.rows = rows
  cols_eq : l.weight.cols = cols
  bias : FitsBias l.bias rows

structure Norm.Fits (norm : Norm F) (width : ℕ) : Prop where
  weight : norm.weight.dims = [width]
  bias : FitsBias norm.bias width

theorem Tensor.toVec1_eq {t : Tensor} (h : t.dims = [width]) :
    t.toVec1 = .ok t.values ∧ t.values.length = width := by
  refine ⟨?_, ?_⟩
  · rw [toVec1, reject_pass (by rw [h, List.length_singleton, not_not])]
    rfl
  · rw [t.length_eq, h, List.prod_singleton]

theorem biasRow_eq {bias : Option Tensor} (h : FitsBias bias width) :
    biasRow bias = .ok (bias.map Tensor.values) ∧
      ∀ b, bias.map Tensor.values = some b → b.length = width := by
  cases bias with
  | none => exact ⟨rfl, fun b hb => by cases hb⟩
  | some t =>
    obtain ⟨hvec, hlength⟩ := Tensor.toVec1_eq (h t rfl)
    refine ⟨?_, fun b hb => ?_⟩
    · show (some <$> t.toVec1 : Code String _) = _
      rw [hvec]
      rfl
    · cases hb
      exact hlength

theorem QTensor.Shaped.cols_one (h : x.Shaped n 1 width) : x.cols = width := by
  rw [h.cols_eq, Nat.one_mul]

theorem Linear.Fits.q8Grouped_computes (hl : l.Fits rows cols) (hx : x.Shaped n 1 cols)
    (hg : 0 < groups) (hdvd : rows % groups = 0) :
    Computes n groups (rows / groups) (l.q8Grouped f x groups) (l.table f x groups) := by
  obtain ⟨hbias, hlength⟩ := biasRow_eq hl.bias
  have hrows := hl.rows_eq
  have hcols := hl.cols_eq
  subst hrows hcols
  rw [Linear.q8Grouped, hbias, ok_bind, Linear.table, hx.rows_eq]
  exact Computes.parts (forwardQ8Grouped_eq ⟨hl.valid, hlength, hx⟩ hg hdvd)
    fun k _ => length_groupRow k

theorem Linear.Fits.q8_computes (hl : l.Fits rows cols) (hx : x.Shaped n 1 cols) :
    Computes n 1 rows (l.q8 f x) (l.table f x 1) := by
  have h := hl.q8Grouped_computes (f := f) hx Nat.one_pos (Nat.mod_one rows)
  rwa [Nat.div_one] at h

theorem all_length {b : Option (List UInt32)} (h : ∀ x, b = some x → x.length = width) :
    (b.all fun b => b.length = width) = true := by
  cases b with
  | none => rfl
  | some x => exact decide_eq_true (h x rfl)

theorem statistics_eq {src : List Int8} (hpos : 0 < src.length) (hle : src.length ≤ 16384) :
    (statistics src : Code String _) = .ok (sumsOf src) := by
  rw [statistics, if_pos ⟨List.ne_nil_of_length_pos hpos, hle⟩]
  show Except.ok _ = _
  have hfold := foldl_statistics src (0, 0)
  simp only [Int.zero_add] at hfold
  exact congrArg Except.ok hfold

theorem Norm.Fits.q8_computes (hnorm : norm.Fits width) (hx : x.Shaped n 1 width)
    (hpos : 0 < width) (hle : width ≤ 16384) :
    Computes n 1 width (norm.q8 f x) (norm.table f x) := by
  obtain ⟨hweight, hlength⟩ := Tensor.toVec1_eq hnorm.weight
  obtain ⟨hbias, hlengthb⟩ := biasRow_eq hnorm.bias
  have hvalues : x.values.length = n * width := by rw [hx.values, Nat.mul_one]
  rw [Norm.q8, reject_pass (by rw [hx.groups_eq, not_not]), hweight, ok_bind, hbias, ok_bind,
    Norm.table, hx.rows_eq, hx.cols_one]
  refine Computes.parts (QTensor.fillRows_eq (fun r hr => ?_) fun r hr => by simp [Norm.row])
    fun k _ => by simp [Norm.row]
  have hrow : (rowAt width x.values r).length = width := length_rowAt hr hvalues
  rw [slice_row hr hvalues rfl (Nat.succ_mul r width), ok_bind,
    statistics_eq (by rw [hrow]; exact hpos) (by rw [hrow]; exact hle), ok_bind,
    unwrap_getElem? (by rw [hx.scales, Nat.mul_one]; exact hr) 0, ok_bind, normalizeAffine,
    assertThat_bind hrow, assertThat_bind hlength, assertThat_bind (all_length hlengthb), hrow]
  refine mapM_range_eq_ok fun c hc => ?_
  rw [unwrap_getElem? (by omega) 0, ok_bind, unwrap_getElem? (by omega) 0, ok_bind]
  cases hb : norm.bias with
  | none => rfl
  | some b =>
    have hlb := hlengthb b.values (by rw [hb]; rfl)
    show (unwrap b.values[c]? >>= _) = _
    rw [unwrap_getElem? (by omega) 0]
    rfl

theorem QTensor.Shaped.map_computes (hx : x.Shaped n 1 width) (g : UInt32 → UInt32) :
    Computes n 1 width (x.map f g) (x.mapTable f g) := by
  rw [QTensor.mapTable, hx.rows_eq, hx.cols_one]
  exact Computes.parts (QTensor.map_eq hx g) fun k _ => by simp [QTensor.singles]

theorem QTensor.Shaped.add_computes (hx : x.Shaped n 1 width) (hy : y.Shaped m 1 width)
    (hm : m = n ∨ m = 1) : Computes n 1 width (x.add f y) (x.addTable f y) := by
  rw [QTensor.addTable, hx.rows_eq, hx.cols_one]
  exact Computes.parts (QTensor.add_eq hx hy hm) fun k _ => by simp [QTensor.sums]

theorem QTensor.Shaped.gated_computes (hy : y.Shaped n 2 width) :
    Computes n 1 width (gated f y) (y.gatedTable f) := by
  have hhalf : y.cols / 2 = width := by
    rw [hy.cols_eq]
    omega
  rw [gated, QTensor.gatedTable, hhalf, hy.rows_eq]
  refine Computes.parts (QTensor.fillRows_eq (fun r hr => ?_) fun r hr => by simp) fun k _ => by simp
  refine mapM_range_eq_ok fun c hc => ?_
  have hfirst := QTensor.value_eq (f := f) hy hr (show 0 < 2 by omega) hc
  have hsecond := QTensor.value_eq (f := f) hy hr (show 1 < 2 by omega) hc
  rw [Nat.zero_mul, Nat.zero_add, Nat.add_zero] at hfirst
  rw [Nat.one_mul] at hsecond
  rw [hfirst, ok_bind, hsecond]
  rfl

end Operators

section Layers
variable {F : Type} {f : Singles F} {x selected : QTensor} {n h inner : ℕ}

structure Attention.Fits (a : Attention) (h : ℕ) : Prop where
  qkv : a.qkv.Fits (3 * h) h
  out : a.out.Fits h h
  heads : 0 < a.heads ∧ h % a.heads = 0

structure EncoderLayer.Fits (l : EncoderLayer F) (h inner : ℕ) : Prop where
  attentionNorm : ∀ norm, l.attentionNorm = some norm → norm.Fits h
  attention : l.attention.Fits h
  even : h / l.attention.heads % 2 = 0
  mlpNorm : l.mlpNorm.Fits h
  wi : l.wi.Fits (2 * inner) h
  wo : l.wo.Fits h inner

structure DecisionLayer.Fits (l : DecisionLayer F) (h inner : ℕ) : Prop where
  norm1 : l.norm1.Fits h
  norm2 : l.norm2.Fits h
  attention : l.attention.Fits h
  linear1 : l.linear1.Fits inner h
  linear2 : l.linear2.Fits h inner

/-- Sizes that the integer products and the statistics allow. -/
structure Bounded (n h : ℕ) : Prop where
  rows : 0 < n ∧ n ≤ 16384
  width : 0 < h ∧ h ≤ 16384

/-- The rows that a layer is asked for. -/
def markerRows (n : ℕ) (markers : Option (List UInt32)) : List ℕ :=
  markers.elim (List.range n) fun m => m.map UInt32.toNat

theorem Attention.Fits.q8_computes {a : Attention} (ha : a.Fits h) (hb : Bounded n h)
    (hx : x.Shaped n 1 h) (theta : Option F) (distance : Option ℕ) (markers : Option (List UInt32))
    (heven : ∀ v, theta = some v → h / a.heads % 2 = 0)
    (hids : ∀ pos ∈ markerRows n markers, pos < n) :
    Computes (markerRows n markers).length 1 h (a.q8 f x theta distance markers)
      (a.table f x theta distance (markerRows n markers)) := by
  obtain ⟨hpos, hdvd⟩ := ha.heads
  have hh : h = a.heads * (h / a.heads) := (Nat.mul_div_cancel' (Nat.dvd_of_mod_eq_zero hdvd)).symm
  have hmod : 3 * h % (3 * a.heads) = 0 := by rw [Nat.mul_mod_mul_left, hdvd]
  have hd : 3 * h / (3 * a.heads) = h / a.heads := Nat.mul_div_mul_left _ _ (by omega)
  have hdpos : 0 < h / a.heads := by
    rcases Nat.eq_zero_or_pos (h / a.heads) with hz | hz
    · rw [hz, Nat.mul_zero] at hh
      have := hb.width.1
      omega
    · exact hz
  have hdle : h / a.heads ≤ 16384 := (Nat.div_le_self _ _).trans hb.width.2
  have hqkv := ha.qkv.q8Grouped_computes (f := f) hx (show 0 < 3 * a.heads by omega) hmod
  rw [hd] at hqkv
  rw [Attention.q8, Attention.table, hx.rows_eq, hx.cols_one, wholeDiv_of_pos hpos, ok_bind]
  refine hqkv.bind fun y hy => ?_
  have hsound : (⟨y, n, h, h / a.heads, a.heads, theta, distance⟩ : Heads F).Sound :=
    ⟨hy, hh, hb.rows, ⟨hdpos, hdle⟩, heven⟩
  have hmerged : Computes (markerRows n markers).length 1 h
      (Heads.merged f ⟨y, n, h, h / a.heads, a.heads, theta, distance⟩ (markerRows n markers))
      (Heads.table f ⟨y, n, h, h / a.heads, a.heads, theta, distance⟩ (markerRows n markers)) := by
    refine ⟨hsound.merged_eq hids, fun m hm => ?_⟩
    rw [Heads.table] at hm
    split at hm
    · refine QTensor.quantizeParts_shaped (fun r _ => ?_) hm
      refine (length_flatMap_rows fun head _ => ?_).trans hh.symm
      simp [Heads.attended]
    · cases hm
  exact hmerged.bind fun m hm => ha.out.q8_computes hm

/-- The rows of a whole sequence. -/
theorem markerRows_none (n : ℕ) : markerRows n none = List.range n := rfl

theorem EncoderLayer.Fits.q8_computes {l : EncoderLayer F} (hl : l.Fits h inner) (hb : Bounded n h)
    (hx : x.Shaped n 1 h) : Computes n 1 h (l.q8 f x) (l.table f x) := by
  have hnorm : Computes n 1 h (l.attentionNorm.elim (pure x) fun n => n.q8 f x)
      (l.attentionNorm.elim (some x) fun n => n.table f x) := by
    cases hn : l.attentionNorm with
    | none => exact Computes.pure hx
    | some norm => exact (hl.attentionNorm norm hn).q8_computes hx hb.width.1 hb.width.2
  rw [EncoderLayer.q8, EncoderLayer.table, hx.rows_eq]
  refine hnorm.bind fun normalized hnormalized => ?_
  have hattention := hl.attention.q8_computes (f := f) hb hnormalized (some l.theta) l.distance none
    (fun _ _ => hl.even) fun pos hpos => List.mem_range.mp hpos
  rw [markerRows_none, List.length_range] at hattention
  refine hattention.bind fun attended hattended => ?_
  refine (hx.add_computes hattended (.inl rfl)).bind fun x hx => ?_
  refine (hl.mlpNorm.q8_computes hx hb.width.1 hb.width.2).bind fun normalized hnormalized => ?_
  have hwi := hl.wi.q8Grouped_computes (f := f) hnormalized Nat.two_pos
    (Nat.mul_mod_right 2 inner)
  rw [Nat.mul_div_cancel_left inner (by omega)] at hwi
  refine hwi.bind fun y hy => hy.gated_computes.bind fun gate hgate => ?_
  exact (hl.wo.q8_computes hgate).bind fun out hout => hx.add_computes hout (.inl rfl)

theorem DecisionLayer.Fits.ff_computes {l : DecisionLayer F} (hl : l.Fits h inner)
    (hx : x.Shaped n 1 h) : Computes n 1 h (l.ffQ8 f x) (l.ffTable f x) :=
  (hl.linear1.q8_computes hx).bind fun _ hy =>
    (hy.map_computes _).bind fun _ hz => hl.linear2.q8_computes hz

/-- A decision layer, for hidden rows that were selected. -/
theorem DecisionLayer.Fits.rest_computes {l : DecisionLayer F} (hl : l.Fits h inner)
    (hb : Bounded n h) (hx : x.Shaped n 1 h) (markers : Option (List UInt32))
    (hids : ∀ pos ∈ markerRows n markers, pos < n)
    (hs : selected.Shaped (markerRows n markers).length 1 h) :
    Computes (markerRows n markers).length 1 h
      (if l.normFirst then do
        let normalized ← l.norm1.q8 f x
        let attended ← l.attention.q8 f normalized none none markers
        let x ← selected.add f attended
        let normalized ← l.norm2.q8 f x
        let out ← l.ffQ8 f normalized
        x.add f out
      else do
        let attended ← l.attention.q8 f x none none markers
        let sum ← selected.add f attended
        let x ← l.norm1.q8 f sum
        let out ← l.ffQ8 f x
        let sum ← x.add f out
        l.norm2.q8 f sum)
      (l.table f x selected (markerRows n markers)) := by
  have hattention : ∀ x : QTensor, x.Shaped n 1 h → Computes (markerRows n markers).length 1 h
      (l.attention.q8 f x none none markers)
      (l.attention.table f x none none (markerRows n markers)) := fun x hx =>
    hl.attention.q8_computes hb hx none none markers (fun v hv => by cases hv) hids
  have hnorm1 : ∀ {m : ℕ} {x : QTensor}, x.Shaped m 1 h →
      Computes m 1 h (l.norm1.q8 f x) (l.norm1.table f x) := fun hx =>
    hl.norm1.q8_computes hx hb.width.1 hb.width.2
  have hnorm2 : ∀ {m : ℕ} {x : QTensor}, x.Shaped m 1 h →
      Computes m 1 h (l.norm2.q8 f x) (l.norm2.table f x) := fun hx =>
    hl.norm2.q8_computes hx hb.width.1 hb.width.2
  rw [DecisionLayer.table]
  by_cases hfirst : l.normFirst = true
  · rw [if_pos hfirst, if_pos hfirst]
    refine (hnorm1 hx).bind fun normalized hnormalized => ?_
    refine (hattention normalized hnormalized).bind fun attended hattended => ?_
    refine (hs.add_computes hattended (.inl rfl)).bind fun y hy => ?_
    refine (hnorm2 hy).bind fun normalized hnormalized => ?_
    exact (hl.ff_computes hnormalized).bind fun out hout => hy.add_computes hout (.inl rfl)
  · rw [if_neg hfirst, if_neg hfirst]
    refine (hattention x hx).bind fun attended hattended => ?_
    refine (hs.add_computes hattended (.inl rfl)).bind fun sum hsum => ?_
    refine (hnorm1 hsum).bind fun y hy => ?_
    refine (hl.ff_computes hy).bind fun out hout => ?_
    exact (hy.add_computes hout (.inl rfl)).bind fun sum hsum => hnorm2 hsum

/-- A decision layer over the whole sequence. -/
theorem DecisionLayer.Fits.q8_computes {l : DecisionLayer F} (hl : l.Fits h inner)
    (hb : Bounded n h) (hx : x.Shaped n 1 h) :
    Computes n 1 h (l.q8 f x none) (l.table f x x (List.range n)) := by
  have hlength : (markerRows n none).length = n := List.length_range
  have hselected : x.Shaped (markerRows n none).length 1 h := by
    rw [hlength]
    exact hx
  have hrest := hl.rest_computes (f := f) hb hx none (fun pos hpos => List.mem_range.mp hpos)
    hselected
  rw [hlength] at hrest
  exact hrest

/-- A decision layer for the marker rows only. -/
theorem DecisionLayer.Fits.q8_markers_computes {l : DecisionLayer F} (hl : l.Fits h inner)
    (hb : Bounded n h) (hx : x.Shaped n 1 h) {m : List UInt32} (hm : ∀ id ∈ m, id.toNat < n) :
    Computes m.length 1 h (l.q8 f x (some m))
      (l.table f x (QTensor.gathered h (x.part h) m) (m.map UInt32.toNat)) := by
  have hids : ∀ pos ∈ markerRows n (some m), pos < n := by
    intro pos hpos
    obtain ⟨id, hid, rfl⟩ := List.mem_map.mp hpos
    exact hm id hid
  have hlength : (markerRows n (some m)).length = m.length := List.length_map _
  have hselected : (QTensor.gathered h (x.part h) m).Shaped (markerRows n (some m)).length 1 h := by
    rw [hlength]
    refine QTensor.ofParts_shaped fun k hk => ?_
    have hget := hm _ (List.getElem_mem (show k < m.length by omega))
    rw [List.getD_eq_getElem?_getD, List.getElem?_eq_getElem (by omega), Option.getD_some]
    exact length_rowAt hget (by rw [hx.values, Nat.mul_one])
  have hrest := hl.rest_computes (f := f) hb hx (some m) hids hselected
  rw [hlength] at hrest
  rw [DecisionLayer.q8]
  show Computes m.length 1 h (x.select m >>= _) _
  rw [QTensor.select_eq hx hm, ok_bind]
  exact hrest

end Layers

end IcLaya
