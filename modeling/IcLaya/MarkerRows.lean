import IcLaya.SingleLayers

/-!
# The rows of the markers only (`laya-candle/src/quantized.rs`, `lib.rs`)

The scorer reads the marker rows alone, so the last decision layer is evaluated for them alone. What
it leaves is what the whole layer leaves at those rows: every step but attention works row by row,
and attention reads the keys and values of every row in both cases.
-/
namespace IcLaya
open Fallible PanickingCode LoopOutcomes RowBuffers StoreLoops

namespace QTensor
variable {F : Type} {f : Singles F} {x y : QTensor} {n v w u : ℕ} {m : List UInt32}

theorem ofParts_congr {rows groups width : ℕ} {p q : ℕ → UInt32 × List Int8}
    (h : ∀ k < rows * groups, p k = q k) :
    ofParts rows groups width p = ofParts rows groups width q := by
  have hv : ((List.range (rows * groups)).flatMap fun k => (p k).2) =
      (List.range (rows * groups)).flatMap fun k => (q k).2 :=
    List.flatMap_congr fun k hk => congrArg Prod.snd (h k (List.mem_range.mp hk))
  have hs : ((List.range (rows * groups)).map fun k => (p k).1) =
      (List.range (rows * groups)).map fun k => (q k).1 :=
    List.map_congr_left fun k hk => congrArg Prod.fst (h k (List.mem_range.mp hk))
  rw [ofParts, ofParts, hv, hs]

theorem quantizeParts_congr {rows groups width : ℕ} {row row' : ℕ → List UInt32}
    (h : ∀ k < rows * groups, row k = row' k) :
    quantizeParts rows groups width row = quantizeParts rows groups width row' := by
  rw [quantizeParts, quantizeParts, ofParts_congr fun k hk => congrArg quantizedPart (h k hk)]
  exact if_congr (forall₂_congr fun k hk => by rw [h k hk]) rfl rfl

theorem Shaped.gathered (hx : x.Shaped n 1 w) (hm : ∀ id ∈ m, id.toNat < n) :
    (gathered w (x.part w) m).Shaped m.length 1 w :=
  ofParts_shaped fun k hk => length_rowAt (index_lt hm (by omega)) (by rw [hx.values, Nat.mul_one])

theorem Shaped.part_gathered (hx : x.Shaped n 1 w) (hm : ∀ id ∈ m, id.toNat < n) {r : ℕ}
    (hr : r < m.length) : (QTensor.gathered w (x.part w) m).part w r = x.part w (m.getD r 0).toNat :=
  part_ofParts (fun k hk => length_rowAt (index_lt hm (by omega)) (by rw [hx.values, Nat.mul_one]))
    (by omega)

/-- Rows that are quantized after they were selected are those selected after they were quantized. -/
theorem quantizeRows_gathered {row row' : ℕ → List UInt32} (hw : ∀ r < n, (row r).length = w)
    (hm : ∀ id ∈ m, id.toNat < n) (hrow : ∀ r < m.length, row' r = row (m.getD r 0).toNat)
    (hy : quantizeRows n w row = some y) :
    quantizeRows m.length w row' = some (gathered w (y.part w) m) := by
  obtain ⟨hfinite, -⟩ := quantizeParts_eq_some.mp hy
  refine quantizeParts_eq_some.mpr ⟨fun r hr => ?_, ?_⟩
  · rw [hrow r (by omega)]
    exact hfinite _ ((index_lt hm (by omega)).trans_eq (Nat.mul_one n).symm)
  · refine ofParts_congr fun r hr => ?_
    have hlt := index_lt hm (r := r) (by omega)
    rw [hrow r (by omega)]
    exact part_quantizeParts (fun k hk => hw k (by omega)) hy (by omega)

/-- An operator that commutes with a selection of rows. -/
def Selects (m : List UInt32) (n v w : ℕ) (op : QTensor → Option QTensor) : Prop :=
  ∀ x y, x.Shaped n 1 v → op x = some y →
    y.Shaped n 1 w ∧ op (gathered v (x.part v) m) = some (gathered w (y.part w) m)

theorem Selects.comp {op op' : QTensor → Option QTensor} (h : Selects m n v w op)
    (h' : Selects m n w u op') : Selects m n v u fun x => op x >>= op' := by
  intro x z hx hz
  obtain ⟨y, hy, hz⟩ := Option.bind_eq_some_iff.mp hz
  obtain ⟨hshaped, hsel⟩ := h x y hx hy
  obtain ⟨hshaped', hsel'⟩ := h' y z hshaped hz
  refine ⟨hshaped', ?_⟩
  show (op _).bind op' = _
  rw [hsel, Option.bind_some, hsel']

/-- An operator that works row by row. -/
theorem selects_rows {op : QTensor → Option QTensor} {g : UInt32 × List Int8 → List UInt32}
    (hg : ∀ p, (g p).length = w) (hm : ∀ id ∈ m, id.toNat < n)
    (hop : ∀ k x, x.Shaped k 1 v → op x = quantizeRows k w fun r => g (x.part v r)) :
    Selects m n v w op := by
  intro x y hx hy
  rw [hop n x hx] at hy
  refine ⟨quantizeParts_shaped (fun _ _ => hg _) hy, ?_⟩
  rw [hop m.length _ (hx.gathered hm)]
  refine quantizeRows_gathered (fun _ _ => hg _) hm (fun r hr => ?_) hy
  rw [hx.part_gathered hm hr]

theorem selects_norm {norm : Norm F} (hm : ∀ id ∈ m, id.toNat < n) :
    Selects m n w w (norm.table f) := by
  refine selects_rows (g := norm.row f w) (fun p => by simp [Norm.row]) hm fun k x hx => ?_
  rw [Norm.table, hx.rows_eq, hx.cols_one]

theorem selects_map (hm : ∀ id ∈ m, id.toNat < n) (g : UInt32 → UInt32) :
    Selects m n w w fun x => x.mapTable f g := by
  refine selects_rows (g := fun p => (singles f w p).map g) (fun p => by simp [singles]) hm
    fun k x hx => ?_
  rw [mapTable, hx.rows_eq, hx.cols_one]

theorem selects_linear {l : Linear} (hl : l.Fits w v) (hm : ∀ id ∈ m, id.toNat < n) :
    Selects m n v w fun x => l.table f x 1 := by
  refine selects_rows (g := fun p => l.weight.outputs f (l.bias.map Tensor.values) p 0 w)
    (fun p => by simp [Int8Matrix.outputs]) hm fun k x hx => ?_
  rw [Linear.table, hx.rows_eq, hl.rows_eq, Nat.div_one]
  refine quantizeParts_congr fun r _ => ?_
  rw [Int8Matrix.groupRow, Nat.div_one, Nat.mod_one, hl.rows_eq, hl.cols_eq, Nat.div_one,
    Nat.zero_mul]

/-- The sum of two tensors of as many rows. -/
theorem addTable_eq (hx : x.Shaped n 1 w) (hy : y.Shaped n 1 w) :
    x.addTable f y = quantizeRows n w fun r => sums f w (x.part w r) (y.part w r) := by
  rw [addTable, hx.rows_eq, hx.cols_one]
  refine quantizeParts_congr fun r hr => ?_
  have haddend : y.addend r = r := by
    rw [addend, hy.rows_eq]
    split <;> omega
  rw [haddend]

theorem addTable_gathered {z : QTensor} (hx : x.Shaped n 1 w) (hy : y.Shaped n 1 w)
    (hm : ∀ id ∈ m, id.toNat < n) (hz : x.addTable f y = some z) :
    z.Shaped n 1 w ∧ (gathered w (x.part w) m).addTable f (gathered w (y.part w) m) =
      some (gathered w (z.part w) m) := by
  rw [addTable_eq hx hy] at hz
  refine ⟨quantizeParts_shaped (fun _ _ => by simp [sums]) hz, ?_⟩
  rw [addTable_eq (hx.gathered hm) (hy.gathered hm)]
  refine quantizeRows_gathered (fun _ _ => by simp [sums]) hm (fun r hr => ?_) hz
  rw [hx.part_gathered hm hr, hy.part_gathered hm hr]

end QTensor

section Layers
variable {F : Type} {f : Singles F} {x y : QTensor} {n h inner : ℕ} {m : List UInt32}

theorem getD_map_toNat {r : ℕ} (hr : r < m.length) :
    (m.map UInt32.toNat).getD r 0 = (m.getD r 0).toNat := by
  rw [List.getD_eq_getElem?_getD, List.getD_eq_getElem?_getD, List.getElem?_map,
    List.getElem?_eq_getElem hr]
  rfl

/-- Attention for some rows is what attention for all leaves at those rows. -/
theorem Attention.Fits.table_gathered {a : Attention} (ha : a.Fits h) (hx : x.Shaped n 1 h)
    (hm : ∀ id ∈ m, id.toNat < n) (hy : a.table f x none none (List.range n) = some y) :
    y.Shaped n 1 h ∧
      a.table f x none none (m.map UInt32.toNat) = some (QTensor.gathered h (y.part h) m) := by
  obtain ⟨p, hp, hrest⟩ := Option.bind_eq_some_iff.mp hy
  obtain ⟨q, hq, hout⟩ := Option.bind_eq_some_iff.mp hrest
  have hh : h = a.heads * (h / a.heads) :=
    (Nat.mul_div_cancel' (Nat.dvd_of_mod_eq_zero ha.heads.2)).symm
  rw [hx.rows_eq, hx.cols_one] at hq
  obtain ⟨t, ht⟩ : ∃ t : Heads F, t = ⟨p, n, h, h / a.heads, a.heads, none, none⟩ := ⟨_, rfl⟩
  rw [← ht, Heads.table] at hq
  have hfields : t.t = n ∧ t.h = h ∧ t.heads = a.heads := by
    rw [ht]
    exact ⟨rfl, rfl, rfl⟩
  have hwidth : ∀ pos, (t.mergedRow f pos).length = h := by
    intro pos
    refine (length_flatMap_rows (w := t.d) fun head _ => by simp [Heads.attended]).trans ?_
    rw [ht]
    exact hh.symm
  by_cases hfinite : ∀ head < t.heads, t.Finite f (List.range n) head
  · rw [if_pos hfinite, List.length_range, hfields.2.1] at hq
    have hqshaped := QTensor.quantizeParts_shaped (fun _ _ => hwidth _) hq
    have hmerged : t.table f (m.map UInt32.toNat) = some (QTensor.gathered h (q.part h) m) := by
      have hsub : ∀ head < t.heads, t.Finite f (m.map UInt32.toNat) head := by
        intro head hhead
        obtain ⟨hrows, hvalues, hweights⟩ := hfinite head hhead
        refine ⟨hrows, hvalues, fun pos hpos => ?_⟩
        obtain ⟨id, hid, rfl⟩ := List.mem_map.mp hpos
        exact hweights id.toNat (List.mem_range.mpr (hm id hid))
      rw [Heads.table, if_pos hsub, List.length_map, hfields.2.1]
      refine QTensor.quantizeRows_gathered (fun _ _ => hwidth _) hm (fun r hr => ?_) hq
      have hlt := index_lt hm hr
      rw [getD_map_toNat hr, List.getD_eq_getElem?_getD (l := List.range n),
        List.getElem?_range hlt]
      rfl
    obtain ⟨hshaped, hsel⟩ := QTensor.selects_linear (f := f) ha.out hm q y hqshaped hout
    refine ⟨hshaped, ?_⟩
    rw [Attention.table, hp]
    show (Heads.table f ⟨p, x.rows, x.cols, x.cols / a.heads, a.heads, none, none⟩ _ >>= _) = _
    rw [hx.rows_eq, hx.cols_one, ← ht, hmerged]
    exact hsel
  · rw [if_neg hfinite] at hq
    cases hq

theorem DecisionLayer.Fits.selects_ff {l : DecisionLayer F} (hl : l.Fits h inner)
    (hm : ∀ id ∈ m, id.toNat < n) : QTensor.Selects m n h h (l.ffTable f) :=
  (QTensor.selects_linear hl.linear1 hm).comp
    ((QTensor.selects_map hm _).comp (QTensor.selects_linear hl.linear2 hm))

/-- A decision layer for the marker rows is what the whole layer leaves at those rows. -/
theorem DecisionLayer.Fits.table_gathered {l : DecisionLayer F} (hl : l.Fits h inner)
    (hx : x.Shaped n 1 h) (hm : ∀ id ∈ m, id.toNat < n)
    (hy : l.table f x x (List.range n) = some y) :
    l.table f x (QTensor.gathered h (x.part h) m) (m.map UInt32.toNat) =
      some (QTensor.gathered h (y.part h) m) := by
  rw [DecisionLayer.table] at hy ⊢
  by_cases hfirst : l.normFirst = true
  · rw [if_pos hfirst] at hy ⊢
    obtain ⟨normalized, hnormalized, hy⟩ := Option.bind_eq_some_iff.mp hy
    obtain ⟨attended, hattended, hy⟩ := Option.bind_eq_some_iff.mp hy
    obtain ⟨sum, hsum, hy⟩ := Option.bind_eq_some_iff.mp hy
    obtain ⟨second, hsecond, hy⟩ := Option.bind_eq_some_iff.mp hy
    obtain ⟨out, hout, hy⟩ := Option.bind_eq_some_iff.mp hy
    have hshaped := (QTensor.selects_norm (f := f) hm x normalized hx hnormalized).1
    obtain ⟨hattendedShaped, hattendedSel⟩ := hl.attention.table_gathered hshaped hm hattended
    obtain ⟨hsumShaped, hsumSel⟩ := QTensor.addTable_gathered hx hattendedShaped hm hsum
    obtain ⟨hsecondShaped, hsecondSel⟩ :=
      QTensor.selects_norm (f := f) hm sum second hsumShaped hsecond
    obtain ⟨houtShaped, houtSel⟩ := hl.selects_ff hm second out hsecondShaped hout
    obtain ⟨-, hySel⟩ := QTensor.addTable_gathered hsumShaped houtShaped hm hy
    simp only [hnormalized, hattendedSel, hsumSel, hsecondSel, houtSel, hySel, Option.bind_eq_bind,
      Option.bind_some]
  · rw [if_neg hfirst] at hy ⊢
    obtain ⟨attended, hattended, hy⟩ := Option.bind_eq_some_iff.mp hy
    obtain ⟨sum, hsum, hy⟩ := Option.bind_eq_some_iff.mp hy
    obtain ⟨first, hfirstNorm, hy⟩ := Option.bind_eq_some_iff.mp hy
    obtain ⟨out, hout, hy⟩ := Option.bind_eq_some_iff.mp hy
    obtain ⟨second, hsecond, hy⟩ := Option.bind_eq_some_iff.mp hy
    obtain ⟨hattendedShaped, hattendedSel⟩ := hl.attention.table_gathered hx hm hattended
    obtain ⟨hsumShaped, hsumSel⟩ := QTensor.addTable_gathered hx hattendedShaped hm hsum
    obtain ⟨hfirstShaped, hfirstSel⟩ :=
      QTensor.selects_norm (f := f) hm sum first hsumShaped hfirstNorm
    obtain ⟨houtShaped, houtSel⟩ := hl.selects_ff hm first out hfirstShaped hout
    obtain ⟨hsecondShaped, hsecondSel⟩ :=
      QTensor.addTable_gathered hfirstShaped houtShaped hm hsecond
    obtain ⟨-, hySel⟩ := QTensor.selects_norm (f := f) hm second y hsecondShaped hy
    simp only [hattendedSel, hsumSel, hfirstSel, houtSel, hsecondSel, hySel, Option.bind_eq_bind,
      Option.bind_some]

end Layers

section Exactness
variable {F : Type}

theorem okOr_cases (spec : Option QTensor) :
    (∃ y, spec = some y ∧ (okOr spec nonfinite : Code String QTensor) = .ok y) ∨
      (okOr spec nonfinite : Code String QTensor) = .error nonfinite := by
  cases spec with
  | none => exact .inr rfl
  | some y => exact .inl ⟨y, rfl, rfl⟩

/-- The last decision layer for the marker rows alone leaves, bit for bit, what the whole layer
leaves at those rows, in both number formats; if it fails on signed bytes, so does the whole layer.
On single floats this rests on kernels that work row by row. -/
theorem marker_rows_exact (f : Singles F) (l : DecisionLayer F) (h inner n : ℕ) (m : List UInt32)
    (hl : l.Fits h inner) (hm : ∀ id ∈ m, id.toNat < n) :
    (∀ x : QTensor, Bounded n h → x.Shaped n 1 h →
      (∀ y, l.q8 f x none = .ok y → l.q8 f x (some m) = y.select m) ∧
        ∀ e, l.q8 f x (some m) = .error e → l.q8 f x none = .error e) ∧
    ∀ (c : Candle F) (x y : Tensor), c.Moves → c.RowWise → x.dims = [n, h] →
      l.forward c f x = .ok y → l.forwardMarkers c f x m = c.indexSelect y m 0 := by
  refine ⟨fun x hb hx => ?_, fun c x y ht hc hx hy => hl.forward_select ht hc hm hx hy⟩
  have hall := hl.q8_computes (f := f) hb hx
  have hmarkers := hl.q8_markers_computes (f := f) hb hx hm
  have hexact : ∀ y, l.q8 f x none = .ok y → l.q8 f x (some m) = y.select m := by
    intro y hy
    rw [hall.eq, okOr_eq_ok] at hy
    rw [hmarkers.eq, hl.table_gathered hx hm hy, QTensor.select_eq (hall.shaped y hy) hm]
    rfl
  refine ⟨hexact, fun e he => ?_⟩
  rw [hmarkers.eq, okOr_eq_error] at he
  rcases okOr_cases (l.table f x x (List.range n)) with ⟨y, hy, -⟩ | hfail
  · have hsel := hl.table_gathered hx hm hy
    rw [hsel] at he
    cases he.1
  · rw [hall.eq, hfail, ← he.2]

def Tiny.linear (rows cols : ℕ) : Linear :=
  ⟨⟨rows, cols, (List.range (rows * cols)).map fun k => Int8.ofNat (k % 5 + 1),
    List.replicate rows 1⟩, none⟩

def Tiny.norm : Norm ℚ := ⟨⟨[2], [3, 5], rfl⟩, some ⟨[2], [1, 2], rfl⟩, 1⟩

/-- Two heads of one column. -/
def Tiny.decisionLayer (normFirst : Bool) : DecisionLayer ℚ :=
  ⟨norm, norm, ⟨linear 6 2, linear 2 2, 2⟩, linear 1 2, linear 2 1, normFirst, .relu⟩

def Tiny.hidden : QTensor := ⟨3, 2, [1, 2, 3, 4, 5, 6], [1, 1, 1], 1⟩

def Tiny.singles : Tensor := ⟨[3, 2], [1, 2, 30, 4, 500, 6], rfl⟩

theorem Tiny.decisionLayer_fits (normFirst : Bool) : (decisionLayer normFirst).Fits 2 1 :=
  have hlinear : ∀ rows cols, cols ≤ 16384 → (linear rows cols).Fits rows cols := fun _ _ h =>
    ⟨⟨h, by simp [linear], List.length_replicate⟩, rfl, rfl, fun _ hb => by cases hb⟩
  have hnorm : norm.Fits 2 := ⟨rfl, fun b hb => by cases hb; rfl⟩
  ⟨hnorm, hnorm, ⟨hlinear 6 2 (by omega), hlinear 2 2 (by omega), Nat.zero_lt_two, Nat.mod_self 2⟩,
    hlinear 1 2 (by omega), hlinear 2 1 (by omega)⟩

/-- Three rows, of which the last and the first are asked for. -/
theorem marker_rows_exact_sample :
    (∃ y, (Tiny.decisionLayer true).q8 Singles.words Tiny.hidden none = .ok y ∧
      (Tiny.decisionLayer true).q8 Singles.words Tiny.hidden (some [2, 0]) = y.select [2, 0]) ∧
    ∃ y y', (Tiny.decisionLayer false).forward PlainLoops.candle Singles.words Tiny.singles = .ok y ∧
      (Tiny.decisionLayer false).forwardMarkers PlainLoops.candle Singles.words Tiny.singles [2, 0] =
        PlainLoops.candle.indexSelect y [2, 0] 0 ∧
      PlainLoops.candle.indexSelect y [2, 0] 0 = .ok y' ∧
        y'.values = [60712, 415937, 4294967293, 7] := by
  have hshaped : Tiny.hidden.Shaped 3 1 2 := ⟨rfl, rfl, rfl, rfl, rfl⟩
  have hbounded : Bounded 3 2 := ⟨by omega, by omega⟩
  have hexact : ∀ normFirst, _ := fun normFirst =>
    marker_rows_exact Singles.words (Tiny.decisionLayer normFirst) 2 1 3 [2, 0]
      (Tiny.decisionLayer_fits normFirst) (by decide)
  constructor
  · obtain ⟨y, hy⟩ := Option.isSome_iff_exists.mp (show ((Tiny.decisionLayer true).table
      Singles.words Tiny.hidden Tiny.hidden (List.range 3)).isSome = true by decide +kernel)
    have hall := (Tiny.decisionLayer_fits true).q8_computes (f := Singles.words) hbounded hshaped
    rw [hy] at hall
    exact ⟨y, hall.eq, ((hexact true).1 Tiny.hidden hbounded hshaped).1 y hall.eq⟩
  · have hrun : (do
        let y ← (Tiny.decisionLayer false).forward PlainLoops.candle Singles.words Tiny.singles
        let y' ← PlainLoops.candle.indexSelect y [2, 0] 0
        reject (y'.values ≠ [60712, 415937, 4294967293, 7]) "" : Code String Unit) = .ok () := by
      decide +kernel
    simp only [bind_eq_ok, reject_eq_ok, not_not] at hrun
    obtain ⟨y, hy, y', hy', hvalues⟩ := hrun
    exact ⟨y, y', hy, (hexact false).2 PlainLoops.candle Tiny.singles y PlainLoops.candle_moves
      PlainLoops.candle_rowWise rfl hy, hy', hvalues⟩

end Exactness

end IcLaya
