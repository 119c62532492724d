import IcLaya.Int8Products

/-!
# Tensors of signed bytes (`laya-candle/src/quantized.rs`, `int8.rs`)

A tensor is a buffer of parts, so many to a row: the bytes of a group and their scale. A loop that
quantizes parts can fail in one way, at a number that is not finite; so each of them is the plain
table of its quantized parts, or that failure.
-/
namespace IcLaya
open Fallible PanickingCode LoopOutcomes RowBuffers StoreLoops

/-- What `quantize_row` says of a number that is not finite. -/
def nonfinite : Fault String := .raise "nonfinite int8 activation"

/-- `assert!(c)` -/
def assertThat {ε : Type} (c : Prop) [Decidable c] : Code ε Unit := if c then .ok () else .error .panic

def wholeDiv {ε : Type} (a b : ℕ) : Code ε ℕ := if b = 0 then .error .panic else .ok (a / b)

section Outcomes
variable {ε α β : Type} {x : Except ε α}

/-- A computation whose one failure is decided by a table. -/
theorem Ends.eq_okOr {spec : Option α} {c : ε}
    (h : Ends (fun a => spec = some a) (fun e => e = c ∧ spec = none) x) : x = okOr spec c := by
  cases x with
  | ok a =>
    rw [show spec = some a from h]
    rfl
  | error e =>
    obtain ⟨rfl, hspec⟩ := show e = c ∧ spec = none from h
    rw [hspec]
    rfl

theorem okOr_bind {spec : Option α} {c : ε} {f : α → Except ε β} {g : α → Option β}
    (h : ∀ a, spec = some a → f a = okOr (g a) c) : (okOr spec c >>= f) = okOr (spec.bind g) c := by
  cases spec with
  | none => rfl
  | some a => exact h a rfl

theorem assertThat_bind {c : Prop} [Decidable c] (h : c) (f : Unit → Code ε β) :
    (assertThat c >>= f) = f () := by
  rw [assertThat, if_pos h]
  rfl

theorem wholeDiv_of_pos {a b : ℕ} (h : 0 < b) : (wholeDiv a b : Code ε ℕ) = .ok (a / b) :=
  if_neg (Nat.ne_of_gt h)

end Outcomes

section Parts
variable {n width : ℕ} {row : ℕ → List UInt32} {P Q : ℕ → Prop} {values : List Int8}
  {scales : List UInt32}

/-- A quantized row of singles. -/
def quantizedPart (row : List UInt32) : UInt32 × List Int8 :=
  (rowScale row, row.map (quantizeValue (rowScale row)))

/-- `scales[k] = quantize_row(row, &mut values[first..first + width])?` -/
def quantizePart (values : List Int8) (scales : List UInt32) (first width k : ℕ)
    (row : List UInt32) : Code String (List Int8 × List UInt32) := do
  let old ← slice values first (first + width)
  assertThat (row.length = old.length)
  let part ← call (quantizeRow row)
  let values ← writeSlice values first (first + width) part.2
  let scales ← update scales k fun _ => pure part.1
  pure (values, scales)

/-- Buffers whose parts in `P` are those of a table. -/
structure PartsAre (n width : ℕ) (part : ℕ → UInt32 × List Int8) (P : ℕ → Prop)
    (values : List Int8) (scales : List UInt32) : Prop where
  bytes : RowsDone n width (fun k => (part k).2) P values
  scales_length : scales.length = n
  scale : ∀ k < n, P k → scales[k]? = some (part k).1

/-- Buffers whose parts in `P` are quantized. -/
structure PartsDone (n width : ℕ) (row : ℕ → List UInt32) (P : ℕ → Prop) (values : List Int8)
    (scales : List UInt32) : Prop where
  are : PartsAre n width (fun k => quantizedPart (row k)) P values scales
  finite : ∀ k < n, P k → ∀ v ∈ row k, singleFinite v

/-- A number of the table is not finite, and that is what failed. -/
def Stopped (n : ℕ) (row : ℕ → List UInt32) (e : Fault String) : Prop :=
  e = nonfinite ∧ ∃ k < n, ∃ v ∈ row k, ¬singleFinite v

theorem length_quantizedPart (row : List UInt32) : (quantizedPart row).2.length = row.length :=
  List.length_map _

theorem PartsAre.none {part : ℕ → UInt32 × List Int8} (hv : values.length = n * width)
    (hs : scales.length = n) (hP : ∀ k < n, ¬P k) : PartsAre n width part P values scales :=
  ⟨RowsDone.none hv hP, hs, fun k hk hp => absurd hp (hP k hk)⟩

theorem PartsAre.mono {part : ℕ → UInt32 × List Int8} (h : PartsAre n width part P values scales)
    (hQ : ∀ k < n, Q k → P k) : PartsAre n width part Q values scales :=
  ⟨h.bytes.mono hQ, h.scales_length, fun k hk hq => h.scale k hk (hQ k hk hq)⟩

theorem PartsDone.mono (h : PartsDone n width row P values scales) (hQ : ∀ k < n, Q k → P k) :
    PartsDone n width row Q values scales :=
  ⟨h.are.mono hQ, fun k hk hq => h.finite k hk (hQ k hk hq)⟩

/-- One more part is written, in its place. -/
theorem PartsAre.write {part : ℕ → UInt32 × List Int8} {k : ℕ}
    (h : PartsAre n width part P values scales) (hk : k < n)
    (hwidth : (part k).2.length = width) (hQ : ∀ i < n, Q i → P i ∨ i = k) :
    ∃ values', (writeSlice values (k * width) (k * width + width) (part k).2 : Code String _) =
        .ok values' ∧
      ∀ scales', scales'.length = n → scales'[k]? = some (part k).1 →
        (∀ i < n, i ≠ k → scales'[i]? = scales[i]?) → PartsAre n width part Q values' scales' := by
  obtain ⟨values', hvalues, hdone⟩ := h.bytes.write (ε := String) hk rfl hwidth rfl rfl hQ
  refine ⟨values', hvalues, fun scales' hl hs hrest => ⟨hdone, hl, fun i hi hq => ?_⟩⟩
  by_cases he : i = k
  · rw [he]
    exact hs
  · rw [hrest i hi he]
    exact h.scale i hi ((hQ i hi hq).resolve_right he)

theorem update_eq_ok {α : Type} {xs : List α} {k : ℕ} (hk : k < xs.length) (v : α) :
    (update xs k fun _ => pure v : Code String (List α)) = .ok (xs.set k v) := by
  rw [update, List.getElem?_eq_getElem hk]
  rfl

/-- One more part is quantized, in its place. -/
theorem PartsDone.quantize {first k : ℕ} {xs : List UInt32}
    (h : PartsDone n width row P values scales) (hk : k < n) (hfirst : first = k * width)
    (hxs : xs = row k) (hwidth : (row k).length = width) (hQ : ∀ i < n, Q i → P i ∨ i = k) :
    Ends (fun p => PartsDone n width row Q p.1 p.2) (Stopped n row)
      (quantizePart values scales first width k xs) := by
  subst hfirst hxs
  have hlength : (row k).length = (rowAt width values k).length := by
    rw [hwidth, length_rowAt hk h.are.bytes.length_eq]
  rw [quantizePart, slice_row hk h.are.bytes.length_eq rfl rfl, ok_bind, assertThat_bind hlength,
    quantizeRow]
  by_cases hbad : ∃ v ∈ row k, ¬singleFinite v
  · rw [rejectIf_stop hbad]
    exact ⟨rfl, k, hk, hbad⟩
  · rw [rejectIf_bind hbad]
    show Ends _ _ (writeSlice values _ _ (quantizedPart (row k)).2 >>= _)
    obtain ⟨values', hvalues, hrest⟩ := h.are.write hk
      ((length_quantizedPart (row k)).trans hwidth) hQ
    have hscale : k < scales.length := h.are.scales_length ▸ hk
    rw [hvalues, ok_bind, update_eq_ok hscale, ok_bind]
    refine ⟨hrest _ ((List.length_set ..).trans h.are.scales_length)
      (List.getElem?_set_self hscale) fun i _ hi => List.getElem?_set_ne (Ne.symm hi), ?_⟩
    intro i hi hq
    rcases hQ i hi hq with hp | rfl
    · exact h.finite i hi hp
    · exact fun v hv => not_not.mp fun hn => hbad ⟨v, hv, hn⟩

end Parts

namespace QTensor
variable {rows groups width n cols : ℕ} {x : QTensor} {p : ℕ → UInt32 × List Int8}
  {row : ℕ → List UInt32}

/-- Rows of `groups` parts of `width` bytes. -/
structure Shaped (rows groups width : ℕ) (x : QTensor) : Prop where
  rows_eq : x.rows = rows
  groups_eq : x.groups = groups
  cols_eq : x.cols = groups * width
  values : x.values.length = rows * groups * width
  scales : x.scales.length = rows * groups

/-- The part number `k`: its scale and its bytes. -/
def part (width : ℕ) (x : QTensor) (k : ℕ) : UInt32 × List Int8 :=
  (x.scales.getD k 0, rowAt width x.values k)

/-- The tensor of a table of parts. -/
def ofParts (rows groups width : ℕ) (part : ℕ → UInt32 × List Int8) : QTensor :=
  ⟨rows, groups * width, (List.range (rows * groups)).flatMap fun k => (part k).2,
    (List.range (rows * groups)).map fun k => (part k).1, groups⟩

/-- The table of rows of singles is quantized, if all of them are finite. -/
def quantizeParts (rows groups width : ℕ) (row : ℕ → List UInt32) : Option QTensor :=
  if ∀ k < rows * groups, ∀ v ∈ row k, singleFinite v then
    some (ofParts rows groups width fun k => quantizedPart (row k))
  else none

theorem ofParts_shaped (h : ∀ k < rows * groups, (p k).2.length = width) :
    (ofParts rows groups width p).Shaped rows groups width :=
  ⟨rfl, rfl, rfl, length_flatMap_rows h, by simp [ofParts]⟩

theorem part_ofParts (h : ∀ k < rows * groups, (p k).2.length = width) {k : ℕ}
    (hk : k < rows * groups) : (ofParts rows groups width p).part width k = p k := by
  refine Prod.ext ?_ (rowAt_flatMap h hk)
  simp only [QTensor.part, ofParts]
  rw [List.getD_eq_getElem?_getD, List.getElem?_map, List.getElem?_range hk]
  rfl

/-- A tensor is the table of its parts. -/
theorem Shaped.eq_ofParts (h : x.Shaped rows groups width)
    (hp : PartsAre (rows * groups) width p (fun _ => True) x.values x.scales) :
    x = ofParts rows groups width p := by
  obtain ⟨r, c, values, scales, g⟩ := x
  obtain ⟨hrows, hgroups, hcols, hvalues, hscales⟩ := h
  dsimp only at hrows hgroups hcols hvalues hscales hp
  subst hrows hgroups hcols
  have hscale : scales = (List.range (r * g)).map fun k => (p k).1 := by
    refine List.ext_getElem? fun k => ?_
    by_cases hk : k < r * g
    · rw [hp.scale k hk trivial, List.getElem?_map, List.getElem?_range hk]
      rfl
    · rw [List.getElem?_eq_none (by omega),
        List.getElem?_eq_none (by rw [List.length_map, List.length_range]; omega)]
  rw [ofParts, ← hp.bytes.eq_flatMap fun k _ => trivial, ← hscale]

theorem quantizeParts_eq_some :
    quantizeParts rows groups width row = some x ↔
      (∀ k < rows * groups, ∀ v ∈ row k, singleFinite v) ∧
        x = ofParts rows groups width fun k => quantizedPart (row k) := by
  unfold quantizeParts
  split
  · next h => exact ⟨fun hx => ⟨h, (Option.some.inj hx).symm⟩, fun hx => congrArg some hx.2.symm⟩
  · next h => exact ⟨fun hx => (Option.some_ne_none _ hx.symm).elim, fun hx => absurd hx.1 h⟩

theorem quantizeParts_shaped (hw : ∀ k < rows * groups, (row k).length = width)
    (h : quantizeParts rows groups width row = some x) : x.Shaped rows groups width := by
  obtain ⟨-, rfl⟩ := quantizeParts_eq_some.mp h
  exact ofParts_shaped fun k hk => (length_quantizedPart _).trans (hw k hk)

theorem part_quantizeParts (hw : ∀ k < rows * groups, (row k).length = width)
    (h : quantizeParts rows groups width row = some x) {k : ℕ} (hk : k < rows * groups) :
    x.part width k = quantizedPart (row k) := by
  obtain ⟨-, rfl⟩ := quantizeParts_eq_some.mp h
  exact part_ofParts (fun k hk => (length_quantizedPart _).trans (hw k hk)) hk

/-- The tensors of a loop that quantizes its parts one after the other. -/
def Filling (rows groups width : ℕ) (row : ℕ → List UInt32) (P : ℕ → Prop) (x : QTensor) : Prop :=
  x.Shaped rows groups width ∧ PartsDone (rows * groups) width row P x.values x.scales

/-- A loop that quantizes every part leaves the table or stops at a number that is not finite. -/
theorem quantizeParts_ends {code : Code String QTensor}
    (h : Ends (Filling rows groups width row fun _ => True) (Stopped (rows * groups) row) code) :
    code = okOr (quantizeParts rows groups width row) nonfinite := by
  refine Ends.eq_okOr (h.mono (fun x hx => ?_) fun e he => ?_)
  · obtain ⟨hshaped, hdone⟩ := hx
    exact quantizeParts_eq_some.mpr ⟨fun k hk => hdone.finite k hk trivial,
      hshaped.eq_ofParts hdone.are⟩
  · obtain ⟨rfl, k, hk, v, hv, hbad⟩ := he
    exact ⟨rfl, if_neg fun hall => hbad (hall k hk v hv)⟩

def zerosGrouped (rows cols groups : ℕ) : Code String QTensor := do
  assertThat (0 < groups ∧ cols % groups = 0)
  pure ⟨rows, cols, List.replicate (rows * cols) 0, List.replicate (rows * groups) 0x3f800000, groups⟩

def zeros (rows cols : ℕ) : Code String QTensor := zerosGrouped rows cols 1

def setRow (x : QTensor) (r : ℕ) (values : List UInt32) : Code String QTensor := do
  reject (values.length ≠ x.cols) "q8 row shape"
  let width ← wholeDiv x.cols x.groups
  (List.range x.groups).foldlM (fun x g => do
    let row ← slice values (g * width) ((g + 1) * width)
    let p ← quantizePart x.values x.scales (r * x.cols + g * width) width (r * x.groups + g) row
    pure { x with values := p.1, scales := p.2 }) x

/-- A new tensor of one group, row after row. -/
def fillRows (rows cols : ℕ) (scratch : ℕ → Code String (List UInt32)) : Code String QTensor := do
  let out ← zeros rows cols
  (List.range rows).foldlM (fun out r => do
    let row ← scratch r
    setRow out r row) out

theorem zerosGrouped_ends (rows width : ℕ) (row : ℕ → List UInt32) {P : ℕ → Prop} (hg : 0 < groups)
    (hP : ∀ k, ¬P k) :
    Ends (Filling rows groups width row P) (Stopped (rows * groups) row)
      (zerosGrouped rows (groups * width) groups) := by
  rw [zerosGrouped, assertThat_bind ⟨hg, Nat.mul_mod_right groups width⟩]
  have hvalues : (List.replicate (rows * (groups * width)) (0 : Int8)).length =
      rows * groups * width := by
    rw [List.length_replicate, Nat.mul_assoc]
  exact ⟨⟨rfl, rfl, rfl, hvalues, List.length_replicate⟩,
    PartsAre.none hvalues List.length_replicate fun k _ => hP k, fun k _ hp => absurd hp (hP k)⟩

/-- The rest of a tensor is left as it is when its parts change. -/
theorem Filling.parts {P Q : ℕ → Prop} {values : List Int8} {scales : List UInt32}
    (h : Filling rows groups width row P x)
    (hp : PartsDone (rows * groups) width row Q values scales) :
    Filling rows groups width row Q { x with values := values, scales := scales } :=
  ⟨⟨h.1.rows_eq, h.1.groups_eq, h.1.cols_eq, hp.are.bytes.length_eq, hp.are.scales_length⟩, hp⟩

theorem Filling.mono {P Q : ℕ → Prop} (h : Filling rows groups width row P x)
    (hQ : ∀ k < rows * groups, Q k → P k) : Filling rows groups width row Q x :=
  ⟨h.1, h.2.mono hQ⟩

/-- The groups of a row are quantized. -/
theorem setRow_ends {r : ℕ} {values : List UInt32}
    (h : Filling rows groups width row (fun k => k < r * groups) x) (hr : r < rows)
    (hg : 0 < groups) (hvalues : values.length = groups * width)
    (hrow : ∀ g < groups, row (r * groups + g) = rowAt width values g) :
    Ends (Filling rows groups width row fun k => k < (r + 1) * groups) (Stopped (rows * groups) row)
      (setRow x r values) := by
  have hcols : ¬values.length ≠ x.cols := by rw [h.1.cols_eq, hvalues, not_not]
  have hwidth : x.cols / x.groups = width := by
    rw [h.1.cols_eq, h.1.groups_eq, Nat.mul_div_cancel_left width hg]
  rw [setRow, reject_pass hcols, wholeDiv_of_pos (h.1.groups_eq ▸ hg), ok_bind, hwidth]
  have hgroups := h.1.groups_eq
  rw [hgroups]
  have hloop := Ends.range
    (I := fun g => Filling rows groups width row fun k => k < r * groups + g)
    (E := Stopped (rows * groups) row)
    (f := fun x g => do
      let row ← slice values (g * width) ((g + 1) * width)
      let p ← quantizePart x.values x.scales (r * x.cols + g * width) width (r * x.groups + g) row
      pure { x with values := p.1, scales := p.2 })
    (n := groups) (s := x) h fun g x hgn h => by
      have hfirst : r * x.cols + g * width = (r * groups + g) * width := by
        rw [h.1.cols_eq, Nat.add_mul, Nat.mul_assoc]
      have hk : r * groups + g < rows * groups := row_lt hr hgn
      have hlength : (row (r * groups + g)).length = width := by
        rw [hrow g hgn, length_rowAt hgn hvalues]
      have hkey : r * x.groups + g = r * groups + g := by rw [h.1.groups_eq]
      rw [slice_row hgn hvalues rfl (Nat.succ_mul g width), ok_bind, hkey]
      refine (h.2.quantize hk hfirst (hrow g hgn).symm hlength fun i _ hi => ?_).bind
        fun p hp => h.parts hp
      omega
  rw [Nat.succ_mul]
  exact hloop

/-- A tensor that is filled row by row. -/
theorem fillRows_eq {scratch : ℕ → Code String (List UInt32)}
    (hrow : ∀ r < rows, scratch r = .ok (row r)) (hcols : ∀ r < rows, (row r).length = cols) :
    fillRows rows cols scratch = okOr (quantizeParts rows 1 cols row) nonfinite := by
  refine quantizeParts_ends ?_
  have hzeros := zerosGrouped_ends rows cols row (P := fun k => k < 0) Nat.one_pos
    fun k => Nat.not_lt_zero k
  rw [Nat.one_mul] at hzeros
  rw [fillRows]
  refine hzeros.bind fun x hx => ?_
  refine (Ends.range (I := fun r => Filling rows 1 cols row fun k => k < r * 1)
    (hx.mono fun k _ hk => by omega) fun r x hr h => ?_).imp fun x h => h.mono fun k hk _ => hk
  rw [hrow r hr, ok_bind]
  refine setRow_ends h hr Nat.one_pos (by rw [hcols r hr, Nat.one_mul]) fun g hg => ?_
  obtain rfl : g = 0 := by omega
  rw [Nat.mul_one, Nat.add_zero, rowAt, Nat.zero_mul, List.drop_zero,
    List.take_of_length_le (Nat.le_of_eq (hcols r hr))]

end QTensor

section Rows
variable {F : Type} (f : Singles F)

namespace QTensor
variable (x : QTensor)

def value (r c : ℕ) : Code String UInt32 := do
  let v ← unwrap x.values[r * x.cols + c]?
  let width ← wholeDiv x.cols x.groups
  let g ← wholeDiv c width
  let s ← unwrap x.scales[r * x.groups + g]?
  pure (f.mul (f.ofInt v.toInt) s)

def map (g : UInt32 → UInt32) : Code String QTensor :=
  fillRows x.rows x.cols fun r => (List.range x.cols).mapM fun c => do
    let v ← x.value f r c
    pure (g v)

def add (rhs : QTensor) : Code String QTensor := do
  reject (x.cols ≠ rhs.cols ∨ rhs.rows ≠ x.rows ∧ rhs.rows ≠ 1) "q8 add shape"
  fillRows x.rows x.cols fun r => (List.range x.cols).mapM fun c => do
    let a ← x.value f r c
    let b ← rhs.value f (if rhs.rows = 1 then 0 else r) c
    pure (f.add a b)

def select (ids : List UInt32) : Code String QTensor := do
  let out ← zerosGrouped ids.length x.cols x.groups
  ids.zipIdx.foldlM (fun out id => do
    let i := id.1.toNat
    let r := id.2
    reject (x.rows ≤ i) "q8 select index"
    let bytes ← slice x.values (i * x.cols) ((i + 1) * x.cols)
    let values ← writeSlice out.values (r * x.cols) ((r + 1) * x.cols) bytes
    let row ← slice x.scales (i * x.groups) ((i + 1) * x.groups)
    let scales ← writeSlice out.scales (r * x.groups) ((r + 1) * x.groups) row
    pure { out with values := values, scales := scales }) out

end QTensor

def Int8Matrix.gatherQ8 (w : Int8Matrix) (ids : List UInt32) : Code String QTensor := do
  let out ← QTensor.zeros ids.length w.cols
  ids.zipIdx.foldlM (fun out id => do
    let r := id.1.toNat
    let i := id.2
    reject (w.rows ≤ r) "q8 embedding index"
    let bytes ← slice w.values (r * w.cols) ((r + 1) * w.cols)
    let values ← writeSlice out.values (i * w.cols) ((i + 1) * w.cols) bytes
    let s ← unwrap w.scales[r]?
    let scales ← update out.scales i fun _ => pure s
    pure { out with values := values, scales := scales }) out

namespace QTensor

/-- A quantized number of a part. -/
def single (p : UInt32 × List Int8) (c : ℕ) : UInt32 := f.mul (f.ofInt (p.2.getD c 0).toInt) p.1

/-- The numbers of a part. -/
def singles (width : ℕ) (p : UInt32 × List Int8) : List UInt32 := (List.range width).map (single f p)

/-- The sums of two rows. -/
def sums (width : ℕ) (p q : UInt32 × List Int8) : List UInt32 :=
  (List.range width).map fun c => f.add (single f p c) (single f q c)

/-- The tensor of the parts that a list of rows names. -/
def gathered (width : ℕ) (part : ℕ → UInt32 × List Int8) (ids : List UInt32) : QTensor :=
  ofParts ids.length 1 width fun k => part (ids.getD k 0).toNat

end QTensor

end Rows

section RowResults

theorem div_mod_part {r g groups : ℕ} (hg : g < groups) :
    (r * groups + g) / groups = r ∧ (r * groups + g) % groups = g := by
  have hpos : 0 < groups := Nat.zero_lt_of_lt hg
  rw [Nat.mul_comm, Nat.mul_add_div hpos, Nat.div_eq_of_lt hg, Nat.mul_add_mod,
    Nat.mod_eq_of_lt hg]
  exact ⟨Nat.add_zero r, rfl⟩

variable {F : Type} {f : Singles F} {x y : QTensor} {n rows groups width : ℕ} {ids : List UInt32}
  {w : Int8Matrix}

namespace QTensor

theorem value_eq (h : x.Shaped rows groups width) {r g c : ℕ} (hr : r < rows) (hg : g < groups)
    (hc : c < width) :
    x.value f r (g * width + c) = .ok (single f (x.part width (r * groups + g)) c) := by
  have hgroups : 0 < groups := Nat.zero_lt_of_lt hg
  have hwidth : 0 < width := Nat.zero_lt_of_lt hc
  have hk : r * groups + g < rows * groups := row_lt hr hg
  have hindex : r * x.cols + (g * width + c) = (r * groups + g) * width + c := by
    rw [h.cols_eq, ← Nat.add_assoc, Nat.add_mul, Nat.mul_assoc]
  have hlt : (r * groups + g) * width + c < x.values.length := by
    rw [h.values]
    exact row_lt hk hc
  have hpart : (rowAt width x.values (r * groups + g)).getD c 0 =
      x.values.getD ((r * groups + g) * width + c) 0 := by
    rw [List.getD_eq_getElem?_getD, List.getD_eq_getElem?_getD, getElem?_rowAt hc]
  have hdiv : (g * width + c) / width = g := (div_mod_part hc).1
  rw [value, hindex, unwrap_getElem? hlt 0, ok_bind, wholeDiv_of_pos (h.groups_eq ▸ hgroups), ok_bind,
    h.cols_eq, h.groups_eq, Nat.mul_div_cancel_left width hgroups, wholeDiv_of_pos hwidth, ok_bind,
    hdiv, unwrap_getElem? (h.scales ▸ hk) 0, ok_bind, single, QTensor.part, hpart]
  rfl

/-- A value of a tensor of one group. -/
theorem value_row (h : x.Shaped n 1 width) {r c : ℕ} (hr : r < n) (hc : c < width) :
    x.value f r c = .ok (single f (x.part width r) c) := by
  have hvalue := value_eq (f := f) h hr Nat.one_pos hc
  rwa [Nat.zero_mul, Nat.zero_add, Nat.mul_one, Nat.add_zero] at hvalue

theorem map_eq (h : x.Shaped n 1 width) (g : UInt32 → UInt32) :
    x.map f g = okOr (quantizeParts n 1 width fun r => (singles f width (x.part width r)).map g)
      nonfinite := by
  have hcols := h.cols_eq
  rw [Nat.one_mul] at hcols
  rw [map, h.rows_eq, hcols]
  refine fillRows_eq (fun r hr => ?_) fun r hr => by simp [singles]
  rw [singles, List.map_map]
  refine mapM_range_eq_ok fun c hc => ?_
  rw [value_row h hr hc]
  rfl

/-- The row of the other summand: a single row is added to every row. -/
def addend (y : QTensor) (r : ℕ) : ℕ := if y.rows = 1 then 0 else r

theorem add_eq {m : ℕ} (h : x.Shaped n 1 width) (hy : y.Shaped m 1 width) (hm : m = n ∨ m = 1) :
    x.add f y = okOr (quantizeParts n 1 width fun r =>
      sums f width (x.part width r) (y.part width (y.addend r))) nonfinite := by
  have hcols := h.cols_eq
  have hcolsy := hy.cols_eq
  rw [Nat.one_mul] at hcols hcolsy
  have hshape : ¬(x.cols ≠ y.cols ∨ y.rows ≠ x.rows ∧ y.rows ≠ 1) := by
    rw [hcols, hcolsy, hy.rows_eq, h.rows_eq]
    omega
  rw [add, reject_pass hshape, h.rows_eq, hcols]
  refine fillRows_eq (fun r hr => ?_) fun r hr => by simp [sums]
  refine mapM_range_eq_ok fun c hc => ?_
  have hrow : y.addend r < m := by
    rw [addend, hy.rows_eq]
    split <;> omega
  have hvalue := value_row (f := f) hy hrow hc
  rw [addend] at hvalue
  rw [value_row h hr hc, ok_bind, hvalue]
  rfl

/-- A tensor whose first `k` parts are those of the rows that a list names. -/
def Gathering (width : ℕ) (part : ℕ → UInt32 × List Int8) (ids : List UInt32) (k : ℕ)
    (out : QTensor) : Prop :=
  out.Shaped ids.length 1 width ∧ PartsAre (ids.length * 1) width
    (fun k => part (ids.getD k 0).toNat) (fun i => i < k) out.values out.scales

/-- A loop that copies parts leaves the tensor of the parts it names. -/
theorem gathered_eq {part : ℕ → UInt32 × List Int8} {body : QTensor → UInt32 × ℕ → Code String QTensor}
    (hbody : ∀ k id out, ids[k]? = some id → Gathering width part ids k out →
      Ends (Gathering width part ids (k + 1)) (fun _ => False) (body out (id, k))) :
    (zerosGrouped ids.length width 1 >>= ids.zipIdx.foldlM body) =
      .ok (gathered width part ids) := by
  have hwidth : 1 * width = width := Nat.one_mul width
  have hone : ids.length * width = ids.length * 1 * width := by rw [Nat.mul_one]
  rw [zerosGrouped, assertThat_bind ⟨Nat.one_pos, Nat.mod_one width⟩]
  have hloop := Ends.zipIdx (l := ids) (I := Gathering width part ids) (f := body)
    (s := ⟨ids.length, width, List.replicate (ids.length * width) 0,
      List.replicate (ids.length * 1) 0x3f800000, 1⟩)
    ⟨⟨rfl, rfl, hwidth.symm, List.length_replicate.trans hone, List.length_replicate⟩,
      PartsAre.none (List.length_replicate.trans hone) List.length_replicate
        fun k _ => Nat.not_lt_zero k⟩ hbody
  exact (hloop.imp fun out h => h.1.eq_ofParts (h.2.mono fun k hk _ => by omega)).eq_ok

theorem Gathering.parts {part : ℕ → UInt32 × List Int8} {k : ℕ} {values : List Int8}
    {scales : List UInt32} (h : Gathering width part ids k x)
    (hp : PartsAre (ids.length * 1) width (fun k => part (ids.getD k 0).toNat) (fun i => i < k + 1)
      values scales) :
    Gathering width part ids (k + 1) { x with values := values, scales := scales } :=
  ⟨⟨h.1.rows_eq, h.1.groups_eq, h.1.cols_eq, hp.bytes.length_eq, hp.scales_length⟩, hp⟩

theorem select_eq (h : x.Shaped n 1 width) (hids : ∀ id ∈ ids, id.toNat < n) :
    x.select ids = .ok (gathered width (x.part width) ids) := by
  have hcols := h.cols_eq
  have hvalues := h.values
  have hscales := h.scales
  rw [Nat.one_mul] at hcols
  rw [Nat.mul_one] at hvalues hscales
  rw [select, hcols, h.groups_eq]
  refine gathered_eq fun k id out hid hout => ?_
  have hk : k < ids.length := (List.getElem?_eq_some_iff.mp hid).1
  have hlt := hids id (List.mem_of_getElem? hid)
  have hget : (ids.getD k 0).toNat = id.toNat := by
    rw [List.getD_eq_getElem?_getD, hid]
    rfl
  have hs := hout.1.scales
  rw [Nat.mul_one] at hs
  have hone : x.scales.length = n * 1 := by rw [hscales, Nat.mul_one]
  have hrow : (rowAt width x.values id.toNat).length = width := length_rowAt hlt hvalues
  obtain ⟨values, hwrite, hrest⟩ := hout.2.write (Q := fun i => i < k + 1) (k := k) (by omega)
    (by rw [hget]; exact hrow) fun i _ hi => by omega
  rw [hget] at hwrite hrest
  obtain ⟨scales, hset, hlength, hself, hkept⟩ := writeSlice_row (ε := String) (n := ids.length)
    (w := 1) hk (hs.trans (Nat.mul_one _).symm) (length_rowAt hlt hone) rfl (Nat.succ_mul k 1)
  dsimp only
  rw [reject_pass (by rw [h.rows_eq]; omega), slice_row hlt hvalues rfl (Nat.succ_mul _ _), ok_bind,
    Nat.succ_mul k width]
  show Ends _ _ (writeSlice out.values (k * width) _ (x.part width id.toNat).2 >>= _)
  rw [hwrite, ok_bind, slice_row hlt hone rfl (Nat.succ_mul _ _), ok_bind, hset, ok_bind]
  refine hout.parts (hrest scales (hlength.trans (by omega)) ?_ fun i hi hne => ?_)
  · have hcell : (rowAt 1 scales k)[0]? = scales[k * 1 + 0]? := getElem?_rowAt Nat.one_pos
    rw [hself, getElem?_rowAt (show 0 < 1 by omega), Nat.mul_one, Nat.mul_one, Nat.add_zero,
      Nat.add_zero, List.getElem?_eq_getElem (by rw [hscales]; exact hlt)] at hcell
    rw [← hcell, QTensor.part, List.getD_eq_getElem?_getD,
      List.getElem?_eq_getElem (by rw [hscales]; exact hlt)]
    rfl
  · have hsame := hkept i (by omega) hne
    have hcell : (rowAt 1 scales i)[0]? = scales[i * 1 + 0]? := getElem?_rowAt Nat.one_pos
    rw [hsame, getElem?_rowAt (show 0 < 1 by omega), Nat.mul_one, Nat.add_zero] at hcell
    exact hcell.symm

end QTensor

theorem Int8Matrix.gatherQ8_eq (hw : w.Valid) (hids : ∀ id ∈ ids, id.toNat < w.rows) :
    w.gatherQ8 ids = .ok (QTensor.gathered w.cols (fun r => (w.scales.getD r 0, w.row r)) ids) := by
  rw [gatherQ8, QTensor.zeros]
  refine QTensor.gathered_eq fun k id out hid hout => ?_
  have hk : k < ids.length := (List.getElem?_eq_some_iff.mp hid).1
  have hlt := hids id (List.mem_of_getElem? hid)
  have hget : (ids.getD k 0).toNat = id.toNat := by
    rw [List.getD_eq_getElem?_getD, hid]
    rfl
  obtain ⟨values, hwrite, hrest⟩ := hout.2.write (Q := fun i => i < k + 1) (k := k) (by omega)
    (by rw [hget]; exact length_rowAt hlt hw.values) fun i _ hi => by omega
  rw [hget] at hwrite hrest
  have hscale : k < out.scales.length := by
    rw [hout.1.scales]
    omega
  dsimp only
  rw [reject_pass (Nat.not_le.mpr hlt), slice_row hlt hw.values rfl (Nat.succ_mul _ _), ok_bind,
    Nat.succ_mul k w.cols]
  show Ends _ _ (writeSlice out.values (k * w.cols) _ (w.row id.toNat) >>= _)
  rw [hwrite, ok_bind, unwrap_getElem? (hw.scales ▸ hlt) 0, ok_bind, update_eq_ok hscale, ok_bind]
  refine hout.parts (hrest _ ((List.length_set ..).trans hout.1.scales)
    (List.getElem?_set_self hscale) fun i _ hne => List.getElem?_set_ne (Ne.symm hne))

end RowResults

end IcLaya
