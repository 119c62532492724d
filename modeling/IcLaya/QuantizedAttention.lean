import IcLaya.QuantizedLinear

/-!
# Attention on signed bytes (`laya-candle/src/quantized.rs`, `q8_ops.rs`)

Each head reads its queries, keys and values off one product, turns and quantizes them again, and
adds up the values by their weights. The buffers of a head are used again by the next one. What is
left is the table of all the heads, of every row that was asked for, and the one failure is a number
that is not finite.
-/
namespace IcLaya
open Fallible PanickingCode LoopOutcomes RowBuffers StoreLoops

/-- `f32::NEG_INFINITY` -/
def negInfinity : UInt32 := 0xff800000

section Rows
variable {F : Type} (f : Singles F)

def dequantize (src : List Int8) (scale : UInt32) (out : List UInt32) : Code String (List UInt32) := do
  assertThat (src.length = out.length)
  pure (src.map fun v => f.mul (f.ofInt v.toInt) scale)

def scaleI32 (src : List ℤ) (scale : UInt32) (out : List UInt32) : Code String (List UInt32) := do
  assertThat (src.length = out.length)
  pure (src.map fun v => f.mul (f.ofInt v) scale)

def rotary (src : List Int8) (scale : UInt32) (rotations : List (UInt32 × UInt32))
    (out : List UInt32) : Code String (List UInt32) := do
  assertThat (src.length = out.length)
  assertThat (src.length = rotations.length * 2)
  let half := rotations.length
  (List.range half).foldlM (fun out i => do
    let (sin, cos) ← unwrap rotations[i]?
    let a ← unwrap src[i]?
    let b ← unwrap src[i + half]?
    let a := f.mul (f.ofInt a.toInt) scale
    let b := f.mul (f.ofInt b.toInt) scale
    let out ← store out i (f.sub (f.mul a cos) (f.mul b sin))
    store out (i + half) (f.add (f.mul b cos) (f.mul a sin))) out

/-- A number of a part, turned with its partner in the other half by the position of the row. -/
def turned (theta : F) (d pos : ℕ) (p : UInt32 × List Int8) (c : ℕ) : UInt32 :=
  let half := d / 2
  if c < half then
    let r := f.rotation theta pos c d
    f.sub (f.mul (QTensor.single f p c) r.2) (f.mul (QTensor.single f p (c + half)) r.1)
  else
    let r := f.rotation theta pos (c - half) d
    f.add (f.mul (QTensor.single f p c) r.2) (f.mul (QTensor.single f p (c - half)) r.1)

def rotated (theta : F) (d pos : ℕ) (p : UInt32 × List Int8) : List UInt32 :=
  (List.range d).map (turned f theta d pos p)

theorem dequantize_eq {p : UInt32 × List Int8} {out : List UInt32} {d : ℕ}
    (hp : p.2.length = d) (hout : out.length = d) :
    dequantize f p.2 p.1 out = .ok (QTensor.singles f d p) := by
  rw [dequantize, assertThat_bind (hp.trans hout.symm)]
  refine congrArg Except.ok (List.ext_getElem? fun c => ?_)
  rw [QTensor.singles, List.getElem?_map, List.getElem?_map]
  by_cases hc : c < d
  · rw [List.getElem?_range hc, List.getElem?_eq_getElem (hp ▸ hc), Option.map_some, Option.map_some,
      QTensor.single, List.getD_eq_getElem?_getD, List.getElem?_eq_getElem (hp ▸ hc)]
    rfl
  · rw [List.getElem?_eq_none (by omega),
      List.getElem?_eq_none (by rw [List.length_range]; omega)]
    rfl

theorem store_eq_ok {α : Type} {xs : List α} {k : ℕ} (hk : k < xs.length) (v : α) :
    (store xs k v : Code String (List α)) = .ok (xs.set k v) := if_pos hk

/-- A loop over the pairs turns the whole part. -/
theorem rotary_eq {theta : F} {d pos : ℕ} {p : UInt32 × List Int8} {out : List UInt32}
    {rotations : List (UInt32 × UInt32)} (hd : d % 2 = 0) (hp : p.2.length = d)
    (hout : out.length = d)
    (hr : rotations = (List.range (d / 2)).map fun i => f.rotation theta pos i d) :
    rotary f p.2 p.1 rotations out = .ok (rotated f theta d pos p) := by
  have hlength : rotations.length = d / 2 := by rw [hr, List.length_map, List.length_range]
  rw [rotary, assertThat_bind (hp.trans hout.symm), assertThat_bind (by rw [hp, hlength]; omega)]
  dsimp only
  rw [hlength]
  have hloop := Ends.range (E := fun _ : Fault String => False)
    (I := fun i out => out.length = d ∧ ∀ c < d, c < i ∨ d / 2 ≤ c ∧ c < d / 2 + i →
      out[c]? = some (turned f theta d pos p c))
    (f := fun out i => do
      let (sin, cos) ← unwrap rotations[i]?
      let a ← unwrap p.2[i]?
      let b ← unwrap p.2[i + d / 2]?
      let a := f.mul (f.ofInt a.toInt) p.1
      let b := f.mul (f.ofInt b.toInt) p.1
      let out ← store out i (f.sub (f.mul a cos) (f.mul b sin))
      store out (i + d / 2) (f.add (f.mul b cos) (f.mul a sin)))
    (n := d / 2) (s := out) ⟨hout, fun c hc h => by omega⟩ fun i out hi h => by
      have hrot : rotations[i]? = some (f.rotation theta pos i d) := by
        rw [hr, List.getElem?_map, List.getElem?_range hi]
        rfl
      rw [hrot]
      show Ends _ _ (unwrap p.2[i]? >>= _)
      rw [unwrap_getElem? (by omega) 0, ok_bind, unwrap_getElem? (by omega) 0, ok_bind]
      dsimp only
      rw [store_eq_ok (by omega), ok_bind, store_eq_ok (by rw [List.length_set]; omega)]
      refine ⟨by rw [List.length_set, List.length_set]; exact h.1, fun c hc hcase => ?_⟩
      by_cases hsecond : c = i + d / 2
      · subst hsecond
        rw [List.getElem?_set_self (by rw [List.length_set]; omega), turned, if_neg (by omega),
          Nat.add_sub_cancel]
        rfl
      · rw [List.getElem?_set_ne (Ne.symm hsecond)]
        by_cases hfirst : c = i
        · subst hfirst
          rw [List.getElem?_set_self (by omega), turned, if_pos hi]
          rfl
        · rw [List.getElem?_set_ne (Ne.symm hfirst), h.2 c hc (by omega)]
  refine (hloop.imp fun out h => List.ext_getElem? fun c => ?_).eq_ok
  by_cases hc : c < d
  · rw [h.2 c hc (by omega), rotated, List.getElem?_map, List.getElem?_range hc]
    rfl
  · rw [List.getElem?_eq_none (by omega), List.getElem?_eq_none (by simp [rotated]; omega)]

end Rows

/-- What the heads of a layer take: the product, its sizes, and how rows see each other. -/
structure Heads (F : Type) where
  y : QTensor
  t : ℕ
  h : ℕ
  d : ℕ
  heads : ℕ
  theta : Option F
  distance : Option ℕ

/-- The buffers of a head, used again by every head. -/
structure HeadBuffers where
  scratch : List UInt32
  arrays : ℕ → List Int8
  scales : ℕ → List UInt32
  vt : List Int8
  probs : List UInt32
  qp : List Int8
  scores : List ℤ
  av : List ℤ
  outputs : List UInt32

/-- A kind is loaded: the rows that were read, their bytes and their scales. -/
def HeadBuffers.load (b : HeadBuffers) (kind : ℕ) (scratch : List UInt32) (values : List Int8)
    (scales : List UInt32) : HeadBuffers :=
  { b with
    scratch := scratch
    arrays := Function.update b.arrays kind values
    scales := Function.update b.scales kind scales }

namespace Heads
variable {F : Type} (f : Singles F) (a : Heads F)

def rotations : Option (List (UInt32 × UInt32)) :=
  a.theta.map fun theta => (List.range a.t).flatMap fun pos =>
    (List.range (a.d / 2)).map fun i => f.rotation theta pos i a.d

/-- A row is dequantized; queries and keys are turned by their position. -/
def loadRow (kind pos : ℕ) (source : List Int8) (scale : UInt32) (target : List UInt32) :
    Code String (List UInt32) :=
  if kind < 2 then
    (a.rotations f).elim (dequantize f source scale target) fun rotations => do
      let half := a.d / 2
      let rotations ← slice rotations (pos * half) ((pos + 1) * half)
      rotary f source scale rotations target
  else dequantize f source scale target

/-- The rows of one kind are read off the product. -/
def loadRows (head kind : ℕ) (scratch : List UInt32) : Code String (List UInt32) :=
  (List.range a.t).foldlM (fun scratch pos => do
    let offset := pos * a.y.cols + kind * a.h + head * a.d
    let source ← slice a.y.values offset (offset + a.d)
    let scale ← unwrap a.y.scales[pos * a.y.groups + kind * a.heads + head]?
    let target ← slice scratch (pos * a.d) ((pos + 1) * a.d)
    let target ← a.loadRow f kind pos source scale target
    writeSlice scratch (pos * a.d) ((pos + 1) * a.d) target) scratch

/-- Queries and keys have a scale for each row, values have one for all rows. -/
def loadKind (head : ℕ) (b : HeadBuffers) (kind : ℕ) : Code String HeadBuffers := do
  let scratch ← a.loadRows f head kind b.scratch
  if kind < 2 then do
    let p ← (List.range a.t).foldlM (fun p pos => do
      let row ← slice scratch (pos * a.d) ((pos + 1) * a.d)
      quantizePart p.1 p.2 (pos * a.d) a.d pos row) (b.arrays kind, b.scales kind)
    pure (b.load kind scratch p.1 p.2)
  else do
    assertThat (scratch.length = (b.arrays kind).length)
    let part ← call (quantizeRow scratch)
    pure (b.load kind scratch part.2 (List.replicate (b.scales kind).length part.1))

/-- The score of a row for a row; what is too far away has none. -/
def scoreAt (b : HeadBuffers) (pos k : ℕ) : Code String UInt32 :=
  if a.distance.any fun dist => dist < (pos - k) + (k - pos) then pure negInfinity
  else do
    let n ← unwrap b.scores[k]?
    let q ← unwrap (b.scales 0)[pos]?
    let s ← unwrap (b.scales 1)[k]?
    pure (f.div (f.mul (f.mul (f.ofInt n) q) s) (f.sqrt (f.ofInt a.d)))

/-- The scores of a row and the highest of them. -/
def scoreRow (b : HeadBuffers) (pos : ℕ) : Code String (List UInt32 × UInt32) :=
  (List.range a.t).foldlM (fun s k => do
    let score ← a.scoreAt f b pos k
    let probs ← store s.1 k score
    pure (probs, f.max s.2 score)) (b.probs, negInfinity)

/-- The exponentials of the scores, divided by their sum. -/
def softmax (scores : List UInt32) (peak : UInt32) : List UInt32 :=
  let exps := scores.map fun p => f.exp (f.sub p peak)
  let sum := exps.foldl f.add 0
  exps.map fun p => f.div p sum

/-- One row of one head: its scores, their weights, and the values added up. -/
def attendRow (head : ℕ) (b : HeadBuffers) (id : ℕ × ℕ) : Code String HeadBuffers := do
  let pos := id.1
  let r := id.2
  let query ← slice (b.arrays 0) (pos * a.d) ((pos + 1) * a.d)
  let scores ← integerDots query (b.arrays 1) b.scores
  let b := { b with scores := scores }
  let s ← a.scoreRow f b pos
  let probs := softmax f s.1 s.2
  assertThat (probs.length = b.qp.length)
  let part ← call (quantizeRow probs)
  let s ← unwrap (b.scales 2)[0]?
  let scale := f.mul part.1 s
  let av ← integerDots part.2 b.vt b.av
  let target ← slice b.outputs (r * a.h + head * a.d) (r * a.h + (head + 1) * a.d)
  let target ← scaleI32 f av scale target
  let outputs ← writeSlice b.outputs (r * a.h + head * a.d) (r * a.h + (head + 1) * a.d) target
  pure { b with probs := probs, qp := part.2, av := av, outputs := outputs }

/-- One head, for every row that is asked for. -/
def headStep (ids : List ℕ) (b : HeadBuffers) (head : ℕ) : Code String HeadBuffers := do
  let b ← (List.range 3).foldlM (a.loadKind f head) b
  let vt ← copyLoop (b.arrays 2) (fun j : ℕ × ℕ => j.1 * a.d + j.2) (fun j => j.2 * a.t + j.1)
    (List.range a.t ×ˢ List.range a.d) b.vt
  ids.zipIdx.foldlM (a.attendRow f head) { b with vt := vt }

/-- The heads one after the other, and the rows of their outputs quantized. -/
def merged (ids : List ℕ) : Code String QTensor := do
  let b ← (List.range a.heads).foldlM (a.headStep f ids) {
    scratch := List.replicate (a.t * a.d) 0
    arrays := fun _ => List.replicate (a.t * a.d) 0
    scales := fun _ => List.replicate a.t 0x3f800000
    vt := List.replicate (a.t * a.d) 0
    probs := List.replicate a.t 0
    qp := List.replicate a.t 0
    scores := List.replicate a.t 0
    av := List.replicate a.d 0
    outputs := List.replicate (ids.length * a.h) 0 }
  QTensor.fillRows ids.length a.h fun r => slice b.outputs (r * a.h) ((r + 1) * a.h)

/-- What a head reads for a row: a query, a key or values. -/
def part (kind head pos : ℕ) : UInt32 × List Int8 :=
  a.y.part a.d (pos * (3 * a.heads) + (kind * a.heads + head))

def row (kind head pos : ℕ) : List UInt32 :=
  let p := a.part kind head pos
  if kind < 2 then
    a.theta.elim (QTensor.singles f a.d p) fun theta => rotated f theta a.d pos p
  else QTensor.singles f a.d p

/-- The values of all the rows. -/
def valueRow (head : ℕ) : List UInt32 := (List.range a.t).flatMap (a.row f 2 head)

def score (head pos k : ℕ) : UInt32 :=
  let q := quantizedPart (a.row f 0 head pos)
  let s := quantizedPart (a.row f 1 head k)
  if a.distance.any fun dist => dist < (pos - k) + (k - pos) then negInfinity
  else f.div (f.mul (f.mul (f.ofInt (dot q.2 s.2)) q.1) s.1) (f.sqrt (f.ofInt a.d))

/-- How much each row weighs for a row. -/
def weights (head pos : ℕ) : List UInt32 :=
  let scores := (List.range a.t).map (a.score f head pos)
  softmax f scores (scores.foldl f.max negInfinity)

/-- The weighted sum of the values, for a row. -/
def attended (head pos : ℕ) : List UInt32 :=
  let p := quantizedPart (a.weights f head pos)
  let v := quantizedPart (a.valueRow f head)
  (List.range a.d).map fun c =>
    f.mul (f.ofInt (dot p.2 ((List.range a.t).map fun k => v.2.getD (k * a.d + c) 0)))
      (f.mul p.1 v.1)

/-- All the heads of a row. -/
def mergedRow (pos : ℕ) : List UInt32 := (List.range a.heads).flatMap fun head => a.attended f head pos

/-- The numbers of a head are finite. -/
def Finite (ids : List ℕ) (head : ℕ) : Prop :=
  (∀ kind < 2, ∀ pos < a.t, ∀ v ∈ a.row f kind head pos, singleFinite v) ∧
    (∀ v ∈ a.valueRow f head, singleFinite v) ∧
    ∀ pos ∈ ids, ∀ v ∈ a.weights f head pos, singleFinite v

instance (ids : List ℕ) (head : ℕ) : Decidable (a.Finite f ids head) := by
  unfold Finite
  infer_instance

/-- The table of the heads. -/
def table (ids : List ℕ) : Option QTensor :=
  if ∀ head < a.heads, a.Finite f ids head then
    QTensor.quantizeParts ids.length 1 a.h fun r => a.mergedRow f (ids.getD r 0)
  else none

/-- Sizes that fit each other. -/
structure Sound (a : Heads F) : Prop where
  shaped : a.y.Shaped a.t (3 * a.heads) a.d
  h_eq : a.h = a.heads * a.d
  rows : 0 < a.t ∧ a.t ≤ 16384
  width : 0 < a.d ∧ a.d ≤ 16384
  even : ∀ theta, a.theta = some theta → a.d % 2 = 0

variable {f a} {head kind : ℕ}

theorem length_row (kind head pos : ℕ) : (a.row f kind head pos).length = a.d := by
  unfold row
  dsimp only
  split
  · cases a.theta <;> simp [QTensor.singles, rotated]
  · simp [QTensor.singles]

/-- The place of a part in a row of the product. -/
theorem part_lt {pos : ℕ} (hkind : kind < 3) (hhead : head < a.heads)
    (hpos : pos < a.t) : pos * (3 * a.heads) + (kind * a.heads + head) < a.t * (3 * a.heads) :=
  row_lt hpos (row_lt hkind hhead)

/-- One row is dequantized or turned. -/
theorem Sound.loadRow_eq (h : a.Sound) {pos : ℕ} {target : List UInt32} (hkind : kind < 3)
    (hhead : head < a.heads) (hpos : pos < a.t) (htarget : target.length = a.d) :
    a.loadRow f kind pos (a.part kind head pos).2 (a.part kind head pos).1 target =
      .ok (a.row f kind head pos) := by
  have hlength : (a.part kind head pos).2.length = a.d :=
    length_rowAt (part_lt hkind hhead hpos) h.shaped.values
  unfold loadRow row rotations
  dsimp only
  by_cases hk : kind < 2
  · rw [if_pos hk, if_pos hk]
    cases htheta : a.theta with
    | none => exact dequantize_eq f hlength htarget
    | some theta =>
      simp only [Option.map_some, Option.elim_some]
      have hwidth : ∀ pos < a.t,
          ((List.range (a.d / 2)).map fun i => f.rotation theta pos i a.d).length = a.d / 2 := by
        simp
      rw [slice_row hpos (length_flatMap_rows hwidth) rfl (Nat.succ_mul pos _), ok_bind,
        rowAt_flatMap hwidth hpos]
      exact rotary_eq f (h.even theta htheta) hlength htarget rfl
  · rw [if_neg hk, if_neg hk]
    exact dequantize_eq f hlength htarget

theorem Sound.loadRows_eq (h : a.Sound) {scratch : List UInt32} (hkind : kind < 3)
    (hhead : head < a.heads) (hscratch : scratch.length = a.t * a.d) :
    a.loadRows f head kind scratch = .ok ((List.range a.t).flatMap (a.row f kind head)) := by
  refine Ends.eq_ok (Ends.imp (Ends.range
    (I := fun pos => RowsDone a.t a.d (a.row f kind head) fun i => i < pos)
    (RowsDone.none hscratch fun i _ => Nat.not_lt_zero i) fun pos scratch hpos hdone => ?_)
    fun scratch hs => hs.eq_flatMap fun i hi => hi)
  have hk := part_lt hkind hhead hpos
  have hoffset : pos * a.y.cols + kind * a.h + head * a.d =
      (pos * (3 * a.heads) + (kind * a.heads + head)) * a.d := by
    rw [h.shaped.cols_eq, h.h_eq]
    ring
  have hindex : pos * a.y.groups + kind * a.heads + head =
      pos * (3 * a.heads) + (kind * a.heads + head) := by
    rw [h.shaped.groups_eq, Nat.add_assoc]
  obtain ⟨r, hr, hrows⟩ := hdone.write (ε := String) (Q := fun i => i < pos + 1) hpos rfl
    (length_row (f := f) kind head pos) rfl (Nat.succ_mul pos a.d) fun i _ hi => by omega
  dsimp only
  rw [hoffset, slice_row hk h.shaped.values rfl rfl, ok_bind, hindex,
    unwrap_getElem? (h.shaped.scales ▸ hk) 0, ok_bind,
    slice_row hpos hdone.length_eq rfl (Nat.succ_mul pos a.d), ok_bind]
  have hrow := h.loadRow_eq (f := f) hkind hhead hpos (length_rowAt hpos hdone.length_eq)
  rw [part, QTensor.part] at hrow
  rw [hrow, ok_bind, hr]
  exact hrows

/-- The buffers of a layer, for `n` rows that are asked for. -/
structure Sized (a : Heads F) (n : ℕ) (b : HeadBuffers) : Prop where
  scratch : b.scratch.length = a.t * a.d
  arrays : ∀ kind, (b.arrays kind).length = a.t * a.d
  scales : ∀ kind, (b.scales kind).length = a.t
  vt : b.vt.length = a.t * a.d
  probs : b.probs.length = a.t
  qp : b.qp.length = a.t
  scores : b.scores.length = a.t
  av : b.av.length = a.d
  outputs : b.outputs.length = n * a.heads * a.d

/-- The bytes and scales of a kind of a head, quantized. -/
def Quantized (f : Singles F) (a : Heads F) (head kind : ℕ) (values : List Int8)
    (scales : List UInt32) : Prop :=
  if kind < 2 then PartsDone a.t a.d (a.row f kind head) (fun _ => True) values scales
  else (∀ v ∈ a.valueRow f head, singleFinite v) ∧
    values = (quantizedPart (a.valueRow f head)).2 ∧
    scales = List.replicate a.t (quantizedPart (a.valueRow f head)).1

/-- The kinds before number `kind` are loaded. -/
def Loaded (f : Singles F) (a : Heads F) (head kind : ℕ) (b : HeadBuffers) : Prop :=
  ∀ j < kind, a.Quantized f head j (b.arrays j) (b.scales j)

/-- A number of a head is not finite. -/
def Failed (f : Singles F) (a : Heads F) (ids : List ℕ) (head : ℕ) (e : Fault String) : Prop :=
  e = nonfinite ∧ ¬a.Finite f ids head

variable {ids : List ℕ} {b : HeadBuffers} {n : ℕ}

theorem length_valueRow (head : ℕ) : (a.valueRow f head).length = a.t * a.d :=
  length_flatMap_rows fun pos _ => length_row 2 head pos

theorem quantizeRow_ends (row : List UInt32) :
    Ends (fun p => (∀ v ∈ row, singleFinite v) ∧ p = quantizedPart row)
      (fun e => e = nonfinite ∧ ∃ v ∈ row, ¬singleFinite v)
      (call (quantizeRow row) : Code String _) := by
  rw [quantizeRow]
  by_cases hbad : ∃ v ∈ row, ¬singleFinite v
  · rw [rejectIf_stop hbad]
    exact ⟨rfl, hbad⟩
  · rw [rejectIf_bind hbad]
    exact ⟨fun v hv => not_not.mp fun hn => hbad ⟨v, hv, hn⟩, rfl⟩

theorem Quantized.lengths {values : List Int8} {scales : List UInt32}
    (h : a.Quantized f head kind values scales) :
    values.length = a.t * a.d ∧ scales.length = a.t := by
  unfold Quantized at h
  split at h
  · exact ⟨h.are.bytes.length_eq, h.are.scales_length⟩
  · obtain ⟨-, rfl, rfl⟩ := h
    exact ⟨(length_quantizedPart _).trans (length_valueRow head), List.length_replicate⟩

/-- What was loaded before stays. -/
theorem Loaded.load {scratch : List UInt32} {values : List Int8} {scales : List UInt32}
    (h : a.Loaded f head kind b) (hb : a.Sized n b) (hscratch : scratch.length = a.t * a.d)
    (hq : a.Quantized f head kind values scales) :
    a.Sized n (b.load kind scratch values scales) ∧
      a.Loaded f head (kind + 1) (b.load kind scratch values scales) := by
  refine ⟨⟨hscratch, fun j => ?_, fun j => ?_, hb.vt, hb.probs, hb.qp, hb.scores, hb.av,
    hb.outputs⟩, fun j hj => ?_⟩
  · show (Function.update b.arrays kind values j).length = _
    by_cases he : j = kind
    · rw [he, Function.update_self]
      exact hq.lengths.1
    · rw [Function.update_of_ne he]
      exact hb.arrays j
  · show (Function.update b.scales kind scales j).length = _
    by_cases he : j = kind
    · rw [he, Function.update_self]
      exact hq.lengths.2
    · rw [Function.update_of_ne he]
      exact hb.scales j
  · show a.Quantized f head j (Function.update b.arrays kind values j)
      (Function.update b.scales kind scales j)
    by_cases he : j = kind
    · rw [he, Function.update_self, Function.update_self]
      exact hq
    · rw [Function.update_of_ne he, Function.update_of_ne he]
      exact h j (by omega)

/-- One kind is loaded. -/
theorem Sound.loadKind_ends (h : a.Sound) (hhead : head < a.heads) (hkind : kind < 3)
    (hb : a.Sized n b) (hloaded : a.Loaded f head kind b) :
    Ends (fun b' => a.Sized n b' ∧ b'.outputs = b.outputs ∧ a.Loaded f head (kind + 1) b')
      (Failed f a ids head) (a.loadKind f head b kind) := by
  rw [loadKind, h.loadRows_eq hkind hhead hb.scratch, ok_bind]
  have hscratch : ((List.range a.t).flatMap (a.row f kind head)).length = a.t * a.d :=
    length_flatMap_rows fun pos _ => length_row kind head pos
  by_cases hk : kind < 2
  · rw [if_pos hk]
    refine Ends.bind (Ends.mono (Ends.range (E := Stopped a.t (a.row f kind head))
      (I := fun pos p => PartsDone a.t a.d (a.row f kind head) (fun i => i < pos) p.1 p.2)
      ?_ fun pos p hpos hp => ?_) (fun p hp => hp) fun e he => ?_) fun p hp => ?_
    · exact ⟨PartsAre.none (hb.arrays kind) (hb.scales kind) fun i _ => Nat.not_lt_zero i,
        fun i _ hi => absurd hi (Nat.not_lt_zero i)⟩
    · rw [slice_row hpos hscratch rfl (Nat.succ_mul pos a.d), ok_bind,
        rowAt_flatMap (fun pos _ => length_row kind head pos) hpos]
      exact hp.quantize hpos rfl rfl (length_row kind head pos) fun i _ hi => by omega
    · obtain ⟨rfl, pos, hpos, v, hv, hbad⟩ := he
      exact ⟨rfl, fun hfinite => hbad (hfinite.1 kind hk pos hpos v hv)⟩
    · have hq : a.Quantized f head kind p.1 p.2 := by
        rw [Quantized, if_pos hk]
        exact hp.mono fun i hi _ => hi
      obtain ⟨hsized, hnext⟩ := hloaded.load hb hscratch hq
      exact ⟨hsized, rfl, hnext⟩
  · obtain rfl : kind = 2 := by omega
    rw [if_neg hk, assertThat_bind (hscratch.trans (hb.arrays 2).symm)]
    refine Ends.bind (Ends.mono (quantizeRow_ends _) (fun p hp => hp) fun e he => ?_) fun p hp => ?_
    · obtain ⟨rfl, v, hv, hbad⟩ := he
      exact ⟨rfl, fun hfinite => hbad (hfinite.2.1 v hv)⟩
    · obtain ⟨hfinite, rfl⟩ := hp
      have hq : a.Quantized f head 2 (quantizedPart (a.valueRow f head)).2
          (List.replicate (b.scales 2).length (quantizedPart (a.valueRow f head)).1) := by
        rw [Quantized, if_neg hk, hb.scales 2]
        exact ⟨hfinite, rfl, rfl⟩
      obtain ⟨hsized, hnext⟩ := hloaded.load hb hscratch hq
      exact ⟨hsized, rfl, hnext⟩

/-- The bytes of the values, column by column. -/
def Transposed (f : Singles F) (a : Heads F) (head : ℕ) (vt : List Int8) : Prop :=
  vt.length = a.t * a.d ∧ ∀ c < a.d, rowAt a.t vt c = (List.range a.t).map fun k =>
    (quantizedPart (a.valueRow f head)).2.getD (k * a.d + c) 0

theorem transpose_ends (hb : a.Sized n b) (hq : a.Loaded f head 3 b) :
    Ends (Transposed f a head) (fun _ : Fault String => False)
      (copyLoop (b.arrays 2) (fun j : ℕ × ℕ => j.1 * a.d + j.2) (fun j => j.2 * a.t + j.1)
        (List.range a.t ×ˢ List.range a.d) b.vt) := by
  have hmem : ∀ j : ℕ × ℕ, j ∈ List.range a.t ×ˢ List.range a.d ↔ j.1 < a.t ∧ j.2 < a.d := by
    intro j
    rw [List.mem_product, List.mem_range, List.mem_range]
  have hlength := hb.arrays 2
  obtain ⟨-, hvalues, -⟩ := hq 2 (by omega)
  have hsrc : ∀ j ∈ List.range a.t ×ˢ List.range a.d, j.1 * a.d + j.2 < (b.arrays 2).length := by
    intro j hj
    rw [hlength]
    exact row_lt ((hmem j).mp hj).1 ((hmem j).mp hj).2
  have hdst : ∀ j ∈ List.range a.t ×ˢ List.range a.d, j.2 * a.t + j.1 < b.vt.length := by
    intro j hj
    rw [hb.vt, Nat.mul_comm a.t]
    exact row_lt ((hmem j).mp hj).2 ((hmem j).mp hj).1
  obtain ⟨r, hr, hsame, hcopied, -⟩ := copyLoop_eq_ok (ε := String) (b.arrays 2) b.vt hsrc hdst
    fun i hi j hj he => by
      obtain ⟨hrow, hcol⟩ := row_inj ((hmem i).mp hi).1 ((hmem j).mp hj).1 he
      exact Prod.ext hcol hrow
  rw [hr]
  refine ⟨hsame.trans hb.vt, fun c hc => rowAt_eq (by simp) fun k hk => ?_⟩
  have hlt : k * a.d + c < (b.arrays 2).length := by
    rw [hlength]
    exact row_lt hk hc
  have hcell := hcopied (k, c) ((hmem (k, c)).mpr ⟨hk, hc⟩)
  dsimp only at hcell
  rw [hcell, List.getElem?_map, List.getElem?_range hk, Option.map_some, ← hvalues,
    List.getD_eq_getElem?_getD, List.getElem?_eq_getElem hlt]
  rfl

/-- The scores of a row, once its dot products are known. -/
theorem scoreRow_eq {pos : ℕ} (hpos : pos < a.t) (hb : a.Sized n b) (hq : a.Loaded f head 3 b)
    (hscores : b.scores = (List.range a.t).map fun k =>
      dot (quantizedPart (a.row f 0 head pos)).2 (quantizedPart (a.row f 1 head k)).2) :
    a.scoreRow f b pos = .ok ((List.range a.t).map (a.score f head pos),
      ((List.range a.t).map (a.score f head pos)).foldl f.max negInfinity) := by
  have hqueries := hq 0 (by omega)
  have hkeys := hq 1 (by omega)
  rw [Quantized, if_pos (by omega)] at hqueries hkeys
  refine Ends.eq_ok (Ends.imp (Ends.range (I := fun k s => (s.1.length = a.t ∧
    ∀ j < k, s.1[j]? = some (a.score f head pos j)) ∧
      s.2 = ((List.range k).map (a.score f head pos)).foldl f.max negInfinity)
    ⟨⟨hb.probs, fun j hj => absurd hj (Nat.not_lt_zero j)⟩, rfl⟩ fun k s hk hs => ?_)
    fun s hs => Prod.ext (List.ext_getElem? fun j => ?_) hs.2)
  · have hscore : a.scoreAt f b pos k = .ok (a.score f head pos k) := by
      unfold scoreAt score
      dsimp only
      split
      · rfl
      · rw [hscores, List.getElem?_map, List.getElem?_range hk,
          hqueries.are.scale pos hpos trivial, hkeys.are.scale k hk trivial]
        rfl
    rw [hscore, ok_bind, store_eq_ok (by rw [hs.1.1]; exact hk), ok_bind]
    refine ⟨⟨by rw [List.length_set]; exact hs.1.1, fun j hj => ?_⟩, ?_⟩
    · by_cases he : j = k
      · rw [he, List.getElem?_set_self (by rw [hs.1.1]; exact hk)]
      · rw [List.getElem?_set_ne (Ne.symm he), hs.1.2 j (by omega)]
    · rw [List.range_succ, List.map_append, List.foldl_append, ← hs.2]
      rfl
  · by_cases hj : j < a.t
    · rw [hs.1.2 j hj, List.getElem?_map, List.getElem?_range hj]
      rfl
    · rw [List.getElem?_eq_none (by rw [hs.1.1]; omega), List.getElem?_eq_none (by simp; omega)]

theorem length_weights (head pos : ℕ) : (a.weights f head pos).length = a.t := by
  simp [weights, softmax]

/-- What a head leaves for a row, by the number of the row and the head. -/
def outputRow (f : Singles F) (a : Heads F) (ids : List ℕ) (k : ℕ) : List UInt32 :=
  a.attended f (k % a.heads) (ids.getD (k / a.heads) 0)

theorem length_outputRow (k : ℕ) : (a.outputRow f ids k).length = a.d := by
  simp [outputRow, attended]

/-- A head whose kinds are loaded, with some rows of its outputs written. -/
structure Attending (f : Singles F) (a : Heads F) (ids : List ℕ) (head : ℕ) (P : ℕ → Prop)
    (b : HeadBuffers) : Prop where
  sized : a.Sized ids.length b
  loaded : a.Loaded f head 3 b
  transposed : a.Transposed f head b.vt
  outputs : RowsDone (ids.length * a.heads) a.d (a.outputRow f ids) P b.outputs
  finite : ∀ r pos, ids[r]? = some pos → P (r * a.heads + head) →
    ∀ v ∈ a.weights f head pos, singleFinite v

theorem Sound.attendRow_ends (h : a.Sound) (hhead : head < a.heads) {P Q : ℕ → Prop} {pos r : ℕ}
    (hid : ids[r]? = some pos) (hpos : pos < a.t) (hb : a.Attending f ids head P b)
    (hQ : ∀ i < ids.length * a.heads, Q i → P i ∨ i = r * a.heads + head) :
    Ends (a.Attending f ids head Q) (Failed f a ids head) (a.attendRow f head b (pos, r)) := by
  have hr : r < ids.length := (List.getElem?_eq_some_iff.mp hid).1
  have hget : ids.getD r 0 = pos := by
    rw [List.getD_eq_getElem?_getD, hid]
    rfl
  have hqueries := hb.loaded 0 (by omega)
  have hkeys := hb.loaded 1 (by omega)
  have hvalues := hb.loaded 2 (by omega)
  rw [Quantized, if_pos (by omega)] at hqueries hkeys
  rw [Quantized, if_neg (by omega)] at hvalues
  obtain ⟨q, hqdef⟩ : ∃ q, q = (quantizedPart (a.row f 0 head pos)).2 := ⟨_, rfl⟩
  have hq : q.length = a.d := by
    rw [hqdef]
    exact (length_quantizedPart _).trans (length_row 0 head pos)
  rw [attendRow]
  dsimp only
  rw [slice_row hpos (hb.sized.arrays 0) rfl (Nat.succ_mul pos a.d), ok_bind,
    hqueries.are.bytes.get pos hpos trivial, ← hqdef]
  -- the products with the keys, and their scores
  have hdots : (integerDots q (b.arrays 1) b.scores : Code String _) =
      .ok ((List.range a.t).map fun k => dot q (quantizedPart (a.row f 1 head k)).2) := by
    rw [integerDots_eq_ok (List.ne_nil_of_length_pos (by rw [hq]; exact h.width.1))
      (by rw [hq]; exact h.width.2)
      (by rw [hb.sized.arrays 1, hq, hb.sized.scores, Nat.mul_comm]), hb.sized.scores, hq]
    refine congrArg Except.ok (List.map_congr_left fun k hk => ?_)
    rw [hkeys.are.bytes.get k (List.mem_range.mp hk) trivial]
  rw [hdots, ok_bind]
  have hsized : a.Sized ids.length { b with
      scores := (List.range a.t).map fun k => dot q (quantizedPart (a.row f 1 head k)).2 } :=
    ⟨hb.sized.scratch, hb.sized.arrays, hb.sized.scales, hb.sized.vt, hb.sized.probs, hb.sized.qp,
      by simp, hb.sized.av, hb.sized.outputs⟩
  have hscores := scoreRow_eq (f := f) hpos hsized hb.loaded (by dsimp only; rw [hqdef])
  rw [hscores, ok_bind]
  show Ends _ _ (assertThat ((a.weights f head pos).length = b.qp.length) >>= _)
  rw [assertThat_bind ((length_weights head pos).trans hb.sized.qp.symm)]
  show Ends _ _ (call (quantizeRow (a.weights f head pos)) >>= _)
  refine Ends.bind (Ends.mono (quantizeRow_ends _) (fun p hp => hp) fun e he => ?_) fun p hp => ?_
  · obtain ⟨rfl, v, hv, hbad⟩ := he
    exact ⟨rfl, fun hfinite => hbad (hfinite.2.2 pos (List.mem_of_getElem? hid) v hv)⟩
  obtain ⟨hfinite, rfl⟩ := hp
  have hwidth : (quantizedPart (a.weights f head pos)).2.length = a.t :=
    (length_quantizedPart _).trans (length_weights head pos)
  -- the values, added up by their weights
  have hsums : (integerDots (quantizedPart (a.weights f head pos)).2 b.vt b.av : Code String _) =
      .ok ((List.range a.d).map fun c => dot (quantizedPart (a.weights f head pos)).2
        ((List.range a.t).map fun k =>
          (quantizedPart (a.valueRow f head)).2.getD (k * a.d + c) 0)) := by
    rw [integerDots_eq_ok (List.ne_nil_of_length_pos (by rw [hwidth]; exact h.rows.1))
      (by rw [hwidth]; exact h.rows.2) (by rw [hb.transposed.1, hwidth, hb.sized.av]), hb.sized.av,
      hwidth]
    refine congrArg Except.ok (List.map_congr_left fun c hc => ?_)
    rw [hb.transposed.2 c (List.mem_range.mp hc)]
  have hscale : (b.scales 2)[0]? = some (quantizedPart (a.valueRow f head)).1 := by
    rw [hvalues.2.2]
    exact List.getElem?_replicate_of_lt h.rows.1
  have hplace : r * a.heads + head < ids.length * a.heads := row_lt hr hhead
  have hfirst : r * a.h + head * a.d = (r * a.heads + head) * a.d := by
    rw [h.h_eq]
    ring
  have hlast : r * a.h + (head + 1) * a.d = (r * a.heads + head) * a.d + a.d := by
    rw [h.h_eq]
    ring
  have hrow : a.outputRow f ids (r * a.heads + head) = a.attended f head pos := by
    obtain ⟨hdiv, hmod⟩ := div_mod_part (r := r) hhead
    rw [outputRow, hdiv, hmod, hget]
  have htarget : (rowAt a.d b.outputs (r * a.heads + head)).length = a.d :=
    length_rowAt hplace hb.outputs.length_eq
  obtain ⟨outputs, hwrite, hdone⟩ := hb.outputs.write (ε := String) (Q := Q) hplace hrow.symm
    (length_outputRow _) rfl rfl hQ
  dsimp only
  rw [hscale]
  show Ends _ _ (integerDots _ _ _ >>= _)
  rw [hsums, ok_bind, hfirst, hlast, slice_row hplace hb.outputs.length_eq rfl rfl, ok_bind, scaleI32,
    assertThat_bind (by rw [htarget, List.length_map, List.length_range])]
  show Ends _ _ (writeSlice b.outputs _ _ _ >>= _)
  rw [List.map_map]
  show Ends _ _ (writeSlice b.outputs _ _ (a.attended f head pos) >>= _)
  rw [hwrite, ok_bind]
  refine ⟨⟨hb.sized.scratch, hb.sized.arrays, hb.sized.scales, hb.sized.vt, length_weights head pos,
    hwidth, by simp, by simp, hdone.length_eq⟩, hb.loaded, hb.transposed, hdone, ?_⟩
  intro i p hi hq
  have hin : i < ids.length := (List.getElem?_eq_some_iff.mp hi).1
  rcases hQ _ (row_lt hin hhead) hq with hp | he
  · exact hb.finite i p hi hp
  · obtain ⟨rfl, -⟩ := row_inj hhead hhead he
    rw [hid] at hi
    cases hi
    exact hfinite

/-- One head: its outputs are written for every row, and its numbers were finite. -/
theorem Sound.headStep_ends (h : a.Sound) (hhead : head < a.heads) (hids : ∀ pos ∈ ids, pos < a.t)
    (hb : a.Sized ids.length b) (hdone : RowsDone (ids.length * a.heads) a.d (a.outputRow f ids)
      (fun k => k % a.heads < head) b.outputs) :
    Ends (fun b' => (a.Sized ids.length b' ∧ RowsDone (ids.length * a.heads) a.d
        (a.outputRow f ids) (fun k => k % a.heads < head + 1) b'.outputs) ∧ a.Finite f ids head)
      (Failed f a ids head) (a.headStep f ids b head) := by
  rw [headStep]
  refine Ends.bind (Ends.range (I := fun kind b' => a.Sized ids.length b' ∧ b'.outputs = b.outputs ∧
    a.Loaded f head kind b') ⟨hb, rfl, fun j hj => absurd hj (Nat.not_lt_zero j)⟩
    fun kind b' hkind hb' => ?_) fun b' hb' => ?_
  · refine (h.loadKind_ends hhead hkind hb'.1 hb'.2.2).imp fun c hc => ?_
    exact ⟨hc.1, hc.2.1.trans hb'.2.1, hc.2.2⟩
  obtain ⟨hsized, houtputs, hloaded⟩ := hb'
  refine Ends.bind ((transpose_ends hsized hloaded).mono (fun _ hvt => hvt) fun _ he => he.elim)
    fun vt hvt => ?_
  rw [← houtputs] at hdone
  refine Ends.imp (Ends.zipIdx (I := fun r => a.Attending f ids head
    fun k => k % a.heads < head ∨ k % a.heads = head ∧ k / a.heads < r) ?_
    fun r pos c hid hc => ?_) fun c hc => ?_
  · refine ⟨⟨hsized.scratch, hsized.arrays, hsized.scales, hvt.1, hsized.probs, hsized.qp,
      hsized.scores, hsized.av, hsized.outputs⟩, hloaded, hvt,
      hdone.mono fun k _ hk => hk.resolve_right fun hr => Nat.not_lt_zero _ hr.2,
      fun r pos _ hp => ?_⟩
    have hmod := (div_mod_part (r := r) hhead).2
    rcases hp with hp | hp
    · omega
    · exact absurd hp.2 (Nat.not_lt_zero _)
  · refine h.attendRow_ends hhead hid (hids pos (List.mem_of_getElem? hid)) hc fun k _ hk => ?_
    by_cases he : k % a.heads = head ∧ k / a.heads = r
    · right
      rw [← Nat.div_add_mod' k a.heads, he.1, he.2]
    · left
      omega
  · refine ⟨⟨hc.sized, hc.outputs.mono fun k hk hlt => ?_⟩, ?_⟩
    · have hdiv : k / a.heads < ids.length :=
        (Nat.div_lt_iff_lt_mul (Nat.zero_lt_of_lt hhead)).mpr hk
      omega
    · have hqueries := hloaded 0 (by omega)
      have hkeys := hloaded 1 (by omega)
      have hvalues := hloaded 2 (by omega)
      rw [Quantized, if_pos (by omega)] at hqueries hkeys
      rw [Quantized, if_neg (by omega)] at hvalues
      refine ⟨fun kind hkind pos hpos => ?_, hvalues.1, fun pos hpos => ?_⟩
      · obtain rfl | rfl : kind = 0 ∨ kind = 1 := by omega
        · exact hqueries.finite pos hpos trivial
        · exact hkeys.finite pos hpos trivial
      · obtain ⟨r, hr⟩ := List.mem_iff_getElem?.mp hpos
        have hlt : r < ids.length := (List.getElem?_eq_some_iff.mp hr).1
        obtain ⟨hdiv, hmod⟩ := div_mod_part (r := r) hhead
        exact hc.finite r pos hr (.inr ⟨hmod, by rw [hdiv]; exact hlt⟩)

/-- The buffers that the heads share leave the table of the heads, or a number was not finite. -/
theorem Sound.merged_eq (h : a.Sound) (hids : ∀ pos ∈ ids, pos < a.t) :
    a.merged f ids = okOr (a.table f ids) nonfinite := by
  have hwidth : ∀ r < ids.length, (a.mergedRow f (ids.getD r 0)).length = a.h := by
    intro r _
    rw [h.h_eq]
    exact length_flatMap_rows fun head _ => by simp [attended]
  have hheads := Ends.range (f := a.headStep f ids) (n := a.heads)
    (E := fun e => e = nonfinite ∧ ¬∀ head < a.heads, a.Finite f ids head)
    (I := fun head b => (a.Sized ids.length b ∧ RowsDone (ids.length * a.heads) a.d
      (a.outputRow f ids) (fun k => k % a.heads < head) b.outputs) ∧
        ∀ j < head, a.Finite f ids j)
    (s := {
      scratch := List.replicate (a.t * a.d) 0
      arrays := fun _ => List.replicate (a.t * a.d) 0
      scales := fun _ => List.replicate a.t 0x3f800000
      vt := List.replicate (a.t * a.d) 0
      probs := List.replicate a.t 0
      qp := List.replicate a.t 0
      scores := List.replicate a.t 0
      av := List.replicate a.d 0
      outputs := List.replicate (ids.length * a.h) 0 }) ?_ fun head b hhead hb => ?_
  · refine Ends.eq_okOr ?_
    rw [merged]
    refine Ends.bind (hheads.mono (fun b hb => hb) fun e he => ⟨he.1, if_neg he.2⟩) fun b hb => ?_
    obtain ⟨⟨-, hdone⟩, hfinite⟩ := hb
    rw [QTensor.fillRows_eq (fun r hr => ?_) hwidth,
      table, if_pos hfinite]
    · cases hq : QTensor.quantizeParts ids.length 1 a.h fun r => a.mergedRow f (ids.getD r 0) with
      | none => exact ⟨rfl, rfl⟩
      | some x => exact rfl
    · have hlength : b.outputs.length = ids.length * (a.heads * a.d) := by
        rw [hdone.length_eq, Nat.mul_assoc]
      rw [h.h_eq, slice_row hr hlength rfl (Nat.succ_mul r _)]
      refine congrArg Except.ok ?_
      refine RowBuffers.eq_flatMap (length_rowAt hr hlength) fun head hhead => ?_
      obtain ⟨hdiv, hmod⟩ := div_mod_part (r := r) hhead
      rw [rowAt_rowAt hhead, hdone.get _ (row_lt hr hhead) (by rw [hmod]; exact hhead), outputRow,
        hdiv, hmod]
  · refine ⟨⟨⟨?_, fun _ => ?_, fun _ => ?_, ?_, ?_, ?_, ?_, ?_, ?_⟩, RowsDone.none ?_ fun k _ =>
      Nat.not_lt_zero _⟩, fun j hj => absurd hj (Nat.not_lt_zero j)⟩
    all_goals simp only [List.length_replicate]
    all_goals rw [h.h_eq, Nat.mul_assoc]
  · refine (h.headStep_ends hhead hids hb.1.1 hb.1.2).mono (fun c hc => ⟨hc.1, fun j hj => ?_⟩)
      fun e he => ⟨he.1, fun hall => he.2 (hall head hhead)⟩
    by_cases he : j = head
    · rw [he]
      exact hc.2
    · exact hb.2 j (by omega)

end Heads

end IcLaya
