import IcLaya.ManifestLoading
import IcLaya.QuantizedContinuation
import IcLaya.QuantizedLayers

/-!
# The engine on signed bytes (`laya-candle/src/quantized.rs`)

A model's layers on signed bytes, phase after phase, with every check, index and assertion of the
code. On weights that fit a validated configuration the phases leave tables, so the engine is one
of those that the sessions and their continuations take as a parameter.
-/
namespace IcLaya
open Fallible PanickingCode LoopOutcomes RowBuffers StoreLoops StagedRuns SingleArithmetic

/-- What `from_weights` puts into a model. -/
structure Int8Parts (F : Type) where
  embedding : Int8Matrix
  embeddingNorm : Norm F
  layers : List (EncoderLayer F)
  finalNorm : Norm F
  qtype : Int8Matrix
  decision : List (DecisionLayer F)
  scorerNorm : Norm F
  scorerDense : Linear
  scorerOut : Linear

/-- `map_err(model_error)` on code that can panic. -/
def modelCode {α : Type} (x : Code String α) : Code Error α :=
  x.mapError fun e => match e with
    | .panic => .panic
    | .raise e => .raise (.modelUnavailable e)

namespace Int8Parts
variable {F Digest : Type} [Doubles F]

open Weights in
/-- The layers of `from_weights`. -/
def load (c : ModelConfig F) (w : Weights) : Result (Int8Parts F) := do
  let layers ← (List.range c.layers).mapM (encoderLayer c w)
  let decision ← (List.range c.decisionLayers).mapM (decisionLayer c w)
  let embedding ← matrix w "embeddings.weight"
  let embeddingNorm ← norm w "embeddings.norm" false c.normEps
  let finalNorm ← norm w "final_norm" false c.normEps
  let qtype ← matrix w "qtype.weight"
  let scorerNorm ← norm w "scorer.norm" true c.scorerNormEps
  let scorerDense ← linear w "scorer.dense" true
  let scorerOut ← linear w "scorer.out" true
  pure ⟨embedding, embeddingNorm, layers, finalNorm, qtype, decision, scorerNorm, scorerDense,
    scorerOut⟩

variable (f : Singles F) (p : Int8Parts F)

/-- The phases of these layers, for the computations of a number format. -/
def phases {T : Type} (k : Kernels F T) : Phases T :=
  k.phases p.embedding p.embeddingNorm p.layers p.finalNorm p.qtype p.decision p.scorerNorm
    p.scorerDense p.scorerOut

def embed (ids : List UInt32) : Code String QTensor := do
  let x ← p.embedding.gatherQ8 ids
  p.embeddingNorm.q8 f x

/-- The phase after the encoder. -/
def final (qtypeId : UInt32) (x : QTensor) : Code String QTensor := do
  let x ← p.finalNorm.q8 f x
  let q ← p.qtype.gatherQ8 [qtypeId]
  x.add f q

def score (x : QTensor) : Code String QTensor := do
  let x ← p.scorerNorm.q8 f x
  let x ← p.scorerDense.q8 f x
  let x ← x.map f f.gelu
  p.scorerOut.q8 f x

/-- The phase number `n` of `step_quantized`. -/
def phase (input : TokenInput) (n : ℕ) (x : QTensor) : Code String QTensor :=
  match p.layers[n]? with
  | some layer => layer.q8 f x
  | none =>
    if n = p.layers.length then p.final f input.qtypeId x
    else
      let i := n - p.layers.length - 1
      match p.decision[i]? with
      | some layer => layer.q8 f x (if i + 1 = p.decision.length then some input.markers else none)
      | none => p.score f x

/-- The values that the scorer leaves. -/
def read (x : QTensor) : Code String (List UInt32) := (List.range x.rows).mapM fun r => x.value f r 0

variable (m : LayaModel F Digest)

/-- `begin_quantized` -/
def begin (input : TokenInput) : Code Error (QuantizedSession Digest) := do
  call (m.validateInput input)
  let hidden ← modelCode (p.embed f input.inputIds)
  pure ⟨m.bundle, input, hidden, 0⟩

/-- The logits after the phase number `n`, if it is the last one. -/
def lastLogits (n : ℕ) (x : QTensor) : Code Error (Option (List UInt32)) :=
  if n = m.inferenceSteps - 1 then do
    let values ← modelCode (read f x)
    reject (¬values.all singleFinite) .numeric
    pure (some values)
  else pure none

/-- `step_quantized` -/
def step [DecidableEq Digest] (s : QuantizedSession Digest) :
    Code Error (QuantizedSession Digest × Option (List UInt32)) := do
  reject (s.bundle ≠ m.bundle) .bindingMismatch
  reject (m.inferenceSteps ≤ s.next) .transition
  let hidden ← modelCode (p.phase f s.input s.next s.hidden)
  let logits ← lastLogits f m s.next hidden
  pure ({ s with hidden := hidden, next := s.next + 1 }, logits)

end Int8Parts

section Fitting
variable {F : Type} [Doubles F] {c : ModelConfig F} {w : Weights} {p : Int8Parts F}

/-- What a validated configuration says of the sizes of a model. -/
structure ModelConfig.Sizes (c : ModelConfig F) : Prop where
  hidden : 0 < c.hiddenSize ∧ c.hiddenSize ≤ 2048
  heads : 0 < c.attentionHeads ∧ c.hiddenSize % c.attentionHeads = 0
  even : c.hiddenSize / c.attentionHeads % 2 = 0
  decisionHeads : 0 < c.decisionHeads ∧ c.hiddenSize % c.decisionHeads = 0
  decisionLayers : 0 < c.decisionLayers
  qtypes : c.qtypes = 3

theorem ModelConfig.sizes (h : c.validate = .ok ()) : c.Sizes := by
  simp only [validate, bind_eq_ok, rejectIf_eq_ok] at h
  obtain ⟨_, h, _⟩ := h
  simp only [not_or, not_not] at h
  exact ⟨by omega, by omega, by omega, by omega, by omega, by omega⟩

/-- Layers of the sizes of a configuration. -/
structure Int8Parts.Fits (p : Int8Parts F) (c : ModelConfig F) : Prop where
  embedding : p.embedding.Valid ∧ p.embedding.rows = c.vocabSize ∧ p.embedding.cols = c.hiddenSize
  embeddingNorm : p.embeddingNorm.Fits c.hiddenSize
  layers : ∀ l ∈ p.layers, l.Fits c.hiddenSize c.intermediateSize
  layers_length : p.layers.length = c.layers
  finalNorm : p.finalNorm.Fits c.hiddenSize
  qtype : p.qtype.Valid ∧ p.qtype.rows = c.qtypes ∧ p.qtype.cols = c.hiddenSize
  decision : ∀ l ∈ p.decision, l.Fits c.hiddenSize c.decisionFf
  decision_length : p.decision.length = c.decisionLayers
  scorerNorm : p.scorerNorm.Fits c.hiddenSize
  scorerDense : p.scorerDense.Fits c.hiddenSize c.hiddenSize
  scorerOut : p.scorerOut.Fits 1 c.hiddenSize

/-- Every matrix has whole rows, each with a scale. -/
def Weights.Whole (w : Weights) : Prop :=
  ∀ (name : String) (x : Int8Matrix), w[name]? = some (.int8 x) → x.Valid

/-- A matrix that is read from bytes has whole rows, each with a scale. -/
theorem Int8Matrix.valid_of_fromBytes {t : Target} {bytes : List UInt8} {rows cols : ℕ}
    {x : Int8Matrix} (h : Int8Matrix.fromBytes t bytes rows cols = .ok x) : x.Valid := by
  simp only [fromBytes, bind_eq_ok, rejectIf_eq_ok, okOr_eq_ok, checkedMul_eq_some, not_or, not_lt,
    not_not, pure_eq_ok, Option.bind_eq_some_iff, checkedAdd_eq_some] at h
  obtain ⟨_, ⟨-, -, hcols⟩, count, ⟨-, rfl⟩, length, ⟨_, ⟨-, rfl⟩, -, rfl⟩, _, hlength, _, -, rfl⟩ := h
  refine ⟨hcols, ?_, ?_⟩
  · rw [List.length_map, List.length_take]
    dsimp only
    omega
  · rw [List.length_map, WordStreams.chunksExact, List.length_map, List.length_range,
      List.length_drop]
    dsimp only
    omega


/-! What the loader reads out of weights that fit the table has the sizes of the table. -/
namespace Weights
variable {p name : String} {bias : Bool}

omit [Doubles F] in
theorem dims_of_tensor (h : FitsTable c w) {n : ℕ} (hmem : (name, [n]) ∈ tensorTable c) {t : Tensor}
    (ht : tensor w name = .ok t) : t.dims = [n] := by
  obtain ⟨x, hx, hfits⟩ := h _ hmem
  rw [tensor, weight, hx] at ht
  cases x with
  | f32 x =>
    cases ht
    exact of_decide_eq_true ((Bool.and_eq_true _ _).mp hfits).1
  | int8 x => cases ht

omit [Doubles F] in
theorem sizes_of_matrix (h : FitsTable c w) (hb : w.Whole) {rows cols : ℕ}
    (hmem : (name, [rows, cols]) ∈ tensorTable c) {x : Int8Matrix} (hx : matrix w name = .ok x) :
    x.Valid ∧ x.rows = rows ∧ x.cols = cols := by
  obtain ⟨y, hy, hfits⟩ := h _ hmem
  rw [matrix, weight, hy] at hx
  cases y with
  | f32 y => cases hx
  | int8 y =>
    cases hx
    simp [Weight.fits, Weight.dims] at hfits
    exact ⟨hb name x hy, hfits⟩

omit [Doubles F] in
theorem fits_of_bias (h : FitsTable c w) {n : ℕ}
    (hmem : bias = true → (p ++ ".bias", [n]) ∈ tensorTable c) {b : Option Tensor}
    (hb : biasOf w p bias = .ok b) : FitsBias b n := by
  intro t ht
  subst ht
  cases bias with
  | false => cases hb
  | true =>
    rw [biasOf, if_pos rfl] at hb
    cases hx : tensor w (p ++ ".bias") with
    | error e =>
      rw [hx] at hb
      cases hb
    | ok x =>
      rw [hx] at hb
      cases hb
      exact dims_of_tensor h (hmem rfl) hx

omit [Doubles F] in
theorem fits_of_linear (h : FitsTable c w) (hb : w.Whole) {rows cols : ℕ}
    (hmem : (p ++ ".weight", [rows, cols]) ∈ tensorTable c)
    (hbias : bias = true → (p ++ ".bias", [rows]) ∈ tensorTable c) {l : Linear}
    (hl : linear w p bias = .ok l) : l.Fits rows cols := by
  simp only [linear, bind_eq_ok, pure_eq_ok] at hl
  obtain ⟨x, hx, b, hbias', rfl⟩ := hl
  obtain ⟨hvalid, hrows, hcols⟩ := sizes_of_matrix h hb hmem hx
  exact ⟨hvalid, hrows, hcols, fits_of_bias h hbias hbias'⟩

omit [Doubles F] in
theorem fits_of_norm (h : FitsTable c w) {n : ℕ} (hmem : (p ++ ".weight", [n]) ∈ tensorTable c)
    (hbias : bias = true → (p ++ ".bias", [n]) ∈ tensorTable c) {eps : F} {l : Norm F}
    (hl : norm w p bias eps = .ok l) : l.Fits n := by
  simp only [norm, bind_eq_ok, pure_eq_ok] at hl
  obtain ⟨t, ht, b, hb, rfl⟩ := hl
  exact ⟨dims_of_tensor h hmem ht, fits_of_bias h hbias hb⟩

end Weights

open Weights in
theorem fits_of_encoderLayer (h : FitsTable c w) (hb : w.Whole) (hv : c.validate = .ok ())
    {i : ℕ} (hi : i < c.layers) {l : EncoderLayer F} (hl : encoderLayer c w i = .ok l) :
    l.Fits c.hiddenSize c.intermediateSize := by
  have hsizes := ModelConfig.sizes hv
  have hno : ∀ p n, false = true → (p ++ ".bias", [n]) ∈ tensorTable c := fun _ _ hb => by cases hb
  have hmem : ∀ part weight shape, (weight, shape) ∈
      [("qkv.weight", [3 * c.hiddenSize, c.hiddenSize]),
        ("out.weight", [c.hiddenSize, c.hiddenSize]), ("mlp_norm.weight", [c.hiddenSize]),
        ("wi.weight", [2 * c.intermediateSize, c.hiddenSize]),
        ("wo.weight", [c.hiddenSize, c.intermediateSize])] → "." ++ weight = part ++ ".weight" →
      ("encoder." ++ toString i ++ part ++ ".weight", shape) ∈ tensorTable c :=
    fun part weight shape hx hw => mem_encoder hi part ".weight" weight
      (List.mem_append_right _ (List.mem_map.mpr ⟨_, hx, rfl⟩)) hw
  -- the rest of the layer, whichever norm comes first
  have hrest : ∀ attentionNorm : Option (Norm F),
      (∀ norm, attentionNorm = some norm → norm.Fits c.hiddenSize) →
      (do
        let qkv ← linear w ("encoder." ++ toString i ++ ".qkv") false
        let out ← linear w ("encoder." ++ toString i ++ ".out") false
        let mlpNorm ← Weights.norm w ("encoder." ++ toString i ++ ".mlp_norm") false c.normEps
        let wi ← linear w ("encoder." ++ toString i ++ ".wi") false
        let wo ← linear w ("encoder." ++ toString i ++ ".wo") false
        pure (⟨attentionNorm, ⟨qkv, out, c.attentionHeads⟩, mlpNorm, wi, wo,
          if i % c.globalEvery ≠ 0 then c.localRopeTheta else c.globalRopeTheta,
          if i % c.globalEvery ≠ 0 then some (c.localAttention / 2) else none⟩ : EncoderLayer F)) =
        .ok l → l.Fits c.hiddenSize c.intermediateSize := by
    intro attentionNorm hnorm hl
    simp only [bind_eq_ok, pure_eq_ok] at hl
    obtain ⟨qkv, hqkv, out, hout, mlpNorm, hmlp, wi, hwi, wo, hwo, rfl⟩ := hl
    exact {
      attentionNorm := hnorm
      attention := ⟨fits_of_linear h hb (hmem ".qkv" "qkv.weight" _ (by simp) rfl) (hno _ _) hqkv,
        fits_of_linear h hb (hmem ".out" "out.weight" _ (by simp) rfl) (hno _ _) hout, hsizes.heads⟩
      even := hsizes.even
      mlpNorm := fits_of_norm h (hmem ".mlp_norm" "mlp_norm.weight" _ (by simp) rfl) (hno _ _) hmlp
      wi := fits_of_linear h hb (hmem ".wi" "wi.weight" _ (by simp) rfl) (hno _ _) hwi
      wo := fits_of_linear h hb (hmem ".wo" "wo.weight" _ (by simp) rfl) (hno _ _) hwo }
  rw [encoderLayer] at hl
  dsimp only at hl
  split at hl
  · next hfirst =>
    have hentry : (layerName "encoder." i "attn_norm.weight", [c.hiddenSize]) ∈
        encoderEntries c i := by
      refine List.mem_append_left _ ?_
      rw [if_pos hfirst]
      exact List.mem_singleton_self _
    obtain ⟨attentionNorm, hnorm, hl⟩ := bind_eq_ok.mp hl
    refine hrest attentionNorm (fun x hx => ?_) hl
    subst hx
    cases hx : Weights.norm w ("encoder." ++ toString i ++ ".attn_norm") false c.normEps with
    | error e =>
      rw [hx] at hnorm
      cases hnorm
    | ok y =>
      rw [hx] at hnorm
      cases hnorm
      exact fits_of_norm h (mem_encoder hi ".attn_norm" ".weight" "attn_norm.weight" hentry rfl)
        (hno _ _) hx
  · exact hrest none (fun _ hx => by cases hx) hl

open Weights in
theorem fits_of_decisionLayer (h : FitsTable c w) (hb : w.Whole) (hv : c.validate = .ok ())
    {i : ℕ} (hi : i < c.decisionLayers) {l : DecisionLayer F} (hl : decisionLayer c w i = .ok l) :
    l.Fits c.hiddenSize c.decisionFf := by
  have hsizes := ModelConfig.sizes hv
  have hmem : ∀ part suffix weight shape,
      (layerName "decision." i weight, shape) ∈ decisionEntries c i →
      "." ++ weight = part ++ suffix →
      ("decision." ++ toString i ++ part ++ suffix, shape) ∈ tensorTable c :=
    fun part suffix weight shape hx hw => mem_decision hi part suffix weight hx hw
  simp only [decisionLayer, bind_eq_ok, pure_eq_ok] at hl
  obtain ⟨norm1, hnorm1, norm2, hnorm2, qkv, hqkv, out, hout, linear1, hlinear1, linear2, hlinear2,
    rfl⟩ := hl
  -- every part of a decision layer has a bias
  refine ⟨fits_of_norm h (hmem ".norm1" ".weight" "norm1.weight" _ ?_ rfl)
      (fun _ => hmem ".norm1" ".bias" "norm1.bias" _ ?_ rfl) hnorm1,
    fits_of_norm h (hmem ".norm2" ".weight" "norm2.weight" _ ?_ rfl)
      (fun _ => hmem ".norm2" ".bias" "norm2.bias" _ ?_ rfl) hnorm2,
    ⟨fits_of_linear h hb (hmem ".qkv" ".weight" "qkv.weight" _ ?_ rfl)
        (fun _ => hmem ".qkv" ".bias" "qkv.bias" _ ?_ rfl) hqkv,
      fits_of_linear h hb (hmem ".out" ".weight" "out.weight" _ ?_ rfl)
        (fun _ => hmem ".out" ".bias" "out.bias" _ ?_ rfl) hout, hsizes.decisionHeads⟩,
    fits_of_linear h hb (hmem ".linear1" ".weight" "linear1.weight" _ ?_ rfl)
      (fun _ => hmem ".linear1" ".bias" "linear1.bias" _ ?_ rfl) hlinear1,
    fits_of_linear h hb (hmem ".linear2" ".weight" "linear2.weight" _ ?_ rfl)
      (fun _ => hmem ".linear2" ".bias" "linear2.bias" _ ?_ rfl) hlinear2⟩
  all_goals simp [decisionEntries]

omit [Doubles F] in
/-- What a loop collects, its rounds returned. -/
theorem mem_of_mapM {α β ε : Type} {f : α → Except ε β} {xs : List α} {ys : List β}
    (h : xs.mapM f = .ok ys) : ∀ y ∈ ys, ∃ x ∈ xs, f x = .ok y := by
  induction xs generalizing ys with
  | nil =>
    cases h
    exact fun y hy => by cases hy
  | cons x xs ih =>
    simp only [List.mapM_cons, bind_eq_ok, pure_eq_ok] at h
    obtain ⟨y, hy, ys', hys, rfl⟩ := h
    rintro z hz
    rcases List.mem_cons.mp hz with rfl | hz
    · exact ⟨x, List.mem_cons_self, hy⟩
    · obtain ⟨v, hv, hf⟩ := ih hys z hz
      exact ⟨v, List.mem_cons_of_mem x hv, hf⟩

open Weights in
/-- The layers that are loaded have the sizes of the configuration. -/
theorem Int8Parts.fits_of_load (h : FitsTable c w) (hb : w.Whole) (hv : c.validate = .ok ())
    (hp : load c w = .ok p) : p.Fits c := by
  have hno : ∀ p n, false = true → (p ++ ".bias", [n]) ∈ tensorTable c := fun _ _ hb => by cases hb
  have hscorer : ∀ x ∈ scorerEntries c, x ∈ tensorTable c := fun x hx => List.mem_append_right _ hx
  simp only [load, bind_eq_ok, pure_eq_ok] at hp
  obtain ⟨layers, hlayers, decision, hdecision, embedding, hembedding, embeddingNorm, hembeddingNorm,
    finalNorm, hfinalNorm, qtype, hqtype, scorerNorm, hscorerNorm, scorerDense, hscorerDense,
    scorerOut, hscorerOut, rfl⟩ := hp
  have hencoder : ∀ l ∈ layers, l.Fits c.hiddenSize c.intermediateSize := by
    intro l hl
    obtain ⟨i, hi, hx⟩ := mem_of_mapM hlayers l hl
    exact fits_of_encoderLayer h hb hv (List.mem_range.mp hi) hx
  have hhead : ∀ l ∈ decision, l.Fits c.hiddenSize c.decisionFf := by
    intro l hl
    obtain ⟨i, hi, hx⟩ := mem_of_mapM hdecision l hl
    exact fits_of_decisionLayer h hb hv (List.mem_range.mp hi) hx
  exact {
    embedding := sizes_of_matrix h hb (by simp [tensorTable, embeddingEntries]) hembedding
    embeddingNorm := fits_of_norm h (by simp [tensorTable, embeddingEntries]) (hno _ _)
      hembeddingNorm
    layers := hencoder
    layers_length := (length_of_mapM hlayers).trans List.length_range
    finalNorm := fits_of_norm h (by simp [tensorTable, embeddingEntries]) (hno _ _) hfinalNorm
    qtype := sizes_of_matrix h hb (by simp [tensorTable]) hqtype
    decision := hhead
    decision_length := (length_of_mapM hdecision).trans List.length_range
    scorerNorm := fits_of_norm h (hscorer _ (by simp [scorerEntries]))
      (fun _ => hscorer _ (by simp [scorerEntries])) hscorerNorm
    scorerDense := fits_of_linear h hb (hscorer _ (by simp [scorerEntries]))
      (fun _ => hscorer _ (by simp [scorerEntries])) hscorerDense
    scorerOut := fits_of_linear h hb (hscorer _ (by simp [scorerEntries]))
      (fun _ => hscorer _ (by simp [scorerEntries])) hscorerOut }

open Weights in
/-- What a model that was made of weights runs. -/
theorem parts_of_fromWeights {Digest : Type} {k : Kernels F Tensor} {q : Kernels F QTensor}
    {bundle : Digest} {kind : BackendKind} {m : LayaModel F Digest}
    (h : fromWeights k q c bundle kind w = .ok m) :
    FitsTable c w ∧ m.config = c ∧ ∃ p, Int8Parts.load c w = .ok p ∧ m.q8 = p.phases q := by
  simp only [fromWeights, bind_eq_ok] at h
  obtain ⟨expected, hexpected, _, -, _, hshapes, h⟩ := h
  have hperm := expected_perm c hexpected
  have hfits : FitsTable c w := by
    intro x hx
    have hcheck := forM_eq_ok.mp hshapes x (hperm.mem_iff.mpr hx)
    simp only [bind_eq_ok, okOr_eq_ok, rejectIf_eq_ok, not_not] at hcheck
    exact hcheck
  refine ⟨hfits, ?_⟩
  split at h
  · cases h
  · cases h
  · next layers decision hlayers hdecision =>
    simp only [bind_eq_ok] at h
    obtain ⟨embedding, hembedding, embeddingNorm, hembeddingNorm, finalNorm, hfinalNorm, qtype,
      hqtype, scorerNorm, hscorerNorm, scorerDense, hscorerDense, scorerOut, hscorerOut, h⟩ := h
    split at h
    · cases h
      refine ⟨rfl, ⟨embedding, embeddingNorm, layers, finalNorm, qtype, decision, scorerNorm,
        scorerDense, scorerOut⟩, ?_, rfl⟩
      rw [Int8Parts.load, hlayers, hdecision, hembedding, hembeddingNorm, hfinalNorm, hqtype,
        hscorerNorm, hscorerDense, hscorerOut]
      rfl
    · cases h

end Fitting

section Tables
variable {F : Type} (f : Singles F)

/-- A table, or the failure at a number that is not finite. -/
def tabled {α : Type} (spec : Option α) : CResult α := okOr spec "nonfinite int8 activation"

theorem call_tabled {α : Type} (spec : Option α) :
    (call (tabled spec) : Code String α) = okOr spec nonfinite := by
  cases spec <;> rfl

/-- The rows that a sequence of ids names. -/
def Int8Matrix.gatherTable (w : Int8Matrix) (ids : List UInt32) : QTensor :=
  QTensor.gathered w.cols (fun r => (w.scales.getD r 0, w.row r)) ids

/-- The rows whose hidden states go on: all of them, or the markers'. -/
def QTensor.chosen (x : QTensor) (markers : Option (List UInt32)) : QTensor :=
  markers.elim x fun m => gathered x.cols (x.part x.cols) m

/-- The layers on signed bytes, as tables of rows. -/
def q8Kernels : Kernels F QTensor where
  embed w norm ids := tabled (norm.table f (w.gatherTable ids))
  encoder l x := tabled (l.table f x)
  final norm q id x := tabled ((norm.table f x).bind fun x => x.addTable f (q.gatherTable [id]))
  decision l x markers :=
    tabled (l.table f x (x.chosen markers) (markerRows x.rows markers))
  score norm dense out x := tabled do
    let x ← norm.table f x
    let x ← dense.table f x 1
    let x ← x.mapTable f f.gelu
    out.table f x 1
  read x := .ok ((List.range x.rows).map fun r => QTensor.single f (x.part x.cols r) 0)

/-- The scales of a table are positive numbers. -/
def Positive (spec : Option QTensor) : Prop :=
  ∀ y, spec = some y → ∀ v ∈ y.scales, singleFinite v ∧ 0 < order v

variable {f}

theorem quantizeParts_positive {rows groups width : ℕ} {row : ℕ → List UInt32} :
    Positive (QTensor.quantizeParts rows groups width row) := by
  intro y hy v hv
  obtain ⟨hfinite, rfl⟩ := QTensor.quantizeParts_eq_some.mp hy
  obtain ⟨k, hk, rfl⟩ := List.mem_map.mp hv
  exact rowScale_positive (hfinite k (List.mem_range.mp hk))

theorem Positive.bind {spec : Option QTensor} {after : QTensor → Option QTensor}
    (h : ∀ x, Positive (after x)) : Positive (spec >>= after) := by
  intro y hy
  obtain ⟨x, -, hx⟩ := Option.bind_eq_some_iff.mp hy
  exact h x y hx

theorem Norm.table_positive (norm : Norm F) (x : QTensor) : Positive (norm.table f x) :=
  quantizeParts_positive

theorem QTensor.addTable_positive (x y : QTensor) : Positive (x.addTable f y) :=
  quantizeParts_positive

theorem EncoderLayer.table_positive (l : EncoderLayer F) (x : QTensor) : Positive (l.table f x) :=
  Positive.bind fun _ => Positive.bind fun _ => Positive.bind fun _ => Positive.bind fun _ =>
    Positive.bind fun _ => Positive.bind fun _ => Positive.bind fun _ => QTensor.addTable_positive _ _

theorem DecisionLayer.table_positive (l : DecisionLayer F) (x selected : QTensor) (ids : List ℕ) :
    Positive (l.table f x selected ids) := by
  rw [DecisionLayer.table]
  split
  · exact Positive.bind fun _ => Positive.bind fun _ => Positive.bind fun _ => Positive.bind fun _ =>
      Positive.bind fun _ => QTensor.addTable_positive _ _
  · exact Positive.bind fun _ => Positive.bind fun _ => Positive.bind fun _ => Positive.bind fun _ =>
      Positive.bind fun _ => Norm.table_positive _ _

end Tables

section Phases
variable {F : Type} {f : Singles F} {c : ModelConfig F} {p : Int8Parts F}
  {input : TokenInput} {x : QTensor} {n k : ℕ}

/-- Code that does what a phase of the model does, and leaves rows of one group. -/
structure RunsAs (rows width : ℕ) (code : Code String QTensor) (spec : CResult QTensor) : Prop where
  eq : code = call spec
  shaped : ∀ y, spec = .ok y → y.Shaped rows 1 width
  error : ∀ e, spec = .error e → e = "nonfinite int8 activation"

theorem Computes.runs {rows width : ℕ} {code : Code String QTensor} {spec : Option QTensor}
    (h : Computes rows 1 width code spec) : RunsAs rows width code (tabled spec) := by
  refine ⟨h.eq.trans (call_tabled spec).symm, fun y hy => ?_, fun e he => ?_⟩
  · exact h.shaped y (okOr_eq_ok.mp hy)
  · exact (okOr_eq_error.mp he).2.symm

theorem Int8Matrix.gatherTable_computes {w : Int8Matrix} {ids : List UInt32} (hw : w.Valid)
    (hids : ∀ id ∈ ids, id.toNat < w.rows) :
    Computes ids.length 1 w.cols (w.gatherQ8 ids) (some (w.gatherTable ids)) := by
  refine ⟨Int8Matrix.gatherQ8_eq hw hids, fun y hy => ?_⟩
  cases hy
  refine QTensor.ofParts_shaped fun k hk => ?_
  have hget := hids _ (List.getElem_mem (show k < ids.length by omega))
  rw [List.getD_eq_getElem?_getD, List.getElem?_eq_getElem (by omega), Option.getD_some]
  exact length_rowAt hget hw.values

theorem ModelConfig.Sizes.width (hc : c.Sizes) : c.hiddenSize ≤ 16384 := hc.hidden.2.trans (by omega)

namespace Int8Parts.Fits
variable (hp : p.Fits c) (hc : c.Sizes)
include hp hc

theorem embed_runs {ids : List UInt32} (hids : ∀ id ∈ ids, id.toNat < c.vocabSize) :
    RunsAs ids.length c.hiddenSize (p.embed f ids) ((p.phases (q8Kernels f)).embed ids) := by
  obtain ⟨hvalid, hrows, hcols⟩ := hp.embedding
  rw [← hrows] at hids
  have hgather := Int8Matrix.gatherTable_computes hvalid hids
  rw [hcols] at hgather
  exact (hgather.bind fun y hy => hp.embeddingNorm.q8_computes (f := f) hy hc.hidden.1
    hc.width).runs

theorem final_runs (hx : x.Shaped n 1 c.hiddenSize) {id : UInt32} (hid : id.toNat < 3) :
    RunsAs n c.hiddenSize (p.final f id x) ((p.phases (q8Kernels f)).final id x) := by
  obtain ⟨hvalid, hrows, hcols⟩ := hp.qtype
  have hids : ∀ i ∈ [id], i.toNat < p.qtype.rows := by
    rw [hrows, hc.qtypes]
    simpa using hid
  have hgather := Int8Matrix.gatherTable_computes hvalid hids
  rw [hcols] at hgather
  refine ((hp.finalNorm.q8_computes (f := f) hx hc.hidden.1 hc.width).bind fun y hy => ?_).runs
  exact hgather.bind fun q hq => hy.add_computes hq (.inr rfl)

theorem score_runs (hx : x.Shaped n 1 c.hiddenSize) :
    RunsAs n 1 (p.score f x) ((p.phases (q8Kernels f)).score x) :=
  ((hp.scorerNorm.q8_computes (f := f) hx hc.hidden.1 hc.width).bind fun _ hy =>
    (hp.scorerDense.q8_computes hy).bind fun _ hy => (hy.map_computes f.gelu).bind fun _ hy =>
      hp.scorerOut.q8_computes hy).runs

/-- Every phase before the scorer. -/
theorem phase_runs (hx : x.Shaped n 1 c.hiddenSize) (hn : 0 < n ∧ n ≤ 16384)
    (hm : ∀ id ∈ input.markers, id.toNat < n) (hq : input.qtypeId.toNat < 3)
    (hk : k + 1 < c.layers + c.decisionLayers + 2) :
    RunsAs (if k + 2 = c.layers + c.decisionLayers + 2 then input.markers.length else n) c.hiddenSize
      (p.phase f input k x) ((p.phases (q8Kernels f)).phase input k x) := by
  have hb : Bounded n c.hiddenSize := ⟨hn, hc.hidden.1, hc.width⟩
  have hlayers := hp.layers_length
  have hdecision := hp.decision_length
  have hpositive := hc.decisionLayers
  have hmapped : (p.phases (q8Kernels f)).layers = p.layers.map (q8Kernels f).encoder := rfl
  have hhead : (p.phases (q8Kernels f)).decision = p.decision.map (q8Kernels f).decision := rfl
  rw [Int8Parts.phase, Phases.phase, hmapped, List.getElem?_map, List.length_map]
  cases hl : p.layers[k]? with
  | some l =>
    have hlt := (List.getElem?_eq_some_iff.mp hl).1
    rw [if_neg (by omega)]
    exact ((hp.layers l (List.mem_of_getElem? hl)).q8_computes hb hx).runs
  | none =>
    have hge := List.getElem?_eq_none_iff.mp hl
    dsimp only [Option.map_none]
    by_cases hfinal : k = p.layers.length
    · rw [if_pos hfinal, if_pos hfinal, if_neg (by omega)]
      exact final_runs hp hc hx hq
    · rw [if_neg hfinal, if_neg hfinal, hhead, List.getElem?_map]
      cases hd : p.decision[k - p.layers.length - 1]? with
      | none =>
        have hle := List.getElem?_eq_none_iff.mp hd
        omega
      | some l =>
        have hfits := hp.decision l (List.mem_of_getElem? hd)
        have hmarkers : (p.phases (q8Kernels f)).markersFor input (k - p.layers.length - 1) =
            if k - p.layers.length - 1 + 1 = p.decision.length then some input.markers else none := by
          rw [Phases.markersFor, hhead, List.length_map]
        dsimp only [Option.map_some]
        rw [hmarkers]
        by_cases hlast : k - p.layers.length - 1 + 1 = p.decision.length
        · rw [if_pos hlast, if_pos (by omega)]
          have hcomputes := (hfits.q8_markers_computes (f := f) hb hx hm).runs
          show RunsAs _ _ _ (tabled (l.table f x (x.chosen (some input.markers))
            (markerRows x.rows (some input.markers))))
          rw [QTensor.chosen, hx.cols_one]
          exact hcomputes
        · rw [if_neg hlast, if_neg (by omega)]
          have hcomputes := (hfits.q8_computes (f := f) hb hx).runs
          show RunsAs _ _ _ (tabled (l.table f x (x.chosen none) (markerRows x.rows none)))
          rw [hx.rows_eq]
          exact hcomputes

/-- The scorer. -/
theorem last_runs (hx : x.Shaped n 1 c.hiddenSize) (hk : k + 1 = c.layers + c.decisionLayers + 2) :
    RunsAs n 1 (p.phase f input k x) ((p.phases (q8Kernels f)).phase input k x) := by
  have hlayers := hp.layers_length
  have hdecision := hp.decision_length
  have hmapped : (p.phases (q8Kernels f)).layers = p.layers.map (q8Kernels f).encoder := rfl
  have hhead : (p.phases (q8Kernels f)).decision = p.decision.map (q8Kernels f).decision := rfl
  rw [Int8Parts.phase, Phases.phase, hmapped, hhead, List.length_map,
    List.getElem?_eq_none (by omega), List.getElem?_eq_none (by rw [List.length_map]; omega)]
  have hne : ¬k = p.layers.length := by omega
  dsimp only
  rw [if_neg hne, if_neg hne, List.getElem?_eq_none (by omega),
    List.getElem?_eq_none (by rw [List.length_map]; omega)]
  exact score_runs hp hc hx

omit hc in
/-- Every phase before the scorer leaves positive scales. -/
theorem phase_positive (hk : k + 1 < c.layers + c.decisionLayers + 2) {y : QTensor}
    (hy : (p.phases (q8Kernels f)).phase input k x = .ok y) :
    ∀ v ∈ y.scales, singleFinite v ∧ 0 < order v := by
  have hlayers := hp.layers_length
  have hdecision := hp.decision_length
  have hmapped : (p.phases (q8Kernels f)).layers = p.layers.map (q8Kernels f).encoder := rfl
  have hhead : (p.phases (q8Kernels f)).decision = p.decision.map (q8Kernels f).decision := rfl
  rw [Phases.phase, hmapped, List.getElem?_map, List.length_map] at hy
  cases hl : p.layers[k]? with
  | some l =>
    rw [hl] at hy
    exact EncoderLayer.table_positive l x y (okOr_eq_ok.mp hy)
  | none =>
    rw [hl] at hy
    have hge := List.getElem?_eq_none_iff.mp hl
    dsimp only [Option.map_none] at hy
    by_cases hfinal : k = p.layers.length
    · rw [if_pos hfinal] at hy
      exact Positive.bind (fun _ => QTensor.addTable_positive _ _) y (okOr_eq_ok.mp hy)
    · rw [if_neg hfinal, hhead, List.getElem?_map] at hy
      cases hd : p.decision[k - p.layers.length - 1]? with
      | none =>
        have hle := List.getElem?_eq_none_iff.mp hd
        omega
      | some l =>
        rw [hd] at hy
        exact DecisionLayer.table_positive l _ _ _ y (okOr_eq_ok.mp hy)

end Int8Parts.Fits

end Phases

section Sessions
variable {F Digest : Type} [Doubles F] {f : Singles F} {p : Int8Parts F} {m : LayaModel F Digest}
  {input : TokenInput} {s s' : QuantizedSession Digest} {x : QTensor} {n : ℕ}
  {l : Option (List UInt32)}

/-- A model that runs these layers. -/
structure Int8Parts.Drives (p : Int8Parts F) (f : Singles F) (m : LayaModel F Digest) : Prop where
  fits : p.Fits m.config
  q8 : m.q8 = p.phases (q8Kernels f)

/-- A session of a model, whose tensor has the rows of the phase to come. -/
structure LayaModel.Q8Sound (m : LayaModel F Digest) (s : QuantizedSession Digest) : Prop where
  bundle : s.bundle = m.bundle
  input : m.validateInput s.input = .ok ()
  next : s.next ≤ m.inferenceSteps
  hidden : s.next < m.inferenceSteps → s.hidden.Shaped
    (m.rowsAt s.input.inputIds.length s.input.markers.length s.next) 1 m.config.hiddenSize ∧
      ∀ v ∈ s.hidden.scales, singleFinite v ∧ 0 < order v

theorem markersIncrease_lt {ids : List UInt32} {mask : UInt32} {prev : Option UInt32}
    {markers : List UInt32} (h : markersIncrease ids mask prev markers = true) :
    ∀ id ∈ markers, id.toNat < ids.length := by
  induction markers generalizing prev with
  | nil => exact fun id hid => by cases hid
  | cons p ps ih =>
    simp only [markersIncrease, Bool.and_eq_true, beq_iff_eq] at h
    intro id hid
    rcases List.mem_cons.mp hid with rfl | hid
    · exact (List.getElem?_eq_some_iff.mp h.1.1).1
    · exact ih h.2 id hid

omit [Doubles F] in
/-- Values that are read fail only where one of them is not finite. -/
theorem lastLogits_error {T : Type} {P : Phases T} {y : T} {v : List UInt32} {e : Error}
    (hv : P.read y = .ok v) (he : P.lastLogits n y = .error e) : e = .numeric ∧ n = P.steps - 1 := by
  rw [Phases.lastLogits] at he
  split at he
  · next hn =>
    refine ⟨?_, hn⟩
    cases hl : P.logits y with
    | ok l =>
      rw [hl] at he
      cases he
    | error e' =>
      rw [hl] at he
      cases he
      rw [Phases.logits, hv] at hl
      rcases bind_eq_error.mp hl with hmodel | ⟨_, -, hl⟩
      · cases hmodel
      · rcases bind_eq_error.mp hl with hreject | ⟨_, -, hpure⟩
        · exact (rejectIf_eq_error.mp hreject).2.symm
        · cases hpure
  · cases he

/-- What an accepted input is. -/
theorem LayaModel.facts_of_validateInput (h : m.validateInput input = .ok ()) :
    (∀ id ∈ input.inputIds, id.toNat < m.config.vocabSize) ∧ input.qtypeId.toNat < 3 ∧
      ∀ id ∈ input.markers, id.toNat < input.inputIds.length := by
  have hq := (ModelConfig.sizes m.valid).qtypes
  simp only [LayaModel.validateInput, bind_eq_ok, rejectIf_eq_ok, not_or, not_not, not_le,
    not_exists, not_and] at h
  obtain ⟨_, ⟨-, -, -, hqtype, hids⟩, hmarkers⟩ := h
  exact ⟨hids, hq ▸ hqtype, markersIncrease_lt hmarkers⟩

theorem modelCode_call (spec : CResult QTensor) :
    modelCode (call spec) = call (modelError spec) := by
  cases spec <;> rfl

omit [Doubles F] in
/-- The values that are read, one for each row. -/
theorem read_eq {k : ℕ} (hx : x.Shaped k 1 1) : Int8Parts.read f x = .ok
    ((List.range x.rows).map fun r => QTensor.single f (x.part x.cols r) 0) := by
  rw [Int8Parts.read, hx.cols_one, hx.rows_eq]
  exact mapM_range_eq_ok fun r hr => QTensor.value_row hx hr Nat.one_pos

namespace Int8Parts.Drives
variable (h : p.Drives f m)
include h

/-- A session begins as the model begins it. -/
theorem begin_eq (input : TokenInput) : p.begin f m input = call (m.beginQuantized input) := by
  rw [Int8Parts.begin, LayaModel.beginQuantized, LayaModel.start]
  cases hv : m.validateInput input with
  | error e => rfl
  | ok _ =>
    have hruns := h.fits.embed_runs (f := f) (ModelConfig.sizes m.valid)
      (LayaModel.facts_of_validateInput hv).1
    rw [h.q8, hruns.eq, modelCode_call]
    cases modelError ((p.phases (q8Kernels f)).embed input.inputIds) <;> rfl

theorem begun (hs : m.beginQuantized input = .ok s) : m.Q8Sound s := by
  obtain ⟨hv, hembed, heq⟩ := LayaModel.start_eq_ok.mp hs
  have hsteps := m.inferenceSteps_le
  have hbundle : s.bundle = m.bundle := by rw [heq]
  have hinput : s.input = input := by rw [heq]
  have hnext : s.next = 0 := by rw [heq]
  have hruns := h.fits.embed_runs (f := f) (ModelConfig.sizes m.valid)
    (LayaModel.facts_of_validateInput hv).1
  rw [h.q8] at hembed
  refine ⟨hbundle, hinput ▸ hv, by omega, fun _ => ⟨?_, ?_⟩⟩
  · rw [hnext, hinput, LayaModel.rowsAt, if_neg (by omega)]
    exact hruns.shaped _ hembed
  · exact Norm.table_positive _ _ _ (okOr_eq_ok.mp hembed)

theorem lastLogits_eq (hx : n + 1 = m.inferenceSteps → ∃ k, x.Shaped k 1 1) :
    Int8Parts.lastLogits f m n x = call (m.q8.lastLogits n x) := by
  have hsteps := m.inferenceSteps_le
  rw [Int8Parts.lastLogits, Phases.lastLogits, m.q8_steps]
  by_cases hn : n = m.inferenceSteps - 1
  · obtain ⟨k, hk⟩ := hx (by omega)
    rw [if_pos hn, if_pos hn, Phases.logits, h.q8, read_eq hk]
    show (reject _ Error.numeric >>= _ : Code Error _) =
      call (some <$> (rejectIf _ Error.numeric >>= fun _ => pure _))
    by_cases hall : ((List.range x.rows).map fun r =>
        QTensor.single f (x.part x.cols r) 0).all singleFinite = true
    · rw [reject_pass (not_not.mpr hall), rejectIf_bind (not_not.mpr hall)]
      rfl
    · rw [reject_stop hall, rejectIf_stop hall]
      rfl
  · rw [if_neg hn, if_neg hn]
    rfl

/-- A phase of a session that is still to come. -/
theorem phase_runs (hs : m.Q8Sound s) (hn : s.next < m.inferenceSteps) :
    RunsAs (if s.next + 2 < m.inferenceSteps then s.input.inputIds.length
      else s.input.markers.length) (if s.next + 1 = m.inferenceSteps then 1 else m.config.hiddenSize)
      (p.phase f s.input s.next s.hidden) (m.q8.phase s.input s.next s.hidden) := by
  have hc := ModelConfig.sizes m.valid
  have hlens := LayaModel.lengths_of_validateInput hs.input
  obtain ⟨-, hq, hmarkers⟩ := LayaModel.facts_of_validateInput hs.input
  obtain ⟨hshaped, -⟩ := hs.hidden hn
  rw [h.q8]
  by_cases hlast : s.next + 1 = m.inferenceSteps
  · rw [LayaModel.rowsAt, if_pos (by omega)] at hshaped
    rw [if_neg (by omega), if_pos hlast]
    exact h.fits.last_runs hc hshaped hlast
  · rw [LayaModel.rowsAt, if_neg (by omega)] at hshaped
    rw [if_neg hlast]
    have hruns := h.fits.phase_runs (f := f) hc hshaped ⟨hlens.1.1, hlens.1.2.trans (by decide)⟩
      hmarkers hq (show s.next + 1 < m.inferenceSteps by omega)
    have hsteps : m.config.layers + m.config.decisionLayers + 2 = m.inferenceSteps := rfl
    rw [hsteps] at hruns
    by_cases hbefore : s.next + 2 < m.inferenceSteps
    · rw [if_pos hbefore]
      rwa [if_neg (by omega)] at hruns
    · rw [if_neg hbefore]
      rwa [if_pos (by omega)] at hruns

variable [DecidableEq Digest]

/-- A step is the model's step. -/
theorem step_eq (hs : m.Q8Sound s) : p.step f m s = call (m.stepQuantized s) := by
  rw [Int8Parts.step, LayaModel.stepQuantized, Phases.step, m.q8_steps,
    reject_pass (not_not.mpr hs.bundle), rejectIf_bind (not_not.mpr hs.bundle)]
  by_cases hn : m.inferenceSteps ≤ s.next
  · rw [reject_stop hn, rejectIf_stop hn]
    rfl
  · have hruns := h.phase_runs hs (Nat.not_le.mp hn)
    rw [reject_pass hn, rejectIf_bind hn, hruns.eq, modelCode_call]
    cases hy : m.q8.phase s.input s.next s.hidden with
    | error e => rfl
    | ok y =>
      show (Int8Parts.lastLogits f m s.next y >>= fun _ => _) =
        call (m.q8.lastLogits s.next y >>= fun _ => _)
      rw [h.lastLogits_eq fun hlast => ⟨_, by
        have hshaped := hruns.shaped y hy
        rwa [if_pos hlast] at hshaped⟩]
      cases m.q8.lastLogits s.next y <;> rfl

/-- The session after a step. -/
theorem stepped (hs : m.Q8Sound s) (hstep : m.stepQuantized s = .ok (s', l)) : m.Q8Sound s' := by
  obtain ⟨-, hn, hphase, heq, -⟩ := Phases.step_eq_ok.mp hstep
  rw [m.q8_steps] at hn
  have hinput : s'.input = s.input := by rw [heq]
  have hnext : s'.next = s.next + 1 := by rw [heq]
  have hshaped := (h.phase_runs hs hn).shaped _ hphase
  refine ⟨by rw [heq]; exact hs.bundle, hinput ▸ hs.input, by omega, fun hlt => ⟨?_, ?_⟩⟩
  · rw [if_neg (show ¬s.next + 1 = m.inferenceSteps by omega)] at hshaped
    rw [hinput, hnext, LayaModel.rowsAt]
    by_cases hlast : s.next + 1 = m.inferenceSteps - 1
    · rw [if_pos hlast]
      rwa [if_neg (by omega)] at hshaped
    · rw [if_neg hlast]
      rwa [if_pos (by omega)] at hshaped
  · rw [h.q8] at hphase
    exact h.fits.phase_positive (show s.next + 1 < m.inferenceSteps by omega) hphase

/-- What a step returns. -/
theorem step_returns (hs : m.Q8Sound s) (hstep : m.stepQuantized s = .ok (s', l)) :
    s'.next = s.next + 1 ∧ if s'.next = m.inferenceSteps then ∃ v, l = some v ∧
      v.length = s.input.markers.length ∧ ∀ x ∈ v, singleFinite x else l = none := by
  obtain ⟨-, hn, hphase, heq, hreturned⟩ := Phases.step_eq_ok.mp hstep
  rw [m.q8_steps] at hn
  have hnext : s'.next = s.next + 1 := by rw [heq]
  refine ⟨hnext, ?_⟩
  rw [Phases.Returned, m.q8_steps] at hreturned
  by_cases hlast : s'.next = m.inferenceSteps
  · rw [if_pos hlast] at hreturned ⊢
    obtain ⟨v, rfl, hv⟩ := hreturned
    have hshaped := (h.phase_runs hs hn).shaped _ hphase
    rw [if_neg (by omega)] at hshaped
    simp only [Phases.logits, bind_eq_ok, modelError_eq_ok, rejectIf_eq_ok, pure_eq_ok, not_not,
      h.q8] at hv
    obtain ⟨values, hvalues, _, hall, rfl⟩ := hv
    cases hvalues
    refine ⟨_, rfl, ?_, fun x hx => List.all_eq_true.mp hall x hx⟩
    rw [List.length_map, List.length_range, hshaped.rows_eq]
  · rwa [if_neg hlast] at hreturned ⊢

/-- The logits of a run, one for each marker. -/
theorem length_logits (hs : m.Q8Sound s) (hl : ∀ v, l = some v → v.length = s.input.markers.length)
    {n : ℕ} {r : QuantizedSession Digest × Option (List UInt32)}
    (hrun : times (fun x => m.stepQuantized x.1) n (s, l) = .ok r) {v : List UInt32}
    (hv : r.2 = some v) : v.length = s.input.markers.length := by
  induction n generalizing s l with
  | zero =>
    cases hrun
    exact hl v hv
  | succ n ih =>
    obtain ⟨⟨s', l'⟩, hstep, hrest⟩ := bind_eq_ok.mp hrun
    have hinput : s'.input = s.input := by
      obtain ⟨-, -, -, heq, -⟩ := Phases.step_eq_ok.mp hstep
      rw [heq]
    rw [← hinput]
    refine ih (h.stepped hs hstep) (fun v hv => ?_) hrest
    have hreturned := (h.step_returns hs hstep).2
    split at hreturned
    · obtain ⟨v', hv', hlength, -⟩ := hreturned
      rw [hv, Option.some.injEq] at hv'
      rw [hv', hinput, hlength]
    · cases hv.symm.trans hreturned

/-- How a step fails. -/
theorem step_error (hs : m.Q8Sound s) {e : Error} (he : m.stepQuantized s = .error e) :
    e = .transition ∧ s.next = m.inferenceSteps ∨
      e = .modelUnavailable "nonfinite int8 activation" ∧ s.next < m.inferenceSteps ∨
      e = .numeric ∧ s.next + 1 = m.inferenceSteps := by
  have hle := hs.next
  rw [LayaModel.stepQuantized, Phases.step, m.q8_steps, rejectIf_bind (not_not.mpr hs.bundle)] at he
  by_cases hn : m.inferenceSteps ≤ s.next
  · rw [rejectIf_stop hn] at he
    cases he
    exact .inl ⟨rfl, by omega⟩
  · have hruns := h.phase_runs hs (Nat.not_le.mp hn)
    rw [rejectIf_bind hn] at he
    cases hy : m.q8.phase s.input s.next s.hidden with
    | error e' =>
      rw [hy, hruns.error e' hy] at he
      cases he
      exact .inr (.inl ⟨rfl, by omega⟩)
    | ok y =>
      rw [hy] at he
      rcases bind_eq_error.mp he with hmodel | ⟨_, hmodel, he⟩
      · cases hmodel
      · cases hmodel
        rcases bind_eq_error.mp he with hlast | ⟨_, -, hpure⟩
        · have hnumeric := lastLogits_error (v := (List.range y.rows).map fun r =>
            QTensor.single f (y.part y.cols r) 0) (by rw [h.q8]; rfl) hlast
          rw [m.q8_steps] at hnumeric
          exact .inr (.inr ⟨hnumeric.1, by omega⟩)
        · cases hpure

end Int8Parts.Drives

end Sessions

section Codec
variable {F : Type} [Doubles F] {f : Singles F} {p : Int8Parts F} {m : LayaModel F Digest32}
  {t : Target} {s : QuantizedSession Digest32} {bytes : List UInt8}

/-- A session of the engine: begun, stepped or imported. -/
inductive Int8Parts.Reached [DecidableEq Digest32] (f : Singles F) (p : Int8Parts F)
    (m : LayaModel F Digest32) (t : Target) : QuantizedSession Digest32 → Prop
  | begun {input : TokenInput} {s : QuantizedSession Digest32} (h : p.begin f m input = .ok s) :
      Reached f p m t s
  | stepped {s s' : QuantizedSession Digest32} {l : Option (List UInt32)} (hs : Reached f p m t s)
      (h : p.step f m s = .ok (s', l)) : Reached f p m t s'
  | imported {bytes : List UInt8} {s : QuantizedSession Digest32}
      (h : m.importQuantized t bytes = .ok s) : Reached f p m t s

theorem Int8Parts.Reached.times [DecidableEq Digest32] (hs : p.Reached f m t s) {n : ℕ}
    {l : Option (List UInt32)} {r : QuantizedSession Digest32 × Option (List UInt32)}
    (h : StagedRuns.times (fun x => p.step f m x.1) n (s, l) = .ok r) : p.Reached f m t r.1 := by
  induction n generalizing s l with
  | zero =>
    cases h
    exact hs
  | succ n ih =>
    obtain ⟨r₁, hstep, hrest⟩ := bind_eq_ok.mp h
    exact ih (hs.stepped hstep) hrest

theorem LayaModel.quantized_of_import (h : m.importQuantized t bytes = .ok s) :
    s.hidden.Quantized := by
  rcases importQuantized_framed (m := m) (t := t) bytes with ⟨e, he⟩ | ⟨head, hf⟩
  · rw [he] at h
    cases h
  · obtain ⟨input, q, -, -, -, -, -, hgroups, hscales, hvalues, -, heq⟩ := importQuantized_of_length hf
    rw [heq] at h
    simp only [bind_eq_ok, pure_eq_ok, reject_eq_ok, not_exists, not_and] at h
    obtain ⟨_, -, _, -, _, hpass, rfl⟩ := h
    refine ⟨hgroups, hvalues, hscales, fun v hv => ?_⟩
    have haccepted := hpass v hv
    simp only [scaleRejected, not_or, not_not, not_le] at haccepted
    exact ⟨haccepted.1, haccepted.2.1⟩

theorem LayaModel.sound_of_import (h : m.importQuantized t bytes = .ok s) : m.Q8Sound s := by
  have hq := quantized_of_import h
  obtain ⟨hbundle, hinput, hphase, -⟩ :=
    (exportQuantized_eq_ok hq.values).mp (exportQuantized_of_import h).1
  refine ⟨hbundle, hinput, hphase.next.le, fun _ => ⟨⟨hphase.rows, hq.groups, ?_, ?_, ?_⟩,
    hq.positive⟩⟩
  · rw [hphase.cols, Nat.one_mul]
  · rw [hq.values, hphase.rows, hphase.cols, Nat.mul_one]
  · rw [hq.scales, hphase.rows, Nat.mul_one]

theorem Int8Parts.Drives.reached [DecidableEq Digest32] (h : p.Drives f m)
    (hs : p.Reached f m t s) : m.Q8Sound s := by
  induction hs with
  | begun hbegin =>
    rw [h.begin_eq, call_eq_ok] at hbegin
    exact h.begun hbegin
  | stepped _ hstep ih =>
    rw [h.step_eq ih, call_eq_ok] at hstep
    exact h.stepped ih hstep
  | imported himport => exact LayaModel.sound_of_import himport

/-- A session with a phase to come is exported, and what is written reads back as long as import
accepts its scales. -/
theorem LayaModel.Q8Sound.reimport (hs : m.Q8Sound s) (hn : s.next < m.inferenceSteps) :
    m.InPhase s ∧ ∃ bytes, m.exportQuantized t s = .ok bytes ∧ m.importQuantized t bytes =
      if ∀ v ∈ s.hidden.scales, order v ≤ order maxOver128 then .ok s
      else .error (.raise .numeric) := by
  obtain ⟨hshaped, hpositive⟩ := hs.hidden hn
  have hq : s.hidden.Quantized := by
    refine ⟨hshaped.groups_eq, ?_, ?_, hpositive⟩
    · rw [hshaped.values, hshaped.rows_eq, hshaped.cols_one, Nat.mul_one]
    · rw [hshaped.scales, hshaped.rows_eq, Nat.mul_one]
  have hphase : m.InPhase s := ⟨hn, hshaped.rows_eq, hshaped.cols_one, hshaped.groups_eq⟩
  have hexport := (exportQuantized_eq_ok (t := t) hq.values).mpr ⟨hs.bundle, hs.input, hphase, rfl⟩
  exact ⟨hphase, _, hexport, (importQuantized_of_export hq hexport).2⟩

end Codec

section Loaded
variable {F Digest : Type} [Doubles F] [Hashing Digest] {t : Target} {b b' : Builder F Digest}
  {bytes : List UInt8}

omit [Doubles F] in
theorem Builder.push_whole (hb : b.tensors.Whole) (h : b.push t bytes = .ok b') :
    b'.tensors.Whole ∧ b'.manifest = b.manifest := by
  simp only [push, bind_eq_ok, okOr_eq_ok, rejectIf_eq_ok, pure_eq_ok] at h
  obtain ⟨e, -, _, -, w, hw, rfl⟩ := h
  refine ⟨fun name x hget => ?_, rfl⟩
  rw [OrderedMaps.get_insert] at hget
  split at hget
  · cases Option.some.inj hget
    unfold weightOf at hw
    split at hw
    · obtain ⟨_, -, hw⟩ := bind_eq_ok.mp hw
      cases hbuffer : modelError (fromRawBuffer bytes e.shape) <;> rw [hbuffer] at hw <;> cases hw
    · cases hx : Int8Matrix.fromBytes t bytes (e.shape.getD 0 0) (e.shape.getD 1 0) with
      | error _ =>
        rw [hx] at hw
        cases hw
      | ok y =>
        rw [hx] at hw
        cases hw
        exact Int8Matrix.valid_of_fromBytes hx
  · exact hb name x hget

omit [Doubles F] in
/-- A run of pushes. -/
theorem Builder.pushes_whole {parts : List (List UInt8)} (hb : b.tensors.Whole)
    (h : (parts.forM (pushInPlace t)).run b = (.ok (), b')) :
    b'.tensors.Whole ∧ b'.manifest = b.manifest := by
  induction parts generalizing b with
  | nil =>
    cases h
    exact ⟨hb, rfl⟩
  | cons part parts ih =>
    obtain ⟨b₁, hp, h⟩ := forM_pushInPlace_cons.mp h
    obtain ⟨hwhole, hmanifest⟩ := push_whole hb hp
    obtain ⟨hfinal, hsame⟩ := ih hwhole h
    exact ⟨hfinal, hsame.trans hmanifest⟩

/-- A model that was pushed part by part, and its parts. -/
theorem Int8Parts.drives_of_finish [Hashing Digest32] [DecidableEq Digest32] {f : Singles F}
    {man : Manifest F Digest32} {bundle : Digest32} {parts : List (List UInt8)}
    {b : Builder F Digest32} {k : Kernels F Tensor} {m : LayaModel F Digest32}
    (hparts : (parts.forM (Builder.pushInPlace t)).run ⟨man, bundle, 0, ∅⟩ = (.ok (), b))
    (hm : b.finish k (q8Kernels f) = .ok m) :
    ∃ p, Int8Parts.load man.config b.tensors = .ok p ∧ p.Drives f m := by
  obtain ⟨hwhole, hman⟩ := Builder.pushes_whole (fun name x hx => by simp at hx) hparts
  simp only [Builder.finish, bind_eq_ok] at hm
  obtain ⟨-, -, hm⟩ := hm
  rw [show b.manifest = man from hman] at hm
  obtain ⟨hfits, hconfig, p, hp, hq8⟩ := parts_of_fromWeights hm
  refine ⟨p, hp, ?_, hq8⟩
  have hvalid := m.valid
  rw [hconfig] at hvalid ⊢
  exact Int8Parts.fits_of_load hfits hwhole hvalid hp

/-- The engine on signed bytes of a model that was pushed part by part: it begins and steps as the
model of phases does, so no index, assertion or shape in it fails; a step fails after the last one,
or at a number that is not finite; and a session with a phase to come is exported and read back. -/
theorem int8_engine_sound {F : Type} [Doubles F] [Hashing Digest32] [DecidableEq Digest32]
    (f : Singles F) (t : Target) (man : Manifest F Digest32) (bundle : Digest32)
    (parts : List (List UInt8)) (b : Builder F Digest32) (k : Kernels F Tensor)
    (m : LayaModel F Digest32)
    (hparts : (parts.forM (Builder.pushInPlace t)).run ⟨man, bundle, 0, ∅⟩ = (.ok (), b))
    (hm : b.finish k (q8Kernels f) = .ok m) :
    ∃ p, Int8Parts.load man.config b.tensors = .ok p ∧
      (∀ input, p.begin f m input = call (m.beginQuantized input)) ∧
      ∀ s, p.Reached f m t s →
        p.step f m s = call (m.stepQuantized s) ∧
        (∀ e, p.step f m s = .error e →
          e = .raise .transition ∧ s.next = m.inferenceSteps ∨
          e = .raise (.modelUnavailable "nonfinite int8 activation") ∧ s.next < m.inferenceSteps ∨
          e = .raise .numeric ∧ s.next + 1 = m.inferenceSteps) ∧
        (∀ s' l, p.step f m s = .ok (s', l) → s'.next = s.next + 1 ∧
          if s'.next = m.inferenceSteps then ∃ v, l = some v ∧
            v.length = s.input.markers.length ∧ ∀ x ∈ v, singleFinite x
          else l = none) ∧
        (s.next < m.inferenceSteps → m.InPhase s ∧ ∃ bytes, m.exportQuantized t s = .ok bytes ∧
          m.importQuantized t bytes =
            if ∀ v ∈ s.hidden.scales, order v ≤ order maxOver128 then .ok s
            else .error (.raise .numeric)) := by
  obtain ⟨p, hp, hdrives⟩ := Int8Parts.drives_of_finish hparts hm
  refine ⟨p, hp, hdrives.begin_eq, fun s hs => ?_⟩
  have hsound := hdrives.reached hs
  have hstep := hdrives.step_eq hsound
  refine ⟨hstep, fun e he => ?_, fun s' l hl => ?_, fun hn => hsound.reimport hn⟩
  · rw [hstep] at he
    cases hmodel : m.stepQuantized s with
    | ok r =>
      rw [hmodel] at he
      cases he
    | error e' =>
      rw [hmodel] at he
      cases he
      rcases hdrives.step_error hsound hmodel with ⟨rfl, h⟩ | ⟨rfl, h⟩ | ⟨rfl, h⟩
      · exact .inl ⟨rfl, h⟩
      · exact .inr (.inl ⟨rfl, h⟩)
      · exact .inr (.inr ⟨rfl, h⟩)
  · rw [hstep, call_eq_ok] at hl
    exact hdrives.step_returns hsound hl

end Loaded

/-! A pack of zeros: its parts are pushed, it makes a model, and a session runs to its logits. -/
namespace Int8Parts.Sample

/-- A checksum in the place of SHA-256. -/
local instance digests : Hashing Digest32 := Hashing.ofSha256 Sha256.checksum

def pack : Manifest ℚ Digest32 := Manifest.Sample.pack Digest32

def parts : List (List UInt8) :=
  pack.tensors.map fun e => TiledExtents.cut Manifest.Sample.bytes e.extent

def pushed : Except Error Unit × Builder ℚ Digest32 :=
  (parts.forM (Builder.pushInPlace .bits32)).run ⟨pack, Hashing.zero, 0, ∅⟩

/-- Kernels of the other number format, which are not called. -/
def idle : Kernels ℚ Tensor :=
  ⟨fun _ _ _ => .error "", fun _ _ => .error "", fun _ _ _ _ => .error "", fun _ _ _ => .error "",
    fun _ _ _ _ => .error "", fun _ => .error ""⟩

/-- Every phase but the last one, and then the last one. -/
structure Finished (m : LayaModel ℚ Digest32) (p : Int8Parts ℚ)
    (s₀ s s' : QuantizedSession Digest32) (l : Option (List UInt32)) : Prop where
  finish : pushed.2.finish idle (q8Kernels Singles.words) = .ok m
  load : Int8Parts.load pack.config pushed.2.tensors = .ok p
  begin : p.begin Singles.words m LayaModel.Zeros.input = .ok s₀
  steps : times (fun x => p.step Singles.words m x.1) 3 (s₀, none) = .ok (s, none)
  last : p.step Singles.words m s = .ok (s', l)
  input : s.input = LayaModel.Zeros.input
  next : s'.next = m.inferenceSteps

theorem finishes : ∃ m p s₀ s s' l, Finished m p s₀ s s' l := by
  have h : (do
      let m ← call (pushed.2.finish idle (q8Kernels Singles.words))
      let p ← call (Int8Parts.load pack.config pushed.2.tensors)
      let s₀ ← p.begin Singles.words m LayaModel.Zeros.input
      let r ← times (fun x => p.step Singles.words m x.1) 3 (s₀, none)
      let r' ← p.step Singles.words m r.1
      reject (¬(r.2 = none ∧ r.1.input = LayaModel.Zeros.input ∧ r'.1.next = m.inferenceSteps))
        .transition : Code Error Unit) = .ok () := by
    decide +kernel
  simp only [bind_eq_ok, call_eq_ok, reject_eq_ok, not_not] at h
  obtain ⟨m, hm, p, hp, s₀, hbegin, ⟨s, _⟩, hsteps, ⟨s', l⟩, hlast, rfl, hinput, hnext⟩ := h
  exact ⟨m, p, s₀, s, s', l, hm, hp, hbegin, hsteps, hlast, hinput, hnext⟩

/-- One finite logit for each of the two markers. -/
theorem int8_engine_sound_zeros : ∃ m p s₀ s s' v, Finished m p s₀ s s' (some v) ∧
    p.step Singles.words m s = call (m.stepQuantized s) ∧ v.length = 2 ∧
    ∀ x ∈ v, singleFinite x := by
  have hpushed : pushed.1 = .ok () := by decide +kernel
  have hrun : pushed = (.ok (), pushed.2) := by rw [← hpushed]
  obtain ⟨m, p, s₀, s, s', l, h⟩ := finishes
  obtain ⟨p', hp', -, hreached⟩ := int8_engine_sound Singles.words .bits32 pack Hashing.zero parts
    pushed.2 idle m hrun h.finish
  cases Except.ok.inj (h.load.symm.trans hp')
  have hs : p.Reached Singles.words m .bits32 s := (Reached.begun h.begin).times h.steps
  obtain ⟨hstep, -, hreturns, -⟩ := hreached s hs
  have hreturned := (hreturns s' l h.last).2
  rw [if_pos h.next] at hreturned
  obtain ⟨v, rfl, hlength, hfinite⟩ := hreturned
  rw [h.input] at hlength
  exact ⟨m, p, s₀, s, s', v, h, hstep, hlength, hfinite⟩

end Int8Parts.Sample

end IcLaya
