import IcLaya.ModelPack
import Mathlib.Data.List.Nodup

/-!
# The tensor table of a configuration

Every name a model asks for is in the table once, with the shape its layer expects, so weights
that fit the table make a model.
-/
namespace IcLaya
open Std (ExtTreeMap)
open Fallible OrderedMaps

section Names

/-- A name of one layer: its stack, its index, and the weight. -/
def layerName (stack : String) (i : ℕ) (weight : String) : String :=
  stack ++ toString i ++ "." ++ weight

/-- The index of a layer ends at the dot behind it. -/
theorem layerName_inj {stack : String} {i j : ℕ} {x y : String}
    (h : layerName stack i x = layerName stack j y) : i = j ∧ x = y := by
  have hindex : ∀ (k : ℕ) (r : List Char),
      (Nat.toDigits 10 k ++ '.' :: r).takeWhile (· ≠ '.') = Nat.toDigits 10 k := by
    intro k r
    rw [List.takeWhile_append_of_pos fun d hd => ?_]
    · simp
    · have hdigit := Nat.isDigit_of_mem_toDigits (by decide) (by decide) hd
      exact decide_eq_true fun he => absurd (he ▸ hdigit) (by decide)
  have hlist := congrArg String.toList h
  simp only [layerName, String.toList_append, List.append_assoc, toString, Nat.toList_repr] at hlist
  have htail : Nat.toDigits 10 i ++ '.' :: x.toList = Nat.toDigits 10 j ++ '.' :: y.toList :=
    List.append_cancel_left hlist
  have hdigits := congrArg (List.takeWhile (· ≠ '.')) htail
  rw [hindex, hindex] at hdigits
  rw [hdigits] at htail
  refine ⟨?_, String.toList_inj.mp (List.cons.inj (List.append_cancel_left htail)).2⟩
  rw [← Nat.ofDigitChars_ten_toDigits (n := i), hdigits, Nat.ofDigitChars_ten_toDigits]

/-- The names of a stack of layers are all different. -/
theorem nodup_layerNames (stack : String) {weights : ℕ → List String} (h : ∀ i, (weights i).Nodup)
    (n : ℕ) : ((List.range n).flatMap fun i => (weights i).map (layerName stack i)).Nodup := by
  refine List.nodup_flatMap.mpr ⟨fun i _ => (h i).map fun x y he => (layerName_inj he).2, ?_⟩
  refine List.nodup_range.imp fun {i j} hne => ?_
  refine List.disjoint_left.mpr fun name hi hj => ?_
  obtain ⟨x, -, rfl⟩ := List.mem_map.mp hi
  obtain ⟨y, -, he⟩ := List.mem_map.mp hj
  exact hne (layerName_inj he).1.symm

/-- The second letter tells the parts of the table apart. -/
def partOf (name : String) : Option Char := name.toList[1]?

theorem partOf_encoder (i : ℕ) (x : String) : partOf (layerName "encoder." i x) = some 'n' := by
  simp [partOf, layerName, String.toList_append]

theorem partOf_decision (i : ℕ) (x : String) : partOf (layerName "decision." i x) = some 'e' := by
  simp [partOf, layerName, String.toList_append]

end Names

section Table
variable {F Digest : Type} [Doubles F] (c : ModelConfig F)

abbrev Entries := List (String × List ℕ)

def encoderEntries (i : ℕ) : Entries :=
  let h := c.hiddenSize
  (if 0 < i ∨ c.firstLayerAttentionNorm then [(layerName "encoder." i "attn_norm.weight", [h])]
    else []) ++
  [("qkv.weight", [3 * h, h]), ("out.weight", [h, h]), ("mlp_norm.weight", [h]),
    ("wi.weight", [2 * c.intermediateSize, h]), ("wo.weight", [h, c.intermediateSize])].map
    fun x => (layerName "encoder." i x.1, x.2)

def decisionEntries (i : ℕ) : Entries :=
  let h := c.hiddenSize
  [("qkv.weight", [3 * h, h]), ("qkv.bias", [3 * h]), ("out.weight", [h, h]), ("out.bias", [h]),
    ("norm1.weight", [h]), ("norm1.bias", [h]), ("norm2.weight", [h]), ("norm2.bias", [h]),
    ("linear1.weight", [c.decisionFf, h]), ("linear1.bias", [c.decisionFf]),
    ("linear2.weight", [h, c.decisionFf]), ("linear2.bias", [h])].map
    fun x => (layerName "decision." i x.1, x.2)

def embeddingEntries : Entries :=
  let h := c.hiddenSize
  [("embeddings.weight", [c.vocabSize, h]), ("embeddings.norm.weight", [h]),
    ("final_norm.weight", [h])]

def scorerEntries : Entries :=
  let h := c.hiddenSize
  [("scorer.norm.weight", [h]), ("scorer.norm.bias", [h]), ("scorer.dense.weight", [h, h]),
    ("scorer.dense.bias", [h]), ("scorer.out.weight", [1, h]), ("scorer.out.bias", [1])]

/-- The table in the order in which the code fills it. -/
def tensorTable : Entries :=
  embeddingEntries c ++ (List.range c.layers).flatMap (encoderEntries c) ++
    [("qtype.weight", [c.qtypes, c.hiddenSize])] ++
    (List.range c.decisionLayers).flatMap (decisionEntries c) ++ scorerEntries c

omit [Doubles F] in
theorem encoderShapes_eq (m : Shapes) (i : ℕ) :
    encoderShapes c m i = putAll m (encoderEntries c i) := by
  unfold encoderShapes encoderEntries
  split <;> rfl

omit [Doubles F] in
theorem decisionShapes_eq (m : Shapes) (i : ℕ) :
    decisionShapes c m i = putAll m (decisionEntries c i) := rfl

theorem expectedTensors_eq :
    expectedTensors c = c.validate.map fun _ => putAll ∅ (tensorTable c) := by
  have hencoder : encoderShapes c = fun m i => putAll m (encoderEntries c i) := by
    funext m i
    exact encoderShapes_eq c m i
  have hdecision : decisionShapes c = fun m i => putAll m (decisionEntries c i) := by
    funext m i
    exact decisionShapes_eq c m i
  have htable : putAll ∅ (tensorTable c) = putAll ((List.range c.decisionLayers).foldl
      (fun m i => putAll m (decisionEntries c i)) (((List.range c.layers).foldl
        (fun m i => putAll m (encoderEntries c i)) (putAll ∅ (embeddingEntries c))).insert
          "qtype.weight" [c.qtypes, c.hiddenSize])) (scorerEntries c) := by
    simp only [tensorTable, putAll_append, putAll_flatMap]
    rfl
  rw [expectedTensors, hencoder, hdecision]
  cases c.validate with
  | error e => rfl
  | ok _ =>
    rw [Except.map, htable]
    rfl

omit [Doubles F] in
theorem encoderEntries_names (i : ℕ) : (encoderEntries c i).map Prod.fst =
    ((if 0 < i ∨ c.firstLayerAttentionNorm then ["attn_norm.weight"] else []) ++ ["qkv.weight",
      "out.weight", "mlp_norm.weight", "wi.weight", "wo.weight"]).map (layerName "encoder." i) := by
  unfold encoderEntries
  split <;> rfl

omit [Doubles F] in
theorem decisionEntries_names (i : ℕ) : (decisionEntries c i).map Prod.fst =
    ["qkv.weight", "qkv.bias", "out.weight", "out.bias", "norm1.weight", "norm1.bias",
      "norm2.weight", "norm2.bias", "linear1.weight", "linear1.bias", "linear2.weight",
      "linear2.bias"].map (layerName "decision." i) := rfl

omit [Doubles F] in
theorem tensorTable_nodup : ((tensorTable c).map Prod.fst).Nodup := by
  have hencoder : (((List.range c.layers).flatMap (encoderEntries c)).map Prod.fst).Nodup := by
    rw [List.map_flatMap]
    simp only [encoderEntries_names]
    refine nodup_layerNames "encoder." (fun i => ?_) c.layers
    split <;> decide
  have hdecision :
      (((List.range c.decisionLayers).flatMap (decisionEntries c)).map Prod.fst).Nodup := by
    rw [List.map_flatMap]
    simp only [decisionEntries_names]
    exact nodup_layerNames "decision." (fun _ => by decide) c.decisionLayers
  -- the parts are told apart by a letter
  have hembedding : ∀ a ∈ (embeddingEntries c).map Prod.fst,
      partOf a = some 'm' ∨ partOf a = some 'i' := by
    simp [embeddingEntries, partOf]
  have hn : ∀ a ∈ ((List.range c.layers).flatMap (encoderEntries c)).map Prod.fst,
      partOf a = some 'n' := by
    intro a ha
    rw [List.map_flatMap] at ha
    obtain ⟨i, -, ha⟩ := List.mem_flatMap.mp ha
    rw [encoderEntries_names] at ha
    obtain ⟨x, -, rfl⟩ := List.mem_map.mp ha
    exact partOf_encoder i x
  have he : ∀ a ∈ ((List.range c.decisionLayers).flatMap (decisionEntries c)).map Prod.fst,
      partOf a = some 'e' := by
    intro a ha
    rw [List.map_flatMap] at ha
    obtain ⟨i, -, ha⟩ := List.mem_flatMap.mp ha
    rw [decisionEntries_names] at ha
    obtain ⟨x, -, rfl⟩ := List.mem_map.mp ha
    exact partOf_decision i x
  have hscorer : ∀ a ∈ (scorerEntries c).map Prod.fst, partOf a = some 'c' := by
    simp [scorerEntries, partOf]
  have hqtype : partOf "qtype.weight" = some 't' := by decide
  have hapart : ∀ {a b : String}, partOf a ≠ partOf b → a ≠ b := fun h he => h (he ▸ rfl)
  simp only [tensorTable, List.map_append, List.map_cons, List.map_nil, List.nodup_append,
    List.mem_append, List.mem_singleton]
  refine ⟨⟨⟨⟨by simp [embeddingEntries], hencoder, fun a ha b hb => hapart ?_⟩,
    List.nodup_singleton _, fun a ha b hb => hapart ?_⟩, hdecision, fun a ha b hb => hapart ?_⟩,
    by simp [scorerEntries], fun a ha b hb => hapart ?_⟩
  · rw [hn b hb]
    rcases hembedding a ha with h | h <;> simp [h]
  · rw [hb, hqtype]
    rcases ha with ha | ha
    · rcases hembedding a ha with h | h <;> simp [h]
    · simp [hn a ha]
  · rw [he b hb]
    rcases ha with (ha | ha) | ha
    · rcases hembedding a ha with h | h <;> simp [h]
    · simp [hn a ha]
    · simp [ha, hqtype]
  · rw [hscorer b hb]
    rcases ha with ((ha | ha) | ha) | ha
    · rcases hembedding a ha with h | h <;> simp [h]
    · simp [hn a ha]
    · simp [ha, hqtype]
    · simp [he a ha]

theorem expectedTensors_eq_ok {expected : Shapes} : expectedTensors c = .ok expected ↔
    c.validate = .ok () ∧ putAll ∅ (tensorTable c) = expected := by
  rw [expectedTensors_eq]
  cases c.validate <;> simp [Except.map]

/-- What the table holds, the map of expected tensors holds. -/
theorem mem_expected {expected : Shapes} (h : expectedTensors c = .ok expected) {name : String}
    {shape : List ℕ} : expected[name]? = some shape ↔ (name, shape) ∈ tensorTable c := by
  obtain ⟨-, rfl⟩ := (expectedTensors_eq_ok c).mp h
  rw [get_putAll (tensorTable_nodup c) fun _ _ => by simp]
  simp

theorem expected_perm {expected : Shapes} (h : expectedTensors c = .ok expected) :
    expected.toList.Perm (tensorTable c) := by
  obtain ⟨-, rfl⟩ := (expectedTensors_eq_ok c).mp h
  exact toList_putAll_perm (tensorTable_nodup c)

end Table

section Loading
variable {F Digest : Type} [Doubles F] {c : ModelConfig F} {m : Weights}

/-- Every name of the table has a weight of its shape. -/
def FitsTable (c : ModelConfig F) (m : Weights) : Prop :=
  ∀ x ∈ tensorTable c, ∃ w, m[x.1]? = some w ∧ w.fits x.2 = true

variable (h : FitsTable c m) {p name : String} {bias : Bool}
include h

namespace Weights

omit [Doubles F] in
theorem tensor_of_fits {n : ℕ} (hmem : (name, [n]) ∈ tensorTable c) :
    ∃ t, tensor m name = .ok t := by
  obtain ⟨w, hw, hfits⟩ := h _ hmem
  cases w with
  | f32 t => exact ⟨t, by rw [tensor, weight, hw]; rfl⟩
  | int8 t => simp [Weight.fits, Weight.dims] at hfits

omit [Doubles F] in
theorem matrix_of_fits {rows cols : ℕ} (hmem : (name, [rows, cols]) ∈ tensorTable c) :
    ∃ t, matrix m name = .ok t := by
  obtain ⟨w, hw, hfits⟩ := h _ hmem
  cases w with
  | f32 t => simp [Weight.fits] at hfits
  | int8 t => exact ⟨t, by rw [matrix, weight, hw]; rfl⟩

omit [Doubles F] in
theorem bias_of_fits (hmem : bias = true → ∃ n, (p ++ ".bias", [n]) ∈ tensorTable c) :
    ∃ t, biasOf m p bias = .ok t := by
  cases bias with
  | false => exact ⟨none, rfl⟩
  | true =>
    obtain ⟨n, hn⟩ := hmem rfl
    obtain ⟨t, ht⟩ := tensor_of_fits h hn
    exact ⟨some t, by rw [biasOf, if_pos rfl, ht]; rfl⟩

omit [Doubles F] in
theorem linear_of_fits {rows cols : ℕ} (hmem : (p ++ ".weight", [rows, cols]) ∈ tensorTable c)
    (hbias : bias = true → ∃ n, (p ++ ".bias", [n]) ∈ tensorTable c) :
    ∃ x, linear m p bias = .ok x := by
  obtain ⟨w, hw⟩ := matrix_of_fits h hmem
  obtain ⟨b, hb⟩ := bias_of_fits h hbias
  exact ⟨⟨w, b⟩, by rw [linear, hw, hb]; rfl⟩

omit [Doubles F] in
theorem norm_of_fits {n : ℕ} (hmem : (p ++ ".weight", [n]) ∈ tensorTable c)
    (hbias : bias = true → ∃ n, (p ++ ".bias", [n]) ∈ tensorTable c) (eps : F) :
    ∃ x, norm m p bias eps = .ok x := by
  obtain ⟨w, hw⟩ := tensor_of_fits h hmem
  obtain ⟨b, hb⟩ := bias_of_fits h hbias
  exact ⟨⟨w, b, eps⟩, by rw [norm, hw, hb]; rfl⟩

end Weights

omit h [Doubles F] in
/-- A layer's name, as the loader puts it together. -/
theorem layerName_of_startsWith (stack part : String) (i : ℕ) (suffix : String) {weight : String}
    (hw : "." ++ weight = part ++ suffix) :
    stack ++ toString i ++ part ++ suffix = layerName stack i weight := by
  have hassoc : stack ++ toString i ++ part ++ suffix = stack ++ toString i ++ (part ++ suffix) :=
    String.append_assoc
  rw [hassoc, ← hw, ← String.append_assoc]
  rfl

omit h [Doubles F] in
theorem mem_encoder {i : ℕ} (hi : i < c.layers) (part suffix weight : String) {shape : List ℕ}
    (hmem : (layerName "encoder." i weight, shape) ∈ encoderEntries c i)
    (hw : "." ++ weight = part ++ suffix) :
    ("encoder." ++ toString i ++ part ++ suffix, shape) ∈ tensorTable c := by
  rw [layerName_of_startsWith "encoder." part i suffix hw]
  have hlayer := List.mem_flatMap.mpr ⟨i, List.mem_range.mpr hi, hmem⟩
  simp only [tensorTable, List.mem_append]
  exact .inl (.inl (.inl (.inr hlayer)))

omit h [Doubles F] in
theorem mem_decision {i : ℕ} (hi : i < c.decisionLayers) (part suffix weight : String)
    {shape : List ℕ} (hmem : (layerName "decision." i weight, shape) ∈ decisionEntries c i)
    (hw : "." ++ weight = part ++ suffix) :
    ("decision." ++ toString i ++ part ++ suffix, shape) ∈ tensorTable c := by
  rw [layerName_of_startsWith "decision." part i suffix hw]
  have hlayer := List.mem_flatMap.mpr ⟨i, List.mem_range.mpr hi, hmem⟩
  simp only [tensorTable, List.mem_append]
  exact .inl (.inr hlayer)

open Weights in
omit [Doubles F] in
theorem encoderLayer_of_fits {i : ℕ} (hi : i < c.layers) :
    ∃ x, encoderLayer c m i = .ok x := by
  have hno : ∀ p, false = true → ∃ n, (p ++ ".bias", [n]) ∈ tensorTable c := fun _ hb => (nomatch hb)
  have hmem : ∀ part weight shape, (weight, shape) ∈
      [("qkv.weight", [3 * c.hiddenSize, c.hiddenSize]),
        ("out.weight", [c.hiddenSize, c.hiddenSize]), ("mlp_norm.weight", [c.hiddenSize]),
        ("wi.weight", [2 * c.intermediateSize, c.hiddenSize]),
        ("wo.weight", [c.hiddenSize, c.intermediateSize])] → "." ++ weight = part ++ ".weight" →
      ("encoder." ++ toString i ++ part ++ ".weight", shape) ∈ tensorTable c :=
    fun part weight shape hx hw => mem_encoder hi part ".weight" weight
      (List.mem_append_right _ (List.mem_map.mpr ⟨_, hx, rfl⟩)) hw
  obtain ⟨qkv, hqkv⟩ := linear_of_fits h
    (hmem ".qkv" "qkv.weight" [3 * c.hiddenSize, c.hiddenSize] (by simp) rfl) (hno _)
  obtain ⟨out, hout⟩ := linear_of_fits h
    (hmem ".out" "out.weight" [c.hiddenSize, c.hiddenSize] (by simp) rfl) (hno _)
  obtain ⟨wi, hwi⟩ := linear_of_fits h
    (hmem ".wi" "wi.weight" [2 * c.intermediateSize, c.hiddenSize] (by simp) rfl) (hno _)
  obtain ⟨wo, hwo⟩ := linear_of_fits h
    (hmem ".wo" "wo.weight" [c.hiddenSize, c.intermediateSize] (by simp) rfl) (hno _)
  obtain ⟨mlpNorm, hmlp⟩ := norm_of_fits h
    (hmem ".mlp_norm" "mlp_norm.weight" [c.hiddenSize] (by simp) rfl) (hno _) c.normEps
  simp only [encoderLayer, hqkv, hout, hwi, hwo, hmlp, ok_bind]
  split
  · next hfirst =>
    have hentry : (layerName "encoder." i "attn_norm.weight", [c.hiddenSize]) ∈
        encoderEntries c i := by
      refine List.mem_append_left _ ?_
      rw [if_pos hfirst]
      exact List.mem_singleton_self _
    obtain ⟨x, hx⟩ := norm_of_fits h
      (mem_encoder hi ".attn_norm" ".weight" "attn_norm.weight" hentry rfl) (hno _) c.normEps
    rw [hx]
    exact ⟨_, rfl⟩
  · exact ⟨_, rfl⟩

open Weights in
omit [Doubles F] in
theorem decisionLayer_of_fits {i : ℕ} (hi : i < c.decisionLayers) :
    ∃ x, decisionLayer c m i = .ok x := by
  have hmem : ∀ part suffix weight shape,
      (layerName "decision." i weight, shape) ∈ decisionEntries c i →
      "." ++ weight = part ++ suffix →
      ("decision." ++ toString i ++ part ++ suffix, shape) ∈ tensorTable c :=
    fun part suffix weight shape hx hw => mem_decision hi part suffix weight hx hw
  -- every part of a decision layer has a bias
  have hlinear : ∀ part weight bias rows cols,
      (layerName "decision." i weight, [rows, cols]) ∈ decisionEntries c i →
      (layerName "decision." i bias, [rows]) ∈ decisionEntries c i →
      "." ++ weight = part ++ ".weight" → "." ++ bias = part ++ ".bias" →
      ∃ x, linear m ("decision." ++ toString i ++ part) true = .ok x :=
    fun part weight bias rows cols hw hb hew heb => linear_of_fits h
      (hmem part ".weight" weight _ hw hew) fun _ => ⟨_, hmem part ".bias" bias _ hb heb⟩
  have hnorm : ∀ part weight bias n,
      (layerName "decision." i weight, [n]) ∈ decisionEntries c i →
      (layerName "decision." i bias, [n]) ∈ decisionEntries c i →
      "." ++ weight = part ++ ".weight" → "." ++ bias = part ++ ".bias" →
      ∃ x, norm m ("decision." ++ toString i ++ part) true c.decisionNormEps = .ok x :=
    fun part weight bias n hw hb hew heb => norm_of_fits h
      (hmem part ".weight" weight _ hw hew) (fun _ => ⟨_, hmem part ".bias" bias _ hb heb⟩) _
  obtain ⟨norm1, hnorm1⟩ := hnorm ".norm1" "norm1.weight" "norm1.bias" c.hiddenSize
    (by simp [decisionEntries]) (by simp [decisionEntries]) rfl rfl
  obtain ⟨norm2, hnorm2⟩ := hnorm ".norm2" "norm2.weight" "norm2.bias" c.hiddenSize
    (by simp [decisionEntries]) (by simp [decisionEntries]) rfl rfl
  obtain ⟨qkv, hqkv⟩ := hlinear ".qkv" "qkv.weight" "qkv.bias" (3 * c.hiddenSize) c.hiddenSize
    (by simp [decisionEntries]) (by simp [decisionEntries]) rfl rfl
  obtain ⟨out, hout⟩ := hlinear ".out" "out.weight" "out.bias" c.hiddenSize c.hiddenSize
    (by simp [decisionEntries]) (by simp [decisionEntries]) rfl rfl
  obtain ⟨linear1, hlinear1⟩ := hlinear ".linear1" "linear1.weight" "linear1.bias" c.decisionFf
    c.hiddenSize (by simp [decisionEntries]) (by simp [decisionEntries]) rfl rfl
  obtain ⟨linear2, hlinear2⟩ := hlinear ".linear2" "linear2.weight" "linear2.bias" c.hiddenSize
    c.decisionFf (by simp [decisionEntries]) (by simp [decisionEntries]) rfl rfl
  simp only [decisionLayer, hnorm1, hnorm2, hqkv, hout, hlinear1, hlinear2, ok_bind]
  exact ⟨_, rfl⟩

omit [Doubles F] h in
theorem mapM_of_forall {α β ε : Type} {f : α → Except ε β} {xs : List α}
    (hf : ∀ x ∈ xs, ∃ y, f x = .ok y) : ∃ ys, xs.mapM f = .ok ys := by
  induction xs with
  | nil => exact ⟨[], rfl⟩
  | cons x xs ih =>
    obtain ⟨y, hy⟩ := hf x List.mem_cons_self
    obtain ⟨ys, hys⟩ := ih fun z hz => hf z (List.mem_cons_of_mem x hz)
    exact ⟨y :: ys, by rw [List.mapM_cons, hy, hys]; rfl⟩

open Weights in
/-- Weights that fit the table of a validated configuration make a model. -/
theorem fromWeights_of_fits (hv : c.validate = .ok ()) (hsize : (tensorTable c).length = m.size)
    (k : Kernels F Tensor) (q : Kernels F QTensor) (bundle : Digest) (kind : BackendKind) :
    ∃ x, fromWeights k q c bundle kind m = .ok x := by
  have hexpected := (expectedTensors_eq_ok c).mpr ⟨hv, rfl⟩
  have hperm := expected_perm c hexpected
  have hcount : ¬(putAll ∅ (tensorTable c) : Shapes).size ≠ m.size := by
    rw [← hsize, ← hperm.length_eq, ExtTreeMap.length_toList]
    exact not_not.mpr rfl
  have hall : ((putAll ∅ (tensorTable c) : Shapes).toList.forM fun x => do
      let w ← okOr m[x.1]? (.invalid ("missing " ++ x.1))
      rejectIf (¬w.fits x.2) (.invalid ("shape/dtype: " ++ x.1)) : Result PUnit) = .ok () := by
    refine forM_eq_ok.mpr fun x hx => ?_
    obtain ⟨w, hw, hfits⟩ := h x (hperm.mem_iff.mp hx)
    rw [hw]
    exact rejectIf_eq_ok.mpr (not_not.mpr hfits)
  obtain ⟨layers, hlayers⟩ := mapM_of_forall fun i hi =>
    encoderLayer_of_fits h (List.mem_range.mp hi)
  obtain ⟨decision, hdecision⟩ := mapM_of_forall fun i hi =>
    decisionLayer_of_fits h (List.mem_range.mp hi)
  have hno : ∀ p, false = true → ∃ n, (p ++ ".bias", [n]) ∈ tensorTable c := fun _ hb => (nomatch hb)
  obtain ⟨embedding, hembedding⟩ := matrix_of_fits h
    (show ("embeddings.weight", [c.vocabSize, c.hiddenSize]) ∈ tensorTable c by
      simp [tensorTable, embeddingEntries])
  obtain ⟨embeddingNorm, hembeddingNorm⟩ := norm_of_fits h
    (show ("embeddings.norm" ++ ".weight", [c.hiddenSize]) ∈ tensorTable c by
      simp [tensorTable, embeddingEntries]) (hno _) c.normEps
  obtain ⟨finalNorm, hfinalNorm⟩ := norm_of_fits h
    (show ("final_norm" ++ ".weight", [c.hiddenSize]) ∈ tensorTable c by
      simp [tensorTable, embeddingEntries]) (hno _) c.normEps
  obtain ⟨qtype, hqtype⟩ := matrix_of_fits h
    (show ("qtype.weight", [c.qtypes, c.hiddenSize]) ∈ tensorTable c by simp [tensorTable])
  have hscorer : ∀ x ∈ scorerEntries c, x ∈ tensorTable c := fun x hx => List.mem_append_right _ hx
  obtain ⟨scorerNorm, hscorerNorm⟩ := norm_of_fits h
    (hscorer ("scorer.norm" ++ ".weight", [c.hiddenSize]) (by simp [scorerEntries]))
    (fun _ => ⟨_, hscorer ("scorer.norm" ++ ".bias", [c.hiddenSize]) (by simp [scorerEntries])⟩)
    c.scorerNormEps
  obtain ⟨scorerDense, hscorerDense⟩ := linear_of_fits h
    (hscorer ("scorer.dense" ++ ".weight", [c.hiddenSize, c.hiddenSize]) (by simp [scorerEntries]))
    (fun _ => ⟨_, hscorer ("scorer.dense" ++ ".bias", [c.hiddenSize]) (by simp [scorerEntries])⟩)
  obtain ⟨scorerOut, hscorerOut⟩ := linear_of_fits h
    (hscorer ("scorer.out" ++ ".weight", [1, c.hiddenSize]) (by simp [scorerEntries]))
    (fun _ => ⟨_, hscorer ("scorer.out" ++ ".bias", [1]) (by simp [scorerEntries])⟩)
  rw [fromWeights, hexpected, ok_bind, rejectIf_bind hcount]
  dsimp only
  rw [hall, ok_bind]
  split
  · next he => exact nomatch hlayers.symm.trans he
  · next he _ => exact nomatch hdecision.symm.trans he
  · rw [hembedding, hembeddingNorm, hfinalNorm, hqtype, hscorerNorm, hscorerDense, hscorerOut]
    simp only [ok_bind, dif_pos hv]
    exact ⟨_, rfl⟩

end Loading
end IcLaya
