import IcLaya.DecisionMath
import IcLaya.SchemaCompiler
import IcLaya.StagedRuns

/-!
# The model and its phases (`laya-candle/src/lib.rs`)

A model runs an encoder, a final norm, a decision head and a scorer, in two number formats. What a
layer computes is a parameter that can fail; what is modelled is the order of the phases: the
straight loop of `infer`, and the step that dispatches on the index of the next phase.
-/
namespace IcLaya
open Fallible StagedRuns

inductive Activation | relu | gelu deriving DecidableEq

structure ModelConfig (F : Type) where
  vocabSize : ℕ
  hiddenSize : ℕ
  layers : ℕ
  attentionHeads : ℕ
  intermediateSize : ℕ
  normEps : F
  globalEvery : ℕ
  localAttention : ℕ
  globalRopeTheta : F
  localRopeTheta : F
  firstLayerAttentionNorm : Bool
  decisionLayers : ℕ
  decisionHeads : ℕ
  decisionFf : ℕ
  decisionNormEps : F
  decisionNormFirst : Bool
  decisionActivation : Activation
  scorerNormEps : F
  qtypes : ℕ
  maskTokenId : UInt32
  deriving DecidableEq

section Config
variable {F : Type} [Doubles F]
open Doubles

def ModelConfig.validate (c : ModelConfig F) : Result Unit := do
  let h := c.hiddenSize
  rejectIf (h = 0 ∨ 2048 < h ∨ c.vocabSize < 5 ∨ 300000 < c.vocabSize ∨ c.layers = 0 ∨
    64 < c.layers ∨ c.attentionHeads = 0 ∨ h % c.attentionHeads ≠ 0 ∨
    h / c.attentionHeads % 2 ≠ 0 ∨ c.decisionHeads = 0 ∨ h % c.decisionHeads ≠ 0 ∨
    c.decisionLayers = 0 ∨ 4 < c.decisionLayers ∨ c.globalEvery = 0 ∨ c.localAttention = 0 ∨
    c.intermediateSize = 0 ∨ 16384 < c.intermediateSize ∨ c.decisionFf = 0 ∨
    16384 < c.decisionFf ∨ c.qtypes ≠ 3 ∨ c.vocabSize ≤ c.maskTokenId.toNat)
    (.invalid "unsupported architecture config")
  [c.normEps, c.decisionNormEps, c.scorerNormEps].forM fun v =>
    rejectIf (¬isFinite v ∨ le v (lit 0) ∨ ¬le v (lit 1)) .numeric
  [c.globalRopeTheta, c.localRopeTheta].forM fun v =>
    rejectIf (¬isFinite v ∨ le v (lit 1) ∨ ¬le v (lit 1000000000000)) .numeric

/-- The sizes of a validated configuration. -/
theorem ModelConfig.sizes_of_validate {c : ModelConfig F} (h : c.validate = .ok ()) :
    (0 < c.hiddenSize ∧ c.hiddenSize ≤ 2048) ∧ (0 < c.layers ∧ c.layers ≤ 64) ∧
      (0 < c.decisionLayers ∧ c.decisionLayers ≤ 4) ∧ c.vocabSize ≤ 300000 ∧ c.qtypes = 3 := by
  simp only [validate, bind_eq_ok, rejectIf_eq_ok] at h
  obtain ⟨_, h, _⟩ := h
  simp only [not_or] at h
  omega

end Config

/-- What a tensor kernel returns; a failure is its text. -/
abbrev CResult (α : Type) := Except String α

/-- Error::ModelUnavailable(e.to_string()). -/
def modelError {α : Type} (x : CResult α) : Result α := x.mapError .modelUnavailable

@[simp] theorem modelError_eq_ok {α : Type} {x : CResult α} {a : α} :
    modelError x = .ok a ↔ x = .ok a := by
  cases x <;> simp [modelError, Except.mapError]

/-- A dense tensor of singles, each its bit pattern. -/
structure Tensor where
  dims : List ℕ
  values : List UInt32
  length_eq : values.length = dims.prod
  deriving DecidableEq

theorem Tensor.ext {a b : Tensor} (hd : a.dims = b.dims) (hv : a.values = b.values) : a = b := by
  cases a
  cases b
  cases hd
  cases hv
  rfl

/-- `Tensor::from_vec`: the values have to fill the dimensions. -/
def Tensor.fromVec (values : List UInt32) (dims : List ℕ) : CResult Tensor :=
  if h : values.length = dims.prod then .ok ⟨dims, values, h⟩ else .error "shape mismatch"

theorem Tensor.fromVec_of_length {values : List UInt32} {dims : List ℕ}
    (h : values.length = dims.prod) : fromVec values dims = .ok ⟨dims, values, h⟩ := dif_pos h

theorem Tensor.fromVec_eq_ok {values : List UInt32} {dims : List ℕ} {x : Tensor} :
    fromVec values dims = .ok x ↔ x.dims = dims ∧ x.values = values := by
  constructor
  · intro h
    rw [fromVec] at h
    split at h
    · cases h
      exact ⟨rfl, rfl⟩
    · cases h
  · rintro ⟨rfl, rfl⟩
    exact fromVec_of_length x.length_eq

/-- Signed bytes with one scale for each group of a row. -/
structure QTensor where
  rows : ℕ
  cols : ℕ
  values : List Int8
  scales : List UInt32
  groups : ℕ
  deriving DecidableEq

/-- The computations of one number format. The last decision layer is given the marker rows. -/
structure Phases (T : Type) where
  embed : List UInt32 → CResult T
  layers : List (T → CResult T)
  final : UInt32 → T → CResult T
  decision : List (T → Option (List UInt32) → CResult T)
  score : T → CResult T
  read : T → CResult (List UInt32)

structure Session (Digest T : Type) where
  bundle : Digest
  input : TokenInput
  hidden : T
  next : ℕ
  deriving DecidableEq

namespace Phases
variable {Digest T : Type} (p : Phases T)

/-- `inference_steps`. -/
def steps : ℕ := p.layers.length + p.decision.length + 2

/-- The markers the decision layer number `i` is given. -/
def markersFor (input : TokenInput) (i : ℕ) : Option (List UInt32) :=
  if i + 1 = p.decision.length then some input.markers else none

/-- The phase number `n`, for `n < steps`. -/
def phase (input : TokenInput) (n : ℕ) (x : T) : CResult T :=
  match p.layers[n]? with
  | some layer => layer x
  | none =>
    if n = p.layers.length then p.final input.qtypeId x
    else
      let i := n - p.layers.length - 1
      match p.decision[i]? with
      | some layer => layer x (p.markersFor input i)
      | none => p.score x

/-- `forward_tensor`. -/
def forward (input : TokenInput) : CResult T := do
  let x ← p.embed input.inputIds
  let x ← p.layers.foldlM (fun x layer => layer x) x
  let x ← p.final input.qtypeId x
  let x ← p.decision.zipIdx.foldlM (fun x l => l.1 x (p.markersFor input l.2)) x
  p.score x

/-- The logits read off the last tensor; all of them are finite. -/
def logits (x : T) : Result (List UInt32) := do
  let values ← modelError (p.read x)
  rejectIf (¬values.all singleFinite) .numeric
  pure values

/-- The logits after the phase number `n`, if it is the last one. -/
def lastLogits (n : ℕ) (x : T) : Result (Option (List UInt32)) :=
  if n = p.steps - 1 then some <$> p.logits x else pure none

/-- One phase of a session. -/
def step [DecidableEq Digest] (bundle : Digest) (s : Session Digest T) :
    Result (Session Digest T × Option (List UInt32)) := do
  rejectIf (s.bundle ≠ bundle) .bindingMismatch
  rejectIf (p.steps ≤ s.next) .transition
  let hidden ← modelError (p.phase s.input s.next s.hidden)
  let logits ← p.lastLogits s.next hidden
  pure ({ s with hidden := hidden, next := s.next + 1 }, logits)

/-- The phases in order, after the embedding, are the straight loop. -/
theorem stages_eq_forward (input : TokenInput) :
    (p.embed input.inputIds >>= stages (p.phase input) 0 p.steps) = p.forward input := by
  unfold forward
  congr 1
  funext x
  have hlayers : ∀ y, stages (p.phase input) 0 p.layers.length y =
      p.layers.foldlM (fun x layer => layer x) y := by
    refine stages_list fun i g hi => ?_
    funext y
    rw [Nat.zero_add, phase, hi]
  have hfinal : p.phase input p.layers.length = p.final input.qtypeId := by
    funext y
    rw [phase, List.getElem?_eq_none (Nat.le_refl _)]
    exact if_pos rfl
  have hdecision : ∀ y, stages (p.phase input) (p.layers.length + 1) p.decision.length y =
      p.decision.zipIdx.foldlM (fun x l => l.1 x (p.markersFor input l.2)) y := by
    intro y
    have hlist : ∀ i g, (p.decision.zipIdx.map fun l x => l.1 x (p.markersFor input l.2))[i]? =
        some g → p.phase input (p.layers.length + 1 + i) = g := by
      intro i g hi
      rw [List.getElem?_map, List.getElem?_zipIdx, Option.map_map] at hi
      obtain ⟨layer, hlayer, rfl⟩ := Option.map_eq_some_iff.mp hi
      have hindex : p.layers.length + 1 + i - p.layers.length - 1 = i := by omega
      funext x
      rw [phase, List.getElem?_eq_none (by omega)]
      dsimp only
      rw [if_neg (by omega), hindex, hlayer]
      simp
    have hloop := stages_list hlist y
    rwa [List.length_map, List.length_zipIdx, List.foldlM_map] at hloop
  have hscore : p.phase input (p.layers.length + 1 + p.decision.length) = p.score := by
    funext y
    rw [phase, List.getElem?_eq_none (by omega)]
    dsimp only
    rw [if_neg (by omega), List.getElem?_eq_none (by omega)]
  have hsteps : p.steps = p.layers.length + (1 + (p.decision.length + 1)) := by
    unfold steps; omega
  rw [hsteps, stages_add, hlayers, Nat.zero_add]
  congr 1
  funext y
  rw [stages_add, stages_one, hfinal]
  congr 1
  funext z
  rw [stages_add, hdecision]
  congr 1
  funext w
  rw [stages_one, hscore]

section Steps
variable [DecidableEq Digest] {p} {bundle : Digest} {s s' : Session Digest T}
  {l l' : Option (List UInt32)}

/-- What a step returns: the logits after the last phase and nothing before it. -/
def Returned (p : Phases T) (x : T) (completed : ℕ) (l : Option (List UInt32)) : Prop :=
  if completed = p.steps then ∃ v, l = some v ∧ p.logits x = .ok v else l = none

theorem returned_none {n : ℕ} {x : T} (h : n ≠ p.steps) : p.Returned x n none := by
  rw [Returned, if_neg h]

theorem lastLogits_eq_ok {n : ℕ} {x : T} (hn : n < p.steps) :
    p.lastLogits n x = .ok l ↔ p.Returned x (n + 1) l := by
  unfold lastLogits Returned
  by_cases he : n + 1 = p.steps
  · rw [if_pos he, if_pos (by omega)]
    cases hv : p.logits x with
    | error e => simp
    | ok v => simp [eq_comm]
  · rw [if_neg he, if_neg (by omega), pure_eq_ok, eq_comm]

theorem step_eq_ok : p.step bundle s = .ok (s', l) ↔
    s.bundle = bundle ∧ s.next < p.steps ∧ p.phase s.input s.next s.hidden = .ok s'.hidden ∧
      s' = { s with hidden := s'.hidden, next := s.next + 1 } ∧
      p.Returned s'.hidden s'.next l := by
  simp only [step, bind_eq_ok, rejectIf_eq_ok, not_not, not_le, modelError_eq_ok, pure_eq_ok,
    Prod.mk.injEq]
  constructor
  · rintro ⟨_, hb, _, hn, x, hx, l₀, hl, rfl, rfl⟩
    exact ⟨hb, hn, hx, rfl, (lastLogits_eq_ok hn).mp hl⟩
  · rintro ⟨hb, hn, hx, hs, hl⟩
    rw [hs] at hl
    exact ⟨(), hb, (), hn, s'.hidden, hx, l, (lastLogits_eq_ok hn).mpr hl, hs.symm, rfl⟩

/-- The loop that steps a session. -/
theorem times_step_eq_ok {w : ℕ} (hw : 0 < w) :
    times (fun x => p.step bundle x.1) w (s, l) = .ok (s', l') ↔
      s.bundle = bundle ∧ s.next + w ≤ p.steps ∧
        stages (p.phase s.input) s.next w s.hidden = .ok s'.hidden ∧
        s' = { s with hidden := s'.hidden, next := s.next + w } ∧
        p.Returned s'.hidden s'.next l' := by
  induction w generalizing s l with
  | zero => exact absurd hw (Nat.lt_irrefl 0)
  | succ w ih =>
    cases w with
    | zero =>
      have hone : times (fun x : Session Digest T × Option (List UInt32) => p.step bundle x.1) 1
          (s, l) = p.step bundle s := by
        rw [times]; cases p.step bundle s <;> rfl
      rw [hone, step_eq_ok, stages_one]
      exact Iff.rfl
    | succ w =>
      rw [times, bind_eq_ok, stages, bind_eq_ok]
      constructor
      · rintro ⟨⟨s₁, l₁⟩, h₁, h₂⟩
        obtain ⟨hb, hn, hx, hs₁, -⟩ := step_eq_ok.mp h₁
        obtain ⟨-, hle, hst, hs', hl⟩ := (ih (Nat.succ_pos w)).mp h₂
        have hin : s₁.input = s.input := by rw [hs₁]
        have hnext : s₁.next = s.next + 1 := by rw [hs₁]
        rw [hnext] at hle
        rw [hin, hnext] at hst
        refine ⟨hb, by omega, ⟨s₁.hidden, hx, hst⟩, ?_, hl⟩
        rw [hs', hs₁]
        congr 1
        dsimp only
        omega
      · rintro ⟨hb, hle, ⟨x, hx, hst⟩, hs', hl⟩
        have hbefore : s.next + 1 ≠ p.steps := by omega
        have hafter : s.next + 1 + (w + 1) ≤ p.steps := by omega
        refine ⟨({ s with hidden := x, next := s.next + 1 }, none),
          step_eq_ok.mpr ⟨hb, ?_, hx, rfl, returned_none hbefore⟩,
          (ih (Nat.succ_pos w)).mpr ⟨hb, hafter, hst, ?_, hl⟩⟩
        · show s.next < p.steps
          omega
        · rw [hs']
          congr 1
          dsimp only
          omega

end Steps

end Phases

abbrev InferenceSession (Digest : Type) := Session Digest Tensor
abbrev QuantizedSession (Digest : Type) := Session Digest QTensor

structure LayaModel (F Digest : Type) [Doubles F] where
  config : ModelConfig F
  bundle : Digest
  backendKind : BackendKind
  f32 : Phases Tensor
  q8 : Phases QTensor
  valid : config.validate = .ok ()
  f32_layers : f32.layers.length = config.layers
  f32_decision : f32.decision.length = config.decisionLayers
  q8_layers : q8.layers.length = config.layers
  q8_decision : q8.decision.length = config.decisionLayers

namespace LayaModel
variable {F Digest : Type} [Doubles F] (m : LayaModel F Digest)

def validateInput (input : TokenInput) : Result Unit := do
  rejectIf (input.inputIds = [] ∨ maxTokens < input.inputIds.length ∨
    ¬(2 ≤ input.markers.length ∧ input.markers.length ≤ 7) ∨
    m.config.qtypes ≤ input.qtypeId.toNat ∨
    ∃ v ∈ input.inputIds, m.config.vocabSize ≤ v.toNat) (.invalid "token input")
  rejectIf (¬markersIncrease input.inputIds m.config.maskTokenId none input.markers)
    (.invalid "option markers")

def inferenceSteps : ℕ := m.config.layers + m.config.decisionLayers + 2

theorem f32_steps : m.f32.steps = m.inferenceSteps := by
  rw [Phases.steps, m.f32_layers, m.f32_decision]; rfl

theorem q8_steps : m.q8.steps = m.inferenceSteps := by
  rw [Phases.steps, m.q8_layers, m.q8_decision]; rfl

theorem inferenceSteps_le : 2 < m.inferenceSteps ∧ m.inferenceSteps ≤ 70 := by
  obtain ⟨-, hl, hd, -⟩ := ModelConfig.sizes_of_validate m.valid
  unfold inferenceSteps
  omega

/-- A fresh session in one number format. -/
def start {T : Type} (p : Phases T) (input : TokenInput) : Result (Session Digest T) := do
  m.validateInput input
  let hidden ← modelError (p.embed input.inputIds)
  pure ⟨m.bundle, input, hidden, 0⟩

def beginInference (input : TokenInput) : Result (InferenceSession Digest) := m.start m.f32 input
def beginQuantized (input : TokenInput) : Result (QuantizedSession Digest) := m.start m.q8 input

def stepInference [DecidableEq Digest] (s : InferenceSession Digest) :
    Result (InferenceSession Digest × Option (List UInt32)) := m.f32.step m.bundle s

def stepQuantized [DecidableEq Digest] (s : QuantizedSession Digest) :
    Result (QuantizedSession Digest × Option (List UInt32)) := m.q8.step m.bundle s

def infer (input : TokenInput) : Result (List UInt32) := do
  m.validateInput input
  let x ← modelError (m.f32.forward input)
  m.f32.logits x

section Runs
variable {m} {input : TokenInput} {v : List UInt32}

theorem start_eq_ok {T : Type} {p : Phases T} {s : Session Digest T} :
    m.start p input = .ok s ↔ m.validateInput input = .ok () ∧
      p.embed input.inputIds = .ok s.hidden ∧ s = ⟨m.bundle, input, s.hidden, 0⟩ := by
  simp only [start, bind_eq_ok, modelError_eq_ok, pure_eq_ok]
  constructor
  · rintro ⟨_, hv, x, hx, rfl⟩
    exact ⟨hv, hx, rfl⟩
  · rintro ⟨hv, hx, hs⟩
    exact ⟨(), hv, s.hidden, hx, hs.symm⟩

/-- The straight loop is all the phases of a session, in order. -/
theorem infer_eq_ok {s : InferenceSession Digest} (h : m.beginInference input = .ok s) :
    m.infer input = .ok v ↔
      ∃ x, stages (m.f32.phase input) 0 m.inferenceSteps s.hidden = .ok x ∧
        m.f32.logits x = .ok v := by
  obtain ⟨hv, hx, -⟩ := start_eq_ok.mp h
  have hforward : m.f32.forward input =
      stages (m.f32.phase input) 0 m.inferenceSteps s.hidden := by
    rw [← m.f32.stages_eq_forward, hx, ok_bind, m.f32_steps]
  simp only [infer, hv, ok_bind, hforward, bind_eq_ok, modelError_eq_ok]

end Runs

/-! A model whose phases keep zeros: one encoder layer, one decision layer. -/
section Zeros

def Zeros.config : ModelConfig ℚ :=
  ⟨5, 2, 1, 1, 1, 1 / 100000, 1, 1, 160000, 10000, false, 1, 1, 1, 1 / 100000, true, .gelu,
    1 / 100000, 3, 4⟩

def Zeros.tensor (rows : ℕ) : Tensor := ⟨[rows, 2], List.replicate (rows * 2) 0, by simp⟩

def Zeros.qtensor (rows : ℕ) : QTensor :=
  ⟨rows, 2, List.replicate (rows * 2) 0, List.replicate rows 0x00800000, 1⟩

/-- Phases that only look at the number of rows. -/
def Zeros.phases {T : Type} (zeros : ℕ → T) (rows : T → ℕ) : Phases T where
  embed := fun ids => .ok (zeros ids.length)
  layers := [fun x => .ok x]
  final := fun _ x => .ok x
  decision := [fun x markers => .ok (match markers with | some ms => zeros ms.length | none => x)]
  score := fun x => .ok x
  read := fun x => .ok (List.replicate (rows x) 0)

def zeros {Digest : Type} (bundle : Digest) : LayaModel ℚ Digest where
  config := Zeros.config
  bundle := bundle
  backendKind := .syntheticFixture
  f32 := Zeros.phases Zeros.tensor (fun x => x.dims.headD 0)
  q8 := Zeros.phases Zeros.qtensor QTensor.rows
  valid := by decide +kernel
  f32_layers := rfl
  f32_decision := rfl
  q8_layers := rfl
  q8_decision := rfl

def Zeros.input : TokenInput := ⟨[4, 4], [0, 1], 0⟩

end Zeros

end LayaModel

end IcLaya
