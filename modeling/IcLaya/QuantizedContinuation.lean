import IcLaya.ContinuationCodec
import IcLaya.SingleArithmetic

/-!
# Quantized sessions and their continuations (`quantized.rs`, `int8_quant.rs`)

Every phase before the last ends by quantizing its rows of singles, one scale for each row. A
session is exported with the scales as they are; import bounds them by `f32::MAX / 128`, and the
quantizer goes up to `f32::MAX / 127`.
-/
namespace IcLaya
open Fallible PanickingCode WordStreams SingleArithmetic StagedRuns

/-- `f32::MIN_POSITIVE`, `f32::MAX` and `f32::MAX / 128.`, as bits. -/
def minPositive : UInt32 := 0x00800000
def maxSingle : UInt32 := 0x7f7fffff
def maxOver128 : UInt32 := UInt32.ofNat (roundRatio (units (magnitude maxSingle)) 128)

/-- `(v / scale).round().clamp(-127., 127.) as i8`. -/
def quantizeValue (scale v : UInt32) : Int8 :=
  let q := min (roundAway (quotient (magnitude v) (magnitude scale))) 127
  if negative v then -Int8.ofNat q else Int8.ofNat q

/-- The scale of a row: its peak over 127, bounded below. -/
def rowScale (row : List UInt32) : UInt32 :=
  let peak := row.foldl (fun a v => max a (magnitude v)) 0
  if peak = 0 then 0x3f800000
  else UInt32.ofNat (max (roundRatio (units peak) 127) (magnitude minPositive))

/-- `int8::quantize_row`. -/
def quantizeRow (row : List UInt32) : CResult (UInt32 × List Int8) := do
  rejectIf (∃ v ∈ row, ¬singleFinite v) "nonfinite int8 activation"
  pure (rowScale row, row.map (quantizeValue (rowScale row)))

/-- Rows of singles, before they are quantized. -/
structure FloatRows where
  cols : ℕ
  rows : List (List UInt32)

/-- `set_row` on every row of a tensor of zeros. -/
def FloatRows.quantize (x : FloatRows) : CResult QTensor := do
  let rows ← x.rows.mapM fun row => do
    rejectIf (row.length ≠ x.cols) "q8 row shape"
    quantizeRow row
  pure ⟨x.rows.length, x.cols, (rows.map Prod.snd).flatten, rows.map Prod.fst, 1⟩

/-- What the phases compute before they quantize. The scorer is not continued from. -/
structure Int8Kernels where
  embed : List UInt32 → CResult FloatRows
  layers : List (QTensor → CResult FloatRows)
  final : UInt32 → QTensor → CResult FloatRows
  decision : List (QTensor → Option (List UInt32) → CResult FloatRows)
  score : QTensor → CResult QTensor
  read : QTensor → CResult (List UInt32)

def Int8Kernels.phases (k : Int8Kernels) : Phases QTensor where
  embed := fun ids => k.embed ids >>= FloatRows.quantize
  layers := k.layers.map fun layer x => layer x >>= FloatRows.quantize
  final := fun qtype x => k.final qtype x >>= FloatRows.quantize
  decision := k.decision.map fun layer x markers => layer x markers >>= FloatRows.quantize
  score := k.score
  read := k.read

def quantizedRevision : UInt32 := 2
def maxQuantizedBytes : ℕ := 60 + 4 * (maxTokens + 7 + maxTokens) + maxTokens * 2048
/-- `b"LAYI"`. -/
def layi : List UInt8 := [0x4c, 0x41, 0x59, 0x49]

/-- A scale import refuses. -/
def scaleRejected (v : UInt32) : Prop :=
  ¬singleFinite v ∨ order v ≤ 0 ∨ order maxOver128 < order v

instance (v : UInt32) : Decidable (scaleRejected v) := by unfold scaleRejected; infer_instance

section Codec
variable {F : Type} [Doubles F] (t : Target) (m : LayaModel F Digest32)

def LayaModel.q8Rows (input : TokenInput) (next : ℕ) : Result ℕ := do
  rejectIf (m.inferenceSteps ≤ next) .transition
  pure (if next = m.inferenceSteps - 1 then input.markers.length else input.inputIds.length)

def LayaModel.exportQuantized (s : QuantizedSession Digest32) : Code Error (List UInt8) := do
  reject (s.bundle ≠ m.bundle) .bindingMismatch
  call (m.validateInput s.input)
  let rows ← call (m.q8Rows s.input s.next)
  reject (s.hidden.rows ≠ rows ∨ s.hidden.cols ≠ m.config.hiddenSize ∨ s.hidden.groups ≠ 1)
    (.invalid "q8 continuation shape")
  -- the capacity of the buffer
  let words ← add t s.input.inputIds.length s.input.markers.length
  let words ← add t words rows
  let size ← mul t 4 words
  let size ← add t headerBytes size
  let _ ← add t size s.hidden.values.length
  pure ((StateHeader.of s.next s.input).bytes layi 1 quantizedRevision m.bundle ++
    le32s (s.input.inputIds ++ s.input.markers) ++ le32s s.hidden.scales ++
    s.hidden.values.map Int8.toUInt8)

def LayaModel.importQuantized (bytes : List UInt8) : Code Error (QuantizedSession Digest32) := do
  reject (maxQuantizedBytes < bytes.length) .tooLong
  let h ← readHeader t layi 1 quantizedRevision m.bundle "q8 continuation header" bytes
  let next := h.next.toNat
  let tokens := h.tokens.toNat
  let markers := h.markers.toNat
  reject (¬(1 ≤ tokens ∧ tokens ≤ maxTokens) ∨ ¬(2 ≤ markers ∧ markers ≤ 7))
    (.invalid "q8 input lengths")
  let last ← sub m.inferenceSteps 1
  let rows := if next = last then markers else tokens
  let start ← inputEnd t tokens markers
  let size ← mul t 4 rows
  let dataStart ← add t start size
  let size ← mul t rows m.config.hiddenSize
  let expected ← add t dataStart size
  reject (bytes.length ≠ expected) (.invalid "q8 continuation length")
  let input ← readInput t h bytes
  call (m.validateInput input)
  let _ ← call (m.q8Rows input next)
  let chunks ← slice bytes start dataStart
  let scales ← (chunksExact 4 chunks).mapM fromLeBytes
  reject (∃ v ∈ scales, scaleRejected v) .numeric
  let values ← slice bytes dataStart bytes.length
  pure ⟨m.bundle, input, ⟨rows, m.config.hiddenSize, values.map UInt8.toInt8, scales, 1⟩, next⟩

end Codec

section Scales

theorem singleFinite_iff {v : UInt32} : singleFinite v ↔ magnitude v < 0x7f800000 := by
  have hexponent : ((v >>> 23) &&& 0xff).toNat = v.toNat / 2 ^ 23 % 2 ^ 8 := by
    rw [UInt32.toNat_and, UInt32.toNat_shiftRight]
    show v.toNat >>> 23 &&& 2 ^ 8 - 1 = _
    rw [Nat.and_two_pow_sub_one_eq_mod, Nat.shiftRight_eq_div_pow]
  have hlt := v.toNat_lt
  rw [singleFinite, bne_iff_ne, Ne, ← UInt32.toNat_inj, hexponent, magnitude]
  show ¬_ = 255 ↔ _
  omega

/-- The bits of a positive number, by their value. -/
theorem order_ofNat {n : ℕ} (h : n < 0x7f800000) :
    singleFinite (UInt32.ofNat n) ∧ order (UInt32.ofNat n) = n := by
  have hn : (UInt32.ofNat n).toNat = n := by
    rw [UInt32.toNat_ofNat']
    exact Nat.mod_eq_of_lt (by omega)
  have hm : magnitude (UInt32.ofNat n) = n := by
    rw [magnitude, hn]
    exact Nat.mod_eq_of_lt (by omega)
  have hneg : negative (UInt32.ofNat n) = false := by
    rw [negative, hn]
    exact decide_eq_false (by omega)
  exact ⟨singleFinite_iff.mpr (by rw [hm]; exact h), by rw [order, hneg, hm]; rfl⟩

private theorem peak_lt {row : List UInt32} {a : ℕ} (ha : a < 0x7f800000)
    (h : ∀ v ∈ row, singleFinite v) :
    row.foldl (fun a v => max a (magnitude v)) a < 0x7f800000 := by
  induction row generalizing a with
  | nil => exact ha
  | cons v row ih =>
    exact ih (max_lt ha (singleFinite_iff.mp (h v List.mem_cons_self)))
      fun w hw => h w (List.mem_cons_of_mem v hw)

/-- The scale of a finite row is a positive number. -/
theorem rowScale_positive {row : List UInt32} (h : ∀ v ∈ row, singleFinite v) :
    singleFinite (rowScale row) ∧ 0 < order (rowScale row) := by
  have hpeak := peak_lt (by norm_num : 0 < 0x7f800000) h
  unfold rowScale
  generalize row.foldl (fun a v => max a (magnitude v)) 0 = peak at hpeak
  dsimp only
  split
  · decide
  · have hquotient : units peak / 127 < 2 ^ (247 + 24) := by
      rw [Nat.div_lt_iff_lt_mul (by omega), Nat.pow_add]
      have hu := units_lt hpeak
      have hp : (2 : ℕ) ^ 253 = 2 ^ 247 * 2 ^ 6 := Nat.pow_add 2 247 6
      rw [hp] at hu
      generalize 2 ^ 247 = x at hu ⊢
      omega
    have hround := roundRatio_le hquotient
    have hmin : magnitude minPositive = 0x00800000 := by decide
    obtain ⟨hf, ho⟩ := order_ofNat (n := max (roundRatio (units peak) 127) (magnitude minPositive))
      (by omega)
    exact ⟨hf, by omega⟩

end Scales

/-- What the quantizer makes of a tensor: one positive scale for each row, and all the values. -/
structure QTensor.Quantized (q : QTensor) : Prop where
  groups : q.groups = 1
  values : q.values.length = q.rows * q.cols
  scales : q.scales.length = q.rows
  positive : ∀ v ∈ q.scales, singleFinite v ∧ 0 < order v

section Quantizing

private theorem rows_quantized {cols : ℕ} {rows : List (List UInt32)}
    {qs : List (UInt32 × List Int8)}
    (h : (rows.mapM fun row => do
      rejectIf (row.length ≠ cols) "q8 row shape"
      quantizeRow row) = .ok qs) :
    qs.length = rows.length ∧ ((qs.map Prod.snd).flatten).length = rows.length * cols ∧
      ∀ v ∈ qs.map Prod.fst, singleFinite v ∧ 0 < order v := by
  induction rows generalizing qs with
  | nil =>
    cases h
    exact ⟨rfl, by simp, fun v hv => nomatch hv⟩
  | cons row rows ih =>
    simp only [List.mapM_cons, bind_eq_ok, rejectIf_eq_ok, not_not, pure_eq_ok, quantizeRow,
      not_exists, not_and] at h
    obtain ⟨q, ⟨_, hcols, _, hfinite, rfl⟩, qs', hqs', rfl⟩ := h
    obtain ⟨hlength, hvalues, hscales⟩ := ih hqs'
    refine ⟨by rw [List.length_cons, hlength, List.length_cons], ?_, ?_⟩
    · rw [List.map_cons, List.flatten_cons, List.length_append, hvalues, List.length_map, hcols,
        List.length_cons, Nat.add_mul, Nat.one_mul, Nat.add_comm]
    · rw [List.map_cons, List.forall_mem_cons]
      exact ⟨rowScale_positive hfinite, hscales⟩

theorem FloatRows.quantized {x : FloatRows} {q : QTensor} (h : x.quantize = .ok q) :
    q.Quantized := by
  simp only [quantize, bind_eq_ok, pure_eq_ok] at h
  obtain ⟨qs, hqs, rfl⟩ := h
  obtain ⟨hlength, hvalues, hscales⟩ := rows_quantized hqs
  exact ⟨rfl, hvalues, by rw [List.length_map, hlength], hscales⟩

variable {k : Int8Kernels} {input : TokenInput} {x y : QTensor}

/-- Every phase but the scorer quantizes. -/
theorem Int8Kernels.quantized_phase {n : ℕ} (hn : n + 1 < k.phases.steps)
    (h : k.phases.phase input n x = .ok y) : y.Quantized := by
  have hquantizes : ∀ {z : CResult FloatRows}, (z >>= FloatRows.quantize) = .ok y →
      y.Quantized := by
    intro z hz
    obtain ⟨rows, -, hrows⟩ := bind_eq_ok.mp hz
    exact FloatRows.quantized hrows
  have hlayers : k.phases.layers.length = k.layers.length := List.length_map _
  have hdecision : k.phases.decision.length = k.decision.length := List.length_map _
  unfold Phases.phase at h
  cases hl : k.phases.layers[n]? with
  | some layer =>
    rw [hl] at h
    obtain ⟨f, -, rfl⟩ := List.mem_map.mp (List.mem_of_getElem? hl)
    exact hquantizes h
  | none =>
    rw [hl] at h
    have hge : k.phases.layers.length ≤ n := List.getElem?_eq_none_iff.mp hl
    dsimp only at h
    by_cases hf : n = k.phases.layers.length
    · rw [if_pos hf] at h
      exact hquantizes h
    · rw [if_neg hf] at h
      unfold Phases.steps at hn
      cases hd : k.phases.decision[n - k.phases.layers.length - 1]? with
      | some layer =>
        rw [hd] at h
        obtain ⟨f, -, rfl⟩ := List.mem_map.mp (List.mem_of_getElem? hd)
        exact hquantizes h
      | none =>
        have hle := List.getElem?_eq_none_iff.mp hd
        omega

variable {F : Type} [Doubles F] {m : LayaModel F Digest32} {s₀ s : QuantizedSession Digest32}
  {l : Option (List UInt32)} {n : ℕ}

/-- A session that is taken on from its start. -/
theorem LayaModel.quantized_session (hk : m.q8 = k.phases) (h₀ : m.beginQuantized input = .ok s₀)
    (h : times (fun x => m.stepQuantized x.1) n (s₀, none) = .ok (s, l)) :
    s.bundle = m.bundle ∧ s.input = input ∧ m.validateInput input = .ok () ∧
      (s.next < m.inferenceSteps → s.hidden.Quantized) := by
  obtain ⟨hv, hembed, hs₀⟩ := start_eq_ok.mp h₀
  have hbundle : s₀.bundle = m.bundle := by rw [hs₀]
  have hinput : s₀.input = input := by rw [hs₀]
  have hzero : s₀.next = 0 := by rw [hs₀]
  cases n with
  | zero =>
    cases h
    refine ⟨hbundle, hinput, hv, fun _ => ?_⟩
    rw [hk] at hembed
    obtain ⟨rows, -, hrows⟩ := bind_eq_ok.mp hembed
    exact FloatRows.quantized hrows
  | succ n =>
    obtain ⟨-, hle, hstages, hs, -⟩ := (Phases.times_step_eq_ok (Nat.succ_pos n)).mp h
    have hnext : s.next = n + 1 := by rw [hs, hzero, Nat.zero_add]
    refine ⟨by rw [hs]; exact hbundle, by rw [hs]; exact hinput, hv, fun hlt => ?_⟩
    rw [hzero, Nat.succ_eq_add_one, stages_add, bind_eq_ok] at hstages
    obtain ⟨z, -, hlast⟩ := hstages
    rw [stages_one, hk, Nat.zero_add] at hlast
    refine Int8Kernels.quantized_phase ?_ hlast
    rw [← hk, m.q8_steps]
    omega

end Quantizing

section Layi
variable {F : Type} [Doubles F] {t : Target} {m : LayaModel F Digest32}
  {s : QuantizedSession Digest32} {bytes : List UInt8} {h : StateHeader}

/-- A session whose phase is still to come and whose tensor has that phase's shape. -/
structure LayaModel.InPhase (m : LayaModel F Digest32) (s : QuantizedSession Digest32) : Prop where
  next : s.next < m.inferenceSteps
  rows : s.hidden.rows = m.rowsAt s.input.inputIds.length s.input.markers.length s.next
  cols : s.hidden.cols = m.config.hiddenSize
  groups : s.hidden.groups = 1

theorem LayaModel.q8Rows_of_lt {input : TokenInput} {next : ℕ} (h : next < m.inferenceSteps) :
    m.q8Rows input next = .ok (m.rowsAt input.inputIds.length input.markers.length next) := by
  rw [q8Rows, rejectIf_bind (Nat.not_le.mpr h)]
  rfl

/-- What export writes, and when, for tensors that are filled. -/
theorem LayaModel.exportQuantized_eq_ok
    (hvalues : s.hidden.values.length = s.hidden.rows * s.hidden.cols) :
    m.exportQuantized t s = .ok bytes ↔
      s.bundle = m.bundle ∧ m.validateInput s.input = .ok () ∧ m.InPhase s ∧
        bytes = (StateHeader.of s.next s.input).bytes layi 1 quantizedRevision m.bundle ++
          le32s (s.input.inputIds ++ s.input.markers) ++ le32s s.hidden.scales ++
          s.hidden.values.map Int8.toUInt8 := by
  simp only [exportQuantized, q8Rows, bind_eq_ok, reject_eq_ok, call_eq_ok, rejectIf_eq_ok, not_not,
    not_le, not_or, pure_eq_ok]
  constructor
  · rintro ⟨_, hb, _, hv, _, ⟨_, hn, rfl⟩, _, ⟨hrows, hcols, hgroups⟩, _, -, _, -, _, -, _, -, _, -,
      rfl⟩
    exact ⟨hb, hv, ⟨hn, hrows, hcols, hgroups⟩, rfl⟩
  · rintro ⟨hb, hv, ⟨hn, hrows, hcols, hgroups⟩, rfl⟩
    have hlen := lengths_of_validateInput hv
    have hword := t.le_words
    have hle := elements_le (m := m) s.next hlen.1.2 hlen.2.2
    have hr : m.rowsAt s.input.inputIds.length s.input.markers.length s.next ≤ 128 := by
      unfold maxTokens at hlen
      unfold rowsAt
      split <;> omega
    have hheader : headerBytes = 60 := rfl
    rw [hrows, hcols] at hvalues
    rw [← hvalues] at hle
    unfold maxTokens at *
    unfold rowsAt at hr hrows
    refine ⟨(), hb, (), hv, _, ⟨(), hn, rfl⟩, (), ⟨hrows, hcols, hgroups⟩, _,
      add_of_lt (by omega), _, add_of_lt ?_, _, mul_of_lt ?_, _, add_of_lt ?_, _, add_of_lt ?_, rfl⟩
    all_goals omega

/-- The bytes of a quantized state whose length is the one their header calls for. -/
structure LayaModel.Q8Framed (m : LayaModel F Digest32) (t : Target) (bytes : List UInt8)
    (h : StateHeader) : Prop where
  max : bytes.length ≤ maxQuantizedBytes
  head : readHeader t layi 1 quantizedRevision m.bundle "q8 continuation header" bytes = .ok h
  lens : (1 ≤ h.tokens.toNat ∧ h.tokens.toNat ≤ maxTokens) ∧
    2 ≤ h.markers.toNat ∧ h.markers.toNat ≤ 7
  length : bytes.length = headerBytes + (h.tokens.toNat + h.markers.toNat) * 4 +
    4 * m.rowsAt h.tokens.toNat h.markers.toNat h.next.toNat +
    m.rowsAt h.tokens.toNat h.markers.toNat h.next.toNat * m.config.hiddenSize

/-- The arithmetic of import: nothing overflows once the header is accepted. -/
theorem LayaModel.importQuantized_of_header (hmax : bytes.length ≤ maxQuantizedBytes)
    (hhead : readHeader t layi 1 quantizedRevision m.bundle "q8 continuation header" bytes = .ok h)
    (hlens : (1 ≤ h.tokens.toNat ∧ h.tokens.toNat ≤ maxTokens) ∧
      2 ≤ h.markers.toNat ∧ h.markers.toNat ≤ 7) :
    m.importQuantized t bytes = (do
      let rows := m.rowsAt h.tokens.toNat h.markers.toNat h.next.toNat
      let start := headerBytes + (h.tokens.toNat + h.markers.toNat) * 4
      reject (bytes.length ≠ start + 4 * rows + rows * m.config.hiddenSize)
        (.invalid "q8 continuation length")
      let input ← readInput t h bytes
      call (m.validateInput input)
      let _ ← call (m.q8Rows input h.next.toNat)
      let chunks ← slice bytes start (start + 4 * rows)
      let scales ← (chunksExact 4 chunks).mapM fromLeBytes
      reject (∃ v ∈ scales, scaleRejected v) .numeric
      let values ← slice bytes (start + 4 * rows) bytes.length
      pure ⟨m.bundle, input, ⟨rows, m.config.hiddenSize, values.map UInt8.toInt8, scales, 1⟩,
        h.next.toNat⟩) := by
  have hword := t.le_words
  have hsteps := m.inferenceSteps_le
  have hle := elements_le (m := m) h.next.toNat hlens.1.2 hlens.2.2
  unfold maxTokens at hlens hle
  have hwide : ¬(¬(1 ≤ h.tokens.toNat ∧ h.tokens.toNat ≤ maxTokens) ∨
      ¬(2 ≤ h.markers.toNat ∧ h.markers.toNat ≤ 7)) := by
    unfold maxTokens
    omega
  have hrows : (if h.next.toNat = m.inferenceSteps - 1 then h.markers.toNat
      else h.tokens.toNat) = m.rowsAt h.tokens.toNat h.markers.toNat h.next.toNat := rfl
  have hr : m.rowsAt h.tokens.toNat h.markers.toNat h.next.toNat ≤ 128 := by
    unfold rowsAt
    split <;> omega
  have hstart : headerBytes + (h.tokens.toNat + h.markers.toNat) * 4 + 4 * 128 + 128 * 2048 <
      t.words := by
    unfold headerBytes
    omega
  rw [importQuantized, reject_pass (Nat.not_lt.mpr hmax), hhead, ok_bind]
  dsimp only
  rw [reject_pass hwide, sub_of_le (by omega), ok_bind, hrows, inputEnd_of_lt (by omega), ok_bind,
    mul_of_lt (by omega), ok_bind, add_of_lt (by omega), ok_bind, mul_of_lt (by omega), ok_bind,
    add_of_lt (by omega), ok_bind]

/-- Import on bytes of the right length: what is left to check is the input, the phase and the
scales. -/
theorem LayaModel.importQuantized_of_length (hf : m.Q8Framed t bytes h) :
    ∃ (input : TokenInput) (q : QTensor), input.inputIds.length = h.tokens.toNat ∧
      input.markers.length = h.markers.toNat ∧ input.qtypeId = h.qtypeId ∧
      q.rows = m.rowsAt h.tokens.toNat h.markers.toNat h.next.toNat ∧
      q.cols = m.config.hiddenSize ∧ q.groups = 1 ∧ q.scales.length = q.rows ∧
      q.values.length = q.rows * q.cols ∧
      bytes.drop headerBytes = le32s (input.inputIds ++ input.markers) ++
        (le32s q.scales ++ q.values.map Int8.toUInt8) ∧
      m.importQuantized t bytes = (do
        call (m.validateInput input)
        let _ ← call (m.q8Rows input h.next.toNat)
        reject (∃ v ∈ q.scales, scaleRejected v) .numeric
        pure ⟨m.bundle, input, q, h.next.toNat⟩) := by
  have hword := t.le_words
  have hmax := hf.max
  have hlen := hf.length
  have hw : bytes.length < t.words := by
    unfold maxQuantizedBytes maxTokens at hmax
    omega
  obtain ⟨input, hinput, hids, hmarkers, hqtype, hwords⟩ := readInput_of_le hw
    (h := h) (by omega)
  generalize hrows : m.rowsAt h.tokens.toNat h.markers.toNat h.next.toNat = rows at hlen
  generalize hstart : headerBytes + (h.tokens.toNat + h.markers.toNat) * 4 = start at hlen
  have hchunks : ((bytes.drop start).take (4 * rows)).length = rows * 4 := by
    rw [List.length_take, List.length_drop]
    omega
  have hscales := le32s_chunksExact hchunks
  have hcount : ((chunksExact 4 ((bytes.drop start).take (4 * rows))).map ofLe32).length = rows := by
    have hl := congrArg List.length hscales
    rw [length_le32s, hchunks] at hl
    omega
  have hback : ∀ xs : List UInt8, (xs.map UInt8.toInt8).map Int8.toUInt8 = xs := fun xs => by
    rw [List.map_map]
    exact List.map_id xs
  refine ⟨input, ⟨rows, m.config.hiddenSize, (bytes.drop (start + 4 * rows)).map UInt8.toInt8, _, 1⟩,
    hids, hmarkers, hqtype, rfl, rfl, rfl, hcount, ?_, ?_, ?_⟩
  · rw [List.length_map, List.length_drop]
    dsimp only
    omega
  · have hsplit : bytes.drop headerBytes = (bytes.drop headerBytes).take
        ((h.tokens.toNat + h.markers.toNat) * 4) ++ bytes.drop start := by
      rw [← hstart, ← List.drop_drop, List.take_append_drop]
    dsimp only
    rw [hscales, hback, hwords, ← List.drop_drop, List.take_append_drop]
    exact hsplit
  · rw [importQuantized_of_header hf.max hf.head hf.lens]
    dsimp only
    rw [hrows, hstart, reject_pass (not_not.mpr hlen), hinput, ok_bind,
      slice_of_le (by omega) (by omega), Nat.add_sub_cancel_left, slice_of_le (by omega) (Nat.le_refl _),
      ok_bind, mapM_eq_ok fun c hc => fromLeBytes_of_length (length_of_mem_chunksExact hc), ok_bind,
      ← List.length_drop, List.take_length]
    rfl

theorem LayaModel.importQuantized_framed (bytes : List UInt8) :
    (∃ e, m.importQuantized t bytes = .error (.raise e)) ∨ ∃ h, m.Q8Framed t bytes h := by
  by_cases hmax : bytes.length ≤ maxQuantizedBytes
  · have hw : bytes.length < t.words := by
      have hword := t.le_words
      unfold maxQuantizedBytes maxTokens at hmax
      omega
    cases hhead : readHeader t layi 1 quantizedRevision m.bundle "q8 continuation header" bytes with
    | error e =>
      cases e with
      | panic => exact absurd hhead (readHeader_ne_panic hw)
      | raise e =>
        left
        exact ⟨e, by rw [importQuantized, reject_pass (Nat.not_lt.mpr hmax), hhead]; rfl⟩
    | ok h =>
      by_cases hlens : (1 ≤ h.tokens.toNat ∧ h.tokens.toNat ≤ maxTokens) ∧
          2 ≤ h.markers.toNat ∧ h.markers.toNat ≤ 7
      · by_cases hlen : bytes.length = headerBytes + (h.tokens.toNat + h.markers.toNat) * 4 +
            4 * m.rowsAt h.tokens.toNat h.markers.toNat h.next.toNat +
            m.rowsAt h.tokens.toNat h.markers.toNat h.next.toNat * m.config.hiddenSize
        · exact .inr ⟨h, hmax, hhead, hlens, hlen⟩
        · refine .inl ⟨.invalid "q8 continuation length", ?_⟩
          rw [importQuantized_of_header hmax hhead hlens]
          exact reject_stop hlen _ _
      · refine .inl ⟨.invalid "q8 input lengths", ?_⟩
        rw [importQuantized, reject_pass (Nat.not_lt.mpr hmax), hhead, ok_bind]
        exact reject_stop (by omega) _ _
  · refine .inl ⟨.tooLong, ?_⟩
    exact reject_stop (Nat.not_le.mp hmax) _ _

theorem LayaModel.importQuantized_ne_panic : m.importQuantized t bytes ≠ .error .panic := by
  rcases importQuantized_framed (m := m) (t := t) bytes with ⟨e, he⟩ | ⟨h, hf⟩
  · rw [he]
    exact fun hp => nomatch hp
  · obtain ⟨input, q, -, -, -, -, -, -, -, -, -, heq⟩ := importQuantized_of_length hf
    rw [heq]
    exact bind_ne_panic (call_ne_panic _) fun _ _ => bind_ne_panic (call_ne_panic _) fun _ _ =>
      bind_ne_panic (reject_ne_panic _ _) fun _ _ hp => nomatch hp

/-- What import yields is written as the bytes it was read from. -/
theorem LayaModel.exportQuantized_of_import (hi : m.importQuantized t bytes = .ok s) :
    m.exportQuantized t s = .ok bytes ∧ s.next < m.inferenceSteps := by
  rcases importQuantized_framed (m := m) (t := t) bytes with ⟨e, he⟩ | ⟨head, hf⟩
  · rw [he] at hi
    cases hi
  · obtain ⟨input, q, hids, hmarkers, hqtype, hrows, hcols, hgroups, -, hvalues, hbytes, heq⟩ :=
      importQuantized_of_length hf
    rw [heq] at hi
    simp only [q8Rows, bind_eq_ok, call_eq_ok, rejectIf_eq_ok, not_le, pure_eq_ok] at hi
    obtain ⟨_, hv, _, ⟨_, hn, -⟩, _, -, rfl⟩ := hi
    have hhead : StateHeader.of head.next.toNat input = head := by
      rw [StateHeader.of, hids, hmarkers, hqtype]
      simp
    have hw : bytes.length < t.words := by
      have hword := t.le_words
      have hmax := hf.max
      unfold maxQuantizedBytes maxTokens at hmax
      omega
    refine ⟨(exportQuantized_eq_ok hvalues).mpr ⟨rfl, hv, ⟨hn, ?_, hcols, hgroups⟩, ?_⟩, hn⟩
    · rw [hids, hmarkers]
      exact hrows
    · rw [hhead, List.append_assoc, List.append_assoc, ← hbytes]
      exact (readHeader_eq_ok hw rfl).mp hf.head

/-- A session that is begun, stepped or imported. -/
inductive LayaModel.Q8Session (m : LayaModel F Digest32) (t : Target) :
    QuantizedSession Digest32 → Prop
  | begun {input : TokenInput} {s : QuantizedSession Digest32}
      (h : m.beginQuantized input = .ok s) : Q8Session m t s
  | stepped {s s' : QuantizedSession Digest32} {l : Option (List UInt32)} (hs : Q8Session m t s)
      (h : m.stepQuantized s = .ok (s', l)) : Q8Session m t s'
  | imported {bytes : List UInt8} {s : QuantizedSession Digest32}
      (h : m.importQuantized t bytes = .ok s) : Q8Session m t s

/-- Before its last phase a session has all its values and scales. -/
theorem LayaModel.Q8Session.filled {k : Int8Kernels} (hk : m.q8 = k.phases)
    (h : m.Q8Session t s) (hn : s.next < m.inferenceSteps) :
    s.hidden.values.length = s.hidden.rows * s.hidden.cols ∧
      s.hidden.scales.length = s.hidden.rows := by
  cases h with
  | begun h =>
    obtain ⟨-, hembed, -⟩ := start_eq_ok.mp h
    rw [hk] at hembed
    obtain ⟨rows, -, hrows⟩ := bind_eq_ok.mp hembed
    have hq := FloatRows.quantized hrows
    exact ⟨hq.values, hq.scales⟩
  | stepped hs h =>
    obtain ⟨-, -, hphase, hnext, -⟩ := Phases.step_eq_ok.mp h
    rw [hk] at hphase
    have hq : s.hidden.Quantized := by
      refine Int8Kernels.quantized_phase ?_ hphase
      rw [← hk, m.q8_steps]
      rw [hnext] at hn
      exact hn
    exact ⟨hq.values, hq.scales⟩
  | imported h =>
    rcases importQuantized_framed (m := m) (t := t) _ with ⟨e, he⟩ | ⟨head, hf⟩
    · rw [he] at h
      cases h
    · obtain ⟨input, q, -, -, -, -, -, -, hscales, hvalues, -, heq⟩ := importQuantized_of_length hf
      rw [heq] at h
      simp only [bind_eq_ok, pure_eq_ok] at h
      obtain ⟨_, -, _, -, _, -, rfl⟩ := h
      exact ⟨hvalues, hscales⟩

private theorem scaleRejected_iff {v : UInt32} (h : singleFinite v ∧ 0 < order v) :
    scaleRejected v ↔ order maxOver128 < order v := by
  unfold scaleRejected
  constructor
  · rintro (hf | hp | hm)
    · exact absurd h.1 hf
    · exact absurd h.2 (not_lt.mpr hp)
    · exact hm
  · exact fun hm => .inr (.inr hm)

/-- The length of an exported state. -/
theorem LayaModel.length_of_exportQuantized
    (hvalues : s.hidden.values.length = s.hidden.rows * s.hidden.cols)
    (hscales : s.hidden.scales.length = s.hidden.rows)
    (he : m.exportQuantized t s = .ok bytes) :
    bytes.length = headerBytes + (s.input.inputIds.length + s.input.markers.length) * 4
      + s.hidden.scales.length * 4 + s.hidden.values.length ∧
      bytes.length ≤ maxQuantizedBytes := by
  obtain ⟨-, hv, ⟨-, hrows, hcols, -⟩, hbytes⟩ := (exportQuantized_eq_ok hvalues).mp he
  have hlens := lengths_of_validateInput hv
  rw [hrows, hcols] at hvalues
  rw [hrows] at hscales
  have hle := elements_le (m := m) s.next hlens.1.2 hlens.2.2
  have hr : m.rowsAt s.input.inputIds.length s.input.markers.length s.next ≤ maxTokens := by
    have hl := hlens
    unfold maxTokens at hl ⊢
    unfold rowsAt
    split <;> omega
  have hlength : bytes.length = headerBytes + (s.input.inputIds.length + s.input.markers.length) * 4
      + s.hidden.scales.length * 4 + s.hidden.values.length := by
    rw [hbytes, List.length_append, List.length_append, List.length_append,
      StateHeader.length_bytes rfl, length_le32s, length_le32s, List.length_append,
      List.length_map]
  refine ⟨hlength, ?_⟩
  unfold maxTokens at hlens hle hr
  unfold maxQuantizedBytes maxTokens headerBytes at *
  omega

theorem LayaModel.next_lt_of_exportQuantized (he : m.exportQuantized t s = .ok bytes) :
    s.next < m.inferenceSteps := by
  simp only [exportQuantized, q8Rows, bind_eq_ok, call_eq_ok, rejectIf_eq_ok, not_le] at he
  obtain ⟨_, -, _, -, _, ⟨_, hn, -⟩, -⟩ := he
  exact hn

/-- An exported session is read back if import accepts its scales, and refused if it does not. -/
theorem LayaModel.importQuantized_of_export (hq : s.hidden.Quantized)
    (he : m.exportQuantized t s = .ok bytes) :
    bytes.length ≤ maxQuantizedBytes ∧ m.importQuantized t bytes =
      if ∀ v ∈ s.hidden.scales, order v ≤ order maxOver128 then .ok s
      else .error (.raise .numeric) := by
  obtain ⟨hb, hv, ⟨hn, hrows, hcols, hgroups⟩, hbytes⟩ := (exportQuantized_eq_ok hq.values).mp he
  obtain ⟨hnext, htokens, hmarkers⟩ := StateHeader.toNat_of hn hv
  have hlens := lengths_of_validateInput hv
  have hcount := hq.values
  rw [hrows, hcols] at hcount
  have hscales := hq.scales
  rw [hrows] at hscales
  have hmagic : layi.length = 4 := rfl
  obtain ⟨hlength, hmax⟩ := length_of_exportQuantized hq.values hq.scales he
  have hw : bytes.length < t.words := by
    have hword := t.le_words
    unfold maxQuantizedBytes maxTokens at hmax
    omega
  rw [List.append_assoc, List.append_assoc] at hbytes
  have hdrop : bytes.drop headerBytes = le32s (s.input.inputIds ++ s.input.markers) ++
      (le32s s.hidden.scales ++ s.hidden.values.map Int8.toUInt8) := by
    rw [hbytes]
    exact List.drop_left' (StateHeader.length_bytes hmagic)
  have hhead : readHeader t layi 1 quantizedRevision m.bundle "q8 continuation header" bytes =
      .ok (StateHeader.of s.next s.input) :=
    (readHeader_eq_ok hw hmagic).mpr (by rw [hdrop]; exact hbytes)
  have hframed : m.Q8Framed t bytes (StateHeader.of s.next s.input) := by
    refine ⟨hmax, hhead, by rw [htokens, hmarkers]; exact hlens, ?_⟩
    rw [htokens, hmarkers, hnext, hlength, hscales, hcount, Nat.mul_comm 4]
  obtain ⟨input, q, hids', hmarkers', hqtype', hrows', hcols', hgroups', hscales', hvalues', hbody,
    heq⟩ := importQuantized_of_length hframed
  rw [htokens] at hids'
  rw [hmarkers] at hmarkers'
  rw [htokens, hmarkers, hnext] at hrows'
  obtain ⟨h₁, h₂, h₃⟩ := input_inj hids' hmarkers' (hbody.symm.trans hdrop)
  have hscalesLength : (le32s q.scales).length = (le32s s.hidden.scales).length := by
    rw [length_le32s, length_le32s, hscales', hrows', hscales]
  obtain ⟨h₄, h₅⟩ := List.append_inj h₃ hscalesLength
  have hvalues : q.values = s.hidden.values := by
    have hback : ∀ xs : List Int8, (xs.map Int8.toUInt8).map UInt8.toInt8 = xs := fun xs => by
      rw [List.map_map]
      exact List.map_id xs
    rw [← hback q.values, h₅, hback]
  have hinput : input = s.input := by
    calc input = ⟨input.inputIds, input.markers, input.qtypeId⟩ := rfl
      _ = s.input := by rw [h₁, h₂, hqtype']; rfl
  have hhidden : q = s.hidden := by
    calc q = ⟨q.rows, q.cols, q.values, q.scales, q.groups⟩ := rfl
      _ = ⟨s.hidden.rows, s.hidden.cols, s.hidden.values, s.hidden.scales, s.hidden.groups⟩ := by
        rw [hrows', hrows, hcols', hcols, hvalues, le32s_inj h₄, hgroups', hgroups]
      _ = s.hidden := rfl
  refine ⟨hmax, ?_⟩
  rw [heq, hinput, hv, call_ok, ok_bind, hhidden, hnext, q8Rows_of_lt hn, call_ok, ok_bind, ← hb]
  by_cases hall : ∀ v ∈ s.hidden.scales, order v ≤ order maxOver128
  · have hno : ¬∃ v ∈ s.hidden.scales, scaleRejected v := fun ⟨v, hv, hx⟩ =>
      absurd ((scaleRejected_iff (hq.positive v hv)).mp hx) (not_lt.mpr (hall v hv))
    rw [if_pos hall, reject_pass hno]
    rfl
  · have hsome : ∃ v ∈ s.hidden.scales, scaleRejected v := by
      simp only [not_forall, not_le] at hall
      obtain ⟨v, hv, hlt⟩ := hall
      exact ⟨v, hv, (scaleRejected_iff (hq.positive v hv)).mpr hlt⟩
    rw [if_neg hall]
    exact reject_stop hsome _ _

/-- A state exported from a session is read back as that session. -/
def LayaModel.Reimports (m : LayaModel F Digest32) (t : Target) (s : QuantizedSession Digest32) :
    Prop :=
  ∀ bytes, m.exportQuantized t s = .ok bytes →
    bytes.length ≤ maxQuantizedBytes ∧ m.importQuantized t bytes = .ok s

/-- Of the sessions taken on from a start, those whose scales import accepts are read back; import
returns on any bytes, export writes them again, and the session has a phase to come. -/
theorem layi_codec (m : LayaModel F Digest32) (t : Target) (k : Int8Kernels)
    (hk : m.q8 = k.phases) :
    (∀ input s₀ n s l, m.beginQuantized input = .ok s₀ →
      times (fun x => m.stepQuantized x.1) n (s₀, none) = .ok (s, l) →
      (m.Reimports t s ↔
        (m.InPhase s → ∀ v ∈ s.hidden.scales, order v ≤ order maxOver128))) ∧
      (∀ bytes s, m.importQuantized t bytes = .ok s →
        m.exportQuantized t s = .ok bytes ∧ s.next < m.inferenceSteps) ∧
      ∀ bytes, m.importQuantized t bytes ≠ .error .panic := by
  refine ⟨fun input s₀ n s l h₀ hs => ?_, fun bytes s h => LayaModel.exportQuantized_of_import h,
    fun bytes => LayaModel.importQuantized_ne_panic⟩
  obtain ⟨hb, hinput, hv, hquantized⟩ := LayaModel.quantized_session hk h₀ hs
  rw [← hinput] at hv
  constructor
  · intro hreimports hphase
    have hq := hquantized hphase.next
    have hexport := (LayaModel.exportQuantized_eq_ok (t := t) hq.values).mpr ⟨hb, hv, hphase, rfl⟩
    have himport := (hreimports _ hexport).2
    rw [(LayaModel.importQuantized_of_export hq hexport).2] at himport
    by_contra hno
    rw [if_neg hno] at himport
    cases himport
  · intro hscales bytes hexport
    have hq := hquantized (LayaModel.next_lt_of_exportQuantized hexport)
    obtain ⟨-, -, hphase, -⟩ := (LayaModel.exportQuantized_eq_ok hq.values).mp hexport
    obtain ⟨hmax, himport⟩ := LayaModel.importQuantized_of_export hq hexport
    rw [if_pos (hscales hphase)] at himport
    exact ⟨hmax, himport⟩

end Layi

namespace Int8Kernels

/-- Kernels that keep the number of rows; the embedding peaks at the largest single. -/
def peaked : Int8Kernels where
  embed := fun ids => .ok ⟨2, ids.map fun _ => [maxSingle, 0]⟩
  layers := [fun x => .ok ⟨2, List.replicate x.rows [0x3f800000, 0]⟩]
  final := fun _ x => .ok ⟨2, List.replicate x.rows [0x3f800000, 0]⟩
  decision := [fun x markers => .ok ⟨2, List.replicate
    (match markers with | some ms => ms.length | none => x.rows) [0x3f800000, 0]⟩]
  score := fun x => .ok x
  read := fun x => .ok (List.replicate x.rows 0)

def peakedModel : LayaModel ℚ Digest32 :=
  { LayaModel.zeros (Vector.replicate 32 7) with
    q8 := peaked.phases
    q8_layers := rfl
    q8_decision := rfl }

end Int8Kernels

open Int8Kernels in
/-- After one layer the scales are small and the state is read back. -/
theorem layi_codec_peaked : ∃ s₀ s l, peakedModel.beginQuantized LayaModel.Zeros.input = .ok s₀ ∧
    times (fun x => peakedModel.stepQuantized x.1) 1 (s₀, none) = .ok (s, l) ∧
    peakedModel.Reimports .bits32 s := by
  have h₀ : peakedModel.beginQuantized LayaModel.Zeros.input = .ok ⟨Vector.replicate 32 7,
      LayaModel.Zeros.input, ⟨2, 2, [127, 0, 127, 0], [0x7c010204, 0x7c010204], 1⟩, 0⟩ := by
    decide +kernel
  have h₁ : times (fun x => peakedModel.stepQuantized x.1) 1 (⟨Vector.replicate 32 7,
      LayaModel.Zeros.input, ⟨2, 2, [127, 0, 127, 0], [0x7c010204, 0x7c010204], 1⟩, 0⟩, none) =
      .ok (⟨Vector.replicate 32 7, LayaModel.Zeros.input,
        ⟨2, 2, [127, 0, 127, 0], [0x3c010204, 0x3c010204], 1⟩, 1⟩, none) := by
    decide +kernel
  have hall := layi_codec peakedModel .bits32 peaked rfl
  exact ⟨_, _, _, h₀, h₁, (hall.1 _ _ _ _ _ h₀ h₁).mpr fun _ => by decide +kernel⟩

open Int8Kernels in
/-- The state of a fresh session that was exported cannot be continued. -/
theorem exported_state_refused : ∃ s₀ bytes,
    peakedModel.beginQuantized LayaModel.Zeros.input = .ok s₀ ∧
      peakedModel.exportQuantized .bits32 s₀ = .ok bytes ∧
      peakedModel.importQuantized .bits32 bytes = .error (.raise .numeric) := by
  have h₀ : peakedModel.beginQuantized LayaModel.Zeros.input = .ok ⟨Vector.replicate 32 7,
      LayaModel.Zeros.input, ⟨2, 2, [127, 0, 127, 0], [0x7c010204, 0x7c010204], 1⟩, 0⟩ := by
    decide +kernel
  have hexport : (peakedModel.exportQuantized .bits32 ⟨Vector.replicate 32 7,
      LayaModel.Zeros.input, ⟨2, 2, [127, 0, 127, 0], [0x7c010204, 0x7c010204], 1⟩, 0⟩).isOk =
      true := by decide +kernel
  obtain ⟨bytes, hbytes⟩ := exists_eq_ok hexport
  have himport : (do
      let bytes ← peakedModel.exportQuantized .bits32 ⟨Vector.replicate 32 7,
        LayaModel.Zeros.input, ⟨2, 2, [127, 0, 127, 0], [0x7c010204, 0x7c010204], 1⟩, 0⟩
      peakedModel.importQuantized .bits32 bytes) = .error (.raise .numeric) := by decide +kernel
  rw [hbytes, ok_bind] at himport
  exact ⟨_, bytes, h₀, hbytes, himport⟩

end IcLaya
