import IcLaya.LayaModel
import IcLaya.PanickingCode
import IcLaya.WordStreams

/-!
# Client-held continuations (`laya-candle/src/continuation.rs`)

A session between two phases as bytes: a header of sixty bytes, the token and marker words, the
hidden values. Export and import are translated with the slices and the machine arithmetic they
perform, so that import on bytes from anyone is seen not to panic. What import accepts is what
export writes.
-/
namespace IcLaya
open Fallible PanickingCode WordStreams

abbrev Digest32 := Vector UInt8 32

def formatVersion : UInt32 := 1
def inferenceRevision : UInt32 := 1
def headerBytes : ℕ := 60
def maxContinuationBytes : ℕ := headerBytes + maxTokens * 4 + 7 * 4 + maxTokens * 2048 * 4
/-- `b"LAYQ"`. -/
def layq : List UInt8 := [0x4c, 0x41, 0x59, 0x51]

/-- The words of a header behind its binding. -/
structure StateHeader where
  next : UInt32
  qtypeId : UInt32
  tokens : UInt32
  markers : UInt32
  deriving DecidableEq

def StateHeader.words (h : StateHeader) : List UInt32 := [h.next, h.qtypeId, h.tokens, h.markers]

/-- The header of a session. -/
def StateHeader.of (next : ℕ) (input : TokenInput) : StateHeader :=
  ⟨UInt32.ofNat next, input.qtypeId, UInt32.ofNat input.inputIds.length,
    UInt32.ofNat input.markers.length⟩

/-- A header as it is written. -/
def StateHeader.bytes (h : StateHeader) (magic : List UInt8) (version revision : UInt32)
    (bundle : Digest32) : List UInt8 :=
  magic ++ le32 version ++ le32 revision ++ bundle.toList ++ le32s h.words

section Readers
variable (t : Target)

/-- `u32::from_le_bytes(chunk.try_into().unwrap())`. -/
def fromLeBytes (chunk : List UInt8) : Code Error UInt32 :=
  unwrap (if chunk.length = 4 then some (ofLe32 chunk) else none)

/-- `read(offset)`. -/
def readWord (bytes : List UInt8) (offset : ℕ) : Code Error UInt32 := do
  let stop ← add t offset 4
  let chunk ← slice bytes offset stop
  fromLeBytes chunk

/-- The checks of magic, version, revision and bundle, and the words behind them. -/
def readHeader (magic : List UInt8) (version revision : UInt32) (bundle : Digest32) (what : String)
    (bytes : List UInt8) : Code Error StateHeader := do
  reject (bytes.length < headerBytes) (.invalid what)
  let head ← slice bytes 0 4
  reject (head ≠ magic) (.invalid what)
  let v ← readWord t bytes 4
  reject (v ≠ version) .bindingMismatch
  let r ← readWord t bytes 8
  reject (r ≠ revision) .bindingMismatch
  let b ← slice bytes 12 44
  reject (b ≠ bundle.toList) .bindingMismatch
  let next ← readWord t bytes 44
  let qtypeId ← readWord t bytes 48
  let tokens ← readWord t bytes 52
  let markers ← readWord t bytes 56
  pure ⟨next, qtypeId, tokens, markers⟩

/-- `HEADER_BYTES + (tokens + markers) * 4`. -/
def inputEnd (tokens markers : ℕ) : Code Error ℕ := do
  let words ← add t tokens markers
  let size ← mul t words 4
  add t headerBytes size

/-- The token and marker words. -/
def readInput (h : StateHeader) (bytes : List UInt8) : Code Error TokenInput := do
  let inputIds ← (List.range h.tokens.toNat).mapM fun i => do
    let offset ← mul t i 4
    let offset ← add t headerBytes offset
    readWord t bytes offset
  let markers ← (List.range h.markers.toNat).mapM fun i => do
    let i ← add t h.tokens.toNat i
    let offset ← mul t i 4
    let offset ← add t headerBytes offset
    readWord t bytes offset
  pure ⟨inputIds, markers, h.qtypeId⟩

end Readers

section ReaderSpecs
variable {t : Target} {bytes rest magic : List UInt8} {h : StateHeader} {version revision : UInt32}
  {bundle : Digest32} {what : String} {offset : ℕ}

theorem StateHeader.length_bytes (hm : magic.length = 4) :
    (h.bytes magic version revision bundle).length = headerBytes := by
  simp [StateHeader.bytes, StateHeader.words, hm, headerBytes]

theorem fromLeBytes_of_length {chunk : List UInt8} (hc : chunk.length = 4) :
    fromLeBytes chunk = .ok (ofLe32 chunk) := by
  rw [fromLeBytes, if_pos hc]
  rfl

theorem readWord_of_le (hw : bytes.length < t.words) (hle : offset + 4 ≤ bytes.length) :
    readWord t bytes offset = .ok (wordAt bytes offset) := by
  have hlength : ((bytes.drop offset).take (offset + 4 - offset)).length = 4 := by
    rw [List.length_take, List.length_drop]
    omega
  rw [readWord, add_of_lt (by omega), ok_bind, slice_of_le (by omega) hle, ok_bind,
    fromLeBytes_of_length hlength, wordAt, Nat.add_sub_cancel_left]

theorem StateHeader.bytes_append : h.bytes magic version revision bundle ++ rest =
    magic ++ (le32 version ++ (le32 revision ++ (bundle.toList ++ (le32 h.next ++
      (le32 h.qtypeId ++ (le32 h.tokens ++ (le32 h.markers ++ rest))))))) := by
  simp only [StateHeader.bytes, StateHeader.words, le32s_cons, le32s_nil, List.append_assoc,
    List.append_nil]

/-- The fields of a header by their offsets. -/
theorem StateHeader.eq_bytes_append (hm : magic.length = 4) (h60 : headerBytes ≤ bytes.length) :
    bytes = h.bytes magic version revision bundle ++ bytes.drop headerBytes ↔
      bytes.take 4 = magic ∧ wordAt bytes 4 = version ∧ wordAt bytes 8 = revision ∧
        (bytes.drop 12).take 32 = bundle.toList ∧
        (⟨wordAt bytes 44, wordAt bytes 48, wordAt bytes 52, wordAt bytes 56⟩ : StateHeader) = h := by
  have hbundle : bundle.toList.length = 32 := by simp
  simp only [headerBytes] at h60 ⊢
  constructor
  · intro he
    rw [StateHeader.bytes_append] at he
    have h0 : bytes.drop 0 = _ := he
    obtain ⟨hmagic, h4⟩ := read_append h0 hm
    obtain ⟨hv, h8⟩ := read_word h4
    obtain ⟨hr, h12⟩ := read_word h8
    obtain ⟨hb, h44⟩ := read_append h12 hbundle
    obtain ⟨hnext, h48⟩ := read_word h44
    obtain ⟨hqtype, h52⟩ := read_word h48
    obtain ⟨htokens, h56⟩ := read_word h52
    obtain ⟨hmarkers, -⟩ := read_word h56
    exact ⟨hmagic, hv, hr, hb, by rw [hnext, hqtype, htokens, hmarkers]⟩
  · rintro ⟨hmagic, hv, hr, hb, rfl⟩
    have hword : ∀ offset, offset + 4 ≤ 60 →
        bytes.drop offset = le32 (wordAt bytes offset) ++ bytes.drop (offset + 4) :=
      fun offset ho => drop_eq_word (ho.trans h60)
    have h4 := hword 4 (by omega)
    have h8 := hword 8 (by omega)
    have h44 := hword 44 (by omega)
    have h48 := hword 48 (by omega)
    have h52 := hword 52 (by omega)
    have h56 := hword 56 (by omega)
    have h12 : bytes.drop 12 = bundle.toList ++ bytes.drop 44 := by
      rw [← hb, ← List.drop_drop (i := 32) (j := 12), List.take_append_drop]
    calc bytes = bytes.take 4 ++ bytes.drop 4 := (List.take_append_drop 4 bytes).symm
      _ = _ := by rw [hmagic, h4, h8, h12, h44, h48, h52, h56, hv, hr, StateHeader.bytes_append]

/-- A header is read exactly from the bytes it is written as. -/
theorem readHeader_eq_ok (hw : bytes.length < t.words) (hm : magic.length = 4) :
    readHeader t magic version revision bundle what bytes = .ok h ↔
      bytes = h.bytes magic version revision bundle ++ bytes.drop headerBytes := by
  by_cases hlen : bytes.length < headerBytes
  · have hshort : bytes ≠ h.bytes magic version revision bundle ++ bytes.drop headerBytes := by
      intro he
      have hl := congrArg List.length he
      rw [List.length_append, StateHeader.length_bytes hm] at hl
      omega
    simp [readHeader, hlen, hshort]
  · have h60 : headerBytes ≤ bytes.length := Nat.not_lt.mp hlen
    have hread : ∀ offset, offset + 4 ≤ 60 →
        readWord t bytes offset = .ok (wordAt bytes offset) :=
      fun offset ho => readWord_of_le hw (ho.trans h60)
    have hmagic : slice bytes 0 4 = (.ok (bytes.take 4) : Code Error _) := by
      rw [slice_of_le (by omega) ((show 4 ≤ headerBytes by decide).trans h60)]
      rfl
    have hbundle : slice bytes 12 44 = (.ok ((bytes.drop 12).take 32) : Code Error _) :=
      slice_of_le (by omega) ((show 44 ≤ headerBytes by decide).trans h60)
    rw [StateHeader.eq_bytes_append hm h60]
    simp only [readHeader, hread 4 (by omega), hread 8 (by omega), hread 44 (by omega),
      hread 48 (by omega), hread 52 (by omega), hread 56 (by omega), hmagic, hbundle, ok_bind,
      bind_eq_ok, reject_eq_ok, hlen, not_false_eq_true, not_not, pure_eq_ok, exists_const,
      true_and]

theorem readHeader_ne_panic (hw : bytes.length < t.words) :
    readHeader t magic version revision bundle what bytes ≠ .error .panic := by
  by_cases hlen : bytes.length < headerBytes
  · rw [readHeader, reject_stop hlen]
    exact fun he => nomatch he
  · have h60 : 60 ≤ bytes.length := Nat.not_lt.mp hlen
    have hread : ∀ offset, offset + 4 ≤ 60 →
        readWord t bytes offset = .ok (wordAt bytes offset) :=
      fun offset ho => readWord_of_le hw (ho.trans h60)
    refine bind_ne_panic (reject_ne_panic _ _) fun _ _ => ?_
    rw [slice_of_le (by omega) (by omega), ok_bind]
    refine bind_ne_panic (reject_ne_panic _ _) fun _ _ => ?_
    rw [hread 4 (by omega), ok_bind]
    refine bind_ne_panic (reject_ne_panic _ _) fun _ _ => ?_
    rw [hread 8 (by omega), ok_bind]
    refine bind_ne_panic (reject_ne_panic _ _) fun _ _ => ?_
    rw [slice_of_le (by omega) (by omega), ok_bind]
    refine bind_ne_panic (reject_ne_panic _ _) fun _ _ => ?_
    rw [hread 44 (by omega), hread 48 (by omega), hread 52 (by omega), hread 56 (by omega)]
    exact fun he => nomatch he

theorem inputEnd_of_lt {tokens markers : ℕ} (h : headerBytes + (tokens + markers) * 4 < t.words) :
    inputEnd t tokens markers = .ok (headerBytes + (tokens + markers) * 4) := by
  rw [inputEnd, add_of_lt (by omega), ok_bind, mul_of_lt (by omega), ok_bind, add_of_lt h]

/-- The input is read from the words behind the header. -/
theorem readInput_of_le (hw : bytes.length < t.words)
    (hle : headerBytes + (h.tokens.toNat + h.markers.toNat) * 4 ≤ bytes.length) :
    ∃ input, readInput t h bytes = .ok input ∧ input.inputIds.length = h.tokens.toNat ∧
      input.markers.length = h.markers.toNat ∧ input.qtypeId = h.qtypeId ∧
      le32s (input.inputIds ++ input.markers) =
        (bytes.drop headerBytes).take ((h.tokens.toNat + h.markers.toNat) * 4) := by
  have hids : ((List.range h.tokens.toNat).mapM fun i => do
      let offset ← mul t i 4
      let offset ← add t headerBytes offset
      readWord t bytes offset) =
      .ok ((List.range h.tokens.toNat).map fun i => wordAt bytes (headerBytes + i * 4)) := by
    refine mapM_eq_ok fun i hi => ?_
    have hi := List.mem_range.mp hi
    rw [mul_of_lt (by omega), ok_bind, add_of_lt (by omega), ok_bind, readWord_of_le hw (by omega)]
  have hmarkers : ((List.range h.markers.toNat).mapM fun i => do
      let i ← add t h.tokens.toNat i
      let offset ← mul t i 4
      let offset ← add t headerBytes offset
      readWord t bytes offset) = .ok ((List.range h.markers.toNat).map fun i =>
        wordAt bytes (headerBytes + h.tokens.toNat * 4 + i * 4)) := by
    refine mapM_eq_ok fun i hi => ?_
    have hi := List.mem_range.mp hi
    rw [add_of_lt (by omega), ok_bind, mul_of_lt (by omega), ok_bind, add_of_lt (by omega), ok_bind,
      readWord_of_le hw (by omega), Nat.add_mul, Nat.add_assoc]
  refine ⟨_, by rw [readInput, hids, ok_bind, hmarkers]; rfl, ?_, ?_, rfl, ?_⟩
  · rw [List.length_map, List.length_range]
  · rw [List.length_map, List.length_range]
  · rw [le32s_append, le32s_wordAt (by omega), le32s_wordAt (by omega), Nat.add_mul, List.take_add,
      List.drop_drop]

end ReaderSpecs

section Codec
variable {F : Type} [Doubles F] (t : Target) (m : LayaModel F Digest32)

def LayaModel.continuationShape (input : TokenInput) (next : ℕ) : Result (ℕ × ℕ) := do
  m.validateInput input
  rejectIf (m.inferenceSteps ≤ next) .transition
  -- after the final decision phase only marker rows remain, ready for the scorer
  let rows := if next = m.inferenceSteps - 1 then input.markers.length else input.inputIds.length
  pure (rows, m.config.hiddenSize)

def LayaModel.exportInference (s : InferenceSession Digest32) : Code Error (List UInt8) := do
  reject (s.bundle ≠ m.bundle) .bindingMismatch
  let shape ← call (m.continuationShape s.input s.next)
  reject (s.hidden.dims ≠ [shape.1, shape.2]) (.invalid "continuation shape")
  let values := s.hidden.values
  reject (∃ v ∈ values, ¬singleFinite v) .numeric
  let words ← add t s.input.inputIds.length s.input.markers.length
  let words ← add t words values.length
  let size ← mul t words 4
  let size ← add t headerBytes size
  reject (maxContinuationBytes < size) .tooLong
  pure ((StateHeader.of s.next s.input).bytes layq formatVersion inferenceRevision m.bundle ++
    le32s (s.input.inputIds ++ s.input.markers) ++ le32s values)

/-- A value of the body; all of them are finite. -/
def readFinite (chunk : List UInt8) : Code Error UInt32 := do
  let value ← fromLeBytes chunk
  reject (¬singleFinite value) .numeric
  pure value

def LayaModel.importInference (bytes : List UInt8) : Code Error (InferenceSession Digest32) := do
  reject (maxContinuationBytes < bytes.length) .tooLong
  let h ← readHeader t layq formatVersion inferenceRevision m.bundle "continuation header" bytes
  let next := h.next.toNat
  let tokens := h.tokens.toNat
  let markers := h.markers.toNat
  reject (¬(1 ≤ tokens ∧ tokens ≤ maxTokens) ∨ ¬(2 ≤ markers ∧ markers ≤ 7))
    (.invalid "continuation input lengths")
  reject (m.inferenceSteps ≤ next) .transition
  let last ← sub m.inferenceSteps 1
  let rows := if next = last then markers else tokens
  let elements ← call (okOr (checkedMul t rows m.config.hiddenSize) .tooLong)
  let start ← inputEnd t tokens markers
  let expected ← call (okOr ((checkedMul t elements 4).bind (checkedAdd t start)) .tooLong)
  reject (bytes.length ≠ expected) (.invalid "continuation byte length")
  let input ← readInput t h bytes
  let _ ← call (m.continuationShape input next)
  let body ← slice bytes start bytes.length
  let values ← (chunksExact 4 body).mapM readFinite
  let hidden ← call (modelError (Tensor.fromVec values [rows, m.config.hiddenSize]))
  pure ⟨m.bundle, input, hidden, next⟩

end Codec

section Values

/-- The finite values of a stream of whole words. -/
theorem mapM_readFinite {chunks : List (List UInt8)} (h : ∀ c ∈ chunks, c.length = 4) :
    chunks.mapM readFinite = if ∀ v ∈ chunks.map ofLe32, singleFinite v
      then .ok (chunks.map ofLe32) else .error (.raise .numeric) := by
  induction chunks with
  | nil => rw [if_pos (by simp)]; rfl
  | cons c cs ih =>
    have hc := fromLeBytes_of_length (h c List.mem_cons_self)
    rw [List.mapM_cons, readFinite, hc, ok_bind, ih fun x hx => h x (List.mem_cons_of_mem c hx)]
    simp only [List.map_cons, List.forall_mem_cons]
    by_cases hf : singleFinite (ofLe32 c) = true
    · by_cases hfs : ∀ v ∈ cs.map ofLe32, singleFinite v = true
      · rw [if_pos hfs, if_pos ⟨hf, hfs⟩, reject_pass (not_not.mpr hf)]
        rfl
      · rw [if_neg hfs, if_neg (show ¬(_ ∧ _) from fun hx => hfs hx.2), reject_pass (not_not.mpr hf)]
        rfl
    · rw [if_neg (show ¬(_ ∧ _) from fun hx => hf hx.1), reject_stop hf]
      rfl

end Values

section Sizes
variable {F Digest : Type} [Doubles F] {m : LayaModel F Digest} {input : TokenInput}

theorem LayaModel.lengths_of_validateInput (h : m.validateInput input = .ok ()) :
    (1 ≤ input.inputIds.length ∧ input.inputIds.length ≤ maxTokens) ∧
      2 ≤ input.markers.length ∧ input.markers.length ≤ 7 := by
  simp only [LayaModel.validateInput, bind_eq_ok, rejectIf_eq_ok, not_or, not_not] at h
  obtain ⟨_, ⟨hne, hle, hm, -⟩, -⟩ := h
  exact ⟨⟨List.length_pos_iff.mpr hne, Nat.not_lt.mp hle⟩, hm⟩

/-- The rows of the hidden values before a phase. -/
def LayaModel.rowsAt (m : LayaModel F Digest) (tokens markers next : ℕ) : ℕ :=
  if next = m.inferenceSteps - 1 then markers else tokens

theorem LayaModel.elements_le {tokens markers : ℕ} (next : ℕ) (ht : tokens ≤ maxTokens)
    (hm : markers ≤ 7) :
    m.rowsAt tokens markers next * m.config.hiddenSize ≤ maxTokens * 2048 := by
  obtain ⟨⟨-, hh⟩, -⟩ := ModelConfig.sizes_of_validate m.valid
  refine Nat.mul_le_mul ?_ hh
  unfold LayaModel.rowsAt maxTokens at *
  split <;> omega

theorem StateHeader.toNat_of {next : ℕ} (hn : next < m.inferenceSteps)
    (h : m.validateInput input = .ok ()) :
    (StateHeader.of next input).next.toNat = next ∧
      (StateHeader.of next input).tokens.toNat = input.inputIds.length ∧
      (StateHeader.of next input).markers.toNat = input.markers.length := by
  obtain ⟨⟨-, ht⟩, -, hm⟩ := LayaModel.lengths_of_validateInput h
  have hs := m.inferenceSteps_le
  unfold maxTokens at ht
  simp only [StateHeader.of, UInt32.toNat_ofNat']
  refine ⟨Nat.mod_eq_of_lt ?_, Nat.mod_eq_of_lt ?_, Nat.mod_eq_of_lt ?_⟩ <;> omega

end Sizes

section Layq
variable {F : Type} [Doubles F] {t : Target} {m : LayaModel F Digest32}
  {s : InferenceSession Digest32} {bytes : List UInt8}

/-- What export writes, and when. -/
theorem LayaModel.exportInference_eq_ok : m.exportInference t s = .ok bytes ↔
    s.bundle = m.bundle ∧ m.validateInput s.input = .ok () ∧ s.next < m.inferenceSteps ∧
      s.hidden.dims =
        [m.rowsAt s.input.inputIds.length s.input.markers.length s.next, m.config.hiddenSize] ∧
      (∀ v ∈ s.hidden.values, singleFinite v) ∧
      bytes = (StateHeader.of s.next s.input).bytes layq formatVersion inferenceRevision m.bundle ++
        le32s (s.input.inputIds ++ s.input.markers) ++ le32s s.hidden.values := by
  simp only [exportInference, continuationShape, bind_eq_ok, reject_eq_ok, call_eq_ok,
    rejectIf_eq_ok, not_not, not_le, pure_eq_ok, not_exists, not_and]
  constructor
  · rintro ⟨_, hb, _, ⟨_, hv, _, hn, rfl⟩, _, hdims, _, hfinite, _, -, _, -, _, -, _, -, _, -, rfl⟩
    exact ⟨hb, hv, hn, hdims, fun v hv => hfinite v hv, rfl⟩
  · rintro ⟨hb, hv, hn, hdims, hfinite, rfl⟩
    have hlen := lengths_of_validateInput hv
    have hvalues := s.hidden.length_eq
    have hword := t.le_words
    have hle := elements_le (m := m) s.next hlen.1.2 hlen.2.2
    rw [hdims, List.prod_cons, List.prod_cons, List.prod_nil, Nat.mul_one] at hvalues
    rw [← hvalues] at hle
    unfold maxTokens at *
    refine ⟨(), hb, _, ⟨(), hv, (), hn, rfl⟩, (), hdims, (), hfinite, _, add_of_lt (by omega), _,
      add_of_lt (by omega), _, mul_of_lt (by omega), _, add_of_lt ?_, (), ?_, rfl⟩
    · unfold headerBytes; omega
    · unfold maxContinuationBytes headerBytes maxTokens; omega

theorem LayaModel.continuationShape_of_lt {input : TokenInput} {next : ℕ}
    (h : next < m.inferenceSteps) : m.continuationShape input next =
      (m.validateInput input >>= fun _ => .ok
        (m.rowsAt input.inputIds.length input.markers.length next, m.config.hiddenSize)) := by
  rw [continuationShape, rejectIf_bind (Nat.not_le.mpr h)]
  rfl

/-- The arithmetic of import: nothing overflows once the header is accepted. -/
theorem LayaModel.importInference_of_header {h : StateHeader}
    (hmax : bytes.length ≤ maxContinuationBytes)
    (hhead : readHeader t layq formatVersion inferenceRevision m.bundle "continuation header" bytes =
      .ok h)
    (hlens : (1 ≤ h.tokens.toNat ∧ h.tokens.toNat ≤ maxTokens) ∧
      2 ≤ h.markers.toNat ∧ h.markers.toNat ≤ 7)
    (hnext : h.next.toNat < m.inferenceSteps) :
    m.importInference t bytes = (do
      let rows := m.rowsAt h.tokens.toNat h.markers.toNat h.next.toNat
      let start := headerBytes + (h.tokens.toNat + h.markers.toNat) * 4
      reject (bytes.length ≠ start + rows * m.config.hiddenSize * 4)
        (.invalid "continuation byte length")
      let input ← readInput t h bytes
      let _ ← call (m.continuationShape input h.next.toNat)
      let body ← slice bytes start bytes.length
      let values ← (chunksExact 4 body).mapM readFinite
      let hidden ← call (modelError (Tensor.fromVec values [rows, m.config.hiddenSize]))
      pure ⟨m.bundle, input, hidden, h.next.toNat⟩) := by
  have hword := t.le_words
  have hsteps := m.inferenceSteps_le
  have hle := elements_le (m := m) h.next.toNat hlens.1.2 hlens.2.2
  unfold maxTokens at hlens hle
  have hwide : ¬(¬(1 ≤ h.tokens.toNat ∧ h.tokens.toNat ≤ maxTokens) ∨
      ¬(2 ≤ h.markers.toNat ∧ h.markers.toNat ≤ 7)) := by
    unfold maxTokens
    omega
  have hrows : (if h.next.toNat = m.inferenceSteps - 1 then h.markers.toNat
      else h.tokens.toNat) = m.rowsAt h.tokens.toNat h.markers.toNat h.next.toNat := rfl
  have hstart : headerBytes + (h.tokens.toNat + h.markers.toNat) * 4 < t.words := by
    unfold headerBytes
    omega
  have hexpected : (checkedMul t (m.rowsAt h.tokens.toNat h.markers.toNat h.next.toNat *
      m.config.hiddenSize) 4).bind (checkedAdd t (headerBytes +
        (h.tokens.toNat + h.markers.toNat) * 4)) =
      some (headerBytes + (h.tokens.toNat + h.markers.toNat) * 4 +
        m.rowsAt h.tokens.toNat h.markers.toNat h.next.toNat * m.config.hiddenSize * 4) := by
    rw [checkedMul_of_lt (by omega), Option.bind_some, checkedAdd_of_lt]
    unfold headerBytes
    omega
  rw [importInference, reject_pass (Nat.not_lt.mpr hmax), hhead, ok_bind]
  dsimp only
  rw [reject_pass hwide, reject_pass (Nat.not_le.mpr hnext),
    sub_of_le (by omega), ok_bind, hrows, checkedMul_of_lt (by omega), okOr, call_ok, ok_bind,
    inputEnd_of_lt hstart, ok_bind, hexpected, okOr, call_ok, ok_bind]

/-- Import on bytes of the right length: what is left to check is the input and the values. -/
theorem LayaModel.importInference_of_length {h : StateHeader}
    (hmax : bytes.length ≤ maxContinuationBytes)
    (hhead : readHeader t layq formatVersion inferenceRevision m.bundle "continuation header" bytes =
      .ok h)
    (hlens : (1 ≤ h.tokens.toNat ∧ h.tokens.toNat ≤ maxTokens) ∧
      2 ≤ h.markers.toNat ∧ h.markers.toNat ≤ 7)
    (hnext : h.next.toNat < m.inferenceSteps)
    (hlen : bytes.length = headerBytes + (h.tokens.toNat + h.markers.toNat) * 4 +
      m.rowsAt h.tokens.toNat h.markers.toNat h.next.toNat * m.config.hiddenSize * 4) :
    ∃ (input : TokenInput) (hidden : Tensor), input.inputIds.length = h.tokens.toNat ∧
      input.markers.length = h.markers.toNat ∧ input.qtypeId = h.qtypeId ∧
      hidden.dims = [m.rowsAt h.tokens.toNat h.markers.toNat h.next.toNat, m.config.hiddenSize] ∧
      bytes.drop headerBytes = le32s (input.inputIds ++ input.markers) ++ le32s hidden.values ∧
      m.importInference t bytes = (do
        call (m.validateInput input)
        reject (∃ v ∈ hidden.values, ¬singleFinite v) .numeric
        pure ⟨m.bundle, input, hidden, h.next.toNat⟩) := by
  have hword := t.le_words
  have hw : bytes.length < t.words := by
    unfold maxContinuationBytes headerBytes maxTokens at hmax
    omega
  obtain ⟨input, hinput, hids, hmarkers, hqtype, hwords⟩ := readInput_of_le hw
    (h := h) (by omega)
  have hbody : (bytes.drop (headerBytes + (h.tokens.toNat + h.markers.toNat) * 4)).length =
      m.rowsAt h.tokens.toNat h.markers.toNat h.next.toNat * m.config.hiddenSize * 4 := by
    rw [List.length_drop]
    omega
  have hvalues := le32s_chunksExact hbody
  have hcount : ((chunksExact 4 (bytes.drop (headerBytes + (h.tokens.toNat + h.markers.toNat) *
      4))).map ofLe32).length =
      [m.rowsAt h.tokens.toNat h.markers.toNat h.next.toNat, m.config.hiddenSize].prod := by
    have hl := congrArg List.length hvalues
    rw [length_le32s, hbody] at hl
    rw [List.prod_cons, List.prod_cons, List.prod_nil, Nat.mul_one]
    omega
  refine ⟨input, ⟨_, _, hcount⟩, hids, hmarkers, hqtype, rfl, ?_, ?_⟩
  · show _ = _ ++ le32s ((chunksExact 4 _).map ofLe32)
    rw [hvalues, hwords, ← List.drop_drop, List.take_append_drop]
  · rw [importInference_of_header hmax hhead hlens hnext]
    dsimp only
    rw [reject_pass (not_not.mpr hlen), hinput, ok_bind, continuationShape_of_lt hnext]
    cases hv : m.validateInput input with
    | error e => rfl
    | ok u =>
      rw [ok_bind, call_ok, ok_bind, call_ok, ok_bind, slice_of_le (by omega) (Nat.le_refl _),
        ok_bind, ← List.length_drop, List.take_length,
        mapM_readFinite fun c hc => length_of_mem_chunksExact hc]
      by_cases hf : ∀ v ∈ (chunksExact 4 (bytes.drop (headerBytes +
          (h.tokens.toNat + h.markers.toNat) * 4))).map ofLe32, singleFinite v = true
      · have hno : ¬∃ v ∈ (chunksExact 4 (bytes.drop (headerBytes +
            (h.tokens.toNat + h.markers.toNat) * 4))).map ofLe32, ¬singleFinite v = true :=
          fun ⟨v, hv, hx⟩ => hx (hf v hv)
        rw [if_pos hf, ok_bind, Tensor.fromVec_of_length hcount, reject_pass hno]
        rfl
      · rw [if_neg hf, reject_stop (by simpa using hf)]
        rfl

/-- The bytes whose length is the one their header calls for. -/
structure LayaModel.Framed (m : LayaModel F Digest32) (t : Target) (bytes : List UInt8)
    (h : StateHeader) : Prop where
  max : bytes.length ≤ maxContinuationBytes
  head : readHeader t layq formatVersion inferenceRevision m.bundle "continuation header" bytes =
    .ok h
  lens : (1 ≤ h.tokens.toNat ∧ h.tokens.toNat ≤ maxTokens) ∧
    2 ≤ h.markers.toNat ∧ h.markers.toNat ≤ 7
  next : h.next.toNat < m.inferenceSteps
  length : bytes.length = headerBytes + (h.tokens.toNat + h.markers.toNat) * 4 +
    m.rowsAt h.tokens.toNat h.markers.toNat h.next.toNat * m.config.hiddenSize * 4

theorem LayaModel.importInference_framed (bytes : List UInt8) :
    (∃ e, m.importInference t bytes = .error (.raise e)) ∨ ∃ h, m.Framed t bytes h := by
  by_cases hmax : bytes.length ≤ maxContinuationBytes
  · have hw : bytes.length < t.words := by
      have hword := t.le_words
      unfold maxContinuationBytes headerBytes maxTokens at hmax
      omega
    cases hhead : readHeader t layq formatVersion inferenceRevision m.bundle "continuation header"
        bytes with
    | error e =>
      cases e with
      | panic => exact absurd hhead (readHeader_ne_panic hw)
      | raise e =>
        left
        exact ⟨e, by rw [importInference, reject_pass (Nat.not_lt.mpr hmax), hhead]; rfl⟩
    | ok h =>
      by_cases hlens : (1 ≤ h.tokens.toNat ∧ h.tokens.toNat ≤ maxTokens) ∧
          2 ≤ h.markers.toNat ∧ h.markers.toNat ≤ 7
      · by_cases hnext : h.next.toNat < m.inferenceSteps
        · by_cases hlen : bytes.length = headerBytes + (h.tokens.toNat + h.markers.toNat) * 4 +
              m.rowsAt h.tokens.toNat h.markers.toNat h.next.toNat * m.config.hiddenSize * 4
          · exact .inr ⟨h, hmax, hhead, hlens, hnext, hlen⟩
          · refine .inl ⟨.invalid "continuation byte length", ?_⟩
            rw [importInference_of_header hmax hhead hlens hnext]
            exact reject_stop hlen _ _
        · refine .inl ⟨.transition, ?_⟩
          rw [importInference, reject_pass (Nat.not_lt.mpr hmax), hhead, ok_bind]
          dsimp only
          rw [reject_pass (by omega)]
          exact reject_stop (Nat.not_lt.mp hnext) _ _
      · refine .inl ⟨.invalid "continuation input lengths", ?_⟩
        rw [importInference, reject_pass (Nat.not_lt.mpr hmax), hhead, ok_bind]
        exact reject_stop (by omega) _ _
  · refine .inl ⟨.tooLong, ?_⟩
    exact reject_stop (Nat.not_le.mp hmax) _ _

theorem LayaModel.importInference_ne_panic : m.importInference t bytes ≠ .error .panic := by
  rcases importInference_framed (m := m) (t := t) bytes with ⟨e, he⟩ | ⟨h, hf⟩
  · rw [he]
    exact fun hp => nomatch hp
  · obtain ⟨input, hidden, -, -, -, -, -, heq⟩ :=
      importInference_of_length hf.max hf.head hf.lens hf.next hf.length
    rw [heq]
    exact bind_ne_panic (call_ne_panic _) fun _ _ =>
      bind_ne_panic (reject_ne_panic _ _) fun _ _ hp => nomatch hp

/-- What import yields is written as the bytes it was read from. -/
theorem LayaModel.export_of_import (h : m.importInference t bytes = .ok s) :
    m.exportInference t s = .ok bytes := by
  rcases importInference_framed (m := m) (t := t) bytes with ⟨e, he⟩ | ⟨head, hf⟩
  · rw [he] at h
    cases h
  · obtain ⟨input, hidden, hids, hmarkers, hqtype, hdims, hbytes, heq⟩ :=
      importInference_of_length hf.max hf.head hf.lens hf.next hf.length
    rw [heq] at h
    simp only [bind_eq_ok, call_eq_ok, reject_eq_ok, pure_eq_ok, not_exists, not_and, not_not] at h
    obtain ⟨_, hv, _, hfinite, rfl⟩ := h
    have hhead : StateHeader.of head.next.toNat input = head := by
      rw [StateHeader.of, hids, hmarkers, hqtype]
      simp
    have hw : bytes.length < t.words := by
      have hword := t.le_words
      have hmax := hf.max
      unfold maxContinuationBytes headerBytes maxTokens at hmax
      omega
    refine exportInference_eq_ok.mpr ⟨rfl, hv, hf.next, ?_, hfinite, ?_⟩
    · rw [hids, hmarkers]
      exact hdims
    · rw [hhead, List.append_assoc, ← hbytes]
      exact (readHeader_eq_ok hw rfl).mp hf.head

/-- The input in front of two bodies that agree. -/
theorem input_inj {ids ids' marks marks' : List UInt32} {r r' : List UInt8}
    (hids : ids'.length = ids.length) (hmarks : marks'.length = marks.length)
    (h : le32s (ids' ++ marks') ++ r' = le32s (ids ++ marks) ++ r) :
    ids' = ids ∧ marks' = marks ∧ r' = r := by
  have hl : (le32s (ids' ++ marks')).length = (le32s (ids ++ marks)).length := by
    rw [length_le32s, length_le32s, List.length_append, List.length_append, hids, hmarks]
  obtain ⟨hinput, hrest⟩ := List.append_inj h hl
  obtain ⟨h₁, h₂⟩ := List.append_inj (le32s_inj hinput) hids
  exact ⟨h₁, h₂, hrest⟩

/-- What export writes is short enough and is read back. -/
theorem LayaModel.import_of_export (h : m.exportInference t s = .ok bytes) :
    bytes.length ≤ maxContinuationBytes ∧ m.importInference t bytes = .ok s := by
  obtain ⟨hb, hv, hn, hdims, hfinite, hbytes⟩ := exportInference_eq_ok.mp h
  obtain ⟨hnext, htokens, hmarkers⟩ := StateHeader.toNat_of hn hv
  have hlens := lengths_of_validateInput hv
  have hcount := s.hidden.length_eq
  rw [hdims, List.prod_cons, List.prod_cons, List.prod_nil, Nat.mul_one] at hcount
  have hle := elements_le (m := m) s.next hlens.1.2 hlens.2.2
  have hmagic : layq.length = 4 := rfl
  have hlength : bytes.length = headerBytes + (s.input.inputIds.length + s.input.markers.length) * 4
      + s.hidden.values.length * 4 := by
    rw [hbytes, List.length_append, List.length_append, StateHeader.length_bytes hmagic,
      length_le32s, length_le32s, List.length_append]
  have hmax : bytes.length ≤ maxContinuationBytes := by
    have hl := hlens
    unfold maxTokens at hl hle
    unfold maxContinuationBytes maxTokens headerBytes at *
    omega
  have hw : bytes.length < t.words := by
    have hword := t.le_words
    unfold maxContinuationBytes headerBytes maxTokens at hmax
    omega
  rw [List.append_assoc] at hbytes
  have hdrop : bytes.drop headerBytes =
      le32s (s.input.inputIds ++ s.input.markers) ++ le32s s.hidden.values := by
    rw [hbytes]
    exact List.drop_left' (StateHeader.length_bytes hmagic)
  have hhead : readHeader t layq formatVersion inferenceRevision m.bundle "continuation header"
      bytes = .ok (StateHeader.of s.next s.input) :=
    (readHeader_eq_ok hw hmagic).mpr (by rw [hdrop]; exact hbytes)
  obtain ⟨input, hidden, hids', hmarkers', hqtype', hdims', hbody, heq⟩ :=
    importInference_of_length hmax hhead (by rw [htokens, hmarkers]; exact hlens)
      (by rw [hnext]; exact hn) (by rw [htokens, hmarkers, hnext, hlength, hcount])
  rw [htokens] at hids'
  rw [hmarkers] at hmarkers'
  obtain ⟨h₁, h₂, h₃⟩ := input_inj hids' hmarkers' (hbody.symm.trans hdrop)
  have hinput : input = s.input := by
    calc input = ⟨input.inputIds, input.markers, input.qtypeId⟩ := rfl
      _ = s.input := by rw [h₁, h₂, hqtype']; rfl
  have hhidden : hidden = s.hidden := by
    refine Tensor.ext ?_ (le32s_inj h₃)
    rw [hdims', hdims, htokens, hmarkers, hnext]
  have hno : ¬∃ v ∈ s.hidden.values, ¬singleFinite v = true := fun ⟨v, hv, hx⟩ => hx (hfinite v hv)
  refine ⟨hmax, ?_⟩
  rw [heq, hinput, hv, call_ok, ok_bind, hhidden, reject_pass hno, hnext, ← hb]
  rfl

/-- The continuation codec is a bijection onto the bytes it accepts, import returns on any bytes,
and what it yields is a session before its last phase has run, with a valid input. -/
theorem layq_codec (m : LayaModel F Digest32) (t : Target) :
    (∀ s bytes, m.exportInference t s = .ok bytes →
      bytes.length ≤ maxContinuationBytes ∧ m.importInference t bytes = .ok s) ∧
      (∀ bytes s, m.importInference t bytes = .ok s →
        m.exportInference t s = .ok bytes ∧ s.next < m.inferenceSteps ∧
          m.validateInput s.input = .ok ()) ∧
      ∀ bytes, m.importInference t bytes ≠ .error .panic := by
  refine ⟨fun s bytes h => m.import_of_export h, fun bytes s h => ?_,
    fun bytes => m.importInference_ne_panic⟩
  have hexport := m.export_of_import h
  obtain ⟨-, hv, hn, -⟩ := LayaModel.exportInference_eq_ok.mp hexport
  exact ⟨hexport, hn, hv⟩

end Layq

namespace LayaModel.Zeros

def model : LayaModel ℚ Digest32 := .zeros (Vector.replicate 32 7)

/-- A session before the scorer: the markers are the rows. -/
def session : InferenceSession Digest32 := ⟨Vector.replicate 32 7, input, tensor 2, 3⟩

end LayaModel.Zeros

open LayaModel.Zeros in
theorem layq_codec_zeros : ∃ bytes, model.exportInference .bits32 session = .ok bytes ∧
    bytes.length ≤ maxContinuationBytes ∧ model.importInference .bits32 bytes = .ok session := by
  have hisOk : (model.exportInference .bits32 session).isOk = true := by decide +kernel
  obtain ⟨bytes, hbytes⟩ := exists_eq_ok hisOk
  obtain ⟨hmax, himport⟩ := (layq_codec model .bits32).1 session bytes hbytes
  exact ⟨bytes, hbytes, hmax, himport⟩

end IcLaya
