import IcLaya.QuantizedContinuation
import IcLaya.StoreLoops
import Mathlib.Data.List.ProdSigma

/-!
# The wire envelope of a query state (`query_transport.rs`, `tools/query_transport.py`)

A state is compressed behind a header of sixteen bytes; the bytes of the singles of a `LAYQ` state
are put in four lanes first. The canister has one decoder, the client two: one that unpacks a state
and one that streams it in chunks and keeps its header. The compression library is a parameter.
-/
namespace IcLaya
open Fallible PanickingCode WordStreams StoreLoops

/-- The zlib of both ends: a compressor, a reader of at most so many decoded bytes that also tells
how many it took in, and a decompressor object that is fed in pieces. -/
structure Zlib where
  compress : List UInt8 → List UInt8
  read : List UInt8 → ℕ → Except Unit (List UInt8 × ℕ)
  Decompress : Type
  decompressobj : Decompress
  decompress : Decompress → List UInt8 → ℕ → Except Unit (List UInt8 × Decompress)
  eof : Decompress → Bool
  unusedData : Decompress → List UInt8
  unconsumedTail : Decompress → List UInt8

/-- Inflating undoes deflating, takes in the whole stream and reports its end. A decompressor that
has output left to give has input left; it stops short of the end only at its limit. -/
structure Zlib.Inverse (z : Zlib) : Prop where
  read_compress : ∀ x limit, x.length < limit →
    z.read (z.compress x) limit = .ok (x, (z.compress x).length)
  decompress_compress : ∃ Pending : List UInt8 → List UInt8 → z.Decompress → Prop,
    (∀ x, Pending x (z.compress x) z.decompressobj) ∧
      ∀ output input d limit, Pending output input d → 0 < limit →
        input ≠ [] ∧ ∃ d', z.decompress d input limit = .ok (output.take limit, d') ∧
          (if z.eof d' then output.length ≤ limit ∧ z.unusedData d' = [] ∧ z.unconsumedTail d' = []
            else limit ≤ output.length ∧ Pending (output.drop limit) (z.unconsumedTail d') d')

/-- `b"LAYZ"`. -/
def layz : List UInt8 := [0x4c, 0x41, 0x59, 0x5a]

def transportHeader : ℕ := 16

/-- `invalid`. -/
def transportInvalid : Error := .invalid "query transport envelope"

/-- `read(i)`. -/
def transportWord (bytes : List UInt8) (i : ℕ) : Code Error UInt32 := do
  let chunk ← slice bytes i (i + 4)
  fromLeBytes chunk

def floatOffset (raw : List UInt8) : Code Error ℕ := do
  reject (raw.length < 60) transportInvalid
  let magic ← slice raw 0 4
  reject (magic ≠ layq) transportInvalid
  let tokens ← transportWord raw 52
  let markers ← transportWord raw 56
  let tokens := tokens.toNat
  let markers := markers.toNat
  reject (¬(1 ≤ tokens ∧ tokens ≤ 128) ∨ ¬(2 ≤ markers ∧ markers ≤ 7)) transportInvalid
  let offset := 60 + 4 * (tokens + markers)
  reject (raw.length < offset ∨ (raw.length - offset) % 4 ≠ 0) transportInvalid
  pure offset

/-- The bytes of `n` words by lanes, or back from them. -/
def shuffle (raw : List UInt8) (inverse : Bool) : Code Error (List UInt8) := do
  let offset ← floatOffset raw
  let n := (raw.length - offset) / 4
  let planar (p : ℕ × ℕ) := offset + p.1 * n + p.2
  let packed (p : ℕ × ℕ) := offset + 4 * p.2 + p.1
  let result := raw.take offset ++ List.replicate (raw.length - offset) 0
  -- lane by lane
  if inverse then copyLoop raw planar packed (List.range 4 ×ˢ List.range n) result
  else copyLoop raw packed planar (List.range 4 ×ˢ List.range n) result

section Canister
variable (z : Zlib)

/-- The codec of a state, by its magic, and the bytes that are compressed. -/
def prepare (raw : List UInt8) : Code Error (UInt32 × List UInt8) := do
  let magic ← slice raw 0 4
  if magic = layq then
    let shuffled ← shuffle raw false
    pure (2, shuffled)
  else if magic = layi then pure (1, raw)
  else throw (.raise transportInvalid)

def pack (raw : List UInt8) : Code Error (List UInt8) := do
  reject (maxContinuationBytes < raw.length ∨ raw.length < 60) transportInvalid
  let (codec, prepared) ← prepare raw
  let compressed := z.compress prepared
  -- incompressible input remains in the original format
  if raw.length ≤ compressed.length + transportHeader then pure raw
  else pure (layz ++ le32s [1, codec, UInt32.ofNat raw.length] ++ compressed)

def unpack (wire : List UInt8) : Code Error (List UInt8) := do
  reject (maxContinuationBytes < wire.length) .tooLong
  if ¬layz <+: wire then pure wire
  else
    reject (wire.length < transportHeader) transportInvalid
    let codec ← transportWord wire 8
    let size ← transportWord wire 12
    let size := size.toNat
    let version ← transportWord wire 4
    reject (version ≠ 1 ∨ ¬(codec = 1 ∨ codec = 2) ∨ ¬(60 ≤ size ∧ size ≤ maxContinuationBytes))
      transportInvalid
    let body ← slice wire transportHeader wire.length
    let (raw, totalIn) ← call ((z.read body (size + 1)).mapError fun _ => transportInvalid)
    reject (raw.length ≠ size ∨ totalIn ≠ wire.length - transportHeader) transportInvalid
    if codec = 2 then shuffle raw true
    else
      reject (¬layi <+: raw) transportInvalid
      pure raw

end Canister

section Client
variable (z : Zlib)

/-- What the client's functions raise. -/
abbrev Failure := String

/-- `struct.unpack_from("<II", ..)`. -/
def unpackFrom (count : ℕ) (bytes : List UInt8) (offset : ℕ) : Except Failure (List UInt32) := do
  rejectIf (bytes.length < offset + count * 4) "unpack_from requires a buffer"
  pure ((List.range count).map fun i => wordAt bytes (offset + i * 4))

/-- `restored[lane::4] = xs`. -/
def assignStride (restored : List UInt8) (lane : ℕ) (xs : List UInt8) :
    Except Failure (List UInt8) := do
  rejectIf (xs.length ≠ (restored.length - lane + 3) / 4)
    "attempt to assign bytes to extended slice"
  pure (restored.mapIdx fun j b => if j % 4 = lane then xs.getD (j / 4) b else b)

/-- The version, codec and size of an envelope. -/
def envelopeHeader (wire : List UInt8) : Except Failure (UInt32 × ℕ) := do
  rejectIf (wire.length < 16) "truncated query transport header"
  let words ← unpackFrom 3 wire 4
  let version := words.getD 0 0
  let codec := words.getD 1 0
  let size := (words.getD 2 0).toNat
  rejectIf (version ≠ 1 ∨ ¬(codec = 1 ∨ codec = 2) ∨ ¬(60 ≤ size ∧ size ≤ maxContinuationBytes))
    "unsupported query transport header"
  pure (codec, size)

/-- The chunks of a stream are counted and thrown away but for the first sixty bytes. Every round
takes one unit of fuel. -/
def inspectLoop (size : ℕ) : ℕ → z.Decompress → List UInt8 → List UInt8 → ℕ →
    Option (Except Failure (z.Decompress × List UInt8 × List UInt8 × ℕ))
  | 0, _, _, _, _ => none
  | fuel + 1, decoder, pending, header, count =>
    if pending = [] then some (.ok (decoder, pending, header, count))
    else
      match z.decompress decoder pending (min 65536 (size + 1 - count)) with
      | .error _ => some (.error "invalid compressed query state")
      | .ok (chunk, decoder) =>
        let count := count + chunk.length
        let header := header ++ chunk.take (60 - header.length)
        if size < count then some (.error "compressed query state length differs")
        else
          let pending := z.unconsumedTail decoder
          if z.eof decoder then some (.ok (decoder, pending, header, count))
          else inspectLoop size fuel decoder pending header count

/-- The checks of `inspect_state` on the header it kept. -/
def inspectHeader (codec : Option UInt32) (header : List UInt8) (size : ℕ) :
    Except Failure (List UInt8 × ℕ) := do
  rejectIf (header.length < 60 ∨ ¬(header.take 4 = layq ∨ header.take 4 = layi))
    "invalid continuation header"
  rejectIf (∃ c ∈ codec, header.take 4 ≠ if c = 1 then layi else layq)
    "query transport codec differs from state"
  let words ← unpackFrom 2 header 52
  let tokens := (words.getD 0 0).toNat
  let markers := (words.getD 1 0).toNat
  let offset := 60 + 4 * (tokens + markers)
  rejectIf (¬(1 ≤ tokens ∧ tokens ≤ 128) ∨ ¬(2 ≤ markers ∧ markers ≤ 7) ∨ size < offset)
    "invalid continuation lengths"
  rejectIf (header.take 4 = layq ∧ (size - offset) % 4 ≠ 0) "invalid shuffled query state"
  pure (header, size)

/-- `inspect_state`; no result when the fuel runs out. -/
def inspectState (fuel : ℕ) (wire : List UInt8) : Option (Except Failure (List UInt8 × ℕ)) :=
  if maxContinuationBytes < wire.length then some (.error "query state exceeds transport limit")
  else if layz <+: wire then
    match envelopeHeader wire with
    | .error e => some (.error e)
    | .ok (codec, size) =>
      match inspectLoop z size fuel z.decompressobj (wire.drop 16) [] 0 with
      | none => none
      | some (.error e) => some (.error e)
      | some (.ok (decoder, pending, header, count)) => some (do
          rejectIf (count ≠ size ∨ ¬z.eof decoder ∨ z.unusedData decoder ≠ [] ∨ pending ≠ [])
            "compressed query state length differs"
          inspectHeader (some codec) header size)
  else some (inspectHeader none (wire.take 60) wire.length)

def unpackState (wire : List UInt8) : Except Failure (List UInt8) := do
  rejectIf (maxContinuationBytes < wire.length) "query state exceeds transport limit"
  if ¬layz <+: wire then pure wire
  else
    let (codec, size) ← envelopeHeader wire
    let (raw, decoder) ← (z.decompress z.decompressobj (wire.drop 16) (size + 1)).mapError fun _ =>
      "invalid compressed query state"
    rejectIf (raw.length ≠ size ∨ ¬z.eof decoder ∨ z.unusedData decoder ≠ [] ∨
      z.unconsumedTail decoder ≠ []) "compressed query state length differs"
    if codec = 1 then do
      rejectIf (¬layi <+: raw) "INT8 transport codec requires INT8 state"
      pure raw
    else do
      rejectIf (raw.length < 60 ∨ raw.take 4 ≠ layq) "F32 transport codec requires F32 state"
      let words ← unpackFrom 2 raw 52
      let tokens := (words.getD 0 0).toNat
      let markers := (words.getD 1 0).toNat
      let offset := 60 + 4 * (tokens + markers)
      rejectIf (¬(1 ≤ tokens ∧ tokens ≤ 128) ∨ ¬(2 ≤ markers ∧ markers ≤ 7) ∨
        raw.length < offset ∨ (raw.length - offset) % 4 ≠ 0) "invalid shuffled query state"
      let planes := raw.drop offset
      let n := planes.length / 4
      let restored ← (List.range 4).foldlM (fun restored lane =>
        assignStride restored lane ((planes.drop (lane * n)).take n))
        (List.replicate planes.length 0)
      pure (raw.take offset ++ restored)

end Client

section Lanes
variable {raw raw' r : List UInt8} {offset n : ℕ}

theorem transportWord_of_le {bytes : List UInt8} {i : ℕ} (h : i + 4 ≤ bytes.length) :
    transportWord bytes i = .ok (wordAt bytes i) := by
  have hlength : ((bytes.drop i).take (i + 4 - i)).length = 4 := by
    rw [List.length_take, List.length_drop]
    omega
  rw [transportWord, slice_of_le (by omega) h, ok_bind, fromLeBytes_of_length hlength, wordAt,
    Nat.add_sub_cancel_left]

/-- The states whose singles can be put in lanes. -/
theorem floatOffset_eq_ok : floatOffset raw = .ok offset ↔
    60 ≤ raw.length ∧ raw.take 4 = layq ∧
      (1 ≤ (wordAt raw 52).toNat ∧ (wordAt raw 52).toNat ≤ 128) ∧
      (2 ≤ (wordAt raw 56).toNat ∧ (wordAt raw 56).toNat ≤ 7) ∧
      offset = 60 + 4 * ((wordAt raw 52).toNat + (wordAt raw 56).toNat) ∧
      offset ≤ raw.length ∧ (raw.length - offset) % 4 = 0 := by
  by_cases h60 : raw.length < 60
  · rw [floatOffset, reject_stop h60]
    constructor
    · exact fun h => nomatch h
    · exact fun h => absurd h.1 (Nat.not_le.mpr h60)
  · have hle : 60 ≤ raw.length := Nat.not_lt.mp h60
    have hmagic : slice raw 0 4 = (.ok (raw.take 4) : Code Error _) := by
      rw [slice_of_le (by omega) (by omega)]
      rfl
    simp only [floatOffset, reject_pass h60, hmagic, ok_bind,
      transportWord_of_le (show 52 + 4 ≤ raw.length by omega),
      transportWord_of_le (show 56 + 4 ≤ raw.length by omega), bind_eq_ok, reject_eq_ok, not_not,
      pure_eq_ok, not_or, not_lt]
    constructor
    · rintro ⟨_, hm, _, ⟨ht, hk⟩, _, ⟨ho, hmod⟩, rfl⟩
      exact ⟨hle, hm, ht, hk, rfl, ho, hmod⟩
    · rintro ⟨-, hm, ht, hk, rfl, ho, hmod⟩
      exact ⟨(), hm, (), ⟨ht, hk⟩, (), ⟨ho, hmod⟩, rfl⟩

theorem wordAt_of_take {k i : ℕ} (h : raw.take k = raw'.take k) (hi : i + 4 ≤ k) :
    wordAt raw i = wordAt raw' i := by
  have hread : ∀ xs : List UInt8, (xs.drop i).take 4 = ((xs.take k).drop i).take 4 := by
    intro xs
    rw [List.drop_take, List.take_take, Nat.min_eq_left (by omega)]
  rw [wordAt, wordAt, hread raw, hread raw', h]

/-- The offset is read from the length and the header. -/
theorem floatOffset_congr (hl : raw.length = raw'.length) (h : raw.take 60 = raw'.take 60) :
    floatOffset raw = .ok offset → floatOffset raw' = .ok offset := by
  have hmagic : raw.take 4 = raw'.take 4 := by
    have h4 := congrArg (List.take 4) h
    rwa [List.take_take, List.take_take] at h4
  rw [floatOffset_eq_ok, floatOffset_eq_ok, hl, hmagic, wordAt_of_take h (by omega),
    wordAt_of_take (i := 56) h (by omega)]
  exact id

/-- The words of a state by their lanes: what stands where, in both directions. -/
structure Lanes (offset n : ℕ) (words planes : List UInt8) : Prop where
  length_words : words.length = offset + 4 * n
  length_planes : planes.length = offset + 4 * n
  header : ∀ k, k < offset → planes[k]? = words[k]?
  lane : ∀ lane i, lane < 4 → i < n →
    planes[offset + lane * n + i]? = words[offset + 4 * i + lane]?

theorem Lanes.words_unique {words words' planes : List UInt8} (h : Lanes offset n words planes)
    (h' : Lanes offset n words' planes) : words = words' := by
  apply List.ext_getElem?
  intro k
  by_cases hk : k < offset
  · rw [← h.header k hk, h'.header k hk]
  · by_cases hlt : k < offset + 4 * n
    · have hsplit : k = offset + 4 * ((k - offset) / 4) + (k - offset) % 4 := by omega
      rw [hsplit, ← h.lane _ _ (Nat.mod_lt _ (by omega)) (by omega),
        h'.lane _ _ (Nat.mod_lt _ (by omega)) (by omega)]
    · rw [List.getElem?_eq_none (by rw [h.length_words]; omega),
        List.getElem?_eq_none (by rw [h'.length_words]; omega)]

theorem Lanes.planes_unique {words planes planes' : List UInt8} (h : Lanes offset n words planes)
    (h' : Lanes offset n words planes') : planes = planes' := by
  apply List.ext_getElem?
  intro k
  by_cases hk : k < offset
  · rw [h.header k hk, h'.header k hk]
  · by_cases hlt : k < offset + 4 * n
    · have hn : 0 < n := by omega
      have hlane : (k - offset) / n < 4 := (Nat.div_lt_iff_lt_mul hn).mpr (by omega)
      have hsplit : k = offset + (k - offset) / n * n + (k - offset) % n := by
        have hdiv := Nat.div_add_mod' (k - offset) n
        omega
      rw [hsplit, h.lane _ _ hlane (Nat.mod_lt _ hn), h'.lane _ _ hlane (Nat.mod_lt _ hn)]
    · rw [List.getElem?_eq_none (by rw [h.length_planes]; omega),
        List.getElem?_eq_none (by rw [h'.length_planes]; omega)]

theorem Lanes.take_eq {words planes : List UInt8} (h : Lanes offset n words planes) {k : ℕ}
    (hk : k ≤ offset) : planes.take k = words.take k := by
  apply List.ext_getElem?
  intro i
  by_cases hi : i < k
  · rw [List.getElem?_take_of_lt hi, List.getElem?_take_of_lt hi, h.header i (by omega)]
  · rw [List.getElem?_take_eq_none (by omega), List.getElem?_take_eq_none (by omega)]

private theorem mem_lanes {p : ℕ × ℕ} : p ∈ List.range 4 ×ˢ List.range n ↔ p.1 < 4 ∧ p.2 < n := by
  rw [List.mem_product, List.mem_range, List.mem_range]

/-- The loop of `shuffle` in both directions. -/
theorem shuffle_lanes (h : floatOffset raw = .ok offset) :
    (∃ planes, shuffle raw false = .ok planes ∧
      Lanes offset ((raw.length - offset) / 4) raw planes) ∧
      ∃ words, shuffle raw true = .ok words ∧
        Lanes offset ((raw.length - offset) / 4) words raw := by
  obtain ⟨-, -, -, -, -, hle, hmod⟩ := floatOffset_eq_ok.mp h
  generalize hn : (raw.length - offset) / 4 = n
  have hlen : raw.length = offset + 4 * n := by omega
  have hbuffer : (raw.take offset ++ List.replicate (raw.length - offset) 0).length =
      raw.length := by
    rw [List.length_append, List.length_take, List.length_replicate]
    omega
  have hheader : ∀ k, k < offset →
      (raw.take offset ++ List.replicate (raw.length - offset) 0)[k]? = raw[k]? := by
    intro k hk
    rw [List.getElem?_append_left (by rw [List.length_take]; omega), List.getElem?_take_of_lt hk]
  have hplanar : ∀ p ∈ List.range 4 ×ˢ List.range n, offset + p.1 * n + p.2 < offset + 4 * n := by
    intro p hp
    obtain ⟨h₁, h₂⟩ := mem_lanes.mp hp
    have hrow := row_lt h₁ h₂
    omega
  have hpacked : ∀ p ∈ List.range 4 ×ˢ List.range n, offset + 4 * p.2 + p.1 < offset + 4 * n := by
    intro p hp
    obtain ⟨h₁, h₂⟩ := mem_lanes.mp hp
    omega
  rw [← hlen] at hplanar hpacked
  constructor
  · obtain ⟨r, hr, hlength, hcopied, hkept⟩ := copyLoop_eq_ok (ε := Error) raw
      (raw.take offset ++ List.replicate (raw.length - offset) 0) hpacked
      (fun p hp => (hplanar p hp).trans_eq hbuffer.symm) (fun p hp q hq he => by
        have hcell : offset + p.1 * n + p.2 = offset + q.1 * n + q.2 := he
        have hrow := row_inj (a := p.1) (b := q.1) (mem_lanes.mp hp).2 (mem_lanes.mp hq).2 (by omega)
        exact Prod.ext hrow.1 hrow.2)
    refine ⟨r, ?_, hlen, by rw [hlength, hbuffer, hlen], fun k hk => ?_, fun lane i hl hi =>
      hcopied (lane, i) (mem_lanes.mpr ⟨hl, hi⟩)⟩
    · rw [shuffle, h, ok_bind]
      dsimp only
      rw [hn]
      exact hr
    · rw [hkept k fun p hp => by omega, hheader k hk]
  · obtain ⟨r, hr, hlength, hcopied, hkept⟩ := copyLoop_eq_ok (ε := Error) raw
      (raw.take offset ++ List.replicate (raw.length - offset) 0) hplanar
      (fun p hp => (hpacked p hp).trans_eq hbuffer.symm) (fun p hp q hq he => by
        obtain ⟨hp₁, -⟩ := mem_lanes.mp hp
        obtain ⟨hq₁, -⟩ := mem_lanes.mp hq
        exact Prod.ext (by omega) (by omega))
    refine ⟨r, ?_, by rw [hlength, hbuffer, hlen], hlen, fun k hk => ?_, fun lane i hl hi =>
      (hcopied (lane, i) (mem_lanes.mpr ⟨hl, hi⟩)).symm⟩
    · rw [shuffle, h, ok_bind]
      dsimp only
      rw [hn]
      exact hr
    · rw [hkept k fun p hp => by omega, hheader k hk]

theorem Lanes.floatOffset_iff {words planes : List UInt8} (h : Lanes offset n words planes)
    (h60 : 60 ≤ offset) : floatOffset planes = .ok offset ↔ floatOffset words = .ok offset := by
  have hl : planes.length = words.length := h.length_planes.trans h.length_words.symm
  have ht := h.take_eq h60
  exact ⟨floatOffset_congr hl ht, floatOffset_congr hl.symm ht.symm⟩

/-- Each direction of `shuffle` undoes the other. -/
theorem shuffle_undone (inverse : Bool) (h : floatOffset raw = .ok offset) :
    ∃ r, shuffle raw inverse = .ok r ∧ r.length = raw.length ∧ floatOffset r = .ok offset ∧
      r.take 60 = raw.take 60 ∧ shuffle r (!inverse) = .ok raw := by
  obtain ⟨-, -, ht, -, ho, -⟩ := floatOffset_eq_ok.mp h
  have h60 : 60 ≤ offset := by omega
  obtain ⟨⟨planes, hplanes, hlp⟩, words, hwords, hlw⟩ := shuffle_lanes h
  cases inverse with
  | false =>
    have hoff := (hlp.floatOffset_iff h60).mpr h
    have hl : planes.length = raw.length := hlp.length_planes.trans hlp.length_words.symm
    obtain ⟨-, back, hback, hlb⟩ := shuffle_lanes hoff
    rw [hl] at hlb
    exact ⟨planes, hplanes, hl, hoff, hlp.take_eq h60, by rw [← hlb.words_unique hlp]; exact hback⟩
  | true =>
    have hoff := (hlw.floatOffset_iff h60).mp h
    have hl : words.length = raw.length := hlw.length_words.trans hlw.length_planes.symm
    obtain ⟨⟨back, hback, hlb⟩, -⟩ := shuffle_lanes hoff
    rw [hl] at hlb
    exact ⟨words, hwords, hl, hoff, (hlw.take_eq h60).symm, by
      rw [← hlb.planes_unique hlw]; exact hback⟩

end Lanes

/-- A state as it is compressed. -/
inductive Prepared (raw : List UInt8) : UInt32 → List UInt8 → Prop
  | f32 {p : List UInt8} (magic : raw.take 4 = layq) (shuffled : shuffle raw false = .ok p) :
      Prepared raw 2 p
  | int8 (magic : raw.take 4 = layi) : Prepared raw 1 raw

/-- The envelope of a compressed body. -/
def envelope (codec : UInt32) (size : ℕ) (body : List UInt8) : List UInt8 :=
  layz ++ le32s [1, codec, UInt32.ofNat size] ++ body

section Packing
variable {z : Zlib} {raw w x body p : List UInt8} {codec : UInt32} {size : ℕ}

theorem Prepared.facts (h : Prepared raw codec p) : p.length = raw.length ∧
    p.take 60 = raw.take 60 ∧ (codec = 1 ∨ codec = 2) ∧ (raw.take 4 = layq ∨ raw.take 4 = layi) := by
  cases h with
  | f32 magic shuffled =>
    obtain ⟨offset, hoffset, -⟩ := bind_eq_ok.mp shuffled
    obtain ⟨r, hr, hlength, -, htake, -⟩ := shuffle_undone false hoffset
    obtain rfl : p = r := Except.ok.inj (shuffled.symm.trans hr)
    exact ⟨hlength, htake, .inr rfl, .inl magic⟩
  | int8 magic => exact ⟨rfl, rfl, .inl rfl, .inr magic⟩

theorem length_envelope (codec : UInt32) (size : ℕ) (body : List UInt8) :
    (envelope codec size body).length = transportHeader + body.length := by
  simp only [envelope, layz, le32s, List.length_append, List.length_flatMap, transportHeader]
  simp

theorem envelope_prefix : layz <+: envelope codec size body :=
  ⟨le32s [1, codec, UInt32.ofNat size] ++ body, by rw [envelope, List.append_assoc]⟩

/-- The words of an envelope and what is behind them. -/
theorem envelope_words (codec : UInt32) (body : List UInt8) (hs : size < 2 ^ 32) :
    wordAt (envelope codec size body) 4 = 1 ∧
    wordAt (envelope codec size body) 8 = codec ∧
    (wordAt (envelope codec size body) 12).toNat = size ∧
    (envelope codec size body).drop transportHeader = body := by
  have h4 : (envelope codec size body).drop 4 =
      le32 1 ++ (le32 codec ++ (le32 (UInt32.ofNat size) ++ body)) := by
    rw [envelope, List.append_assoc]
    refine (List.drop_left' (rfl : layz.length = 4)).trans ?_
    rw [le32s_cons, le32s_cons, le32s_cons, le32s_nil, List.append_nil, List.append_assoc,
      List.append_assoc]
  obtain ⟨hversion, h8⟩ := read_word h4
  obtain ⟨hcodec, h12⟩ := read_word h8
  obtain ⟨hsize, h16⟩ := read_word h12
  refine ⟨hversion, hcodec, ?_, h16⟩
  rw [hsize, UInt32.toNat_ofNat']
  exact Nat.mod_eq_of_lt hs

theorem prepare_eq_ok (h : 60 ≤ raw.length) : prepare raw = .ok (codec, p) ↔
    Prepared raw codec p := by
  have hmagic : slice raw 0 4 = (.ok (raw.take 4) : Code Error _) := by
    rw [slice_of_le (by omega) (by omega)]
    rfl
  have hne : layi ≠ layq := by decide
  rw [prepare, hmagic, ok_bind]
  constructor
  · intro hp
    split at hp
    · next hq =>
      simp only [bind_eq_ok, pure_eq_ok, Prod.mk.injEq] at hp
      obtain ⟨q, hq', rfl, rfl⟩ := hp
      exact .f32 hq hq'
    · split at hp
      · next hi =>
        simp only [pure_eq_ok, Prod.mk.injEq] at hp
        obtain ⟨rfl, rfl⟩ := hp
        exact .int8 hi
      · cases hp
  · intro hp
    cases hp with
    | f32 hq hp =>
      rw [if_pos hq, hp]
      rfl
    | int8 hi =>
      rw [if_neg fun hq => hne (hi.symm.trans hq), if_pos hi]
      rfl

theorem pack_eq_ok : pack z raw = .ok w ↔
    60 ≤ raw.length ∧ raw.length ≤ maxContinuationBytes ∧ ∃ codec p, Prepared raw codec p ∧
      w = if raw.length ≤ (z.compress p).length + transportHeader then raw
        else envelope codec raw.length (z.compress p) := by
  have hout : ∀ codec p, (if raw.length ≤ (z.compress p).length + transportHeader then pure raw
      else pure (layz ++ le32s [1, codec, UInt32.ofNat raw.length] ++ z.compress p) :
        Code Error _) = .ok (if raw.length ≤ (z.compress p).length + transportHeader then raw
        else envelope codec raw.length (z.compress p)) := by
    intro codec p
    split <;> rfl
  simp only [pack, bind_eq_ok, reject_eq_ok, hout, Except.ok.injEq, not_or, not_lt]
  constructor
  · rintro ⟨_, ⟨hmax, h60⟩, ⟨codec, p⟩, hp, rfl⟩
    exact ⟨h60, hmax, codec, p, (prepare_eq_ok h60).mp hp, rfl⟩
  · rintro ⟨h60, hmax, codec, p, hp, rfl⟩
    exact ⟨(), ⟨hmax, h60⟩, (codec, p), (prepare_eq_ok h60).mpr hp, rfl⟩

/-- What an accepted wire is unpacked to. -/
theorem unpack_eq_ok (h : unpack z w = .ok x) : w.length ≤ maxContinuationBytes ∧
    (¬layz <+: w ∧ x = w ∨ layz <+: w ∧ ∃ y, 60 ≤ (wordAt w 12).toNat ∧
      (wordAt w 12).toNat ≤ maxContinuationBytes ∧
      z.read (w.drop transportHeader) ((wordAt w 12).toNat + 1) =
        .ok (y, (w.drop transportHeader).length) ∧ y.length = (wordAt w 12).toNat ∧
      (wordAt w 8 = 2 ∧ shuffle y true = .ok x ∨
        wordAt w 8 = 1 ∧ layi <+: y ∧ x = y)) := by
  simp only [unpack, bind_eq_ok, reject_eq_ok, not_lt] at h
  obtain ⟨_, hmax, h⟩ := h
  refine ⟨hmax, ?_⟩
  by_cases hz : layz <+: w
  · rw [if_neg (not_not.mpr hz)] at h
    obtain ⟨_, h16, h⟩ := bind_eq_ok.mp h
    have h16 : transportHeader ≤ w.length := Nat.not_lt.mp (reject_eq_ok.mp h16)
    unfold transportHeader at *
    rw [transportWord_of_le (by omega), ok_bind, transportWord_of_le (by omega), ok_bind,
      transportWord_of_le (by omega), ok_bind, slice_of_le h16 (Nat.le_refl _),
      ← List.length_drop, List.take_length] at h
    simp only [bind_eq_ok, reject_eq_ok, ok_bind, call_eq_ok, mapError_eq_ok, not_or, not_not,
      Prod.exists] at h
    obtain ⟨_, ⟨-, hcodec, h60, hsize⟩, y, total, hread, _, ⟨hy, htotal⟩, h⟩ := h
    subst htotal
    refine .inr ⟨hz, y, h60, hsize, hread, hy, ?_⟩
    by_cases h2 : wordAt w 8 = 2
    · rw [if_pos h2] at h
      exact .inl ⟨h2, h⟩
    · rw [if_neg h2] at h
      simp only [bind_eq_ok, reject_eq_ok, not_not, pure_eq_ok] at h
      obtain ⟨_, hi, rfl⟩ := h
      have h1 : wordAt w 8 = 1 := by
        by_contra h1
        exact hcodec ⟨h1, h2⟩
      exact .inr ⟨h1, hi, rfl⟩
  · rw [if_pos hz, pure_eq_ok] at h
    exact .inl ⟨hz, h.symm⟩

private theorem take_four {xs ys : List UInt8} (h : xs.take 4 = ys) : ys <+: xs :=
  ⟨xs.drop 4, by rw [← h, List.take_append_drop]⟩

/-- The canister unpacks what it packs. -/
theorem unpack_envelope (hz : z.Inverse) (hp : Prepared raw codec p) (h60 : 60 ≤ raw.length)
    (hmax : raw.length ≤ maxContinuationBytes)
    (hshort : (z.compress p).length + transportHeader < raw.length) :
    unpack z (envelope codec raw.length (z.compress p)) = .ok raw := by
  obtain ⟨hlength, -, hcodec, -⟩ := hp.facts
  have hsmall : raw.length < 2 ^ 32 := by
    unfold maxContinuationBytes headerBytes maxTokens at hmax
    omega
  obtain ⟨hversion, hword, hsize, hbody⟩ := envelope_words codec (z.compress p) hsmall
  have hl := length_envelope codec raw.length (z.compress p)
  have hwire : ¬maxContinuationBytes < (envelope codec raw.length (z.compress p)).length := by
    omega
  have hh : transportHeader = 16 := rfl
  have hread : z.read (z.compress p) (raw.length + 1) = .ok (p, (z.compress p).length) :=
    hz.read_compress p _ (by omega)
  have hchecks : ¬(wordAt (envelope codec raw.length (z.compress p)) 4 ≠ 1 ∨
      ¬(codec = 1 ∨ codec = 2) ∨ ¬(60 ≤ raw.length ∧ raw.length ≤ maxContinuationBytes)) := by
    rintro (hv | hc | hb)
    · exact hv hversion
    · exact hc hcodec
    · exact hb ⟨h60, hmax⟩
  rw [unpack, reject_pass hwire, if_neg (not_not.mpr envelope_prefix), reject_pass (by omega),
    transportWord_of_le (by omega), ok_bind, transportWord_of_le (by omega), ok_bind, hsize, hword,
    transportWord_of_le (by omega), ok_bind, reject_pass hchecks,
    slice_of_le (by omega) (Nat.le_refl _), ok_bind, ← List.length_drop, List.take_length, hbody,
    hread]
  show (reject (p.length ≠ raw.length ∨ (z.compress p).length ≠ _) transportInvalid >>= _) = _
  rw [reject_pass (by omega)]
  cases hp with
  | f32 magic shuffled =>
    obtain ⟨offset, hoffset, -⟩ := bind_eq_ok.mp shuffled
    obtain ⟨r, hr, -, -, -, hback⟩ := shuffle_undone false hoffset
    obtain rfl : p = r := Except.ok.inj (shuffled.symm.trans hr)
    rw [if_pos rfl]
    exact hback
  | int8 magic =>
    rw [if_neg (by decide), reject_pass (not_not.mpr (take_four magic))]
    rfl

theorem unpackFrom_of_le {count offset : ℕ} {bytes : List UInt8}
    (h : offset + count * 4 ≤ bytes.length) : unpackFrom count bytes offset =
      .ok ((List.range count).map fun i => wordAt bytes (offset + i * 4)) := by
  rw [unpackFrom, rejectIf_bind (Nat.not_lt.mpr h)]
  rfl

theorem envelopeHeader_envelope (hcodec : codec = 1 ∨ codec = 2) (h60 : 60 ≤ size)
    (hmax : size ≤ maxContinuationBytes) :
    envelopeHeader (envelope codec size body) = .ok (codec, size) := by
  have hsmall : size < 2 ^ 32 := by
    unfold maxContinuationBytes headerBytes maxTokens at hmax
    omega
  obtain ⟨hversion, hword, hsize, -⟩ := envelope_words codec body hsmall
  have hl := length_envelope codec size body
  unfold transportHeader at hl
  have hchecks : ¬(wordAt (envelope codec size body) 4 ≠ 1 ∨ ¬(codec = 1 ∨ codec = 2) ∨
      ¬(60 ≤ size ∧ size ≤ maxContinuationBytes)) := by
    rintro (hv | hc | hb)
    · exact hv hversion
    · exact hc hcodec
    · exact hb ⟨h60, hmax⟩
  rw [envelopeHeader, rejectIf_bind (by omega), unpackFrom_of_le (by omega), ok_bind]
  show (rejectIf (wordAt _ 4 ≠ 1 ∨ ¬(wordAt _ 8 = 1 ∨ wordAt _ 8 = 2) ∨
    ¬(60 ≤ (wordAt _ 12).toNat ∧ (wordAt _ 12).toNat ≤ maxContinuationBytes)) _ >>= fun _ =>
      pure (wordAt _ 8, (wordAt _ 12).toNat)) = _
  rw [hword, hsize, rejectIf_bind hchecks]
  rfl

/-- The first lanes put back. -/
private theorem restore_lanes {planes : List UInt8} {n : ℕ} (hl : planes.length = 4 * n) (count : ℕ)
    (hc : count ≤ 4) : ∃ r, (List.range count).foldlM (fun restored lane =>
        assignStride restored lane ((planes.drop (lane * n)).take n))
        (List.replicate planes.length 0) = .ok r ∧ r.length = planes.length ∧
      ∀ i lane, i < n → lane < count → r[4 * i + lane]? = planes[lane * n + i]? := by
  induction count with
  | zero => exact ⟨_, rfl, List.length_replicate, fun i lane _ h => absurd h (Nat.not_lt_zero _)⟩
  | succ count ih =>
    obtain ⟨r, hr, hlength, hcells⟩ := ih (by omega)
    have hrow : ((planes.drop (count * n)).take n).length = n := by
      have hle : count * n ≤ 3 * n := Nat.mul_le_mul_right n (by omega)
      rw [List.length_take, List.length_drop]
      omega
    have hfits : ¬((planes.drop (count * n)).take n).length ≠ (r.length - count + 3) / 4 := by
      rw [hrow, hlength, hl]
      omega
    refine ⟨r.mapIdx fun j b => if j % 4 = count
      then ((planes.drop (count * n)).take n).getD (j / 4) b else b, ?_, ?_, ?_⟩
    · rw [List.range_succ, List.foldlM_append, hr, ok_bind, List.foldlM_cons, assignStride,
        rejectIf_bind hfits]
      rfl
    · rw [List.length_mapIdx, hlength]
    · intro i lane hi hlane
      have hcell : 4 * i + lane < r.length := by omega
      have hdiv : (4 * i + lane) / 4 = i := by omega
      have hmod : (4 * i + lane) % 4 = lane := by omega
      rw [List.getElem?_mapIdx, List.getElem?_eq_getElem hcell, Option.map_some, hdiv, hmod]
      by_cases he : lane = count
      · subst he
        have hin : lane * n + i < planes.length := by
          rw [hl]
          exact row_lt (by omega) hi
        rw [if_pos rfl, List.getD_eq_getElem?_getD, List.getElem?_take_of_lt hi,
          List.getElem?_drop, List.getElem?_eq_getElem hin]
        rfl
      · rw [if_neg he, ← hcells i lane hi (by omega), List.getElem?_eq_getElem hcell]

/-- The client puts the lanes of a state back. -/
theorem restored_lanes {planes : List UInt8} {offset : ℕ} (h : floatOffset planes = .ok offset) :
    ∃ r, (List.range 4).foldlM (fun restored lane => assignStride restored lane
        (((planes.drop offset).drop (lane * ((planes.drop offset).length / 4))).take
          ((planes.drop offset).length / 4)))
        (List.replicate (planes.drop offset).length 0) = .ok r ∧
      shuffle planes true = .ok (planes.take offset ++ r) := by
  obtain ⟨-, -, -, -, -, hle, hmod⟩ := floatOffset_eq_ok.mp h
  generalize hn : (planes.drop offset).length / 4 = n
  rw [List.length_drop] at hn
  have hl : (planes.drop offset).length = 4 * n := by
    rw [List.length_drop]
    omega
  obtain ⟨r, hr, hlength, hcells⟩ := restore_lanes hl 4 (Nat.le_refl 4)
  obtain ⟨-, words, hwords, hlanes⟩ := shuffle_lanes h
  rw [hn] at hlanes
  have htake : (planes.take offset).length = offset := by
    rw [List.length_take]
    omega
  have hback : Lanes offset n (planes.take offset ++ r) planes := by
    refine ⟨?_, hlanes.length_planes, fun k hk => ?_, fun lane i hlane hi => ?_⟩
    · rw [List.length_append, htake, hlength, hl]
    · rw [List.getElem?_append_left (by omega), List.getElem?_take_of_lt hk]
    · have hcell := hcells i lane hi hlane
      rw [List.getElem?_drop] at hcell
      rw [List.getElem?_append_right (by omega), htake]
      have hindex : offset + 4 * i + lane - offset = 4 * i + lane := by omega
      rw [hindex, hcell, Nat.add_assoc]
  exact ⟨r, hr, by rw [hwords, hlanes.words_unique hback]⟩

/-- The client unpacks what the canister packs. -/
theorem unpackState_envelope (hz : z.Inverse) (hp : Prepared raw codec p) (h60 : 60 ≤ raw.length)
    (hmax : raw.length ≤ maxContinuationBytes)
    (hshort : (z.compress p).length + transportHeader < raw.length) :
    unpackState z (envelope codec raw.length (z.compress p)) = .ok raw := by
  obtain ⟨hlength, -, hcodec, -⟩ := hp.facts
  obtain ⟨Pending, hnew, hstep⟩ := hz.decompress_compress
  obtain ⟨-, decoder, hdecode, hends⟩ := hstep p (z.compress p) z.decompressobj (raw.length + 1)
    (hnew p) (Nat.succ_pos _)
  have heof : z.eof decoder = true := by
    by_contra hno
    rw [if_neg hno] at hends
    omega
  rw [if_pos heof] at hends
  obtain ⟨-, hunused, htail⟩ := hends
  rw [List.take_of_length_le (by omega)] at hdecode
  have hsmall : raw.length < 2 ^ 32 := by
    unfold maxContinuationBytes headerBytes maxTokens at hmax
    omega
  obtain ⟨-, -, -, hbody⟩ := envelope_words codec (z.compress p) hsmall
  unfold transportHeader at hbody
  have hl := length_envelope codec raw.length (z.compress p)
  have hchecks : ¬(p.length ≠ raw.length ∨ ¬z.eof decoder = true ∨ z.unusedData decoder ≠ [] ∨
      z.unconsumedTail decoder ≠ []) := by
    rintro (h | h | h | h)
    · exact h hlength
    · exact h heof
    · exact h hunused
    · exact h htail
  rw [unpackState, rejectIf_bind (by omega), if_neg (not_not.mpr envelope_prefix),
    envelopeHeader_envelope hcodec h60 hmax, ok_bind]
  dsimp only
  rw [hbody, hdecode]
  show (rejectIf (p.length ≠ raw.length ∨ ¬z.eof decoder = true ∨ z.unusedData decoder ≠ [] ∨
    z.unconsumedTail decoder ≠ []) _ >>= _) = _
  rw [rejectIf_bind hchecks]
  cases hp with
  | int8 magic =>
    rw [if_pos rfl, rejectIf_bind (not_not.mpr (take_four magic))]
    rfl
  | f32 magic shuffled =>
    obtain ⟨offset, hoffset, -⟩ := bind_eq_ok.mp shuffled
    obtain ⟨r, hr, -, hplanes, -, hback⟩ := shuffle_undone false hoffset
    obtain rfl : p = r := Except.ok.inj (shuffled.symm.trans hr)
    obtain ⟨hp60, hmagic, ht, hm, ho, hle, hmod⟩ := floatOffset_eq_ok.mp hplanes
    obtain ⟨restored, hrestored, hshuffle⟩ := restored_lanes hplanes
    have hstate : ¬(p.length < 60 ∨ p.take 4 ≠ layq) := by
      rintro (h | h)
      · omega
      · exact h hmagic
    have hlens : ¬(¬(1 ≤ (wordAt p 52).toNat ∧ (wordAt p 52).toNat ≤ 128) ∨
        ¬(2 ≤ (wordAt p 56).toNat ∧ (wordAt p 56).toNat ≤ 7) ∨ p.length < offset ∨
        (p.length - offset) % 4 ≠ 0) := by
      omega
    have hraw : raw = p.take offset ++ restored := Except.ok.inj (hback.symm.trans hshuffle)
    subst ho
    rw [if_neg (by decide), rejectIf_bind hstate, unpackFrom_of_le (by omega), ok_bind]
    refine (rejectIf_bind hlens _ _).trans ?_
    rw [hraw]
    refine Eq.trans ?_ (congrArg (fun x : Except Failure (List UInt8) => x >>= fun restored =>
      .ok (p.take (60 + 4 * ((wordAt p 52).toNat + (wordAt p 56).toNat)) ++ restored)) hrestored)
    rfl

/-- The loop on a stream that is still being decoded: it ends, with all of the output counted and
the first sixty bytes of it kept. Every round that is not the last one yields a byte. -/
theorem inspectLoop_pending {Pending : List UInt8 → List UInt8 → z.Decompress → Prop}
    (hstep : ∀ output input d limit, Pending output input d → 0 < limit →
      input ≠ [] ∧ ∃ d', z.decompress d input limit = .ok (output.take limit, d') ∧
        (if z.eof d' then output.length ≤ limit ∧ z.unusedData d' = [] ∧ z.unconsumedTail d' = []
          else limit ≤ output.length ∧ Pending (output.drop limit) (z.unconsumedTail d') d'))
    (given : List UInt8) {output input : List UInt8} {d : z.Decompress} {fuel : ℕ} (hd : Pending output input d)
    (hfuel : output.length < fuel) :
    ∃ d', z.eof d' = true ∧ z.unusedData d' = [] ∧
      inspectLoop z (given.length + output.length) fuel d input (given.take 60) given.length =
        some (.ok (d', [], (given ++ output).take 60, given.length + output.length)) := by
  induction fuel generalizing given output input d with
  | zero => exact absurd hfuel (Nat.not_lt_zero _)
  | succ fuel ih =>
    generalize hlimit : min 65536 (given.length + output.length + 1 - given.length) = limit
    have hpos : 0 < limit := by omega
    obtain ⟨hinput, d', hdecode, hends⟩ := hstep output input d limit hd hpos
    have hcount : ¬given.length + output.length < given.length + (output.take limit).length := by
      rw [List.length_take]
      omega
    have hkept : given.take 60 ++ (output.take limit).take (60 - (given.take 60).length) =
        (given ++ output.take limit).take 60 := by
      have hfree : 60 - (given.take 60).length = 60 - given.length := by
        rw [List.length_take]
        omega
      rw [List.take_append, hfree]
    rw [inspectLoop, if_neg hinput, hlimit, hdecode]
    dsimp only
    rw [if_neg hcount, hkept]
    by_cases heof : z.eof d' = true
    · rw [if_pos heof] at hends ⊢
      obtain ⟨hle, hunused, htail⟩ := hends
      rw [List.take_of_length_le hle]
      exact ⟨d', heof, hunused, by rw [htail]⟩
    · rw [if_neg heof] at hends ⊢
      obtain ⟨hle, hnext⟩ := hends
      have htake : (output.take limit).length = limit := by
        rw [List.length_take]
        omega
      have hrest : (output.drop limit).length < fuel := by
        rw [List.length_drop]
        omega
      obtain ⟨d'', heof'', hunused'', hloop⟩ := ih (given ++ output.take limit) hnext hrest
      have hsize : (given ++ output.take limit).length + (output.drop limit).length =
          given.length + output.length := by
        rw [List.length_append, htake, List.length_drop]
        omega
      rw [hsize, List.append_assoc, List.take_append_drop, List.length_append] at hloop
      exact ⟨d'', heof'', hunused'', hloop⟩

/-- A state is not an envelope. -/
theorem not_envelope (h : raw.take 4 = layq ∨ raw.take 4 = layi) : ¬layz <+: raw := by
  intro hz
  have htake : layz = raw.take 4 := List.prefix_iff_eq_take.mp hz
  rw [← htake] at h
  revert h
  decide

theorem Prepared.codec_eq (h : Prepared raw codec p) :
    raw.take 4 = if codec = 1 then layi else layq := by
  cases h with
  | f32 magic _ => exact magic
  | int8 magic => exact magic

/-- What every exported state looks like from outside. -/
structure StateShape (raw : List UInt8) : Prop where
  sixty : 60 ≤ raw.length
  max : raw.length ≤ maxContinuationBytes
  magic : raw.take 4 = layq ∨ raw.take 4 = layi
  tokens : 1 ≤ (wordAt raw 52).toNat ∧ (wordAt raw 52).toNat ≤ 128
  markers : 2 ≤ (wordAt raw 56).toNat ∧ (wordAt raw 56).toNat ≤ 7
  offset : 60 + 4 * ((wordAt raw 52).toNat + (wordAt raw 56).toNat) ≤ raw.length
  float : raw.take 4 = layq →
    (raw.length - (60 + 4 * ((wordAt raw 52).toNat + (wordAt raw 56).toNat))) % 4 = 0

theorem StateShape.prepared (h : StateShape raw) : ∃ codec p, Prepared raw codec p ∧
    raw.take 4 = if codec = 1 then layi else layq := by
  rcases h.magic with hq | hi
  · have hoffset := floatOffset_eq_ok.mpr ⟨h.sixty, hq, h.tokens, h.markers, rfl, h.offset,
      h.float hq⟩
    obtain ⟨p, hp, -⟩ := shuffle_undone false hoffset
    exact ⟨2, p, .f32 hq hp, hq⟩
  · exact ⟨1, raw, .int8 hi, hi⟩

theorem StateShape.inspectHeader (h : StateShape raw) {codec : Option UInt32}
    (hc : ∀ c ∈ codec, raw.take 4 = if c = 1 then layi else layq) :
    inspectHeader codec (raw.take 60) raw.length = .ok (raw.take 60, raw.length) := by
  have h60 := h.sixty
  have hl : (raw.take 60).length = 60 := by
    rw [List.length_take]
    omega
  have hfour : (raw.take 60).take 4 = raw.take 4 := by
    rw [List.take_take]
    rfl
  have hword : ∀ i, i + 4 ≤ 60 → wordAt (raw.take 60) i = wordAt raw i := fun i hi =>
    wordAt_of_take (k := 60) (by rw [List.take_take]; rfl) hi
  have hmagic : ¬((raw.take 60).length < 60 ∨
      ¬((raw.take 60).take 4 = layq ∨ (raw.take 60).take 4 = layi)) := by
    rw [hfour]
    rintro (hlt | hm)
    · omega
    · exact hm h.magic
  have hcodec : ¬∃ c ∈ codec, (raw.take 60).take 4 ≠ if c = 1 then layi else layq := by
    rw [hfour]
    rintro ⟨c, hmem, hne⟩
    exact hne (hc c hmem)
  have hlens : ¬(¬(1 ≤ (wordAt raw 52).toNat ∧ (wordAt raw 52).toNat ≤ 128) ∨
      ¬(2 ≤ (wordAt raw 56).toNat ∧ (wordAt raw 56).toNat ≤ 7) ∨
      raw.length < 60 + 4 * ((wordAt raw 52).toNat + (wordAt raw 56).toNat)) := by
    have h₁ := h.tokens
    have h₂ := h.markers
    have h₃ := h.offset
    omega
  have hfloat : ¬((raw.take 60).take 4 = layq ∧
      (raw.length - (60 + 4 * ((wordAt raw 52).toNat + (wordAt raw 56).toNat))) % 4 ≠ 0) := by
    rw [hfour]
    exact fun hx => hx.2 (h.float hx.1)
  rw [IcLaya.inspectHeader, rejectIf_bind hmagic, rejectIf_bind hcodec,
    unpackFrom_of_le (by omega), ok_bind]
  rw [← hword 52 (by omega), ← hword 56 (by omega)] at hlens hfloat
  refine (rejectIf_bind hlens _ _).trans ((rejectIf_bind hfloat _ _).trans rfl)

/-- The client inspects a state the canister packed: the header and the length of the state. -/
theorem inspectState_packed (hz : z.Inverse) (h : StateShape raw) (hw : pack z raw = .ok w)
    {fuel : ℕ} (hfuel : raw.length < fuel) :
    inspectState z fuel w = some (.ok (raw.take 60, raw.length)) := by
  obtain ⟨h60, hmax, codec, p, hp, rfl⟩ := pack_eq_ok.mp hw
  by_cases hle : raw.length ≤ (z.compress p).length + transportHeader
  · rw [if_pos hle, inspectState, if_neg (Nat.not_lt.mpr hmax), if_neg (not_envelope h.magic),
      h.inspectHeader fun c hc => absurd hc (Option.not_mem_none c)]
  · rw [if_neg hle]
    obtain ⟨hlength, hheader, hcodec, -⟩ := hp.facts
    obtain ⟨Pending, hnew, hstep⟩ := hz.decompress_compress
    obtain ⟨decoder, heof, hunused, hloop⟩ := inspectLoop_pending hstep []
      (hnew p) (hlength ▸ hfuel)
    simp only [List.length_nil, Nat.zero_add, List.take_nil, List.nil_append, hlength,
      hheader] at hloop
    have hsmall : raw.length < 2 ^ 32 := by
      unfold maxContinuationBytes headerBytes maxTokens at hmax
      omega
    obtain ⟨-, -, -, hbody⟩ := envelope_words codec (z.compress p) hsmall
    unfold transportHeader at hbody
    have hl := length_envelope codec raw.length (z.compress p)
    have hchecks : ¬(raw.length ≠ raw.length ∨ ¬z.eof decoder = true ∨ z.unusedData decoder ≠ [] ∨
        ([] : List UInt8) ≠ []) := by
      rintro (h | h | h | h)
      · exact h rfl
      · exact h heof
      · exact h hunused
      · exact h rfl
    rw [inspectState, if_neg (by omega), if_pos envelope_prefix,
      envelopeHeader_envelope hcodec h60 hmax]
    dsimp only
    rw [hbody, hloop]
    dsimp only
    rw [rejectIf_bind hchecks, h.inspectHeader fun c hc => ?_]
    cases hc
    exact hp.codec_eq

/-- What the canister packs is no longer than the state, and both ends unpack it to the state. -/
theorem pack_lossless (hz : z.Inverse) (hw : pack z raw = .ok w) :
    w.length ≤ raw.length ∧ raw.length ≤ maxContinuationBytes ∧
      unpack z w = .ok raw ∧ unpackState z w = .ok raw := by
  obtain ⟨h60, hmax, codec, p, hp, rfl⟩ := pack_eq_ok.mp hw
  by_cases hle : raw.length ≤ (z.compress p).length + transportHeader
  · have hno := not_envelope hp.facts.2.2.2
    rw [if_pos hle]
    refine ⟨Nat.le_refl _, hmax, ?_, ?_⟩
    · rw [unpack, reject_pass (Nat.not_lt.mpr hmax), if_pos hno]
      rfl
    · rw [unpackState, rejectIf_bind (Nat.not_lt.mpr hmax), if_pos hno]
      rfl
  · have hshort := Nat.not_le.mp hle
    rw [if_neg hle]
    refine ⟨?_, hmax, unpack_envelope hz hp h60 hmax hshort,
      unpackState_envelope hz hp h60 hmax hshort⟩
    rw [length_envelope]
    omega

/-- The canister packs any state, and the client can inspect what it packed. -/
theorem StateShape.packed (hz : z.Inverse) (h : StateShape raw) : ∃ w, pack z raw = .ok w ∧
    ∀ fuel, raw.length < fuel → inspectState z fuel w = some (.ok (raw.take 60, raw.length)) := by
  obtain ⟨codec, p, hp, -⟩ := h.prepared
  have hw := (pack_eq_ok (z := z)).mpr ⟨h.sixty, h.max, codec, p, hp, rfl⟩
  exact ⟨_, hw, fun fuel hfuel => inspectState_packed hz h hw hfuel⟩

/-- A state without an envelope is left as it is by both ends. -/
theorem StateShape.unpack_raw (h : StateShape raw) :
    unpack z raw = .ok raw ∧ unpackState z raw = .ok raw := by
  have hno := not_envelope h.magic
  constructor
  · rw [unpack, reject_pass (Nat.not_lt.mpr h.max), if_pos hno]
    rfl
  · rw [unpackState, rejectIf_bind (Nat.not_lt.mpr h.max), if_pos hno]
    rfl

end Packing

/-- A state that export writes. -/
inductive LayaModel.Exported {F : Type} [Doubles F] (m : LayaModel F Digest32) (t : Target)
    (raw : List UInt8) : Prop
  | f32 {s : InferenceSession Digest32} (h : m.exportInference t s = .ok raw)
  | int8 {s : QuantizedSession Digest32} (hs : m.Q8Session t s)
      (h : m.exportQuantized t s = .ok raw)

section Transport
variable {F : Type} [Doubles F] {m : LayaModel F Digest32} {t : Target} {k : Int8Kernels}
  {raw : List UInt8}

/-- The counts a header carries. -/
private theorem header_counts {magic rest : List UInt8} {revision : UInt32} {next : ℕ}
    {input : TokenInput} (hm : magic.length = 4) (hn : next < m.inferenceSteps)
    (hv : m.validateInput input = .ok ())
    (hraw : raw = (StateHeader.of next input).bytes magic 1 revision m.bundle ++ rest) :
    raw.take 4 = magic ∧ (wordAt raw 52).toNat = input.inputIds.length ∧
      (wordAt raw 56).toNat = input.markers.length := by
  obtain ⟨-, htokens, hmarkers⟩ := StateHeader.toNat_of hn hv
  have hlength : ((StateHeader.of next input).bytes magic 1 revision m.bundle).length =
      headerBytes := StateHeader.length_bytes hm
  have hdrop : raw.drop headerBytes = rest := by rw [hraw, List.drop_left' hlength]
  have h60 : headerBytes ≤ raw.length := by
    rw [hraw, List.length_append, hlength]
    omega
  rw [← hdrop] at hraw
  obtain ⟨hmagic, -, -, -, hwords⟩ := (StateHeader.eq_bytes_append hm h60).mp hraw
  have h52 := congrArg StateHeader.tokens hwords
  have h56 := congrArg StateHeader.markers hwords
  dsimp only at h52 h56
  exact ⟨hmagic, by rw [h52, htokens], by rw [h56, hmarkers]⟩

theorem LayaModel.Exported.shape (hk : m.q8 = k.phases) (h : m.Exported t raw) :
    StateShape raw := by
  cases h with
  | @f32 s h =>
    obtain ⟨-, hv, hn, -, -, hraw⟩ := LayaModel.exportInference_eq_ok.mp h
    have hmax := (LayaModel.import_of_export h).1
    rw [List.append_assoc] at hraw
    obtain ⟨hmagic, htokens, hmarkers⟩ := header_counts rfl hn hv hraw
    obtain ⟨ht, hm⟩ := LayaModel.lengths_of_validateInput hv
    have hlength : raw.length = 60 + ((s.input.inputIds.length + s.input.markers.length) * 4 +
        s.hidden.values.length * 4) := by
      rw [hraw, List.length_append, List.length_append, StateHeader.length_bytes rfl, length_le32s,
        length_le32s, List.length_append]
      rfl
    unfold maxTokens at ht
    rw [← htokens, ← hmarkers] at hlength
    rw [← htokens] at ht
    rw [← hmarkers] at hm
    exact ⟨by omega, hmax, .inl hmagic, ht, hm, by omega, fun _ => by omega⟩
  | @int8 s hs h =>
    have hn := LayaModel.next_lt_of_exportQuantized h
    obtain ⟨hvalues, hscales⟩ := hs.filled hk hn
    obtain ⟨-, hv, -, hraw⟩ := (LayaModel.exportQuantized_eq_ok hvalues).mp h
    obtain ⟨hlength, hmax⟩ := LayaModel.length_of_exportQuantized hvalues hscales h
    rw [List.append_assoc, List.append_assoc] at hraw
    obtain ⟨hmagic, htokens, hmarkers⟩ := header_counts rfl hn hv hraw
    obtain ⟨ht, hm⟩ := LayaModel.lengths_of_validateInput hv
    have hne : layi ≠ layq := by decide
    unfold maxTokens at ht
    unfold headerBytes at hlength
    rw [← htokens, ← hmarkers] at hlength
    rw [← htokens] at ht
    rw [← hmarkers] at hm
    unfold maxQuantizedBytes maxTokens at hmax
    refine ⟨by omega, ?_, .inr hmagic, ht, hm, by omega, fun hq => absurd (hmagic.symm.trans hq) hne⟩
    unfold maxContinuationBytes headerBytes maxTokens
    omega

/-- A wire is an envelope of a state of that size, and its body is one whole stream. -/
structure Unwrapped (z : Zlib) (w x : List UInt8) : Prop where
  size : x.length = (wordAt w 12).toNat
  stream : ∃ y, y.length = x.length ∧ z.read (w.drop transportHeader) (x.length + 1) =
    .ok (y, (w.drop transportHeader).length)
  codec : wordAt w 8 = 1 ∧ x.take 4 = layi ∨ wordAt w 8 = 2 ∧ x.take 4 = layq

/-- The transport is lossless and both ends agree on it: what the canister packs is no longer than
the state and is unpacked to it by both; the client inspects every exported state; an accepted
envelope holds a state of the size and codec it declares; and the two directions of the shuffle
undo each other. -/
theorem layz_transport {z : Zlib} (hz : z.Inverse) (m : LayaModel F Digest32) (t : Target)
    (hk : m.q8 = k.phases) :
    (∀ raw w, pack z raw = .ok w → w.length ≤ raw.length ∧ raw.length ≤ maxContinuationBytes ∧
      unpack z w = .ok raw ∧ unpackState z w = .ok raw) ∧
      (∀ raw, m.Exported t raw → ∃ w, pack z raw = .ok w ∧
        ∀ fuel, raw.length < fuel →
          inspectState z fuel w = some (.ok (raw.take 60, raw.length))) ∧
      (∀ w x, unpack z w = .ok x →
        x.length ≤ maxContinuationBytes ∧ (layz <+: w → Unwrapped z w x)) ∧
      ∀ raw offset inverse, floatOffset raw = .ok offset →
        ∃ r, shuffle raw inverse = .ok r ∧ shuffle r (!inverse) = .ok raw := by
  refine ⟨fun raw w hw => ?_, fun raw hraw => ?_, fun w x hx => ?_,
    fun raw offset inverse h => ?_⟩
  · exact pack_lossless hz hw
  · exact (hraw.shape hk).packed hz
  · obtain ⟨hmax, ⟨hno, rfl⟩ | ⟨hyes, y, -, hsize, hread, hy, hstate⟩⟩ := unpack_eq_ok hx
    · exact ⟨hmax, fun hyes => absurd hyes hno⟩
    · rcases hstate with ⟨hcodec, hshuffle⟩ | ⟨hcodec, hi, rfl⟩
      · obtain ⟨offset, hoffset, -⟩ := bind_eq_ok.mp hshuffle
        obtain ⟨r, hr, hlength, hplain, -⟩ := shuffle_undone true hoffset
        obtain rfl : x = r := Except.ok.inj (hshuffle.symm.trans hr)
        have hmagic := (floatOffset_eq_ok.mp hplain).2.1
        refine ⟨by omega, fun _ => ⟨by omega, ⟨y, hlength.symm, ?_⟩, .inr ⟨hcodec, hmagic⟩⟩⟩
        rw [hlength, hy]
        exact hread
      · refine ⟨by omega, fun _ => ⟨hy, ⟨x, rfl, ?_⟩, .inl ⟨hcodec, ?_⟩⟩⟩
        · rw [hy]
          exact hread
        · exact (List.prefix_iff_eq_take.mp hi).symm
  · obtain ⟨r, hr, -, -, -, hback⟩ := shuffle_undone inverse h
    exact ⟨r, hr, hback⟩

end Transport

namespace Zlib.Sample

/-- The first state of the model of zeros. -/
def state : List UInt8 := ((LayaModel.Zeros.model.exportInference .bits32
  ⟨Vector.replicate 32 7, LayaModel.Zeros.input, LayaModel.Zeros.tensor 2, 0⟩).toOption).getD []

/-- That state as a zlib stream. -/
def stream : List UInt8 := [120, 1, 243, 113, 140, 12, 100, 100, 96, 96, 0, 97, 118, 2, 0, 168, 4,
  12, 152, 128, 36, 8, 179, 64, 49, 72, 16, 164, 31, 29, 0, 0, 168, 242, 2, 39]

/-- Any other byte string stands for itself behind a mark no zlib stream begins with. -/
def deflate (x : List UInt8) : List UInt8 := if x = state then stream else 0xff :: x

def inflate (body : List UInt8) : Option (List UInt8) :=
  if body = stream then some state
  else match body with | 0xff :: x => some x | _ => none

theorem inflate_deflate (x : List UInt8) : inflate (deflate x) = some x := by
  unfold inflate deflate
  by_cases hx : x = state
  · rw [if_pos hx, if_pos rfl, hx]
  · rw [if_neg hx, if_neg (by simp [stream])]
    rfl

/-- What is left to give, and whether the stream has ended. -/
structure Decoder where
  fresh : Bool
  rest : List UInt8
  ended : Bool

/-- A decoder that gives all of its output at once, up to the limit; while some is left, so is the
end of the stream. -/
def zlib : Zlib where
  compress := deflate
  read := fun body limit => match inflate body with
    | some x => .ok (x.take limit, body.length)
    | none => .error ()
  Decompress := Decoder
  decompressobj := ⟨true, [], false⟩
  decompress := fun d input limit =>
    match if d.fresh then inflate input else some d.rest with
    | some x => .ok (x.take limit, ⟨false, x.drop limit, x.length < limit⟩)
    | none => .error ()
  eof := Decoder.ended
  unusedData := fun _ => []
  unconsumedTail := fun d => if d.ended then [] else [0]

theorem inverse : zlib.Inverse where
  read_compress := by
    intro x limit h
    show (match inflate (deflate x) with
      | some y => Except.ok (y.take limit, (deflate x).length)
      | none => .error ()) = _
    rw [inflate_deflate]
    dsimp only
    rw [List.take_of_length_le (Nat.le_of_lt h)]
    rfl
  decompress_compress := by
    refine ⟨fun output input d => input ≠ [] ∧
      (if d.fresh then inflate input else some d.rest) = some output, fun x => ⟨?_, ?_⟩, ?_⟩
    · show deflate x ≠ []
      unfold deflate
      split <;> simp [stream]
    · exact inflate_deflate x
    · rintro output input d limit ⟨hinput, hd⟩ hlimit
      refine ⟨hinput, ⟨false, output.drop limit, output.length < limit⟩, ?_, ?_⟩
      · show (match if d.fresh then inflate input else some d.rest with
          | some x => Except.ok (x.take limit,
            (⟨false, x.drop limit, x.length < limit⟩ : Decoder))
          | none => .error ()) = _
        rw [hd]
        rfl
      · by_cases hlt : output.length < limit
        · simp [zlib, hlt, Nat.le_of_lt hlt]
        · simp [zlib, hlt, Nat.not_lt.mp hlt]

end Zlib.Sample

open Zlib.Sample Int8Kernels in
theorem layz_transport_sample : ∃ w, pack zlib state = .ok w ∧ layz <+: w ∧
    w.length < state.length ∧ unpack zlib w = .ok state ∧ unpackState zlib w = .ok state ∧
    inspectState zlib 93 w = some (.ok (state.take 60, 92)) := by
  have hexport : peakedModel.exportInference .bits32 ⟨Vector.replicate 32 7, LayaModel.Zeros.input,
      LayaModel.Zeros.tensor 2, 0⟩ = .ok state := by decide +kernel
  have hpack : pack zlib state = .ok (envelope 2 92 stream) := by decide +kernel
  have hlength : state.length = 92 := by decide +kernel
  have hshort : (envelope 2 92 stream).length < state.length := by decide +kernel
  have hall := layz_transport Zlib.Sample.inverse peakedModel .bits32 (k := peaked) rfl
  obtain ⟨-, -, hunpack, hstate⟩ := hall.1 state _ hpack
  obtain ⟨w, hw, hinspect⟩ := hall.2.1 state (.f32 hexport)
  obtain rfl := Except.ok.inj (hpack.symm.trans hw)
  have hresult := hinspect 93 (by omega)
  rw [hlength] at hresult
  exact ⟨_, hpack, envelope_prefix, hshort, hunpack, hstate, hresult⟩

end IcLaya
