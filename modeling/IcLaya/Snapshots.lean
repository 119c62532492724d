import IcLaya.PagedMemory
import IcLaya.TransitionSystems
import IcLaya.WireTypes

/-!
# Snapshots in stable memory

A snapshot is the serialized state behind a magic number, its length and its hash. It lies at the
bottom of stable memory, behind a length prefix that is written last; the uploaded model lies at
`BLOB_BASE`. The serializer and the system's answer to a request for more pages are parameters.
-/
namespace IcLaya
open Fallible ByteFrames PanickingCode PagedMemory

/-- A digest whose image fills `[u8;32]`. -/
class ByteDigest (Digest : Type) extends Hashing Digest where
  length_toBytes : ∀ d : Digest, (toBytes d).length = 32

/-- `bincode` at one type: integers of fixed width, a size limit, nothing left over. -/
structure Bincode (T : Type) where
  serialize : T → Option (List UInt8)
  deserialize : List UInt8 → Option T

def Bincode.Inverts {T : Type} (c : Bincode T) : Prop :=
  ∀ v bytes, c.serialize v = some bytes → c.deserialize bytes = some v

namespace Storage

def magic : List UInt8 := [73, 67, 76, 65, 89, 65, 48, 49]
def maxSnapshot : ℕ := 16 * 1024 * 1024

def fromBeBytes (bs : List UInt8) : ℕ := ofLeBytes bs.reverse

theorem fromBeBytes_beBytes {n : ℕ} (h : n < 2 ^ 64) : fromBeBytes (beBytes 8 n) = n := by
  rw [fromBeBytes, beBytes, List.reverse_reverse, ofLeBytes_leBytes (by norm_num; omega)]

variable {T D : Type} [ByteDigest D] (c : Bincode T)

def encode (value : T) : Result (List UInt8) := do
  let bytes ← okOr (c.serialize value) .storage
  rejectIf (maxSnapshot < bytes.length) .capacity
  pure (magic ++ (beBytes 8 bytes.length ++
    (Hashing.toBytes (hash bytes : D) ++ bytes)))

def decode (t : Target) (bytes : List UInt8) : Result T := do
  rejectIf (bytes.length < 48 ∨ bytes.take 8 ≠ magic) .storage
  -- `as usize` drops the high half of the word on a 32-bit target
  let len := fromBeBytes ((bytes.drop 8).take 8) % t.words
  rejectIf (maxSnapshot < len ∨ bytes.length ≠ 48 + len ∨
    (bytes.drop 16).take 32 ≠ Hashing.toBytes (hash (bytes.drop 48) : D)) .storage
  okOr (c.deserialize (bytes.drop 48)) .storage

section Envelope
variable {c} {t : Target} {value : T} {bytes : List UInt8}

theorem encode_eq_ok : encode (D := D) c value = .ok bytes ↔
    ∃ body, c.serialize value = some body ∧ body.length ≤ maxSnapshot ∧
      bytes = magic ++ (beBytes 8 body.length ++
        (Hashing.toBytes (hash body : D) ++ body)) := by
  simp only [encode, bind_eq_ok, okOr_eq_ok, rejectIf_eq_ok, pure_eq_ok, not_lt]
  constructor
  · rintro ⟨body, hs, -, hl, rfl⟩
    exact ⟨body, hs, hl, rfl⟩
  · rintro ⟨body, hs, hl, rfl⟩
    exact ⟨body, hs, (), hl, rfl⟩

theorem length_of_encode (h : encode (D := D) c value = .ok bytes) :
    48 ≤ bytes.length ∧ bytes.length ≤ 48 + maxSnapshot := by
  obtain ⟨body, -, hl, rfl⟩ := encode_eq_ok.mp h
  have hmagic : magic.length = 8 := rfl
  simp only [List.length_append, length_beBytes, ByteDigest.length_toBytes, hmagic]
  omega

/-- The length that a reader finds in a snapshot is the one behind its header. -/
theorem header_of_encode (h : encode (D := D) c value = .ok bytes) :
    bytes.take 8 = magic ∧ 48 + fromBeBytes ((bytes.drop 8).take 8) % t.words = bytes.length := by
  obtain ⟨body, -, hl, rfl⟩ := encode_eq_ok.mp h
  have hmagic : magic.length = 8 := rfl
  have hword := t.le_words
  unfold maxSnapshot at hl
  refine ⟨List.take_left' hmagic, ?_⟩
  rw [List.drop_left' hmagic, List.take_left' (length_beBytes _ _), fromBeBytes_beBytes (by omega),
    Nat.mod_eq_of_lt (by omega)]
  simp only [List.length_append, length_beBytes, ByteDigest.length_toBytes, hmagic]
  omega

theorem decode_encode (hc : c.Inverts) (h : encode (D := D) c value = .ok bytes) :
    decode (D := D) c t bytes = .ok value := by
  obtain ⟨htake, hlen⟩ := header_of_encode (t := t) h
  obtain ⟨h48, hmax⟩ := length_of_encode h
  obtain ⟨body, hs, -, hbytes⟩ := encode_eq_ok.mp h
  have hmagic : magic.length = 8 := rfl
  have hdigest := ByteDigest.length_toBytes (hash body : D)
  have h16 : bytes.drop 16 = Hashing.toBytes (hash body : D) ++ body := by
    rw [hbytes, ← List.append_assoc, List.drop_left']
    rw [List.length_append, length_beBytes, hmagic]
  have hbody : bytes.drop 48 = body := by
    rw [← List.drop_drop (i := 32) (j := 16), h16, List.drop_left' hdigest]
  have hfirst : ¬(bytes.length < 48 ∨ bytes.take 8 ≠ magic) :=
    not_or.mpr ⟨Nat.not_lt.mpr h48, not_not.mpr htake⟩
  have hsecond : ¬(maxSnapshot < fromBeBytes ((bytes.drop 8).take 8) % t.words ∨
      bytes.length ≠ 48 + fromBeBytes ((bytes.drop 8).take 8) % t.words ∨
      (bytes.drop 16).take 32 ≠ Hashing.toBytes (hash (bytes.drop 48) : D)) := by
    rw [h16, hbody, List.take_left' hdigest, hlen]
    exact not_or.mpr ⟨by omega, not_or.mpr ⟨not_not.mpr rfl, not_not.mpr rfl⟩⟩
  rw [decode, rejectIf_bind hfirst]
  dsimp only
  rw [rejectIf_bind hsecond, hbody, hc _ _ hs]
  rfl

/-- A string of another length that carries the header of a snapshot is refused. -/
theorem decode_of_length {x : List UInt8} (h : encode (D := D) c value = .ok bytes)
    (hx : 48 ≤ x.length → x.take 48 = bytes.take 48) (hl : x.length ≠ bytes.length) :
    decode (D := D) c t x = .error .storage := by
  rw [decode]
  by_cases hfirst : x.length < 48 ∨ x.take 8 ≠ magic
  · exact rejectIf_stop hfirst _ _
  · rw [rejectIf_bind hfirst]
    have htake := hx (Nat.not_lt.mp fun hshort => hfirst (.inl hshort))
    have hword : (x.drop 8).take 8 = (bytes.drop 8).take 8 := by
      have hcut := congrArg (fun y => (y.drop 8).take 8) htake
      simpa [List.drop_take, List.take_take] using hcut
    refine rejectIf_stop (.inr (.inl fun he => hl ?_)) _ _
    rw [he, hword, (header_of_encode h).2]

theorem decode_of_prefix {x : List UInt8} (h : encode (D := D) c value = .ok bytes)
    (hx : x <+: bytes) (hne : x ≠ bytes) : decode (D := D) c t x = .error .storage := by
  refine decode_of_length h (fun h48 => ?_) fun hl => hne (hx.eq_of_length hl)
  obtain ⟨r, rfl⟩ := hx
  rw [List.take_append_of_le_length h48]

theorem decode_of_extension {x : List UInt8} (h : encode (D := D) c value = .ok bytes)
    (hx : bytes <+: x) (hne : x ≠ bytes) : decode (D := D) c t x = .error .storage := by
  refine decode_of_length h (fun _ => ?_) fun hl => hne (hx.eq_of_length hl.symm).symm
  obtain ⟨r, rfl⟩ := hx
  rw [List.take_append_of_le_length (length_of_encode h).1]

end Envelope
end Storage

namespace CanisterCommon
open Storage TransitionSystems

def blobBase : ℕ := 64 * 1024 * 1024

/-- `grants n`: the system gives `n` more pages. -/
def growThrough (grants : ℕ → Bool) (e : ℕ) (m : Memory) : Result Memory := do
  let through ← okOr (checkedAdd .bits64 e 65535) .capacity
  let pages := through / 65536
  if m.pages < pages then do
    rejectIf (¬grants (pages - m.pages)) .capacity
    pure (m.grow (pages - m.pages))
  else pure m

variable {T D : Type} [ByteDigest D] (c : Bincode T) (grants : ℕ → Bool)

def save (state : T) (m : Memory) : Code Error Memory := do
  let bytes ← call (encode (D := D) c state)
  reject (blobBase ≤ bytes.length + 8) .capacity
  let m ← call (growThrough grants (bytes.length + 8) m)
  let m ← m.write 8 bytes
  m.write 0 (beBytes 8 bytes.length)

def restore (t : Target) (m : Memory) : Code Error T := do
  reject (m.pages = 0) .storage
  let n := fromBeBytes (← m.read 0 8)
  reject (maxSnapshot + 48 < n ∨ m.size < n + 8) .storage
  call (decode (D := D) c t (← m.read 8 n))

/-- Where a chunk of the upload goes: the bytes from `offset` on, above the snapshot. -/
def writeChunk (offset : ℕ) (bytes : List UInt8) (m : Memory) : Code Error Memory := do
  let m ← call (growThrough grants (← add .bits64 blobBase (offset + bytes.length)) m)
  m.write (← add .bits64 blobBase offset) bytes

def readBlob (offset n : ℕ) (m : Memory) : Code Error (List UInt8) := do
  m.read (← add .bits64 blobBase offset) n

section Regions
variable {c} {grants : ℕ → Bool} {m m' : Memory} {state : T} {bytes : List UInt8} {e : ℕ}

theorem growThrough_eq_ok (h : growThrough grants e m = .ok m') :
    m'.byte = m.byte ∧ e ≤ m'.size ∧ m.size ≤ m'.size := by
  simp only [growThrough, bind_eq_ok, okOr_eq_ok] at h
  obtain ⟨through, hadd, h⟩ := h
  have hthrough : through = e + 65535 := by
    rw [checkedAdd] at hadd
    split at hadd
    · exact (Option.some.inj hadd).symm
    · cases hadd
  split at h
  · simp only [bind_eq_ok, rejectIf_eq_ok, pure_eq_ok] at h
    obtain ⟨-, -, rfl⟩ := h
    refine ⟨rfl, ?_, ?_⟩ <;> rw [Memory.size_grow] <;> unfold Memory.size pageBytes <;> omega
  · cases pure_eq_ok.mp h
    refine ⟨rfl, ?_, Nat.le_refl _⟩
    unfold Memory.size pageBytes
    omega

/-- What happens once the last page is found; over any `through`, as the kernel would count
up to a sum with 65535. -/
theorem growThrough_of_add {through : ℕ} (hadd : checkedAdd .bits64 e 65535 = some through) :
    growThrough grants e m =
      if m.pages < through / 65536 then do
        rejectIf (¬grants (through / 65536 - m.pages)) .capacity
        pure (m.grow (through / 65536 - m.pages))
      else pure m := by
  rw [growThrough, hadd]
  rfl

/-- Where the system gives every page it is asked for, memory grows. -/
theorem growThrough_of_grants (hg : ∀ n, grants n = true) (he : e + 65535 < 2 ^ 64) (m : Memory) :
    ∃ m', growThrough grants e m = .ok m' := by
  rw [growThrough_of_add (checkedAdd_of_lt he)]
  split
  · exact ⟨_, rejectIf_bind (by simp [hg]) _ _⟩
  · exact ⟨_, rfl⟩

/-- Memory that is large enough does not grow. -/
theorem growThrough_of_le (h : e ≤ m.size) (he : e + 65535 < 2 ^ 64) :
    growThrough grants e m = .ok m := by
  have hpages : ¬m.pages < (e + 65535) / 65536 := by
    unfold Memory.size pageBytes at h
    omega
  rw [growThrough_of_add (checkedAdd_of_lt he), if_neg hpages]
  rfl

/-- A snapshot behind its length prefix, inside the memory grown so far. -/
structure Stored (m : Memory) (bytes : List UInt8) : Prop where
  length : m.bytesAt 0 8 = beBytes 8 bytes.length
  body : m.bytesAt 8 bytes.length = bytes
  grown : 8 + bytes.length ≤ m.size

/-- What leaves the bytes of a snapshot alone leaves it stored. -/
theorem Stored.frame (h : Stored m bytes) (hs : m.size ≤ m'.size)
    (hb : ∀ i < 8 + bytes.length, m'.byte i = m.byte i) : Stored m' bytes where
  length := (Memory.bytesAt_congr fun i _ hi => hb i (by omega)).trans h.length
  body := (Memory.bytesAt_congr fun i _ hi => hb i hi).trans h.body
  grown := h.grown.trans hs

theorem save_eq_ok (h : save (D := D) c grants state m = .ok m') :
    ∃ bytes, encode (D := D) c state = .ok bytes ∧ Stored m' bytes ∧
      m.size ≤ m'.size ∧ ∀ i, 8 + bytes.length ≤ i → m'.byte i = m.byte i := by
  simp only [save, bind_eq_ok, call_eq_ok, reject_eq_ok] at h
  obtain ⟨bytes, hencode, -, -, m₁, hgrow, m₂, hbody, hstart⟩ := h
  obtain ⟨hbyte, hfits, hsize⟩ := growThrough_eq_ok hgrow
  have hlen : (beBytes 8 bytes.length).length = 8 := length_beBytes _ _
  rw [Memory.write_eq_ok (by omega)] at hbody
  cases hbody
  rw [Memory.write_eq_ok (by rw [hlen, Memory.size_put]; omega)] at hstart
  cases hstart
  refine ⟨bytes, hencode, ⟨?_, ?_, by rw [Memory.size_put, Memory.size_put]; omega⟩,
    by rwa [Memory.size_put, Memory.size_put], fun i hi => ?_⟩
  · have hread := Memory.bytesAt_put_self (m := m₁.put 8 bytes) 0 (beBytes 8 bytes.length)
    rwa [hlen] at hread
  · rw [Memory.bytesAt_put_disjoint (by omega), Memory.bytesAt_put_self]
  · rw [Memory.put_byte_outside (by omega), Memory.put_byte_outside (by omega), hbyte]

/-- A snapshot that has an image is written where memory grows far enough for it. -/
theorem save_of_growThrough (h : encode (D := D) c state = .ok bytes) {m₁ : Memory}
    (hgrow : growThrough grants (bytes.length + 8) m = .ok m₁) :
    ∃ m', save (D := D) c grants state m = .ok m' := by
  have hlen := (length_of_encode h).2
  have hsmall : ¬blobBase ≤ bytes.length + 8 := by
    unfold maxSnapshot at hlen
    unfold blobBase
    omega
  have hstart : (beBytes 8 bytes.length).length = 8 := length_beBytes _ _
  obtain ⟨-, hfits, -⟩ := growThrough_eq_ok hgrow
  rw [save, h, call_ok, ok_bind, reject_pass hsmall, hgrow, call_ok, ok_bind,
    Memory.write_eq_ok (by omega), ok_bind,
    Memory.write_eq_ok (by rw [hstart, Memory.size_put]; omega)]
  exact ⟨_, rfl⟩

theorem end_of_encode (h : encode (D := D) c state = .ok bytes) :
    bytes.length + 8 + 65535 < 2 ^ 64 := by
  have hlen := (length_of_encode h).2
  unfold maxSnapshot at hlen
  omega

theorem save_of_encode (hg : ∀ n, grants n = true) (h : encode (D := D) c state = .ok bytes)
    (m : Memory) : ∃ m', save (D := D) c grants state m = .ok m' := by
  obtain ⟨m₁, hgrow⟩ := growThrough_of_grants hg (end_of_encode h) m
  exact save_of_growThrough h hgrow

/-- No page is asked for where the snapshot fits. -/
theorem save_of_fits (h : encode (D := D) c state = .ok bytes) (hfits : 8 + bytes.length ≤ m.size) :
    ∃ m', save (D := D) c grants state m = .ok m' :=
  save_of_growThrough h (growThrough_of_le (by omega) (end_of_encode h))

theorem save_ne_panic : save (D := D) c grants state m ≠ .error .panic := by
  rw [save]
  refine bind_ne_panic (call_ne_panic _) fun bytes _ => bind_ne_panic (reject_ne_panic _ _)
    fun _ _ => bind_ne_panic (call_ne_panic _) fun m₁ hgrow => ?_
  obtain ⟨-, hfits, -⟩ := growThrough_eq_ok (call_eq_ok.mp hgrow)
  have hstart : (beBytes 8 bytes.length).length = 8 := length_beBytes _ _
  rw [Memory.write_eq_ok (by omega), ok_bind,
    Memory.write_eq_ok (by rw [hstart, Memory.size_put]; omega)]
  exact fun h => nomatch h

/-- A stored snapshot is what `restore` reads. -/
theorem restore_of_stored (hc : c.Inverts) (t : Target)
    (h : encode (D := D) c state = .ok bytes) (hm : Stored m bytes) :
    restore (D := D) c t m = .ok state := by
  have hlen := (length_of_encode h).2
  have hgrown := hm.grown
  have hpages : ¬m.pages = 0 := by
    intro hp
    rw [Memory.size, hp] at hgrown
    omega
  have hword : fromBeBytes (beBytes 8 bytes.length) = bytes.length := by
    unfold maxSnapshot at hlen
    exact fromBeBytes_beBytes (by omega)
  rw [restore, reject_pass hpages, Memory.read_eq_ok (by omega), hm.length, ok_bind]
  dsimp only
  rw [hword, reject_pass (by omega), Memory.read_eq_ok (by omega), hm.body, ok_bind,
    decode_encode hc h, call_ok]

theorem restore_ne_panic {t : Target} : restore (D := D) c t m ≠ .error .panic := by
  rw [restore]
  refine bind_ne_panic (reject_ne_panic _ _) fun _ hpages => ?_
  have hsize : 0 + 8 ≤ m.size := by
    have hpos := Nat.pos_of_ne_zero (reject_eq_ok.mp hpages)
    unfold Memory.size pageBytes
    omega
  rw [Memory.read_eq_ok hsize, ok_bind]
  refine bind_ne_panic (reject_ne_panic _ _) fun _ hn => ?_
  rw [Memory.read_eq_ok (by have := reject_eq_ok.mp hn; omega), ok_bind]
  exact call_ne_panic _

/-- Memory that was never saved to restores nothing. -/
theorem restore_of_zeros {t : Target} (h : ∀ i < blobBase, m.byte i = 0) :
    restore (D := D) c t m = .error (.raise .storage) := by
  rw [restore]
  by_cases hpages : m.pages = 0
  · exact reject_stop hpages _ _
  · have hsize : 0 + 8 ≤ m.size := by
      unfold Memory.size pageBytes
      omega
    have hzero : m.bytesAt 0 8 = List.replicate 8 0 := by
      refine List.eq_replicate_iff.mpr ⟨Memory.length_bytesAt _ _, fun b hb => ?_⟩
      obtain ⟨i, hi, rfl⟩ := List.mem_map.mp hb
      refine h _ ?_
      have hlt := List.mem_range.mp hi
      unfold blobBase
      omega
    have hn : fromBeBytes (List.replicate 8 0) = 0 := rfl
    rw [reject_pass hpages, Memory.read_eq_ok hsize, hzero, ok_bind]
    dsimp only
    rw [hn, reject_pass (by omega), Memory.read_eq_ok (by omega), ok_bind]
    rfl

/-- The page that ends a range of the upload has a 64-bit address. -/
def InRange (offset n : ℕ) : Prop := blobBase + (offset + n) + 65535 < 2 ^ 64

theorem blob_address {n : ℕ} (h : blobBase + n < 2 ^ 64) :
    (add .bits64 blobBase n : Code Error ℕ) = .ok (blobBase + n) := add_of_lt h

theorem writeChunk_eq_ok {offset : ℕ} (hr : InRange offset bytes.length)
    (h : writeChunk grants offset bytes m = .ok m') :
    m'.bytesAt (blobBase + offset) bytes.length = bytes ∧
      blobBase + (offset + bytes.length) ≤ m'.size ∧ m.size ≤ m'.size ∧
      ∀ i, i < blobBase + offset ∨ blobBase + (offset + bytes.length) ≤ i →
        m'.byte i = m.byte i := by
  unfold InRange at hr
  rw [writeChunk, blob_address (by omega), ok_bind] at h
  simp only [bind_eq_ok, call_eq_ok] at h
  obtain ⟨m₁, hgrow, a, hadd, hwrite⟩ := h
  obtain ⟨hbyte, hfits, hsize⟩ := growThrough_eq_ok hgrow
  rw [blob_address (by omega)] at hadd
  cases hadd
  rw [Memory.write_eq_ok (by omega)] at hwrite
  cases hwrite
  refine ⟨Memory.bytesAt_put_self _ _, hfits, hsize, fun i hi => ?_⟩
  rw [Memory.put_byte_outside (by omega), hbyte]

/-- A chunk is written where memory grows far enough for it. -/
theorem writeChunk_of_growThrough {offset : ℕ} (hr : InRange offset bytes.length) {m₁ : Memory}
    (hgrow : growThrough grants (blobBase + (offset + bytes.length)) m = .ok m₁) :
    ∃ m', writeChunk grants offset bytes m = .ok m' := by
  unfold InRange at hr
  obtain ⟨-, hfits, -⟩ := growThrough_eq_ok hgrow
  rw [writeChunk, blob_address (by omega), ok_bind, hgrow, call_ok,
    ok_bind, blob_address (by omega), ok_bind,
    Memory.write_eq_ok (by omega)]
  exact ⟨_, rfl⟩

theorem writeChunk_of_grants {offset : ℕ} (hg : ∀ n, grants n = true)
    (hr : InRange offset bytes.length) (m : Memory) :
    ∃ m', writeChunk grants offset bytes m = .ok m' := by
  obtain ⟨m₁, hgrow⟩ := growThrough_of_grants hg (by unfold InRange at hr; exact hr) m
  exact writeChunk_of_growThrough hr hgrow

theorem writeChunk_of_refused {offset : ℕ} (hr : InRange offset bytes.length) {x : Error}
    (hgrow : growThrough grants (blobBase + (offset + bytes.length)) m = .error x) :
    writeChunk grants offset bytes m = .error (.raise x) := by
  unfold InRange at hr
  rw [writeChunk, blob_address (by omega), ok_bind, hgrow]
  rfl

theorem writeChunk_ne_panic {offset : ℕ} (hr : InRange offset bytes.length) :
    writeChunk grants offset bytes m ≠ .error .panic := by
  unfold InRange at hr
  rw [writeChunk, blob_address (by omega), ok_bind]
  refine bind_ne_panic (call_ne_panic _) fun m₁ hgrow => ?_
  obtain ⟨-, hfits, -⟩ := growThrough_eq_ok (call_eq_ok.mp hgrow)
  rw [blob_address (by omega), ok_bind,
    Memory.write_eq_ok (by omega)]
  exact fun h => nomatch h

theorem readBlob_eq_ok {offset n : ℕ} (hr : InRange offset n) (h : blobBase + (offset + n) ≤ m.size) :
    readBlob offset n m = .ok (m.bytesAt (blobBase + offset) n) := by
  unfold InRange at hr
  rw [readBlob, blob_address (by omega), ok_bind,
    Memory.read_eq_ok (by omega)]

end Regions

/-- What writes to stable memory: a snapshot, or a chunk of the upload. -/
inductive Access (T : Type)
  | save (state : T)
  | chunk (offset : ℕ) (bytes : List UInt8)

def Access.perform (a : Access T) (m : Memory) : Code Error Memory :=
  match a with
  | .save state => CanisterCommon.save (D := D) c grants state m
  | .chunk offset bytes => writeChunk grants offset bytes m

/-- An access that fails leaves memory as it was. -/
def Access.after (m : Memory) (a : Access T) : Memory :=
  match a.perform (D := D) c grants m with
  | .ok m' => m'
  | .error _ => m

def Access.Addressed : Access T → Prop
  | .save _ => True
  | .chunk offset bytes => InRange offset bytes.length

/-- The state whose snapshot was taken last. -/
def Access.latest (saved : Option T) : Access T → Option T
  | .save state => if (encode (D := D) c state).isOk then some state else saved
  | .chunk _ _ => saved

def lastSaved (accesses : List (Access T)) : Option T :=
  accesses.foldl (Access.latest (D := D) c) none

section Accesses
variable {c} {grants : ℕ → Bool} {accesses : List (Access T)} {m : Memory}

theorem snapshot_below_blob {state : T} {bytes : List UInt8}
    (h : encode (D := D) c state = .ok bytes) : 8 + bytes.length ≤ blobBase := by
  have hlen := (length_of_encode h).2
  unfold maxSnapshot at hlen
  unfold blobBase
  omega

variable (c) in
/-- What holds of stable memory after a series of accesses. -/
structure Held (accesses : List (Access T)) (m : Memory) : Prop where
  snapshot : ∀ state, lastSaved (D := D) c accesses = some state →
    ∃ bytes, encode (D := D) c state = .ok bytes ∧ Stored m bytes
  unsaved : lastSaved (D := D) c accesses = none → ∀ i < blobBase, m.byte i = 0
  grown : ∀ offset bytes, .chunk offset bytes ∈ accesses →
    blobBase + (offset + bytes.length) ≤ m.size

theorem held_empty : Held (D := D) c [] Memory.empty where
  snapshot := fun _ h => nomatch h
  unsaved := fun _ _ _ => rfl
  grown := fun _ _ h => nomatch h

theorem lastSaved_concat (a : Access T) : lastSaved (D := D) c (accesses ++ [a]) =
    a.latest (D := D) c (lastSaved (D := D) c accesses) := by
  rw [lastSaved, List.foldl_append]
  rfl

/-- A step lemma: an access keeps what holds of stable memory. -/
theorem Held.after (hg : ∀ n, grants n = true) (h : Held (D := D) c accesses m)
    (a : Access T) (ha : a.Addressed) :
    Held (D := D) c (accesses ++ [a]) (a.after (D := D) c grants m) := by
  cases a with
  | save state =>
    have hmem : ∀ {offset bytes}, .chunk offset bytes ∈ accesses ++ [.save state] →
        .chunk offset bytes ∈ accesses := by simp
    cases hencode : encode (D := D) c state with
    | ok bytes =>
      obtain ⟨m', hsave⟩ := save_of_encode hg hencode m
      obtain ⟨bytes', hencode', hstored, hsize, -⟩ := save_eq_ok hsave
      have hlast : lastSaved (D := D) c (accesses ++ [.save state]) = some state := by
        rw [lastSaved_concat, Access.latest, hencode]
        rfl
      rw [Access.after, Access.perform, hsave]
      refine ⟨fun s hs => ?_, fun hs => ?_, fun o b hb => (h.grown o b (hmem hb)).trans hsize⟩
      · cases Option.some.inj (hlast.symm.trans hs)
        exact ⟨bytes', hencode', hstored⟩
      · cases hlast.symm.trans hs
    | error e =>
      have hrefused : CanisterCommon.save (D := D) c grants state m =
          .error (.raise e) := by
        rw [CanisterCommon.save, hencode]
        rfl
      have hlast : lastSaved (D := D) c (accesses ++ [.save state]) =
          lastSaved (D := D) c accesses := by
        rw [lastSaved_concat, Access.latest, hencode]
        rfl
      rw [Access.after, Access.perform, hrefused]
      exact ⟨by rw [hlast]; exact h.snapshot, by rw [hlast]; exact h.unsaved,
        fun o b hb => h.grown o b (hmem hb)⟩
  | chunk offset bytes =>
    obtain ⟨m', hwrite⟩ := writeChunk_of_grants hg ha m
    obtain ⟨-, hfits, hsize, hframe⟩ := writeChunk_eq_ok ha hwrite
    have hlast : lastSaved (D := D) c (accesses ++ [.chunk offset bytes]) =
        lastSaved (D := D) c accesses := lastSaved_concat _
    rw [Access.after, Access.perform, hwrite]
    refine ⟨fun s hs => ?_, fun hs i hi => ?_, fun o b hb => ?_⟩
    · obtain ⟨image, hencode, hstored⟩ := h.snapshot s (hlast ▸ hs)
      refine ⟨image, hencode, hstored.frame hsize fun i hi => hframe i ?_⟩
      have hbelow := snapshot_below_blob hencode
      omega
    · rw [hframe i (by omega)]
      exact h.unsaved (hlast ▸ hs) i hi
    · rcases List.mem_append.mp hb with hb | hb
      · exact (h.grown o b hb).trans hsize
      · cases List.mem_singleton.mp hb
        exact hfits

theorem held_run (hg : ∀ n, grants n = true) (ha : ∀ a ∈ accesses, a.Addressed) :
    Held (D := D) c accesses
      (run (Access.after (D := D) c grants) Memory.empty accesses) := by
  induction accesses using List.reverseRecOn with
  | nil => exact held_empty
  | append_singleton as a ih =>
    rw [run_concat]
    exact (ih fun b hb => ha b (List.mem_append_left _ hb)).after hg a
      (ha a (List.mem_append_right _ (List.mem_singleton_self a)))

variable (c) in
/-- A reachable stable memory: whatever was saved and uploaded, in whatever order. -/
def memoryAfter (accesses : List (Access T)) : Memory :=
  run (Access.after (D := D) c fun _ => true) Memory.empty accesses

theorem snapshots_and_blobs_apart (hc : c.Inverts) (t : Target)
    (ha : ∀ a ∈ accesses, a.Addressed) (hm : memoryAfter (D := D) c accesses = m) :
    restore (D := D) c t m =
        okOr (lastSaved (D := D) c accesses) (.raise .storage) ∧
      (∀ state, match encode (D := D) c state with
        | .error e => save (D := D) c (fun _ => true) state m = .error (.raise e)
        | .ok bytes => ∃ m', save (D := D) c (fun _ => true) state m = .ok m' ∧
            8 + bytes.length ≤ blobBase ∧ m'.bytesAt 0 8 = beBytes 8 bytes.length ∧
            m'.bytesAt 8 bytes.length = bytes ∧ ∀ i, blobBase ≤ i → m'.byte i = m.byte i) ∧
      (∀ offset bytes, InRange offset bytes.length →
        ∃ m', writeChunk (fun _ => true) offset bytes m = .ok m' ∧
          m'.bytesAt (blobBase + offset) bytes.length = bytes ∧
          ∀ i < blobBase, m'.byte i = m.byte i) ∧
      (∀ offset n o b, .chunk o b ∈ accesses → offset + n ≤ o + b.length →
        readBlob offset n m = .ok (m.bytesAt (blobBase + offset) n)) ∧
      ∀ state bytes, encode (D := D) c state = .ok bytes →
        decode (D := D) c t bytes = .ok state ∧
        ∀ x, x <+: bytes ∨ bytes <+: x → x ≠ bytes →
          decode (D := D) c t x = .error .storage := by
  have hgrants : ∀ n, (fun _ : ℕ => true) n = true := fun _ => rfl
  have hheld := held_run (D := D) (c := c) hgrants ha
  rw [← memoryAfter, hm] at hheld
  refine ⟨?_, fun state => ?_, fun offset bytes hr => ?_, fun offset n o b hb hle => ?_,
    fun state bytes h => ⟨decode_encode hc h, fun x hx hne => ?_⟩⟩
  · cases hlast : lastSaved (D := D) c accesses with
    | none => exact restore_of_zeros (hheld.unsaved hlast)
    | some state =>
      obtain ⟨bytes, hencode, hstored⟩ := hheld.snapshot state hlast
      exact restore_of_stored hc t hencode hstored
  · cases hencode : encode (D := D) c state with
    | error e =>
      rw [save, hencode]
      rfl
    | ok bytes =>
      obtain ⟨m', hsave⟩ := save_of_encode hgrants hencode m
      obtain ⟨bytes', hencode', hstored, -, hframe⟩ := save_eq_ok hsave
      cases Except.ok.inj (hencode.symm.trans hencode')
      have hbelow := snapshot_below_blob hencode
      exact ⟨m', hsave, hbelow, hstored.length, hstored.body, fun i hi => hframe i (by omega)⟩
  · obtain ⟨m', hwrite⟩ := writeChunk_of_grants hgrants hr m
    obtain ⟨hbytes, -, -, hframe⟩ := writeChunk_eq_ok hr hwrite
    exact ⟨m', hwrite, hbytes, fun i hi => hframe i (by omega)⟩
  · have hgrown := hheld.grown o b hb
    have haddressed : InRange o b.length := ha _ hb
    unfold InRange at haddressed
    exact readBlob_eq_ok (by unfold InRange; omega) (by omega)
  · rcases hx with hx | hx
    · exact decode_of_prefix h hx hne
    · exact decode_of_extension h hx hne

end Accesses

/-! A state that is one `u64`, saved twice between two chunks. -/
namespace Sample

def word : Bincode UInt64 where
  serialize v := some (leBytes 8 v.toNat)
  deserialize bytes := if bytes.length = 8 then some (UInt64.ofNat (ofLeBytes bytes)) else none

theorem inverts : word.Inverts := by
  intro v bytes h
  cases Option.some.inj h
  have hv : ofLeBytes (leBytes 8 v.toNat) = v.toNat := ofLeBytes_leBytes v.toNat_lt
  simp [word, hv]

/-- SHA-256 of the images of 1 and 2. -/
def sum (bytes : List UInt8) : Vector UInt8 32 :=
  if bytes = leBytes 8 1 then #v[124, 159, 161, 54, 212, 65, 63, 166, 23, 54, 55, 232, 131, 182, 153, 141,
    50, 225, 214, 117, 248, 140, 221, 255, 157, 203, 207, 51, 24, 32, 244, 184]
  else if bytes = leBytes 8 2 then #v[216, 110, 129, 18, 243, 196, 196, 68, 33, 38, 248, 233, 244, 79, 22, 134,
    125, 164, 135, 242, 144, 82, 191, 145, 184, 16, 69, 125, 179, 66, 9, 164]
  else Vector.replicate 32 0

def Sum : Type := Vector UInt8 32

instance : ByteDigest Sum := { Hashing.ofSha256 sum with length_toBytes := fun d => d.size_toArray }

def accesses : List (Access UInt64) := [.save 1, .chunk 0 [7, 8, 9], .save 2, .chunk 3 [10]]

theorem addressed : ∀ a ∈ accesses, a.Addressed := by
  simp [accesses, Access.Addressed, InRange, blobBase]

end Sample

theorem snapshots_and_blobs_apart_sample :
    restore (D := Sample.Sum) Sample.word .bits32
        (memoryAfter (D := Sample.Sum) Sample.word Sample.accesses) = .ok 2 ∧
      ∃ bytes, readBlob 1 2 (memoryAfter (D := Sample.Sum) Sample.word Sample.accesses) =
        .ok bytes := by
  obtain ⟨hrestore, -, -, hread, -⟩ := snapshots_and_blobs_apart (D := Sample.Sum) Sample.inverts
    .bits32 Sample.addressed rfl
  exact ⟨hrestore, _, hread 1 2 0 [7, 8, 9] (by simp [Sample.accesses]) (by decide)⟩

end CanisterCommon
end IcLaya
