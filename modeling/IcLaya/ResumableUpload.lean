import IcLaya.ManifestLoading
import IcLaya.PackReading
import IcLaya.SnapshotLayout

/-!
# Resumable upload

Chunks of a model and its tokenizer may come again, out of order, overlapping or too long. What
stable memory holds above `BLOB_BASE` is what was accepted since the last `begin_upload`, whatever
other calls of the canister do in between.
-/
namespace IcLaya
open Fallible ByteFrames PanickingCode PagedMemory CanisterCommon Storage TransitionSystems

variable {F Digest : Type} [Doubles F] [ByteDigest Digest] {α β : Type}

/-- The two calls of the upload. -/
def UpdateCall.uploads : UpdateCall F Digest → Bool
  | .beginUpload .. => true
  | .uploadChunk .. => true
  | _ => false

namespace Canister

/-- A call that leaves the upload and every byte of its region as they were. -/
structure Kept (c c' : Canister F Digest) : Prop where
  upload : c'.persistent.upload = c.persistent.upload
  blob : ∀ i, blobBase ≤ i → c'.memory.byte i = c.memory.byte i
  size : c.memory.size ≤ c'.memory.size

/-- Stable memory holds a snapshot of the persistent state. -/
def Saved (l : Linked F Digest) (c : Canister F Digest) : Prop :=
  ∃ bytes, encode (D := Digest) l.bincode c.persistent = .ok bytes ∧ Stored c.memory bytes

section Quiet
variable {l : Linked F Digest} {msg : CallContext} {c c' : Canister F Digest}

theorem Kept.refl (c : Canister F Digest) : Kept c c := ⟨rfl, fun _ _ => rfl, Nat.le_refl _⟩

omit [Doubles F] in
/-- Writing a snapshot keeps the upload's region. -/
theorem kept_of_save {p : Persistent F Digest} {m m' : Memory}
    (h : save (D := Digest) l.bincode msg.grants p m = .ok m') :
    (∃ bytes, encode (D := Digest) l.bincode p = .ok bytes ∧ Stored m' bytes) ∧
      (∀ i, blobBase ≤ i → m'.byte i = m.byte i) ∧ m.size ≤ m'.size := by
  obtain ⟨bytes, hencode, hstored, hsize, hframe⟩ := save_eq_ok h
  have hbelow := snapshot_below_blob hencode
  exact ⟨⟨bytes, hencode, hstored⟩, fun i hi => hframe i (hbelow.trans hi), hsize⟩

theorem mutate_kept
    {f : Persistent F Digest → Memory → Code Error α × Persistent F Digest × Memory} {r : Result α}
    (hf : (f c.persistent c.memory).2.1.upload = c.persistent.upload ∧
      (f c.persistent c.memory).2.2 = c.memory)
    (h : c.mutate l msg f = some (r, c')) : Kept c c' ∧ Saved l c' := by
  obtain ⟨p, m, m', heq, hsave, rfl⟩ := mutate_eq_some h
  rw [heq] at hf
  obtain ⟨hupload, hm⟩ := hf
  obtain ⟨hsaved, hblob, hsize⟩ := kept_of_save hsave
  dsimp only at hupload hm
  exact ⟨⟨hupload, fun i hi => hm ▸ hblob i hi, hm ▸ hsize⟩, hsaved⟩

theorem attempt_kept {x : Code Error α} {f : α → Answer F Digest β} {r : Result β}
    (hs : Saved l c) (hf : ∀ a r c', x = .ok a → f a = some (r, c') → Kept c c' ∧ Saved l c')
    (h : c.attempt x f = some (r, c')) : Kept c c' ∧ Saved l c' := by
  rcases attempt_eq_some.mp h with ⟨a, ha, hsome⟩ | ⟨e, -, heq⟩
  · exact hf a r c' ha hsome
  · cases heq
    exact ⟨Kept.refl c, hs⟩

/-- A call that only replaces cells. -/
theorem cells_kept {x : Code Error α} {f : α → Result β × Canister F Digest} {r : Result β}
    (hs : Saved l c)
    (hf : ∀ a, (f a).2.persistent = c.persistent ∧ (f a).2.memory = c.memory)
    (h : c.attempt x (fun a => some (f a)) = some (r, c')) : Kept c c' ∧ Saved l c' := by
  refine attempt_kept hs (fun a r c' _ hsome => ?_) h
  obtain ⟨hp, hm⟩ := hf a
  rw [Option.some.inj hsome] at hp hm
  dsimp only at hp hm
  refine ⟨⟨by rw [hp], fun i _ => by rw [hm], by rw [hm]⟩, ?_⟩
  rw [Saved, hp, hm]
  exact hs

/-- Every call but the two of the upload keeps it. -/
theorem perform_kept (hb : l.bincode.Inverts) (hs : Saved l c) {call : UpdateCall F Digest}
    {r : Result Unit} (hcall : call.uploads = false)
    (h : c.perform l msg call = some (r, c')) : Kept c c' ∧ Saved l c' := by
  cases call with
  | upgrade =>
    obtain ⟨c'', hup, heq⟩ := Option.map_eq_some_iff.mp h
    cases heq
    unfold upgrade at hup
    split at hup
    · next m hsave =>
      obtain ⟨⟨bytes, hencode, hstored⟩, hblob, hsize⟩ := kept_of_save hsave
      rw [restore_of_stored hb l.target hencode hstored] at hup
      cases hup
      exact ⟨⟨rfl, hblob, hsize⟩, bytes, hencode, hstored⟩
    · cases hup
  | allowCaller caller perMinute =>
    refine attempt_kept hs (fun _ r c' _ hsome => mutate_kept ?_ hsome) h
    split <;> exact ⟨rfl, rfl⟩
  | enableSyntheticFixture =>
    obtain ⟨r', h', -⟩ := settle_eq_some h
    refine attempt_kept hs (fun _ r c' _ hsome => mutate_kept ?_ hsome) h'
    split <;> exact ⟨rfl, rfl⟩
  | registerSchema schema qtypeId =>
    obtain ⟨r', h', -⟩ := settle_eq_some h
    refine attempt_kept hs (fun _ r c' _ hsome => mutate_kept ?_ hsome) h'
    split <;> exact ⟨rfl, rfl⟩
  | registerCalibration calibration =>
    refine attempt_kept hs (fun _ r c' _ hsome => mutate_kept ?_ hsome) h
    split <;> exact ⟨rfl, rfl⟩
  | evaluate req =>
    obtain ⟨r', h', -⟩ := settle_eq_some h
    exact attempt_kept hs (fun _ r c' _ hsome => mutate_kept ⟨rfl, rfl⟩ hsome) h'
  | beginUpload => cases hcall
  | uploadChunk => cases hcall
  | startWarmup =>
    obtain ⟨r', h', -⟩ := settle_eq_some h
    exact cells_kept hs (fun _ => ⟨rfl, rfl⟩) h'
  | warmupNext =>
    obtain ⟨r', h', -⟩ := settle_eq_some h
    refine attempt_kept hs (fun b r c' _ hsome => ?_) h'
    split at hsome
    · obtain ⟨hkept, hsaved⟩ := attempt_kept (c := { c with builder := none }) hs
        (fun m r c' _ hsome => by
          obtain ⟨hkept, hsaved⟩ :=
            mutate_kept (c := { c with builder := none, model := some m }) ⟨rfl, rfl⟩ hsome
          exact ⟨⟨hkept.upload, hkept.blob, hkept.size⟩, hsaved⟩) hsome
      exact ⟨⟨hkept.upload, hkept.blob, hkept.size⟩, hsaved⟩
    · cases Option.some.inj hsome
      exact ⟨⟨rfl, fun _ _ => rfl, Nat.le_refl _⟩, hs⟩
  | startTokenInference input id =>
    obtain ⟨r', h', -⟩ := settle_eq_some h
    exact cells_kept hs (fun _ => ⟨rfl, rfl⟩) h'
  | startTokenInferenceBatch input requestId id fingerprint maxSteps begun =>
    obtain ⟨r', h', -⟩ := settle_eq_some h
    exact cells_kept hs (fun _ => ⟨rfl, rfl⟩) h'
  | advanceTokenJob job expectedStep maxSteps =>
    obtain ⟨r', h', -⟩ := settle_eq_some h
    exact cells_kept hs (fun _ => ⟨rfl, rfl⟩) h'

/-- An accepted `begin_upload` starts from nothing, with the sizes its manifest gives. -/
theorem beginUpload_eq_ok {manifest : List UInt8} {tokenizerLength : UInt64}
    {special : SpecialTokens} {d : Digest}
    (h : c.beginUpload l msg manifest tokenizerLength special = some (.ok d, c')) :
    ∃ m, Manifest.parse l.json manifest = .ok m ∧ tokenizerLength.toNat ≤ maxTokenizer ∧
      c'.persistent.upload = some ⟨manifest, tokenizerLength, m.totalBytes, 0, special⟩ ∧
      Saved l c' ∧ c'.memory.size ≥ c.memory.size := by
  rcases attempt_eq_some.mp h with ⟨m, hm, hsome⟩ | ⟨e, -, heq⟩
  · simp only [bind_eq_ok, call_eq_ok, reject_eq_ok, pure_eq_ok, not_or, not_lt] at hm
    obtain ⟨-, -, m', hparse, -, -, -, ⟨-, hlen⟩, rfl⟩ := hm
    obtain ⟨p, mem, mem', heq, hsave, rfl⟩ := mutate_eq_some hsome
    cases heq
    obtain ⟨hsaved, -, hsize⟩ := kept_of_save hsave
    exact ⟨m', hparse, hlen, rfl, hsaved, hsize⟩
  · cases heq

theorem beginUpload_eq_error {manifest : List UInt8} {tokenizerLength : UInt64}
    {special : SpecialTokens} {e : Error} (hs : Saved l c)
    (h : c.beginUpload l msg manifest tokenizerLength special = some (.error e, c')) :
    Kept c c' ∧ Saved l c' := by
  rcases attempt_eq_some.mp h with ⟨m, -, hsome⟩ | ⟨e', -, heq⟩
  · obtain ⟨p, mem, mem', heq, -⟩ := mutate_eq_some hsome
    cases heq
  · cases heq
    exact ⟨Kept.refl c, hs⟩

end Quiet

/-- What holds of the upload in every canister reached. -/
structure Uploading (l : Linked F Digest) (c : Canister F Digest) : Prop where
  saved : Saved l c
  sizes : ∀ u, c.persistent.upload = some u → u.modelLength.toNat ≤ maxTotal ∧
    u.tokenizerLength.toNat ≤ maxTokenizer ∧
    u.received.toNat ≤ u.modelLength.toNat + u.tokenizerLength.toNat
  grown : ∀ u, c.persistent.upload = some u → u.received ≠ 0 →
    blobBase + u.received.toNat ≤ c.memory.size

/-- A new chunk: of an allowed length, right behind what was received, and it fits. -/
def Accepts (u : Upload) (offset : UInt64) (bytes : List UInt8) : Prop :=
  (1 ≤ bytes.length ∧ bytes.length ≤ maxChunk) ∧ offset = u.received ∧
    offset.toNat + bytes.length ≤ u.modelLength.toNat + u.tokenizerLength.toNat

/-- A chunk of an allowed length inside what was received, with the bytes that lie there. -/
def Repeats (u : Upload) (m : Memory) (offset : UInt64) (bytes : List UInt8) : Prop :=
  (1 ≤ bytes.length ∧ bytes.length ≤ maxChunk) ∧
    offset.toNat + bytes.length ≤ u.received.toNat ∧
    m.bytesAt (blobBase + offset.toNat) bytes.length = bytes

section Chunks
variable {u : Upload} (grants : ℕ → Bool) {offset : UInt64} {bytes : List UInt8} {m : Memory}

/-- The end of a chunk that fits is far below the end of 64-bit addresses. -/
theorem inRange_of_fits (hmodel : u.modelLength.toNat ≤ maxTotal)
    (htokenizer : u.tokenizerLength.toNat ≤ maxTokenizer)
    (hfits : offset.toNat + bytes.length ≤ u.modelLength.toNat + u.tokenizerLength.toNat) :
    InRange offset.toNat bytes.length := by
  unfold maxTotal at hmodel
  unfold maxTokenizer at htokenizer
  unfold InRange blobBase
  omega

variable (hmodel : u.modelLength.toNat ≤ maxTotal)
  (htokenizer : u.tokenizerLength.toNat ≤ maxTokenizer)
  (hreceived : u.received.toNat ≤ u.modelLength.toNat + u.tokenizerLength.toNat)
  (hgrown : u.received ≠ 0 → blobBase + u.received.toNat ≤ m.size)
include hmodel htokenizer

theorem add_lengths : (add .bits64 u.modelLength.toNat u.tokenizerLength.toNat : Code Error ℕ) =
    .ok (u.modelLength.toNat + u.tokenizerLength.toNat) := by
  refine add_of_lt (t := .bits64) ?_
  unfold maxTotal at hmodel
  unfold maxTokenizer at htokenizer
  show _ < 2 ^ 64
  omega

theorem writeUpload_new (hoffset : offset = u.received)
    (hfits : offset.toNat + bytes.length ≤ u.modelLength.toNat + u.tokenizerLength.toNat) :
    writeUpload grants offset bytes u m = (do
      let m ← writeChunk grants offset.toNat bytes m
      pure (UInt64.ofNat (offset.toNat + bytes.length),
        { u with received := UInt64.ofNat (offset.toNat + bytes.length) }, m)) := by
  have hrange := inRange_of_fits hmodel htokenizer hfits
  unfold InRange at hrange
  have hstop : checkedAdd .bits64 offset.toNat bytes.length = some (offset.toNat + bytes.length) :=
    checkedAdd_of_lt (by show _ < 2 ^ 64; omega)
  have hlt : ¬offset < u.received := by
    rw [hoffset]
    exact UInt64.lt_irrefl _
  rw [writeUpload, hstop, add_lengths hmodel htokenizer]
  simp only [okOr, ok_bind, if_neg hlt]
  rw [reject_pass (Nat.not_lt.mpr hfits), reject_pass (not_not.mpr hoffset)]

include hreceived hgrown in
theorem writeUpload_again (hlt : offset < u.received)
    (hinside : offset.toNat + bytes.length ≤ u.received.toNat) :
    writeUpload grants offset bytes u m =
      if m.bytesAt (blobBase + offset.toNat) bytes.length = bytes then .ok (u.received, u, m)
      else .error (.raise .idConflict) := by
  have hfits := hinside.trans hreceived
  have hrange := inRange_of_fits hmodel htokenizer hfits
  have hread : readBlob offset.toNat bytes.length m =
      .ok (m.bytesAt (blobBase + offset.toNat) bytes.length) := by
    refine readBlob_eq_ok hrange ?_
    have hsize := hgrown fun h0 => UInt64.not_lt_zero (h0 ▸ hlt)
    omega
  unfold InRange at hrange
  have hstop : checkedAdd .bits64 offset.toNat bytes.length = some (offset.toNat + bytes.length) :=
    checkedAdd_of_lt (by show _ < 2 ^ 64; omega)
  rw [writeUpload, hstop, add_lengths hmodel htokenizer]
  simp only [okOr, ok_bind, if_pos hlt]
  rw [reject_pass (Nat.not_lt.mpr hfits), reject_pass (Nat.not_lt.mpr hinside), hread, ok_bind]
  split
  · next he => rw [reject_pass (not_not.mpr he)]; rfl
  · next he => rw [reject_stop he]

theorem writeUpload_refused
    (hnew : ¬(offset = u.received ∧
      offset.toNat + bytes.length ≤ u.modelLength.toNat + u.tokenizerLength.toNat))
    (hagain : ¬(offset < u.received ∧ offset.toNat + bytes.length ≤ u.received.toNat)) :
    ∃ e, writeUpload grants offset bytes u m = .error (.raise e) := by
  rw [writeUpload]
  cases hstop : checkedAdd .bits64 offset.toNat bytes.length with
  | none => exact ⟨_, rfl⟩
  | some stop =>
    have heq : stop = offset.toNat + bytes.length := by
      rw [checkedAdd] at hstop
      split at hstop
      · exact (Option.some.inj hstop).symm
      · cases hstop
    subst heq
    simp only [okOr, ok_bind, add_lengths hmodel htokenizer]
    by_cases hfits : offset.toNat + bytes.length ≤ u.modelLength.toNat + u.tokenizerLength.toNat
    · rw [reject_pass (Nat.not_lt.mpr hfits)]
      split
      · next hlt =>
        exact ⟨_, reject_stop (Nat.not_le.mp fun h => hagain ⟨hlt, h⟩) _ _⟩
      · have hne : offset ≠ u.received := fun h => hnew ⟨h, hfits⟩
        exact ⟨_, reject_stop hne _ _⟩
    · exact ⟨_, reject_stop (Nat.not_le.mp hfits) _ _⟩

end Chunks

section Replies
variable {l : Linked F Digest} {msg : CallContext} {c c' : Canister F Digest} {u : Upload}
  {offset : UInt64} {bytes : List UInt8}

/-- `bincode` writes a `u64` in as many bytes whatever its value. -/
def FixedWidth (l : Linked F Digest) : Prop :=
  ∀ (p : Persistent F Digest) (u : Upload) (n : UInt64),
    (l.bincode.serialize { p with upload := some { u with received := n } }).map List.length =
      (l.bincode.serialize { p with upload := some u }).map List.length

/-- A snapshot is there to be replaced by one of the same size. -/
theorem commit_of_encode {r : Result α} {p : Persistent F Digest} {m : Memory} {image : List UInt8}
    (h : encode (D := Digest) l.bincode p = .ok image) (hfits : 8 + image.length ≤ m.size) :
    ∃ c', c.commit l msg r p m = some (r, c') := by
  obtain ⟨m', hsave⟩ : ∃ m', save (D := Digest) l.bincode msg.grants p m = .ok m' :=
    save_of_fits h hfits
  exact ⟨_, commit_eq_some.mpr ⟨rfl, m', hsave, rfl⟩⟩

omit [Doubles F] in
theorem encode_received (hw : FixedWidth l) {p : Persistent F Digest} {image : List UInt8}
    (hu : p.upload = some u) (h : encode (D := Digest) l.bincode p = .ok image) (n : UInt64) :
    ∃ image', encode (D := Digest) l.bincode
      { p with upload := some { u with received := n } } = .ok image' ∧
        image'.length = image.length := by
  obtain ⟨body, hbody, hmax, rfl⟩ := encode_eq_ok.mp h
  have hp : p = { p with upload := some u } := by rw [← hu]
  have hwidth := hw p u n
  rw [← hp, hbody, Option.map_some] at hwidth
  obtain ⟨body', hbody', hlength⟩ := Option.map_eq_some_iff.mp hwidth
  refine ⟨_, encode_eq_ok.mpr ⟨body', hbody', hlength ▸ hmax, rfl⟩, ?_⟩
  simp only [List.length_append, length_beBytes, ByteDigest.length_toBytes, hlength]

/-- What a call of `upload_chunk` that answers has done. -/
inductive ChunkReply (c c' : Canister F Digest) (offset : UInt64) (bytes : List UInt8) :
    Result UInt64 → Prop
  | accepted (u : Upload) (hu : c.persistent.upload = some u) (ha : Accepts u offset bytes)
      (hupload : c'.persistent.upload =
        some { u with received := UInt64.ofNat (offset.toNat + bytes.length) })
      (hbytes : c'.memory.bytesAt (blobBase + offset.toNat) bytes.length = bytes)
      (hframe : ∀ i, blobBase ≤ i → i < blobBase + offset.toNat ∨
        blobBase + (offset.toNat + bytes.length) ≤ i → c'.memory.byte i = c.memory.byte i)
      (hfits : blobBase + (offset.toNat + bytes.length) ≤ c'.memory.size)
      (hsize : c.memory.size ≤ c'.memory.size) :
      ChunkReply c c' offset bytes (.ok (UInt64.ofNat (offset.toNat + bytes.length)))
  | repeated (u : Upload) (hu : c.persistent.upload = some u)
      (hr : Repeats u c.memory offset bytes) (hk : Kept c c') :
      ChunkReply c c' offset bytes (.ok u.received)
  | refused (e : Error) (hk : Kept c c') : ChunkReply c c' offset bytes (.error e)

theorem kept_of_commit {p : Persistent F Digest} {m m' : Memory}
    (hsave : save (D := Digest) l.bincode msg.grants p m = .ok m')
    (hp : p.upload = c.persistent.upload) (hm : m = c.memory) :
    Kept c { c with persistent := p, memory := m' } := by
  obtain ⟨-, hblob, hsize⟩ := kept_of_save hsave
  exact ⟨hp, fun i hi => hm ▸ hblob i hi, hm ▸ hsize⟩

theorem uploadChunk_eq_some (hu : Uploading l c) {r : Result UInt64}
    (h : c.uploadChunk l msg offset bytes = some (r, c')) :
    ChunkReply c c' offset bytes r ∧ Saved l c' := by
  rcases attempt_eq_some.mp h with ⟨_, hx, hsome⟩ | ⟨e, -, heq⟩
  · simp only [bind_eq_ok, reject_eq_ok, not_or, not_lt] at hx
    obtain ⟨_, -, hne, hmax⟩ := hx
    have hlength : 1 ≤ bytes.length ∧ bytes.length ≤ maxChunk :=
      ⟨List.length_pos_iff.mpr hne, hmax⟩
    obtain ⟨p, m, m', hf, hsave, rfl⟩ := mutate_eq_some hsome
    obtain ⟨hsaved, hblob, hsize⟩ := kept_of_save hsave
    refine ⟨?_, hsaved⟩
    -- whatever ends in an error has changed neither the state nor the memory
    have hrefused : ∀ e, (okOr c.persistent.upload (.raise .transition) >>=
        (writeUpload msg.grants offset bytes · c.memory)) = .error (.raise e) →
        ChunkReply c { c with persistent := p, memory := m' } offset bytes r := by
      intro e he
      rw [he] at hf
      simp only [Prod.mk.injEq] at hf
      obtain ⟨hr, hp, hm⟩ := hf
      cases call_eq_raise.mp hr.symm
      exact .refused e (kept_of_commit hsave (hp ▸ rfl) hm.symm)
    cases hupload : c.persistent.upload with
    | none => exact hrefused .transition (by rw [hupload]; rfl)
    | some u =>
      obtain ⟨hmodel, htokenizer, hreceived⟩ := hu.sizes u hupload
      have hbind : (okOr c.persistent.upload (.raise .transition) >>=
          (writeUpload msg.grants offset bytes · c.memory)) =
          writeUpload msg.grants offset bytes u c.memory := by rw [hupload]; rfl
      by_cases hnew : offset = u.received ∧
          offset.toNat + bytes.length ≤ u.modelLength.toNat + u.tokenizerLength.toNat
      · obtain ⟨hoffset, hfits⟩ := hnew
        have hrange := inRange_of_fits hmodel htokenizer hfits
        have hwrite := hbind.trans (writeUpload_new msg.grants hmodel htokenizer hoffset hfits)
        cases hchunk : writeChunk msg.grants offset.toNat bytes c.memory with
        | ok m₁ =>
          rw [hwrite, hchunk] at hf
          simp only [ok_bind, pure, Except.pure, Prod.mk.injEq] at hf
          obtain ⟨hr, rfl, rfl⟩ := hf
          cases call_eq_ok.mp hr.symm
          obtain ⟨hbytes, hend, hgrew, hframe⟩ := writeChunk_eq_ok hrange hchunk
          refine .accepted u hupload ⟨hlength, hoffset, hfits⟩ rfl ?_ (fun i hi hout => ?_)
            (hend.trans hsize) (hgrew.trans hsize)
          · exact (Memory.bytesAt_congr fun i hi _ => hblob i (by omega)).trans hbytes
          · exact (hblob i hi).trans (hframe i hout)
        | error e =>
          cases e with
          | raise e => exact hrefused e (by rw [hwrite, hchunk]; rfl)
          | panic => exact absurd hchunk (writeChunk_ne_panic hrange)
      · by_cases hagain : offset < u.received ∧ offset.toNat + bytes.length ≤ u.received.toNat
        · have hwrite := hbind.trans (writeUpload_again msg.grants hmodel htokenizer
            hreceived (hu.grown u hupload) hagain.1 hagain.2)
          by_cases hsame : c.memory.bytesAt (blobBase + offset.toNat) bytes.length = bytes
          · rw [hwrite, if_pos hsame] at hf
            simp only [Prod.mk.injEq] at hf
            obtain ⟨hr, hp, hm⟩ := hf
            cases call_eq_ok.mp hr.symm
            refine .repeated u hupload ⟨hlength, hagain.2, hsame⟩
              (kept_of_commit hsave (hp ▸ hupload.symm) hm.symm)
          · exact hrefused .idConflict (by rw [hwrite, if_neg hsame])
        · obtain ⟨e, he⟩ := writeUpload_refused msg.grants (m := c.memory) hmodel
            htokenizer hnew hagain
          exact hrefused e (hbind.trans he)
  · cases heq
    exact ⟨.refused e (Kept.refl c), hu.saved⟩

/-- A call that changes nothing is answered: its snapshot fits where the last one was. -/
theorem mutate_answers (hs : Saved l c) {r : Result α}
    {f : Persistent F Digest → Memory → Code Error α × Persistent F Digest × Memory}
    (hf : f c.persistent c.memory = (call r, c.persistent, c.memory)) :
    ∃ c', c.mutate l msg f = some (r, c') := by
  obtain ⟨image, hencode, hstored⟩ := hs
  rw [mutate_eq_commit hf]
  exact commit_of_encode hencode hstored.grown

/-- The system gives the pages that the chunk's end asks for. -/
def Granted (msg : CallContext) (c : Canister F Digest) (offset : UInt64) (bytes : List UInt8) :
    Prop :=
  ∃ m, growThrough msg.grants (blobBase + (offset.toNat + bytes.length)) c.memory = .ok m

/-- The owner's chunks are answered, whatever their offset and the pages left. -/
theorem uploadChunk_answers (hw : FixedWidth l) (hc : Uploading l c)
    (ho : msg.caller = c.persistent.owner) (hu : c.persistent.upload = some u) :
    (Accepts u offset bytes → Granted msg c offset bytes → ∃ c', c.uploadChunk l msg offset bytes =
      some (.ok (UInt64.ofNat (offset.toNat + bytes.length)), c')) ∧
    (Repeats u c.memory offset bytes →
      ∃ c', c.uploadChunk l msg offset bytes = some (.ok u.received, c')) ∧
    (¬(Accepts u offset bytes ∧ Granted msg c offset bytes) → ¬Repeats u c.memory offset bytes →
      ∃ e c', c.uploadChunk l msg offset bytes = some (.error e, c')) := by
  obtain ⟨hmodel, htokenizer, hreceived⟩ := hc.sizes u hu
  have howner : c.checkOwner msg = .ok () := if_neg (not_not.mpr ho)
  by_cases hlength : 1 ≤ bytes.length ∧ bytes.length ≤ maxChunk
  · have hpassed : (reject (bytes = [] ∨ maxChunk < bytes.length) .tooLong : Code Error Unit) =
        .ok () := reject_eq_ok.mpr
      (not_or.mpr ⟨List.length_pos_iff.mp hlength.1, Nat.not_lt.mpr hlength.2⟩)
    have hcall : ∀ x, writeUpload msg.grants offset bytes u c.memory = x →
        (okOr c.persistent.upload (.raise .transition) >>=
          (writeUpload msg.grants offset bytes · c.memory)) = x := by
      intro x hx
      rw [hu, ← hx]
      rfl
    have hsame : { c.persistent with upload := some u } = c.persistent := by rw [← hu]
    rw [uploadChunk, howner, call_ok, ok_bind, hpassed]
    dsimp only [attempt]
    refine ⟨fun ha hg => ?_, fun hr => ?_, fun hna hnr => ?_⟩
    · obtain ⟨-, hoffset, hfits⟩ := ha
      obtain ⟨m₀, hgrow⟩ := hg
      obtain ⟨image, hencode, hstored⟩ := hc.saved
      have hrange := inRange_of_fits hmodel htokenizer hfits
      obtain ⟨m₁, hchunk⟩ := writeChunk_of_growThrough hrange hgrow
      obtain ⟨-, -, hsize, -⟩ := writeChunk_eq_ok hrange hchunk
      obtain ⟨image', hencode', hwidth⟩ := encode_received hw hu hencode
        (UInt64.ofNat (offset.toNat + bytes.length))
      have hwrite := writeUpload_new msg.grants (m := c.memory) hmodel htokenizer hoffset hfits
      rw [hchunk, ok_bind] at hwrite
      obtain ⟨c', hcommit⟩ : ∃ c', c.commit l msg
          (.ok (UInt64.ofNat (offset.toNat + bytes.length))) { c.persistent with
            upload := some { u with received := UInt64.ofNat (offset.toNat + bytes.length) } } m₁ =
          some (.ok (UInt64.ofNat (offset.toNat + bytes.length)), c') := by
        refine commit_of_encode hencode' ?_
        rw [hwidth]
        exact hstored.grown.trans hsize
      exact ⟨c', (mutate_eq_commit (by rw [hcall _ hwrite]; rfl)).trans hcommit⟩
    · obtain ⟨-, hinside, hbytes⟩ := hr
      have hlt : offset < u.received := by
        rw [UInt64.lt_iff_toNat_lt]
        omega
      have hwrite := writeUpload_again msg.grants hmodel htokenizer hreceived (hc.grown u hu) hlt
        hinside
      rw [if_pos hbytes] at hwrite
      refine mutate_answers hc.saved ?_
      rw [hcall _ hwrite]
      exact Prod.ext rfl (Prod.ext hsame rfl)
    · by_cases hnew : offset = u.received ∧
          offset.toNat + bytes.length ≤ u.modelLength.toNat + u.tokenizerLength.toNat
      · obtain ⟨hoffset, hfits⟩ := hnew
        have hwrite := writeUpload_new msg.grants (m := c.memory) hmodel htokenizer hoffset hfits
        cases hgrow : growThrough msg.grants (blobBase + (offset.toNat + bytes.length)) c.memory with
        | ok m₁ => exact absurd ⟨⟨hlength, hoffset, hfits⟩, m₁, hgrow⟩ hna
        | error e =>
          rw [writeChunk_of_refused (inRange_of_fits hmodel htokenizer hfits) hgrow] at hwrite
          exact ⟨e, mutate_answers hc.saved (by rw [hcall _ hwrite]; rfl)⟩
      · by_cases hagain : offset < u.received ∧ offset.toNat + bytes.length ≤ u.received.toNat
        · have hwrite := writeUpload_again msg.grants hmodel htokenizer hreceived (hc.grown u hu)
            hagain.1 hagain.2
          rw [if_neg fun hsame => hnr ⟨hlength, hagain.2, hsame⟩] at hwrite
          exact ⟨_, mutate_answers hc.saved (by rw [hcall _ hwrite]; rfl)⟩
        · obtain ⟨e, he⟩ := writeUpload_refused msg.grants (m := c.memory) hmodel htokenizer hnew
            hagain
          exact ⟨e, mutate_answers hc.saved (by rw [hcall _ he]; rfl)⟩
  · have hstop : bytes = [] ∨ maxChunk < bytes.length := by
      by_contra hn
      obtain ⟨hne, hmax⟩ := not_or.mp hn
      exact hlength ⟨List.length_pos_iff.mpr hne, Nat.not_lt.mp hmax⟩
    have htooLong : c.uploadChunk l msg offset bytes = some (.error .tooLong, c) := by
      rw [uploadChunk, howner, call_ok, ok_bind, reject, rejectIf, if_pos hstop]
      rfl
    exact ⟨fun ha => absurd ha.1 hlength, fun hr => absurd hr.1 hlength,
      fun _ _ => ⟨_, _, htooLong⟩⟩

/-- Nobody else's are. -/
theorem uploadChunk_stranger (ho : msg.caller ≠ c.persistent.owner) :
    c.uploadChunk l msg offset bytes = some (.error .unauthorized, c) := by
  have howner : c.checkOwner msg = .error .unauthorized := if_pos ho
  rw [uploadChunk, howner]
  rfl

end Replies

/-- The chunks accepted since the last `begin_upload`, after one more call that answered. -/
def record (c : Canister F Digest) (call : UpdateCall F Digest) (r : Result Unit)
    (chunks : List (List UInt8)) : List (List UInt8) :=
  match call, r, c.persistent.upload with
  | .beginUpload .., .ok _, _ => []
  | .uploadChunk offset bytes, .ok _, some u =>
    if offset = u.received then chunks ++ [bytes] else chunks
  | _, _, _ => chunks

/-- A call on a canister beside the chunks it accepted; a call that traps is undone. -/
def observe (l : Linked F Digest) (s : Canister F Digest × List (List UInt8))
    (x : CallContext × UpdateCall F Digest) : Canister F Digest × List (List UInt8) :=
  match s.1.perform l x.1 x.2 with
  | some (r, c') => (c', s.1.record x.2 r s.2)
  | none => s

/-- What a call does to the upload. -/
inductive UploadStep (c c' : Canister F Digest) : UpdateCall F Digest → Result Unit → Prop
  | begun (manifest : List UInt8) (tokenizerLength total : UInt64) (special : SpecialTokens)
      (hmodel : total.toNat ≤ maxTotal) (htokenizer : tokenizerLength.toNat ≤ maxTokenizer)
      (hupload : c'.persistent.upload = some ⟨manifest, tokenizerLength, total, 0, special⟩) :
      UploadStep c c' (.beginUpload manifest tokenizerLength special) (.ok ())
  | accepted (offset : UInt64) (bytes : List UInt8) (u : Upload)
      (hu : c.persistent.upload = some u) (ha : Accepts u offset bytes)
      (hupload : c'.persistent.upload =
        some { u with received := UInt64.ofNat (offset.toNat + bytes.length) })
      (hbytes : c'.memory.bytesAt (blobBase + offset.toNat) bytes.length = bytes)
      (hframe : ∀ i, blobBase ≤ i → i < blobBase + offset.toNat ∨
        blobBase + (offset.toNat + bytes.length) ≤ i → c'.memory.byte i = c.memory.byte i)
      (hfits : blobBase + (offset.toNat + bytes.length) ≤ c'.memory.size) :
      UploadStep c c' (.uploadChunk offset bytes) (.ok ())
  | kept (call : UpdateCall F Digest) (r : Result Unit) (hk : Kept c c')
      (hrecord : ∀ chunks, c.record call r chunks = chunks) : UploadStep c c' call r

section Runs
variable {l : Linked F Digest} {msg : CallContext} {c c' : Canister F Digest}
  {chunks : List (List UInt8)}

/-- A step lemma: every call that answers does one of the three. -/
theorem perform_upload (hb : l.bincode.Inverts) (hc : Uploading l c)
    {call : UpdateCall F Digest} {r : Result Unit} (h : c.perform l msg call = some (r, c')) :
    UploadStep c c' call r ∧ Saved l c' := by
  by_cases huploads : call.uploads = true
  · cases call with
    | beginUpload manifest tokenizerLength special =>
      obtain ⟨⟨x, c''⟩, hbegin, heq⟩ := Option.map_eq_some_iff.mp h
      cases heq
      cases x with
      | ok d =>
        obtain ⟨m, hparse, hlength, hupload, hsaved, -⟩ := beginUpload_eq_ok hbegin
        exact ⟨.begun manifest tokenizerLength m.totalBytes special
          (Manifest.totalBytes_of_parse hparse) hlength hupload, hsaved⟩
      | error e =>
        obtain ⟨hkept, hsaved⟩ := beginUpload_eq_error hc.saved hbegin
        exact ⟨.kept _ _ hkept fun _ => rfl, hsaved⟩
    | uploadChunk offset bytes =>
      obtain ⟨⟨x, c''⟩, hchunk, heq⟩ := Option.map_eq_some_iff.mp h
      cases heq
      obtain ⟨hreply, hsaved⟩ := uploadChunk_eq_some hc hchunk
      refine ⟨?_, hsaved⟩
      cases hreply with
      | accepted u hu ha hupload hbytes hframe hfits hsize =>
        exact .accepted offset bytes u hu ha hupload hbytes hframe hfits
      | repeated u hu hr hk =>
        refine .kept _ _ hk fun chunks => ?_
        have hne : offset ≠ u.received := by
          rintro rfl
          obtain ⟨hlength, hinside, -⟩ := hr
          omega
        simp only [record, hu, Except.map, if_neg hne]
      | refused e hk => exact .kept _ _ hk fun _ => rfl
    | _ => cases huploads
  · obtain ⟨hkept, hsaved⟩ := perform_kept hb hc.saved (eq_false_of_ne_true huploads) h
    refine ⟨.kept _ _ hkept fun chunks => ?_, hsaved⟩
    cases call <;> first | rfl | exact absurd rfl huploads

omit [ByteDigest Digest] in
/-- The end of an accepted chunk is a word. -/
theorem toNat_end {u : Upload} {offset : UInt64} {bytes : List UInt8}
    (hmodel : u.modelLength.toNat ≤ maxTotal) (htokenizer : u.tokenizerLength.toNat ≤ maxTokenizer)
    (ha : Accepts u offset bytes) :
    (UInt64.ofNat (offset.toNat + bytes.length)).toNat = offset.toNat + bytes.length := by
  obtain ⟨-, -, hfits⟩ := ha
  unfold maxTotal at hmodel
  unfold maxTokenizer at htokenizer
  exact UInt64.toNat_ofNat_of_lt' (by show _ < 2 ^ 64; omega)

/-- What a run keeps: the bytes received are the chunks accepted, one after the other. -/
structure Assembled (l : Linked F Digest) (s : Canister F Digest × List (List UInt8)) : Prop where
  uploading : Uploading l s.1
  count : ∀ u, s.1.persistent.upload = some u → u.received.toNat = s.2.flatten.length
  bytes : s.1.persistent.upload ≠ none →
    s.1.memory.bytesAt blobBase s.2.flatten.length = s.2.flatten

theorem Assembled.step (h : Assembled l (c, chunks)) {call : UpdateCall F Digest} {r : Result Unit}
    (hsaved : Saved l c') (hstep : UploadStep c c' call r) :
    Assembled l (c', c.record call r chunks) := by
  obtain ⟨hc, hcount, hbytes⟩ := h
  cases hstep with
  | begun manifest tokenizerLength total special hmodel htokenizer hupload =>
    refine ⟨⟨hsaved, fun u hu => ?_, fun u hu hne => ?_⟩, fun u hu => ?_, fun _ => rfl⟩ <;>
      cases Option.some.inj (hupload.symm.trans hu)
    · exact ⟨hmodel, htokenizer, Nat.zero_le _⟩
    · exact absurd rfl hne
    · rfl
  | accepted offset bytes u hu ha hupload hnew hframe hfits =>
    obtain ⟨hmodel, htokenizer, hreceived⟩ := hc.sizes u hu
    have hend := toNat_end hmodel htokenizer ha
    obtain ⟨hlength, rfl, hends⟩ := ha
    have hlen := hcount u hu
    have hrecord : c.record (.uploadChunk u.received bytes) (.ok ()) chunks = chunks ++ [bytes] := by
      simp only [record, hu, if_true]
    have hflat : (chunks ++ [bytes]).flatten = chunks.flatten ++ bytes := by simp
    rw [hrecord]
    refine ⟨⟨hsaved, fun u' hu' => ?_, fun u' hu' _ => ?_⟩, fun u' hu' => ?_, fun _ => ?_⟩
    · cases Option.some.inj (hupload.symm.trans hu')
      exact ⟨hmodel, htokenizer, hend.trans_le hends⟩
    · cases Option.some.inj (hupload.symm.trans hu')
      exact (congrArg (blobBase + ·) hend).trans_le hfits
    · cases Option.some.inj (hupload.symm.trans hu')
      rw [hflat, List.length_append, ← hlen]
      exact hend
    · -- behind the chunks before it lies the new one
      dsimp only at hlen hbytes ⊢
      rw [hflat, List.length_append, Memory.bytesAt_add, ← hlen, hnew]
      congr 1
      rw [Memory.bytesAt_congr fun i hi hlt => hframe i hi (.inl hlt), hlen]
      exact hbytes (hu ▸ Option.some_ne_none u)
  | kept _ _ hk hrecord =>
    rw [hrecord]
    refine ⟨⟨hsaved, fun u hu => hc.sizes u (hk.upload ▸ hu), fun u hu hne =>
      (hc.grown u (hk.upload ▸ hu) hne).trans hk.size⟩, fun u hu => hcount u (hk.upload ▸ hu),
      fun hne => ?_⟩
    exact (Memory.bytesAt_congr fun i hi _ => hk.blob i hi).trans (hbytes (hk.upload ▸ hne))

theorem assembled_init {owner : Principal} (h : init l msg owner = some c) :
    Assembled l (c, []) := by
  unfold init at h
  split at h
  · cases h
  · dsimp only at h
    split at h
    · next m hsave =>
      cases h
      obtain ⟨hsaved, -⟩ := kept_of_save hsave
      exact ⟨⟨hsaved, fun _ hu => (nomatch hu), fun _ hu => (nomatch hu)⟩,
        fun _ hu => (nomatch hu), fun hne => absurd rfl hne⟩
    · cases h

/-- A run lemma. -/
theorem assembled_run (hb : l.bincode.Inverts) {owner : Principal} (h : init l msg owner = some c)
    (calls : List (CallContext × UpdateCall F Digest)) :
    Assembled l (run (observe l) (c, []) calls) := by
  refine run_invariant (Assembled l) (fun s x hs => ?_) (assembled_init h) calls
  unfold observe
  split
  · next r c' hperform =>
    obtain ⟨hstep, hsaved⟩ := perform_upload hb hs.uploading hperform
    exact hs.step hsaved hstep
  · exact hs

end Runs

/-- A `begin_upload` that succeeds. -/
def restarts : UpdateCall F Digest → Result Unit → Bool
  | .beginUpload .., .ok _ => true
  | _, _ => false

theorem record_of_restarts {c : Canister F Digest} {call : UpdateCall F Digest} {r : Result Unit}
    (h : restarts call r = true) (chunks : List (List UInt8)) : c.record call r chunks = [] := by
  cases call with
  | beginUpload =>
    cases r with
    | ok _ => rfl
    | error _ => cases h
  | _ => cases h

namespace ChunkReply
variable {c c' : Canister F Digest} {offset : UInt64} {bytes : List UInt8} {r : Result UInt64}
  {u : Upload}

/-- A new chunk is not one that lies inside what was received. -/
theorem of_accepts (h : ChunkReply c c' offset bytes r) (hr : r.isOk = true)
    (hu : c.persistent.upload = some u) (ha : Accepts u offset bytes) :
    c'.persistent.upload = some { u with received := UInt64.ofNat (offset.toNat + bytes.length) } ∧
      c'.memory.bytesAt (blobBase + u.received.toNat) bytes.length = bytes := by
  cases h with
  | accepted u₁ hu₁ _ hupload hbytes =>
    cases Option.some.inj (hu.symm.trans hu₁)
    exact ⟨hupload, ha.2.1 ▸ hbytes⟩
  | repeated u₁ hu₁ hrep =>
    cases Option.some.inj (hu.symm.trans hu₁)
    obtain ⟨⟨hpos, -⟩, rfl, -⟩ := ha
    have hinside := hrep.2.1
    omega
  | refused => cases hr

theorem of_repeats (h : ChunkReply c c' offset bytes r) (hu : c.persistent.upload = some u)
    (hrep : Repeats u c.memory offset bytes) : Kept c c' := by
  cases h with
  | accepted u₁ hu₁ ha =>
    cases Option.some.inj (hu.symm.trans hu₁)
    obtain ⟨⟨hpos, -⟩, rfl, -⟩ := ha
    have hinside := hrep.2.1
    omega
  | repeated _ _ _ hk => exact hk
  | refused _ hk => exact hk

end ChunkReply

theorem upload_assembles {l : Linked F Digest} (hb : l.bincode.Inverts) (hw : FixedWidth l)
    {msg₀ : CallContext} {owner : Principal} {c₀ : Canister F Digest}
    (h₀ : init l msg₀ owner = some c₀) {calls : List (CallContext × UpdateCall F Digest)}
    {c : Canister F Digest} {chunks : List (List UInt8)}
    (hrun : run (observe l) (c₀, []) calls = (c, chunks)) {u : Upload}
    (hu : c.persistent.upload = some u) :
    (u.received.toNat = chunks.flatten.length ∧
      u.received.toNat ≤ u.modelLength.toNat + u.tokenizerLength.toNat ∧
      c.memory.bytesAt blobBase u.received.toNat = chunks.flatten) ∧
    (∀ msg call r c', c.perform l msg call = some (r, c') →
      (r.isOk = false → Kept c c') ∧
      ∃ u', c'.persistent.upload = some u' ∧
        if restarts call r then u'.received = 0
        else u.received ≤ u'.received ∧ u'.modelLength = u.modelLength ∧
          u'.tokenizerLength = u.tokenizerLength ∧
          c'.memory.bytesAt blobBase u.received.toNat = chunks.flatten) ∧
    ∀ msg offset bytes, if msg.caller ≠ c.persistent.owner
      then c.uploadChunk l msg offset bytes = some (.error .unauthorized, c)
      else
        (Accepts u offset bytes → Granted msg c offset bytes → ∃ c',
          c.uploadChunk l msg offset bytes =
            some (.ok (UInt64.ofNat (offset.toNat + bytes.length)), c') ∧
          c'.persistent.upload =
            some { u with received := UInt64.ofNat (offset.toNat + bytes.length) } ∧
          c'.memory.bytesAt (blobBase + u.received.toNat) bytes.length = bytes) ∧
        (Repeats u c.memory offset bytes → ∃ c',
          c.uploadChunk l msg offset bytes = some (.ok u.received, c') ∧ Kept c c') ∧
        (¬(Accepts u offset bytes ∧ Granted msg c offset bytes) →
          ¬Repeats u c.memory offset bytes → ∃ e c',
            c.uploadChunk l msg offset bytes = some (.error e, c') ∧ Kept c c') := by
  have hall := assembled_run hb h₀ calls
  rw [hrun] at hall
  obtain ⟨hc, hcount, hbytes⟩ := hall
  have hreceived := hcount u hu
  have hstart : c.memory.bytesAt blobBase u.received.toNat = chunks.flatten := by
    rw [hreceived]
    exact hbytes (hu ▸ Option.some_ne_none u)
  obtain ⟨hmodel, htokenizer, htotal⟩ := hc.sizes u hu
  refine ⟨⟨hreceived, htotal, hstart⟩, fun msg call r c' h => ?_, fun msg offset bytes => ?_⟩
  · obtain ⟨hstep, -⟩ := perform_upload hb hc h
    cases hstep with
    | begun manifest tokenizerLength total special _ _ hupload =>
      exact ⟨fun hr => (nomatch hr), _, hupload, rfl⟩
    | accepted offset bytes u₁ hu₁ ha hupload _ hframe =>
      cases Option.some.inj (hu.symm.trans hu₁)
      have hend := toNat_end hmodel htokenizer ha
      obtain ⟨-, rfl, -⟩ := ha
      refine ⟨fun hr => (nomatch hr), _, hupload, ?_, rfl, rfl, ?_⟩
      · rw [UInt64.le_iff_toNat_le, hend]
        exact Nat.le_add_right _ _
      · exact (Memory.bytesAt_congr fun i hi hlt => hframe i hi (.inl hlt)).trans hstart
    | kept _ _ hk hrecord =>
      refine ⟨fun _ => hk, u, hk.upload.trans hu, ?_⟩
      split
      · -- a record that is emptied whatever it holds
        next hr =>
        exact nomatch (record_of_restarts hr [[]]).symm.trans (hrecord [[]])
      · exact ⟨UInt64.le_refl _, rfl, rfl,
          (Memory.bytesAt_congr fun i hi _ => hk.blob i hi).trans hstart⟩
  · split
    · next hne => exact uploadChunk_stranger hne
    · next ho =>
      have howner := not_not.mp ho
      refine ⟨fun ha hg => ?_, fun hr => ?_, fun hna hnr => ?_⟩
      · obtain ⟨c', h⟩ := (uploadChunk_answers hw hc howner hu).1 ha hg
        obtain ⟨hreply, -⟩ := uploadChunk_eq_some hc h
        exact ⟨c', h, hreply.of_accepts rfl hu ha⟩
      · obtain ⟨c', h⟩ := (uploadChunk_answers hw hc howner hu).2.1 hr
        obtain ⟨hreply, -⟩ := uploadChunk_eq_some hc h
        exact ⟨c', h, hreply.of_repeats hu hr⟩
      · obtain ⟨e, c', h⟩ := (uploadChunk_answers hw hc howner hu).2.2 hna hnr
        obtain ⟨hreply, -⟩ := uploadChunk_eq_some hc h
        cases hreply with
        | refused _ hk => exact ⟨e, c', h, hk⟩

/-- A call of `upload_chunk` changes nothing but the upload and memory. -/
theorem uploadChunk_frame {l : Linked F Digest} {msg : CallContext} {c c' : Canister F Digest}
    {offset : UInt64} {bytes : List UInt8} {r : Result UInt64}
    (h : c.uploadChunk l msg offset bytes = some (r, c')) :
    ∃ u m, c' = { c with persistent := { c.persistent with upload := u }, memory := m } := by
  rcases attempt_eq_some.mp h with ⟨_, -, hsome⟩ | ⟨e, -, heq⟩
  · obtain ⟨p, m, m', hf, -, rfl⟩ := mutate_eq_some hsome
    split at hf
    · simp only [Prod.mk.injEq] at hf
      obtain ⟨-, rfl, -⟩ := hf
      exact ⟨_, m', rfl⟩
    · simp only [Prod.mk.injEq] at hf
      obtain ⟨-, rfl, -⟩ := hf
      exact ⟨c.persistent.upload, m', rfl⟩
  · cases heq
    exact ⟨c.persistent.upload, c.memory, rfl⟩

section Pieces
variable {l : Linked F Digest} {msg : CallContext} {c : Canister F Digest} {u : Upload}
  {offset : UInt64} {bytes : List UInt8} {chunks : List (List UInt8)}

theorem observe_eq {x : CallContext × UpdateCall F Digest} {r : Result Unit} {c' : Canister F Digest}
    (h : c.perform l x.1 x.2 = some (r, c')) :
    observe l (c, chunks) x = (c', c.record x.2 r chunks) := by
  rw [observe, h]

/-- The owner's next chunk is accepted, where memory grows. -/
theorem perform_accepted (hb : l.bincode.Inverts) (hw : FixedWidth l) (h : Assembled l (c, chunks))
    (ho : msg.caller = c.persistent.owner) (hg : ∀ n, msg.grants n = true)
    (hu : c.persistent.upload = some u) (ha : Accepts u offset bytes) :
    ∃ m, Assembled l ({ c with
        persistent := { c.persistent with
          upload := some { u with received := UInt64.ofNat (offset.toNat + bytes.length) } }
        memory := m }, chunks ++ [bytes]) ∧
      c.perform l msg (.uploadChunk offset bytes) = some (.ok (), { c with
        persistent := { c.persistent with
          upload := some { u with received := UInt64.ofNat (offset.toNat + bytes.length) } }
        memory := m }) ∧
      c.record (.uploadChunk offset bytes) (.ok ()) chunks = chunks ++ [bytes] := by
  obtain ⟨hmodel, htokenizer, -⟩ := h.uploading.sizes u hu
  have hgrow : Granted msg c offset bytes := by
    refine growThrough_of_grants hg ?_ _
    have hfits := ha.2.2
    unfold maxTotal at hmodel
    unfold maxTokenizer at htokenizer
    unfold blobBase
    omega
  obtain ⟨c', hchunk⟩ := (uploadChunk_answers hw h.uploading ho hu).1 ha hgrow
  obtain ⟨hreply, -⟩ := uploadChunk_eq_some h.uploading hchunk
  obtain ⟨u', m, rfl⟩ := uploadChunk_frame hchunk
  obtain rfl : u' = some _ := (hreply.of_accepts rfl hu ha).1
  have hperform : c.perform l msg (.uploadChunk offset bytes) = some (.ok (), { c with
      persistent := { c.persistent with
        upload := some { u with received := UInt64.ofNat (offset.toNat + bytes.length) } }
      memory := m }) := by
    rw [perform, hchunk]
    rfl
  obtain ⟨hstep, hsaved⟩ := perform_upload hb h.uploading hperform
  have hrecord : c.record (.uploadChunk offset bytes) (.ok ()) chunks = chunks ++ [bytes] := by
    simp only [record, hu, ha.2.1, if_true]
  exact ⟨m, hrecord ▸ h.step hsaved hstep, hperform, hrecord⟩

/-- A chunk that is there already is acknowledged, and nothing but memory changes. -/
theorem perform_repeated (hb : l.bincode.Inverts) (hw : FixedWidth l) (h : Assembled l (c, chunks))
    (ho : msg.caller = c.persistent.owner) (hu : c.persistent.upload = some u)
    (hr : Repeats u c.memory offset bytes) :
    ∃ m, Assembled l ({ c with memory := m }, chunks) ∧
      c.perform l msg (.uploadChunk offset bytes) = some (.ok (), { c with memory := m }) ∧
      c.record (.uploadChunk offset bytes) (.ok ()) chunks = chunks := by
  obtain ⟨c', hchunk⟩ := (uploadChunk_answers hw h.uploading ho hu).2.1 hr
  obtain ⟨hreply, -⟩ := uploadChunk_eq_some h.uploading hchunk
  have hk := hreply.of_repeats hu hr
  obtain ⟨u', m, rfl⟩ := uploadChunk_frame hchunk
  have hupload : u' = c.persistent.upload := hk.upload
  subst hupload
  have hperform : c.perform l msg (.uploadChunk offset bytes) =
      some (.ok (), { c with memory := m }) := by
    rw [perform, hchunk]
    rfl
  obtain ⟨hstep, hsaved⟩ := perform_upload hb h.uploading hperform
  have hne : offset ≠ u.received := by
    rintro rfl
    have hpos := hr.1.1
    have hinside := hr.2.1
    omega
  have hrecord : c.record (.uploadChunk offset bytes) (.ok ()) chunks = chunks := by
    simp only [record, hu, if_neg hne]
  exact ⟨m, hrecord ▸ h.step hsaved hstep, hperform, hrecord⟩

/-- Any part of what was received, and no longer than a chunk, is there already. -/
theorem Assembled.repeats (h : Assembled l (c, chunks)) (hu : c.persistent.upload = some u)
    {offset n : ℕ} (hn : 1 ≤ n ∧ n ≤ maxChunk) (hle : offset + n ≤ chunks.flatten.length) :
    Repeats u c.memory (UInt64.ofNat offset) ((chunks.flatten.drop offset).take n) := by
  have hcount : u.received.toNat = chunks.flatten.length := h.count u hu
  have hbytes : c.memory.bytesAt blobBase chunks.flatten.length = chunks.flatten :=
    h.bytes (hu ▸ Option.some_ne_none u)
  have hoffset : (UInt64.ofNat offset).toNat = offset := by
    have hlt := u.received.toNat_lt
    exact UInt64.toNat_ofNat_of_lt' (by show _ < 2 ^ 64; omega)
  have hlength : ((chunks.flatten.drop offset).take n).length = n := by
    rw [List.length_take, List.length_drop]
    omega
  refine ⟨hlength.symm ▸ hn, ?_, ?_⟩
  · rw [hoffset, hlength, hcount]
    exact hle
  · rw [hoffset, hlength, Memory.bytesAt_of_prefix hle, hbytes]

end Pieces

/-- An owner's `begin_upload` with a manifest that can be read is answered, where memory grows. -/
theorem beginUpload_answers {l : Linked F Digest} {msg : CallContext} {c : Canister F Digest}
    {manifest image : List UInt8} {tokenizerLength : UInt64} {special : SpecialTokens}
    {m : Manifest F Digest} (ho : msg.caller = c.persistent.owner)
    (hparse : Manifest.parse l.json manifest = .ok m) (hmask : m.config.maskTokenId = special.mask)
    (hlength : tokenizerLength ≠ 0 ∧ tokenizerLength.toNat ≤ maxTokenizer)
    (hg : ∀ n, msg.grants n = true)
    (hencode : encode (D := Digest) l.bincode { c.persistent with
      fixtureMode := false
      upload := some ⟨manifest, tokenizerLength, m.totalBytes, 0, special⟩ } = .ok image) :
    ∃ m', c.beginUpload l msg manifest tokenizerLength special = some (.ok (hash manifest),
      ⟨{ c.persistent with
        fixtureMode := false
        upload := some ⟨manifest, tokenizerLength, m.totalBytes, 0, special⟩ }, m',
        none, none, none, none⟩) := by
  have howner : c.checkOwner msg = .ok () := if_neg (not_not.mpr ho)
  obtain ⟨m', hsave⟩ := save_of_encode hg hencode c.memory
  rw [beginUpload, howner, call_ok, ok_bind, hparse, ok_bind, reject_pass (not_not.mpr hmask),
    reject_pass (not_or.mpr ⟨hlength.1, Nat.not_lt.mpr hlength.2⟩)]
  dsimp only [attempt, pure, Except.pure]
  rw [mutate_eq_commit (r := .ok (hash manifest)) rfl]
  exact ⟨m', commit_eq_some.mpr ⟨rfl, m', hsave, rfl⟩⟩

/-! An upload of the pack of zeros in two chunks. The second one comes twice, and then a part of
both. -/
namespace Sample
open BinaryCodecs JsonDocuments LayaModel PackExporter PackReading PackReading.Sample
open Sha256 (Checksum)

def owner : Principal := ⟨[1, 6], by decide⟩

/-- A tokenizer of five words, each text one word to it. -/
def vocabulary : List UInt8 := asBytes
  ("\x7b\"added_tokens\":[],\"model\":\x7b\"type\":\"WordLevel\",\"unk_token\":\"[UNK]\"," ++
    "\"vocab\":\x7b\"[PAD]\":0,\"[CLS]\":1,\"[SEP]\":2,\"[UNK]\":3,\"[MASK]\":4\x7d\x7d\x7d")

def words : List String := ["[PAD]", "[CLS]", "[SEP]", "[UNK]", "[MASK]"]

def special : SpecialTokens := ⟨1, 2, 4, 0, words⟩

def tokenizers : HfReader where
  fromBytes bytes :=
    if bytes = vocabulary then
      .ok ⟨fun id => words[id.toNat]?, fun text => .ok [UInt32.ofNat ((words.idxOf? text).getD 3)]⟩
    else .error "expected value"
  addedTokens bytes := if bytes = vocabulary then .ok [] else .error "expected value"

/-- The table of the configuration, each tensor behind the ones before it. -/
def entries : ℕ → Entries → List (Json ℚ)
  | _, [] => []
  | pos, (name, shape) :: rest =>
    let raw := Manifest.Sample.payload shape
    .dict [(.text "storage", .str (.text (if shape.length = 1 then "F32" else "I8Row"))),
      (.text "name", .str (.text name)), (.text "shape", naturals shape),
      (.text "offset", .int pos), (.text "length", .int raw.length),
      (.text "sha256", sha Checksum raw)] :: entries (pos + raw.length) rest

def manifest : Json ℚ := .dict [(.text "format", .str (.text packFormat)),
  (.text "source_repo", .str (.text "laya/zeros")), (.text "source_revision", .str (.text "0")),
  (.text "test_only", .bool true), (.text "tokenizer_sha256", sha Checksum vocabulary),
  (.text "primitive_to_qtype", naturals [0, 1, 2]), (.text "config", .dict config),
  (.text "total_bytes", .int 328), (.text "tensors", .list (entries 0 (tensorTable Zeros.config)))]

/-- The text that the exporter writes. -/
def raw : List UInt8 := dumps PackReading.Sample.repr 0 manifest ++ [10]

def json (text : List UInt8) : Except String (Manifest ℚ Checksum) :=
  if text = raw then okOr (readManifest .bits32 id manifest) "invalid type"
  else .error "expected value"

/-- The double `1.0`, and no other. -/
def one : Codec ℚ where
  encode _ := leBytes 8 0x3ff0000000000000
  decode bs := if bs.take 8 = leBytes 8 0x3ff0000000000000 then some (1, bs.drop 8) else none
  fits x := decide (x = 1)
  decode_encode x rest h := by
    have hlen := length_leBytes 8 0x3ff0000000000000
    rw [List.take_left' hlen, List.drop_left' hlen, if_pos rfl, of_decide_eq_true h]

def linked : Linked ℚ Checksum where
  json := json
  tokenizers := tokenizers
  bincode := SnapshotLayout.bincode (SnapshotLayout.persistent one)
  f32 := ⟨fun _ _ ids => .ok (LayaModel.Zeros.tensor ids.length), fun _ x => .ok x,
    fun _ _ _ x => .ok x, fun _ x _ => .ok x, fun _ _ _ x => .ok x, fun _ => .ok []⟩
  q8 := ⟨fun _ _ ids => .ok (LayaModel.Zeros.qtensor ids.length), fun _ x => .ok x,
    fun _ _ _ x => .ok x, fun _ x _ => .ok x, fun _ _ _ x => .ok x, fun _ => .ok []⟩
  target := .bits32

theorem inverts : linked.bincode.Inverts := SnapshotLayout.bincode_inverts _

theorem fixedWidth : FixedWidth linked := by
  intro p u n
  have hsize : (SnapshotLayout.persistent one).size { p with
      upload := some { u with received := n } } =
        (SnapshotLayout.persistent one).size { p with upload := some u } := by
    simp only [SnapshotLayout.persistent, SnapshotLayout.upload, Codec.size_record, Codec.size_pair,
      Codec.size_some, Codec.size_u64]
  show (if (SnapshotLayout.persistent one).fits { p with upload := some u } = true then _ else _ :
    Option (List UInt8)).map List.length = _
  simp only [linked, SnapshotLayout.bincode]
  split
  · exact congrArg some hsize
  · rfl

/-- A state of the sample, with the text of its manifest left out. -/
def outline (engine : EngineState ℚ Checksum) (u : Upload) : Persistent ℚ Checksum :=
  ⟨owner, engine, false, some { u with manifest := [] }⟩

/-- The snapshot is longer by the text of the manifest, which the kernel need not evaluate. -/
theorem encodes {engine : EngineState ℚ Checksum} {u : Upload} (hshort : u.manifest.length ≤ 65536)
    (hfits : (SnapshotLayout.persistent one).fits (outline engine u) = true)
    (hsize : (SnapshotLayout.persistent one).size (outline engine u) ≤ 65536) :
    ∃ image, encode (D := Checksum) linked.bincode ⟨owner, engine, false, some u⟩ = .ok image := by
  have hlength : (SnapshotLayout.persistent one).size ⟨owner, engine, false, some u⟩ =
      (SnapshotLayout.persistent one).size (outline engine u) + u.manifest.length := by
    simp only [outline, SnapshotLayout.persistent, SnapshotLayout.upload, Codec.size_record,
      Codec.size_pair, Codec.size_some, Codec.size_u64, Codec.size_bytes, List.length_nil]
    omega
  have hall : (SnapshotLayout.persistent one).fits ⟨owner, engine, false, some u⟩ = true := by
    have hbytes : Codec.bytes.fits u.manifest = true := decide_eq_true (by omega)
    have hempty : Codec.bytes.fits [] = true := rfl
    simp only [outline, SnapshotLayout.persistent, SnapshotLayout.upload, Codec.fits_record,
      Codec.fits_pair, Codec.fits_some, hbytes, hempty] at hfits ⊢
    exact hfits
  refine ⟨_, encode_eq_ok.mpr ⟨_, SnapshotLayout.serialize_eq_some.mpr ⟨hall, rfl⟩, ?_, rfl⟩⟩
  refine hlength.trans_le ?_
  unfold maxSnapshot
  omega

/-- What is read off the manifest. -/
structure Read (m : Manifest ℚ Checksum) : Prop where
  validate : m.validate = .ok ()
  mask : m.config.maskTokenId = special.mask
  totalBytes : m.totalBytes = 328
  vocabSize : m.config.vocabSize = 5
  tokenizer : m.tokenizerSha256 = hash vocabulary
  mapping : m.primitiveToQtype = #v[0, 1, 2]
  count : m.tensors.length = 27
  intact : ∀ e ∈ m.tensors, e.Intact (TiledExtents.cut Manifest.Sample.bytes e.extent)

theorem read : ∃ m, readManifest .bits32 id manifest = some m ∧ Read m := by
  have hread : (readManifest .bits32 id manifest : Option (Manifest ℚ Checksum)).any (fun m =>
      m.validate = .ok () ∧ m.config.maskTokenId = special.mask ∧ m.totalBytes = 328 ∧
        m.config.vocabSize = 5 ∧ m.tokenizerSha256 = hash vocabulary ∧
        m.primitiveToQtype = #v[0, 1, 2] ∧ m.tensors.length = 27 ∧ ∀ e ∈ m.tensors,
          let part := TiledExtents.cut Manifest.Sample.bytes e.extent
          hash part = e.sha256 ∧
          (e.storage = .f32 → ∀ v ∈ (WordStreams.chunksExact 4 part).map WordStreams.ofLe32,
            singleFinite v) ∧
          (e.storage = .i8Row → ∀ s ∈ (WordStreams.chunksExact 4
            (part.drop e.shape.prod)).map WordStreams.ofLe32,
              singleFinite s ∧ 0 < SingleArithmetic.order s)) = true := by
    decide +kernel
  obtain ⟨hm, hall⟩ := (Option.any_eq_true_iff_get _ _).mp hread
  obtain ⟨hvalidate, hmask, htotal, hvocab, htokenizer, hmapping, hcount, hintact⟩ :=
    of_decide_eq_true hall
  refine ⟨_, (Option.some_get hm).symm, hvalidate, hmask, htotal, hvocab, htokenizer, hmapping,
    hcount, fun e he => ?_⟩
  obtain ⟨hhash, hfinite, hscales⟩ := hintact e he
  exact ⟨hhash, hfinite, hscales⟩

theorem length_raw : raw.length ≤ 65536 := by
  rw [raw, List.length_append, length_dumps]
  decide +kernel

theorem parsed : ∃ m, Manifest.parse json raw = .ok m ∧ Read m := by
  obtain ⟨m, hread, hm⟩ := read
  have hjson : json raw = .ok m := by rw [json, if_pos rfl, hread]; rfl
  exact ⟨m, Manifest.parse_eq_ok.mpr ⟨length_raw.trans (by decide), hjson, hm.validate⟩, hm⟩

/-- The owner's calls, in a system that grants every page. -/
def msg : CallContext := ⟨owner, 0, 0, fun _ => true, 0, 0⟩

def begin : CallContext × UpdateCall ℚ Checksum :=
  (msg, .beginUpload raw (UInt64.ofNat vocabulary.length) special)

/-- The pack, and the tokenizer behind it. -/
def blob : List UInt8 := Manifest.Sample.bytes ++ vocabulary

/-- A chunk of it. -/
def piece (offset n : ℕ) : CallContext × UpdateCall ℚ Checksum :=
  (msg, .uploadChunk (UInt64.ofNat offset) ((blob.drop offset).take n))

def upload (received : ℕ) : Upload :=
  ⟨raw, UInt64.ofNat vocabulary.length, 328, UInt64.ofNat received, special⟩

/-- A canister without cells that has received so much. -/
def holding (received : ℕ) (m : Memory) : Canister ℚ Checksum :=
  ⟨⟨owner, .new Hashing.zero, false, some (upload received)⟩, m, none, none, none, none⟩

theorem begun : ∃ c₀ m, init linked msg owner = some c₀ ∧
    c₀.perform linked msg begin.2 = some (.ok (), holding 0 m) ∧
    Assembled linked (holding 0 m, []) := by
  obtain ⟨bytes₀, hencode₀⟩ : ∃ bytes, encode (D := Checksum) linked.bincode
      ⟨owner, .new Hashing.zero, false, none⟩ = .ok bytes :=
    ⟨_, encode_eq_ok.mpr ⟨_, SnapshotLayout.serialize_eq_some.mpr ⟨by decide +kernel, rfl⟩,
      by decide +kernel, rfl⟩⟩
  obtain ⟨m₀, hsave⟩ : ∃ m, save (D := Checksum) linked.bincode msg.grants
      ⟨owner, .new Hashing.zero, false, none⟩ Memory.empty = .ok m :=
    save_of_encode (fun _ => rfl) hencode₀ Memory.empty
  obtain ⟨c₀, hc₀⟩ : ∃ c₀ : Canister ℚ Checksum,
      c₀ = ⟨⟨owner, .new Hashing.zero, false, none⟩, m₀, none, none, none, none⟩ := ⟨_, rfl⟩
  have hinit : init linked msg owner = some c₀ := by
    rw [init, if_neg (by decide)]
    dsimp only
    rw [hsave, hc₀]
  obtain ⟨man, hparse, hman⟩ := parsed
  obtain ⟨bytes₁, hencode₁⟩ := @encodes (.new Hashing.zero) (upload 0) length_raw
    (by decide +kernel) (by decide +kernel)
  have howner : msg.caller = c₀.persistent.owner := by rw [hc₀]; rfl
  have hlength : UInt64.ofNat vocabulary.length ≠ 0 ∧
      (UInt64.ofNat vocabulary.length).toNat ≤ maxTokenizer := by decide +kernel
  obtain ⟨m, hbegin⟩ := beginUpload_answers (l := linked) howner hparse hman.mask hlength
    (fun _ => rfl) (by rw [hc₀, hman.totalBytes]; exact hencode₁)
  have hperform : c₀.perform linked msg begin.2 = some (.ok (), holding 0 m) := by
    rw [begin, perform, hbegin, hc₀, hman.totalBytes]
    rfl
  obtain ⟨hstep, hsaved⟩ := perform_upload inverts (assembled_init hinit).uploading hperform
  exact ⟨c₀, m, hinit, hperform, (assembled_init hinit).step hsaved hstep⟩

/-- The bytes of a call. -/
theorem length_piece {offset n : ℕ} (h : offset + n ≤ blob.length) :
    ((blob.drop offset).take n).length = n := by
  rw [List.length_take, List.length_drop]
  omega

theorem lengths : blob.length = 457 ∧ vocabulary.length = 129 := by decide +kernel

/-- The next chunk of the blob. -/
theorem receives {offset n : ℕ} {m : Memory} {chunks : List (List UInt8)}
    (h : Assembled linked (holding offset m, chunks)) (hn : 1 ≤ n) (hle : offset + n ≤ blob.length) :
    ∃ m', Assembled linked (holding (offset + n) m', chunks ++ [(blob.drop offset).take n]) ∧
      (holding offset m).perform linked msg (piece offset n).2 =
        some (.ok (), holding (offset + n) m') ∧
      observe linked (holding offset m, chunks) (piece offset n) =
        (holding (offset + n) m', chunks ++ [(blob.drop offset).take n]) := by
  have hlength := length_piece hle
  have hblob := lengths.1
  have hoffset : (UInt64.ofNat offset).toNat = offset :=
    UInt64.toNat_ofNat_of_lt' (by show _ < 2 ^ 64; omega)
  have hsizes : (upload offset).modelLength.toNat + (upload offset).tokenizerLength.toNat =
      blob.length := by
    show (328 : UInt64).toNat + (UInt64.ofNat vocabulary.length).toNat = blob.length
    rw [lengths.1, lengths.2]
    rfl
  have ha : Accepts (upload offset) (UInt64.ofNat offset) ((blob.drop offset).take n) := by
    refine ⟨⟨hlength.symm ▸ hn, ?_⟩, rfl, ?_⟩
    · rw [hlength]
      unfold maxChunk
      omega
    · rw [hoffset, hlength, hsizes]
      exact hle
  have howner : msg.caller = (holding offset m).persistent.owner := rfl
  obtain ⟨m', hall, hperform, hrecord⟩ :=
    perform_accepted inverts fixedWidth h howner (fun _ => rfl) rfl ha
  rw [hoffset, hlength] at hall hperform
  refine ⟨m', hall, hperform, ?_⟩
  rw [observe_eq hperform]
  exact congrArg (Prod.mk _) hrecord

/-- The first chunk has come. -/
theorem first_received : ∃ c₀ m, init linked msg owner = some c₀ ∧
    run (observe linked) (c₀, []) [begin, piece 0 200] = (holding 200 m, [blob.take 200]) ∧
    Assembled linked (holding 200 m, [blob.take 200]) := by
  obtain ⟨c₀, m₀, hinit, hbegin, h₀⟩ := begun
  obtain ⟨m₁, h₁, -, hfirst⟩ := receives (n := 200) h₀ (by omega) (by rw [lengths.1]; omega)
  refine ⟨c₀, m₁, hinit, ?_, h₁⟩
  rw [run_cons, observe_eq hbegin, run_cons, run_nil]
  exact hfirst

/-- A chunk inside what was received, with the bytes that lie there, is refused when it is
empty. -/
theorem empty_chunk_refused : ∃ c₀ c u, init linked msg owner = some c₀ ∧
    run (observe linked) (c₀, []) [begin, piece 0 200] = (c, [blob.take 200]) ∧
    c.persistent.upload = some u ∧ msg.caller = c.persistent.owner ∧ (0 : UInt64) < u.received ∧
    0 + ([] : List UInt8).length ≤ u.received.toNat ∧
    c.memory.bytesAt (blobBase + 0) ([] : List UInt8).length = [] ∧
    c.uploadChunk linked msg 0 [] = some (.error .tooLong, c) := by
  obtain ⟨c₀, m, hinit, hrun, -⟩ := first_received
  exact ⟨c₀, holding 200 m, upload 200, hinit, hrun, rfl, rfl, by decide, by decide, rfl, rfl⟩

/-- The second chunk comes twice, and then a part of both. -/
def uploading : List (CallContext × UpdateCall ℚ Checksum) :=
  [begin, piece 0 200, piece 200 257, piece 200 257, piece 100 150]

theorem uploaded : ∃ c₀ m, init linked msg owner = some c₀ ∧
    run (observe linked) (c₀, []) uploading =
      (holding 457 m, [blob.take 200, (blob.drop 200).take 257]) ∧
    Assembled linked (holding 457 m, [blob.take 200, (blob.drop 200).take 257]) := by
  obtain ⟨c₀, m₁, hinit, hrun, h₁⟩ := first_received
  obtain ⟨m₂, h₂, hsecond⟩ : ∃ m,
      Assembled linked (holding 457 m, [blob.take 200, (blob.drop 200).take 257]) ∧
      observe linked (holding 200 m₁, [blob.take 200]) (piece 200 257) =
        (holding 457 m, [blob.take 200, (blob.drop 200).take 257]) := by
    obtain ⟨m, h, -, hobserve⟩ := receives (n := 257) h₁ (by omega) (by rw [lengths.1])
    exact ⟨m, h, hobserve⟩
  have hblob : [blob.take 200, (blob.drop 200).take 257].flatten = blob := by decide +kernel
  have hagain : ∀ {m : Memory} (offset n : ℕ), 1 ≤ n → offset + n ≤ 457 →
      Assembled linked (holding 457 m, [blob.take 200, (blob.drop 200).take 257]) →
      ∃ m', Assembled linked (holding 457 m', [blob.take 200, (blob.drop 200).take 257]) ∧
        observe linked (holding 457 m, [blob.take 200, (blob.drop 200).take 257]) (piece offset n) =
          (holding 457 m', [blob.take 200, (blob.drop 200).take 257]) := by
    intro m offset n hn hle h
    have hinside : offset + n ≤ [blob.take 200, (blob.drop 200).take 257].flatten.length := by
      rw [hblob, lengths.1]
      exact hle
    have hr := h.repeats rfl ⟨hn, by unfold maxChunk; omega⟩ hinside
    rw [hblob] at hr
    have howner : msg.caller = (holding 457 m).persistent.owner := rfl
    obtain ⟨m', hall, hperform, hrecord⟩ := perform_repeated inverts fixedWidth h howner rfl hr
    refine ⟨m', hall, ?_⟩
    rw [observe_eq (x := piece offset n) hperform]
    exact congrArg (Prod.mk _) hrecord
  obtain ⟨m₃, h₃, hthird⟩ := hagain 200 257 (by omega) (by omega) h₂
  obtain ⟨m₄, h₄, hfourth⟩ := hagain 100 150 (by omega) (by omega) h₃
  refine ⟨c₀, m₄, hinit, ?_, h₄⟩
  have hsplit : uploading = [begin, piece 0 200] ++ [piece 200 257, piece 200 257, piece 100 150] :=
    rfl
  rw [hsplit, run_append, hrun, run_cons, run_cons, run_cons, run_nil, hsecond, hthird, hfourth]

/-- The run of the sample leaves the pack and the tokenizer. -/
theorem uploading_assembles : ∃ c₀ c, init linked msg owner = some c₀ ∧
    run (observe linked) (c₀, []) uploading = (c, [blob.take 200, (blob.drop 200).take 257]) ∧
    c.memory.bytesAt blobBase 457 = blob := by
  obtain ⟨c₀, m, hinit, hrun, -⟩ := uploaded
  have hblob : [blob.take 200, (blob.drop 200).take 257].flatten = blob := by decide +kernel
  have hreceived : (upload 457).received.toNat = 457 := UInt64.toNat_ofNat_of_lt' (by decide)
  obtain ⟨⟨-, -, hbytes⟩, -⟩ := upload_assembles inverts fixedWidth hinit hrun rfl
  rw [hblob, hreceived] at hbytes
  exact ⟨c₀, _, hinit, hrun, hbytes⟩

end Sample

end Canister
end IcLaya
