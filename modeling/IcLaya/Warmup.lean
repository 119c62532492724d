import IcLaya.ResumableUpload

/-!
# Warm-up

A pack that is intact can always be brought in. When the owner has uploaded it with its tokenizer,
`start_warmup` reads the tokenizer behind the pack, each `warmup_next` pushes one tensor, and the
last one makes the model and the bundle active.
-/
namespace IcLaya
open Fallible PanickingCode PagedMemory CanisterCommon Storage TiledExtents

namespace Canister
variable {F Digest : Type} [Doubles F] [ByteDigest Digest] {α : Type} {l : Linked F Digest}
  {msg : CallContext} {c c' : Canister F Digest}

/-- The canister after calls that all succeed. -/
def performAll (l : Linked F Digest) :
    Canister F Digest → List (CallContext × UpdateCall F Digest) → Option (Canister F Digest)
  | c, [] => some c
  | c, x :: xs =>
    match c.perform l x.1 x.2 with
    | some (.ok _, c') => performAll l c' xs
    | _ => none

theorem performAll_cons {x : CallContext × UpdateCall F Digest}
    {xs : List (CallContext × UpdateCall F Digest)} (h : c.perform l x.1 x.2 = some (.ok (), c')) :
    performAll l c (x :: xs) = performAll l c' xs := by
  rw [performAll, h]

theorem performAll_append (xs ys : List (CallContext × UpdateCall F Digest)) :
    performAll l c (xs ++ ys) = (performAll l c xs).bind (performAll l · ys) := by
  induction xs generalizing c with
  | nil => rfl
  | cons x xs ih =>
    rw [List.cons_append, performAll, performAll]
    split
    · exact ih
    · rfl

/-- A pack and its tokenizer, one behind the other in stable memory, as the manifest lists them. -/
structure Stocked (l : Linked F Digest) (c : Canister F Digest) (u : Upload)
    (man : Manifest F Digest) (pack tokenizer : List UInt8) : Prop where
  upload : c.persistent.upload = some u
  parsed : Manifest.parse l.json u.manifest = .ok man
  modelLength : u.modelLength = man.totalBytes
  packLength : pack.length = man.totalBytes.toNat
  tokenizerLength : tokenizer.length = u.tokenizerLength.toNat
  small : tokenizer.length ≤ maxTokenizer
  received : u.received.toNat = pack.length + tokenizer.length
  stored : c.memory.bytesAt blobBase (pack.length + tokenizer.length) = pack ++ tokenizer
  grown : blobBase + (pack.length + tokenizer.length) ≤ c.memory.size
  intact : ∀ e ∈ man.tensors, e.Intact (cut pack e.extent)
  tokenizer : hash tokenizer = man.tokenizerSha256

/-- An upload that has received everything is a stock. -/
theorem Assembled.stocked {chunks : List (List UInt8)} (h : Assembled l (c, chunks)) {u : Upload}
    {man : Manifest F Digest} {pack tokenizer : List UInt8} (hu : c.persistent.upload = some u)
    (hparse : Manifest.parse l.json u.manifest = .ok man)
    (hlength : u.modelLength = man.totalBytes ∧ pack.length = man.totalBytes.toNat ∧
      tokenizer.length = u.tokenizerLength.toNat ∧ 0 < tokenizer.length)
    (hchunks : chunks.flatten = pack ++ tokenizer)
    (hintact : ∀ e ∈ man.tensors, e.Intact (cut pack e.extent))
    (htokenizer : hash tokenizer = man.tokenizerSha256) : Stocked l c u man pack tokenizer := by
  obtain ⟨hmodel, hpack, htoken, hpos⟩ := hlength
  have hreceived : u.received.toNat = pack.length + tokenizer.length := by
    rw [h.count u hu, hchunks, List.length_append]
  have hne : u.received ≠ 0 := by
    rintro h0
    rw [h0] at hreceived
    have hzero : (0 : UInt64).toNat = 0 := rfl
    omega
  refine ⟨hu, hparse, hmodel, hpack, htoken, htoken ▸ (h.uploading.sizes u hu).2.1, hreceived, ?_,
    hreceived ▸ h.uploading.grown u hu hne, hintact, htokenizer⟩
  have hbytes := h.bytes (hu ▸ Option.some_ne_none u)
  rw [hchunks, List.length_append] at hbytes
  exact hbytes

namespace Stocked
variable {u : Upload} {man : Manifest F Digest} {pack tokenizer : List UInt8}

/-- What lies in the blob is read. -/
theorem readBlob (h : Stocked l c u man pack tokenizer) {offset n : ℕ}
    (hle : offset + n ≤ pack.length + tokenizer.length) :
    CanisterCommon.readBlob offset n c.memory = .ok (((pack ++ tokenizer).drop offset).take n) := by
  have htotal := Manifest.totalBytes_of_parse h.parsed
  have hpack := h.packLength
  have hsmall := h.small
  have hgrown := h.grown
  unfold maxTotal at htotal
  unfold maxTokenizer at hsmall
  rw [readBlob_eq_ok (by unfold InRange blobBase; omega) (by omega), Memory.bytesAt_of_prefix hle,
    h.stored]

/-- The bytes of a tensor. -/
theorem readEntry (h : Stocked l c u man pack tokenizer) {e : TensorEntry Digest}
    (he : e ∈ man.tensors) :
    CanisterCommon.readBlob e.offset.toNat e.length.toNat c.memory = .ok (cut pack e.extent) := by
  obtain ⟨-, -, -, -, -, htiles⟩ := Manifest.validate_eq_ok (Manifest.parse_eq_ok.mp h.parsed).2.2
  have hwithin := (htiles.within e.extent (List.mem_map.mpr ⟨e, he, rfl⟩)).2
  have hpack := h.packLength
  simp only [TensorEntry.extent] at hwithin
  rw [h.readBlob (by omega), List.drop_append_of_le_length (by omega),
    List.take_append_of_le_length (by rw [List.length_drop]; omega)]
  rfl

/-- The tokenizer is loaded, and the builder starts with the first tensor. -/
theorem startWarmup (h : Stocked l c u man pack tokenizer) (ho : msg.caller = c.persistent.owner)
    {t : TextTokenizer Digest} (ht : HfTokenizer.fromBytes l.tokenizers tokenizer u.special = .ok t) :
    c.perform l msg .startWarmup = some (.ok (), { c with
      inference := none
      model := none
      tokenizer := some t
      builder := some ⟨man, hash u.manifest, 0, ∅⟩ }) := by
  have howner : c.checkOwner msg = .ok () := if_neg (not_not.mpr ho)
  have htotal : (add .bits64 u.modelLength.toNat u.tokenizerLength.toNat : Code Error ℕ) =
      .ok (u.modelLength.toNat + u.tokenizerLength.toNat) := by
    refine add_lengths ?_ (h.tokenizerLength ▸ h.small)
    rw [h.modelLength]
    exact Manifest.totalBytes_of_parse h.parsed
  have hreceived : u.received.toNat = u.modelLength.toNat + u.tokenizerLength.toNat := by
    rw [h.received, h.packLength, h.tokenizerLength, h.modelLength]
  have hbuilder : Builder.new l.json u.manifest = .ok ⟨man, hash u.manifest, 0, ∅⟩ := by
    rw [Builder.new, h.parsed]
    rfl
  have hbytes : CanisterCommon.readBlob u.modelLength.toNat u.tokenizerLength.toNat c.memory =
      .ok tokenizer := by
    rw [h.readBlob (by rw [h.packLength, h.modelLength, ← h.tokenizerLength]), h.modelLength,
      ← h.packLength, List.drop_left, ← h.tokenizerLength, List.take_length]
  have hstart : c.startWarmup l msg = some (.ok (UInt64.ofNat man.tensors.length), { c with
      inference := none
      model := none
      tokenizer := some t
      builder := some ⟨man, hash u.manifest, 0, ∅⟩ }) := by
    rw [Canister.startWarmup, howner, call_ok, ok_bind, h.upload]
    simp only [okOr, ok_bind, htotal, reject_pass (not_not.mpr hreceived), hbuilder, hbytes,
      reject_pass (not_not.mpr h.tokenizer), ht, call_ok]
    rfl
  rw [perform, hstart]
  rfl

end Stocked

section Tensors
variable {u : Upload} {man : Manifest F Digest} {pack tokenizer : List UInt8}
  {b b' : Builder F Digest} {done rest : List (TensorEntry Digest)} {image : List UInt8}

/-- The next tensor is pushed. -/
theorem Stocked.pushNext (h : Stocked l c u man pack tokenizer) (hb : c.builder = some b)
    (hman : b.manifest = man) {e : TensorEntry Digest} (htensors : man.tensors = done ++ e :: rest)
    (hnext : b.next = done.length) (hpush : b.push l.target (cut pack e.extent) = .ok b') :
    c.pushNext l = .ok b' ∧ b'.manifest = man ∧ b'.next = (done ++ [e]).length ∧
      b'.bundle = b.bundle ∧ b'.nextEntry = rest.head? := by
  obtain ⟨_, w, -, -, -, -, hb'⟩ := Builder.push_eq_ok hpush
  have hman' : b'.manifest = man := by rw [hb']; exact hman
  have hnext' : b'.next = (done ++ [e]).length := by rw [hb', List.length_append, ← hnext]; rfl
  have he : b.nextEntry = some e := by
    rw [Builder.nextEntry, hman, htensors, hnext, List.getElem?_append_right (Nat.le_refl _),
      Nat.sub_self]
    rfl
  have hmem : e ∈ man.tensors := by
    rw [htensors]
    exact List.mem_append_right _ List.mem_cons_self
  refine ⟨?_, hman', hnext', by rw [hb'], ?_⟩
  · rw [Canister.pushNext, hb]
    simp only [okOr, ok_bind, he, h.readEntry hmem, hpush, call_ok]
  · rw [Builder.nextEntry, hman', htensors, hnext', List.append_cons,
      List.getElem?_append_right (Nat.le_refl _), Nat.sub_self, List.head?_eq_getElem?]

/-- A call that leaves tensors to push keeps the builder. -/
theorem perform_warmupNext_more (ho : msg.caller = c.persistent.owner) (hpush : c.pushNext l = .ok b)
    (hmore : b.nextEntry ≠ none) :
    c.perform l msg .warmupNext = some (.ok (), { c with builder := some b }) := by
  have howner : c.checkOwner msg = .ok () := if_neg (not_not.mpr ho)
  rw [perform, warmupNext, howner, call_ok, ok_bind, hpush]
  dsimp only [attempt]
  rw [if_neg (mt Option.isNone_iff_eq_none.mp hmore)]
  rfl

/-- The call that pushes the last tensor makes the model. -/
theorem perform_warmupNext_last (ho : msg.caller = c.persistent.owner)
    (hg : ∀ n, msg.grants n = true) (hpush : c.pushNext l = .ok b) (hlast : b.nextEntry = none)
    {model : LayaModel F Digest} (hfinish : b.finish l.f32 l.q8 = .ok model)
    (hencode : encode (D := Digest) l.bincode { c.persistent with
      engine := { c.persistent.engine with activeModel := b.bundle } } = .ok image) :
    ∃ m, c.perform l msg .warmupNext = some (.ok (), { c with
      persistent := { c.persistent with
        engine := { c.persistent.engine with activeModel := b.bundle } }
      memory := m
      builder := none
      model := some model }) := by
  have howner : c.checkOwner msg = .ok () := if_neg (not_not.mpr ho)
  obtain ⟨m, hsave⟩ := save_of_encode hg hencode c.memory
  refine ⟨m, ?_⟩
  rw [perform, warmupNext, howner, call_ok, ok_bind, hpush]
  dsimp only [attempt]
  rw [if_pos (Option.isNone_iff_eq_none.mpr hlast), hfinish, call_ok]
  dsimp only [attempt]
  rw [mutate_eq_commit (r := .ok true) rfl, commit_eq_some.mpr ⟨rfl, m, hsave, rfl⟩]
  rfl

/-- The tensors that are left are pushed, one by each call; the last call makes the model. -/
theorem warmupNext_run (h : Stocked l c u man pack tokenizer) (ho : msg.caller = c.persistent.owner)
    (hg : ∀ n, msg.grants n = true) (hne : rest ≠ []) (hb : c.builder = some b)
    (hman : b.manifest = man) (htensors : man.tensors = done ++ rest) (hnext : b.next = done.length)
    (hpush : ((rest.map fun e => cut pack e.extent).forM (Builder.pushInPlace l.target)).run b =
      (.ok (), b'))
    {model : LayaModel F Digest} (hfinish : b'.finish l.f32 l.q8 = .ok model)
    (hencode : encode (D := Digest) l.bincode { c.persistent with
      engine := { c.persistent.engine with activeModel := b.bundle } } = .ok image) :
    ∃ m, performAll l c (List.replicate rest.length (msg, .warmupNext)) = some { c with
      persistent := { c.persistent with
        engine := { c.persistent.engine with activeModel := b.bundle } }
      memory := m
      builder := none
      model := some model } := by
  induction rest generalizing c done b with
  | nil => exact absurd rfl hne
  | cons e rest ih =>
    obtain ⟨b₁, hfirst, hpushes⟩ := Builder.forM_pushInPlace_cons.mp hpush
    obtain ⟨hpushed, hman₁, hnext₁, hbundle₁, hentry₁⟩ := h.pushNext hb hman htensors hnext hfirst
    rw [← hbundle₁] at hencode
    cases rest with
    | nil =>
      cases hpushes
      obtain ⟨m, hlast⟩ := perform_warmupNext_last ho hg hpushed hentry₁ hfinish hencode
      rw [hbundle₁] at hlast
      exact ⟨m, performAll_cons hlast⟩
    | cons e' rest =>
      have hmore := perform_warmupNext_more ho hpushed (by rw [hentry₁]; exact Option.some_ne_none e')
      have hstocked : Stocked l { c with builder := some b₁ } u man pack tokenizer := { h with }
      obtain ⟨m, hrest⟩ := ih hstocked ho (List.cons_ne_nil _ _) rfl hman₁
        (htensors.trans (List.append_cons ..)) hnext₁ hpushes hencode
      rw [hbundle₁] at hrest
      exact ⟨m, (performAll_cons hmore).trans hrest⟩

/-- A warm-up of so many tensors. -/
def warmup (msg : CallContext) (n : ℕ) : List (CallContext × UpdateCall F Digest) :=
  (msg, .startWarmup) :: List.replicate n (msg, .warmupNext)

/-- The warm-up of an intact pack leaves its model and its tokenizer, and no builder. -/
theorem warmup_completes (h : Stocked l c u man pack tokenizer) (ho : msg.caller = c.persistent.owner)
    (hg : ∀ n, msg.grants n = true) {t : TextTokenizer Digest}
    (ht : HfTokenizer.fromBytes l.tokenizers tokenizer u.special = .ok t)
    (hencode : encode (D := Digest) l.bincode { c.persistent with
      engine := { c.persistent.engine with activeModel := hash u.manifest } } = .ok image) :
    ∃ (b : Builder F Digest) (model : LayaModel F Digest) (m : Memory),
      b.manifest = man ∧ b.bundle = hash u.manifest ∧
      b.finish l.f32 l.q8 = .ok model ∧
      performAll l c (warmup msg man.tensors.length) = some {
        persistent := { c.persistent with
          engine := { c.persistent.engine with activeModel := hash u.manifest } }
        memory := m
        tokenizer := some t
        builder := none
        model := some model
        inference := none } := by
  have hv : man.validate = .ok () := (Manifest.parse_eq_ok.mp h.parsed).2.2
  have hne : man.tensors ≠ [] := by
    intro hnil
    have hperm := Manifest.perm_table hv
    rw [hnil, List.map_nil] at hperm
    exact absurd hperm.nil_eq (by simp [tensorTable, embeddingEntries])
  obtain ⟨b, model, hpush, hfinish⟩ := Manifest.loads_of_intact hv l.target l.f32 l.q8
    (hash u.manifest) h.packLength h.intact
  obtain ⟨hmanifest, hbundle⟩ := Builder.forM_pushInPlace_frame hpush
  have hstocked : Stocked l { c with
      inference := none
      model := none
      tokenizer := some t
      builder := some ⟨man, hash u.manifest, 0, ∅⟩ } u man pack tokenizer := { h with }
  obtain ⟨m, hrun⟩ := warmupNext_run hstocked ho hg hne rfl rfl (List.nil_append _).symm rfl hpush
    hfinish hencode
  exact ⟨b, model, m, hmanifest, hbundle, hfinish,
    (performAll_cons (h.startWarmup ho ht)).trans hrun⟩

end Tensors

section Owner
variable {engine : EngineState F Digest} {image : List UInt8}

/-- An owner's change of the engine that passes its checks is kept, where memory grows. -/
theorem commit_engine (hg : ∀ n, msg.grants n = true)
    (hencode : encode (D := Digest) l.bincode { c.persistent with engine := engine } = .ok image)
    (r : Result α) : ∃ m, c.commit l msg r { c.persistent with engine := engine } c.memory =
      some (r, { c with persistent := { c.persistent with engine := engine }, memory := m }) := by
  obtain ⟨m, hsave⟩ := save_of_encode hg hencode c.memory
  exact ⟨m, commit_eq_some.mpr ⟨rfl, m, hsave, rfl⟩⟩

theorem perform_allowCaller (ho : msg.caller = c.persistent.owner) (hg : ∀ n, msg.grants n = true)
    {caller : Principal} {n : UInt32} (h : c.persistent.engine.allowCaller caller n = .ok engine)
    (hencode : encode (D := Digest) l.bincode { c.persistent with engine := engine } = .ok image) :
    ∃ m, c.perform l msg (.allowCaller caller n) = some (.ok (),
      { c with persistent := { c.persistent with engine := engine }, memory := m }) := by
  have howner : c.checkOwner msg = .ok () := if_neg (not_not.mpr ho)
  obtain ⟨m, hcommit⟩ := commit_engine (c := c) hg hencode (.ok ())
  refine ⟨m, ?_⟩
  rw [perform, allowCaller, howner, call_ok]
  dsimp only [attempt]
  refine (mutate_eq_commit ?_).trans hcommit
  rw [h]
  rfl

theorem perform_registerSchema (ho : msg.caller = c.persistent.owner)
    (hg : ∀ n, msg.grants n = true) (hp : c.persistent.fixtureMode = false) {u : Upload}
    (hu : c.persistent.upload = some u) {man : Manifest F Digest}
    (hparse : Manifest.parse l.json u.manifest = .ok man) {schema : Schema} {qtypeId : UInt32}
    (hmapped : man.primitiveToQtype[schema.primitive.tag.toNat]? = some qtypeId)
    {t : TextTokenizer Digest} (ht : c.tokenizer = some t) {compiled : CompiledSchema Digest}
    (hcompile : compile schema t qtypeId = .ok compiled)
    (h : c.persistent.engine.register compiled = .ok engine)
    (hencode : encode (D := Digest) l.bincode { c.persistent with engine := engine } = .ok image) :
    ∃ m, c.perform l msg (.registerSchema schema qtypeId) = some (.ok (),
      { c with persistent := { c.persistent with engine := engine }, memory := m }) := by
  have howner : c.checkOwner msg = .ok () := if_neg (not_not.mpr ho)
  obtain ⟨m, hcommit⟩ := commit_engine (c := c) hg hencode (.ok compiled)
  have hcompiled : c.registerSchema l msg schema qtypeId = some (.ok compiled,
      { c with persistent := { c.persistent with engine := engine }, memory := m }) := by
    have hcell : ∀ e : Fault Error, okOr c.tokenizer e = .ok t := fun _ => by rw [ht]; rfl
    have hupload : ∀ e : Fault Error, okOr c.persistent.upload e = .ok u := fun _ => by rw [hu]; rfl
    have hqtype : (unwrap man.primitiveToQtype[schema.primitive.tag.toNat]? : Code Error UInt32) =
        .ok qtypeId := by
      rw [hmapped]
      rfl
    rw [registerSchema, howner, call_ok, ok_bind, if_neg (Bool.eq_false_iff.mp hp)]
    simp only [hupload, hcell, hqtype, ok_bind, hparse, reject_pass (not_not.mpr rfl), hcompile,
      call_ok]
    dsimp only [attempt]
    refine (mutate_eq_commit ?_).trans hcommit
    rw [h]
    rfl
  refine ⟨m, ?_⟩
  rw [perform, hcompiled]
  rfl

theorem perform_startTokenInference
    (ho : msg.caller = c.persistent.owner) {model : LayaModel F Digest} (hm : c.model = some model)
    {input : TokenInput} {id : Digest} {j : TokenJob Digest} (h : TokenJob.create model input id
      (CheckedWords.saturatingSub64 msg.stop msg.start) = .ok j) :
    c.perform l msg (.startTokenInference input id) =
      some (.ok (), { c with inference := some j }) := by
  have howner : c.checkOwner msg = .ok () := if_neg (not_not.mpr ho)
  rw [perform, startTokenInference, howner, ok_bind, hm]
  simp only [okOr, ok_bind, h, call_ok]
  rfl

end Owner

end Canister
end IcLaya
