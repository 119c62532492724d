import IcLaya.UniqueReading
import IcLaya.Workflow

/-!
# The canonical pre-images

Everything the code hashes behind a domain of its own: the bytes determine the domain and
every field written behind it. A frozen transfer and a snapshot write the digest of their
proposal, so over the bytes the proposal shows as a digest, and over a collision-free hash
as itself.
-/
namespace IcLaya
open ByteFrames UniqueReading

variable {Digest : Type} [Hashing Digest]

/-- The byte size of a `String` is a `usize`. -/
def Fits (s : String) : Prop := s.utf8ByteSize < 2 ^ 64

theorem readsBack_text : ReadsBack (fun s => frame (asBytes s)) Fits :=
  fun _ _ ha hb _ _ h => text_append_inj ha hb h

theorem readsBack_digest :
    ReadsBack (fun d : Digest => beBytes 8 32 ++ Hashing.toBytes d) (fun _ => True) :=
  fun _ _ _ _ _ _ h => digest_append_inj h

/-- What a loop over a list writes. -/
theorem Canonical.foldl_written {α : Type} {write : Canonical → α → Canonical}
    {image : α → List UInt8} (hwrite : ∀ h a, (write h a).written = h.written ++ image a)
    (h : Canonical) (l : List α) :
    (l.foldl write h).written = h.written ++ l.flatMap image := by
  induction l generalizing h with
  | nil => simp
  | cons a l ih => rw [List.foldl_cons, ih, hwrite, List.flatMap_cons, List.append_assoc]

/-! The schema. Its options are counted. -/

namespace Schema

/-- The strings and the option list are as long as those of the code can be. -/
structure Sized (s : Schema) : Prop where
  id : Fits s.id
  instructions : Fits s.instructions
  options : s.options.length < 2 ^ 64
  texts : ∀ o ∈ s.options, Fits o.id ∧ Fits o.text

/-- What `digest` hashes. -/
def canonical (s : Schema) (tokenizer : Digest) : Canonical :=
  let h := (((((Canonical.new "ic-laya/schema/v1").text s.id).u64 s.version).u64
    s.primitive.tag).text s.instructions).u64 (UInt64.ofNat s.options.length)
  let h := s.options.foldl (fun h o => (h.text o.id).text o.text) h
  (h.digest tokenizer).text profile

theorem tag_inj {p q : Primitive} (h : p.tag = q.tag) : p = q := by
  revert h
  cases p <;> cases q <;> decide

theorem readsBack_option :
    ReadsBack (fun o : OptionDef => frame (asBytes o.id) ++ frame (asBytes o.text))
      (fun o => Fits o.id ∧ Fits o.text) := by
  refine (readsBack_text.pair readsBack_text).comap (u := fun o : OptionDef => (o.id, o.text)) ?_
  intro a b h
  cases a
  cases b
  simpa using h

theorem canonical_written (s : Schema) (tokenizer : Digest) :
    (s.canonical tokenizer).written = frame (asBytes "ic-laya/schema/v1") ++ (frame (asBytes s.id) ++
      (beBytes 8 s.version.toNat ++ (beBytes 8 s.primitive.tag.toNat ++
        (frame (asBytes s.instructions) ++ (beBytes 8 (UInt64.ofNat s.options.length).toNat ++
          (s.options.flatMap (fun o => frame (asBytes o.id) ++ frame (asBytes o.text)) ++
            (beBytes 8 32 ++ Hashing.toBytes tokenizer ++ frame (asBytes profile)))))))) := by
  have hwrite : ∀ (h : Canonical) (o : OptionDef), ((h.text o.id).text o.text).written =
      h.written ++ (frame (asBytes o.id) ++ frame (asBytes o.text)) := by
    intro h o
    simp [Canonical.text, Canonical.bytes]
  show Canonical.written (List.foldl _ _ s.options) ++ (beBytes 8 32 ++ Hashing.toBytes tokenizer) ++
    frame (asBytes profile) = _
  rw [Canonical.foldl_written hwrite]
  simp [Canonical.text, Canonical.bytes, Canonical.u64, Canonical.new]

/-- The pre-image of a schema determines the schema and the tokenizer. -/
theorem canonical_inj {s s' : Schema} {t t' : Digest} (hs : s.Sized) (hs' : s'.Sized)
    (h : (s.canonical t).written = (s'.canonical t').written) : s = s' ∧ t = t' := by
  rw [canonical_written, canonical_written, List.append_cancel_left_eq] at h
  obtain ⟨hid, h⟩ := text_append_inj hs.id hs'.id h
  obtain ⟨hversion, h⟩ := u64_append_inj h
  obtain ⟨htag, h⟩ := u64_append_inj h
  obtain ⟨hinstructions, h⟩ := text_append_inj hs.instructions hs'.instructions h
  obtain ⟨hcount, h⟩ := u64_append_inj h
  have hlen : s.options.length = s'.options.length := by
    have hn := congrArg UInt64.toNat hcount
    rwa [UInt64.toNat_ofNat_of_lt' hs.options, UInt64.toNat_ofNat_of_lt' hs'.options] at hn
  obtain ⟨hoptions, h⟩ := readsBack_option.counted hs.texts hs'.texts hlen h
  obtain ⟨ht, -⟩ := digest_append_inj h
  have hprimitive := tag_inj htag
  obtain ⟨i, v, p, n, o⟩ := s
  obtain ⟨i', v', p', n', o'⟩ := s'
  simp only at hid hversion hprimitive hinstructions hoptions
  exact ⟨by simp [*], ht⟩

end Schema

/-- The pre-image of a frozen transfer determines the digest of its proposal, the memo and
the time. -/
theorem FrozenTransfer.canonical_inj {f f' : FrozenTransfer Digest}
    (h : f.canonical.written = f'.canonical.written) :
    (f.proposal.digest : Digest) = f'.proposal.digest ∧ f.memo = f'.memo ∧
      f.createdAtTimeNs = f'.createdAtTimeNs := by
  have h := congrArg (· ++ ([] : List UInt8)) h
  simp only [canonical, Canonical.digest, Canonical.u64, List.append_assoc,
    List.append_cancel_left_eq] at h
  obtain ⟨hproposal, h⟩ := Hashing.toBytes_append_inj h
  rw [List.append_cancel_left_eq] at h
  obtain ⟨hmemo, h⟩ := Hashing.toBytes_append_inj h
  exact ⟨hproposal, hmemo, (u64_append_inj h).1⟩

/-- The pre-image of a request id determines the instance, the caller and the nonce. -/
theorem ExecutorState.requestCanonical_inj {self self' caller caller' : Principal}
    {nonce nonce' : UInt64}
    (h : (requestCanonical self caller nonce).written =
      (requestCanonical self' caller' nonce').written) :
    self = self' ∧ caller = caller' ∧ nonce = nonce' := by
  have h := congrArg (· ++ ([] : List UInt8)) h
  simp only [requestCanonical, Canonical.bytes, Canonical.u64, List.append_assoc,
    List.append_cancel_left_eq] at h
  obtain ⟨hself, h⟩ := principal_append_inj h
  obtain ⟨hcaller, h⟩ := principal_append_inj h
  exact ⟨hself, hcaller, (u64_append_inj h).1⟩

/-- The pre-image of an evaluation id determines the request, the slot and the snapshot. -/
theorem ExecutorState.slotCanonical_inj {id id' snapshot snapshot' : Digest} {slot slot' : UInt64}
    (h : (slotCanonical id slot.toNat snapshot).written =
      (slotCanonical id' slot'.toNat snapshot').written) :
    id = id' ∧ slot = slot' ∧ snapshot = snapshot' := by
  have h := congrArg (· ++ ([] : List UInt8)) h
  simp only [slotCanonical, Canonical.digest, Canonical.u64, UInt64.ofNat_toNat, List.append_assoc,
    List.append_cancel_left_eq] at h
  obtain ⟨hid, h⟩ := Hashing.toBytes_append_inj h
  obtain ⟨hslot, h⟩ := u64_append_inj h
  rw [List.append_cancel_left_eq] at h
  exact ⟨hid, hslot, (Hashing.toBytes_append_inj h).1⟩

/-! What a snapshot shows of the operation, the grant and the plan. -/

/-- The written fields of a snapshot, the proposal as a `Proposal`. -/
structure SnapshotFields (Proposal Digest : Type) where
  operation : Digest
  operationRevision : UInt64
  evidence : String
  proposal : Proposal
  grant : Digest
  grantRevision : UInt64
  plan : Digest
  planVersion : UInt64
  model : Digest
  signals : List (Digest × Digest)

/-- The fields a snapshot writes, `shown` telling how it shows the proposal. -/
def snapshotFields {Proposal : Type} (shown : TransferProposal → Proposal) (o : Operation Digest)
    (g : Grant Digest) (p : Plan Digest) : SnapshotFields Proposal Digest :=
  ⟨o.id, o.revision, o.evidence, shown o.proposal, g.id, g.revision, p.id, p.version, p.model,
    p.signals.map fun s => (s.schema.schemaHash, s.calibration)⟩

theorem readsBack_signal : ReadsBack (fun s : Digest × Digest =>
    (beBytes 8 32 ++ Hashing.toBytes s.1) ++ (beBytes 8 32 ++ Hashing.toBytes s.2))
    (fun _ => True ∧ True) :=
  readsBack_digest.pair readsBack_digest

theorem snapshotCanonical_written (o : Operation Digest) (g : Grant Digest) (p : Plan Digest) :
    (snapshotCanonical o g p).written = frame (asBytes "ic-laya/snapshot/v1") ++
      (beBytes 8 32 ++ Hashing.toBytes o.id ++ (beBytes 8 o.revision.toNat ++
        (frame (asBytes o.evidence) ++
          (beBytes 8 32 ++ Hashing.toBytes (o.proposal.digest : Digest) ++
            (beBytes 8 32 ++ Hashing.toBytes g.id ++ (beBytes 8 g.revision.toNat ++
              (beBytes 8 32 ++ Hashing.toBytes p.id ++ (beBytes 8 p.version.toNat ++
                (beBytes 8 32 ++ Hashing.toBytes p.model ++
                  (p.signals.map fun s => (s.schema.schemaHash, s.calibration)).flatMap fun s =>
                    (beBytes 8 32 ++ Hashing.toBytes s.1) ++
                      (beBytes 8 32 ++ Hashing.toBytes s.2)))))))))) := by
  have hwrite : ∀ (h : Canonical) (s : RequiredSignal Digest),
      ((h.digest s.schema.schemaHash).digest s.calibration).written = h.written ++
        ((beBytes 8 32 ++ Hashing.toBytes s.schema.schemaHash) ++
          (beBytes 8 32 ++ Hashing.toBytes s.calibration)) := by
    intro h s
    simp [Canonical.digest]
  rw [snapshotCanonical, Canonical.foldl_written hwrite, List.flatMap_map]
  simp [Canonical.text, Canonical.bytes, Canonical.u64, Canonical.new, Canonical.digest]

/-- The pre-image of a snapshot determines what it shows. -/
theorem snapshotCanonical_inj {o o' : Operation Digest} {g g' : Grant Digest} {p p' : Plan Digest}
    (ho : Fits o.evidence) (ho' : Fits o'.evidence)
    (h : (snapshotCanonical o g p).written = (snapshotCanonical o' g' p').written) :
    snapshotFields (TransferProposal.digest : _ → Digest) o g p =
      snapshotFields TransferProposal.digest o' g' p' := by
  rw [snapshotCanonical_written, snapshotCanonical_written, List.append_cancel_left_eq] at h
  obtain ⟨hid, h⟩ := digest_append_inj h
  obtain ⟨hrevision, h⟩ := u64_append_inj h
  obtain ⟨hevidence, h⟩ := text_append_inj ho ho' h
  obtain ⟨hproposal, h⟩ := digest_append_inj h
  obtain ⟨hgrant, h⟩ := digest_append_inj h
  obtain ⟨hgrantRevision, h⟩ := u64_append_inj h
  obtain ⟨hplan, h⟩ := digest_append_inj h
  obtain ⟨hversion, h⟩ := u64_append_inj h
  obtain ⟨hmodel, h⟩ := digest_append_inj h
  have hne : ∀ s : Digest × Digest, (beBytes 8 32 ++ Hashing.toBytes s.1) ++
      (beBytes 8 32 ++ Hashing.toBytes s.2) ≠ [] := by
    intro s hs
    simpa using congrArg List.length hs
  have hsignals := readsBack_signal.flatMap_inj hne (by simp) (by simp) h
  simp only [snapshotFields, hid, hrevision, hevidence, hproposal, hgrant, hgrantRevision, hplan,
    hversion, hmodel, hsignals]

/-! The seven kinds. -/

inductive Kind
  | schema
  | evaluation
  | proposal
  | frozenTransfer
  | workflow
  | snapshot
  | slot
  deriving DecidableEq

def Kind.domain : Kind → String
  | schema => "ic-laya/schema/v1"
  | evaluation => "ic-laya/evaluation/v1"
  | proposal => "ic-laya/proposal/v1"
  | frozenTransfer => "ic-laya/frozen-transfer/v1"
  | workflow => "ic-laya/workflow/v1"
  | snapshot => "ic-laya/snapshot/v1"
  | slot => "ic-laya/slot/v1"

theorem Kind.domain_inj {a b : Kind} (h : a.domain = b.domain) : a = b := by
  revert h
  cases a <;> cases b <;> decide

theorem Kind.fits_domain (k : Kind) : Fits k.domain := by
  cases k <;> (unfold Fits; decide)

/-- What the code hashes, with strings and lists of the lengths the code's own can have. -/
inductive Subject (Digest : Type)
  | schema (s : Schema) (tokenizer : Digest) (sized : s.Sized)
  | evaluation (q : DecisionRequest Digest) (fits : Fits q.state)
  | proposal (p : TransferProposal)
  | frozenTransfer (f : FrozenTransfer Digest)
  | workflow (self caller : Principal) (nonce : UInt64)
  | snapshot (o : Operation Digest) (g : Grant Digest) (p : Plan Digest) (fits : Fits o.evidence)
  | slot (id : Digest) (slot : UInt64) (snapshot : Digest)

/-- The fields that are hashed, a proposal inside another value as a `Proposal`. -/
inductive Fields (Proposal Digest : Type)
  | schema (s : Schema) (tokenizer : Digest)
  | evaluation (q : DecisionRequest Digest)
  | proposal (p : TransferProposal)
  | frozenTransfer (p : Proposal) (memo : Digest) (createdAtTimeNs : UInt64)
  | workflow (self caller : Principal) (nonce : UInt64)
  | snapshot (f : SnapshotFields Proposal Digest)
  | slot (id : Digest) (slot : UInt64) (snapshot : Digest)

namespace Subject
open ExecutorState

def kind : Subject Digest → Kind
  | schema .. => .schema
  | evaluation .. => .evaluation
  | proposal .. => .proposal
  | frozenTransfer .. => .frozenTransfer
  | workflow .. => .workflow
  | snapshot .. => .snapshot
  | slot .. => .slot

/-- The byte string handed to SHA-256. -/
def preimage : Subject Digest → List UInt8
  | schema s tokenizer _ => (s.canonical tokenizer).written
  | evaluation q _ => q.canonical.written
  | proposal p => p.canonical.written
  | frozenTransfer f => f.canonical.written
  | workflow self caller nonce => (requestCanonical self caller nonce).written
  | snapshot o g p _ => (snapshotCanonical o g p).written
  | slot id i state => (slotCanonical id i.toNat state).written

/-- The digest that the code computes. -/
def digest : Subject Digest → Digest
  | schema s tokenizer _ => s.digest tokenizer
  | evaluation q _ => q.digest
  | proposal p => p.digest
  | frozenTransfer f => f.digest
  | workflow self caller nonce => (requestCanonical self caller nonce).finish
  | snapshot o g p _ => IcLaya.snapshot o g p
  | slot id i state => (slotCanonical id i.toNat state).finish

def fields {Proposal : Type} (shown : TransferProposal → Proposal) :
    Subject Digest → Fields Proposal Digest
  | schema s tokenizer _ => .schema s tokenizer
  | evaluation q _ => .evaluation q
  | proposal p => .proposal p
  | frozenTransfer f => .frozenTransfer (shown f.proposal) f.memo f.createdAtTimeNs
  | workflow self caller nonce => .workflow self caller nonce
  | snapshot o g p _ => .snapshot (snapshotFields shown o g p)
  | slot id i state => .slot id i state

theorem digest_eq (a : Subject Digest) : a.digest = hash a.preimage := by
  cases a <;> rfl

/-- Every pre-image begins with the domain of its kind. -/
theorem startsWith_domain (a : Subject Digest) : frame (asBytes a.kind.domain) <+: a.preimage := by
  cases a with
  | schema s tokenizer sized => exact ⟨_, (s.canonical_written tokenizer).symm⟩
  | evaluation q fits =>
    have hcalibration : ∀ (h : Canonical) (x : Option Digest),
        h.written <+: (h.calibration x).written := by
      intro h x
      cases x <;> simp [Canonical.calibration, Canonical.u64, Canonical.digest]
    have hbinding : ∀ (h : Canonical) (x : Option (Binding Digest)),
        h.written <+: (h.binding x).written := by
      intro h x
      cases x <;> simp [Canonical.binding, Canonical.u64, Canonical.digest]
    simp only [preimage, DecisionRequest.canonical, Canonical.text, Canonical.bytes, Canonical.u64,
      List.append_assoc]
    refine (List.IsPrefix.trans ?_ (hcalibration _ _)).trans
      ((hbinding _ _).trans (List.prefix_append _ _))
    simp [Canonical.digest, Canonical.new, Canonical.text, Canonical.bytes, kind, Kind.domain]
  | proposal p =>
    simp [preimage, TransferProposal.canonical, Account.write, Canonical.new, Canonical.text,
      Canonical.bytes, Canonical.u128, kind, Kind.domain]
  | frozenTransfer f =>
    simp [preimage, FrozenTransfer.canonical, Canonical.new, Canonical.text, Canonical.bytes,
      Canonical.digest, Canonical.u64, kind, Kind.domain]
  | workflow self caller nonce =>
    simp [preimage, requestCanonical, Canonical.new, Canonical.text, Canonical.bytes,
      Canonical.u64, kind, Kind.domain]
  | snapshot o g p fits => exact ⟨_, (snapshotCanonical_written o g p).symm⟩
  | slot id i state =>
    simp [preimage, slotCanonical, Canonical.new, Canonical.text, Canonical.bytes,
      Canonical.digest, Canonical.u64, kind, Kind.domain]

/-- The pre-images of two kinds are apart. -/
theorem kind_of_preimage {a b : Subject Digest} (h : a.preimage = b.preimage) :
    a.kind = b.kind := by
  obtain ⟨r, hr⟩ := a.startsWith_domain
  obtain ⟨s, hs⟩ := b.startsWith_domain
  have he := hr.trans (h.trans hs.symm)
  exact Kind.domain_inj (text_append_inj (Kind.fits_domain _) (Kind.fits_domain _) he).1

/-- A pre-image determines the hashed fields. -/
theorem fields_of_preimage {a b : Subject Digest} (h : a.preimage = b.preimage) :
    a.fields (TransferProposal.digest : _ → Digest) = b.fields TransferProposal.digest := by
  have hk := kind_of_preimage h
  cases a with
  | schema s tokenizer sized =>
    cases b with
    | schema s' tokenizer' sized' =>
      obtain ⟨rfl, rfl⟩ := Schema.canonical_inj sized sized' h
      rfl
    | _ => nomatch hk
  | evaluation q fits =>
    cases b with
    | evaluation q' fits' =>
      cases DecisionRequest.canonical_inj fits fits' h
      rfl
    | _ => nomatch hk
  | proposal p =>
    cases b with
    | proposal p' =>
      cases (TransferProposal.canonical_append_inj (congrArg (· ++ []) h)).1
      rfl
    | _ => nomatch hk
  | frozenTransfer f =>
    cases b with
    | frozenTransfer f' =>
      obtain ⟨hproposal, hmemo, htime⟩ := FrozenTransfer.canonical_inj h
      simp only [fields, hproposal, hmemo, htime]
    | _ => nomatch hk
  | workflow self caller nonce =>
    cases b with
    | workflow self' caller' nonce' =>
      obtain ⟨rfl, rfl, rfl⟩ := requestCanonical_inj h
      rfl
    | _ => nomatch hk
  | snapshot o g p fits =>
    cases b with
    | snapshot o' g' p' fits' => exact congrArg Fields.snapshot (snapshotCanonical_inj fits fits' h)
    | _ => nomatch hk
  | slot id i state =>
    cases b with
    | slot id' i' state' =>
      obtain ⟨rfl, rfl, rfl⟩ := slotCanonical_inj h
      rfl
    | _ => nomatch hk

/-- A pre-image is made of the hashed fields alone. -/
theorem preimage_of_fields {a b : Subject Digest}
    (h : a.fields (TransferProposal.digest : _ → Digest) = b.fields TransferProposal.digest) :
    a.preimage = b.preimage := by
  cases a with
  | schema s tokenizer sized =>
    cases b with
    | schema s' tokenizer' sized' =>
      obtain ⟨rfl, rfl⟩ := Fields.schema.inj h
      rfl
    | _ => nomatch h
  | evaluation q fits =>
    cases b with
    | evaluation q' fits' =>
      cases Fields.evaluation.inj h
      rfl
    | _ => nomatch h
  | proposal p =>
    cases b with
    | proposal p' =>
      cases Fields.proposal.inj h
      rfl
    | _ => nomatch h
  | frozenTransfer f =>
    cases b with
    | frozenTransfer f' =>
      obtain ⟨hproposal, hmemo, htime⟩ := Fields.frozenTransfer.inj h
      simp only [preimage, FrozenTransfer.canonical, hproposal, hmemo, htime]
    | _ => nomatch h
  | workflow self caller nonce =>
    cases b with
    | workflow self' caller' nonce' =>
      obtain ⟨rfl, rfl, rfl⟩ := Fields.workflow.inj h
      rfl
    | _ => nomatch h
  | snapshot o g p fits =>
    cases b with
    | snapshot o' g' p' fits' =>
      have hf := Fields.snapshot.inj h
      simp only [snapshotFields, SnapshotFields.mk.injEq] at hf
      obtain ⟨hid, hrevision, hevidence, hproposal, hgrant, hgrantRevision, hplan, hversion,
        hmodel, hsignals⟩ := hf
      simp only [preimage, snapshotCanonical_written, hid, hrevision, hevidence, hproposal, hgrant,
        hgrantRevision, hplan, hversion, hmodel, hsignals]
    | _ => nomatch h
  | slot id i state =>
    cases b with
    | slot id' i' state' =>
      obtain ⟨rfl, rfl, rfl⟩ := Fields.slot.inj h
      rfl
    | _ => nomatch h

/-- Over a collision-free hash a proposal shows as itself. -/
theorem fields_of_shown (hcf : CollisionFree Digest) {a b : Subject Digest}
    (h : a.fields (TransferProposal.digest : _ → Digest) = b.fields TransferProposal.digest) :
    a.fields id = b.fields id := by
  cases a with
  | frozenTransfer f =>
    cases b with
    | frozenTransfer f' =>
      obtain ⟨hproposal, hmemo, htime⟩ := Fields.frozenTransfer.inj h
      simp only [fields, id, TransferProposal.digest_inj hcf hproposal, hmemo, htime]
    | _ => nomatch h
  | snapshot o g p fits =>
    cases b with
    | snapshot o' g' p' fits' =>
      have hf := Fields.snapshot.inj h
      simp only [snapshotFields, SnapshotFields.mk.injEq] at hf
      obtain ⟨hid, hrevision, hevidence, hproposal, hgrant, hgrantRevision, hplan, hversion,
        hmodel, hsignals⟩ := hf
      simp only [fields, snapshotFields, id, hid, hrevision, hevidence,
        TransferProposal.digest_inj hcf hproposal, hgrant, hgrantRevision, hplan, hversion, hmodel,
        hsignals]
    | _ => nomatch h
  | schema s tokenizer sized =>
    cases b with
    | schema => simpa [fields] using h
    | _ => nomatch h
  | evaluation q fits =>
    cases b with
    | evaluation => simpa [fields] using h
    | _ => nomatch h
  | proposal p =>
    cases b with
    | proposal => simpa [fields] using h
    | _ => nomatch h
  | workflow self caller nonce =>
    cases b with
    | workflow => simpa [fields] using h
    | _ => nomatch h
  | slot id i state =>
    cases b with
    | slot => simpa [fields] using h
    | _ => nomatch h

end Subject

/-- The pre-images are unique and separated: bytes determine the kind and the hashed fields, and
over a collision-free hash so does the digest. -/
theorem canonical_preimages :
    (∀ a : Subject Digest, a.digest = hash a.preimage) ∧
    (∀ a b : Subject Digest, a.preimage = b.preimage ↔
      a.fields (TransferProposal.digest : _ → Digest) = b.fields TransferProposal.digest) ∧
    (∀ a b : Subject Digest, a.kind ≠ b.kind → a.preimage ≠ b.preimage) ∧
    (CollisionFree Digest → ∀ a b : Subject Digest, a.digest = b.digest →
      a.kind = b.kind ∧ a.fields id = b.fields id) := by
  refine ⟨Subject.digest_eq,
    fun a b => ⟨Subject.fields_of_preimage, Subject.preimage_of_fields⟩,
    fun a b hk h => hk (Subject.kind_of_preimage h), fun hcf a b h => ?_⟩
  rw [Subject.digest_eq, Subject.digest_eq] at h
  have hp : a.preimage = b.preimage := hcf h
  exact ⟨Subject.kind_of_preimage hp,
    Subject.fields_of_shown hcf (Subject.fields_of_preimage hp)⟩

namespace Subject.Sample

def grant : Grant SymbolicDigest :=
  { id := ⟨[2]⟩, revision := 1, delegate := ⟨[17], by decide⟩, plan := ⟨[3]⟩, ledger := ⟨[18], by decide⟩
    fromSubaccount := Vector.replicate 32 0, recipients := [⟨⟨[19], by decide⟩, Vector.replicate 32 1⟩]
    maxAmount := 10, maxFee := 1, totalCap := 100, windowCap := 50, windowNs := 60, expiresAtNs := 600
    revoked := false, total := default, windows := ∅ }

def plan : Plan SymbolicDigest := ⟨⟨[3]⟩, 1, ⟨[4]⟩, []⟩

def operation (status : OperationStatus SymbolicDigest) : Operation SymbolicDigest :=
  ⟨⟨[1]⟩, 1, "evidence", ⟨⟨[18], by decide⟩, Vector.replicate 32 0,
    ⟨⟨[19], by decide⟩, Vector.replicate 32 1⟩, 5, 1⟩, status⟩

def snapshot (status : OperationStatus SymbolicDigest) : Subject SymbolicDigest :=
  .snapshot (operation status) grant plan
    (show "evidence".utf8ByteSize < 2 ^ 64 by decide)

end Subject.Sample

/-- The status of an operation is not hashed, its kind is. -/
theorem canonical_preimages_symbolic :
    (Subject.Sample.snapshot .available).fields id =
      (Subject.Sample.snapshot (.reserved ⟨[5]⟩)).fields id ∧
    (Subject.Sample.snapshot .available).digest ≠ (Subject.slot ⟨[1]⟩ 1 ⟨[2]⟩).digest := by
  obtain ⟨-, -, -, hinj⟩ := @canonical_preimages SymbolicDigest _
  exact ⟨(hinj SymbolicDigest.collisionFree _ _ rfl).2,
    fun h => absurd (hinj SymbolicDigest.collisionFree _ _ h).1 (by decide)⟩

end IcLaya
