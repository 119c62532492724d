import IcLaya.PackTables
import IcLaya.Sha256
import IcLaya.TiledExtents

/-!
# Loading a validated manifest

What `validate` accepts lists the tensors of the table, each once, end to end. Bytes with the
listed hashes then pass every later check, so a complete upload makes a model.
-/
namespace IcLaya
open Std (ExtTreeMap)
open Fallible OrderedMaps PanickingCode SingleArithmetic TiledExtents WordStreams

/-- The bytes that a tensor takes: singles, or bytes and a scale for each row. -/
inductive StoredSize : StorageKind → List ℕ → ℕ → Prop
  | vector (n : ℕ) : StoredSize .f32 [n] (n * 4)
  | matrix (rows cols : ℕ) (h : cols ≤ 16384) : StoredSize .i8Row [rows, cols] (rows * cols + rows * 4)

section Sizes
variable {F : Type} [Doubles F] {c : ModelConfig F}

theorem ModelConfig.dims_of_validate (h : c.validate = .ok ()) :
    (0 < c.hiddenSize ∧ c.hiddenSize ≤ 2048) ∧ (0 < c.vocabSize ∧ c.vocabSize ≤ 300000) ∧
      (0 < c.intermediateSize ∧ c.intermediateSize ≤ 16384) ∧
      (0 < c.decisionFf ∧ c.decisionFf ≤ 16384) ∧ c.qtypes = 3 := by
  simp only [validate, bind_eq_ok, rejectIf_eq_ok] at h
  obtain ⟨_, h, _⟩ := h
  simp only [not_or] at h
  omega

/-- No dimension of the table is zero, and none is large. -/
theorem dims_of_mem_table (hv : c.validate = .ok ()) {name : String} {shape : List ℕ}
    (h : (name, shape) ∈ tensorTable c) : ∀ d ∈ shape, 0 < d ∧ d ≤ 300000 := by
  obtain ⟨hhidden, hvocab, hinner, hff, hqtypes⟩ := c.dims_of_validate hv
  simp only [tensorTable, List.mem_append, List.mem_flatMap, List.mem_singleton] at h
  rcases h with (((h | ⟨i, -, h⟩) | h) | ⟨i, -, h⟩) | h
  · simp only [embeddingEntries, List.mem_cons, Prod.mk.injEq, List.not_mem_nil, or_false] at h
    rcases h with ⟨-, rfl⟩ | ⟨-, rfl⟩ | ⟨-, rfl⟩ <;> simp <;> omega
  · have hcases : shape = [c.hiddenSize] ∨ shape = [3 * c.hiddenSize, c.hiddenSize] ∨
        shape = [c.hiddenSize, c.hiddenSize] ∨ shape = [2 * c.intermediateSize, c.hiddenSize] ∨
        shape = [c.hiddenSize, c.intermediateSize] := by
      unfold encoderEntries at h
      split at h <;> simp at h <;> grind
    rcases hcases with rfl | rfl | rfl | rfl | rfl <;> simp <;> omega
  · cases h
    simp
    omega
  · simp only [decisionEntries, List.map_cons, List.map_nil, List.mem_cons, Prod.mk.injEq,
      List.not_mem_nil, or_false] at h
    rcases h with ⟨-, rfl⟩ | ⟨-, rfl⟩ | ⟨-, rfl⟩ | ⟨-, rfl⟩ | ⟨-, rfl⟩ | ⟨-, rfl⟩ | ⟨-, rfl⟩ |
      ⟨-, rfl⟩ | ⟨-, rfl⟩ | ⟨-, rfl⟩ | ⟨-, rfl⟩ | ⟨-, rfl⟩ <;> simp <;> omega
  · simp only [scorerEntries, List.mem_cons, Prod.mk.injEq, List.not_mem_nil, or_false] at h
    rcases h with ⟨-, rfl⟩ | ⟨-, rfl⟩ | ⟨-, rfl⟩ | ⟨-, rfl⟩ | ⟨-, rfl⟩ | ⟨-, rfl⟩ <;> simp <;> omega

end Sizes

section Entries
variable {F Digest : Type} [Doubles F] [Hashing Digest] {expected : Shapes} {e : TensorEntry Digest}

/-- The place of a tensor in the pack. -/
def TensorEntry.extent (e : TensorEntry Digest) : Extent := (e.offset.toNat, e.length.toNat)

/-- What an accepted entry says of its tensor. -/
structure TensorEntry.Listed (expected : Shapes) (e : TensorEntry Digest) : Prop where
  shape : expected[e.name]? = some e.shape
  size : StoredSize e.storage e.shape e.length.toNat
  small : e.length.toNat ≤ maxTensor

omit [Hashing Digest] in
theorem TensorEntry.bytes_eq_ok {n : ℕ} (h : e.bytes = .ok n) :
    StoredSize e.storage e.shape n := by
  simp only [bytes, bind_eq_ok] at h
  obtain ⟨count, hcount, h⟩ := h
  split at h
  · next hs =>
    simp only [bind_eq_ok, reject_eq_ok, not_not, okOr_eq_ok, checkedMul_eq_some] at h
    obtain ⟨-, hlen, -, rfl⟩ := h
    obtain ⟨k, hk⟩ := List.length_eq_one_iff.mp hlen
    rw [hk] at hcount ⊢
    simp only [List.foldlM_cons, List.foldlM_nil, bind_eq_ok, okOr_eq_ok, checkedMul_eq_some,
      pure_eq_ok] at hcount
    obtain ⟨_, ⟨-, rfl⟩, rfl⟩ := hcount
    rw [hs, Nat.one_mul]
    exact .vector k
  · next hs =>
    split at h
    · next rows cols hshape =>
      rw [hshape] at hcount ⊢
      simp only [List.foldlM_cons, List.foldlM_nil, bind_eq_ok, okOr_eq_ok, checkedMul_eq_some,
        pure_eq_ok] at hcount
      obtain ⟨_, ⟨-, rfl⟩, _, ⟨-, rfl⟩, rfl⟩ := hcount
      simp only [bind_eq_ok, reject_eq_ok, not_lt, okOr_eq_ok, mul_eq_ok, checkedAdd_eq_some] at h
      obtain ⟨-, hcols, _, ⟨-, rfl⟩, -, rfl⟩ := h
      rw [hs, Nat.one_mul]
      exact .matrix rows cols hcols
    · cases h

omit [Hashing Digest] in
/-- An induction over the entries: each is new, and begins where the one before it ends. -/
theorem checkEntries_eq_ok {es : List (TensorEntry Digest)} {pos total : ℕ} {names : List String}
    (h : checkEntries expected pos names es = .ok total) :
    (∀ e ∈ es, e.name ∉ names ∧ e.Listed expected) ∧ (es.map TensorEntry.name).Nodup ∧
      Tiles pos total (es.map TensorEntry.extent) := by
  induction es generalizing pos names with
  | nil =>
    cases h
    exact ⟨fun e he => (nomatch he), List.nodup_nil, .nil _⟩
  | cons e es ih =>
    simp only [checkEntries, TensorEntry.check, bind_eq_ok, reject_eq_ok, not_or, not_not, not_lt,
      okOr_eq_ok, checkedAdd_eq_some] at h
    obtain ⟨_, ⟨-, ⟨hname, hshape, hoffset⟩, len, hbytes, -, ⟨hlength, hsmall⟩, -, rfl⟩, h⟩ := h
    obtain ⟨hlisted, hnodup, htiles⟩ := ih h
    refine ⟨fun e' he' => ?_, List.nodup_cons.mpr ⟨fun hmem => ?_, hnodup⟩, ?_⟩
    · rcases List.mem_cons.mp he' with rfl | he'
      · exact ⟨hname, hshape, hlength ▸ TensorEntry.bytes_eq_ok hbytes, hlength ▸ hsmall⟩
      · obtain ⟨hnew, hl⟩ := hlisted e' he'
        exact ⟨fun hmem => hnew (List.mem_cons_of_mem _ hmem), hl⟩
    · obtain ⟨e', he', hname'⟩ := List.mem_map.mp hmem
      exact (hlisted e' he').1 (hname' ▸ List.mem_cons_self)
    · rw [List.map_cons, TensorEntry.extent, hoffset, hlength]
      exact .cons htiles

variable {m : Manifest F Digest}

omit [Hashing Digest] in
theorem Manifest.validate_eq_ok (h : m.validate = .ok ()) :
    ∃ expected, expectedTensors m.config = .ok expected ∧ expected.size = m.tensors.length ∧
      (∀ e ∈ m.tensors, e.Listed expected) ∧ (m.tensors.map TensorEntry.name).Nodup ∧
      Tiles 0 m.totalBytes.toNat (m.tensors.map TensorEntry.extent) := by
  simp only [validate, bind_eq_ok, reject_eq_ok, call_eq_ok, not_not] at h
  obtain ⟨-, -, -, -, -, -, expected, hexpected, -, hcount, pos, hentries, hpos⟩ := h
  obtain ⟨hlisted, hnodup, htiles⟩ := checkEntries_eq_ok hentries
  exact ⟨expected, hexpected, hcount, fun e he => (hlisted e he).2, hnodup, hpos ▸ htiles⟩

omit [Hashing Digest] in
/-- The entries are those of the table, in some order. -/
theorem Manifest.perm_table (h : m.validate = .ok ()) :
    (m.tensors.map fun e => (e.name, e.shape)).Perm (tensorTable m.config) := by
  obtain ⟨expected, hexpected, hcount, hlisted, hnodup, -⟩ := validate_eq_ok h
  have hlength : (tensorTable m.config).length = m.tensors.length := by
    rw [← hcount, ← (expected_perm _ hexpected).length_eq, ExtTreeMap.length_toList]
  have hnodup' : (m.tensors.map fun e => (e.name, e.shape)).Nodup := by
    refine List.Nodup.of_map Prod.fst ?_
    rw [List.map_map]
    exact hnodup
  refine (List.subperm_of_subset hnodup' fun x hx => ?_).perm_of_length_le ?_
  · obtain ⟨e, he, rfl⟩ := List.mem_map.mp hx
    exact (mem_expected _ hexpected).mp (hlisted e he).shape
  · rw [List.length_map, hlength]

end Entries

section Loading
variable {F Digest : Type} [Doubles F] [Hashing Digest] {m : Manifest F Digest} {expected : Shapes}
  {e : TensorEntry Digest}

/-- Bytes with the listed hash; the singles are finite, and the scales are also positive. -/
structure TensorEntry.Intact (e : TensorEntry Digest) (part : List UInt8) : Prop where
  hash : hash part = e.sha256
  finite : e.storage = .f32 → ∀ v ∈ (chunksExact 4 part).map ofLe32, singleFinite v
  scales : e.storage = .i8Row → ∀ s ∈ (chunksExact 4 (part.drop e.shape.prod)).map ofLe32,
    singleFinite s ∧ 0 < order s

theorem Int8Matrix.fromBytes_of_length (t : Target) {part : List UInt8} {rows cols : ℕ}
    (hrows : 0 < rows) (hcols : 0 < cols) (hmax : cols ≤ 16384)
    (hlength : part.length = rows * cols + rows * 4) (hsmall : part.length < 2 ^ 32)
    (hscales : ∀ s ∈ (chunksExact 4 (part.drop (rows * cols))).map ofLe32,
      singleFinite s ∧ 0 < order s) :
    fromBytes t part rows cols = .ok ⟨rows, cols, (part.take (rows * cols)).map UInt8.toInt8,
      (chunksExact 4 (part.drop (rows * cols))).map ofLe32⟩ := by
  have hwords := t.le_words
  have hcount : checkedMul t rows cols = some (rows * cols) := checkedMul_of_lt (by omega)
  have hbytes : checkedMul t rows 4 = some (rows * 4) := checkedMul_of_lt (by omega)
  have htotal : checkedAdd t (rows * cols) (rows * 4) = some part.length := by
    rw [hlength]
    exact checkedAdd_of_lt (by omega)
  have hpass : ¬∃ s ∈ (chunksExact 4 (part.drop (rows * cols))).map ofLe32,
      ¬singleFinite s = true ∨ order s ≤ 0 := by
    rintro ⟨s, hs, hnot⟩
    obtain ⟨hfinite, hpositive⟩ := hscales s hs
    exact hnot.elim (absurd hfinite) (absurd hpositive ∘ not_lt.mpr)
  have hdims : ¬(rows = 0 ∨ cols = 0 ∨ 16384 < cols) := by omega
  rw [fromBytes, rejectIf_bind hdims, hcount, hbytes]
  dsimp only [okOr, ok_bind, Option.bind_some]
  rw [htotal]
  dsimp only [ok_bind]
  rw [rejectIf_bind (not_not.mpr rfl), rejectIf_bind hpass]
  rfl

theorem Builder.weightOf_of_intact (t : Target) {part : List UInt8} (hl : e.Listed expected)
    (hdims : ∀ d ∈ e.shape, 0 < d) (hlength : part.length = e.length.toNat) (hi : e.Intact part) :
    ∃ w, weightOf t e part = .ok w ∧ w.fits e.shape = true := by
  have hwords := t.le_words
  obtain ⟨-, hsize, hsmall⟩ := hl
  obtain ⟨-, hfinite, hscales⟩ := hi
  rw [← hlength] at hsize hsmall
  unfold maxTensor at hsmall
  generalize hstorage : e.storage = storage at hsize
  generalize hshape : e.shape = shape at hsize
  generalize hn : part.length = n at hsize
  cases hsize with
  | vector k =>
    have hpass : ¬∃ b ∈ chunksExact 4 part, ¬singleFinite (ofLe32 b) = true := by
      rintro ⟨b, hb, hnot⟩
      exact hnot (hfinite hstorage _ (List.mem_map.mpr ⟨b, hb, rfl⟩))
    have hcount : ((chunksExact 4 part).map ofLe32).length = [k].prod := by
      rw [map_chunksExact, List.length_map, List.length_range, hn]
      simp
    refine ⟨.f32 ⟨[k], (chunksExact 4 part).map ofLe32, hcount⟩, ?_, by simp [Weight.fits, Weight.dims]⟩
    simp only [weightOf, hstorage, hshape, rejectIf_bind hpass, fromRawBuffer,
      Tensor.fromVec_of_length hcount]
    rfl
  | matrix rows cols hcols =>
    have hpos := hshape ▸ hdims
    have hrows : 0 < rows := hpos rows (by simp)
    have hcol : 0 < cols := hpos cols (by simp)
    have hdrop := hscales hstorage
    have hprod : [rows, cols].prod = rows * cols := by simp
    rw [hshape, hprod] at hdrop
    obtain ⟨w, hw, hdims'⟩ : ∃ w, Int8Matrix.fromBytes t part rows cols = .ok w ∧
        (w.rows = rows ∧ w.cols = cols) :=
      ⟨_, Int8Matrix.fromBytes_of_length t hrows hcol hcols hn (by omega) hdrop, rfl, rfl⟩
    refine ⟨.int8 w, ?_, by simp [Weight.fits, Weight.dims, hdims']⟩
    simp only [weightOf, hstorage, hshape]
    exact congrArg (fun x => Weight.int8 <$> x.mapError Error.invalid) hw

namespace Builder
variable {t : Target} {b b' : Builder F Digest} {part : List UInt8}

/-- `?`, in a call that can write to its receiver. -/
def checked {σ ε α : Type} (x : Except ε α) : ExceptT ε (StateM σ) α := ExceptT.mk (pure x)

theorem run_checked {σ ε α β : Type} (x : Except ε α) (f : α → ExceptT ε (StateM σ) β) (s : σ) :
    (checked x >>= f).run s = match x with
      | .ok a => (f a).run s
      | .error e => (.error e, s) := by
  cases x <;> rfl

theorem run_bind {σ ε α β : Type} {x : ExceptT ε (StateM σ) α} {f : α → ExceptT ε (StateM σ) β}
    {s s' : σ} {a : α} (h : x.run s = (.ok a, s')) : (x >>= f).run s = (f a).run s' := by
  have hx : x s = (.ok a, s') := h
  show ExceptT.bindCont f (x s).1 (x s).2 = f a s'
  rw [hx]
  rfl

theorem run_bind_error {σ ε α β : Type} {x : ExceptT ε (StateM σ) α} {f : α → ExceptT ε (StateM σ) β}
    {s s' : σ} {e : ε} (h : x.run s = (.error e, s')) : (x >>= f).run s = (.error e, s') := by
  have hx : x s = (.error e, s') := h
  show ExceptT.bindCont f (x s).1 (x s).2 = (.error e, s')
  rw [hx]
  rfl

omit [Doubles F] in
theorem push_eq_ok (h : b.push t part = .ok b') :
    ∃ e w, b.nextEntry = some e ∧ part.length = e.length.toNat ∧ hash part = e.sha256 ∧
      weightOf t e part = .ok w ∧
      b' = { b with tensors := b.tensors.insert e.name w, next := b.next + 1 } := by
  simp only [push, bind_eq_ok, okOr_eq_ok, rejectIf_eq_ok, pure_eq_ok, not_or, not_not] at h
  obtain ⟨e, he, -, ⟨hlength, hhash⟩, w, hw, rfl⟩ := h
  exact ⟨e, w, he, hlength, hhash, hw, rfl⟩

/-- `push` on the builder in place. -/
def pushInPlace (t : Target) (bytes : List UInt8) : ExceptT Error (StateM (Builder F Digest)) Unit := do
  let b ← get
  let e ← checked (okOr b.nextEntry .transition)
  checked (rejectIf (bytes.length ≠ e.length.toNat ∨ hash bytes ≠ e.sha256) (.invalid "tensor integrity"))
  let w ← checked (weightOf t e bytes)
  modify fun b => { b with tensors := b.tensors.insert e.name w }
  modify fun b => { b with next := b.next + 1 }

omit [Doubles F] in
/-- What a failing push leaves is the builder before it. -/
theorem pushInPlace_run (t : Target) (b : Builder F Digest) (bytes : List UInt8) :
    (pushInPlace t bytes).run b = match b.push t bytes with
      | .ok b' => (.ok (), b')
      | .error e => (.error e, b) := by
  have hget : ∀ f : Builder F Digest → ExceptT Error (StateM (Builder F Digest)) Unit,
      (get >>= f).run b = (f b).run b := fun _ => rfl
  rw [pushInPlace, push, hget, run_checked]
  cases okOr b.nextEntry Error.transition with
  | error x => rfl
  | ok e =>
    simp only [ok_bind, run_checked]
    cases rejectIf (bytes.length ≠ e.length.toNat ∨ hash bytes ≠ e.sha256)
        (Error.invalid "tensor integrity") with
    | error x => rfl
    | ok _ =>
      simp only [ok_bind]
      cases weightOf t e bytes <;> rfl

omit [Doubles F] in
/-- The pushes after the first one start from what it leaves. -/
theorem forM_pushInPlace_cons {parts : List (List UInt8)} :
    ((part :: parts).forM (pushInPlace t)).run b = (.ok (), b') ↔
      ∃ b₁, b.push t part = .ok b₁ ∧ (parts.forM (pushInPlace t)).run b₁ = (.ok (), b') := by
  have hcons : ((part :: parts).forM (pushInPlace t)).run b =
      (pushInPlace t part >>= fun _ => parts.forM (pushInPlace t)).run b := rfl
  have hrun := pushInPlace_run t b part
  rw [hcons]
  cases hp : b.push t part with
  | ok b₁ =>
    rw [hp] at hrun
    rw [run_bind hrun]
    simp
  | error e =>
    rw [hp] at hrun
    rw [run_bind_error hrun]
    constructor
    · intro h
      cases congrArg Prod.fst h
    · rintro ⟨b₁, hb₁, -⟩
      cases hb₁

omit [Doubles F] in
/-- An induction over the pushes: none replaces the manifest or the bundle. -/
theorem forM_pushInPlace_frame {parts : List (List UInt8)}
    (h : (parts.forM (pushInPlace t)).run b = (.ok (), b')) :
    b'.manifest = b.manifest ∧ b'.bundle = b.bundle := by
  induction parts generalizing b with
  | nil =>
    cases h
    exact ⟨rfl, rfl⟩
  | cons part parts ih =>
    obtain ⟨b₁, hpush, hrest⟩ := forM_pushInPlace_cons.mp h
    obtain ⟨hmanifest, hbundle⟩ := ih hrest
    obtain ⟨e, w, -, -, -, -, rfl⟩ := push_eq_ok hpush
    exact ⟨hmanifest, hbundle⟩

omit [Doubles F] in
theorem push_of_intact (t : Target) {b : Builder F Digest} {part : List UInt8}
    (he : b.nextEntry = some e) (hl : e.Listed expected) (hdims : ∀ d ∈ e.shape, 0 < d)
    (hlength : part.length = e.length.toNat) (hi : e.Intact part) :
    ∃ w, w.fits e.shape = true ∧ (pushInPlace t part).run b =
      (.ok (), { b with tensors := b.tensors.insert e.name w, next := b.next + 1 }) := by
  obtain ⟨w, hw, hfits⟩ := weightOf_of_intact t hl hdims hlength hi
  have hpass : ¬(part.length ≠ e.length.toNat ∨ hash part ≠ e.sha256) :=
    not_or.mpr ⟨not_not.mpr hlength, not_not.mpr hi.hash⟩
  refine ⟨w, hfits, ?_⟩
  rw [pushInPlace_run, push, he]
  simp only [okOr, ok_bind, rejectIf_bind hpass, hw]
  rfl

omit [Doubles F] in
/-- A run over the entries that are left: each leaves the weight of its name. -/
theorem pushes_of_intact (t : Target) {part : TensorEntry Digest → List UInt8}
    {done rest : List (TensorEntry Digest)} {b : Builder F Digest}
    (htensors : b.manifest.tensors = done ++ rest) (hnext : b.next = done.length)
    (hrest : ∀ e ∈ rest, e.Listed expected ∧ (∀ d ∈ e.shape, 0 < d) ∧
      (part e).length = e.length.toNat ∧ e.Intact (part e)) :
    ∃ ws : List (String × Weight), ws.map Prod.fst = rest.map TensorEntry.name ∧
      (∀ e ∈ rest, ∃ w, (e.name, w) ∈ ws ∧ w.fits e.shape = true) ∧
      ((rest.map part).forM (pushInPlace t)).run b =
        (.ok (), { b with tensors := putAll b.tensors ws, next := b.next + rest.length }) := by
  induction rest generalizing done b with
  | nil => exact ⟨[], rfl, fun e he => (nomatch he), rfl⟩
  | cons e rest ih =>
    have he : b.nextEntry = some e := by
      rw [nextEntry, htensors, hnext, List.getElem?_append_right (Nat.le_refl _), Nat.sub_self]
      rfl
    obtain ⟨hl, hdims, hlength, hi⟩ := hrest e List.mem_cons_self
    obtain ⟨w, hfits, hpush⟩ := push_of_intact t he hl hdims hlength hi
    obtain ⟨ws, hnames, hall, hrun⟩ := @ih (done ++ [e])
      { b with tensors := b.tensors.insert e.name w, next := b.next + 1 } (by simpa using htensors)
      (by simp [hnext]) fun e' he' => hrest e' (List.mem_cons_of_mem e he')
    refine ⟨(e.name, w) :: ws, by rw [List.map_cons, List.map_cons, hnames], fun e' he' => ?_, ?_⟩
    · rcases List.mem_cons.mp he' with rfl | he'
      · exact ⟨w, List.mem_cons_self, hfits⟩
      · obtain ⟨w', hw', hfits'⟩ := hall e' he'
        exact ⟨w', List.mem_cons_of_mem _ hw', hfits'⟩
    · have hcons : (((e :: rest).map part).forM (pushInPlace t)).run b = (pushInPlace t (part e) >>=
          fun _ => (rest.map part).forM (pushInPlace t)).run b := rfl
      rw [hcons, run_bind hpush, hrun, List.length_cons]
      simp only [putAll, List.foldl_cons, Nat.add_assoc, Nat.add_comm 1]

end Builder

omit [Hashing Digest] in
/-- What `finish` finds after all pushes. -/
theorem Builder.finish_of_fits {b : Builder F Digest} (hv : b.manifest.validate = .ok ())
    (hnext : b.next = b.manifest.tensors.length) {ws : List (String × Weight)}
    (hb : b.tensors = putAll ∅ ws) (hnames : ws.map Prod.fst = b.manifest.tensors.map TensorEntry.name)
    (hall : ∀ e ∈ b.manifest.tensors, ∃ w, (e.name, w) ∈ ws ∧ w.fits e.shape = true)
    (k : Kernels F Tensor) (q : Kernels F QTensor) : ∃ model, b.finish k q = .ok model := by
  obtain ⟨expected, hexpected, -, -, hnodup, -⟩ := Manifest.validate_eq_ok hv
  have hperm := Manifest.perm_table hv
  have hdistinct : (ws.map Prod.fst).Nodup := hnames ▸ hnodup
  have hfits : FitsTable b.manifest.config b.tensors := by
    intro x hx
    obtain ⟨e, he, rfl⟩ := List.mem_map.mp (hperm.mem_iff.mpr hx)
    obtain ⟨w, hw, hfit⟩ := hall e he
    refine ⟨w, ?_, hfit⟩
    rw [hb, get_putAll hdistinct fun _ _ => by simp]
    exact .inr hw
  have hsize : (tensorTable b.manifest.config).length = b.tensors.size := by
    have hws := congrArg List.length hnames
    rw [List.length_map, List.length_map] at hws
    rw [hb, ← ExtTreeMap.length_toList, (toList_putAll_perm hdistinct).length_eq, hws,
      ← hperm.length_eq, List.length_map]
  have hconfig := ((expectedTensors_eq_ok _).mp hexpected).1
  rw [finish, rejectIf_bind (not_not.mpr hnext)]
  exact fromWeights_of_fits hfits hconfig hsize k q _ _

/-- Every push of an intact pack succeeds, and then `finish` does. -/
theorem Manifest.loads_of_intact (hv : m.validate = .ok ()) (t : Target) (k : Kernels F Tensor)
    (q : Kernels F QTensor) (bundle : Digest) {bytes : List UInt8}
    (hbytes : bytes.length = m.totalBytes.toNat)
    (hintact : ∀ e ∈ m.tensors, e.Intact (cut bytes e.extent)) : ∃ b model,
      ((m.tensors.map fun e => cut bytes e.extent).forM (Builder.pushInPlace t)).run
        ⟨m, bundle, 0, ∅⟩ = (.ok (), b) ∧ b.finish k q = .ok model := by
  obtain ⟨expected, hexpected, -, hlisted, -, htiles⟩ := Manifest.validate_eq_ok hv
  have hconfig := ((expectedTensors_eq_ok _).mp hexpected).1
  have hrest : ∀ e ∈ m.tensors, e.Listed expected ∧ (∀ d ∈ e.shape, 0 < d) ∧
      (cut bytes e.extent).length = e.length.toNat ∧ e.Intact (cut bytes e.extent) := by
    intro e he
    have hdims := dims_of_mem_table hconfig ((mem_expected _ hexpected).mp (hlisted e he).shape)
    refine ⟨hlisted e he, fun d hd => (hdims d hd).1, ?_, hintact e he⟩
    have hwithin := htiles.within e.extent (List.mem_map.mpr ⟨e, he, rfl⟩)
    exact length_cut (hbytes ▸ hwithin.2)
  obtain ⟨ws, hnames, hall, hrun⟩ := Builder.pushes_of_intact t (b := ⟨m, bundle, 0, ∅⟩)
    (List.nil_append _).symm rfl hrest
  obtain ⟨model, hmodel⟩ := Builder.finish_of_fits (b := ⟨m, bundle, 0 + m.tensors.length,
    putAll ∅ ws⟩) hv (Nat.zero_add _) rfl hnames hall k q
  exact ⟨_, model, hrun, hmodel⟩

/-- A validated manifest always yields a model. -/
theorem validated_manifest_loads (hv : m.validate = .ok ()) :
    ((m.tensors.map TensorEntry.name).Nodup ∧ ∃ expected, expectedTensors m.config = .ok expected ∧
      (m.tensors.map fun e => (e.name, e.shape)).Perm expected.toList) ∧
    (Tiles 0 m.totalBytes.toNat (m.tensors.map TensorEntry.extent) ∧
      (m.tensors.Pairwise fun e e' => Disjoint (range e.extent) (range e'.extent)) ∧
      ⋃ x ∈ m.tensors.map TensorEntry.extent, range x = Set.Ico 0 m.totalBytes.toNat) ∧
    (m.totalBytes.toNat ≤ maxTotal ∧ ∀ e ∈ m.tensors, (∀ d ∈ e.shape, d < 2 ^ 32) ∧
      StoredSize e.storage e.shape e.length.toNat ∧ e.length.toNat ≤ maxTensor) ∧
    (∀ (t : Target) (k : Kernels F Tensor) (q : Kernels F QTensor) (bundle : Digest)
      (bytes : List UInt8), bytes.length = m.totalBytes.toNat →
      (∀ e ∈ m.tensors, e.Intact (cut bytes e.extent)) → ∃ b model,
        ((m.tensors.map fun e => cut bytes e.extent).forM (Builder.pushInPlace t)).run
          ⟨m, bundle, 0, ∅⟩ = (.ok (), b) ∧ b.finish k q = .ok model) ∧
    ∀ (t : Target) (b b' : Builder F Digest) (bytes : List UInt8) (e : Error),
      (Builder.pushInPlace t bytes).run b = (.error e, b') → b' = b := by
  obtain ⟨expected, hexpected, -, hlisted, hnodup, htiles⟩ := Manifest.validate_eq_ok hv
  have hconfig := ((expectedTensors_eq_ok _).mp hexpected).1
  have hdims : ∀ e ∈ m.tensors, ∀ d ∈ e.shape, 0 < d ∧ d ≤ 300000 := fun e he =>
    dims_of_mem_table hconfig ((mem_expected _ hexpected).mp (hlisted e he).shape)
  refine ⟨⟨hnodup, expected, hexpected, (Manifest.perm_table hv).trans (expected_perm _ hexpected).symm⟩,
    ⟨htiles, (List.pairwise_map (R := fun x y => Disjoint (range x) (range y))).mp htiles.disjoint,
      htiles.cover⟩,
    ⟨?_, fun e he => ⟨fun d hd => ?_, (hlisted e he).size, (hlisted e he).small⟩⟩,
    fun t k q bundle bytes hbytes hintact => Manifest.loads_of_intact hv t k q bundle hbytes hintact,
    fun t b b' bytes e h => ?_⟩
  · simp only [Manifest.validate, bind_eq_ok, reject_eq_ok, not_or, not_lt] at hv
    obtain ⟨-, hmeta, -⟩ := hv
    exact hmeta.2.2.2.2
  · exact (hdims e he d hd).2.trans_lt (by decide)
  · rw [Builder.pushInPlace_run] at h
    split at h <;> cases h
    rfl

end Loading

/-! A pack of zeros whose scales are 1. -/
namespace Manifest.Sample
open LayaModel Sha256

def payload (shape : List ℕ) : List UInt8 :=
  if shape.length = 1 then List.replicate (shape.prod * 4) 0
  else List.replicate shape.prod 0 ++ le32s (List.replicate (shape.headD 0) 0x3f800000)

/-- The table, each tensor behind the ones before it. -/
def entries (Digest : Type) [Hashing Digest] : ℕ → Entries → List (TensorEntry Digest)
  | _, [] => []
  | pos, (name, shape) :: rest =>
    ⟨if shape.length = 1 then .f32 else .i8Row, name, shape, UInt64.ofNat pos,
      UInt64.ofNat (payload shape).length, hash (payload shape)⟩ ::
        entries Digest (pos + (payload shape).length) rest

def pack (Digest : Type) [Hashing Digest] : Manifest ℚ Digest where
  format := packFormat
  sourceRepo := "laya/zeros"
  sourceRevision := "0"
  testOnly := true
  tokenizerSha256 := Hashing.zero
  primitiveToQtype := #v[0, 1, 2]
  config := Zeros.config
  totalBytes := 328
  tensors := entries Digest 0 (tensorTable Zeros.config)

def bytes : List UInt8 := ((tensorTable Zeros.config).map fun x => payload x.2).flatten

theorem validate_pack : (pack Sum).validate = .ok () := by decide +kernel

theorem sha256_of_mem {pos : ℕ} {table : Entries} : ∀ e ∈ entries Sum pos table,
    e.sha256 = hash (payload e.shape) := by
  induction table generalizing pos with
  | nil => exact fun e he => (nomatch he)
  | cons x table ih =>
    intro e he
    rcases List.mem_cons.mp he with rfl | he
    · rfl
    · exact ih e he

theorem intact : ∀ e ∈ (pack Sum).tensors, e.Intact (cut bytes e.extent) := by
  obtain ⟨-, -, -, -, -, htiles⟩ := validate_eq_ok validate_pack
  have hparts : ((tensorTable Zeros.config).map fun x => payload x.2).map List.length =
      ((pack Sum).tensors.map TensorEntry.extent).map Prod.snd := by decide +kernel
  have hcut := htiles.cut_flatten (List.length_nil (α := UInt8)) hparts
  have hshapes : ((tensorTable Zeros.config).map fun x => payload x.2) =
      (pack Sum).tensors.map fun e => payload e.shape := by decide +kernel
  have hwords : ∀ e ∈ (pack Sum).tensors,
      (e.storage = .f32 → ((chunksExact 4 (payload e.shape)).map ofLe32).all singleFinite) ∧
      (e.storage = .i8Row →
        ((chunksExact 4 ((payload e.shape).drop e.shape.prod)).map ofLe32).all fun s =>
          singleFinite s && decide (0 < order s)) := by decide +kernel
  rw [List.nil_append, List.map_map, hshapes] at hcut
  intro e he
  have hpart : cut bytes e.extent = payload e.shape := by
    rw [bytes, hshapes]
    exact List.map_inj_left.mp hcut e he
  rw [hpart]
  simp only [List.all_eq_true, Bool.and_eq_true, decide_eq_true_eq] at hwords
  exact ⟨(sha256_of_mem e he).symm, (hwords e he).1, (hwords e he).2⟩

end Manifest.Sample

open Manifest.Sample Sha256 in
theorem validated_manifest_loads_zeros : (pack Sum).validate = .ok () ∧
    ∀ (k : Kernels ℚ Tensor) (q : Kernels ℚ QTensor), ∃ b model,
      (((pack Sum).tensors.map fun e => cut bytes e.extent).forM (Builder.pushInPlace .bits32)).run
        ⟨pack Sum, Hashing.zero, 0, ∅⟩ = (.ok (), b) ∧ b.finish k q = .ok model := by
  obtain ⟨-, -, -, hload, -⟩ := validated_manifest_loads validate_pack
  exact ⟨validate_pack, fun k q => hload .bits32 k q Hashing.zero bytes (by decide +kernel) intact⟩

end IcLaya
