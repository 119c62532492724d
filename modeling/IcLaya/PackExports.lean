import IcLaya.PackReading

/-!
# What the pack exporters write (`tools/pack_checkpoint.py`, `tools/quantize_pack.py`)

In a pack of either exporter the entries lie one behind the other and cover the bytes of the model,
each with the length and the hash of its own bytes. Every pack of the first exporter is one that the
second one accepts.
-/
namespace IcLaya.PackExporter
open Fallible JsonDocuments SingleArithmetic WordStreams

section Dicts
variable {F : Type} {k k' : String}

theorem get_cons (x : Str × Json F) (d : Dict F) (k : String) :
    Dict.get? (x :: d) k = if x.1 = .text k then some x.2 else Dict.get? d k := by
  by_cases hx : x.1 = .text k <;> simp [Dict.get?, hx]

/-- An entry that is replaced. -/
theorem get_replace (d : Dict F) (v : Json F) (k' : String) :
    Dict.get? (d.map fun x => if x.1 = .text k then (x.1, v) else x) k' =
      if k' = k then (Dict.get? d k').map fun _ => v else Dict.get? d k' := by
  induction d with
  | nil => simp [Dict.get?]
  | cons x d ih =>
    rw [List.map_cons, get_cons, get_cons, ih]
    by_cases hx : x.1 = .text k' <;> by_cases hk : k' = k <;> simp [hx, hk]
    · grind
    · grind

theorem get_set (d : Dict F) (k : String) (v : Json F) (k' : String) :
    Dict.get? (Dict.set d k v) k' = if k' = k then some v else Dict.get? d k' := by
  rw [Dict.set]
  split
  · next hany =>
    rw [get_replace]
    have hsome : (Dict.get? d k).isSome = true := by
      rw [Dict.get?, Option.isSome_map, List.find?_isSome]
      simpa using hany
    obtain ⟨x, hx⟩ := Option.isSome_iff_exists.mp hsome
    by_cases hk : k' = k
    · rw [if_pos hk, if_pos hk, hk, hx, Option.map_some]
    · rw [if_neg hk, if_neg hk]
  · next hany =>
    have hnone : d.find? (fun x => x.1 = .text k) = none := by
      rw [List.find?_eq_none]
      exact fun x hx hk => hany (List.any_eq_true.mpr ⟨x, hx, hk⟩)
    by_cases hk : k' = k
    · subst hk
      simp [Dict.get?, hnone]
    · have hne : k ≠ k' := fun he => hk he.symm
      simp [Dict.get?, hk, hne]

end Dicts

section Tiles
variable {F Digest : Type} [Hashing Digest]

/-- An entry for bytes at an offset. -/
def Records (Digest : Type) [Hashing Digest] (e : Json F) (offset : ℕ) (raw : List UInt8) : Prop :=
  ∃ d, e = .dict d ∧ Dict.get? d "offset" = some (.int offset) ∧
    Dict.get? d "length" = some (.int raw.length) ∧ Dict.get? d "sha256" = some (sha Digest raw)

/-- Entries that lie one behind the other and cover the bytes. -/
inductive Tiles (Digest : Type) [Hashing Digest] : List (Json F) → List UInt8 → Prop
  | nil : Tiles Digest [] []
  | snoc {es : List (Json F)} {bytes raw : List UInt8} {e : Json F} (h : Tiles Digest es bytes)
      (he : Records Digest e bytes.length raw) : Tiles Digest (es ++ [e]) (bytes ++ raw)

/-- The entries tile the bytes so far. -/
structure Written.Tiled (Digest : Type) [Hashing Digest] (w : Written F) : Prop where
  position : w.position = w.bytes.length
  tiles : Tiles Digest w.entries w.bytes

theorem Written.tiled_start : (⟨[], 0, []⟩ : Written F).Tiled Digest := ⟨rfl, .nil⟩

theorem Written.Tiled.snoc {w : Written F} (h : w.Tiled Digest) {d : Dict F} {raw : List UInt8}
    (hd : Records Digest (.dict d) w.position raw) :
    (⟨w.entries ++ [.dict d], w.position + raw.length, w.bytes ++ raw⟩ : Written F).Tiled Digest :=
  ⟨by rw [List.length_append, h.position], .snoc h.tiles (h.position ▸ hd)⟩

/-- A directory whose entries tile its model, with the length of the model and the hash of the
tokenizer. -/
structure Directory.Tiled (Digest : Type) [Hashing Digest] (dir : Directory F) (d : Dict F)
    (es : List (Json F)) : Prop where
  manifest : dir.manifest = .dict d
  tensors : Dict.get? d "tensors" = some (.list es)
  tiles : Tiles Digest es dir.model
  total : Dict.get? d "total_bytes" = some (.int dir.model.length)
  tokenizer : Dict.get? d "tokenizer_sha256" = some (sha Digest dir.tokenizer)

end Tiles

section Export
variable {F Digest : Type} [Hashing Digest] [Doubles F] {mapped : Dict F}
  {index : List (String × Tensor)} {w w' : Written F} {x : String × List ℕ}

variable (Digest) in
omit [Doubles F] in
theorem get_entryOf (name : String) (shape : List ℕ) (offset : ℕ) (raw : List UInt8) :
    let d : Dict F := entryOf Digest name shape offset raw
    Dict.get? d "name" = some (.str (.text name)) ∧ Dict.get? d "shape" = some (naturals shape) ∧
      Dict.get? d "offset" = some (.int offset) ∧ Dict.get? d "length" = some (.int raw.length) ∧
      Dict.get? d "sha256" = some (sha Digest raw) := by
  simp [entryOf, get_cons]

/-- The bytes of a tensor of single floats. -/
structure Stored (x : String × List ℕ) (raw : List UInt8) : Prop where
  length : raw.length = x.2.prod * 4
  small : raw.length ≤ maxTensor
  finite : ∀ v ∈ (chunksExact 4 raw).map ofLe32, singleFinite v

theorem writeTensor_stored (h : writeTensor Digest mapped index w x = .ok w') :
    ∃ raw, Stored x raw ∧ w.position + raw.length ≤ maxTotal ∧
      w' = ⟨w.entries ++ [.dict (entryOf Digest x.1 x.2 w.position raw)], w.position + raw.length,
        w.bytes ++ raw⟩ := by
  simp only [writeTensor, bind_eq_ok, rejectIf_eq_ok, pure_eq_ok] at h
  obtain ⟨_, -, values, -, _, hdims, _, hfinite, _, hlimits, rfl⟩ := h
  rw [not_or, not_lt, not_lt] at hlimits
  refine ⟨le32s values.values, ⟨?_, hlimits.1, ?_⟩, hlimits.2, rfl⟩
  · rw [length_le32s, values.length_eq, not_not.mp hdims]
  · rw [chunksExact_le32s]
    intro v hv
    by_contra hbad
    exact hfinite ⟨v, hv, hbad⟩

theorem Written.Tiled.writeTensor (h : w.Tiled Digest)
    (hw : PackExporter.writeTensor Digest mapped index w x = .ok w') : w'.Tiled Digest := by
  obtain ⟨raw, -, -, rfl⟩ := writeTensor_stored hw
  have hentry := get_entryOf (F := F) Digest x.1 x.2 w.position raw
  exact h.snoc ⟨_, rfl, hentry.2.2⟩

/-- What `exportPack` writes. -/
theorem exportPack_eq_ok {isJson : List UInt8 → Bool} {a : ExportArgs F} {dir : Directory F}
    (h : exportPack Digest isJson a = .ok dir) :
    ∃ c mapped expected index w d, validateConfig c = .ok () ∧ shapes c = .ok expected ∧
      expected.toList.foldlM (writeTensor Digest mapped index) ⟨[], 0, []⟩ = .ok w ∧
      dir = ⟨.dict d, w.bytes, a.tokenizer⟩ ∧
      Dict.get? d "format" = some (.str (.text f32Format)) ∧
      Dict.get? d "config" = some (.dict c) ∧
      Dict.get? d "tensors" = some (.list w.entries) ∧
      Dict.get? d "total_bytes" = some (.int w.position) ∧
      Dict.get? d "tokenizer_sha256" = some (sha Digest a.tokenizer) := by
  simp only [exportPack, bind_eq_ok, rejectIf_eq_ok, pure_eq_ok] at h
  obtain ⟨_, -, _, -, _, -, c, hc, _, hvalid, mapped, -, expected, hexpected, _, -, _, -, _, -,
    index, -, w, hw, rfl⟩ := h
  refine ⟨c, mapped, expected, index, w, _, hvalid, hexpected, hw, rfl, ?_⟩
  have hconfig : a.config = .dict c := by
    cases hd : a.config with
    | dict d =>
      rw [hd] at hc
      cases hc
      rfl
    | _ =>
      rw [hd] at hc
      cases hc
  simp [get_cons, hconfig]

/-- The entries of a pack of single floats tile its model. -/
theorem exportPack_tiled {isJson : List UInt8 → Bool} {a : ExportArgs F} {dir : Directory F}
    (h : exportPack Digest isJson a = .ok dir) : ∃ d es, dir.Tiled Digest d es := by
  obtain ⟨c, mapped, expected, index, w, d, -, -, hw, rfl, -, -, htensors, htotal, htokenizer⟩ :=
    exportPack_eq_ok h
  have htiled := foldlM_preserves (fun w x w' hw hx => Written.Tiled.writeTensor hw hx)
    Written.tiled_start hw
  exact ⟨d, w.entries, rfl, htensors, htiled.tiles, by rw [htotal, htiled.position], htokenizer⟩

end Export

section Quantize
variable {F Digest : Type} [Hashing Digest] [Doubles F]

omit [Doubles F] in
theorem get_restored (entry : Dict F) (storage : String) (offset : ℕ) (raw : List UInt8) :
    Records Digest (.dict (restored Digest entry storage offset raw)) offset raw := by
  refine ⟨_, rfl, ?_, ?_, ?_⟩ <;> simp [restored, get_set]

omit [Doubles F] in
theorem quantizeEntry_tiled {expected : Shapes} {x x' : Written F × ℕ × List UInt8} {e : Json F}
    (hx : x.1.Tiled Digest) (h : quantizeEntry Digest expected x e = .ok x') :
    x'.1.Tiled Digest := by
  obtain ⟨w, sourceOffset, src⟩ := x
  simp only [quantizeEntry, bind_eq_ok, rejectIf_eq_ok, pure_eq_ok] at h
  obtain ⟨entry, -, name, -, shape, -, _, -, _, -, _, -, _, -, _, -, _, -, _, -, _, -, rfl⟩ := h
  exact hx.snoc (get_restored entry _ _ _)

omit [Doubles F] in
theorem mapM_integers {f : Json F → Option ℤ} (hint : ∀ n, f (.int n) = some n)
    (hother : ∀ v, (∀ n, v ≠ .int n) → f v = none) {xs : List (Json F)} {ms : List ℤ} :
    xs.mapM f = some ms ↔ xs = ms.map .int := by
  induction xs generalizing ms with
  | nil => cases ms <;> simp
  | cons x xs ih =>
    rw [List.mapM_cons]
    by_cases hx : ∃ n, x = .int n
    · obtain ⟨n, rfl⟩ := hx
      rw [hint]
      cases ms with
      | nil => simp [Option.bind_eq_some_iff]
      | cons m ms => simp [Option.bind_eq_some_iff, ← ih, and_comm]
    · rw [hother x fun n hn => hx ⟨n, hn⟩]
      cases ms with
      | nil => simp
      | cons m ms =>
        have hne : x ≠ .int m := fun hm => hx ⟨m, hm⟩
        simp [hne]

omit [Doubles F] in
theorem isNaturals_iff {ns : List ℕ} {v : Json F} : isNaturals ns v = true ↔ v = naturals ns := by
  cases v with
  | list xs =>
    rw [isNaturals, decide_eq_true_iff, naturals, Json.list.injEq, List.map_id']
    refine mapM_integers ?_ fun v hv => ?_
    · exact fun n => rfl
    · cases v with
      | int n => exact absurd rfl (hv n)
      | _ => rfl
  | _ => simp [isNaturals, naturals]

/-- The entries of a pack of signed bytes tile its model. -/
theorem quantize_tiled {source dir : Directory F} (h : quantize Digest source = .ok dir) :
    ∃ d es, dir.Tiled Digest d es := by
  simp only [quantize, bind_eq_ok, rejectIf_eq_ok, pure_eq_ok] at h
  obtain ⟨manifest, -, _, -, _, -, _, -, c, -, _, -, expected, -, _, -, tensors, -, names, -, _, -,
    total, -, _, -, digest, hdigest, _, hsame, ⟨w, sourceOffset, rest⟩, hw, _, -, rfl⟩ := h
  have htiled : w.Tiled Digest := foldlM_preserves
    (P := fun x : Written F × ℕ × List UInt8 => x.1.Tiled Digest)
    (fun x e x' hx he => quantizeEntry_tiled hx he) Written.tiled_start hw
  have hkept : Dict.get? manifest "tokenizer_sha256" = some (sha Digest source.tokenizer) := by
    rw [item, okOr_eq_ok] at hdigest
    rw [hdigest, isNaturals_iff.mp (not_not.mp hsame)]
    rfl
  refine ⟨_, w.entries, rfl, ?_, htiled.tiles, ?_, ?_⟩
  · simp [get_set]
  · simp [get_set, htiled.position]
  · simp [get_set, hkept]

variable (Digest) in
omit [Doubles F] in
/-- An entry of a pack of single floats is accepted with its bytes. -/
theorem quantizeEntry_stored {expected : Shapes} {x : String × List ℕ} {raw : List UInt8}
    (hx : expected[x.1]? = some x.2) (hs : Stored x raw) (q : Written F) (offset : ℕ)
    (rest : List UInt8) :
    ∃ q', quantizeEntry Digest expected (q, offset, raw ++ rest)
      (.dict (entryOf Digest x.1 x.2 offset raw)) = .ok (q', offset + raw.length, rest) := by
  obtain ⟨hname, hshape, hoffset, hlength, hdigest⟩ :=
    get_entryOf (F := F) Digest x.1 x.2 offset raw
  have htake : (raw ++ rest).take (x.2.prod * 4) = raw := List.take_left' hs.length
  have hdrop : (raw ++ rest).drop (x.2.prod * 4) = rest := List.drop_left' hs.length
  have hvalues : ((chunksExact 4 raw).map ofLe32).length = x.2.prod := by
    rw [map_chunksExact, List.length_map, List.length_range, hs.length,
      Nat.mul_div_cancel _ (by decide)]
  have hsmall := hs.small
  rw [hs.length] at hsmall hlength
  let values := (chunksExact 4 raw).map ofLe32
  let stored := quantizeTensor x.2 values
  refine ⟨⟨q.entries ++ [.dict (restored Digest (entryOf Digest x.1 x.2 offset raw) stored.1
    q.position stored.2)], q.position + stored.2.length, q.bytes ++ stored.2⟩, ?_⟩
  simp only [quantizeEntry, asDict, asInt, intItem, item, hname, hshape, hoffset, hlength, hdigest,
    hx, okOr, pure_bind, ok_bind, htake, hdrop]
  rw [rejectIf_bind, rejectIf_bind, rejectIf_bind, rejectIf_bind, hs.length]
  · rfl
  · rintro ⟨v, hv, hbad⟩
    exact hbad (hs.finite v hv)
  · exact not_not.mpr hvalues
  · exact not_not.mpr (isNaturals_iff.mpr rfl)
  · simp [isNaturals_iff, hsmall]

/-- Entries and bytes that the second exporter accepts for the given tensors. -/
structure Acceptable (Digest : Type) [Hashing Digest] (expected : Shapes)
    (xs : List (String × List ℕ)) (offset : ℕ) (es : List (Json F)) (bytes : List UInt8) : Prop where
  names : (es.mapM fun e => do item (← asDict e) "name") =
    (.ok (xs.map fun x => .str (.text x.1)) : Py (List (Json F)))
  count : es.length = xs.length
  covers : ∀ x ∈ xs, x.2.prod * 4 ≤ bytes.length
  accepted : ∀ (q : Written F) (rest : List UInt8), ∃ q', es.foldlM (quantizeEntry Digest expected)
    (q, offset, bytes ++ rest) = .ok (q', offset + bytes.length, rest)

omit [Doubles F] in
theorem Acceptable.cons {expected : Shapes} {x : String × List ℕ} {xs : List (String × List ℕ)}
    {offset : ℕ} {es : List (Json F)} {raw bytes : List UInt8} (hx : expected[x.1]? = some x.2)
    (hs : Stored x raw) (h : Acceptable Digest expected xs (offset + raw.length) es bytes) :
    Acceptable Digest expected (x :: xs) offset (.dict (entryOf Digest x.1 x.2 offset raw) :: es)
      (raw ++ bytes) := by
  refine ⟨?_, ?_, ?_, ?_⟩
  · have hname := (get_entryOf (F := F) Digest x.1 x.2 offset raw).1
    rw [List.mapM_cons, h.names, asDict, pure_bind, item, hname]
    rfl
  · rw [List.length_cons, List.length_cons, h.count]
  · intro y hy
    rw [List.length_append]
    rcases List.mem_cons.mp hy with rfl | hy
    · have := hs.length
      omega
    · have := h.covers y hy
      omega
  · intro q rest
    obtain ⟨q₁, hfirst⟩ := quantizeEntry_stored Digest hx hs q offset (bytes ++ rest)
    obtain ⟨q₂, hrest⟩ := h.accepted q₁ rest
    refine ⟨q₂, ?_⟩
    rw [List.foldlM_cons, List.append_assoc, hfirst, ok_bind, hrest, List.length_append,
      Nat.add_assoc]

/-- What the rounds of `exportPack` write is accepted. -/
theorem writeTensors_acceptable {expected : Shapes} {mapped : Dict F}
    {index : List (String × Tensor)} {xs : List (String × List ℕ)} {w w' : Written F}
    (hxs : ∀ x ∈ xs, expected[x.1]? = some x.2)
    (h : xs.foldlM (writeTensor Digest mapped index) w = .ok w') :
    ∃ es bytes, w' = ⟨w.entries ++ es, w.position + bytes.length, w.bytes ++ bytes⟩ ∧
      Acceptable Digest expected xs w.position es bytes := by
  induction xs generalizing w with
  | nil =>
    cases h
    exact ⟨[], [], by simp, rfl, rfl, by simp, fun q rest => ⟨q, rfl⟩⟩
  | cons x xs ih =>
    obtain ⟨w₁, hx, hrest⟩ := foldlM_cons_eq_ok.mp h
    obtain ⟨raw, hs, -, rfl⟩ := writeTensor_stored hx
    obtain ⟨es, bytes, rfl, hacc⟩ := ih (fun y hy => hxs y (List.mem_cons_of_mem x hy)) hrest
    refine ⟨_, _, ?_, hacc.cons (hxs x List.mem_cons_self) hs⟩
    simp [Nat.add_assoc]

theorem shapes_out {c : Dict F} {expected : Shapes} (h : shapes c = .ok expected) :
    expected["scorer.out.bias"]? = some [1] := by
  simp only [shapes, bind_eq_ok, pure_eq_ok] at h
  obtain ⟨_, -, _, -, _, -, _, -, _, -, _, -, _, -, rfl⟩ := h
  simp [insertAll]

/-- The second exporter accepts every pack of the first, and tiles its own. -/
theorem quantize_exported {isJson : List UInt8 → Bool} {a : ExportArgs F} {source : Directory F}
    (h : exportPack Digest isJson a = .ok source) :
    ∃ dir d es, quantize Digest source = .ok dir ∧ dir.Tiled Digest d es := by
  obtain ⟨c, mapped, expected, index, w, d, hvalid, hexpected, hw, rfl, hformat, hconfig, htensors,
    htotal, htokenizer⟩ := exportPack_eq_ok h
  have hxs : ∀ x ∈ expected.toList, expected[x.1]? = some x.2 :=
    fun x hx => Std.ExtTreeMap.mem_toList_iff_getElem?_eq_some.mp hx
  obtain ⟨es, bytes, rfl, hacc⟩ := writeTensors_acceptable hxs hw
  have hlimit := foldlM_preserves (P := fun w : Written F => w.position ≤ maxTotal)
    (fun w x w' _ hx => by
      obtain ⟨raw, -, hle, rfl⟩ := writeTensor_stored hx
      exact hle) (Nat.zero_le _) hw
  have hpositive : 0 < bytes.length := by
    have hmem := Std.ExtTreeMap.mem_toList_iff_getElem?_eq_some.mpr (shapes_out hexpected)
    exact Nat.lt_of_lt_of_le (by decide) (hacc.covers _ hmem)
  have hcount : es.length = expected.size := by rw [hacc.count, Std.ExtTreeMap.length_toList]
  obtain ⟨q, hq⟩ := hacc.accepted ⟨[], 0, []⟩ []
  rw [List.append_nil] at hq
  simp only [List.nil_append, Nat.zero_add] at htensors htotal hlimit hq ⊢
  have hitems : item d "format" = .ok (.str (.text f32Format)) ∧ item d "config" = .ok (.dict c) ∧
      item d "tensors" = .ok (.list es) ∧ item d "total_bytes" = .ok (.int bytes.length) ∧
      item d "tokenizer_sha256" = .ok (sha Digest a.tokenizer) := by
    simp [item, hformat, hconfig, htensors, htotal, htokenizer]
  obtain ⟨hformat, hconfig, htensors, htotal, htokenizer⟩ := hitems
  suffices hok : (quantize Digest (⟨.dict d, bytes, a.tokenizer⟩ : Directory F)).isOk = true by
    obtain ⟨dir, hdir⟩ := exists_eq_ok hok
    obtain ⟨d', es', htiled⟩ := quantize_tiled hdir
    exact ⟨dir, d', es', hdir, htiled⟩
  rw [quantize, asDict, pure_bind, hformat, ok_bind, rejectIf_bind (by simp [isText]), hconfig,
    ok_bind, asDict, pure_bind, hvalid, ok_bind, hexpected, ok_bind, htensors, ok_bind, asList,
    pure_bind, hacc.names, ok_bind, rejectIf_bind, intItem, htotal, ok_bind, asInt, pure_bind,
    rejectIf_bind, htokenizer, ok_bind, rejectIf_bind, hq, ok_bind]
  · exact congrArg Except.isOk (rejectIf_bind (not_not.mpr rfl) _ _)
  · exact not_not.mpr (isNaturals_iff.mpr rfl)
  · simp [hpositive, hlimit]
  · simp [hcount, isText]

end Quantize

/-! Zeros for the smallest configuration, each tensor under its name in the table. -/
namespace Sample
open PackReading.Sample (config)

def zeroTensor (shape : List ℕ) : Tensor := ⟨shape, List.replicate shape.prod 0, by simp⟩

def source (c : Dict ℚ) : List (String × Tensor) :=
  match shapes c with
  | .ok m => m.toList.map fun x => (x.1, zeroTensor x.2)
  | .error _ => []

def args : ExportArgs ℚ where
  files := [source config]
  config := .dict config
  mapping := .dict ((source config).map fun x => (.text x.1, .str (.text x.1)))
  tokenizer := asBytes "\x7b\x7d"
  repo := .text "laya/zeros"
  revision := .text "0"
  qtypes := [0, 1, 2]
  testOnly := true

example : (exportPack Sha256.Checksum (fun _ => true) args).isOk = true := by decide +kernel

end Sample
end IcLaya.PackExporter
