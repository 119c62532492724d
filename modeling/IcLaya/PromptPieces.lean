import IcLaya.Fixtures
import IcLaya.LayaModel
import IcLaya.MarkedPieces

/-!
# The pieces of a prompt

A rendered prompt is its question, its options and its state between special tokens that none
of them holds. So content cannot forge a delimiter, the pieces are read back in one way, and
the model accepts what the compiler wrote.
-/
namespace IcLaya
open Fallible MarkedPieces

variable {Digest : Type} [Hashing Digest]

/-- The pieces of a prompt, as they are encoded one by one. -/
structure Pieces where
  question : List UInt32
  options : List (List UInt32)
  state : List UInt32

def SpecialTokens.ids (s : SpecialTokens) : List UInt32 := [s.cls, s.sep, s.mask, s.pad]

theorem SpecialTokens.mask_ne_sep {s : SpecialTokens} (h : s.ids.Nodup) : s.mask ≠ s.sep := by
  simp only [ids, List.nodup_cons, List.mem_cons, not_or] at h
  exact fun he => h.2.1.1 he.symm

theorem SpecialTokens.mask_ne_cls {s : SpecialTokens} (h : s.ids.Nodup) : s.mask ≠ s.cls := by
  simp only [ids, List.nodup_cons, List.mem_cons, not_or] at h
  exact fun he => h.1.2.1 he.symm

theorem control_eq_false {ids : List UInt32} {s : SpecialTokens} :
    control ids s = false ↔ ∀ x ∈ ids, x ∉ s.ids := by
  simp [control, SpecialTokens.ids]

namespace Pieces

/-- The prompt of the pieces. -/
def layout (s : SpecialTokens) (p : Pieces) : List UInt32 :=
  s.cls :: p.question ++ s.sep :: (marked s.mask p.options ++ s.sep :: (p.state ++ [s.sep]))

/-- No piece is empty, and none holds a special token. -/
structure Clean (s : SpecialTokens) (p : Pieces) : Prop where
  nonempty : p.question ≠ [] ∧ (∀ o ∈ p.options, o ≠ []) ∧ p.state ≠ []
  question : ∀ x ∈ p.question, x ∉ s.ids
  options : ∀ o ∈ p.options, ∀ x ∈ o, x ∉ s.ids
  state : ∀ x ∈ p.state, x ∉ s.ids

/-- The pieces are the whole encodings of the texts of a schema and of a state. -/
structure Encode (t : TextTokenizer Digest) (s : Schema) (text : String) (p : Pieces) : Prop where
  question : t.encodePiece (s.primitive.text ++ " question: " ++ s.instructions) = .ok p.question
  options : List.Forall₂ (fun o ids => t.encodePiece (" " ++ o.text) = .ok ids) s.options p.options
  state : t.encodePiece text = .ok p.state

omit [Hashing Digest] in
/-- A text has one encoding. -/
theorem Encode.unique {t : TextTokenizer Digest} {s : Schema} {text : String} {p p' : Pieces}
    (h : p.Encode t s text) (h' : p'.Encode t s text) : p = p' := by
  have hquestion := Except.ok.inj (h.question.symm.trans h'.question)
  have hstate := Except.ok.inj (h.state.symm.trans h'.state)
  have hoptions : p.options = p'.options :=
    Relator.RightUnique.forall₂ (fun _ _ _ ha hb => Except.ok.inj (ha.symm.trans hb)) h.options
      h'.options
  cases p
  cases p'
  simp only at hquestion hoptions hstate
  rw [hquestion, hoptions, hstate]

/-- One prompt has one sequence of clean pieces. -/
theorem layout_inj {s : SpecialTokens} {p p' : Pieces} (hs : s.ids.Nodup) (hp : p.Clean s)
    (hp' : p'.Clean s) (h : p.layout s = p'.layout s) : p = p' := by
  have hsep : s.sep ∈ s.ids := by simp [SpecialTokens.ids]
  have hmask : s.mask ∈ s.ids := by simp [SpecialTokens.ids]
  obtain ⟨hquestion, -, h⟩ := piece_inj hp.question hp'.question hsep hsep (List.cons.inj h).2
  obtain ⟨hoptions, h⟩ := marked_inj hmask hsep (SpecialTokens.mask_ne_sep hs) hp.options
    hp'.options h
  obtain ⟨hstate, -, -⟩ := piece_inj hp.state hp'.state hsep hsep h
  cases p
  cases p'
  simp only at hquestion hoptions hstate
  rw [hquestion, hoptions, hstate]

end Pieces

/-- What stands before the first option. -/
def promptHead (s : SpecialTokens) (question : List UInt32) : List UInt32 :=
  s.cls :: question ++ [s.sep]

theorem length_promptHead (s : SpecialTokens) (q : List UInt32) :
    (promptHead s q).length = q.length + 2 := by
  simp [promptHead]

theorem Pieces.layout_eq (s : SpecialTokens) (p : Pieces) : p.layout s =
    promptHead s p.question ++ (marked s.mask p.options ++ s.sep :: (p.state ++ [s.sep])) := by
  simp [layout, promptHead]

/-- The mask stands at the options and nowhere else. -/
theorem idxsOf_mask {s : SpecialTokens} {q : List UInt32} {os : List (List UInt32)}
    (hs : s.ids.Nodup) (hq : ∀ x ∈ q, x ∉ s.ids) (ho : ∀ o ∈ os, ∀ x ∈ o, x ∉ s.ids)
    (post : List UInt32) (hpost : s.mask ∉ post) :
    (promptHead s q ++ (marked s.mask os ++ post)).idxsOf s.mask = starts (q.length + 2) os := by
  have hmask : s.mask ∈ s.ids := by simp [SpecialTokens.ids]
  have hhead : s.mask ∉ promptHead s q := by
    simp only [promptHead, List.cons_append, List.mem_cons, List.mem_append, List.not_mem_nil,
      or_false, not_or]
    exact ⟨SpecialTokens.mask_ne_cls hs, fun hm => hq _ hm hmask, SpecialTokens.mask_ne_sep hs⟩
  rw [idxsOf_row hhead (fun o hmem hm => ho o hmem _ hm hmask) hpost, length_promptHead]

/-- The markers at the starts of the options pass every check of markers. -/
theorem markersIncrease_starts {full : List UInt32} {m : UInt32} (pre : List UInt32)
    (ps : List (List UInt32)) (post : List UInt32) (prev : Option UInt32) (hfull : full = pre ++ (marked m ps ++ post)) (hlen : full.length < 2 ^ 32)
    (hprev : ∀ k ∈ prev, k.toNat < pre.length) :
    markersIncrease full m prev ((starts pre.length ps).map UInt32.ofNat) = true := by
  induction ps generalizing pre prev with
  | nil => rfl
  | cons p ps ih =>
    have hpre : pre.length < 2 ^ 32 := by
      refine Nat.lt_of_le_of_lt ?_ hlen
      rw [hfull, List.length_append]
      exact Nat.le_add_right _ _
    have hword : (UInt32.ofNat pre.length).toNat = pre.length := UInt32.toNat_ofNat_of_lt' hpre
    have hat : full[(UInt32.ofNat pre.length).toNat]? = some m := by
      rw [hword, hfull, List.getElem?_append_right (Nat.le_refl _), Nat.sub_self]
      rfl
    have hlater : prev.all (· < UInt32.ofNat pre.length) = true := by
      rw [Option.all_eq_true]
      intro k hk
      exact decide_eq_true (UInt32.lt_iff_toNat_lt.mpr (by rw [hword]; exact hprev k hk))
    have hrest := ih (pre ++ m :: p) (some (UInt32.ofNat pre.length)) (by simpa using hfull)
      (fun k hk => by
        cases hk
        rw [hword]
        simp)
    simp only [starts, List.map_cons, markersIncrease, hat, hlater, Bool.and_eq_true]
    exact ⟨⟨by simp, trivial⟩, by simpa using hrest⟩

section Compiled
variable {t : TextTokenizer Digest} {s : Schema} {qtypeId : UInt32} {c : CompiledSchema Digest}

omit [Hashing Digest] in
/-- The loop over the options writes each whole encoding behind a mask, and where the mask is. -/
theorem compileOptions_eq_ok {special : SpecialTokens} {os : List OptionDef}
    {pre pre' markers markers' : List UInt32}
    (h : compileOptions t special os pre markers = .ok (pre', markers')) :
    ∃ ids, List.Forall₂ (fun o i => t.encodePiece (" " ++ o.text) = .ok i) os ids ∧
      (∀ i ∈ ids, i ≠ [] ∧ ∀ x ∈ i, x ∉ special.ids) ∧ pre' = pre ++ marked special.mask ids ∧
      markers' = markers ++ (starts pre.length ids).map UInt32.ofNat := by
  induction os generalizing pre markers with
  | nil =>
    cases h
    exact ⟨[], .nil, by simp, by simp, by simp [starts]⟩
  | cons o os ih =>
    simp only [compileOptions, bind_eq_ok, rejectIf_eq_ok, not_or] at h
    obtain ⟨i, hi, _, hlength, _, hcontrol, h⟩ := h
    obtain ⟨ids, hids, hclean, hpre, hmarkers⟩ := ih h
    have hi' := control_eq_false.mp (Bool.eq_false_iff.mpr hcontrol)
    refine ⟨i :: ids, .cons hi hids, List.forall_mem_cons.mpr ⟨⟨hlength.1, hi'⟩, hclean⟩, ?_, ?_⟩
    · rw [hpre]
      simp
    · rw [hmarkers]
      simp [starts]

/-- What a compiled schema is made of. -/
structure CompiledFrom (t : TextTokenizer Digest) (s : Schema) (qtypeId : UInt32)
    (c : CompiledSchema Digest) (q : List UInt32) (os : List (List UInt32)) : Prop where
  valid : validateSchema s = .ok ()
  qtype : qtypeId < 3
  distinct : t.specialTokens.ids.Nodup
  question : t.encodePiece (s.primitive.text ++ " question: " ++ s.instructions) = .ok q
  options : List.Forall₂ (fun o i => t.encodePiece (" " ++ o.text) = .ok i) s.options os
  cleanQuestion : q ≠ [] ∧ ∀ x ∈ q, x ∉ t.specialTokens.ids
  cleanOptions : ∀ o ∈ os, o ≠ [] ∧ ∀ x ∈ o, x ∉ t.specialTokens.ids
  short : c.prefixIds.length ≤ maxPrefix
  result : c = ⟨s, s.digest t.fingerprint, t.fingerprint,
    promptHead t.specialTokens q ++ (marked t.specialTokens.mask os ++ [t.specialTokens.sep]),
    (starts (q.length + 2) os).map UInt32.ofNat, t.specialTokens, qtypeId⟩

theorem compile_eq_ok (h : compile s t qtypeId = .ok c) :
    ∃ q os, CompiledFrom t s qtypeId c q os := by
  simp only [compile, bind_eq_ok, rejectIf_eq_ok, not_or, pure_eq_ok, not_not] at h
  obtain ⟨_, hvalid, _, hqtype, _, ⟨hdistinct, -⟩, _, -, q, hq, _, ⟨hne, hcontrol⟩,
    ⟨pre, markers⟩, hoptions, _, hshort, rfl⟩ := h
  obtain ⟨os, hos, hclean, rfl, rfl⟩ := compileOptions_eq_ok hoptions
  refine ⟨q, os, hvalid, UInt32.not_le.mp hqtype, hdistinct, hq, hos,
    ⟨hne, control_eq_false.mp (Bool.eq_false_iff.mpr hcontrol)⟩, hclean, Nat.not_lt.mp hshort, ?_⟩
  simp [promptHead]

theorem optionCount {s : Schema} (h : validateSchema s = .ok ()) :
    2 ≤ s.options.length ∧ s.options.length ≤ 7 := by
  simp only [validateSchema, bind_eq_ok, rejectIf_eq_ok, not_or, not_not] at h
  obtain ⟨_, ⟨-, -, -, -, hcount⟩, _⟩ := h
  cases hp : s.primitive <;>
    simp only [hp, Primitive.countValid, Bool.decide_and, Bool.and_eq_true, decide_eq_true_eq]
      at hcount <;> omega

namespace CompiledFrom
variable {q : List UInt32} {os : List (List UInt32)}

theorem length_options (h : CompiledFrom t s qtypeId c q os) : os.length = s.options.length :=
  h.options.length_eq.symm

theorem cleanMarks (h : CompiledFrom t s qtypeId c q os) :
    ∀ o ∈ os, ∀ x ∈ o, x ∉ t.specialTokens.ids :=
  fun o ho => (h.cleanOptions o ho).2

/-- The compiler's own check accepts what it wrote. -/
theorem validateCompiled (h : CompiledFrom t s qtypeId c q os) : validateCompiled c = .ok () := by
  obtain ⟨hlo, hhi⟩ := optionCount h.valid
  have hos := h.length_options
  have hshort := h.short
  have hmask := SpecialTokens.mask_ne_sep h.distinct
  rw [h.result] at hshort ⊢
  have hidxs := idxsOf_mask h.distinct h.cleanQuestion.2 h.cleanMarks
    [t.specialTokens.sep] (by simpa using hmask)
  have hcount := congrArg List.length hidxs
  rw [List.length_idxsOf, length_starts] at hcount
  have hmarkers := markersIncrease_starts (m := t.specialTokens.mask)
    (promptHead t.specialTokens q) os [t.specialTokens.sep] none rfl
    (Nat.lt_of_le_of_lt hshort (by decide)) (by simp)
  rw [length_promptHead] at hmarkers
  have hlong : 5 ≤ (promptHead t.specialTokens q ++
      (marked t.specialTokens.mask os ++ [t.specialTokens.sep])).length := by
    have hone : 1 ≤ q.length := List.length_pos_iff.mpr h.cleanQuestion.1
    have htwo := length_le_marked t.specialTokens.mask os
    simp only [List.length_append, length_promptHead, List.length_singleton]
    omega
  simp only [IcLaya.validateCompiled, h.valid, ok_bind, hmarkers, hcount]
  refine bind_eq_ok.mpr ⟨(), rejectIf_eq_ok.mpr ?_, ?_⟩
  · simp only [not_or, not_not, Nat.not_lt, List.length_map, length_starts, hos]
    exact ⟨trivial, hshort, hlong, rfl, by simp, trivial, UInt32.not_le.mpr h.qtype⟩
  · simp [rejectIf]

/-- The rendered input is the prompt of its clean pieces. -/
theorem render_eq_ok (h : CompiledFrom t s qtypeId c q os) {text : String} {input : TokenInput}
    (hr : render c t text = .ok input) : ∃ st, t.encodePiece text = .ok st ∧
      (⟨q, os, st⟩ : Pieces).Clean t.specialTokens ∧
      input = ⟨(⟨q, os, st⟩ : Pieces).layout t.specialTokens,
        (starts (q.length + 2) os).map UInt32.ofNat, qtypeId⟩ ∧
      input.inputIds.length ≤ maxTokens := by
  simp only [render, bind_eq_ok, rejectIf_eq_ok, not_or, pure_eq_ok] at hr
  obtain ⟨_, -, _, -, _, -, _, -, st, hst, _, ⟨hne, hcontrol⟩, _, hlength, rfl⟩ := hr
  have hclean : (⟨q, os, st⟩ : Pieces).Clean t.specialTokens := by
    rw [h.result] at hcontrol
    exact ⟨⟨h.cleanQuestion.1, fun o ho => (h.cleanOptions o ho).1, hne⟩, h.cleanQuestion.2,
      h.cleanMarks, control_eq_false.mp (Bool.eq_false_iff.mpr hcontrol)⟩
  refine ⟨st, hst, hclean, ?_, ?_⟩
  · rw [h.result]
    simp [Pieces.layout_eq]
  · simp only [List.length_append, List.length_singleton]
    exact Nat.not_lt.mp hlength

/-- A marker is a word. -/
theorem marker_toNat (h : CompiledFrom t s qtypeId c q os) {k : ℕ}
    (hk : k ∈ starts (q.length + 2) os) : (UInt32.ofNat k).toNat = k := by
  have hshort := h.short
  rw [h.result] at hshort
  simp only [List.length_append, length_promptHead] at hshort
  have hlt := lt_of_mem_starts (m := t.specialTokens.mask) hk
  exact UInt32.toNat_ofNat_of_lt' (by unfold maxPrefix at hshort; unfold UInt32.size; omega)

theorem markers_toNat (h : CompiledFrom t s qtypeId c q os) :
    ((starts (q.length + 2) os).map UInt32.ofNat).map UInt32.toNat =
      starts (q.length + 2) os := by
  rw [List.map_map]
  exact (List.map_congr_left fun k hk => h.marker_toNat hk).trans (List.map_id _)

/-- The model accepts a rendered input. -/
theorem validateInput {F M : Type} [Doubles F] (h : CompiledFrom t s qtypeId c q os)
    {p : Pieces} (hq : p.question = q) (ho : p.options = os)
    (hlength : (p.layout t.specialTokens).length ≤ maxTokens) (m : LayaModel F M)
    (hmask : m.config.maskTokenId = t.specialTokens.mask) (hqtypes : m.config.qtypes = 3)
    (hvocab : ∀ v ∈ p.layout t.specialTokens, v.toNat < m.config.vocabSize) :
    m.validateInput ⟨p.layout t.specialTokens, (starts (q.length + 2) os).map UInt32.ofNat, qtypeId⟩ =
      .ok () := by
  obtain ⟨hlo, hhi⟩ := optionCount h.valid
  have hos := h.length_options
  subst hq ho
  have hmarkers := markersIncrease_starts _ _ _ none (p.layout_eq t.specialTokens)
    (Nat.lt_of_le_of_lt hlength (by decide)) (by simp)
  rw [length_promptHead] at hmarkers
  have hqtype : qtypeId.toNat < 3 := by simpa [UInt32.lt_iff_toNat_lt] using h.qtype
  simp only [LayaModel.validateInput, hmask, hqtypes, hmarkers]
  refine bind_eq_ok.mpr ⟨(), rejectIf_eq_ok.mpr ?_, by simp [rejectIf]⟩
  simp only [not_or, not_not, Nat.not_le, Nat.not_lt, List.length_map, length_starts, hos]
  refine ⟨by simp [Pieces.layout], hlength, ⟨hlo, hhi⟩, hqtype, ?_⟩
  rintro ⟨v, hv, hout⟩
  exact absurd (hvocab v hv) (Nat.not_lt.mpr hout)

end CompiledFrom

/-- Content cannot forge a prompt. The compiler's own check accepts what it compiles; a rendered
input is the prompt of the whole encodings of the texts, none of which holds a special token; the
marks are the options'; other pieces give another prompt; and the model accepts the input. -/
theorem compiled_prompts_unforgeable {F M : Type} [Doubles F] (hc : compile s t qtypeId = .ok c) :
    IcLaya.validateCompiled c = .ok () ∧
    ∀ {text : String} {input : TokenInput}, render c t text = .ok input → ∃ p : Pieces,
      p.Encode t s text ∧ p.Clean t.specialTokens ∧
      input.inputIds = p.layout t.specialTokens ∧ input.inputIds.length ≤ 128 ∧
      input.markers.map UInt32.toNat = input.inputIds.idxsOf t.specialTokens.mask ∧
      (∀ (i : ℕ) o, p.options[i]? = some o → ∃ k : UInt32, input.markers[i]? = some k ∧
        (t.specialTokens.mask :: o) <+: input.inputIds.drop k.toNat) ∧
      (∀ p' : Pieces, p'.Clean t.specialTokens → p'.layout t.specialTokens = input.inputIds →
        p' = p) ∧
      (∀ {s' qtypeId' c' text' input' p'}, compile s' t qtypeId' = .ok c' →
        render c' t text' = .ok input' → p'.Encode t s' text' → p' ≠ p →
          input'.inputIds ≠ input.inputIds) ∧
      ∀ m : LayaModel F M, m.config.maskTokenId = t.specialTokens.mask → m.config.qtypes = 3 →
        (∀ v ∈ input.inputIds, v.toNat < m.config.vocabSize) → m.validateInput input = .ok () := by
  obtain ⟨q, os, h⟩ := compile_eq_ok hc
  refine ⟨h.validateCompiled, fun {text input} hr => ?_⟩
  obtain ⟨st, hst, hclean, hinput, hlength⟩ := h.render_eq_ok hr
  subst hinput
  have hidxs : ((⟨q, os, st⟩ : Pieces).layout t.specialTokens).idxsOf t.specialTokens.mask =
      starts (q.length + 2) os := by
    rw [Pieces.layout_eq]
    refine idxsOf_mask h.distinct hclean.question hclean.options _ ?_
    have hmask : t.specialTokens.mask ∈ t.specialTokens.ids := by simp [SpecialTokens.ids]
    have hsep := SpecialTokens.mask_ne_sep h.distinct
    simp only [List.mem_cons, List.mem_append, List.not_mem_nil, or_false, not_or]
    exact ⟨hsep, fun hm => hclean.state _ hm hmask, hsep⟩
  refine ⟨⟨q, os, st⟩, ⟨h.question, h.options, hst⟩, hclean, rfl, hlength,
    h.markers_toNat.trans hidxs.symm, fun i o ho => ?_,
    fun p' hp' he => Pieces.layout_inj h.distinct hp' hclean he,
    fun hc' hr' hp' hne he => ?_,
    fun m hmask hqtypes hvocab => h.validateInput rfl rfl hlength m hmask hqtypes hvocab⟩
  · obtain ⟨k, hk, hstands⟩ := marked_at (m := t.specialTokens.mask)
      (promptHead t.specialTokens q)
      (t.specialTokens.sep :: (st ++ [t.specialTokens.sep])) ho
    rw [length_promptHead] at hk
    refine ⟨UInt32.ofNat k, by rw [List.getElem?_map, hk]; rfl, ?_⟩
    rw [h.marker_toNat (List.mem_of_getElem? hk), Pieces.layout_eq]
    exact hstands
  · obtain ⟨q', os', h'⟩ := compile_eq_ok hc'
    obtain ⟨st', hst', hclean', hinput', -⟩ := h'.render_eq_ok hr'
    have hpieces : (⟨q', os', st'⟩ : Pieces).Encode t _ _ := ⟨h'.question, h'.options, hst'⟩
    have hsame := hp'.unique hpieces
    rw [hinput'] at he
    exact hne (hsame.trans (Pieces.layout_inj h.distinct hclean' hclean he))

end Compiled

open Demo in
theorem compiled_prompts_unforgeable_refund : ∃ (c : CompiledSchema SymbolicDigest)
    (input : TokenInput) (p : Pieces), compile refundRequested fixtureTokenizer 1 = .ok c ∧
      render c fixtureTokenizer "I want my money back" = .ok input ∧
      input.inputIds = p.layout (fixtureTokenizer : TextTokenizer SymbolicDigest).specialTokens ∧
      input.markers.map UInt32.toNat = input.inputIds.idxsOf 3 ∧
      p.Clean (fixtureTokenizer : TextTokenizer SymbolicDigest).specialTokens := by
  have hruns : (compile refundRequested (fixtureTokenizer : TextTokenizer SymbolicDigest) 1 >>=
      (render · fixtureTokenizer "I want my money back")).isOk = true := by decide +kernel
  obtain ⟨input, hruns⟩ := exists_eq_ok hruns
  obtain ⟨c, hc, hr⟩ := bind_eq_ok.mp hruns
  obtain ⟨-, hrender⟩ := @compiled_prompts_unforgeable SymbolicDigest _ _ _ _ _ ℚ Unit _ hc
  obtain ⟨p, -, hclean, hlayout, -, hmarkers, -⟩ := hrender hr
  exact ⟨c, input, p, hc, hr, hlayout, hmarkers, hclean⟩

end IcLaya
