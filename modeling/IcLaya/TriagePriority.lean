import IcLaya.ProposalTriage
import Mathlib.Algebra.Ring.Int.Defs
import Mathlib.Order.MinMax
import Mathlib.Tactic.Linarith

/-!
# When triage returns, and with which priority

Each field of a payload has a level of its own, whatever the fields before it, and the priority is
the highest level. A field also has its own reasons to raise.
-/
namespace IcLaya.ProposalTriage
open Fallible JsonDocuments LoopOutcomes

variable {F : Type}

section Levels
variable {α ι : Type} [LinearOrder α]

theorem le_foldl_max {level : ι → α} {xs : List ι} {a q : α} :
    q ≤ xs.foldl (fun a x => max a (level x)) a ↔ q ≤ a ∨ ∃ x ∈ xs, q ≤ level x := by
  induction xs generalizing a with
  | nil => simp
  | cons x xs ih =>
    rw [List.foldl_cons, ih, le_max_iff, or_assoc]
    simp only [List.mem_cons, exists_eq_or_imp]

end Levels

theorem Priority.le_standard (p : Priority) : .standard ≤ p := Nat.zero_le p.rank

theorem Priority.le_critical (p : Priority) : p ≤ .criticalReview := by
  cases p <;> decide

theorem Findings.review_priority (f : Findings F) (reason : Text) :
    (f.review reason).priority = max f.priority .review := by
  obtain ⟨p, reasons, changes⟩ := f
  cases p <;> rfl

/-- A loop each round of which raises or brings the priority up to the level of its item. -/
theorem ends_escalate {ι : Type} {step : Findings F → ι → Except String (Findings F)}
    {level : ι → Priority} {fits : ι → Prop}
    (h : ∀ f x, Ends (fun f' => fits x ∧ f'.priority = max f.priority (level x))
      (fun _ => ¬fits x) (step f x)) (xs : List ι) (f : Findings F) :
    Ends (fun f' => (∀ x ∈ xs, fits x) ∧
        f'.priority = xs.foldl (fun a x => max a (level x)) f.priority)
      (fun _ => ¬∀ x ∈ xs, fits x) (xs.foldlM step f) := by
  induction xs generalizing f with
  | nil => exact ⟨fun x hx => absurd hx List.not_mem_nil, rfl⟩
  | cons x xs ih =>
    rw [List.foldlM_cons]
    have hx := h f x
    cases hs : step f x with
    | error e =>
      rw [hs] at hx
      exact fun hall => hx (hall x List.mem_cons_self)
    | ok f' =>
      rw [hs] at hx
      obtain ⟨hfits, hp⟩ := hx
      rw [List.foldl_cons, ← hp]
      refine (ih f').mono (fun g hg => ⟨List.forall_mem_cons.mpr ⟨hfits, hg.1⟩, hg.2⟩) ?_
      exact fun _ hn hall => hn (List.forall_mem_cons.mp hall).2

section Texts
variable (py : Python F)

/-- The integer is written out. -/
def Python.Printable (n : ℤ) : Prop := ¬py.TooLong n

theorem ends_decimal (n : ℤ) : Ends (fun _ => py.Printable n) (fun _ => ¬py.Printable n)
    (py.decimal n) := by
  by_cases h : py.TooLong n
  · rw [Python.decimal, rejectIf_stop h]
    exact not_not_intro h
  · rw [Python.decimal, rejectIf_bind h]
    exact h

theorem ends_fromTo (label : Str) (old new : ℤ) :
    Ends (fun _ => py.Printable old ∧ py.Printable new)
      (fun _ => ¬(py.Printable old ∧ py.Printable new)) (py.fromTo label old new) := by
  have hold := ends_decimal py old
  have hnew := ends_decimal py new
  unfold Python.fromTo
  cases ho : py.decimal old with
  | error e =>
    rw [ho] at hold
    exact fun h => hold h.1
  | ok o =>
    cases hn : py.decimal new with
    | error e =>
      rw [hn] at hnew
      exact fun h => hnew h.2
    | ok n =>
      rw [ho] at hold
      rw [hn] at hnew
      exact ⟨hold, hnew⟩

theorem ends_trueDiv (a b : ℤ) : Ends (fun _ => a < b * floatLimit) (fun _ => ¬a < b * floatLimit)
    (py.trueDiv a b) := by
  by_cases h : b * floatLimit ≤ a
  · rw [Python.trueDiv, rejectIf_stop h]
    exact not_lt.mpr h
  · rw [Python.trueDiv, rejectIf_bind h]
    exact not_le.mp h

end Texts

section Fields
variable (py : Python F) (history : Str → Option ℤ) (payload : Dict F)

/-- The priority that a selected parameter asks for. -/
def selectedLevel (p : String × String) : Priority :=
  match proposed payload p.1 with
  | none => .standard
  | some new =>
    match positivePair (history (.text p.1)) new with
    | none => .review
    | some (old, new) =>
      if changedBy extremeFactor old new then .criticalReview
      else if changedBy reviewFactor old new then .review else .standard

/-- Its change can be measured, and written out where it is reported. -/
def selectedFits (p : String × String) : Prop :=
  ∀ value old new, proposed payload p.1 = some value →
    positivePair (history (.text p.1)) value = some (old, new) →
      new < old * floatLimit ∧ old < new * floatLimit ∧
        (changedBy reviewFactor old new → py.Printable old ∧ py.Printable new)

/-- The priority that any other field asks for. -/
def otherLevel (x : Str × Json F) : Priority :=
  if isNull x.2 ∨ isSelected x.1 then .standard
  else
    match history x.1, x.2 with
    | some old, .int new => if new ≠ old then .review else .standard
    | _, _ => .review

/-- Its change can be written out. -/
def otherFits (x : Str × Json F) : Prop :=
  ∀ old new, isSelected x.1 = false → history x.1 = some old → x.2 = .int new → new ≠ old →
    py.Printable old ∧ py.Printable new

variable {py history payload}

theorem positivePair_eq_some {old : Option ℤ} {v : Json F} {o n : ℤ} :
    positivePair old v = some (o, n) ↔ old = some o ∧ v = .int n ∧ 0 < o ∧ 0 < n := by
  cases old with
  | none => simp [positivePair]
  | some old =>
    cases v with
    | int new =>
      simp only [positivePair, Option.ite_none_right_eq_some, Option.some.injEq, Prod.mk.injEq,
        Json.int.injEq]
      constructor
      · rintro ⟨⟨ho, hn⟩, rfl, rfl⟩
        exact ⟨rfl, rfl, ho, hn⟩
      · rintro ⟨rfl, rfl, ho, hn⟩
        exact ⟨⟨ho, hn⟩, rfl, rfl⟩
    | _ => simp [positivePair]

theorem changedBy_review {old new : ℤ} (hn : 0 < new)
    (h : changedBy extremeFactor old new) : changedBy reviewFactor old new := by
  unfold changedBy extremeFactor at h
  unfold changedBy reviewFactor
  rcases h with h | h
  · exact .inl (by linarith only [h, hn])
  · exact .inr (by linarith only [h, hn])

theorem changedBy_iff {factor old new : ℤ} :
    changedBy factor old new ↔ factor * old ≤ new ∨ factor * new ≤ old := by
  rw [changedBy, mul_comm old, mul_comm new]

variable (py history payload) in
/-- One selected parameter. -/
theorem ends_selectedField (f : Findings F) (p : String × String) :
    Ends (fun f' => selectedFits py history payload p ∧
        f'.priority = max f.priority (selectedLevel history payload p))
      (fun _ => ¬selectedFits py history payload p) (selectedField py history payload f p) := by
  unfold selectedField selectedLevel
  cases hv : proposed payload p.1 with
  | none =>
    exact ⟨fun value old new hp => (by rw [hv] at hp; cases hp),
      (max_eq_left f.priority.le_standard).symm⟩
  | some value =>
    dsimp only
    cases hpair : positivePair (history (.text p.1)) value with
    | none =>
      refine ⟨fun value' old new hp hpos => ?_, f.review_priority _⟩
      obtain rfl : value = value' := Option.some.inj (hv.symm.trans hp)
      rw [hpair] at hpos
      cases hpos
    | some pair =>
      obtain ⟨old, new⟩ := pair
      obtain ⟨-, -, ho, hn⟩ := positivePair_eq_some.mp hpair
      -- what the field needs, once its values are known
      have hfits : selectedFits py history payload p ↔ new < old * floatLimit ∧
          old < new * floatLimit ∧
            (changedBy reviewFactor old new → py.Printable old ∧ py.Printable new) := by
        constructor
        · exact fun h => h value old new hv hpair
        · intro h value' old' new' hp hpos
          obtain rfl : value = value' := Option.some.inj (hv.symm.trans hp)
          obtain ⟨rfl, rfl⟩ := Prod.mk.inj (Option.some.inj (hpair.symm.trans hpos))
          exact h
      rw [hfits]
      dsimp only
      have hup := ends_trueDiv py new old
      cases hu : py.trueDiv new old with
      | error e =>
        rw [hu] at hup
        exact fun h => hup h.1
      | ok up =>
        rw [hu] at hup
        have hdown := ends_trueDiv py old new
        cases hd : py.trueDiv old new with
        | error e =>
          rw [hd] at hdown
          exact fun h => hdown h.2.1
        | ok down =>
          rw [hd] at hdown
          simp only [ok_bind]
          by_cases hextreme : changedBy extremeFactor old new
          · have hreview := changedBy_review hn hextreme
            simp only [if_pos hextreme]
            refine ((ends_fromTo py (.text p.2) old new).mono (fun _ h => h) ?_).bind ?_
            · exact fun _ hp h => hp (h.2.2 hreview)
            · intro text hp
              exact ⟨⟨hup, hdown, fun _ => hp⟩, (max_eq_right f.priority.le_critical).symm⟩
          · by_cases hreview : changedBy reviewFactor old new
            · simp only [if_neg hextreme, if_pos hreview]
              refine ((ends_fromTo py (.text p.2) old new).mono (fun _ h => h) ?_).bind ?_
              · exact fun _ hp h => hp (h.2.2 hreview)
              · intro text hp
                exact ⟨⟨hup, hdown, fun _ => hp⟩, Findings.review_priority _ _⟩
            · simp only [if_neg hextreme, if_neg hreview]
              exact ⟨⟨hup, hdown, fun h => absurd h hreview⟩,
                (max_eq_left f.priority.le_standard).symm⟩

variable (py history) in
/-- One field of the payload. -/
theorem ends_otherField (f : Findings F) (x : Str × Json F) :
    Ends (fun f' => otherFits py history x ∧
        f'.priority = max f.priority (otherLevel history x))
      (fun _ => ¬otherFits py history x) (otherField py history f x) := by
  unfold otherField otherLevel
  by_cases hskip : isNull x.2 ∨ isSelected x.1
  · rw [if_pos hskip, if_pos hskip]
    refine ⟨fun old new hs _ hv => ?_, (max_eq_left f.priority.le_standard).symm⟩
    rw [hv, hs] at hskip
    simp [isNull] at hskip
  · rw [if_neg hskip, if_neg hskip]
    have hselected : isSelected x.1 = false := by
      rw [not_or, Bool.not_eq_true (isSelected x.1)] at hskip
      exact hskip.2
    cases hh : history x.1 with
    | none =>
      refine ⟨fun old new _ ho => ?_, f.review_priority _⟩
      rw [hh] at ho
      cases ho
    | some old =>
      cases hv : x.2 with
      | int new =>
        have hfits : otherFits py history x ↔
            (new ≠ old → py.Printable old ∧ py.Printable new) := by
          constructor
          · exact fun h hne => h old new hselected hh hv hne
          · intro h old' new' _ ho hn hne
            obtain rfl : old = old' := Option.some.inj (hh.symm.trans ho)
            obtain rfl : new = new' := Json.int.inj (hv.symm.trans hn)
            exact h hne
        rw [hfits]
        dsimp only
        by_cases hne : new ≠ old
        · rw [if_pos hne, if_pos hne]
          have htext := ends_fromTo py x.1 old new
          cases ht : py.fromTo x.1 old new with
          | error e =>
            rw [ht] at htext
            exact fun h => htext (h hne)
          | ok text =>
            rw [ht] at htext
            exact ⟨fun _ => htext, f.review_priority text⟩
        · rw [if_neg hne, if_neg hne]
          exact ⟨fun h => absurd h hne, (max_eq_left f.priority.le_standard).symm⟩
      | _ =>
        refine ⟨fun old new _ _ hn => ?_, f.review_priority _⟩
        rw [hv] at hn
        cases hn

end Fields

section Payloads
variable {py : Python F} {history : Str → Option ℤ} {payload payload' : Dict F}

/-- A selected parameter and its change between two positive integers. -/
structure Measured (history : Str → Option ℤ) (payload : Dict F) (k : Str) (old new : ℤ) : Prop where
  selected : isSelected k
  field : (k, .int new) ∈ payload
  history : history k = some old
  positive : 0 < old ∧ 0 < new

/-- Some selected parameter changes by a factor of at least 1000. -/
def Extreme (history : Str → Option ℤ) (payload : Dict F) : Prop :=
  ∃ k old new, Measured history payload k old new ∧ (1000 * old ≤ new ∨ 1000 * new ≤ old)

/-- Nothing is proposed, or a selected parameter cannot be measured or changes by a factor of at
least 10, or another field is no integer, has no history or differs from it. -/
inductive NeedsReview (history : Str → Option ℤ) (payload : Dict F) : Prop
  | empty (h : ∀ x ∈ payload, isNull x.2)
  | unmeasured (k : Str) (v : Json F) (hs : isSelected k) (hv : (k, v) ∈ payload)
      (hn : isNull v = false) (h : ¬∃ old new, v = .int new ∧ Measured history payload k old new)
  | large (k : Str) (old new : ℤ) (h : Measured history payload k old new)
      (hl : 10 * old ≤ new ∨ 10 * new ≤ old)
  | other (k : Str) (v : Json F) (hs : isSelected k = false) (hv : (k, v) ∈ payload)
      (hn : isNull v = false) (h : ¬∃ n, v = .int n ∧ history k = some n)

/-- The priority of a payload. -/
structure Triaged (history : Str → Option ℤ) (payload : Dict F) (p : Priority) : Prop where
  critical : p = .criticalReview ↔ Extreme history payload
  review : p = .review ↔ ¬Extreme history payload ∧ NeedsReview history payload
  standard : p = .standard ↔ ¬Extreme history payload ∧ ¬NeedsReview history payload

/-- The factor of every measured change is in the range of a float, and the integers of the changes
that are reported have no more digits than Python writes out. -/
structure Reportable (py : Python F) (history : Str → Option ℤ) (payload : Dict F) : Prop where
  measured : ∀ k old new, Measured history payload k old new →
    new < old * floatLimit ∧ old < new * floatLimit ∧
      (10 * old ≤ new ∨ 10 * new ≤ old → py.Printable old ∧ py.Printable new)
  other : ∀ k old new, isSelected k = false → (k, .int new) ∈ payload → history k = some old →
    new ≠ old → py.Printable old ∧ py.Printable new

theorem isSelected_iff {k : Str} : isSelected k ↔ ∃ p ∈ parameters, k = .text p.1 := by
  simp [isSelected]

/-- A dictionary has one value under a key. -/
theorem proposed_eq_some (hkeys : (payload.map Prod.fst).Nodup) {key : String} {v : Json F} :
    proposed payload key = some v ↔ (.text key, v) ∈ payload ∧ isNull v = false := by
  have hget : ∀ w, payload.get? key = some w ↔ (.text key, w) ∈ payload := by
    intro w
    rw [Dict.get?, Option.map_eq_some_iff]
    constructor
    · rintro ⟨⟨k, u⟩, hfind, rfl⟩
      have hk := List.find?_some hfind
      simp only [decide_eq_true_eq] at hk
      rw [← hk]
      exact List.mem_of_find?_eq_some hfind
    · intro hmem
      induction payload with
      | nil => cases hmem
      | cons x xs ih =>
        rw [List.map_cons, List.nodup_cons] at hkeys
        by_cases hx : x.1 = .text key
        · refine ⟨x, List.find?_cons_of_pos (decide_eq_true hx), ?_⟩
          rcases List.mem_cons.mp hmem with rfl | hmem
          · rfl
          · exact absurd (hx ▸ List.mem_map_of_mem (f := Prod.fst) hmem) hkeys.1
        · rcases List.mem_cons.mp hmem with rfl | hmem
          · exact absurd rfl hx
          · obtain ⟨y, hy, hyw⟩ := ih hkeys.2 hmem
            exact ⟨y, by rw [List.find?_cons_of_neg (by simpa using hx)]; exact hy, hyw⟩
  rw [proposed, Option.filter_eq_some_iff, hget]
  simp

theorem measured_iff (hkeys : (payload.map Prod.fst).Nodup) {p : String × String}
    (hp : p ∈ parameters) {old new : ℤ} :
    Measured history payload (.text p.1) old new ↔ ∃ v, proposed payload p.1 = some v ∧
      positivePair (history (.text p.1)) v = some (old, new) := by
  simp only [proposed_eq_some hkeys, positivePair_eq_some]
  constructor
  · rintro ⟨_, hv, hh, ho, hn⟩
    exact ⟨.int new, ⟨hv, rfl⟩, hh, rfl, ho, hn⟩
  · rintro ⟨v, ⟨hv, _⟩, hh, rfl, ho, hn⟩
    exact ⟨isSelected_iff.mpr ⟨p, hp, rfl⟩, hv, hh, ho, hn⟩

theorem selectedLevel_of_measured (hkeys : (payload.map Prod.fst).Nodup) {p : String × String}
    (hp : p ∈ parameters) {old new : ℤ} (h : Measured history payload (.text p.1) old new) :
    selectedLevel history payload p =
      if 1000 * old ≤ new ∨ 1000 * new ≤ old then .criticalReview
      else if 10 * old ≤ new ∨ 10 * new ≤ old then .review else .standard := by
  obtain ⟨v, hv, hpair⟩ := (measured_iff hkeys hp).mp h
  rw [selectedLevel, hv]
  dsimp only
  rw [hpair]
  dsimp only
  rw [if_congr changedBy_iff rfl (if_congr changedBy_iff rfl rfl)]
  rfl

variable (history) in
/-- How high a selected parameter raises the priority. -/
theorem selectedLevel_cases (hkeys : (payload.map Prod.fst).Nodup) {p : String × String}
    (hp : p ∈ parameters) :
    (selectedLevel history payload p = .standard ∧
        ∀ v, (.text p.1, v) ∈ payload → isNull v = true) ∨
    (selectedLevel history payload p = .review ∧ ∃ v, (.text p.1, v) ∈ payload ∧ isNull v = false ∧
        ¬∃ old new, v = .int new ∧ Measured history payload (.text p.1) old new) ∨
    ∃ old new, Measured history payload (.text p.1) old new := by
  cases hv : proposed payload p.1 with
  | none =>
    refine .inl ⟨by rw [selectedLevel, hv], fun v hmem => ?_⟩
    cases hn : isNull v with
    | true => rfl
    | false =>
      rw [(proposed_eq_some hkeys).mpr ⟨hmem, hn⟩] at hv
      cases hv
  | some value =>
    obtain ⟨hmem, hn⟩ := (proposed_eq_some hkeys).mp hv
    cases hpair : positivePair (history (.text p.1)) value with
    | none =>
      refine .inr (.inl ⟨by rw [selectedLevel, hv]; dsimp only; rw [hpair], value, hmem, hn, ?_⟩)
      rintro ⟨old, new, rfl, hm⟩
      rw [positivePair_eq_some.mpr ⟨hm.history, rfl, hm.positive⟩] at hpair
      cases hpair
    | some pair =>
      exact .inr (.inr ⟨pair.1, pair.2, (measured_iff hkeys hp).mpr ⟨value, hv, hpair⟩⟩)

/-- A selected parameter makes the review critical exactly when its factor is extreme. -/
theorem critical_le_selectedLevel (hkeys : (payload.map Prod.fst).Nodup) {p : String × String}
    (hp : p ∈ parameters) : .criticalReview ≤ selectedLevel history payload p ↔
      ∃ old new, Measured history payload (.text p.1) old new ∧
        (1000 * old ≤ new ∨ 1000 * new ≤ old) := by
  constructor
  · intro h
    obtain ⟨hs, -⟩ | ⟨hs, -⟩ | ⟨old, new, hm⟩ := selectedLevel_cases history hkeys hp
    · rw [hs] at h
      exact absurd h (by decide)
    · rw [hs] at h
      exact absurd h (by decide)
    · refine ⟨old, new, hm, by_contra fun hx => ?_⟩
      rw [selectedLevel_of_measured hkeys hp hm, if_neg hx] at h
      split at h
      · exact absurd h (by decide)
      · exact absurd h (by decide)
  · rintro ⟨old, new, hm, hx⟩
    rw [selectedLevel_of_measured hkeys hp hm, if_pos hx]

/-- A selected parameter asks for review. -/
theorem review_le_selectedLevel (hkeys : (payload.map Prod.fst).Nodup) {p : String × String}
    (hp : p ∈ parameters) : .review ≤ selectedLevel history payload p ↔
      (∃ v, (.text p.1, v) ∈ payload ∧ isNull v = false ∧
        ¬∃ old new, v = .int new ∧ Measured history payload (.text p.1) old new) ∨
      ∃ old new, Measured history payload (.text p.1) old new ∧
        (10 * old ≤ new ∨ 10 * new ≤ old) := by
  constructor
  · intro h
    obtain ⟨hs, -⟩ | ⟨-, hv⟩ | ⟨old, new, hm⟩ := selectedLevel_cases history hkeys hp
    · rw [hs] at h
      exact absurd h (by decide)
    · exact .inl hv
    · refine .inr ⟨old, new, hm, by_contra fun hx => ?_⟩
      obtain ⟨ho, hn⟩ := hm.positive
      rw [selectedLevel_of_measured hkeys hp hm, if_neg (by omega), if_neg hx] at h
      exact absurd h (by decide)
  · rintro (⟨v, hmem, hn, hno⟩ | ⟨old, new, hm, hx⟩)
    · obtain ⟨-, hnull⟩ | ⟨hs, -⟩ | ⟨old, new, hm⟩ :=
        selectedLevel_cases history hkeys hp
      · rw [hnull v hmem] at hn
        cases hn
      · exact hs.ge
      · have hv := (proposed_eq_some hkeys).mpr ⟨hmem, hn⟩
        rw [(proposed_eq_some hkeys).mpr ⟨hm.field, rfl⟩] at hv
        exact absurd ⟨old, new, (Option.some.inj hv).symm, hm⟩ hno
    · rw [selectedLevel_of_measured hkeys hp hm, if_pos hx]
      split
      · decide
      · decide

theorem review_le_otherLevel {x : Str × Json F} : .review ≤ otherLevel history x ↔
    isNull x.2 = false ∧ isSelected x.1 = false ∧ ¬∃ n, x.2 = .int n ∧ history x.1 = some n := by
  unfold otherLevel
  by_cases hskip : isNull x.2 ∨ isSelected x.1
  · rw [if_pos hskip]
    constructor
    · exact fun h => absurd h (by decide)
    · rintro ⟨hn, hs, -⟩
      rw [hn, hs] at hskip
      simp at hskip
  · rw [if_neg hskip]
    simp only [not_or, Bool.not_eq_true] at hskip
    simp only [hskip, true_and]
    cases hh : history x.1 with
    | none => simp
    | some old =>
      cases hv : x.2 with
      | int new =>
        by_cases hne : new ≠ old
        · simp [hne, Ne.symm hne]
        · obtain rfl : new = old := not_not.mp hne
          simp
          decide
      | _ => simp

theorem otherLevel_le (x : Str × Json F) : otherLevel history x ≤ .review := by
  unfold otherLevel
  split
  · decide
  · split
    · split <;> decide
    · decide

theorem triaged_of_le {p : Priority} (hc : .criticalReview ≤ p ↔ Extreme history payload)
    (hr : .review ≤ p ↔ NeedsReview history payload) : Triaged history payload p := by
  cases p with
  | standard =>
    have hcalm : ¬Extreme history payload := fun h => absurd (hc.mpr h) (by decide)
    have hnone : ¬NeedsReview history payload := fun h => absurd (hr.mpr h) (by decide)
    exact ⟨by simp [hcalm], by simp [hnone], by simp [hcalm, hnone]⟩
  | review =>
    have hcalm : ¬Extreme history payload := fun h => absurd (hc.mpr h) (by decide)
    have hneeds : NeedsReview history payload := hr.mp (by decide)
    exact ⟨by simp [hcalm], by simp [hcalm, hneeds], by simp [hneeds]⟩
  | criticalReview =>
    have hextreme : Extreme history payload := hc.mp (by decide)
    exact ⟨by simp [hextreme], by simp [hextreme], by simp [hextreme]⟩

/-- Every field fits on its own. -/
theorem reportable_iff (hkeys : (payload.map Prod.fst).Nodup) : Reportable py history payload ↔
    (∀ p ∈ parameters, selectedFits py history payload p) ∧
      ∀ x ∈ payload, otherFits py history x := by
  constructor
  · intro h
    refine ⟨fun p hp v old new hv hpair => ?_, fun x hx old new hs hh hv hne => ?_⟩
    · have hm := (measured_iff hkeys hp).mpr ⟨v, hv, hpair⟩
      rw [changedBy_iff]
      exact h.measured _ old new hm
    · rw [← Prod.eta x, hv] at hx
      exact h.other x.1 old new hs hx hh hne
  · rintro ⟨hselected, hother⟩
    refine ⟨fun k old new hm => ?_, fun k old new hs hmem hh hne =>
      hother _ hmem old new hs hh rfl hne⟩
    obtain ⟨p, hp, rfl⟩ := isSelected_iff.mp hm.selected
    obtain ⟨v, hv, hpair⟩ := (measured_iff hkeys hp).mp hm
    have hfits := hselected p hp v old new hv hpair
    rw [changedBy_iff] at hfits
    exact hfits

theorem extreme_iff (hkeys : (payload.map Prod.fst).Nodup) : Extreme history payload ↔
    ∃ p ∈ parameters, .criticalReview ≤ selectedLevel history payload p := by
  constructor
  · rintro ⟨k, old, new, hm, hx⟩
    obtain ⟨p, hp, rfl⟩ := isSelected_iff.mp hm.selected
    exact ⟨p, hp, (critical_le_selectedLevel hkeys hp).mpr ⟨old, new, hm, hx⟩⟩
  · rintro ⟨p, hp, hle⟩
    obtain ⟨old, new, hm, hx⟩ := (critical_le_selectedLevel hkeys hp).mp hle
    exact ⟨_, old, new, hm, hx⟩

theorem needsReview_iff (hkeys : (payload.map Prod.fst).Nodup)
    (hsome : ¬∀ x ∈ payload, isNull x.2 = true) : NeedsReview history payload ↔
      (∃ p ∈ parameters, .review ≤ selectedLevel history payload p) ∨
        ∃ x ∈ payload, .review ≤ otherLevel history x := by
  constructor
  · intro h
    cases h with
    | empty h => exact absurd h hsome
    | unmeasured k v hs hv hn h =>
      obtain ⟨p, hp, rfl⟩ := isSelected_iff.mp hs
      exact .inl ⟨p, hp, (review_le_selectedLevel hkeys hp).mpr (.inl ⟨v, hv, hn, h⟩)⟩
    | large k old new h hl =>
      obtain ⟨p, hp, rfl⟩ := isSelected_iff.mp h.selected
      exact .inl ⟨p, hp, (review_le_selectedLevel hkeys hp).mpr (.inr ⟨old, new, h, hl⟩)⟩
    | other k v hs hv hn h => exact .inr ⟨(k, v), hv, review_le_otherLevel.mpr ⟨hn, hs, h⟩⟩
  · rintro (⟨p, hp, hle⟩ | ⟨x, hx, hle⟩)
    · obtain ⟨v, hv, hn, h⟩ | ⟨old, new, hm, hl⟩ := (review_le_selectedLevel hkeys hp).mp hle
      · exact .unmeasured _ v (isSelected_iff.mpr ⟨p, hp, rfl⟩) hv hn h
      · exact .large _ old new hm hl
    · obtain ⟨hn, hs, h⟩ := review_le_otherLevel.mp hle
      exact .other x.1 x.2 hs hx hn h

/-- The branch for a payload of parameters. -/
theorem ends_parameterFindings (hkeys : (payload.map Prod.fst).Nodup) :
    Ends (fun f => Reportable py history payload ∧ Triaged history payload f.priority)
      (fun _ => ¬Reportable py history payload) (parameterFindings py history (.dict payload)) := by
  rw [parameterFindings]
  by_cases hempty : payload.all fun x => isNull x.2
  · have hnull : ∀ x ∈ payload, isNull x.2 = true := List.all_eq_true.mp hempty
    have hnone : ∀ k n, ¬(k, Json.int n) ∈ payload := fun k n hm => by
      have hn := hnull _ hm
      cases hn
    have hcalm : ¬Extreme history payload := by
      rintro ⟨k, old, new, hm, -⟩
      exact hnone k new hm.field
    rw [if_pos hempty]
    refine ⟨⟨fun k old new hm => absurd hm.field (hnone k new),
      fun k old new _ hm => absurd hm (hnone k new)⟩, triaged_of_le ?_ ?_⟩
    · exact ⟨fun h => absurd h (by decide : ¬Priority.criticalReview ≤ .review),
        fun h => absurd h hcalm⟩
    · exact ⟨fun _ => .empty hnull, fun _ => le_rfl⟩
  · have hsome : ¬∀ x ∈ payload, isNull x.2 = true := fun h => hempty (List.all_eq_true.mpr h)
    rw [if_neg hempty, reportable_iff hkeys]
    have hselected := ends_escalate (ends_selectedField py history payload) parameters
      ⟨.standard, [], []⟩
    cases hf : parameters.foldlM (selectedField py history payload) ⟨.standard, [], []⟩ with
    | error e => exact fun h => hselected.error hf h.1
    | ok f =>
      obtain ⟨hfits, hp⟩ := hselected.ok hf
      refine (ends_escalate (ends_otherField py history) payload f).mono ?_
        fun _ hn h => hn h.2
      rintro g ⟨hother, hg⟩
      refine ⟨⟨hfits, hother⟩, triaged_of_le ?_ ?_⟩
      · rw [hg, le_foldl_max, hp, le_foldl_max, extreme_iff hkeys]
        constructor
        · rintro ((h | h) | ⟨x, -, h⟩)
          · exact absurd h (by decide : ¬Priority.criticalReview ≤ .standard)
          · exact h
          · exact absurd (h.trans (otherLevel_le x)) (by decide)
        · exact fun h => .inl (.inr h)
      · rw [hg, le_foldl_max, hp, le_foldl_max, needsReview_iff hkeys hsome]
        constructor
        · rintro ((h | h) | h)
          · exact absurd h (by decide : ¬Priority.review ≤ .standard)
          · exact .inl h
          · exact .inr h
        · rintro (h | h)
          · exact .inl (.inr h)
          · exact .inr h

end Payloads

section Triage
variable {py : Python F} {currentParameter : Json F → Str → Option ℤ} {proposal payload : Dict F}

/-- The proposal changes the parameters in `payload`. -/
structure Proposes (proposal payload : Dict F) : Prop where
  action : isText "ManageNervousSystemParameters" (get proposal "proposal_action_type")
  dict : get proposal "proposal_action_payload" = .dict payload
  keys : (payload.map Prod.fst).Nodup

/-- The historical values of a proposal. -/
abbrev historyOf (currentParameter : Json F → Str → Option ℤ) (proposal : Dict F) : Str → Option ℤ :=
  currentParameter (get proposal "payload_text_rendering")

variable (py currentParameter) in
theorem ends_triage (h : Proposes proposal payload) :
    Ends (fun r => Reportable py (historyOf currentParameter proposal) payload ∧
        Triaged (historyOf currentParameter proposal) payload r.priority)
      (fun _ => ¬Reportable py (historyOf currentParameter proposal) payload)
      (triage py currentParameter (.dict proposal)) := by
  rw [triage]
  dsimp only
  rw [if_pos h.action, h.dict]
  refine (ends_parameterFindings h.keys).bind fun f hf => ?_
  exact hf

/-- What is proposed in one payload is proposed in the other. -/
def Extends (payload payload' : Dict F) : Prop := ∀ x ∈ payload, isNull x.2 = false → x ∈ payload'

theorem Extreme.extend {history : Str → Option ℤ} {payload' : Dict F}
    (h : Extreme history payload) (he : Extends payload payload') : Extreme history payload' := by
  obtain ⟨k, old, new, ⟨hs, hv, hh, hpos⟩, hx⟩ := h
  exact ⟨k, old, new, ⟨hs, he _ hv rfl, hh, hpos⟩, hx⟩

theorem NeedsReview.extend {history : Str → Option ℤ} {payload' : Dict F}
    (h : NeedsReview history payload) (he : Extends payload payload')
    (hsome : ∃ x ∈ payload, isNull x.2 = false) : NeedsReview history payload' := by
  cases h with
  | empty h =>
    obtain ⟨x, hx, hn⟩ := hsome
    rw [h x hx] at hn
    cases hn
  | unmeasured k v hs hv hn h =>
    refine .unmeasured k v hs (he _ hv hn) hn ?_
    rintro ⟨old, new, rfl, hm⟩
    exact h ⟨old, new, rfl, hs, hv, hm.history, hm.positive⟩
  | large k old new hm hl =>
    exact .large k old new ⟨hm.selected, he _ hm.field rfl, hm.history, hm.positive⟩ hl
  | other k v hs hv hn h => exact .other k v hs (he _ hv hn) hn h

theorem NeedsReview.perm {history : Str → Option ℤ} {payload' : Dict F}
    (h : NeedsReview history payload) (hp : payload.Perm payload') : NeedsReview history payload' := by
  by_cases hsome : ∃ x ∈ payload, isNull x.2 = false
  · exact h.extend (fun x hx _ => hp.mem_iff.mp hx) hsome
  · refine .empty fun x hx => ?_
    cases hn : isNull x.2 with
    | true => rfl
    | false => exact absurd ⟨x, hp.mem_iff.mpr hx, hn⟩ hsome

theorem Triaged.le {history : Str → Option ℤ} {payload' : Dict F} {p q : Priority}
    (h : Triaged history payload p) (h' : Triaged history payload' q)
    (hc : Extreme history payload → Extreme history payload')
    (hr : NeedsReview history payload → NeedsReview history payload') : p ≤ q := by
  cases q with
  | criticalReview => exact p.le_critical
  | review =>
    have hcalm := (h'.review.mp rfl).1
    cases p with
    | criticalReview => exact absurd (hc (h.critical.mp rfl)) hcalm
    | review => exact le_rfl
    | standard => decide
  | standard =>
    obtain ⟨hcalm, hnone⟩ := h'.standard.mp rfl
    exact (h.standard.mpr ⟨fun hx => hcalm (hc hx), fun hn => hnone (hr hn)⟩).le

end Triage

/-! Proposals that change the maximum dissolve delay from 1 second, the minimum stake from 100 and
another field, which was 7. -/
namespace Sample

def python : Python Unit :=
  ⟨fun _ _ => (), fun _ _ => (), fun _ => "", fun _ => "", fun _ => true, fun _ => [], 4300⟩

def history (_ : Json Unit) (k : Str) : Option ℤ :=
  if k = .text "max_dissolve_delay_seconds" then some 1
  else if k = .text "neuron_minimum_stake_e8s" then some 100
  else if k = .text "max_number_of_neurons" then some 7 else none

def proposing (payload : Dict Unit) : Dict Unit :=
  [(.text "proposal_action_type", .str (.text "ManageNervousSystemParameters")),
   (.text "proposal_action_payload", .dict payload)]

def proposal (new : ℤ) : Dict Unit := proposing [(.text "max_dissolve_delay_seconds", .int new)]

/-- The stake by a factor of 20, the delay by one of 1500. -/
def mixed : Dict Unit :=
  [(.text "neuron_minimum_stake_e8s", .int 2000), (.text "max_number_of_neurons", .int 8),
   (.text "max_dissolve_delay_seconds", .int 1500)]

theorem proposes {payload : Dict Unit} (h : (payload.map Prod.fst).Nodup) :
    Proposes (proposing payload) payload := ⟨rfl, rfl, h⟩

end Sample

end IcLaya.ProposalTriage
