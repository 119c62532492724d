import Mathlib.Data.List.Basic

/-!
# Images that are read back from the left

An image that shows where it ends, whatever follows it. Such images are closed under pairs
and under lists whose length is known or that nothing follows.
-/
namespace IcLaya.UniqueReading

variable {α β γ : Type} {f : α → List β} {g : γ → List β} {p : α → Prop} {q : γ → Prop}

/-- What follows the image of a value with `p` does not change which value is read. -/
def ReadsBack (f : α → List β) (p : α → Prop) : Prop :=
  ∀ a b, p a → p b → ∀ r s, f a ++ r = f b ++ s → a = b ∧ r = s

theorem ReadsBack.inj (hf : ReadsBack f p) {a b : α} (ha : p a) (hb : p b) (h : f a = f b) :
    a = b :=
  (hf a b ha hb [] [] (by rw [h])).1

theorem ReadsBack.pair (hf : ReadsBack f p) (hg : ReadsBack g q) :
    ReadsBack (fun x : α × γ => f x.1 ++ g x.2) (fun x => p x.1 ∧ q x.2) := by
  intro a b ha hb r s h
  simp only [List.append_assoc] at h
  obtain ⟨h₁, h⟩ := hf _ _ ha.1 hb.1 _ _ h
  obtain ⟨h₂, h⟩ := hg _ _ ha.2 hb.2 _ _ h
  exact ⟨Prod.ext h₁ h₂, h⟩

theorem ReadsBack.comap (hf : ReadsBack f p) {u : γ → α} (hu : Function.Injective u) :
    ReadsBack (fun c => f (u c)) (fun c => p (u c)) := by
  intro a b ha hb r s h
  obtain ⟨he, h⟩ := hf _ _ ha hb r s h
  exact ⟨hu he, h⟩

/-- Lists of one length are read back. -/
theorem ReadsBack.counted (hf : ReadsBack f p) {l l' : List α} (hl : ∀ a ∈ l, p a)
    (hl' : ∀ a ∈ l', p a) (hlen : l.length = l'.length) {r s : List β}
    (h : l.flatMap f ++ r = l'.flatMap f ++ s) : l = l' ∧ r = s := by
  induction l generalizing l' with
  | nil =>
    cases l' with
    | nil => exact ⟨rfl, by simpa using h⟩
    | cons b l' => simp at hlen
  | cons a l ih =>
    cases l' with
    | nil => simp at hlen
    | cons b l' =>
      rw [List.forall_mem_cons] at hl hl'
      simp only [List.flatMap_cons, List.append_assoc] at h
      obtain ⟨hhead, htail⟩ := hf a b hl.1 hl'.1 _ _ h
      obtain ⟨hrest, hend⟩ := ih hl.2 hl'.2 (by simpa using hlen) htail
      exact ⟨by rw [hhead, hrest], hend⟩

/-- Lists of any length are read back when nothing follows them. -/
theorem ReadsBack.flatMap_inj (hf : ReadsBack f p) (hne : ∀ a, f a ≠ []) {l l' : List α}
    (hl : ∀ a ∈ l, p a) (hl' : ∀ a ∈ l', p a) (h : l.flatMap f = l'.flatMap f) : l = l' := by
  induction l generalizing l' with
  | nil =>
    cases l' with
    | nil => rfl
    | cons b l' =>
      have := hne b
      simp_all
  | cons a l ih =>
    cases l' with
    | nil =>
      have := hne a
      simp_all
    | cons b l' =>
      rw [List.forall_mem_cons] at hl hl'
      obtain ⟨hhead, htail⟩ := hf a b hl.1 hl'.1 _ _ h
      rw [hhead, ih hl.2 hl'.2 htail]

end IcLaya.UniqueReading
