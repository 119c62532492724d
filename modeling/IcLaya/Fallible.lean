import Mathlib.Tactic.Common

/-! Fallible computations in `Except`: guards, `Option` to `Except`, and the
inversion rules by which a successful block is taken apart into its guards. -/
namespace IcLaya.Fallible

variable {ε α β : Type}

-- A guard over a list is decided along the list, also where the type of its elements is finite.

instance (priority := 2000) decidableAll (p : α → Prop) [DecidablePred p] (l : List α) :
    Decidable (∀ x ∈ l, p x) := List.decidableBAll p l

instance (priority := 2000) decidableAny (p : α → Prop) [DecidablePred p] (l : List α) :
    Decidable (∃ x ∈ l, p x) := List.decidableBEx p l

/-- `if c { return Err(e) }`. -/
def rejectIf (c : Prop) [Decidable c] (e : ε) : Except ε Unit := if c then .error e else .ok ()

/-- `Option::ok_or`. -/
def okOr (x : Option α) (e : ε) : Except ε α := match x with | some a => .ok a | none => .error e

@[simp] theorem rejectIf_eq_ok {c : Prop} [Decidable c] {e : ε} {u : Unit} :
    rejectIf c e = .ok u ↔ ¬c := by
  by_cases h : c <;> simp [rejectIf, h]

@[simp] theorem rejectIf_eq_error {c : Prop} [Decidable c] {e e' : ε} :
    rejectIf c e = .error e' ↔ c ∧ e = e' := by
  by_cases h : c <;> simp [rejectIf, h]

@[simp] theorem okOr_eq_ok {x : Option α} {e : ε} {a : α} : okOr x e = .ok a ↔ x = some a := by
  cases x <;> simp [okOr]

@[simp] theorem okOr_eq_error {x : Option α} {e e' : ε} :
    okOr x e = .error e' ↔ x = none ∧ e = e' := by
  cases x <;> simp [okOr]

@[simp] theorem ok_bind (a : α) (f : α → Except ε β) : (Except.ok a >>= f) = f a := rfl

/-- A guard whose condition does not hold is passed. -/
theorem rejectIf_bind {c : Prop} [Decidable c] (h : ¬c) (e : ε) (f : Unit → Except ε β) :
    (rejectIf c e >>= f) = f () := by
  rw [rejectIf, if_neg h, ok_bind]

/-- A guard whose condition holds ends the block. -/
theorem rejectIf_stop {c : Prop} [Decidable c] (h : c) (e : ε) (f : Unit → Except ε β) :
    (rejectIf c e >>= f) = .error e := by
  rw [rejectIf, if_pos h]
  rfl

/-- A block that succeeds has a successful first statement. -/
@[simp] theorem bind_eq_ok {x : Except ε α} {f : α → Except ε β} {b : β} :
    (x >>= f) = .ok b ↔ ∃ a, x = .ok a ∧ f a = .ok b := by
  cases x <;> simp [bind, Except.bind]

/-- A block that fails does so at its first statement or after it. -/
theorem bind_eq_error {x : Except ε α} {f : α → Except ε β} {e : ε} :
    (x >>= f) = .error e ↔ x = .error e ∨ ∃ a, x = .ok a ∧ f a = .error e := by
  cases x <;> simp [bind, Except.bind]

/-- A block does not fail with an error that none of its statements raises. -/
theorem bind_ne_error {x : Except ε α} {f : α → Except ε β} {e : ε} (hx : x ≠ .error e)
    (hf : ∀ a, f a ≠ .error e) : (x >>= f) ≠ .error e := by
  cases x with
  | error e' => exact fun he => hx (Except.error.inj he ▸ rfl)
  | ok a => exact hf a

theorem rejectIf_ne_error {c : Prop} [Decidable c] {e e' : ε} (h : e' ≠ e) :
    rejectIf c e' ≠ .error e := fun he => h (rejectIf_eq_error.mp he).2

theorem okOr_ne_error {x : Option α} {e e' : ε} (h : e' ≠ e) : okOr x e' ≠ .error e :=
  fun he => h (okOr_eq_error.mp he).2

@[simp] theorem pure_eq_ok {a b : α} : (pure a : Except ε α) = .ok b ↔ a = b := by
  simp [pure, Except.pure]

@[simp] theorem throw_eq_ok {e : ε} {b : α} : (throw e : Except ε α) = .ok b ↔ False := by
  simp [throw, throwThe, MonadExceptOf.throw]

theorem exists_eq_ok {x : Except ε α} (h : x.isOk = true) : ∃ a, x = .ok a := by
  cases x with
  | error e => cases h
  | ok a => exact ⟨a, rfl⟩

/-- A loop of checks succeeds exactly when every check does. -/
@[simp] theorem forM_eq_ok {xs : List α} {f : α → Except ε Unit} {u : PUnit} :
    xs.forM f = .ok u ↔ ∀ x ∈ xs, f x = .ok () := by
  induction xs with
  | nil => simp
  | cons x xs ih =>
    simp only [List.forM_eq_forM] at ih
    simp only [List.forM_eq_forM, List.forM_cons, bind_eq_ok, ih, List.mem_cons, forall_eq_or_imp]
    constructor
    · rintro ⟨⟨⟩, hx, hxs⟩
      exact ⟨hx, hxs⟩
    · rintro ⟨hx, hxs⟩
      exact ⟨(), hx, hxs⟩

/-- A fold that succeeds on `x :: xs` succeeds on `x` first. -/
theorem foldlM_cons_eq_ok {f : β → α → Except ε β} {b c : β} {x : α} {xs : List α} :
    (x :: xs).foldlM f b = .ok c ↔ ∃ b', f b x = .ok b' ∧ xs.foldlM f b' = .ok c := by
  simp [List.foldlM_cons]

/-- What every round preserves holds after the last one. -/
theorem foldlM_preserves {f : β → α → Except ε β} {P : β → Prop} {b c : β} {xs : List α}
    (hstep : ∀ b x c, P b → f b x = .ok c → P c) (hb : P b) (h : xs.foldlM f b = .ok c) : P c := by
  induction xs generalizing b with
  | nil =>
    cases h
    exact hb
  | cons x xs ih =>
    obtain ⟨b', hx, hrest⟩ := foldlM_cons_eq_ok.mp h
    exact ih (hstep b x b' hb hx) hrest

end IcLaya.Fallible
