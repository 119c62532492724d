import Mathlib.Tactic.Common

/-!
# Methods that raise

A method of an object reads and assigns its fields and can raise. What it assigned before it raised
stays assigned, so a method is a function from the object to an outcome and the object as it is left.
-/
namespace IcLaya.RaisingMethods

variable {σ ε α β : Type}

def Method (σ ε α : Type) : Type := σ → Except ε α × σ

namespace Method

def returns (a : α) : Method σ ε α := fun s => (.ok a, s)

def andThen (x : Method σ ε α) (f : α → Method σ ε β) : Method σ ε β := fun s =>
  match x s with
  | (.ok a, s') => f a s'
  | (.error e, s') => (.error e, s')

instance : Monad (Method σ ε) where
  pure := returns
  bind := andThen

/-- The object itself. -/
def self : Method σ ε σ := fun s => (.ok s, s)

def assign (f : σ → σ) : Method σ ε Unit := fun s => (.ok (), f s)

/-- A computation that can raise and does not touch the object. -/
def eval (x : Except ε α) : Method σ ε α := fun s => (x, s)

def raise (e : ε) : Method σ ε α := fun s => (.error e, s)

/-- `if c: raise e`. -/
def raiseIf (c : Prop) [Decidable c] (e : ε) : Method σ ε Unit := if c then raise e else returns ()

section Outcomes
variable {s s' : σ} {a : α} {b : β} {e e' : ε} {x : Method σ ε α} {f : α → Method σ ε β}

theorem bind_of_ok (h : x s = (.ok a, s')) : (x >>= f) s = f a s' := by
  show andThen x f s = _
  rw [andThen, h]

theorem bind_of_error (h : x s = (.error e, s')) : (x >>= f) s = (.error e, s') := by
  show andThen x f s = _
  rw [andThen, h]

/-- A block that returns has a first statement that returns. -/
theorem bind_eq_ok : (x >>= f) s = (.ok b, s') ↔
    ∃ a s₁, x s = (.ok a, s₁) ∧ f a s₁ = (.ok b, s') := by
  rcases hx : x s with ⟨e | a, s₁⟩
  · simp [bind_of_error hx]
  · simp [bind_of_ok hx]

/-- A block that raises does so at its first statement or after it. -/
theorem bind_eq_error : (x >>= f) s = (.error e, s') ↔ x s = (.error e, s') ∨
    ∃ a s₁, x s = (.ok a, s₁) ∧ f a s₁ = (.error e, s') := by
  rcases hx : x s with ⟨e | a, s₁⟩
  · simp [bind_of_error hx]
  · simp [bind_of_ok hx]

@[simp] theorem pure_apply : (pure a : Method σ ε α) s = (.ok a, s) := rfl

@[simp] theorem self_apply : (self : Method σ ε σ) s = (.ok s, s) := rfl

@[simp] theorem assign_apply {g : σ → σ} : (assign g : Method σ ε Unit) s = (.ok (), g s) := rfl

@[simp] theorem eval_apply {y : Except ε α} : (eval y : Method σ ε α) s = (y, s) := rfl

@[simp] theorem raise_apply : (raise e : Method σ ε α) s = (.error e, s) := rfl

@[simp] theorem raiseIf_eq_ok {c : Prop} [Decidable c] {u : Unit} :
    (raiseIf c e : Method σ ε Unit) s = (.ok u, s') ↔ ¬c ∧ s = s' := by
  by_cases h : c <;> simp [raiseIf, h, returns]

@[simp] theorem raiseIf_eq_error {c : Prop} [Decidable c] :
    (raiseIf c e : Method σ ε Unit) s = (.error e', s') ↔ c ∧ e = e' ∧ s = s' := by
  by_cases h : c <;> simp [raiseIf, h, returns]

/-- A guard that is passed. -/
theorem raiseIf_bind {c : Prop} [Decidable c] (h : ¬c) {g : Unit → Method σ ε β} :
    (raiseIf c e >>= g) s = g () s := bind_of_ok (raiseIf_eq_ok.mpr ⟨h, rfl⟩)

theorem eval_bind_ok {y : Except ε α} (h : y = .ok a) : (eval y >>= f) s = f a s :=
  bind_of_ok (congrArg (·, s) h)

theorem eval_bind_error {y : Except ε α} (h : y = .error e) : (eval y >>= f) s = (.error e, s) :=
  bind_of_error (congrArg (·, s) h)

end Outcomes

end Method

end IcLaya.RaisingMethods
