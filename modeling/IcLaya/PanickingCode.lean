import IcLaya.Fallible
import Mathlib.Algebra.Group.Nat.Defs

/-!
# Code that can panic

A computation returns, raises an error, or panics: on a slice out of range, on arithmetic that
leaves the machine word, on an `unwrap`. A word has a target's width; every target has at least 32
bits. Panics are values here, so that their absence can be proved.
-/
namespace IcLaya.PanickingCode
open Fallible

inductive Fault (ε : Type) | panic | raise (e : ε) deriving DecidableEq

abbrev Code (ε α : Type) := Except (Fault ε) α

/-- The width of `usize`. -/
inductive Target | bits32 | bits64 deriving DecidableEq

def Target.words : Target → ℕ | bits32 => 2 ^ 32 | bits64 => 2 ^ 64

theorem Target.le_words (t : Target) : 2 ^ 32 ≤ t.words := by
  cases t <;> decide

variable {ε α β : Type} (t : Target)

/-- A call of code that does not panic. -/
def call (x : Except ε α) : Code ε α := x.mapError .raise

def reject (c : Prop) [Decidable c] (e : ε) : Code ε Unit := rejectIf c (.raise e)

def unwrap (x : Option α) : Code ε α := okOr x .panic

/-- `usize` arithmetic, with overflow checks. -/
def add (a b : ℕ) : Code ε ℕ := if a + b < t.words then .ok (a + b) else .error .panic
def mul (a b : ℕ) : Code ε ℕ := if a * b < t.words then .ok (a * b) else .error .panic
def sub (a b : ℕ) : Code ε ℕ := if b ≤ a then .ok (a - b) else .error .panic

def checkedAdd (a b : ℕ) : Option ℕ := if a + b < t.words then some (a + b) else none
def checkedMul (a b : ℕ) : Option ℕ := if a * b < t.words then some (a * b) else none

/-- `&bytes[a..b]`. -/
def slice (bytes : List α) (a b : ℕ) : Code ε (List α) :=
  if a ≤ b ∧ b ≤ bytes.length then .ok ((bytes.take b).drop a) else .error .panic

@[simp] theorem mapError_eq_ok {δ : Type} {x : Except ε α} {f : ε → δ} {a : α} :
    x.mapError f = .ok a ↔ x = .ok a := by
  cases x <;> simp [Except.mapError]

@[simp] theorem call_eq_ok {x : Except ε α} {a : α} : call x = .ok a ↔ x = .ok a := mapError_eq_ok

@[simp] theorem call_ok (a : α) : call (.ok a : Except ε α) = .ok a := rfl

@[simp] theorem call_eq_raise {x : Except ε α} {e : ε} :
    call x = .error (.raise e) ↔ x = .error e := by
  cases x <;> simp [call, Except.mapError]

@[simp] theorem call_ne_panic (x : Except ε α) : call x ≠ .error .panic := by
  cases x <;> simp [call, Except.mapError]

@[simp] theorem reject_eq_ok {c : Prop} [Decidable c] {e : ε} {u : Unit} :
    reject c e = .ok u ↔ ¬c := rejectIf_eq_ok

/-- A check that passes. -/
theorem reject_pass {c : Prop} [Decidable c] (h : ¬c) (e : ε) (f : Unit → Code ε β) :
    (reject c e >>= f) = f () := rejectIf_bind h _ f

/-- A check that ends the block. -/
theorem reject_stop {c : Prop} [Decidable c] (h : c) (e : ε) (f : Unit → Code ε β) :
    (reject c e >>= f) = .error (.raise e) := rejectIf_stop h _ f

@[simp] theorem reject_ne_panic (c : Prop) [Decidable c] (e : ε) : reject c e ≠ .error .panic :=
  rejectIf_ne_error fun h => nomatch h

section Words
variable {t} {a b c : ℕ}

theorem add_of_lt (h : a + b < t.words) : (add t a b : Code ε ℕ) = .ok (a + b) := if_pos h
theorem mul_of_lt (h : a * b < t.words) : (mul t a b : Code ε ℕ) = .ok (a * b) := if_pos h
theorem sub_of_le (h : b ≤ a) : (sub a b : Code ε ℕ) = .ok (a - b) := if_pos h
theorem checkedAdd_of_lt (h : a + b < t.words) : checkedAdd t a b = some (a + b) := if_pos h
theorem checkedMul_of_lt (h : a * b < t.words) : checkedMul t a b = some (a * b) := if_pos h

theorem mul_eq_ok : (mul t a b : Code ε ℕ) = .ok c ↔ a * b < t.words ∧ a * b = c := by
  simp [mul, ite_eq_iff]

theorem checkedAdd_eq_some : checkedAdd t a b = some c ↔ a + b < t.words ∧ a + b = c := by
  simp [checkedAdd]

theorem checkedMul_eq_some : checkedMul t a b = some c ↔ a * b < t.words ∧ a * b = c := by
  simp [checkedMul]

end Words

section Slices
variable {bytes : List α} {a b : ℕ}

theorem slice_of_le (h : a ≤ b) (hb : b ≤ bytes.length) :
    (slice bytes a b : Code ε (List α)) = .ok ((bytes.drop a).take (b - a)) := by
  rw [slice, if_pos ⟨h, hb⟩, List.drop_take]

end Slices

/-- A block panics where one of its statements does. -/
theorem bind_ne_panic {x : Code ε α} {f : α → Code ε β} (hx : x ≠ .error .panic)
    (hf : ∀ a, x = .ok a → f a ≠ .error .panic) : (x >>= f) ≠ .error .panic := by
  cases x with
  | error e => exact fun he => hx (Except.error.inj he ▸ rfl)
  | ok a => exact hf a rfl

/-- A loop all of whose calls return collects what they return. -/
theorem mapM_eq_ok {xs : List α} {f : α → Code ε β} {g : α → β} (h : ∀ x ∈ xs, f x = .ok (g x)) :
    xs.mapM f = .ok (xs.map g) := by
  induction xs with
  | nil => rfl
  | cons x xs ih =>
    rw [List.mapM_cons, h x List.mem_cons_self, ok_bind,
      ih fun y hy => h y (List.mem_cons_of_mem x hy)]
    rfl

end IcLaya.PanickingCode
