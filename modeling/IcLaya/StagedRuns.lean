import IcLaya.Fallible

/-!
# Fallible computations in stages

`times f n` runs one fallible step `n` times and `stages f n w` runs the stages numbered `n` to
`n + w - 1`. Both split at any point, so a computation that is interrupted between two stages and
taken up again is the uninterrupted one.
-/
namespace IcLaya.StagedRuns

variable {α σ ε : Type}

/-- `n` runs of a step; the first failure ends them. -/
def times (f : α → Except ε α) : ℕ → α → Except ε α
  | 0, a => .ok a
  | n + 1, a => f a >>= times f n

/-- `w` stages in order, the first of them number `n`. -/
def stages (f : ℕ → σ → Except ε σ) : ℕ → ℕ → σ → Except ε σ
  | _, 0, x => .ok x
  | n, w + 1, x => f n x >>= stages f (n + 1) w

@[simp] theorem times_zero (f : α → Except ε α) (a : α) : times f 0 a = .ok a := rfl

@[simp] theorem stages_zero (f : ℕ → σ → Except ε σ) (n : ℕ) (x : σ) : stages f n 0 x = .ok x := rfl

private theorem bind_ok (x : Except ε α) : (x >>= fun a => .ok a) = x := by
  cases x <;> rfl

private theorem bind_assoc {β γ : Type} (x : Except ε α) (f : α → Except ε β)
    (g : β → Except ε γ) : (x >>= f) >>= g = x >>= fun a => f a >>= g := by
  cases x <;> rfl

theorem times_add (f : α → Except ε α) (m n : ℕ) (a : α) :
    times f (m + n) a = times f m a >>= times f n := by
  induction m generalizing a with
  | zero => simp [times]
  | succ m ih =>
    rw [Nat.succ_add, times, times, bind_assoc]
    congr 1
    funext b
    exact ih b

theorem stages_add (f : ℕ → σ → Except ε σ) (n v w : ℕ) (x : σ) :
    stages f n (v + w) x = stages f n v x >>= stages f (n + v) w := by
  induction v generalizing n x with
  | zero => simp
  | succ v ih =>
    rw [Nat.succ_add, stages, stages, bind_assoc, Nat.add_comm v 1, ← Nat.add_assoc]
    congr 1
    funext y
    exact ih (n + 1) y

@[simp] theorem stages_one (f : ℕ → σ → Except ε σ) (n : ℕ) (x : σ) : stages f n 1 x = f n x :=
  bind_ok (f n x)

/-- Stages that agree with the entries of a list are a loop over the list. -/
theorem stages_list {f : ℕ → σ → Except ε σ} {fs : List (σ → Except ε σ)} {n : ℕ}
    (h : ∀ i g, fs[i]? = some g → f (n + i) = g) (x : σ) :
    stages f n fs.length x = fs.foldlM (fun y g => g y) x := by
  induction fs generalizing n x with
  | nil => rfl
  | cons g gs ih =>
    have h0 : f n = g := h 0 g rfl
    have hs : ∀ i g', gs[i]? = some g' → f (n + 1 + i) = g' := by
      intro i g' hi
      rw [Nat.add_assoc, Nat.add_comm 1 i]
      exact h (i + 1) g' hi
    rw [List.length_cons, stages, List.foldlM_cons, h0]
    congr 1
    funext y
    exact ih hs y

end IcLaya.StagedRuns
