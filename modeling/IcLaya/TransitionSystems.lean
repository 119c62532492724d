import Mathlib.Data.List.Induction

/-!
# Runs of a transition function

A run folds a step function over a list of events. An invariant is shown for one step;
a property that needs an earlier step is found by splitting the run at that step.
-/
namespace IcLaya.TransitionSystems

variable {σ ε : Type} (step : σ → ε → σ)

def run (s : σ) (es : List ε) : σ := es.foldl step s

@[simp] theorem run_nil (s : σ) : run step s [] = s := rfl

theorem run_cons (s : σ) (e : ε) (es : List ε) : run step s (e :: es) = run step (step s e) es := rfl

theorem run_append (s : σ) (es fs : List ε) :
    run step s (es ++ fs) = run step (run step s es) fs := List.foldl_append

theorem run_concat (s : σ) (es : List ε) (e : ε) :
    run step s (es ++ [e]) = step (run step s es) e := by simp [run]

variable {step}

/-- What every step keeps, a run keeps. -/
theorem run_invariant (I : σ → Prop) (hstep : ∀ s e, I s → I (step s e)) {s : σ} (h : I s)
    (es : List ε) : I (run step s es) := by
  induction es generalizing s with
  | nil => exact h
  | cons e es ih => exact ih (hstep s e h)

/-- What every step keeps under an invariant, a run keeps. -/
theorem run_stable (I P : σ → Prop) (hI : ∀ s e, I s → I (step s e))
    (hP : ∀ s e, I s → P s → P (step s e)) {s : σ} (hi : I s) (hp : P s) (es : List ε) :
    P (run step s es) :=
  (run_invariant (fun s => I s ∧ P s) (fun s e h => ⟨hI s e h.1, hP s e h.1 h.2⟩) ⟨hi, hp⟩ es).2

/-- A property that holds at the end but not at the start begins at some step of the run. -/
theorem run_begins (P : σ → Prop) {s : σ} {es : List ε} (h0 : ¬P s) (h : P (run step s es)) :
    ∃ pre e post, es = pre ++ e :: post ∧ ¬P (run step s pre) ∧ P (run step s (pre ++ [e])) := by
  induction es using List.reverseRecOn with
  | nil => exact absurd h h0
  | append_singleton es e ih =>
    by_cases hp : P (run step s es)
    · obtain ⟨pre, f, post, rfl, hn, hy⟩ := ih hp
      exact ⟨pre, f, post ++ [e], by simp, hn, hy⟩
    · exact ⟨es, e, [], rfl, hp, h⟩

end IcLaya.TransitionSystems
