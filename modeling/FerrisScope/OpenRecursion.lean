import Mathlib.Tactic.Common

/-!
# Recursion through an open body

A recursive function is given by its body, in which the recursive calls are a parameter. When
the body only asks for results at arguments of a smaller measure, running it for as many rounds
as the measure of the argument yields a function that satisfies the recursion equation, and the
only one.
-/

namespace FerrisScope.OpenRecursion

variable {α β : Type*}

/-- The result at an argument depends on the recursive results at smaller arguments alone. -/
def Descends (μ : α → ℕ) (body : (α → β) → α → β) : Prop :=
  ∀ f g x, (∀ y, μ y < μ x → f y = g y) → body f x = body g x

def rounds (body : (α → β) → α → β) (stop : α → β) : ℕ → α → β
  | 0 => stop
  | n + 1 => body (rounds body stop n)

def run (μ : α → ℕ) (body : (α → β) → α → β) (stop : α → β) (x : α) : β :=
  rounds body stop (μ x + 1) x

variable {μ : α → ℕ} {body : (α → β) → α → β} {stop stop' : α → β}

/-- After enough rounds nothing depends on how the recursion was stopped. -/
theorem rounds_congr (h : Descends μ body) {n m : ℕ} {x : α} (hn : μ x < n) (hm : μ x < m) :
    rounds body stop n x = rounds body stop' m x := by
  induction n generalizing m x with
  | zero => cases hn
  | succ n ih =>
    cases m with
    | zero => cases hm
    | succ m =>
      apply h
      intro y hy
      apply ih
      · exact Nat.lt_of_lt_of_le hy (Nat.le_of_lt_succ hn)
      · exact Nat.lt_of_lt_of_le hy (Nat.le_of_lt_succ hm)

/-- The recursion equation. -/
theorem run_eq (h : Descends μ body) (x : α) :
    run μ body stop x = body (run μ body stop) x := by
  apply h
  intro y hy
  exact rounds_congr h hy (Nat.lt_succ_self _)

end FerrisScope.OpenRecursion
