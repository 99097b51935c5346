import Mathlib.Data.List.Basic

/-!
# Runs that merge

A list of runs, each of one kind. What is pushed goes into the last run when that is of its kind and
starts a new run otherwise; nothing is pushed as an empty run.
-/

namespace FerrisScope.MergedRuns

variable {κ α : Type*} [DecidableEq κ]

def push (runs : List (κ × List α)) (k : κ) (xs : List α) : List (κ × List α) :=
  if xs.isEmpty then runs
  else match runs.getLast? with
    | some (last, ys) => if last = k then runs.dropLast ++ [(last, ys ++ xs)] else runs ++ [(k, xs)]
    | none => runs ++ [(k, xs)]

variable {runs front : List (κ × List α)} {k l : κ} {xs ys : List α}

@[simp] theorem push_nil : push runs k [] = runs := rfl

theorem push_same : push (front ++ [(k, ys)]) k xs = front ++ [(k, ys ++ xs)] := by
  cases xs with
  | nil => simp
  | cons x xs => simp [push]

theorem push_empty (hx : xs ≠ []) : push ([] : List (κ × List α)) k xs = [(k, xs)] := by
  cases xs with
  | nil => exact absurd rfl hx
  | cons x xs => rfl

theorem push_other (hx : xs ≠ []) (h : l ≠ k) :
    push (front ++ [(l, ys)]) k xs = front ++ [(l, ys), (k, xs)] := by
  cases xs with
  | nil => exact absurd rfl hx
  | cons x xs => simp [push, h]

/-- The last run is of the kind that is pushed, or a run is added. -/
theorem push_cases (hx : xs ≠ []) (runs : List (κ × List α)) (k : κ) :
    (∃ front ys, runs = front ++ [(k, ys)] ∧ push runs k xs = front ++ [(k, ys ++ xs)]) ∨
      push runs k xs = runs ++ [(k, xs)] := by
  rcases List.eq_nil_or_concat' runs with rfl | ⟨front, ⟨l, ys⟩, rfl⟩
  · exact .inr (push_empty hx)
  · by_cases h : l = k
    · subst h
      exact .inl ⟨front, ys, rfl, push_same⟩
    · right
      rw [push_other hx h, List.append_assoc]
      rfl

theorem push_push : push (push runs k xs) k ys = push runs k (xs ++ ys) := by
  by_cases hx : xs = []
  · rw [hx, push_nil, List.nil_append]
  · rcases List.eq_nil_or_concat' runs with rfl | ⟨front, ⟨l, zs⟩, rfl⟩
    · have hnext : push ([] ++ [(k, xs)]) k ys = [] ++ [(k, xs ++ ys)] := push_same
      rw [push_empty hx, push_empty (by simp [hx])]
      exact hnext
    · by_cases h : l = k
      · subst h
        rw [push_same, push_same, push_same, List.append_assoc]
      · have hnext : push ((front ++ [(l, zs)]) ++ [(k, xs)]) k ys =
            (front ++ [(l, zs)]) ++ [(k, xs ++ ys)] := push_same
        rw [push_other hx h, push_other (by simp [hx]) h]
        simpa using hnext

end FerrisScope.MergedRuns
