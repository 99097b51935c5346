import Mathlib.Data.List.Forall2

/-!
# Traversals of a list that may fail
-/

namespace FerrisScope.ListTraversals

variable {α β : Type*} {f : α → Option β} {xs : List α}

theorem mapM_eq_some {ys : List β} (h : xs.mapM f = some ys) : List.Forall₂ (fun x y => f x = some y) xs ys := by
  induction xs generalizing ys with
  | nil =>
    rw [List.mapM_nil] at h
    rw [← Option.some_inj.mp h]
    exact .nil
  | cons x xs ih =>
    rw [List.mapM_cons] at h
    obtain ⟨y, hy, hrest⟩ := Option.bind_eq_some_iff.mp h
    obtain ⟨ys', hys, heq⟩ := Option.bind_eq_some_iff.mp hrest
    rw [← Option.some_inj.mp heq]
    exact .cons hy (ih hys)

theorem mapM_eq_none : xs.mapM f = none ↔ ∃ x ∈ xs, f x = none := by
  induction xs with
  | nil => simp
  | cons x xs ih =>
    rw [List.mapM_cons, List.exists_mem_cons_iff, ← ih]
    cases f x with
    | none => simp
    | some y => cases xs.mapM f <;> simp

/-- What a traversal that succeeds gives are the results that there are. -/
theorem mapM_eq_some_filterMap {ys : List β} (h : xs.mapM f = some ys) : ys = xs.filterMap f := by
  have hall := mapM_eq_some h
  clear h
  induction hall with
  | nil => rfl
  | cons hx _ ih => rw [List.filterMap_cons_some hx, ← ih]

/-- A traversal that may fail with an error, each success of which is the value of a function. -/
theorem mapM_eq_ok_map {ε : Type*} {g : α → Except ε β} {h : α → β} (hg : ∀ x y, g x = .ok y → y = h x) {ys : List β}
    (hys : xs.mapM g = .ok ys) : ys = xs.map h ∧ ∀ x ∈ xs, g x = .ok (h x) := by
  induction xs generalizing ys with
  | nil =>
    cases hys
    exact ⟨rfl, by simp⟩
  | cons x xs ih =>
    rw [List.mapM_cons] at hys
    cases hx : g x with
    | error e =>
      rw [hx] at hys
      cases hys
    | ok y =>
      cases hrest : xs.mapM g with
      | error e =>
        rw [hx, hrest] at hys
        cases hys
      | ok ys' =>
        rw [hx, hrest] at hys
        cases hys
        obtain ⟨rfl, hall⟩ := ih hrest
        obtain rfl := hg x y hx
        exact ⟨rfl, List.forall_mem_cons.mpr ⟨hx, hall⟩⟩

end FerrisScope.ListTraversals
