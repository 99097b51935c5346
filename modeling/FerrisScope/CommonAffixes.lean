import Mathlib.Data.List.Infix
import Mathlib.Tactic.Common

/-!
# The longest front and back that lists share

The front is taken first and the back from what is left, and every list keeps an element between
them.
-/

namespace FerrisScope.CommonAffixes

variable {α : Type*}

/-- Every list starts with `front`, ends with `back` and has something between them. -/
def Covers (ls : List (List α)) (front back : List α) : Prop :=
  ∀ l ∈ ls, ∃ middle, middle ≠ [] ∧ l = front ++ middle ++ back

structure Longest (ls : List (List α)) (front back : List α) : Prop where
  covers : Covers ls front back
  front_max : ∀ front' back', Covers ls front' back' → front'.length ≤ front.length
  back_max : ∀ back', Covers ls front back' → back'.length ≤ back.length

variable {ls : List (List α)} {l front back front' back' middle : List α}

theorem Covers.lt_length (h : Covers ls front back) (hl : l ∈ ls) :
    front.length + back.length < l.length := by
  obtain ⟨middle, hmiddle, rfl⟩ := h l hl
  have hpos := List.length_pos_of_ne_nil hmiddle
  simp only [List.length_append]
  omega

theorem Longest.front_eq (h : Longest ls front back) (h' : Longest ls front' back') (hl : l ∈ ls) :
    front = front' := by
  have hlength : front.length = front'.length :=
    le_antisymm (h'.front_max _ _ h.covers) (h.front_max _ _ h'.covers)
  obtain ⟨middle, -, heq⟩ := h.covers l hl
  obtain ⟨middle', -, heq'⟩ := h'.covers l hl
  rw [heq, List.append_assoc, List.append_assoc] at heq'
  exact List.append_inj_left heq' hlength

/-- There is at most one longest front and back. -/
theorem Longest.unique (h : Longest ls front back) (h' : Longest ls front' back') (hl : l ∈ ls) :
    front = front' ∧ back = back' := by
  obtain rfl := h.front_eq h' hl
  refine ⟨rfl, ?_⟩
  have hlength : back.length = back'.length :=
    le_antisymm (h'.back_max _ h.covers) (h.back_max _ h'.covers)
  obtain ⟨middle, -, heq⟩ := h.covers l hl
  obtain ⟨middle', -, heq'⟩ := h'.covers l hl
  rw [heq] at heq'
  exact List.append_inj_right' heq' hlength

/-! ## Counting the places lists share -/

/-- How many of `n` numbers from `i` on pass before the first that does not. -/
def countWhile (p : ℕ → Bool) (i : ℕ) : ℕ → ℕ
  | 0 => 0
  | n + 1 => if p i then countWhile p (i + 1) n + 1 else 0

attribute [grind =] countWhile

theorem countWhile_le (p : ℕ → Bool) (i n : ℕ) : countWhile p i n ≤ n := by
  induction n generalizing i with
  | zero => exact Nat.le_refl 0
  | succ n ih =>
    rw [countWhile]
    split
    · exact Nat.succ_le_succ (ih (i + 1))
    · exact Nat.zero_le _

theorem countWhile_spec {p : ℕ → Bool} {i n j : ℕ} (h : j < countWhile p i n) : p (i + j) = true := by
  induction n generalizing i j with
  | zero => simp [countWhile] at h
  | succ n ih =>
    rw [countWhile] at h
    split at h
    · rename_i hp
      cases j with
      | zero => exact hp
      | succ j =>
        have hrest := ih (i := i + 1) (j := j) (by omega)
        rw [show i + (j + 1) = i + 1 + j by omega]
        exact hrest
    · simp at h

/-- The count reaches any number below which everything passes. -/
theorem le_countWhile {p : ℕ → Bool} {i n k : ℕ} (hk : k ≤ n) (h : ∀ j < k, p (i + j) = true) :
    k ≤ countWhile p i n := by
  induction n generalizing i k with
  | zero => omega
  | succ n ih =>
    cases k with
    | zero => exact Nat.zero_le _
    | succ k =>
      rw [countWhile, if_pos (by simpa using h 0 (Nat.succ_pos k))]
      refine Nat.succ_le_succ (ih (i := i + 1) (by omega) fun j hj => ?_)
      rw [show i + 1 + j = i + (j + 1) by omega]
      exact h (j + 1) (by omega)

/-- Lists that agree with `first` at the first `k` places start with its first `k` elements. -/
theorem prefix_of_agree {first : List α} {k : ℕ} (hk : k ≤ l.length) (hfirst : k ≤ first.length)
    (h : ∀ j < k, l[j]? = first[j]?) : first.take k <+: l := by
  have htake : first.take k = l.take k := by
    apply List.ext_getElem?
    intro j
    rcases Nat.lt_or_ge j k with hj | hj
    · rw [List.getElem?_take_of_lt hj, List.getElem?_take_of_lt hj, h j hj]
    · rw [List.getElem?_take_eq_none hj, List.getElem?_take_eq_none hj]
  rw [htake]
  exact List.take_prefix k l

end FerrisScope.CommonAffixes
