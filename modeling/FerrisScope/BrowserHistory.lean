import Mathlib.Data.List.Basic
import Mathlib.Data.List.TakeDrop

/-!
# Browser histories

The pages visited, in order, and a cursor at the one that is shown. Visiting drops what is past the
cursor and, over a capacity, the oldest of what is before it. A trail keeps the same history as two
stacks around the shown page, and every move on it is the move on the history.
-/

namespace FerrisScope.BrowserHistory

variable {α : Type*}

/-- The last `n` entries. -/
def lastN (n : ℕ) (l : List α) : List α := l.drop (l.length - n)

theorem length_lastN (n : ℕ) (l : List α) : (lastN n l).length = min n l.length := by
  rw [lastN, List.length_drop]
  omega

theorem lastN_sublist (n : ℕ) (l : List α) : (lastN n l).Sublist l := List.drop_sublist _ l

/-- The pages in order of visit and the index of the one shown. -/
@[ext] structure History (α : Type*) where
  entries : List α
  cursor : ℕ
  cursor_lt : cursor < entries.length

inductive Move (α : Type*) where
  | visit (a : α)
  | back
  | forward

def History.shown (h : History α) : α := h.entries.get ⟨h.cursor, h.cursor_lt⟩

def History.visit (cap : ℕ) (a : α) (h : History α) : History α where
  entries := lastN cap (h.entries.take (h.cursor + 1)) ++ [a]
  cursor := min cap (h.cursor + 1)
  cursor_lt := by
    have := h.cursor_lt
    rw [List.length_append, length_lastN, List.length_take, List.length_singleton]
    omega

def History.back (h : History α) : History α where
  entries := h.entries
  cursor := h.cursor - 1
  cursor_lt := by
    have := h.cursor_lt
    omega

def History.forward (h : History α) : History α where
  entries := h.entries
  cursor := min (h.cursor + 1) (h.entries.length - 1)
  cursor_lt := by
    have := h.cursor_lt
    omega

def History.move (cap : ℕ) (h : History α) : Move α → History α
  | .visit a => h.visit cap a
  | .back => h.back
  | .forward => h.forward

/-- The history as two stacks around the page shown. -/
structure Trail (α : Type*) where
  back : List α
  current : α
  forward : List α

def Trail.move (cap : ℕ) (t : Trail α) : Move α → Trail α
  | .visit a => ⟨lastN cap (t.back ++ [t.current]), a, []⟩
  | .back => t.back.getLast?.elim t fun p => ⟨t.back.dropLast, p, t.current :: t.forward⟩
  | .forward =>
    match t.forward with
    | [] => t
    | n :: rest => ⟨t.back ++ [t.current], n, rest⟩

def Trail.history (t : Trail α) : History α where
  entries := t.back ++ t.current :: t.forward
  cursor := t.back.length
  cursor_lt := by
    rw [List.length_append, List.length_cons]
    omega

theorem Trail.shown_history (t : Trail α) : t.history.shown = t.current := by
  simp [History.shown, Trail.history]

theorem Trail.history_visit (cap : ℕ) (t : Trail α) (a : α) :
    (t.move cap (.visit a)).history = t.history.visit cap a := by
  have htake : t.history.entries.take (t.history.cursor + 1) = t.back ++ [t.current] := by
    simp only [Trail.history]
    rw [List.take_append, List.take_of_length_le (Nat.le_succ _)]
    simp
  apply History.ext
  · simp only [History.visit, htake]
    rfl
  · simp only [Trail.move, Trail.history, History.visit, length_lastN, List.length_append, List.length_singleton]

theorem Trail.history_back (cap : ℕ) (t : Trail α) : (t.move cap .back).history = t.history.back := by
  rcases List.eq_nil_or_concat t.back with hnil | ⟨front, p, hsnoc⟩
  · apply History.ext
    · simp [Trail.move, hnil, History.back]
    · simp [Trail.move, hnil, History.back, Trail.history]
  · rw [List.concat_eq_append] at hsnoc
    apply History.ext
    · simp [Trail.move, hsnoc, History.back, Trail.history]
    · simp [Trail.move, hsnoc, History.back, Trail.history]

theorem Trail.history_forward (cap : ℕ) (t : Trail α) : (t.move cap .forward).history = t.history.forward := by
  cases hf : t.forward with
  | nil =>
    apply History.ext
    · simp [Trail.move, hf, History.forward]
    · simp [Trail.move, hf, History.forward, Trail.history]
  | cons n rest =>
    apply History.ext
    · simp [Trail.move, hf, History.forward, Trail.history]
    · simp [Trail.move, hf, History.forward, Trail.history]

/-- The two stacks simulate the history. -/
theorem Trail.history_move (cap : ℕ) (t : Trail α) (m : Move α) :
    (t.move cap m).history = t.history.move cap m := by
  cases m with
  | visit a => exact t.history_visit cap a
  | back => exact t.history_back cap
  | forward => exact t.history_forward cap

theorem History.length_move_le (cap : ℕ) (h : History α) (m : Move α) :
    (h.move cap m).entries.length ≤ max h.entries.length (cap + 1) := by
  cases m with
  | visit a =>
    simp only [History.move, History.visit, List.length_append, length_lastN, List.length_singleton]
    omega
  | back => exact Nat.le_max_left _ _
  | forward => exact Nat.le_max_left _ _

/-- A history never grows over its capacity, unless it began so. -/
theorem History.length_foldl_le (cap : ℕ) (h : History α) (ms : List (Move α)) :
    (ms.foldl (History.move cap) h).entries.length ≤ max h.entries.length (cap + 1) := by
  induction ms generalizing h with
  | nil => exact Nat.le_max_left _ _
  | cons m ms ih =>
    rw [List.foldl_cons]
    have hstep := h.length_move_le cap m
    have hrest := ih (h.move cap m)
    omega

/-- Without a visit nothing is forgotten. -/
theorem History.entries_foldl (cap : ℕ) (h : History α) {ms : List (Move α)} (hms : ∀ m ∈ ms, ∀ a, m ≠ .visit a) :
    (ms.foldl (History.move cap) h).entries = h.entries := by
  induction ms generalizing h with
  | nil => rfl
  | cons m ms ih =>
    rw [List.foldl_cons, ih _ fun m' hm' => hms m' (List.mem_cons_of_mem m hm')]
    cases m with
    | visit a => exact absurd rfl (hms _ List.mem_cons_self a)
    | back => rfl
    | forward => rfl

end FerrisScope.BrowserHistory
