import Mathlib.Data.Nat.ModEq
import Mathlib.Data.List.DropRight
import Mathlib.Tactic.Common

/-!
# Circular cells

A list kept in a row of `n` cells, from a starting cell on and around the end. An element can be added
behind the last one, or written over the first one when the row is full. What is kept of a list that
is too long are its newest elements.
-/

namespace FerrisScope.CircularCells

variable {α : Type*}

/-- The cell `i` places after the first one. -/
def cellAt (cells : List (Option α)) (n start i : ℕ) : Option α := cells[(start + i) % n]?.join

/-- The row holds the list. -/
structure Contents (cells : List (Option α)) (n start : ℕ) (l : List α) : Prop where
  length_cells : cells.length = n
  start_lt : start < n
  length_le : l.length ≤ n
  get : ∀ i < l.length, cellAt cells n start i = l[i]?

variable {cells : List (Option α)} {n start : ℕ} {l : List α}

theorem wrap_injective {i j : ℕ} (hi : i < n) (hj : j < n) (h : (start + i) % n = (start + j) % n) : i = j := by
  have hmod : i ≡ j [MOD n] := Nat.ModEq.add_left_cancel' start h
  exact Nat.ModEq.eq_of_lt_of_lt hmod hi hj

theorem cellAt_set_self (hlen : cells.length = n) (hn : 0 < n) (i : ℕ) (a : α) :
    cellAt (cells.set ((start + i) % n) (some a)) n start i = some a := by
  have hlt : (start + i) % n < cells.length := (Nat.mod_lt _ hn).trans_eq hlen.symm
  rw [cellAt, List.getElem?_set_self hlt]
  rfl

theorem cellAt_set_of_ne {i j : ℕ} (hi : i < n) (hj : j < n) (h : j ≠ i) (a : α) :
    cellAt (cells.set ((start + j) % n) (some a)) n start i = cellAt cells n start i := by
  rw [cellAt, cellAt, List.getElem?_set_ne fun heq => h (wrap_injective hj hi heq)]

theorem cellAt_succ (i : ℕ) : cellAt cells n ((start + 1) % n) i = cellAt cells n start (i + 1) := by
  rw [cellAt, cellAt, Nat.mod_add_mod, Nat.add_right_comm, Nat.add_assoc]

/-- An empty row. -/
theorem contents_replicate (hn : 0 < n) : Contents (List.replicate n (none : Option α)) n 0 [] where
  length_cells := List.length_replicate
  start_lt := hn
  length_le := Nat.zero_le n
  get i hi := absurd hi (Nat.not_lt_zero i)

/-- Adding behind the last element. -/
theorem Contents.append (h : Contents cells n start l) (hlt : l.length < n) (a : α) :
    Contents (cells.set ((start + l.length) % n) (some a)) n start (l ++ [a]) where
  length_cells := List.length_set.trans h.length_cells
  start_lt := h.start_lt
  length_le := by
    rw [List.length_append, List.length_singleton]
    exact hlt
  get i hi := by
    rw [List.length_append, List.length_singleton] at hi
    rcases Nat.lt_or_eq_of_le (Nat.le_of_lt_succ hi) with hold | rfl
    · rw [cellAt_set_of_ne (hold.trans hlt) hlt hold.ne', h.get i hold, List.getElem?_append_left hold]
    · rw [cellAt_set_self h.length_cells (Nat.zero_lt_of_lt hlt), List.getElem?_concat_length]

/-- Writing over the first element of a full row. -/
theorem Contents.overwrite (h : Contents cells n start l) (hfull : l.length = n) (a : α) :
    Contents (cells.set start (some a)) n ((start + 1) % n) (l.tail ++ [a]) where
  length_cells := List.length_set.trans h.length_cells
  start_lt := Nat.mod_lt _ (Nat.zero_lt_of_lt h.start_lt)
  length_le := by
    have hn := h.start_lt
    simp only [List.length_append, List.length_tail, List.length_singleton]
    omega
  get i hi := by
    have hn := h.start_lt
    simp only [List.length_append, List.length_tail, List.length_singleton] at hi
    have hzero : (start + 0) % n = start := Nat.mod_eq_of_lt hn
    rw [cellAt_succ]
    rcases Nat.lt_or_ge i (n - 1) with hold | hlast
    · have hset : cellAt (cells.set ((start + 0) % n) (some a)) n start (i + 1) = cellAt cells n start (i + 1) :=
        cellAt_set_of_ne (by omega) (by omega) (by omega) a
      rw [hzero] at hset
      have hin : i < l.tail.length := by rw [List.length_tail]; omega
      rw [hset, h.get (i + 1) (by omega), List.getElem?_append_left hin, List.getElem?_tail]
    · have hi' : i + 1 = n := by omega
      have hwrap : (start + (i + 1)) % n = start := by rw [hi', Nat.add_mod_right, hzero.symm, Nat.add_zero, Nat.mod_mod]
      have hlen : l.tail.length = i := by rw [List.length_tail]; omega
      rw [cellAt, hwrap, List.getElem?_set_self (h.length_cells.symm ▸ hn), ← hlen, List.getElem?_concat_length]
      rfl

/-- Elements copied to the front of a new row. -/
theorem contents_copy (hn : 0 < n) (hle : l.length ≤ n) :
    Contents (l.map some ++ List.replicate (n - l.length) none) n 0 l where
  length_cells := by
    simp only [List.length_append, List.length_map, List.length_replicate]
    omega
  start_lt := hn
  length_le := hle
  get i hi := by
    have hmod : (0 + i) % n = i := by rw [Nat.zero_add, Nat.mod_eq_of_lt (hi.trans_le hle)]
    rw [cellAt, hmod, List.getElem?_append_left (by simpa using hi), List.getElem?_map,
      List.getElem?_eq_getElem hi]
    rfl

/-- All elements, read cell by cell. -/
theorem Contents.filterMap_range (h : Contents cells n start l) :
    (List.range l.length).filterMap (cellAt cells n start) = l := by
  have hmap : (List.range l.length).map (cellAt cells n start) = l.map some := by
    refine List.ext_getElem? fun i => ?_
    rcases Nat.lt_or_ge i l.length with hlt | hge
    · simp [hlt, h.get i hlt]
    · simp [hge]
  have hid : (List.range l.length).filterMap (cellAt cells n start) =
      ((List.range l.length).map (cellAt cells n start)).filterMap id := by
    rw [List.filterMap_map]
    rfl
  rw [hid, hmap, List.filterMap_map]
  exact List.filterMap_some

/-- The newest elements of a list, and one more. -/
theorem rtake_concat_of_lt {a : α} (h : l.length < n) : (l ++ [a]).rtake n = l ++ [a] := by
  rw [List.rtake, List.length_append, List.length_singleton, Nat.sub_eq_zero_of_le h, List.drop_zero]

theorem rtake_concat_of_eq {a : α} (h : l.length = n) (hn : 0 < n) : (l ++ [a]).rtake n = l.tail ++ [a] := by
  have hone : (l ++ [a]).length - n = 1 := by
    rw [List.length_append, List.length_singleton]
    omega
  rw [List.rtake, hone, List.drop_append_of_le_length (by omega), List.drop_one]

theorem rtake_eq_self (h : l.length ≤ n) : l.rtake n = l := by
  rw [List.rtake, Nat.sub_eq_zero_of_le h, List.drop_zero]

theorem length_rtake_le (l : List α) (n : ℕ) : (l.rtake n).length ≤ n := by
  rw [List.rtake, List.length_drop]
  omega

theorem rtake_suffix (l : List α) (n : ℕ) : l.rtake n <:+ l := List.drop_suffix _ _

end FerrisScope.CircularCells
