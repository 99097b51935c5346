import Mathlib.Data.List.Basic

/-!
# Receivers of a bounded broadcast

Values are appended to a log of which a receiver can read the last `cap` only. One that has fallen behind goes on with the
oldest of these. Whatever it misses, it takes values in their order, and once it has caught up the last it took is the last
of the log.
-/

namespace FerrisScope.LaggingReceivers

variable {α : Type*}

structure Receiver (α : Type*) where
  pos : ℕ
  got : List α

def recv (cap : ℕ) (log : List α) (r : Receiver α) : Option (Receiver α) :=
  if r.pos + cap < log.length then some { r with pos := log.length - cap }
  else (log[r.pos]?).map fun a => ⟨r.pos + 1, r.got ++ [a]⟩

/-- The receiver was there before the first value. -/
structure Follows (log : List α) (r : Receiver α) : Prop where
  le : r.pos ≤ log.length
  sub : List.Sublist r.got (log.take r.pos)
  last : r.pos = log.length → r.got.getLast? = log.getLast?

variable {cap : ℕ} {log : List α} {r r' : Receiver α}

theorem follows_nil : Follows [] (⟨0, []⟩ : Receiver α) := ⟨Nat.le_refl _, List.Sublist.refl _, fun _ => rfl⟩

theorem Follows.append (h : Follows log r) (a : α) : Follows (log ++ [a]) r where
  le := by
    rw [List.length_append]
    exact Nat.le_add_right_of_le h.le
  sub := by
    rw [List.take_append_of_le_length h.le]
    exact h.sub
  last hpos := by
    have := h.le
    rw [List.length_append, List.length_singleton] at hpos
    omega

theorem Follows.recv (hcap : 0 < cap) (h : Follows log r) (hrecv : recv cap log r = some r') : Follows log r' := by
  rw [LaggingReceivers.recv] at hrecv
  split_ifs at hrecv with hbehind
  · cases hrecv
    refine ⟨Nat.sub_le _ _, h.sub.trans ?_, fun hpos => ?_⟩
    · have hle : r.pos ≤ log.length - cap := by omega
      exact (List.take_prefix_take_left hle).sublist
    · have hpos : log.length - cap = log.length := hpos
      omega
  · obtain ⟨a, ha, rfl⟩ := Option.map_eq_some_iff.mp hrecv
    obtain ⟨hlt, hget⟩ := List.getElem?_eq_some_iff.mp ha
    refine ⟨hlt, ?_, fun hpos => ?_⟩
    · rw [List.take_add_one, ha]
      exact h.sub.append (List.Sublist.refl _)
    · have hpos : r.pos + 1 = log.length := hpos
      rw [List.getLast?_concat, List.getLast?_eq_getElem?, ← hpos, Nat.add_sub_cancel, ha]

/-- So many values, one after the other. -/
def drain (cap : ℕ) (log : List α) : ℕ → Receiver α → Option (Receiver α)
  | 0, r => some r
  | n + 1, r => (recv cap log r).bind (drain cap log n)

theorem exists_drain_near (h : r.pos ≤ log.length) {k : ℕ} (hk : log.length = r.pos + k) (hcap : k ≤ cap) :
    ∃ r', drain cap log k r = some r' ∧ r'.pos = log.length := by
  induction k generalizing r with
  | zero => exact ⟨r, rfl, hk.symm⟩
  | succ k ih =>
    have hlt : r.pos < log.length := by omega
    have hrecv : recv cap log r = some ⟨r.pos + 1, r.got ++ [log[r.pos]]⟩ := by
      rw [recv, if_neg (by omega), List.getElem?_eq_getElem hlt]
      rfl
    rw [drain, hrecv, Option.bind_some]
    exact ih hlt (show log.length = r.pos + 1 + k by omega) (by omega)

/-- However far behind, a receiver catches up with one step more than values are kept. -/
theorem exists_drain (cap : ℕ) (h : r.pos ≤ log.length) :
    ∃ n, n ≤ cap + 1 ∧ ∃ r', drain cap log n r = some r' ∧ r'.pos = log.length := by
  by_cases hbehind : r.pos + cap < log.length
  · have hrecv : recv cap log r = some { r with pos := log.length - cap } := if_pos hbehind
    obtain ⟨r', hr', hpos⟩ := exists_drain_near (r := { r with pos := log.length - cap }) (Nat.sub_le _ _)
      (show log.length = log.length - cap + cap by omega) (Nat.le_refl cap)
    refine ⟨cap + 1, Nat.le_refl _, r', ?_, hpos⟩
    rw [drain, hrecv]
    exact hr'
  · have hnear : log.length - r.pos ≤ cap := by omega
    obtain ⟨r', hr', hpos⟩ := exists_drain_near h (k := log.length - r.pos) (by omega) hnear
    exact ⟨log.length - r.pos, by omega, r', hr', hpos⟩

end FerrisScope.LaggingReceivers
