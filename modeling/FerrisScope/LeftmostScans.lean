import Mathlib.Data.Nat.Find
import Mathlib.Order.Bounds.Basic

/-!
# Scans from left to right

A scan takes the first place of an occurrence, goes on a fixed number of places after it, and so on to the
last occurrence. The occurrences that it takes do not overlap.
-/

namespace FerrisScope.LeftmostScans

/-- What a search from `start` on finds: the first occurrence, if there is one. -/
def First (occ : Nat → Prop) (start : Nat) : Option Nat → Prop
  | some i => IsLeast {k | start ≤ k ∧ occ k} i
  | none => ∀ k, start ≤ k → ¬ occ k

theorem First.hit {occ : Nat → Prop} {start : Nat} (h : occ start) : First occ start (some start) :=
  ⟨⟨Nat.le_refl start, h⟩, fun _ hk => hk.1⟩

theorem First.next {occ : Nat → Prop} {start : Nat} {r : Option Nat} (hr : First occ (start + 1) r) (h : ¬ occ start) :
    First occ start r := by
  have hlater : ∀ k, start ≤ k → occ k → start + 1 ≤ k := fun k hk hocc =>
    Nat.lt_of_le_of_ne hk fun heq => h (heq ▸ hocc)
  cases r with
  | none => exact fun k hk hocc => hr k (hlater k hk hocc) hocc
  | some i => exact ⟨⟨Nat.le_of_succ_le hr.1.1, hr.1.2⟩, fun k hk => hr.2 ⟨hlater k hk.1 hk.2, hk.2⟩⟩

/-- A search in what is left after `d` places. -/
theorem First.shift {occ occ' : Nat → Prop} {start d : Nat} {r : Option Nat} (hr : First occ 0 r) (hd : start ≤ d)
    (h : ∀ k, start ≤ k → (occ' k ↔ ∃ j, occ j ∧ k = d + j)) : First occ' start (r.map (d + ·)) := by
  cases r with
  | none =>
    intro k hk hocc
    obtain ⟨j, hj, -⟩ := (h k hk).mp hocc
    exact hr j (Nat.zero_le j) hj
  | some i =>
    have hle : start ≤ d + i := Nat.le_trans hd (Nat.le_add_right d i)
    refine ⟨⟨hle, (h _ hle).mpr ⟨i, hr.1.2, rfl⟩⟩, fun k hk => ?_⟩
    obtain ⟨j, hj, rfl⟩ := (h k hk.1).mp hk.2
    exact Nat.add_le_add_left (hr.2 ⟨Nat.zero_le j, hj⟩) d

/-- The places that are taken when the scan begins at `start`. -/
inductive Scan (occ : Nat → Prop) (n : Nat) : Nat → List Nat → Prop
  | done {start : Nat} : (∀ k, start ≤ k → ¬ occ k) → Scan occ n start []
  | found {start i : Nat} {rest : List Nat} :
    IsLeast {k | start ≤ k ∧ occ k} i → Scan occ n (i + n) rest → Scan occ n start (i :: rest)

variable {occ : Nat → Prop} {n : Nat}

theorem Scan.unique {start : Nat} {ps qs : List Nat} (hp : Scan occ n start ps) (hq : Scan occ n start qs) : ps = qs := by
  induction hp generalizing qs with
  | done hnone =>
    cases hq with
    | done => rfl
    | found hi => exact absurd hi.1.2 (hnone _ hi.1.1)
  | found hi _ ih =>
    cases hq with
    | done hnone => exact absurd hi.1.2 (hnone _ hi.1.1)
    | found hj hrest =>
      obtain rfl := hi.unique hj
      exact congrArg _ (ih hrest)

/-- Where the occurrences end before some place, each scan comes to an end. -/
theorem exists_scan (hn : 0 < n) {bound : Nat} (hbound : ∀ k, occ k → k < bound) (start : Nat) :
    ∃ ps, Scan occ n start ps := by
  classical
  induction hleft : bound - start using Nat.strong_induction_on generalizing start with
  | _ left ih =>
    by_cases h : ∃ k, start ≤ k ∧ occ k
    · have hspec := Nat.find_spec h
      have hleast : IsLeast {k | start ≤ k ∧ occ k} (Nat.find h) := ⟨hspec, fun k hk => Nat.find_min' h hk⟩
      have hlt := hbound _ hspec.2
      have hle := hspec.1
      obtain ⟨ps, hps⟩ := ih (bound - (Nat.find h + n)) (by omega) _ rfl
      exact ⟨_, .found hleast hps⟩
    · exact ⟨[], .done fun k hk hocc => h ⟨k, hk, hocc⟩⟩

end FerrisScope.LeftmostScans
