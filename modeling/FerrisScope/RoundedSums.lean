import Mathlib.Algebra.BigOperators.Group.List.Basic
import Mathlib.Data.Rat.Floor
import Mathlib.Tactic.Linarith
import Mathlib.Tactic.Ring

/-!
# Sums of rounded numbers

Numbers are rounded to integers of 64 bits, halves away from zero, and the integers are added. Their sum is the rounded
sum when what the single roundings lose comes to less than one half.
-/

namespace FerrisScope.RoundedSums

def roundAway (x : ℚ) : ℤ := if 0 ≤ x then ⌊x + 1 / 2⌋ else -⌊-x + 1 / 2⌋

def minI64 : ℤ := -2 ^ 63

def maxI64 : ℤ := 2 ^ 63 - 1

/-- The nearest integer of 64 bits. -/
def toI64 (x : ℚ) : ℤ := max minI64 (min maxI64 (roundAway x))

/-- What an addition leaves in 64 bits. -/
def wrap (n : ℤ) : ℤ := n.bmod (2 ^ 64)

def roundedSum (xs : List ℚ) : ℤ := (xs.map toI64).sum

/-- What the roundings lose. -/
def loss (xs : List ℚ) : ℚ := (xs.map fun x => x - toI64 x).sum

/-- The rounded numbers have a sum of 64 bits and lose less than one half, or their sum is wrapped to the rounded one. -/
def SumsEvenly (xs : List ℚ) : Prop :=
  (0 ≤ roundedSum xs ∧ roundedSum xs ≤ maxI64 ∧ (0 < roundedSum xs → -1 / 2 ≤ loss xs) ∧
    (roundedSum xs < maxI64 → loss xs < 1 / 2)) ∨
  ((roundedSum xs < minI64 ∨ maxI64 < roundedSum xs) ∧ wrap (roundedSum xs) = max 0 (toI64 xs.sum))

theorem wrap_add (a b : ℤ) : wrap (wrap a + b) = wrap (a + b) := Int.bmod_add_bmod

theorem wrap_of_fits {n : ℤ} (hmin : minI64 ≤ n) (hmax : n ≤ maxI64) : wrap n = n := by
  rw [minI64] at hmin
  rw [maxI64] at hmax
  exact Int.bmod_eq_of_le_mul_two (by omega) (by omega)

theorem roundedSum_add_loss (xs : List ℚ) : (roundedSum xs : ℚ) + loss xs = xs.sum := by
  induction xs with
  | nil => simp [roundedSum, loss]
  | cons x xs ih =>
    rw [roundedSum, loss, List.map_cons, List.sum_cons, List.map_cons, List.sum_cons, List.sum_cons, ← ih, roundedSum, loss]
    push_cast
    ring

/-- Up to the sign, halves are rounded up. -/
theorem max_zero_toI64 (x : ℚ) : max 0 (toI64 x) = max 0 (min maxI64 ⌊x + 1 / 2⌋) := by
  have hmin : minI64 ≤ 0 := by decide
  have hmax : 0 ≤ maxI64 := by decide
  rw [toI64, roundAway]
  split
  · omega
  · next hneg =>
    have hfloor : ⌊x + 1 / 2⌋ ≤ 0 := by
      have hlt : ⌊x + 1 / 2⌋ < 1 := Int.floor_lt.mpr (by push_cast; linarith)
      omega
    have hround : 0 ≤ ⌊-x + 1 / 2⌋ := Int.le_floor.mpr (by push_cast; linarith)
    omega

/-- A number of 64 bits is the rounded one when they are near. -/
theorem eq_toI64_iff {n : ℤ} {x : ℚ} (hmax : n ≤ maxI64) :
    n = max 0 (toI64 x) ↔ 0 ≤ n ∧ (0 < n → (n : ℚ) - 1 / 2 ≤ x) ∧ (n < maxI64 → x < n + 1 / 2) := by
  have hle : (n : ℚ) - 1 / 2 ≤ x ↔ n ≤ ⌊x + 1 / 2⌋ := by
    rw [Int.le_floor]
    constructor <;> intro h <;> linarith
  have hlt : x < (n : ℚ) + 1 / 2 ↔ ⌊x + 1 / 2⌋ < n + 1 := by
    rw [Int.floor_lt]
    push_cast
    constructor <;> intro h <;> linarith
  have hpos : 0 ≤ maxI64 := by decide
  rw [hle, hlt, max_zero_toI64]
  omega

/-- The sum of the rounded numbers is the rounded sum exactly when they sum evenly. -/
theorem wrap_roundedSum_iff (xs : List ℚ) : wrap (roundedSum xs) = max 0 (toI64 xs.sum) ↔ SumsEvenly xs := by
  have hsum := roundedSum_add_loss xs
  by_cases hfits : minI64 ≤ roundedSum xs ∧ roundedSum xs ≤ maxI64
  · obtain ⟨hmin, hmax⟩ := hfits
    have hlow : ((roundedSum xs : ℚ) - 1 / 2 ≤ xs.sum) ↔ -1 / 2 ≤ loss xs := by
      constructor <;> intro h <;> linarith
    have hhigh : xs.sum < (roundedSum xs : ℚ) + 1 / 2 ↔ loss xs < 1 / 2 := by
      constructor <;> intro h <;> linarith
    have hin : ¬ (roundedSum xs < minI64 ∨ maxI64 < roundedSum xs) := by omega
    rw [wrap_of_fits hmin hmax, eq_toI64_iff hmax, hlow, hhigh, SumsEvenly, or_iff_left fun h => hin h.1,
      and_iff_right hmax]
  · have hout : roundedSum xs < minI64 ∨ maxI64 < roundedSum xs := by omega
    have hnot : ¬ (0 ≤ roundedSum xs ∧ roundedSum xs ≤ maxI64 ∧ (0 < roundedSum xs → -1 / 2 ≤ loss xs) ∧
        (roundedSum xs < maxI64 → loss xs < 1 / 2)) := by
      rintro ⟨hzero, hmax, -⟩
      have hmin : minI64 ≤ 0 := by decide
      omega
    rw [SumsEvenly, or_iff_right hnot, and_iff_right hout]

end FerrisScope.RoundedSums
