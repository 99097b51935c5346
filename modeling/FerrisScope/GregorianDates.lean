import Mathlib.Algebra.Order.Ring.Int
import Mathlib.Tactic.Common

/-!
# Gregorian dates

Dates of the Gregorian calendar, extended to all years. Each has a number, counted from the
first day of year 1, that goes up by one from a date to the next and tells dates apart. The
day of the week is the remainder of that number.
-/

namespace FerrisScope.GregorianDates

def isLeap (y : ℤ) : Bool := decide (y % 4 = 0) && (decide (y % 100 ≠ 0) || decide (y % 400 = 0))

def monthLength (y : ℤ) (m : ℕ) : ℕ :=
  if m = 2 then if isLeap y then 29 else 28
  else if m ∈ [4, 6, 9, 11] then 30
  else 31

@[ext] structure Date where
  year : ℤ
  month : ℕ
  day : ℕ
  month_pos : 1 ≤ month
  month_le : month ≤ 12
  day_pos : 1 ≤ day
  day_le : day ≤ monthLength year month
  deriving DecidableEq

theorem monthLength_pos (y : ℤ) (m : ℕ) : 1 ≤ monthLength y m := by
  unfold monthLength
  split_ifs <;> omega

def next (d : Date) : Date :=
  if h : d.day < monthLength d.year d.month then
    ⟨d.year, d.month, d.day + 1, d.month_pos, d.month_le, by omega, h⟩
  else if hm : d.month < 12 then
    ⟨d.year, d.month + 1, 1, by omega, hm, le_rfl, monthLength_pos _ _⟩
  else ⟨d.year + 1, 1, 1, le_rfl, by omega, le_rfl, monthLength_pos _ _⟩

/-- The days of the first months of a year. -/
def monthsLength (y : ℤ) : ℕ → ℕ
  | 0 => 0
  | m + 1 => monthsLength y m + monthLength y (m + 1)

/-- The days before a year. -/
def yearStart (y : ℤ) : ℤ := 365 * (y - 1) + (y - 1) / 4 - (y - 1) / 100 + (y - 1) / 400

def dayNumber (d : Date) : ℤ := yearStart d.year + monthsLength d.year (d.month - 1) + d.day

/-- Sunday is 0. -/
def weekday (d : Date) : ℕ := (dayNumber d % 7).toNat

theorem monthsLength_year (y : ℤ) : (monthsLength y 12 : ℤ) = yearStart (y + 1) - yearStart y := by
  have hmonths : monthsLength y 12 = if isLeap y then 366 else 365 := by
    simp only [monthsLength, monthLength]
    cases isLeap y <;> rfl
  rw [hmonths, yearStart, yearStart]
  cases hleap : isLeap y <;> simp [isLeap] at hleap ⊢ <;> omega

theorem yearStart_le {y y' : ℤ} (h : y ≤ y') : yearStart y ≤ yearStart y' := by
  unfold yearStart
  rcases h.eq_or_lt with rfl | hlt
  · exact le_rfl
  · omega

theorem monthsLength_le (y : ℤ) {m m' : ℕ} (h : m ≤ m') : monthsLength y m ≤ monthsLength y m' := by
  induction h with
  | refl => exact le_rfl
  | step _ ih => exact ih.trans (Nat.le_add_right _ _)

/-- A month ends before the next one starts. -/
theorem month_bound (d : Date) :
    monthsLength d.year (d.month - 1) + d.day ≤ monthsLength d.year d.month := by
  obtain ⟨m, hm⟩ : ∃ m, d.month = m + 1 := ⟨d.month - 1, by have := d.month_pos; omega⟩
  have hday := d.day_le
  rw [hm] at hday ⊢
  rw [Nat.add_sub_cancel, monthsLength]
  omega

theorem dayNumber_next (d : Date) : dayNumber (next d) = dayNumber d + 1 := by
  have hpos := d.month_pos
  have hle := d.month_le
  unfold next
  split_ifs with hday hmonth
  · simp only [dayNumber]
    push_cast
    omega
  · obtain ⟨m, hm⟩ : ∃ m, d.month = m + 1 := ⟨d.month - 1, by omega⟩
    have hlast : d.day = monthLength d.year d.month := le_antisymm d.day_le (by omega)
    simp only [dayNumber, hm, Nat.add_sub_cancel, monthsLength]
    rw [hlast, hm]
    push_cast
    omega
  · have hm : d.month = 12 := by omega
    have hlast : d.day = monthLength d.year 12 := by
      rw [← hm]
      exact le_antisymm d.day_le (by omega)
    have hyear := monthsLength_year d.year
    have hdecember : monthsLength d.year 12 = monthsLength d.year 11 + monthLength d.year 12 := rfl
    have hstart : monthsLength (d.year + 1) (1 - 1) = 0 := rfl
    simp only [dayNumber, hm, hlast]
    rw [hstart]
    rw [hdecember] at hyear
    push_cast at hyear ⊢
    omega

/-- The date whose year is later is later. -/
theorem dayNumber_lt_of_year {d d' : Date} (h : d.year < d'.year) : dayNumber d < dayNumber d' := by
  have hbound := (month_bound d).trans (monthsLength_le d.year d.month_le)
  have hyear := monthsLength_year d.year
  have hstart := yearStart_le (show d.year + 1 ≤ d'.year from h)
  have hday := d'.day_pos
  unfold dayNumber
  omega

theorem dayNumber_lt_of_month {d d' : Date} (hy : d.year = d'.year) (h : d.month < d'.month) :
    dayNumber d < dayNumber d' := by
  have hbound := (month_bound d).trans
    (monthsLength_le d.year (show d.month ≤ d'.month - 1 by omega))
  have hday := d'.day_pos
  unfold dayNumber
  rw [← hy]
  omega

theorem dayNumber_injective : Function.Injective dayNumber := by
  intro d d' h
  have hyear : d.year = d'.year := by
    rcases lt_trichotomy d.year d'.year with hlt | heq | hlt
    · exact absurd h (dayNumber_lt_of_year hlt).ne
    · exact heq
    · exact absurd h.symm (dayNumber_lt_of_year hlt).ne
  have hmonth : d.month = d'.month := by
    rcases lt_trichotomy d.month d'.month with hlt | heq | hlt
    · exact absurd h (dayNumber_lt_of_month hyear hlt).ne
    · exact heq
    · exact absurd h.symm (dayNumber_lt_of_month hyear.symm hlt).ne
  have hday : d.day = d'.day := by
    unfold dayNumber at h
    rw [hyear, hmonth] at h
    omega
  exact Date.ext hyear hmonth hday

example : weekday ⟨2026, 8, 27, by decide, by decide, by decide, by decide⟩ = 4 := by decide

end FerrisScope.GregorianDates
