import Mathlib.Algebra.Group.Nat.Defs
import Mathlib.Data.Char
import Mathlib.Data.List.Forall2
import Mathlib.Data.List.Lex
import Mathlib.Order.Lattice
import Mathlib.Tactic.Common

/-!
# Numbers of fixed width

Numbers that are written with leading zeros, each with a separator behind it, are in the order of their texts. Without
leading zeros the text of a number still tells which number it is.
-/

namespace FerrisScope.FixedWidthText

variable {w m n : ℕ} {a a' : List Char}

/-- The last digits of a number, as many as there is room for. -/
def pad : ℕ → ℕ → List Char
  | 0, _ => []
  | w + 1, n => pad w (n / 10) ++ [Nat.digitChar (n % 10)]

/-- Numbers by the widths of a layout, each with its separator. -/
def write : List (ℕ × Char) → List ℕ → List Char
  | (w, c) :: layout, n :: ns => pad w n ++ c :: write layout ns
  | _, _ => []

/-- There is a number for each place, and it has room there. -/
def Fits (layout : List (ℕ × Char)) (ns : List ℕ) : Prop := List.Forall₂ (fun place n => n < 10 ^ place.1) layout ns

/-! ## Numbers without leading zeros -/

theorem toDigits_inj (h : Nat.toDigits 10 m = Nat.toDigits 10 n) : m = n := by
  rw [← Nat.ofDigitChars_ten_toDigits (n := m), h, Nat.ofDigitChars_ten_toDigits]

theorem notMem_toDigits {c : Char} (hc : c.isDigit = false) (n : ℕ) : c ∉ Nat.toDigits 10 n := by
  intro hmem
  have hdigit := Nat.isDigit_of_mem_toDigits (by omega) (Nat.le_refl 10) hmem
  rw [hc] at hdigit
  cases hdigit

/-! ## Numbers with leading zeros -/

theorem length_pad (w n : ℕ) : (pad w n).length = w := by
  induction w generalizing n with
  | zero => rfl
  | succ w ih => rw [pad, List.length_append, ih, List.length_singleton]

theorem append_lt_append (hlength : a.length = a'.length) (h : a < a') (b b' : List Char) : a ++ b < a' ++ b' := by
  induction a generalizing a' with
  | nil =>
    rw [List.eq_nil_of_length_eq_zero hlength.symm] at h
    exact absurd h (lt_irrefl _)
  | cons c a ih =>
    cases a' with
    | nil => cases hlength
    | cons c' a' =>
      rw [List.cons_append, List.cons_append, List.cons_lt_cons_iff]
      rcases List.cons_lt_cons_iff.mp h with hc | ⟨hc, hrest⟩
      · exact Or.inl hc
      · exact Or.inr ⟨hc, ih (Nat.succ.inj hlength) hrest⟩

theorem digitChar_lt : ∀ n < 10, ∀ m < n, Nat.digitChar m < Nat.digitChar n := by decide

theorem pad_lt (hn : n < 10 ^ w) (h : m < n) : pad w m < pad w n := by
  induction w generalizing m n with
  | zero =>
    rw [Nat.pow_zero] at hn
    omega
  | succ w ih =>
    rw [pad, pad]
    rw [Nat.pow_succ] at hn
    rcases Nat.lt_or_ge (m / 10) (n / 10) with hlt | hge
    · exact append_lt_append (by rw [length_pad, length_pad]) (ih (by omega) hlt) _ _
    · have hfront : m / 10 = n / 10 := by omega
      have hlast := digitChar_lt (n % 10) (by omega) (m % 10) (by omega)
      rw [hfront]
      exact List.append_left_lt (List.cons_lt_cons_iff.mpr (Or.inl hlast))

theorem write_lt {layout : List (ℕ × Char)} {ms ns : List ℕ} (hms : Fits layout ms) (hns : Fits layout ns) (h : ms < ns) :
    write layout ms < write layout ns := by
  induction hms generalizing ns with
  | nil =>
    cases hns
    exact absurd h (lt_irrefl _)
  | @cons place m layout ms _ _ ih =>
    cases hns with
    | @cons _ n _ ns hn hns =>
      obtain ⟨w, c⟩ := place
      rw [write, write]
      rcases List.cons_lt_cons_iff.mp h with hlt | ⟨rfl, hrest⟩
      · exact append_lt_append (by rw [length_pad, length_pad]) (pad_lt hn hlt) _ _
      · exact List.append_left_lt (List.cons_lt_cons_iff.mpr (Or.inr ⟨rfl, ih hns hrest⟩))

/-- Texts of one layout are in the order of their numbers. -/
theorem write_le_iff {layout : List (ℕ × Char)} {ms ns : List ℕ} (hms : Fits layout ms) (hns : Fits layout ns) :
    write layout ms ≤ write layout ns ↔ ms ≤ ns := by
  constructor
  · intro h
    by_contra hlt
    exact absurd h (not_le.mpr (write_lt hns hms (not_le.mp hlt)))
  · intro h
    rcases h.eq_or_lt with rfl | hlt
    · exact le_refl _
    · exact (write_lt hms hns hlt).le

end FerrisScope.FixedWidthText
