import FerrisScope.Utf8Slices
import Mathlib.Order.Bounds.Basic

/-!
# Boundaries between characters

The places of a text between its characters, and the parts of the text between two of them. A text is found in
the bytes of another one only at such a place.
-/

namespace FerrisScope.CharacterBoundaries
open Utf8Slices

def isCharBoundary (t : List Char) (n : Nat) : Bool := (sliceFrom t n).isSome

theorem sliceFrom_eq_some {t r : List Char} {n : Nat} : sliceFrom t n = some r ↔ ∃ u, t = u ++ r ∧ byteLen u = n := by
  constructor
  · intro h
    induction t generalizing n with
    | nil =>
      rw [sliceFrom] at h
      split at h
      · next hn => exact ⟨[], Option.some_inj.mp h, hn.symm⟩
      · exact absurd h (by simp)
    | cons c t ih =>
      rw [sliceFrom] at h
      split at h
      · next hn => exact ⟨[], Option.some_inj.mp h, hn.symm⟩
      · split at h
        · next hc =>
          obtain ⟨u, rfl, hu⟩ := ih h
          exact ⟨c :: u, rfl, by rw [byteLen_cons, hu]; omega⟩
        · exact absurd h (by simp)
  · rintro ⟨u, rfl, rfl⟩
    exact sliceFrom_append u r

theorem sliceTo_eq_some {t u : List Char} {n : Nat} : sliceTo t n = some u ↔ ∃ r, t = u ++ r ∧ byteLen u = n := by
  constructor
  · intro h
    induction t generalizing n u with
    | nil =>
      rw [sliceTo] at h
      split at h
      · next hn =>
        rw [← Option.some_inj.mp h]
        exact ⟨[], rfl, hn.symm⟩
      · cases h
    | cons c t ih =>
      rw [sliceTo] at h
      split at h
      · next hn =>
        rw [← Option.some_inj.mp h]
        exact ⟨c :: t, rfl, hn.symm⟩
      · split at h
        · next hc =>
          obtain ⟨v, hv, rfl⟩ := Option.map_eq_some_iff.mp h
          obtain ⟨r, rfl, hlen⟩ := ih hv
          exact ⟨r, rfl, by rw [byteLen_cons, hlen]; omega⟩
        · cases h
  · rintro ⟨r, rfl, rfl⟩
    exact sliceTo_append u r

theorem isCharBoundary_iff {t : List Char} {n : Nat} :
    isCharBoundary t n = true ↔ ∃ u r, t = u ++ r ∧ byteLen u = n := by
  rw [isCharBoundary, Option.isSome_iff_exists]
  constructor
  · rintro ⟨r, hr⟩
    obtain ⟨u, hu⟩ := sliceFrom_eq_some.mp hr
    exact ⟨u, r, hu⟩
  · rintro ⟨u, r, hu⟩
    exact ⟨r, sliceFrom_eq_some.mpr ⟨u, hu⟩⟩

theorem isCharBoundary_append (u r : List Char) : isCharBoundary (u ++ r) (byteLen u) = true :=
  isCharBoundary_iff.mpr ⟨u, r, rfl, rfl⟩

theorem isCharBoundary_zero (t : List Char) : isCharBoundary t 0 = true := isCharBoundary_append [] t

theorem isCharBoundary_byteLen (t : List Char) : isCharBoundary t (byteLen t) = true :=
  isCharBoundary_iff.mpr ⟨t, [], (List.append_nil t).symm, rfl⟩

theorem le_byteLen_of_boundary {t : List Char} {n : Nat} (h : isCharBoundary t n = true) : n ≤ byteLen t := by
  obtain ⟨u, r, rfl, rfl⟩ := isCharBoundary_iff.mp h
  rw [byteLen_append]
  omega

/-- No boundary lies within a character. -/
theorem boundary_le_or_ge {u w : List Char} {c : Char} {n : Nat} (h : isCharBoundary (u ++ c :: w) n = true) :
    n ≤ byteLen u ∨ byteLen u + c.utf8Size ≤ n := by
  obtain ⟨v, r, hvr, rfl⟩ := isCharBoundary_iff.mp h
  rcases List.append_eq_append_iff.mp hvr with ⟨a, rfl, ha⟩ | ⟨a, rfl, -⟩
  · cases a with
    | nil =>
      rw [List.append_nil]
      exact Or.inl (Nat.le_refl _)
    | cons d a =>
      obtain ⟨rfl, -⟩ := List.cons.inj ha
      rw [byteLen_append, byteLen_cons]
      omega
  · rw [byteLen_append]
    omega

theorem append_eq_of_byteLen_le {u r v w : List Char} (h : u ++ r = v ++ w) (hle : byteLen u ≤ byteLen v) :
    ∃ m, v = u ++ m ∧ r = m ++ w := by
  rcases List.append_eq_append_iff.mp h with ⟨m, hv, hr⟩ | ⟨m, hu, hw⟩
  · exact ⟨m, hv, hr⟩
  · have hm : m = [] := by
      apply byteLen_eq_zero.mp
      rw [hu, byteLen_append] at hle
      omega
    subst hm
    rw [List.append_nil] at hu
    exact ⟨[], by rw [hu, List.append_nil], hw.symm⟩

theorem append_inj_of_byteLen_eq {u r v w : List Char} (h : u ++ r = v ++ w) (heq : byteLen u = byteLen v) :
    u = v ∧ r = w := by
  obtain ⟨m, rfl, rfl⟩ := append_eq_of_byteLen_le h (Nat.le_of_eq heq)
  have hm : m = [] := by
    apply byteLen_eq_zero.mp
    rw [byteLen_append] at heq
    omega
  exact ⟨by rw [hm, List.append_nil], by rw [hm, List.nil_append]⟩

/-- The part between two boundaries, and what is before and after it. -/
theorem slice_of_boundaries {t : List Char} {i j : Nat} (hi : isCharBoundary t i = true)
    (hj : isCharBoundary t j = true) (hij : i ≤ j) :
    ∃ u v w, t = u ++ (v ++ w) ∧ byteLen u = i ∧ i + byteLen v = j ∧ slice t i j = some v := by
  obtain ⟨u, r, rfl, rfl⟩ := isCharBoundary_iff.mp hi
  obtain ⟨u', w, ht, rfl⟩ := isCharBoundary_iff.mp hj
  obtain ⟨v, rfl, rfl⟩ := append_eq_of_byteLen_le ht hij
  refine ⟨u, v, w, rfl, rfl, (byteLen_append u v).symm, ?_⟩
  rw [byteLen_append]
  exact slice_append u v w

end FerrisScope.CharacterBoundaries
