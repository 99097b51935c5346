import Mathlib.Data.List.Perm.Basic
import Mathlib.Order.Basic
import Mathlib.Tactic.Common

/-!
# Binary searches

The search for the first place in a range that fails a test, where no place after a failing one
passes. An element put at the place found in a sorted list leaves it sorted.
-/

namespace FerrisScope.BinarySearches

def search (test : ℕ → Bool) (lo hi : ℕ) : ℕ :=
  if lo < hi then
    if test ((lo + hi) / 2) then search test ((lo + hi) / 2 + 1) hi else search test lo ((lo + hi) / 2)
  else lo
termination_by hi - lo
decreasing_by all_goals omega

/-- The test holds before the place found and fails from there on. -/
theorem search_spec {test : ℕ → Bool} {n : ℕ}
    (hmono : ∀ i j, i ≤ j → j < n → test j = true → test i = true) {lo hi : ℕ} (hle : lo ≤ hi) (hn : hi ≤ n)
    (hlo : ∀ i < lo, test i = true) (hhi : ∀ i, hi ≤ i → i < n → test i = false) :
    search test lo hi ≤ hi ∧ (∀ i < search test lo hi, test i = true) ∧
      ∀ i, search test lo hi ≤ i → i < n → test i = false := by
  induction lo, hi using search.induct test with
  | case1 lo hi hlt hmid ih =>
    rw [search, if_pos hlt, if_pos hmid]
    refine ih (by omega) hn (fun i hi' => ?_) hhi
    exact hmono i _ (Nat.le_of_lt_succ hi') (by omega) hmid
  | case2 lo hi hlt hmid ih =>
    rw [search, if_pos hlt, if_neg hmid]
    have hbelow : ∀ i, (lo + hi) / 2 ≤ i → i < n → test i = false := by
      intro i hi' hin
      by_contra htest
      exact hmid (hmono _ i hi' hin (by simpa using htest))
    obtain ⟨hend, hrest⟩ := ih (by omega) (by omega) hlo hbelow
    exact ⟨by omega, hrest⟩
  | case3 lo hi hge =>
    rw [search, if_neg hge]
    obtain rfl : lo = hi := by omega
    exact ⟨Nat.le_refl _, hlo, hhi⟩

variable {α : Type*} {r : α → α → Prop} {l : List α} {a : α} {i : ℕ}

theorem insertIdx_eq_take_drop (hi : i ≤ l.length) : l.insertIdx i a = l.take i ++ a :: l.drop i := by
  induction l generalizing i with
  | nil =>
    obtain rfl : i = 0 := Nat.le_zero.mp hi
    rfl
  | cons b l ih =>
    cases i with
    | zero => rfl
    | succ i => rw [List.insertIdx_succ_cons, ih (Nat.le_of_succ_le_succ hi), List.take_succ_cons,
        List.drop_succ_cons, List.cons_append]

theorem perm_insertIdx (hi : i ≤ l.length) : (l.insertIdx i a).Perm (a :: l) := by
  have hmiddle : (l.take i ++ a :: l.drop i).Perm (a :: (l.take i ++ l.drop i)) := List.perm_middle
  rwa [← insertIdx_eq_take_drop hi, List.take_append_drop] at hmiddle

/-- What stands before the place is below the element, and what stands from there on above it. -/
theorem pairwise_insertIdx (hsorted : l.Pairwise r) (hi : i ≤ l.length) (hbefore : ∀ b ∈ l.take i, r b a)
    (hafter : ∀ b ∈ l.drop i, r a b) : (l.insertIdx i a).Pairwise r := by
  rw [← List.take_append_drop i l, List.pairwise_append] at hsorted
  obtain ⟨htake, hdrop, hacross⟩ := hsorted
  rw [insertIdx_eq_take_drop hi, List.pairwise_append]
  refine ⟨htake, List.pairwise_cons.mpr ⟨hafter, hdrop⟩, fun b hb c hc => ?_⟩
  rcases List.mem_cons.mp hc with rfl | hc
  · exact hbefore b hb
  · exact hacross b hb c hc

end FerrisScope.BinarySearches
