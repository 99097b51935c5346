import FerrisScope.BinarySearches
import Mathlib.Data.Finset.Dedup
import Mathlib.Data.Finset.Empty
import Mathlib.Data.List.Induction
import Mathlib.Data.List.Sort
import Mathlib.Data.List.Perm.Lattice

/-!
# The sorted copy of a row list

A table keeps its rows in order across updates. While the comparator stays the same, the rows seen
before keep the order they have, and each new row is put at its place by a binary search. The rows are
sorted in full when the comparator changes or too many rows are new.
-/

namespace FerrisScope.IncrementalSorts
open BinarySearches

/-- The references to comparators, each with the comparison made through it. -/
class Compare (C T : Type*) where
  compare : C → T → T → ℤ

/-- The signs of a comparison are those of a total preorder. -/
structure TotalPreorder {T : Type*} (compare : T → T → ℤ) : Prop where
  swap : ∀ a b, compare a b < 0 ↔ 0 < compare b a
  trans : ∀ a b c, compare a b ≤ 0 → compare b c ≤ 0 → compare a c ≤ 0

variable {C T : Type*} [Compare C T]

/-- The comparator does not sort the first row after the second. -/
def Below (c : C) (a b : T) : Prop := Compare.compare c a b ≤ 0

instance (c : C) : DecidableRel (Below (T := T) c) := fun a b => inferInstanceAs (Decidable (Compare.compare c a b ≤ 0))

def upperBound (arr : List T) (item : T) (c : C) : ℕ :=
  search (fun mid => (arr[mid]?).all fun row => decide (Below c row item)) 0 arr.length

/-- A stable sort of all rows. -/
def fullSort (rows : List T) (c : C) : List T := rows.insertionSort (Below c)

structure Sorter (C T : Type*) where
  lastCompare : Option C
  sorted : List T
  seen : Finset T

def createIncrementalSorter : Sorter C T := ⟨none, [], ∅⟩

/-- Each row is put behind the rows that do not sort after it. -/
def insertAll (c : C) (kept fresh : List T) : List T :=
  fresh.foldl (fun kept r => kept.insertIdx (upperBound kept r c) r) kept

namespace Sorter
variable [DecidableEq C] [DecidableEq T]

/-- More than a quarter of the rows is new. -/
def ManyFresh (fresh rows : List T) : Prop := rows.length < 4 * fresh.length

instance (fresh rows : List T) : Decidable (ManyFresh fresh rows) :=
  inferInstanceAs (Decidable (rows.length < 4 * fresh.length))

/-- One call. Its result is the sorted list left in the state. -/
def call (s : Sorter C T) (rows : List T) (c : C) : Sorter C T :=
  let next := rows.toFinset
  let fresh := rows.filter (· ∉ s.seen)
  let sorted :=
    if s.lastCompare ≠ some c ∨ ManyFresh fresh rows then fullSort rows c
    else insertAll c (s.sorted.filter (· ∈ next)) fresh
  ⟨some c, sorted, next⟩

def afterCalls (calls : List (List T × C)) : Sorter C T :=
  calls.foldl (fun s call => s.call call.1 call.2) createIncrementalSorter

end Sorter

/-! ### The order -/

theorem TotalPreorder.total {c : C} (h : TotalPreorder (T := T) (Compare.compare c)) (a b : T) :
    Below c a b ∨ Below c b a := by
  rcases le_or_gt (Compare.compare c a b) 0 with hab | hba
  · exact Or.inl hab
  · exact Or.inr ((h.swap b a).mpr hba).le

theorem not_below {c : C} (h : TotalPreorder (T := T) (Compare.compare c)) {a b : T} (hab : ¬Below c a b) :
    Below c b a := (h.total a b).resolve_left hab

theorem fullSort_perm (rows : List T) (c : C) : (fullSort rows c).Perm rows := List.perm_insertionSort _ rows

theorem fullSort_sorted {c : C} (h : TotalPreorder (T := T) (Compare.compare c)) (rows : List T) :
    (fullSort rows c).Pairwise (Below c) := by
  have : Std.Total (Below (T := T) c) := ⟨h.total⟩
  have : IsTrans T (Below c) := ⟨h.trans⟩
  exact List.pairwise_insertionSort _ rows

/-- In a sorted list, what does not sort after the item stands before the place found. -/
theorem upperBound_spec {c : C} (h : TotalPreorder (T := T) (Compare.compare c)) {arr : List T} (item : T)
    (hsorted : arr.Pairwise (Below c)) :
    upperBound arr item c ≤ arr.length ∧ (∀ b ∈ arr.take (upperBound arr item c), Below c b item) ∧
      ∀ b ∈ arr.drop (upperBound arr item c), Below c item b := by
  have htest : ∀ {i : ℕ} (hi : i < arr.length),
      ((arr[i]?).all fun row => decide (Below c row item)) = true ↔ Below c arr[i] item := by
    intro i hi
    simp [List.getElem?_eq_getElem hi]
  have hmono : ∀ i j, i ≤ j → j < arr.length →
      ((arr[j]?).all fun row => decide (Below c row item)) = true →
      ((arr[i]?).all fun row => decide (Below c row item)) = true := by
    intro i j hij hj hjt
    have hi : i < arr.length := by omega
    rw [htest hj] at hjt
    rw [htest hi]
    rcases Nat.eq_or_lt_of_le hij with rfl | hlt
    · exact hjt
    · exact h.trans _ _ _ (List.pairwise_iff_getElem.mp hsorted i j hi hj hlt) hjt
  have hspec := search_spec hmono (Nat.zero_le _) (Nat.le_refl arr.length)
    (fun i hi => absurd hi (Nat.not_lt_zero i)) (fun i hi hlt => absurd hlt (by omega))
  change upperBound arr item c ≤ arr.length ∧ (∀ i < upperBound arr item c, _) ∧
    ∀ i, upperBound arr item c ≤ i → _ at hspec
  obtain ⟨hle, hbefore, hafter⟩ := hspec
  refine ⟨hle, fun b hb => ?_, fun b hb => ?_⟩
  · obtain ⟨i, hi, rfl⟩ := List.getElem_of_mem hb
    rw [List.length_take] at hi
    rw [List.getElem_take]
    exact (htest (by omega)).mp (hbefore i (by omega))
  · obtain ⟨i, hi, rfl⟩ := List.getElem_of_mem hb
    rw [List.length_drop] at hi
    rw [List.getElem_drop]
    refine not_below h fun hbelow => ?_
    have hfail := hafter (upperBound arr item c + i) (Nat.le_add_right _ _) (by omega)
    rw [(htest (by omega)).mpr hbelow] at hfail
    cases hfail

theorem insertAll_perm {c : C} (h : TotalPreorder (T := T) (Compare.compare c)) {kept : List T} (fresh : List T)
    (hsorted : kept.Pairwise (Below c)) :
    (insertAll c kept fresh).Perm (kept ++ fresh) ∧ (insertAll c kept fresh).Pairwise (Below c) := by
  induction fresh generalizing kept with
  | nil => exact ⟨by rw [List.append_nil]; exact List.Perm.refl _, hsorted⟩
  | cons r fresh ih =>
    obtain ⟨hle, hbefore, hafter⟩ := upperBound_spec h r hsorted
    obtain ⟨hperm, hpairwise⟩ := ih (pairwise_insertIdx hsorted hle hbefore hafter)
    refine ⟨hperm.trans ?_, hpairwise⟩
    exact ((perm_insertIdx hle).append_right fresh).trans List.perm_middle.symm

/-! ### The state between calls -/

/-- The rows seen are those sorted, each once, in the order of the last comparator. -/
structure Sorter.Sound [DecidableEq T] (s : Sorter C T) : Prop where
  seen_eq : s.seen = s.sorted.toFinset
  nodup : s.sorted.Nodup
  ordered : ∀ c ∈ s.lastCompare, s.sorted.Pairwise (Below c)

variable [DecidableEq T]

theorem sound_create : (createIncrementalSorter : Sorter C T).Sound where
  seen_eq := rfl
  nodup := List.nodup_nil
  ordered := fun _ h => absurd h (Option.not_mem_none _)

/-- The rows kept and the new ones are the rows given. -/
theorem kept_append_fresh {s : Sorter C T} {rows : List T} (hs : s.Sound) (hrows : rows.Nodup) :
    (s.sorted.filter (· ∈ rows.toFinset) ++ rows.filter (· ∉ s.seen)).Perm rows := by
  refine (List.perm_ext_iff_of_nodup ?_ hrows).mpr fun a => ?_
  · refine (hs.nodup.filter _).append (hrows.filter _) fun a hkept hfresh => ?_
    have hmem : a ∈ s.sorted := (List.mem_filter.mp hkept).1
    have hnew : a ∉ s.seen := by simpa using (List.mem_filter.mp hfresh).2
    rw [hs.seen_eq, List.mem_toFinset] at hnew
    exact hnew hmem
  · simp only [List.mem_append, List.mem_filter, hs.seen_eq, List.mem_toFinset, decide_eq_true_eq]
    tauto

variable [DecidableEq C]

theorem call_sorted {s : Sorter C T} {rows : List T} {c : C} (hs : s.Sound) (hrows : rows.Nodup)
    (h : TotalPreorder (T := T) (Compare.compare c)) :
    (s.call rows c).sorted.Perm rows ∧ (s.call rows c).sorted.Pairwise (Below c) := by
  by_cases hfull : s.lastCompare ≠ some c ∨ Sorter.ManyFresh (rows.filter (· ∉ s.seen)) rows
  · rw [Sorter.call, if_pos hfull]
    exact ⟨fullSort_perm rows c, fullSort_sorted h rows⟩
  · rw [Sorter.call, if_neg hfull]
    have hlast : s.lastCompare = some c := not_not.mp (not_or.mp hfull).1
    obtain ⟨hperm, hpairwise⟩ := insertAll_perm h (rows.filter (· ∉ s.seen))
      ((hs.ordered c hlast).filter (· ∈ rows.toFinset))
    exact ⟨hperm.trans (kept_append_fresh hs hrows), hpairwise⟩

theorem sound_call {s : Sorter C T} {rows : List T} {c : C} (hs : s.Sound) (hrows : rows.Nodup)
    (h : TotalPreorder (T := T) (Compare.compare c)) : (s.call rows c).Sound := by
  obtain ⟨hperm, hpairwise⟩ := call_sorted hs hrows h
  refine ⟨(List.toFinset_eq_of_perm _ _ hperm).symm, hperm.nodup_iff.mpr hrows, fun d hd => ?_⟩
  obtain rfl : c = d := Option.some.inj hd
  exact hpairwise

theorem sound_afterCalls (h : ∀ c : C, TotalPreorder (T := T) (Compare.compare c)) {calls : List (List T × C)}
    (hrows : ∀ call ∈ calls, call.1.Nodup) : (Sorter.afterCalls calls).Sound := by
  unfold Sorter.afterCalls
  induction calls using List.reverseRec with
  | nil => exact sound_create
  | append_singleton calls call ih =>
    rw [List.foldl_append, List.foldl_cons, List.foldl_nil]
    exact sound_call (ih fun d hd => hrows d (List.mem_append_left _ hd))
      (hrows call (List.mem_append_right _ (List.mem_singleton_self call))) (h call.2)

/-- Whatever the earlier calls were given. -/
theorem call_refines_fullSort (h : ∀ c : C, TotalPreorder (T := T) (Compare.compare c))
    (calls : List (List T × C)) (hcalls : ∀ call ∈ calls, call.1.Nodup) (rows : List T) (hrows : rows.Nodup)
    (c : C) :
    (((Sorter.afterCalls calls).call rows c).sorted.Perm rows ∧
      ((Sorter.afterCalls calls).call rows c).sorted.Pairwise fun a b => Compare.compare c a b ≤ 0) ∧
      ((∀ a ∈ rows, ∀ b ∈ rows, Compare.compare c a b = 0 → a = b) →
        ((Sorter.afterCalls calls).call rows c).sorted = fullSort rows c) := by
  obtain ⟨hperm, hpairwise⟩ := call_sorted (sound_afterCalls h hcalls) hrows (h c)
  refine ⟨⟨hperm, hpairwise⟩, fun hties => ?_⟩
  refine (hperm.trans (fullSort_perm rows c).symm).eq_of_pairwise (fun a b ha hb hab hba => ?_) hpairwise
    (fullSort_sorted (h c) rows)
  have ha' : a ∈ rows := hperm.mem_iff.mp ha
  have hb' : b ∈ rows := (fullSort_perm rows c).mem_iff.mp hb
  refine hties a ha' b hb' (le_antisymm hab (not_lt.mp fun hlt => ?_))
  exact absurd hba (not_le.mpr ((h c).swap a b |>.mp hlt))

inductive NumberOrder
  | ascending
  | descending
  deriving DecidableEq

instance : Compare NumberOrder ℤ where
  compare
    | .ascending, a, b => a - b
    | .descending, a, b => b - a

theorem numberOrder_total (c : NumberOrder) : TotalPreorder (T := ℤ) (Compare.compare c) := by
  cases c <;> constructor <;> intros <;> simp only [Compare.compare] at * <;> omega

theorem call_refines_fullSort_numbers :
    ((Sorter.afterCalls [([2, 8], .descending), ([9, 1, 5, 7], .ascending)]).call [7, 1, 3, 9]
      NumberOrder.ascending).sorted = [(1 : ℤ), 3, 7, 9] := by
  obtain ⟨-, heq⟩ := call_refines_fullSort numberOrder_total
    [([2, 8], .descending), ([9, 1, 5, 7], .ascending)] (by decide) [7, 1, 3, 9] (by decide) .ascending
  rw [heq (by decide)]
  decide

end FerrisScope.IncrementalSorts
