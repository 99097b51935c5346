import Mathlib.Data.List.Perm.Basic
import Mathlib.Order.Lattice
import Mathlib.Tactic.Common

/-!
# Ordered merges

Lists are merged by taking, again and again, the first element of one of them whose key no other first
element is below. The merge has the elements of all lists, and when each list is in order, so is the
merge.
-/

namespace FerrisScope.OrderedMerges

variable {α κ : Type*} [LinearOrder κ] {key : α → κ}

/-- An element is taken from the list at a position, and leaves its rest there. -/
inductive Merges (key : α → κ) : List (List α) → List α → Prop
  | done {ls : List (List α)} (h : ∀ l ∈ ls, l = []) : Merges key ls []
  | next {ls : List (List α)} {k : ℕ} {a : α} {rest out : List α} (hk : ls[k]? = some (a :: rest))
      (hleast : ∀ l ∈ ls, ∀ b ∈ l.head?, key a ≤ key b) (hrest : Merges key (ls.set k rest) out) :
      Merges key ls (a :: out)

variable {ls : List (List α)} {out : List α}

theorem flatten_set {k : ℕ} {a : α} {rest : List α} (hk : ls[k]? = some (a :: rest)) :
    ls.flatten.Perm (a :: (ls.set k rest).flatten) := by
  induction ls generalizing k with
  | nil => cases hk
  | cons l ls ih =>
    cases k with
    | zero =>
      obtain rfl : l = a :: rest := Option.some.inj hk
      exact List.Perm.refl _
    | succ k =>
      rw [List.set_cons_succ, List.flatten_cons, List.flatten_cons]
      exact ((ih hk).append_left l).trans List.perm_middle

theorem Merges.perm (h : Merges key ls out) : out.Perm ls.flatten := by
  induction h with
  | done h =>
    have hempty : ∀ ls : List (List α), (∀ l ∈ ls, l = []) → ls.flatten = [] := fun ls h =>
      List.flatten_eq_nil_iff.mpr h
    rw [hempty _ h]
  | next hk _ _ ih => exact (ih.cons _).trans (flatten_set hk).symm

/-- What is left in the lists is not below what was taken. -/
theorem least_of_head {a : α} (hsorted : ∀ l ∈ ls, l.Pairwise fun b c => key b ≤ key c)
    (hleast : ∀ l ∈ ls, ∀ b ∈ l.head?, key a ≤ key b) : ∀ l ∈ ls, ∀ b ∈ l, key a ≤ key b := by
  intro l hl b hb
  cases l with
  | nil => cases hb
  | cons c l =>
    have hc : key a ≤ key c := hleast _ hl c rfl
    rcases List.mem_cons.mp hb with rfl | hb
    · exact hc
    · exact hc.trans ((List.pairwise_cons.mp (hsorted _ hl)).1 b hb)

theorem Merges.sorted (h : Merges key ls out) (hsorted : ∀ l ∈ ls, l.Pairwise fun b c => key b ≤ key c) :
    out.Pairwise fun b c => key b ≤ key c := by
  induction h with
  | done => exact List.Pairwise.nil
  | @next ls k a rest out hk hleast hrest ih =>
    have hrests : ∀ l ∈ ls.set k rest, l.Pairwise fun b c => key b ≤ key c := by
      intro l hl
      rcases List.mem_or_eq_of_mem_set hl with hmem | rfl
      · exact hsorted l hmem
      · exact (List.pairwise_cons.mp (hsorted _ (List.mem_of_getElem? hk))).2
    refine List.pairwise_cons.mpr ⟨fun b hb => ?_, ih hrests⟩
    have hmem : b ∈ ls.flatten := (flatten_set hk).mem_iff.mpr (List.mem_cons_of_mem a (hrest.perm.mem_iff.mp hb))
    obtain ⟨l, hl, hbl⟩ := List.mem_flatten.mp hmem
    exact least_of_head hsorted hleast l hl b hbl

/-! ### Finding the least first element -/

/-- The best of the first elements: the earliest of the least ones. The first `k` lists have been
looked at. -/
def pickFrom (key : α → κ) (best : Option (ℕ × α)) (k : ℕ) : List (Option α) → Option (ℕ × α)
  | [] => best
  | none :: heads => pickFrom key best (k + 1) heads
  | some a :: heads =>
    match best with
    | none => pickFrom key (some (k, a)) (k + 1) heads
    | some (i, b) => pickFrom key (if key a < key b then some (k, a) else some (i, b)) (k + 1) heads

variable {heads : List (Option α)} {best : Option (ℕ × α)} {k i : ℕ} {a : α}

/-- A first element leaves a best one behind, the one before it or itself. -/
theorem pickFrom_cons (key : α → κ) (best : Option (ℕ × α)) (k : ℕ) (heads : List (Option α)) (c : α) :
    ∃ p : ℕ × α, pickFrom key best k (some c :: heads) = pickFrom key (some p) (k + 1) heads ∧
      (p = (k, c) ∨ best = some p) ∧ key p.2 ≤ key c ∧ ∀ q ∈ best, key p.2 ≤ key q.2 := by
  cases best with
  | none => exact ⟨(k, c), rfl, .inl rfl, le_rfl, fun q hq => absurd hq (Option.not_mem_none q)⟩
  | some b =>
    by_cases hlt : key c < key b.2
    · refine ⟨(k, c), by rw [pickFrom, if_pos hlt], .inl rfl, le_rfl, ?_⟩
      rintro q ⟨⟩
      exact hlt.le
    · refine ⟨b, by rw [pickFrom, if_neg hlt], .inr rfl, not_lt.mp hlt, ?_⟩
      rintro q ⟨⟩
      exact le_rfl

theorem pickFrom_eq_none (h : pickFrom key best k heads = none) : best = none ∧ ∀ x ∈ heads, x = none := by
  induction heads generalizing best k with
  | nil => exact ⟨h, fun _ hx => absurd hx List.not_mem_nil⟩
  | cons x heads ih =>
    cases x with
    | none =>
      obtain ⟨hbest, hrest⟩ := ih h
      exact ⟨hbest, List.forall_mem_cons.mpr ⟨rfl, hrest⟩⟩
    | some c =>
      obtain ⟨p, hstep, -⟩ := pickFrom_cons key best k heads c
      rw [hstep] at h
      cases (ih h).1

/-- The pick is the best so far or stands behind, and none is below it. -/
theorem pickFrom_eq_some (h : pickFrom key best k heads = some (i, a)) :
    (best = some (i, a) ∨ ∃ j, i = k + j ∧ heads[j]? = some (some a)) ∧
      (∀ p ∈ best, key a ≤ key p.2) ∧ ∀ b, some b ∈ heads → key a ≤ key b := by
  induction heads generalizing best k with
  | nil =>
    refine ⟨.inl h, ?_, fun _ hb => absurd hb List.not_mem_nil⟩
    rintro p hp
    cases hp.symm.trans h
    exact le_rfl
  | cons x heads ih =>
    have hshift : ∀ {j : ℕ}, i = k + 1 + j → heads[j]? = some (some a) →
        ∃ j, i = k + j ∧ (x :: heads)[j]? = some (some a) := fun {j} hi hj => ⟨j + 1, by omega, hj⟩
    cases x with
    | none =>
      obtain ⟨hfrom, hbest, hall⟩ := ih h
      refine ⟨hfrom.imp_right fun ⟨j, hi, hj⟩ => hshift hi hj, hbest, fun b hb => hall b ?_⟩
      simpa using hb
    | some c =>
      obtain ⟨p, hstep, hp, hc, hbest⟩ := pickFrom_cons key best k heads c
      rw [hstep] at h
      obtain ⟨hfrom, hle, hall⟩ := ih h
      have ha : key a ≤ key p.2 := hle p rfl
      refine ⟨?_, fun q hq => ha.trans (hbest q hq), fun b hb => ?_⟩
      · rcases hfrom with heq | ⟨j, hi, hj⟩
        · obtain rfl : p = (i, a) := Option.some.inj heq
          rcases hp with heq | hbefore
          · cases heq
            exact .inr ⟨0, rfl, rfl⟩
          · exact .inl hbefore
        · exact .inr (hshift hi hj)
      · rcases List.mem_cons.mp hb with heq | hb
        · cases heq
          exact ha.trans hc
        · exact hall b hb

/-- The least of the first elements, with the position of its list. -/
def pick (key : α → κ) (heads : List (Option α)) : Option (ℕ × α) := pickFrom key none 0 heads

theorem pick_eq_none (h : pick key heads = none) : ∀ x ∈ heads, x = none := (pickFrom_eq_none h).2

theorem pick_eq_some (h : pick key heads = some (i, a)) :
    heads[i]? = some (some a) ∧ ∀ b, some b ∈ heads → key a ≤ key b := by
  obtain ⟨hfrom, -, hall⟩ := pickFrom_eq_some h
  rcases hfrom with hnone | ⟨j, hi, hj⟩
  · cases hnone
  · rw [Nat.zero_add] at hi
    exact ⟨hi ▸ hj, hall⟩

end FerrisScope.OrderedMerges
