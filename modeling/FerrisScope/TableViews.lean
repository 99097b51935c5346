import FerrisScope.KeyedWrites
import Mathlib.Data.Prod.Lex

/-!
# Derived views of a finite map

Two things a view of a finite map needs. The greatest entry under a comparator that tells
all entries apart does not depend on the iteration order. And a stream of changes, each
with the value it replaces, is exact when every change starts from the value that is there:
folding the stream then reproduces the view, and counts of values can be kept by one
decrement and one increment for each change.
-/

namespace FerrisScope.TableViews
open KeyedWrites

section Greatest

variable {α β : Type*} [LinearOrder β] {cmp : α → α → Ordering} {f : α → β}

/-- The reduction of `max_by`: of two elements that compare equal, the later one. -/
def maxBy (cmp : α → α → Ordering) : List α → Option α
  | [] => none
  | a :: l => some (l.foldl (fun x y => if cmp x y = .gt then x else y) a)

private theorem foldl_greatest (hcmp : ∀ a b, cmp a b = .gt ↔ f b < f a) (l : List α) (a : α) :
    let m := l.foldl (fun x y => if cmp x y = .gt then x else y) a
    m ∈ a :: l ∧ ∀ b ∈ a :: l, f b ≤ f m := by
  induction l generalizing a with
  | nil => simp
  | cons c l ih =>
    rw [List.foldl_cons]
    split_ifs with hgt
    · have hlt : f c < f a := (hcmp a c).mp hgt
      obtain ⟨hm, hle⟩ := ih a
      refine ⟨?_, fun b hb => ?_⟩
      · rcases List.mem_cons.mp hm with h | h
        · exact List.mem_cons.mpr (.inl h)
        · exact List.mem_cons_of_mem _ (List.mem_cons_of_mem _ h)
      · rcases List.mem_cons.mp hb with rfl | hb
        · exact hle b (by simp)
        · rcases List.mem_cons.mp hb with rfl | hb
          · exact hlt.le.trans (hle a (by simp))
          · exact hle b (by simp [hb])
    · have hle' : f a ≤ f c := not_lt.mp fun hlt => hgt ((hcmp a c).mpr hlt)
      obtain ⟨hm, hle⟩ := ih c
      refine ⟨List.mem_cons_of_mem _ hm, fun b hb => ?_⟩
      rcases List.mem_cons.mp hb with rfl | hb
      · exact hle'.trans (hle c (by simp))
      · exact hle b hb

theorem maxBy_greatest (hcmp : ∀ a b, cmp a b = .gt ↔ f b < f a) {l : List α} {a : α}
    (h : maxBy cmp l = some a) : a ∈ l ∧ ∀ b ∈ l, f b ≤ f a := by
  cases l with
  | nil => cases h
  | cons c l =>
    cases h
    exact foldl_greatest hcmp l c

theorem maxBy_eq_none {l : List α} : maxBy cmp l = none ↔ l = [] := by
  cases l <;> simp [maxBy]

/-- A comparator that tells the elements apart makes the result independent of the order. -/
theorem maxBy_perm (hcmp : ∀ a b, cmp a b = .gt ↔ f b < f a) {l l' : List α}
    (hinj : ∀ a ∈ l, ∀ b ∈ l, f a = f b → a = b) (hp : l.Perm l') : maxBy cmp l = maxBy cmp l' := by
  cases h : maxBy cmp l with
  | none =>
    rw [maxBy_eq_none] at h
    subst h
    rw [← hp.nil_eq]
    rfl
  | some a =>
    cases h' : maxBy cmp l' with
    | none =>
      rw [maxBy_eq_none] at h'
      subst h'
      rw [hp.eq_nil] at h
      cases h
    | some a' =>
      obtain ⟨ha, hmax⟩ := maxBy_greatest hcmp h
      obtain ⟨ha', hmax'⟩ := maxBy_greatest hcmp h'
      have hal : a' ∈ l := hp.mem_iff.mpr ha'
      rw [hinj a ha a' hal (le_antisymm (hmax' a (hp.mem_iff.mp ha)) (hmax a' hal))]

end Greatest

variable {κ ν : Type*} [DecidableEq κ]

/-- The value at one key changes from `prev` to `next`. -/
structure Change (κ ν : Type*) where
  key : κ
  prev : Option ν
  next : Option ν

def Change.write (c : Change κ ν) : Write κ ν :=
  match c.next with
  | none => .del c.key
  | some v => .put c.key v

/-- The changes lead from `m` to `m'`, each starting from the value that is there. -/
def Exact (m : κ → Option ν) : List (Change κ ν) → (κ → Option ν) → Prop
  | [], m' => m' = m
  | c :: cs, m' => m c.key = c.prev ∧ Exact (Function.update m c.key c.next) cs m'

theorem exact_append {m m' m'' : κ → Option ν} {cs ds : List (Change κ ν)} (h : Exact m cs m')
    (h' : Exact m' ds m'') : Exact m (cs ++ ds) m'' := by
  induction cs generalizing m with
  | nil =>
    cases h
    exact h'
  | cons c cs ih => exact ⟨h.1, ih h.2⟩

/-- Inside an exact stream every change starts from the value its predecessors leave. -/
theorem Exact.prev_eq {m m' : κ → Option ν} {cs ds : List (Change κ ν)} {c : Change κ ν}
    (h : Exact m (cs ++ c :: ds) m') : ∃ f, Exact m cs f ∧ f c.key = c.prev := by
  induction cs generalizing m with
  | nil => exact ⟨m, rfl, h.1⟩
  | cons d cs ih =>
    obtain ⟨f, hf, hk⟩ := ih h.2
    exact ⟨f, ⟨h.1, hf⟩, hk⟩

theorem overlay_write (m : κ → Option ν) (c : Change κ ν) :
    overlay (effectAt c.write) m = Function.update m c.key c.next := by
  funext k
  cases hn : c.next with
  | none => by_cases hk : k = c.key <;> simp [Change.write, hn, overlay, effectAt, hk]
  | some v => by_cases hk : k = c.key <;> simp [Change.write, hn, overlay, effectAt, hk]

/-- Folding an exact stream gives the view it leads to. -/
theorem Exact.overlay_eq {m m' : κ → Option ν} {cs : List (Change κ ν)} (h : Exact m cs m') :
    overlay (effect (cs.map Change.write)) m = m' := by
  induction cs generalizing m with
  | nil =>
    cases h
    funext k
    simp [overlay]
  | cons c cs ih =>
    rw [List.map_cons, effect_cons, overlay_andThen, overlay_write]
    exact ih h.2

/-- How many keys hold a value with `p`. -/
def tally (p : ν → Bool) (m : Table κ ν) : ℕ :=
  (m.keys.filter fun k => (m.lookup k).any p).card

theorem mem_tallied {p : ν → Bool} {m : Table κ ν} {k : κ} :
    k ∈ m.keys.filter (fun k => (m.lookup k).any p) ↔ (m.lookup k).any p = true := by
  rw [Finset.mem_filter, Finmap.mem_keys]
  refine ⟨And.right, fun h => ⟨?_, h⟩⟩
  by_contra hn
  rw [Finmap.lookup_eq_none.mpr hn] at h
  cases h

theorem tally_pos {p : ν → Bool} {m : Table κ ν} {k : κ} (h : (m.lookup k).any p = true) :
    0 < tally p m :=
  Finset.card_pos.mpr ⟨k, mem_tallied.mpr h⟩

theorem exists_of_tally_pos {p : ν → Bool} {m : Table κ ν} (h : 0 < tally p m) :
    ∃ k, (m.lookup k).any p = true := by
  obtain ⟨k, hk⟩ := Finset.card_pos.mp h
  exact ⟨k, mem_tallied.mp hk⟩

/-- One change moves a count by one decrement and one increment. -/
theorem tally_applyWrite (p : ν → Bool) (m : Table κ ν) {c : Change κ ν}
    (h : m.lookup c.key = c.prev) :
    tally p (applyWrite m c.write) + (c.prev.any p).toNat = tally p m + (c.next.any p).toNat := by
  have hlookup : ∀ k, (applyWrite m c.write).lookup k =
      if k = c.key then c.next else m.lookup k := by
    intro k
    rw [congrFun (lookup_applyWrite m c.write) k, overlay_write, Function.update_apply]
  have hcard : ∀ m' : Table κ ν, tally p m' =
      ((m'.keys.filter fun k => (m'.lookup k).any p).erase c.key).card +
        ((m'.lookup c.key).any p).toNat := by
    intro m'
    cases hk : (m'.lookup c.key).any p with
    | true => exact (Finset.card_erase_add_one (mem_tallied.mpr hk)).symm
    | false =>
      rw [tally, Finset.erase_eq_of_notMem (fun hm => by simp [mem_tallied.mp hm] at hk)]
      rfl
  have herase : ((applyWrite m c.write).keys.filter
        fun k => ((applyWrite m c.write).lookup k).any p).erase c.key =
      (m.keys.filter fun k => (m.lookup k).any p).erase c.key := by
    ext k
    simp only [Finset.mem_erase, mem_tallied]
    refine and_congr_right fun hk => ?_
    rw [hlookup, if_neg hk]
  have hnext : (applyWrite m c.write).lookup c.key = c.next := by simp [hlookup]
  rw [hcard (applyWrite m c.write), hcard m, herase, hnext, h]
  omega

end FerrisScope.TableViews
