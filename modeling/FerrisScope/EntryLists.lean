import Mathlib.Algebra.Order.BigOperators.Group.List
import Mathlib.Algebra.Order.Ring.Nat
import Mathlib.Data.List.Induction
import Mathlib.Data.List.Nodup
import Mathlib.Data.List.Perm.Subperm
import Mathlib.Tactic.Common

/-!
# Entry lists

A record with keys in the order of their first assignment. Assigning to a key that is there replaces
its value in place. No key repeats, so that a measure of the entries is bounded by that of any list
they are all taken from.
-/

namespace FerrisScope.EntryLists

variable {κ α β : Type*} [DecidableEq κ]

def put (k : κ) (v : α) : List (κ × α) → List (κ × α)
  | [] => [(k, v)]
  | e :: es => if e.1 = k then (k, v) :: es else e :: put k v es

attribute [grind =] put

/-- How often each key occurs. -/
def tallyKeys (ks : List κ) : List (κ × ℕ) := ks.foldl (fun m k => put k ((m.lookup k).getD 0 + 1) m) []

/-- A record from its entries, where a later entry of a key wins. -/
def fromEntries (es : List (κ × α)) : List (κ × α) := es.foldl (fun acc e => put e.1 e.2 acc) []

variable {k : κ} {v : α} {es fs : List (κ × α)}

omit [DecidableEq κ] in
theorem lookup_cons_of_ne [BEq κ] [LawfulBEq κ] {k l : κ} (h : k ≠ l) (v : α) (es : List (κ × α)) :
    ((l, v) :: es).lookup k = es.lookup k := by
  rw [List.lookup_cons, beq_eq_false_iff_ne.mpr h]

theorem lookup_put (k' : κ) : (put k v es).lookup k' = if k' = k then some v else es.lookup k' := by
  induction es with
  | nil =>
    by_cases hk : k' = k
    · simp [put, hk]
    · simp [put, hk]
  | cons e es ih =>
    obtain ⟨l, w⟩ := e
    by_cases hl : l = k
    · subst hl
      by_cases hk : k' = l
      · simp [put, hk]
      · simp [put, lookup_cons_of_ne hk, hk]
    · by_cases hk : k' = l
      · subst hk
        simp [put, hl]
      · simp [put, hl, lookup_cons_of_ne hk, ih]

theorem lookup_of_notMem (h : k ∉ es.map Prod.fst) : es.lookup k = none := by
  rw [List.lookup_eq_none_iff]
  intro e he
  exact bne_iff_ne.mpr fun heq => h (heq ▸ List.mem_map_of_mem he)

/-- Entries that are kept by their keys. -/
theorem lookup_filter (p : κ → Bool) (k : κ) : (es.filter fun e => p e.1).lookup k = if p k then es.lookup k else none := by
  induction es with
  | nil => simp
  | cons e es ih =>
    obtain ⟨l, w⟩ := e
    rw [List.filter_cons]
    by_cases hk : k = l
    · subst hk
      split
      · next hp => simp
      · next hp => rw [ih, if_neg hp]
    · rw [lookup_cons_of_ne hk]
      split
      · rw [lookup_cons_of_ne hk, ih]
      · rw [ih]

/-- A key that does not repeat has the value it stands beside. -/
theorem lookup_eq_some_iff (hnodup : (es.map Prod.fst).Nodup) : es.lookup k = some v ↔ (k, v) ∈ es := by
  induction es with
  | nil => simp
  | cons e es ih =>
    obtain ⟨l, w⟩ := e
    obtain ⟨hnew, hrest⟩ := List.nodup_cons.mp hnodup
    by_cases hk : k = l
    · subst hk
      have habsent : (k, v) ∉ es := fun hmem => hnew (List.mem_map.mpr ⟨(k, v), hmem, rfl⟩)
      simp [habsent, eq_comm]
    · rw [lookup_cons_of_ne hk, ih hrest]
      simp [hk]

theorem mem_put {e : κ × α} (h : e ∈ put k v es) : e = (k, v) ∨ e ∈ es := by
  induction es with
  | nil => exact .inl (List.mem_singleton.mp h)
  | cons d es ih =>
    simp only [put] at h
    split_ifs at h
    · exact (List.mem_cons.mp h).imp_right (List.mem_cons_of_mem d)
    · obtain rfl | h := List.mem_cons.mp h
      · exact .inr List.mem_cons_self
      · exact (ih h).imp_right (List.mem_cons_of_mem d)

theorem mem_keys_put {k' : κ} : k' ∈ (put k v es).map Prod.fst ↔ k' = k ∨ k' ∈ es.map Prod.fst := by
  induction es with
  | nil => simp [put]
  | cons e es ih =>
    simp only [put]
    split_ifs with hk
    · subst hk
      simp
    · simp only [List.map_cons, List.mem_cons, ih]
      tauto

theorem nodup_put (h : (es.map Prod.fst).Nodup) : ((put k v es).map Prod.fst).Nodup := by
  induction es with
  | nil => simp [put]
  | cons e es ih =>
    simp only [List.map_cons, List.nodup_cons] at h
    simp only [put]
    split_ifs with hk
    · subst hk
      simpa using h
    · simp only [List.map_cons, List.nodup_cons]
      refine ⟨fun hmem => ?_, ih h.2⟩
      obtain heq | hmem := mem_keys_put.mp hmem
      · exact hk heq
      · exact h.1 hmem

/-- Assigning commutes with a map of the values. -/
theorem map_put (f : α → β) : (put k v es).map (Prod.map id f) = put k (f v) (es.map (Prod.map id f)) := by
  induction es with
  | nil => rfl
  | cons e es ih =>
    obtain ⟨l, w⟩ := e
    by_cases hl : l = k <;> simp [put, hl, ih]

theorem lookup_map (f : α → β) (k : κ) : (es.map (Prod.map id f)).lookup k = (es.lookup k).map f := by
  induction es with
  | nil => rfl
  | cons e es ih =>
    obtain ⟨l, w⟩ := e
    by_cases hk : k = l
    · simp [hk]
    · simp [lookup_cons_of_ne hk, ih]

theorem sum_put_le (m : α → ℕ) :
    ((put k v es).map fun e => m e.2).sum ≤ (es.map fun e => m e.2).sum + m v := by
  induction es with
  | nil => simp [put]
  | cons e es ih =>
    simp only [put]
    split_ifs <;> simp only [List.map_cons, List.sum_cons] <;> omega

theorem getD_lookup_tallyKeys (ks : List κ) (k : κ) : ((tallyKeys ks).lookup k).getD 0 = ks.count k := by
  induction ks using List.reverseRecOn with
  | nil => rfl
  | append_singleton ks l ih =>
    have hstep : tallyKeys (ks ++ [l]) = put l (((tallyKeys ks).lookup l).getD 0 + 1) (tallyKeys ks) := List.foldl_concat ..
    rw [hstep, lookup_put, List.count_append]
    by_cases hk : k = l
    · subst hk
      rw [if_pos rfl, Option.getD_some, ih, List.count_singleton_self]
    · rw [if_neg hk, ih, List.count_eq_zero_of_not_mem (List.mem_singleton.not.mpr hk), Nat.add_zero]

section FromEntries

theorem map_fromEntries (f : α → β) :
    (fromEntries es).map (Prod.map id f) = fromEntries (es.map (Prod.map id f)) := by
  suffices h : ∀ acc : List (κ × α), (es.foldl (fun acc e => put e.1 e.2 acc) acc).map (Prod.map id f) =
      (es.map (Prod.map id f)).foldl (fun acc e => put e.1 e.2 acc) (acc.map (Prod.map id f)) from h []
  induction es with
  | nil => exact fun _ => rfl
  | cons e es ih =>
    intro acc
    simp only [List.foldl_cons, List.map_cons, ih, map_put]
    rfl

theorem mem_fromEntries {e : κ × α} (h : e ∈ fromEntries es) : e ∈ es := by
  suffices hall : ∀ acc : List (κ × α), e ∈ es.foldl (fun acc e => put e.1 e.2 acc) acc → e ∈ acc ∨ e ∈ es by
    simpa using hall [] h
  clear h
  induction es with
  | nil => exact fun _ => .inl
  | cons d es ih =>
    intro acc h
    obtain h | h := ih _ h
    · obtain rfl | h := mem_put h
      · exact .inr List.mem_cons_self
      · exact .inl h
    · exact .inr (List.mem_cons_of_mem d h)

theorem nodup_fromEntries : ((fromEntries es).map Prod.fst).Nodup := by
  suffices h : ∀ acc : List (κ × α), (acc.map Prod.fst).Nodup →
      ((es.foldl (fun acc e => put e.1 e.2 acc) acc).map Prod.fst).Nodup from h [] List.nodup_nil
  induction es with
  | nil => exact fun _ => id
  | cons e es ih => exact fun acc h => ih _ (nodup_put h)

theorem put_of_notMem (h : k ∉ es.map Prod.fst) : put k v es = es ++ [(k, v)] := by
  induction es with
  | nil => rfl
  | cons e es ih =>
    rw [List.map_cons, List.mem_cons, not_or] at h
    rw [put, if_neg (Ne.symm h.1), ih h.2, List.cons_append]

theorem fromEntries_of_nodup (h : (es.map Prod.fst).Nodup) : fromEntries es = es := by
  induction es using List.reverseRecOn with
  | nil => rfl
  | append_singleton es e ih =>
    rw [List.map_append, List.nodup_append] at h
    obtain ⟨hes, -, hapart⟩ := h
    have hnew : e.1 ∉ es.map Prod.fst := fun hmem => hapart _ hmem _ (List.mem_singleton_self e.1) rfl
    have hstep : fromEntries (es ++ [e]) = put e.1 e.2 (fromEntries es) := List.foldl_concat ..
    rw [hstep, ih hes, put_of_notMem hnew]

/-- A key all of whose entries have one value has that value. -/
theorem lookup_fromEntries (hmem : (k, v) ∈ es) (hall : ∀ w, (k, w) ∈ es → w = v) :
    (fromEntries es).lookup k = some v := by
  suffices h : ∀ acc : List (κ × α), (k, v) ∈ es ∨ acc.lookup k = some v →
      (es.foldl (fun acc e => put e.1 e.2 acc) acc).lookup k = some v from h [] (.inl hmem)
  clear hmem
  induction es with
  | nil => exact fun acc h => h.resolve_left List.not_mem_nil
  | cons e es ih =>
    intro acc h
    refine ih (fun w hw => hall w (List.mem_cons_of_mem e hw)) _ ?_
    by_cases hk : k = e.1
    · refine .inr ?_
      have hv : e.2 = v := hall e.2 (hk ▸ List.mem_cons_self)
      rw [lookup_put, if_pos hk, hv]
    · rw [lookup_put, if_neg hk]
      refine h.imp_left fun hmem => (List.mem_cons.mp hmem).resolve_left fun heq => hk ?_
      exact congrArg Prod.fst heq

end FromEntries

omit [DecidableEq κ] in
/-- Entries without a repeated key, all taken from a list, measure at most what the list does. -/
theorem sum_le_of_subset (f : κ × α → ℕ) (hnodup : (fs.map Prod.fst).Nodup) (hsub : ∀ e ∈ fs, e ∈ es) :
    (fs.map f).sum ≤ (es.map f).sum := by
  obtain ⟨gs, hperm, hgs⟩ := (List.Nodup.of_map _ hnodup).subperm hsub
  calc
    (fs.map f).sum = (gs.map f).sum := ((hperm.map f).sum_eq).symm
    _ ≤ (es.map f).sum := (hgs.map f).sum_le_sum fun _ _ => Nat.zero_le _

end FerrisScope.EntryLists
