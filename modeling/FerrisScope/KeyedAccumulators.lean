import FerrisScope.EntryLists
import Mathlib.Data.List.Basic
import Mathlib.Data.List.Induction
import Mathlib.Data.List.Nodup
import Mathlib.Order.Lattice

/-!
# Accumulators by key

Inputs that name a key go to the machine of that key, which starts with its first input. The entries
are kept in the order of their keys and the events in the order of the inputs. What happens at one key
depends on the inputs of that key alone, however they are mixed with those of others.
-/

namespace FerrisScope.KeyedAccumulators

variable {κ σ ι ε : Type*} [LinearOrder κ]

/-! ## Entries in the order of their keys -/

/-- The entry of a key is changed in place. A new one starts from `init`. -/
def modify (k : κ) (init : σ) (f : σ → σ) : List (κ × σ) → List (κ × σ)
  | [] => [(k, f init)]
  | e :: es =>
      if k < e.1 then (k, f init) :: e :: es
      else if e.1 = k then (k, f e.2) :: es
      else e :: modify k init f es

attribute [grind =] modify

def Sorted (es : List (κ × σ)) : Prop := es.Pairwise fun a b => a.1 < b.1

variable {k l : κ} {init : σ} {f : σ → σ} {es : List (κ × σ)}

theorem mem_modify {e : κ × σ} (h : e ∈ modify k init f es) : e.1 = k ∨ e ∈ es := by
  induction es with
  | nil =>
    rw [modify, List.mem_singleton] at h
    exact .inl (h ▸ rfl)
  | cons a es ih =>
    rw [modify] at h
    split_ifs at h with hlt heq
    · rcases List.mem_cons.mp h with rfl | h
      · exact .inl rfl
      · exact .inr h
    · rcases List.mem_cons.mp h with rfl | h
      · exact .inl rfl
      · exact .inr (List.mem_cons_of_mem _ h)
    · rcases List.mem_cons.mp h with rfl | h
      · exact .inr List.mem_cons_self
      · exact (ih h).imp_right (List.mem_cons_of_mem _)

theorem Sorted.modify (h : Sorted es) : Sorted (modify k init f es) := by
  induction es with
  | nil => exact List.pairwise_singleton _ _
  | cons a es ih =>
    obtain ⟨hhead, htail⟩ := List.pairwise_cons.mp h
    rw [KeyedAccumulators.modify]
    split_ifs with hlt heq
    · refine List.pairwise_cons.mpr ⟨fun b hb => ?_, h⟩
      rcases List.mem_cons.mp hb with rfl | hb
      · exact hlt
      · exact lt_trans hlt (hhead b hb)
    · exact List.pairwise_cons.mpr ⟨heq ▸ hhead, htail⟩
    · refine List.pairwise_cons.mpr ⟨fun b hb => ?_, ih htail⟩
      rcases mem_modify hb with hk | hb
      · rw [hk]
        exact lt_of_le_of_ne (not_lt.mp hlt) heq
      · exact hhead b hb

theorem Sorted.nodup_keys (h : Sorted es) : (es.map Prod.fst).Nodup :=
  List.pairwise_map.mpr (h.imp fun hab => ne_of_lt hab)

theorem lookup_of_lt (h : ∀ e ∈ es, k < e.1) : es.lookup k = none := by
  rw [List.lookup_eq_none_iff]
  intro e he
  exact bne_iff_ne.mpr (ne_of_lt (h e he))

theorem lookup_cons_ite (k l : κ) (s : σ) (es : List (κ × σ)) :
    ((k, s) :: es).lookup l = if l = k then some s else es.lookup l := by
  by_cases hl : l = k
  · simp [hl]
  · rw [EntryLists.lookup_cons_of_ne hl, if_neg hl]

theorem lookup_modify (h : Sorted es) : (modify k init f es).lookup l =
    if l = k then some (f ((es.lookup k).getD init)) else es.lookup l := by
  induction es with
  | nil => exact lookup_cons_ite k l (f init) []
  | cons a es ih =>
    obtain ⟨hhead, htail⟩ := List.pairwise_cons.mp h
    obtain ⟨b, s⟩ := a
    rw [modify]
    rcases lt_trichotomy k b with hlt | rfl | hgt
    · have hnone : ((b, s) :: es).lookup k = none := by
        apply lookup_of_lt
        intro e he
        rcases List.mem_cons.mp he with rfl | he
        · exact hlt
        · exact lt_trans hlt (hhead e he)
      rw [if_pos hlt, lookup_cons_ite, hnone]
      rfl
    · rw [if_neg (lt_irrefl k), if_pos rfl, List.lookup_cons_self, lookup_cons_ite, lookup_cons_ite]
      split_ifs <;> rfl
    · rw [if_neg (not_lt_of_gt hgt), if_neg (ne_of_lt hgt), lookup_cons_ite, ih htail, lookup_cons_ite,
        lookup_cons_ite, if_neg (ne_of_gt hgt)]
      by_cases hl : l = b
      · rw [if_pos hl, if_neg (hl ▸ ne_of_lt hgt), if_pos hl]
      · rw [if_neg hl, if_neg hl]

theorem lookup_eq_some (h : Sorted es) {s : σ} : es.lookup k = some s ↔ (k, s) ∈ es :=
  EntryLists.lookup_eq_some_iff h.nodup_keys

/-- Entries in order are told apart by what is found in them. -/
theorem Sorted.ext {fs : List (κ × σ)} (h : Sorted es) (h' : Sorted fs) (hlookup : ∀ k, es.lookup k = fs.lookup k) :
    es = fs := by
  have hmem : ∀ e : κ × σ, e ∈ es ↔ e ∈ fs := by
    rintro ⟨k, s⟩
    rw [← lookup_eq_some h, ← lookup_eq_some h', hlookup]
  have hperm := (List.perm_ext_iff_of_nodup h.nodup_keys.of_map h'.nodup_keys.of_map).mpr hmem
  exact hperm.eq_of_pairwise (fun a b _ _ hab hba => absurd hba (lt_asymm hab)) h h'

/-- An entry that stays as it is. -/
theorem Sorted.modify_of_fixed (h : Sorted es) {s : σ} (hs : es.lookup k = some s) (hfix : f s = s) :
    KeyedAccumulators.modify k init f es = es := by
  apply h.modify.ext h
  intro l
  rw [lookup_modify h]
  split_ifs with hl
  · rw [hl, hs, Option.getD_some, hfix]
  · rfl

/-- Entries seen through a map of the states. -/
theorem modify_map {τ : Type*} {start : τ} {g : τ → τ} (h : σ → τ) (hstart : start = h init)
    (hg : ∀ s, g (h s) = h (f s)) (es : List (κ × σ)) :
    modify k start g (es.map fun e => (e.1, h e.2)) =
      (modify k init f es).map fun e => (e.1, h e.2) := by
  subst hstart
  induction es with
  | nil => simp [modify, hg]
  | cons e es ih =>
    rw [List.map_cons, modify, modify]
    split_ifs with hlt heq
    · rw [hg]
      rfl
    · rw [hg]
      rfl
    · rw [ih]
      rfl

theorem lookup_map {τ : Type*} (h : σ → τ) (es : List (κ × σ)) :
    (es.map fun e => (e.1, h e.2)).lookup k = (es.lookup k).map h := EntryLists.lookup_map h k

/-! ## Machines -/

/-- What one input does to a state, and the events it causes. -/
structure Machine (σ ι ε : Type*) where
  init : σ
  step : σ → ι → σ × List ε

namespace Machine

variable (m : Machine σ ι ε)

def run (inputs : List ι) : σ × List ε :=
  inputs.foldl (fun s i => ((m.step s.1 i).1, s.2 ++ (m.step s.1 i).2)) (m.init, [])

/-- One input of a key. -/
def feed (s : List (κ × σ) × List (κ × ε)) (i : κ × ι) : List (κ × σ) × List (κ × ε) :=
  (modify i.1 m.init (fun t => (m.step t i.2).1) s.1,
    s.2 ++ (m.step ((s.1.lookup i.1).getD m.init) i.2).2.map fun e => (i.1, e))

def runAll (inputs : List (κ × ι)) : List (κ × σ) × List (κ × ε) := inputs.foldl m.feed ([], [])

end Machine

/-- What is tagged with a key, in order. -/
def only {α : Type*} (k : κ) (xs : List (κ × α)) : List α :=
  (xs.filter fun x => decide (x.1 = k)).map Prod.snd

theorem only_append {α : Type*} (k : κ) (xs ys : List (κ × α)) : only k (xs ++ ys) = only k xs ++ only k ys := by
  rw [only, List.filter_append, List.map_append]
  rfl

theorem only_tagged {α : Type*} (k l : κ) (xs : List α) :
    only k (xs.map fun x => (l, x)) = if l = k then xs else [] := by
  by_cases h : l = k
  · simp [only, h, List.filter_map, Function.comp_def]
  · simp [only, h, List.filter_map, Function.comp_def]

variable (m : Machine σ ι ε)

theorem run_concat (inputs : List ι) (i : ι) : m.run (inputs ++ [i]) =
    ((m.step (m.run inputs).1 i).1, (m.run inputs).2 ++ (m.step (m.run inputs).1 i).2) := by
  rw [Machine.run, List.foldl_append]
  rfl

theorem runAll_concat (inputs : List (κ × ι)) (i : κ × ι) :
    m.runAll (inputs ++ [i]) = m.feed (m.runAll inputs) i := by
  rw [Machine.runAll, List.foldl_append]
  rfl

theorem sorted_runAll (inputs : List (κ × ι)) : Sorted (m.runAll inputs).1 := by
  induction inputs using List.reverseRecOn with
  | nil => exact List.Pairwise.nil
  | append_singleton inputs i ih =>
    rw [runAll_concat]
    exact ih.modify

/-- Each key is in the state its own inputs lead to. -/
theorem lookup_runAll (inputs : List (κ × ι)) (k : κ) : (m.runAll inputs).1.lookup k =
    if only k inputs = [] then none else some (m.run (only k inputs)).1 := by
  induction inputs using List.reverseRecOn with
  | nil => rfl
  | append_singleton inputs i ih =>
    rw [runAll_concat, Machine.feed, lookup_modify (sorted_runAll m inputs), only_append]
    have hone : only k [i] = if i.1 = k then [i.2] else [] := only_tagged k i.1 [i.2]
    by_cases hk : k = i.1
    · subst hk
      have hne : only i.1 inputs ++ [i.2] ≠ [] := by simp
      rw [if_pos rfl, hone, if_pos rfl, run_concat, ih, if_neg hne]
      by_cases hnil : only i.1 inputs = []
      · rw [if_pos hnil, hnil]
        rfl
      · rw [if_neg hnil]
        rfl
    · rw [if_neg hk, hone, if_neg (Ne.symm hk), List.append_nil, ih]

theorem getD_lookup_runAll (inputs : List (κ × ι)) (k : κ) :
    ((m.runAll inputs).1.lookup k).getD m.init = (m.run (only k inputs)).1 := by
  rw [lookup_runAll]
  split_ifs with h
  · rw [h]
    rfl
  · rfl

/-- The events of a key are those its own inputs cause. -/
theorem only_runAll (inputs : List (κ × ι)) (k : κ) :
    only k (m.runAll inputs).2 = (m.run (only k inputs)).2 := by
  induction inputs using List.reverseRecOn with
  | nil => rfl
  | append_singleton inputs i ih =>
    have hone : only k [i] = if i.1 = k then [i.2] else [] := only_tagged k i.1 [i.2]
    rw [runAll_concat, Machine.feed, only_append, only_append, only_tagged, ih, hone]
    by_cases hk : i.1 = k
    · rw [if_pos hk, if_pos hk, run_concat, getD_lookup_runAll, hk]
    · rw [if_neg hk, if_neg hk, List.append_nil, List.append_nil]

/-- A tagged list, sorted by its tags. -/
theorem perm_flatMap_only {α : Type*} {ks : List κ} (hks : ks.Nodup) {xs : List (κ × α)}
    (h : ∀ x ∈ xs, x.1 ∈ ks) : (xs.map Prod.snd).Perm (ks.flatMap fun k => only k xs) := by
  induction ks generalizing xs with
  | nil =>
    cases xs with
    | nil => exact List.Perm.refl _
    | cons x xs => exact absurd (h x List.mem_cons_self) List.not_mem_nil
  | cons k ks ih =>
    obtain ⟨hk, hks⟩ := List.nodup_cons.mp hks
    have hrest : ∀ x ∈ xs.filter (fun x => !decide (x.1 = k)), x.1 ∈ ks := by
      intro x hx
      obtain ⟨hx, hne⟩ := List.mem_filter.mp hx
      have hne : x.1 ≠ k := by simpa using hne
      exact (List.mem_cons.mp (h x hx)).resolve_left hne
    have hothers : (ks.flatMap fun l => only l (xs.filter fun x => !decide (x.1 = k))) =
        ks.flatMap fun l => only l xs := by
      apply List.flatMap_congr
      intro l hl
      have hlk : l ≠ k := fun heq => hk (heq ▸ hl)
      rw [only, only, List.filter_filter]
      congr 1
      apply List.filter_congr
      intro x _
      by_cases hx : x.1 = l <;> simp [hx, hlk]
    rw [List.flatMap_cons, ← hothers]
    have hsplit := (List.filter_append_perm (fun x : κ × α => decide (x.1 = k)) xs).map Prod.snd
    rw [List.map_append] at hsplit
    exact hsplit.symm.trans ((ih hks hrest).append_left _)

theorem mem_keys_of_event {inputs : List (κ × ι)} {x : κ × ε} (h : x ∈ (m.runAll inputs).2) :
    x.1 ∈ (m.runAll inputs).1.map Prod.fst := by
  by_contra hkey
  have hnone : (m.runAll inputs).1.lookup x.1 = none := by
    rw [List.lookup_eq_none_iff]
    intro e he
    have hmem : e.1 ∈ (m.runAll inputs).1.map Prod.fst := List.mem_map_of_mem he
    exact bne_iff_ne.mpr fun heq => hkey (heq ▸ hmem)
  rw [lookup_runAll] at hnone
  have hnil : only x.1 inputs = [] := by
    by_contra hne
    rw [if_neg hne] at hnone
    cases hnone
  have hevents := only_runAll m inputs x.1
  rw [hnil] at hevents
  have hmem : x.2 ∈ only x.1 (m.runAll inputs).2 :=
    List.mem_map_of_mem (List.mem_filter.mpr ⟨h, decide_eq_true rfl⟩)
  rw [hevents] at hmem
  cases hmem

/-- All events, key by key. -/
theorem perm_events (inputs : List (κ × ι)) : ((m.runAll inputs).2.map Prod.snd).Perm
    ((m.runAll inputs).1.flatMap fun e => (m.run (only e.1 inputs)).2) := by
  have hperm := perm_flatMap_only (sorted_runAll m inputs).nodup_keys
    fun x hx => mem_keys_of_event m hx
  have hrewrite : (((m.runAll inputs).1.map Prod.fst).flatMap fun k => only k (m.runAll inputs).2) =
      (m.runAll inputs).1.flatMap fun e => (m.run (only e.1 inputs)).2 := by
    rw [List.flatMap_map]
    apply List.flatMap_congr
    intro e _
    exact only_runAll m inputs e.1
  rw [hrewrite] at hperm
  exact hperm

/-- An entry is the state its own inputs lead to. -/
theorem entry_eq_run {inputs : List (κ × ι)} {e : κ × σ} (h : e ∈ (m.runAll inputs).1) :
    e.2 = (m.run (only e.1 inputs)).1 ∧ only e.1 inputs ≠ [] := by
  have hlookup := (lookup_eq_some (sorted_runAll m inputs)).mpr h
  rw [lookup_runAll] at hlookup
  split_ifs at hlookup with hnil
  exact ⟨(Option.some.inj hlookup).symm, hnil⟩

end FerrisScope.KeyedAccumulators
