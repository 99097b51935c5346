import Mathlib.Data.List.Perm.Subperm
import Mathlib.Data.String.Basic
import Mathlib.Tactic.Common

/-!
# JSON values

Trees over an arbitrary type of numbers, of which only equality is ever used. An object is
the list of its entries in iteration order. `find` reads an entry, `mapInsert` is insertion
into a map kept sorted by key, and `wellFormed` says that no object repeats a key. Two values
are the `same` when they are equal up to the order of entries; between well-formed objects
that is a condition on each key.
-/

namespace FerrisScope

inductive Json (ν : Type) where
  | null
  | bool (b : Bool)
  | num (n : ν)
  | str (s : String)
  | arr (xs : List (Json ν))
  | obj (fs : List (String × Json ν))

namespace Json

variable {ν : Type}

abbrev Fields (ν : Type) := List (String × Json ν)

/-- Induction over values: an array through its elements, an object through its entries. -/
theorem induct {P : Json ν → Prop} (null : P .null) (bool : ∀ b, P (.bool b))
    (num : ∀ n, P (.num n)) (str : ∀ s, P (.str s))
    (arr : ∀ xs, (∀ x ∈ xs, P x) → P (.arr xs))
    (obj : ∀ fs, (∀ k v, (k, v) ∈ fs → P v) → P (.obj fs)) (j : Json ν) : P j := by
  refine @Json.rec ν P (fun xs => ∀ x ∈ xs, P x) (fun fs => ∀ k v, (k, v) ∈ fs → P v)
    (fun e => P e.2) null bool num str arr obj ?_ ?_ ?_ ?_ ?_ j
  · simp
  · intro x xs hx hxs y hy
    rcases List.mem_cons.mp hy with rfl | hy
    · exact hx
    · exact hxs y hy
  · simp
  · intro e fs he hfs k v hv
    rcases List.mem_cons.mp hv with rfl | hv
    · exact he
    · exact hfs k v hv
  · intro k v hv
    exact hv

mutual
def decEq [DecidableEq ν] : (a b : Json ν) → Decidable (a = b)
  | .null, .null => isTrue rfl
  | .bool a, .bool b => decidable_of_iff (a = b) (by simp)
  | .num a, .num b => decidable_of_iff (a = b) (by simp)
  | .str a, .str b => decidable_of_iff (a = b) (by simp)
  | .arr xs, .arr ys => @decidable_of_iff _ (xs = ys) (by simp) (decEqElems xs ys)
  | .obj fs, .obj gs => @decidable_of_iff _ (fs = gs) (by simp) (decEqFields fs gs)
  | .null, .bool _ | .null, .num _ | .null, .str _ | .null, .arr _ | .null, .obj _
  | .bool _, .null | .bool _, .num _ | .bool _, .str _ | .bool _, .arr _ | .bool _, .obj _
  | .num _, .null | .num _, .bool _ | .num _, .str _ | .num _, .arr _ | .num _, .obj _
  | .str _, .null | .str _, .bool _ | .str _, .num _ | .str _, .arr _ | .str _, .obj _
  | .arr _, .null | .arr _, .bool _ | .arr _, .num _ | .arr _, .str _ | .arr _, .obj _
  | .obj _, .null | .obj _, .bool _ | .obj _, .num _ | .obj _, .str _ | .obj _, .arr _ =>
      isFalse (by simp)

def decEqElems [DecidableEq ν] : (xs ys : List (Json ν)) → Decidable (xs = ys)
  | [], [] => isTrue rfl
  | x :: xs, y :: ys =>
      @decidable_of_iff _ (x = y ∧ xs = ys) (by simp)
        (@instDecidableAnd _ _ (decEq x y) (decEqElems xs ys))
  | [], _ :: _ | _ :: _, [] => isFalse (by simp)

def decEqFields [DecidableEq ν] : (fs gs : Fields ν) → Decidable (fs = gs)
  | [], [] => isTrue rfl
  | (k, x) :: fs, (l, y) :: gs =>
      @decidable_of_iff _ (k = l ∧ x = y ∧ fs = gs) (by simp [and_assoc])
        (@instDecidableAnd _ _ inferInstance
          (@instDecidableAnd _ _ (decEq x y) (decEqFields fs gs)))
  | [], _ :: _ | _ :: _, [] => isFalse (by simp)
end

instance [DecidableEq ν] : DecidableEq (Json ν) := decEq

/-- The entry of an object at a key. -/
def find (k : String) : Fields ν → Option (Json ν)
  | [] => none
  | (k', v) :: fs => if k' = k then some v else find k fs

def get? (j : Json ν) (k : String) : Option (Json ν) :=
  match j with
  | .obj fs => find k fs
  | _ => none

def asStr : Json ν → Option String
  | .str s => some s
  | _ => none

/-- Insertion into a map that iterates in key order. -/
def mapInsert (k : String) (v : Json ν) : Fields ν → Fields ν
  | [] => [(k, v)]
  | (k', v') :: fs =>
      if k = k' then (k, v) :: fs
      else if k < k' then (k, v) :: (k', v') :: fs
      else (k', v') :: mapInsert k v fs

attribute [grind =] find mapInsert

@[simp] theorem find_nil (k : String) : find k ([] : Fields ν) = none := rfl

theorem find_cons (k k' : String) (v : Json ν) (fs : Fields ν) :
    find k ((k', v) :: fs) = if k' = k then some v else find k fs := rfl

@[simp] theorem find_mapInsert_self (k : String) (v : Json ν) (fs : Fields ν) :
    find k (mapInsert k v fs) = some v := by
  induction fs with
  | nil => simp [mapInsert, find]
  | cons e fs ih =>
    obtain ⟨k', v'⟩ := e
    by_cases hk : k = k'
    · simp [mapInsert, hk, find]
    · by_cases hlt : k < k'
      · simp [mapInsert, hk, hlt, find]
      · simp [mapInsert, hk, hlt, find, Ne.symm hk, ih]

theorem find_mapInsert_of_ne {k k₀ : String} (h : k ≠ k₀) (v : Json ν) (fs : Fields ν) :
    find k (mapInsert k₀ v fs) = find k fs := by
  induction fs with
  | nil => simp [mapInsert, find, Ne.symm h]
  | cons e fs ih =>
    obtain ⟨k', v'⟩ := e
    by_cases hk : k₀ = k'
    · subst hk
      simp [mapInsert, find, Ne.symm h]
    · by_cases hlt : k₀ < k'
      · simp [mapInsert, hk, hlt, find, Ne.symm h]
      · simp [mapInsert, hk, hlt, find, ih]

theorem mem_of_find {k : String} {v : Json ν} {fs : Fields ν} (h : find k fs = some v) :
    (k, v) ∈ fs := by
  induction fs with
  | nil => cases h
  | cons e fs ih =>
    obtain ⟨k', v'⟩ := e
    rw [find_cons] at h
    split_ifs at h with hk
    · cases h
      subst hk
      simp
    · exact List.mem_cons_of_mem _ (ih h)

theorem find_eq_none_iff {k : String} {fs : Fields ν} :
    find k fs = none ↔ k ∉ fs.map Prod.fst := by
  induction fs with
  | nil => simp
  | cons e fs ih =>
    obtain ⟨k', v'⟩ := e
    rw [find_cons]
    by_cases hk : k' = k
    · simp [hk]
    · simp [hk, Ne.symm hk, ih]

theorem find_of_mem {fs : Fields ν} (hn : (fs.map Prod.fst).Nodup) {k : String} {v : Json ν}
    (h : (k, v) ∈ fs) : find k fs = some v := by
  induction fs with
  | nil => cases h
  | cons e fs ih =>
    obtain ⟨k', v'⟩ := e
    rw [List.map_cons, List.nodup_cons] at hn
    rcases List.mem_cons.mp h with heq | hmem
    · cases heq
      simp [find_cons]
    · have hne : k' ≠ k := by
        rintro rfl
        exact hn.1 (List.mem_map.mpr ⟨_, hmem, rfl⟩)
      rw [find_cons, if_neg hne, ih hn.2 hmem]

@[simp] theorem find_append (k : String) (fs gs : Fields ν) :
    find k (fs ++ gs) = (find k fs).or (find k gs) := by
  induction fs with
  | nil => simp
  | cons e fs ih =>
    obtain ⟨k', v'⟩ := e
    rw [List.cons_append, find_cons, find_cons, ih]
    split_ifs <;> simp

/-- Filtering entries by their keys. -/
theorem find_filter (p : String → Bool) (k : String) (fs : Fields ν) :
    find k (fs.filter fun e => p e.1) = if p k then find k fs else none := by
  induction fs with
  | nil => simp
  | cons e fs ih =>
    obtain ⟨k', v'⟩ := e
    by_cases hk : k' = k
    · subst hk
      cases hp : p k' <;> simp [hp, ih, find_cons]
    · cases hp : p k' <;> simp [hp, ih, find_cons, hk]

/-- A copy of an object, entry by entry: each is dropped or kept with a new value. -/
def mapEntries (h : String → Json ν → Option (Json ν)) (fs : Fields ν) : Fields ν :=
  fs.filterMap fun e => (h e.1 e.2).map fun v => (e.1, v)

theorem mapEntries_keys (h : String → Json ν → Option (Json ν)) (fs : Fields ν) :
    ((mapEntries h fs).map Prod.fst).Sublist (fs.map Prod.fst) := by
  induction fs with
  | nil => simp [mapEntries]
  | cons e fs ih =>
    cases he : h e.1 e.2 with
    | none =>
      have hcons : mapEntries h (e :: fs) = mapEntries h fs := by simp [mapEntries, he]
      rw [hcons, List.map_cons]
      exact ih.cons _
    | some v =>
      have hcons : mapEntries h (e :: fs) = (e.1, v) :: mapEntries h fs := by simp [mapEntries, he]
      rw [hcons, List.map_cons, List.map_cons]
      exact ih.cons_cons _

theorem find_mapEntries (h : String → Json ν → Option (Json ν)) {fs : Fields ν}
    (hn : (fs.map Prod.fst).Nodup) (k : String) :
    find k (mapEntries h fs) = (find k fs).bind (h k) := by
  induction fs with
  | nil => rfl
  | cons e fs ih =>
    obtain ⟨k', v'⟩ := e
    rw [List.map_cons, List.nodup_cons] at hn
    by_cases hk : k' = k
    · subst hk
      have hnone : find k' (mapEntries h fs) = none := by
        rw [ih hn.2, find_eq_none_iff.mpr hn.1]
        rfl
      cases hv : h k' v' with
      | none =>
        have hcons : mapEntries h ((k', v') :: fs) = mapEntries h fs := by simp [mapEntries, hv]
        rw [hcons, hnone, find_cons, if_pos rfl, Option.bind_some, hv]
      | some w => simp [mapEntries, hv, find_cons]
    · cases hv : h k' v' with
      | none =>
        have hcons : mapEntries h ((k', v') :: fs) = mapEntries h fs := by simp [mapEntries, hv]
        rw [hcons, ih hn.2, find_cons, if_neg hk]
      | some w =>
        have hcons : mapEntries h ((k', v') :: fs) = (k', w) :: mapEntries h fs := by
          simp [mapEntries, hv]
        rw [hcons, find_cons, if_neg hk, ih hn.2, find_cons, if_neg hk]

mutual
def wellFormed : Json ν → Bool
  | .arr xs => wellFormedElems xs
  | .obj fs => decide (fs.map Prod.fst).Nodup && wellFormedFields fs
  | _ => true

def wellFormedElems : List (Json ν) → Bool
  | [] => true
  | x :: xs => wellFormed x && wellFormedElems xs

def wellFormedFields : Fields ν → Bool
  | [] => true
  | (_, v) :: fs => wellFormed v && wellFormedFields fs
end

attribute [grind =] wellFormed wellFormedElems wellFormedFields

theorem wellFormed_nodup {fs : Fields ν} (h : wellFormed (.obj fs) = true) :
    (fs.map Prod.fst).Nodup := by
  simp only [wellFormed, Bool.and_eq_true, decide_eq_true_eq] at h
  exact h.1

theorem wellFormedFields_iff {fs : Fields ν} :
    wellFormedFields fs = true ↔ ∀ k v, (k, v) ∈ fs → wellFormed v = true := by
  induction fs with
  | nil => simp [wellFormedFields]
  | cons e fs ih =>
    obtain ⟨k', v'⟩ := e
    simp only [wellFormedFields, Bool.and_eq_true, ih, List.mem_cons, Prod.mk.injEq]
    constructor
    · rintro ⟨hv, hfs⟩ k v (⟨rfl, rfl⟩ | hm)
      · exact hv
      · exact hfs k v hm
    · intro h
      exact ⟨h k' v' (.inl ⟨rfl, rfl⟩), fun k v hm => h k v (.inr hm)⟩

theorem wellFormed_find {fs : Fields ν} (h : wellFormed (.obj fs) = true) {k : String}
    {v : Json ν} (hf : find k fs = some v) : wellFormed v = true := by
  simp only [wellFormed, Bool.and_eq_true] at h
  exact wellFormedFields_iff.mp h.2 k v (mem_of_find hf)

theorem wellFormed_elem {xs : List (Json ν)} (h : wellFormed (.arr xs) = true) {x : Json ν}
    (hx : x ∈ xs) : wellFormed x = true := by
  have hall : ∀ ys : List (Json ν), wellFormedElems ys = true → ∀ y ∈ ys, wellFormed y = true := by
    intro ys hys
    induction ys with
    | nil => simp
    | cons y ys ih =>
      simp only [wellFormedElems, Bool.and_eq_true] at hys
      intro z hz
      rcases List.mem_cons.mp hz with rfl | hz
      · exact hys.1
      · exact ih hys.2 z hz
  exact hall xs h x hx

theorem wellFormed_filter {fs : Fields ν} (h : wellFormed (.obj fs) = true) (p : String → Bool) :
    wellFormed (.obj (fs.filter fun e => p e.1)) = true := by
  simp only [wellFormed, Bool.and_eq_true, decide_eq_true_eq, wellFormedFields_iff] at h ⊢
  refine ⟨h.1.sublist (List.filter_sublist.map _), fun k v hm => ?_⟩
  exact h.2 k v (List.mem_of_mem_filter hm)

theorem wellFormed_mapEntries {fs : Fields ν} (h : wellFormed (.obj fs) = true)
    {g : String → Json ν → Option (Json ν)}
    (hg : ∀ k v w, wellFormed v = true → g k v = some w → wellFormed w = true) :
    wellFormed (.obj (mapEntries g fs)) = true := by
  simp only [wellFormed, Bool.and_eq_true, decide_eq_true_eq, wellFormedFields_iff] at h ⊢
  refine ⟨h.1.sublist (mapEntries_keys g fs), fun k v hm => ?_⟩
  obtain ⟨e, he, hv⟩ := List.mem_filterMap.mp hm
  obtain ⟨w, hw, heq⟩ := Option.map_eq_some_iff.mp hv
  obtain ⟨rfl, rfl⟩ := Prod.mk.inj heq
  exact hg _ _ _ (h.2 _ _ he) hw

mutual
/-- How deep arrays and objects nest. -/
def depth : Json ν → ℕ
  | .arr xs => depthElems xs + 1
  | .obj fs => depthFields fs + 1
  | _ => 0

def depthElems : List (Json ν) → ℕ
  | [] => 0
  | x :: xs => max (depth x) (depthElems xs)

def depthFields : Fields ν → ℕ
  | [] => 0
  | (_, v) :: fs => max (depth v) (depthFields fs)
end

attribute [grind =] depth depthElems depthFields

theorem depth_elem {xs : List (Json ν)} {x : Json ν} (h : x ∈ xs) : depth x < depth (.arr xs) := by
  rw [depth, Nat.lt_succ_iff]
  induction xs with
  | nil => cases h
  | cons y xs ih =>
    rw [depthElems]
    rcases List.mem_cons.mp h with rfl | h
    · exact le_max_left _ _
    · exact (ih h).trans (le_max_right _ _)

theorem depth_entry {fs : Fields ν} {k : String} {v : Json ν} (h : (k, v) ∈ fs) :
    depth v < depth (.obj fs) := by
  rw [depth, Nat.lt_succ_iff]
  induction fs with
  | nil => cases h
  | cons e fs ih =>
    obtain ⟨k', v'⟩ := e
    rw [depthFields]
    rcases List.mem_cons.mp h with heq | h
    · cases heq
      exact le_max_left _ _
    · exact (ih h).trans (le_max_right _ _)

variable [DecidableEq ν]

mutual
/-- Equality up to the order of entries. -/
def same : Json ν → Json ν → Bool
  | .null, .null => true
  | .bool a, .bool b => decide (a = b)
  | .num a, .num b => decide (a = b)
  | .str a, .str b => decide (a = b)
  | .arr xs, .arr ys => sameElems xs ys
  | .obj fs, .obj gs => decide (fs.length = gs.length) && sameFields fs gs
  | _, _ => false

def sameElems : List (Json ν) → List (Json ν) → Bool
  | [], [] => true
  | x :: xs, y :: ys => same x y && sameElems xs ys
  | _, _ => false

def sameFields : Fields ν → Fields ν → Bool
  | [], _ => true
  | (k, v) :: fs, gs => (match find k gs with
      | some w => same v w
      | none => false) && sameFields fs gs
end

attribute [grind =] same sameElems sameFields

theorem sameFields_iff {fs gs : Fields ν} :
    sameFields fs gs = true ↔ ∀ k v, (k, v) ∈ fs → ∃ w, find k gs = some w ∧ same v w = true := by
  induction fs with
  | nil => simp [sameFields]
  | cons e fs ih =>
    obtain ⟨k', v'⟩ := e
    simp only [sameFields, Bool.and_eq_true, ih, List.mem_cons, Prod.mk.injEq]
    constructor
    · rintro ⟨hv, hfs⟩ k v (⟨rfl, rfl⟩ | hm)
      · cases hg : find k gs with
        | none => simp [hg] at hv
        | some w => exact ⟨w, rfl, by simpa [hg] using hv⟩
      · exact hfs k v hm
    · intro h
      obtain ⟨w, hw, hs⟩ := h k' v' (.inl ⟨rfl, rfl⟩)
      exact ⟨by simpa [hw] using hs, fun k v hm => h k v (.inr hm)⟩

/-- Well-formed objects are the same when they are at every key. -/
theorem same_obj_iff {fs gs : Fields ν} (hf : (fs.map Prod.fst).Nodup)
    (hg : (gs.map Prod.fst).Nodup) : same (.obj fs) (.obj gs) = true ↔
      ∀ k, Option.Rel (fun v w => same v w = true) (find k fs) (find k gs) := by
  simp only [same, Bool.and_eq_true, decide_eq_true_eq, sameFields_iff]
  constructor
  · rintro ⟨hlen, hsub⟩ k
    have hkeys : fs.map Prod.fst ⊆ gs.map Prod.fst := by
      intro k hk
      obtain ⟨e, he, rfl⟩ := List.mem_map.mp hk
      obtain ⟨w, hw, -⟩ := hsub e.1 e.2 he
      exact List.mem_map.mpr ⟨_, mem_of_find hw, rfl⟩
    have hperm : (fs.map Prod.fst).Perm (gs.map Prod.fst) :=
      (List.Nodup.subperm hf hkeys).perm_of_length_le (by simp [hlen])
    cases hk : find k fs with
    | none =>
      have hn : find k gs = none := by
        rw [find_eq_none_iff] at hk ⊢
        exact fun hm => hk (hperm.mem_iff.mpr hm)
      rw [hn]
      exact .none
    | some v =>
      obtain ⟨w, hw, hs⟩ := hsub k v (mem_of_find hk)
      rw [hw]
      exact .some hs
  · intro h
    have hiff : ∀ k, k ∈ fs.map Prod.fst ↔ k ∈ gs.map Prod.fst := by
      intro k
      have hk := h k
      rw [← not_iff_not, ← find_eq_none_iff, ← find_eq_none_iff]
      generalize find k fs = a at hk
      generalize find k gs = b at hk
      cases hk <;> simp
    constructor
    · have hperm : (fs.map Prod.fst).Perm (gs.map Prod.fst) := (List.perm_ext_iff_of_nodup hf hg).mpr hiff
      simpa using hperm.length_eq
    · intro k v hm
      have hk := h k
      rw [find_of_mem hf hm] at hk
      generalize find k gs = b at hk
      cases hk with
      | some hs => exact ⟨_, rfl, hs⟩

theorem same_refl {j : Json ν} (h : wellFormed j = true) : same j j = true := by
  induction j using Json.induct with
  | null => rfl
  | bool b => simp [same]
  | num n => simp [same]
  | str s => simp [same]
  | arr xs ih =>
    have hall : ∀ ys : List (Json ν), (∀ y ∈ ys, same y y = true) → sameElems ys ys = true := by
      intro ys hys
      induction ys with
      | nil => rfl
      | cons y ys ihys =>
        simp only [sameElems, Bool.and_eq_true]
        exact ⟨hys y (by simp), ihys fun z hz => hys z (by simp [hz])⟩
    exact hall xs fun x hx => ih x hx (wellFormed_elem h hx)
  | obj fs ih =>
    rw [same_obj_iff (wellFormed_nodup h) (wellFormed_nodup h)]
    intro k
    cases hk : find k fs with
    | none => exact .none
    | some v => exact .some (ih k v (mem_of_find hk) (wellFormed_find h hk))

end Json
end FerrisScope
