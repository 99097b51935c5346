import FerrisScope.JsonValue

/-!
# JSON merge patches

Application of a merge patch as RFC 7386 defines it: an object patch is merged into the
target entry by entry, `null` deletes, and any other patch replaces the target. A merge patch
cannot store a `null` in an object, so what a patch can reach is a document up to the keys
whose intended value is `null`: that is the relation `agrees`.
-/

namespace FerrisScope.Json

variable {ν : Type}

def eraseKey (k : String) (fs : Fields ν) : Fields ν := fs.filter fun e => decide (e.1 ≠ k)

/-- Set an entry, in place or at the end. -/
def setKey (k : String) (v : Json ν) : Fields ν → Fields ν
  | [] => [(k, v)]
  | (k', v') :: fs => if k' = k then (k, v) :: fs else (k', v') :: setKey k v fs

theorem find_eraseKey (k k₀ : String) (fs : Fields ν) :
    find k (eraseKey k₀ fs) = if k = k₀ then none else find k fs := by
  rw [eraseKey, find_filter (fun l => decide (l ≠ k₀))]
  by_cases hk : k = k₀ <;> simp [hk]

theorem find_setKey (k k₀ : String) (v : Json ν) (fs : Fields ν) :
    find k (setKey k₀ v fs) = if k = k₀ then some v else find k fs := by
  induction fs with
  | nil => simp [setKey, find_cons, eq_comm]
  | cons e fs ih =>
    obtain ⟨k', v'⟩ := e
    by_cases hk' : k' = k₀
    · subst hk'
      by_cases hk : k = k'
      · simp [setKey, find_cons, hk]
      · simp [setKey, find_cons, hk, Ne.symm hk]
    · by_cases hk : k' = k
      · subst hk
        simp [setKey, find_cons, hk']
      · simp [setKey, find_cons, hk', hk, ih]

/-- The entries a patch is merged into: none when the target is no object. -/
def fields : Json ν → Fields ν
  | .obj fs => fs
  | _ => []

mutual
def applyPatch (target : Json ν) : Json ν → Json ν
  | .obj ps => .obj (mergeFields (fields target) ps)
  | p => p

def mergeFields (fs : Fields ν) : Fields ν → Fields ν
  | [] => fs
  | (k, .null) :: ps => mergeFields (eraseKey k fs) ps
  | (k, p) :: ps => mergeFields (setKey k (applyPatch ((find k fs).getD .null) p) fs) ps
end

attribute [grind =] setKey fields applyPatch mergeFields

/-- What a merge leaves at a key, given the patch and the entry there. -/
def mergedAt (entry : Option (Json ν)) : Option (Json ν) → Option (Json ν)
  | none => entry
  | some .null => none
  | some p => some (applyPatch (entry.getD .null) p)

theorem mergedAt_of_ne {p : Json ν} (hp : p ≠ .null) (entry : Option (Json ν)) :
    mergedAt entry (some p) = some (applyPatch (entry.getD .null) p) := by
  cases p with
  | null => exact absurd rfl hp
  | _ => rfl

private theorem mergeFields_cons_of_ne {p : Json ν} (hp : p ≠ .null) (k : String)
    (fs ps : Fields ν) : mergeFields fs ((k, p) :: ps) =
      mergeFields (setKey k (applyPatch ((find k fs).getD .null) p) fs) ps := by
  cases p with
  | null => exact absurd rfl hp
  | _ => simp [mergeFields]

theorem find_mergeFields {ps : Fields ν} (hn : (ps.map Prod.fst).Nodup) (fs : Fields ν)
    (k : String) : find k (mergeFields fs ps) = mergedAt (find k fs) (find k ps) := by
  induction ps generalizing fs with
  | nil => simp [mergeFields, mergedAt]
  | cons e ps ih =>
    obtain ⟨k', p⟩ := e
    rw [List.map_cons, List.nodup_cons] at hn
    have hstep : find k (mergeFields fs ((k', p) :: ps)) =
        mergedAt (if k = k' then mergedAt (find k fs) (some p) else find k fs) (find k ps) := by
      by_cases hp : p = .null
      · subst hp
        rw [mergeFields, ih hn.2, find_eraseKey]
        rfl
      · rw [mergeFields_cons_of_ne hp, ih hn.2, find_setKey]
        congr 1
        split_ifs with hk
        · rw [hk, mergedAt_of_ne hp]
        · rfl
    rw [hstep, find_cons]
    by_cases hk : k' = k
    · subst hk
      have hnone : find k' ps = none := find_eq_none_iff.mpr hn.1
      simp [hnone, mergedAt]
    · simp [hk, Ne.symm hk]

theorem setKey_keys (k : String) (v : Json ν) (fs : Fields ν) :
    (setKey k v fs).map Prod.fst = if k ∈ fs.map Prod.fst then fs.map Prod.fst
      else fs.map Prod.fst ++ [k] := by
  induction fs with
  | nil => simp [setKey]
  | cons e fs ih =>
    obtain ⟨k', v'⟩ := e
    by_cases hk : k' = k
    · simp [setKey, hk]
    · by_cases hm : k ∈ fs.map Prod.fst
      · simp only [setKey, if_neg hk, List.map_cons, ih, List.mem_cons, hm, or_true, if_true]
      · simp only [setKey, if_neg hk, List.map_cons, ih, List.mem_cons, hm, or_false, if_false,
          if_neg (Ne.symm hk), List.cons_append]

theorem nodup_mergeFields {fs : Fields ν} (h : (fs.map Prod.fst).Nodup) (ps : Fields ν) :
    ((mergeFields fs ps).map Prod.fst).Nodup := by
  induction ps generalizing fs with
  | nil => exact h
  | cons e ps ih =>
    obtain ⟨k, p⟩ := e
    by_cases hp : p = .null
    · subst hp
      rw [mergeFields]
      exact ih (h.sublist (List.filter_sublist.map _))
    · rw [mergeFields_cons_of_ne hp]
      apply ih
      rw [setKey_keys]
      split_ifs with hm
      · exact h
      · rw [List.nodup_append]
        refine ⟨h, by simp, ?_⟩
        rintro a ha b hb rfl
        exact hm (List.mem_singleton.mp hb ▸ ha)

theorem wellFormed_setKey {fs : Fields ν} (h : wellFormed (.obj fs) = true) (k : String) {v : Json ν}
    (hv : wellFormed v = true) : wellFormed (.obj (setKey k v fs)) = true := by
  simp only [wellFormed, Bool.and_eq_true, decide_eq_true_eq] at h ⊢
  constructor
  · rw [setKey_keys]
    split_ifs with hm
    · exact h.1
    · rw [List.nodup_append]
      refine ⟨h.1, by simp, ?_⟩
      rintro a ha b hb rfl
      exact hm (List.mem_singleton.mp hb ▸ ha)
  · have hvalues := wellFormedFields_iff.mp h.2
    clear h
    induction fs with
    | nil => simp [setKey, wellFormedFields, hv]
    | cons e fs ih =>
      obtain ⟨k', v'⟩ := e
      have htail : ∀ l w, (l, w) ∈ fs → wellFormed w = true := fun l w hm => hvalues l w (List.mem_cons_of_mem _ hm)
      by_cases hk : k' = k
      · rw [setKey, if_pos hk, wellFormedFields, hv, Bool.true_and]
        exact wellFormedFields_iff.mpr htail
      · rw [setKey, if_neg hk, wellFormedFields, hvalues k' v' List.mem_cons_self, Bool.true_and]
        exact ih htail

theorem wellFormed_arr {xs : List (Json ν)} (h : ∀ x ∈ xs, wellFormed x = true) : wellFormed (.arr xs) = true := by
  rw [wellFormed]
  induction xs with
  | nil => rfl
  | cons x xs ih =>
    rw [wellFormedElems, h x List.mem_cons_self, Bool.true_and]
    exact ih fun y hy => h y (List.mem_cons_of_mem x hy)

theorem find_fields (k : String) (j : Json ν) : find k (fields j) = j.get? k := by
  cases j with
  | obj fs => rfl
  | _ => rfl

/-- What an object patch leaves at a key. -/
theorem get?_applyPatch {ps : Fields ν} (hn : (ps.map Prod.fst).Nodup) (target : Json ν) (k : String) :
    (applyPatch target (.obj ps)).get? k = mergedAt (target.get? k) (find k ps) := by
  rw [← find_fields k target, ← find_mergeFields hn]
  simp only [applyPatch, get?]

variable [DecidableEq ν]

mutual
/-- `r` is `e`, except that an entry which is `null` in `e` may be absent from `r`. -/
def agrees (r : Json ν) : Json ν → Bool
  | .obj es => match r with
      | .obj rs => (rs.all fun e => (find e.1 es).isSome) && agreesFields rs es
      | _ => false
  | e => same r e

def agreesFields (rs : Fields ν) : Fields ν → Bool
  | [] => true
  | (k, v) :: es => (match find k rs with
      | none => decide (v = .null)
      | some w => agrees w v) && agreesFields rs es
end

attribute [grind =] agrees agreesFields

/-- Agreement at one key. -/
def AgreeAt : Option (Json ν) → Option (Json ν) → Prop
  | r, none => r = none
  | none, some v => v = .null
  | some w, some v => agrees w v = true

theorem agreesFields_iff {rs es : Fields ν} : agreesFields rs es = true ↔
    ∀ k v, (k, v) ∈ es → AgreeAt (find k rs) (some v) := by
  induction es with
  | nil => simp [agreesFields]
  | cons e es ih =>
    obtain ⟨k', v'⟩ := e
    have hhead : (match find k' rs with
        | none => decide (v' = .null)
        | some w => agrees w v') = true ↔ AgreeAt (find k' rs) (some v') := by
      cases find k' rs <;> simp [AgreeAt]
    simp only [agreesFields, Bool.and_eq_true, ih, List.mem_cons, Prod.mk.injEq]
    rw [hhead]
    constructor
    · rintro ⟨hv, hes⟩ k v (⟨rfl, rfl⟩ | hm)
      · exact hv
      · exact hes k v hm
    · intro h
      exact ⟨h k' v' (.inl ⟨rfl, rfl⟩), fun k v hm => h k v (.inr hm)⟩

/-- Objects agree when they do at every key. -/
theorem agrees_obj_iff {rs es : Fields ν} (hn : (es.map Prod.fst).Nodup) :
    agrees (.obj rs) (.obj es) = true ↔ ∀ k, AgreeAt (find k rs) (find k es) := by
  simp only [agrees, Bool.and_eq_true, agreesFields_iff, List.all_eq_true]
  constructor
  · rintro ⟨hsub, hval⟩ k
    cases hk : find k es with
    | some v => exact hval k v (mem_of_find hk)
    | none =>
      cases hr : find k rs with
      | none => rfl
      | some w =>
        have := hsub (k, w) (mem_of_find hr)
        simp [hk] at this
  · intro h
    refine ⟨fun e he => ?_, fun k v hm => find_of_mem hn hm ▸ h k⟩
    cases hk : find e.1 es with
    | some v => rfl
    | none =>
      have hr : find e.1 rs = none := by simpa [hk, AgreeAt] using h e.1
      rw [find_eq_none_iff] at hr
      exact absurd (List.mem_map.mpr ⟨e, he, rfl⟩) hr

theorem agrees_of_ne_obj {r e : Json ν} (he : ∀ es, e ≠ .obj es) : agrees r e = same r e := by
  cases e with
  | obj es => exact absurd rfl (he es)
  | _ => simp [agrees]

theorem agrees_of_same {r e : Json ν} (hr : wellFormed r = true) (he : wellFormed e = true)
    (h : same r e = true) : agrees r e = true := by
  induction e using Json.induct generalizing r with
  | obj es ih =>
    cases r with
    | obj rs =>
      rw [agrees_obj_iff (wellFormed_nodup he)]
      rw [same_obj_iff (wellFormed_nodup hr) (wellFormed_nodup he)] at h
      intro k
      have hk := h k
      cases hrk : find k rs with
      | none =>
        cases hek : find k es with
        | none => rfl
        | some v =>
          rw [hrk, hek] at hk
          cases hk
      | some w =>
        cases hek : find k es with
        | none =>
          rw [hrk, hek] at hk
          cases hk
        | some v =>
          rw [hrk, hek] at hk
          cases hk with
          | some hs =>
            exact ih k v (mem_of_find hek) (wellFormed_find hr hrk) (wellFormed_find he hek) hs
    | _ => simp [same] at h
  | _ => rwa [agrees_of_ne_obj (by simp)]

/-- A patch that replaces what is not an object reaches its own value. -/
theorem agrees_applyPatch_fresh {target e : Json ν} (ht : fields target = [])
    (he : wellFormed e = true) : agrees (applyPatch target e) e = true := by
  induction e using Json.induct generalizing target with
  | obj es ih =>
    rw [applyPatch, agrees_obj_iff (wellFormed_nodup he), ht]
    intro k
    rw [find_mergeFields (wellFormed_nodup he)]
    cases hek : find k es with
    | none => rfl
    | some v =>
      cases v with
      | null => rfl
      | _ => exact ih k _ (mem_of_find hek) rfl (wellFormed_find he hek)
  | _ => simpa [applyPatch, agrees] using same_refl he

end FerrisScope.Json
