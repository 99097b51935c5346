import FerrisScope.GeminiSchema

/-!
# The recursion of the passes

Every pass satisfies the equation its body states: the recursive calls of `nested` and `repair`
and of the inlining of references go to smaller arguments. Sanitizing calls itself on the
members it makes for a list of types, which are no part of the node. They hold sanitized values
alone, where no list of types is left, so `sanitize` is its own `again`.
-/

namespace FerrisScope.GeminiSchema
open Json OpenRecursion

variable {ν : Type} {serde : Serde ν}

/-! ## Objects -/

theorem find_mapInsert (k k₀ : String) (v : Json ν) (o : Fields ν) :
    find k (mapInsert k₀ v o) = if k = k₀ then some v else find k o := by
  split_ifs with h
  · rw [h, find_mapInsert_self]
  · exact find_mapInsert_of_ne h v o

theorem find_putSome (k k₀ : String) (v : Option (Json ν)) (o : Fields ν) :
    find k (putSome k₀ v o) = if k = k₀ then v.or (find k o) else find k o := by
  cases v with
  | none => simp [putSome]
  | some v => simp [putSome, find_mapInsert]

theorem find_remove (k k₀ : String) (o : Fields ν) :
    find k (remove k₀ o) = if k = k₀ then none else find k o := by
  rw [remove, find_filter fun l => decide (l ≠ k₀)]
  by_cases h : k = k₀ <;> simp [h]

theorem find_map (h : String → Json ν → Json ν) (k : String) (o : Fields ν) :
    find k (o.map fun e => (e.1, h e.1 e.2)) = (find k o).map (h k) := by
  induction o with
  | nil => rfl
  | cons e o ih =>
    obtain ⟨k', v⟩ := e
    rw [List.map_cons, find_cons, find_cons, ih]
    split_ifs with hk
    · subst hk
      rfl
    · rfl

theorem mem_mapInsert {k : String} {v : Json ν} {o : Fields ν} {e : String × Json ν}
    (h : e ∈ mapInsert k v o) : e = (k, v) ∨ e ∈ o := by
  induction o with
  | nil => simpa [mapInsert] using h
  | cons e' o ih =>
    obtain ⟨k', v'⟩ := e'
    rw [mapInsert] at h
    split_ifs at h with hk hlt
    · rcases List.mem_cons.mp h with h | h
      · exact .inl h
      · exact .inr (List.mem_cons_of_mem _ h)
    · rcases List.mem_cons.mp h with h | h
      · exact .inl h
      · exact .inr h
    · rcases List.mem_cons.mp h with h | h
      · exact .inr (h ▸ List.mem_cons_self ..)
      · rcases ih h with h | h
        · exact .inl h
        · exact .inr (List.mem_cons_of_mem _ h)

theorem mem_remove {k : String} {o : Fields ν} {e : String × Json ν} (h : e ∈ remove k o) :
    e ∈ o := (List.mem_filter.mp h).1

@[simp] theorem elements_eq_some {v : Option (Json ν)} {xs : List (Json ν)} :
    elements v = some xs ↔ v = some (.arr xs) := by
  unfold elements
  split <;> simp_all

@[simp] theorem entries_eq_some {v : Option (Json ν)} {fs : Fields ν} :
    entries v = some fs ↔ v = some (.obj fs) := by
  unfold entries
  split <;> simp_all

theorem depth_find {o : Fields ν} {k : String} {v : Json ν} (h : find k o = some v) :
    depth v < depth (.obj o) := depth_entry (mem_of_find h)

theorem depth_find_elem {o : Fields ν} {k : String} {xs : List (Json ν)} {x : Json ν}
    (h : find k o = some (.arr xs)) (hx : x ∈ xs) : depth x < depth (.obj o) :=
  (depth_elem hx).trans (depth_find h)

theorem depth_find_entry {o : Fields ν} {k l : String} {fs : Fields ν} {v : Json ν}
    (h : find k o = some (.obj fs)) (hv : (l, v) ∈ fs) : depth v < depth (.obj o) :=
  (depth_entry hv).trans (depth_find h)

/-! ## Copying -/

section Copying

variable {f g : Json ν → Option (Json ν)}

theorem convertAll_congr {members : List (Json ν)} (h : ∀ m ∈ members, f m = g m) :
    convertAll f members = convertAll g members := by
  rw [convertAll, convertAll, List.filterMap_congr h]

theorem convertAnyOf_congr {out : Fields ν} {members : List (Json ν)}
    (h : ∀ m ∈ members, f m = g m) : convertAnyOf f out members = convertAnyOf g out members := by
  have hfilter : ∀ m ∈ members.filter fun m => !isNullSchema m, f m = g m :=
    fun m hm => h m (List.mem_of_mem_filter hm)
  unfold convertAnyOf
  rw [convertAll_congr h]
  generalize (members.filter fun m => !isNullSchema m) = rest at hfilter
  split_ifs
  · split
    · rw [hfilter _ (by simp)]
    · rw [convertAll_congr hfilter]
  · rfl

theorem ownKeys_congr {o : Fields ν} (h : ∀ v, depth v < depth (.obj o) → f v = g v) :
    ownKeys f o = ownKeys g o := by
  have hprops : convertProperties f o = convertProperties g o := by
    unfold convertProperties
    cases hp : entries (find "properties" o) with
    | none => rfl
    | some props =>
      rw [entries_eq_some] at hp
      simp only [Option.map_some, mapEntries, Option.some.injEq, Json.obj.injEq]
      apply List.filterMap_congr
      intro e he
      rw [h e.2 (depth_find_entry hp he)]
  have hitems : convertItems f o = convertItems g o := by
    unfold convertItems
    split
    · next items hi => rw [List.filterMap_congr fun x hx => h x (depth_find_elem hi hx)]
    · rfl
    · rfl
    · next items _ _ hi => exact h items (depth_find hi)
  have hall : (elements (find "allOf" o)).map (convertAll f) =
      (elements (find "allOf" o)).map (convertAll g) := by
    apply Option.map_congr
    intro members hm
    rw [elements_eq_some] at hm
    exact convertAll_congr fun m hmem => h m (depth_find_elem hm hmem)
  simp only [ownKeys, hprops, hitems, hall]

theorem openapiNode_congr {o : Fields ν} (h : ∀ v, depth v < depth (.obj o) → f v = g v) :
    openapiNode f o = openapiNode g o := by
  have hone : (elements (find "oneOf" o)).map (convertAll f) =
      (elements (find "oneOf" o)).map (convertAll g) := by
    apply Option.map_congr
    intro members hm
    rw [elements_eq_some] at hm
    exact convertAll_congr fun m hmem => h m (depth_find_elem hm hmem)
  simp only [openapiNode, ownKeys_congr h, hone]
  split
  · next members hm =>
    rw [convertAnyOf_congr fun m hmem => h m (depth_find_elem hm hmem)]
  · rfl

theorem openapiBody_descends (isRoot : Bool) : Descends depth (openapiBody serde isRoot) := by
  intro f g x h
  cases x with
  | obj o => simp only [openapiBody, openapiNode_congr h]
  | _ => rfl

end Copying

theorem nested_eq (node : Json ν) : nested serde node = toOpenapi serde node false :=
  run_eq (openapiBody_descends false) node

/-! ## Repairing -/

section Repairing

variable {f g : Json ν → Json ν}

theorem repairEntry_congr {k : String} {v : Json ν}
    (h : ∀ w, depth w < depth v → f w = g w) (hself : k = "items" → f v = g v) :
    repairEntry f k v = repairEntry g k v := by
  unfold repairEntry
  split_ifs with hp hi hc
  · cases v with
    | obj props =>
      have hmap : (props.map fun e => (e.1, f e.2)) = props.map fun e => (e.1, g e.2) :=
        List.map_congr_left fun e he => by rw [h e.2 (depth_entry he)]
      simp only [hmap]
    | _ => rfl
  · cases v with
    | arr tuple => simp only [List.map_congr_left fun x hx => h x (depth_elem hx)]
    | _ => exact hself hi
  · cases v with
    | arr members => simp only [List.map_congr_left fun x hx => h x (depth_elem hx)]
    | _ => rfl
  · rfl

theorem repairEntry_of_ne {k : String} (hp : k ≠ "properties") (hi : k ≠ "items")
    (hc : k ∉ combinerKeys) (v : Json ν) : repairEntry f k v = v := by
  unfold repairEntry
  rw [if_neg hp, if_neg hi, if_neg hc]

theorem find_repairChildren (k : String) (o : Fields ν) :
    find k (repairChildren f o) = (find k o).map (repairEntry f k) := find_map (repairEntry f) k o

/-- The type of a node once its enum and a missing type have been seen to. -/
def repairedType (o : Fields ν) : Option String :=
  if (elements (find "enum" o)).isSome then some "string"
  else if find "type" o = none ∧ hasCombiner o = false then some "string"
  else typeStr o

theorem find_giveType (k : String) (o : Fields ν) : find k (giveType o) =
    if k = "type" ∧ find "type" o = none ∧ hasCombiner o = false then some (.str "string")
    else find k o := by
  unfold giveType
  split_ifs with h₁ h₂ h₂
  · rw [find_mapInsert, if_pos h₂.1]
  · rw [find_mapInsert, if_neg fun hk => h₂ ⟨hk, h₁⟩]
  · exact absurd h₂.2 h₁
  · rfl

theorem find_fixEnum (k : String) (o : Fields ν) : find k (fixEnum serde o) =
    match elements (find "enum" o) with
    | some members =>
        if k = "type" then some (.str "string")
        else if k = "enum" then some (.arr (members.map (enumMemberToString serde)))
        else find k o
    | none => find k o := by
  cases hm : elements (find "enum" o) with
  | some members =>
    rw [elements_eq_some] at hm
    simp only [fixEnum, hm, find_mapInsert]
  | none =>
    have hsame : fixEnum serde o = o := by
      unfold fixEnum
      split
      · next members hs => exact absurd (elements_eq_some.mpr hs) (by rw [hm]; simp)
      · rfl
    rw [hsame]

theorem typeStr_fixed (serde : Serde ν) (o : Fields ν) :
    typeStr (fixEnum serde (giveType o)) = repairedType o := by
  have henum : find "enum" (giveType o) = find "enum" o := by simp [find_giveType]
  rw [typeStr, find_fixEnum, henum, repairedType]
  cases hm : elements (find "enum" o) with
  | some members => simp [text, asStr]
  | none =>
    simp only [find_giveType, Option.isSome_none, Bool.false_eq_true, if_false, true_and]
    split_ifs <;> rfl

theorem repairedType_eq_array {o : Fields ν} (h : repairedType o = some "array") :
    typeStr o = some "array" := by
  unfold repairedType at h
  split_ifs at h
  · exact absurd h (by decide)
  · exact absurd h (by decide)
  · exact h

theorem find_giveItems (ty : Option String) (k : String) (o : Fields ν) :
    find k (giveItems ty o) =
      if k = "items" ∧ ty = some "array" ∧ ((find "items" o).all fun v => !notNull v) = true then
        some (typed "string")
      else find k o := by
  unfold giveItems
  split_ifs with h₁ h₂ h₂
  · rw [find_mapInsert, if_pos h₂.1]
  · rw [find_mapInsert, if_neg fun hk => h₂ ⟨hk, h₁⟩]
  · exact absurd h₂.2 h₁
  · rfl

theorem find_bareScalar (ty : Option String) (combiner : Bool) (k : String) (o : Fields ν) :
    find k (bareScalar ty combiner o) =
      if (k = "properties" ∨ k = "required") ∧ ty ≠ none ∧ ty ≠ some "object" ∧ combiner = false then
        none
      else find k o := by
  unfold bareScalar
  split_ifs with h₁ h₂ h₂
  · rw [find_remove, find_remove]
    rcases h₂.1 with rfl | rfl <;> simp
  · rw [find_remove, find_remove, if_neg fun hk => h₂ ⟨.inr hk, h₁⟩,
      if_neg fun hk => h₂ ⟨.inl hk, h₁⟩]
  · exact absurd h₂.2 h₁
  · rfl

theorem find_fixFormat (ty : Option String) (k : String) (o : Fields ν) :
    find k (fixFormat ty o) =
      if k = "format" ∧ (text (find "format" o)).any (fun f => !formatAllowed ty f) = true then none
      else find k o := by
  unfold fixFormat
  split
  · next f hf =>
    rw [hf]
    cases hallowed : formatAllowed ty f with
    | true => simp [text, asStr, hallowed]
    | false => simp [text, asStr, hallowed, find_remove]
  · next hf =>
    have hnone : (text (find "format" o)).any (fun f => !formatAllowed ty f) = false := by
      cases hv : find "format" o with
      | none => rfl
      | some v =>
        cases v with
        | str f => exact absurd hv (hf f)
        | _ => rfl
    simp [hnone]

theorem mem_fixNode {o : Fields ν} {e : String × Json ν} (h : e ∈ fixNode serde o) :
    e ∈ o ∨ e.1 = "type" ∨ e.1 = "enum" ∨
      (e = ("items", typed "string") ∧ typeStr o = some "array") := by
  have hformat : ∀ ty (p : Fields ν), e ∈ fixFormat ty p → e ∈ p := by
    intro ty p he
    unfold fixFormat at he
    split at he
    · split_ifs at he
      · exact he
      · exact mem_remove he
    · exact he
  have hbare : ∀ ty c (p : Fields ν), e ∈ bareScalar ty c p → e ∈ p := by
    intro ty c p he
    unfold bareScalar at he
    split_ifs at he
    · exact mem_remove (mem_remove he)
    · exact he
  have hgive := hbare _ _ _ (hformat _ _ h)
  unfold giveItems at hgive
  rw [typeStr_fixed] at hgive
  have hfixed : e ∈ fixEnum serde (giveType o) → e ∈ o ∨ e.1 = "type" ∨ e.1 = "enum" := by
    intro he
    have htype : e ∈ giveType o → e ∈ o ∨ e.1 = "type" := by
      intro he
      unfold giveType at he
      split_ifs at he
      · rcases mem_mapInsert he with rfl | he
        · exact .inr rfl
        · exact .inl he
      · exact .inl he
    unfold fixEnum at he
    split at he
    · rcases mem_mapInsert he with rfl | he
      · exact .inr (.inl rfl)
      · rcases mem_mapInsert he with rfl | he
        · exact .inr (.inr rfl)
        · rcases htype he with he | he
          · exact .inl he
          · exact .inr (.inl he)
    · rcases htype he with he | he
      · exact .inl he
      · exact .inr (.inl he)
  split_ifs at hgive with harr
  · rcases mem_mapInsert hgive with rfl | he
    · exact .inr (.inr (.inr ⟨rfl, repairedType_eq_array harr.1⟩))
    · rcases hfixed he with he | he | he
      · exact .inl he
      · exact .inr (.inl he)
      · exact .inr (.inr (.inl he))
  · rcases hfixed hgive with he | he | he
    · exact .inl he
    · exact .inr (.inl he)
    · exact .inr (.inr (.inl he))

theorem repairMeasure_lt {o : Fields ν} {w : Json ν} (h : depth w < depth (.obj o)) :
    repairMeasure w < repairMeasure (.obj o) := by
  have hw : repairMeasure w ≤ 2 * depth w + 1 := by
    cases w with
    | obj p =>
      rw [repairMeasure]
      split_ifs <;> omega
    | _ => exact Nat.le_succ _
  have ho : 2 * depth (.obj o) ≤ repairMeasure (.obj o) := by
    rw [repairMeasure]
    omega
  omega

theorem repairBody_descends : Descends repairMeasure (repairBody serde) := by
  intro f g x h
  cases x with
  | obj o =>
    have hbelow : ∀ w, depth w < depth (.obj o) → f w = g w := fun w hw => h w (repairMeasure_lt hw)
    have hchildren : repairChildren f (fixNode serde o) = repairChildren g (fixNode serde o) := by
      apply List.map_congr_left
      intro e he
      rcases mem_fixNode he with he | he | he | ⟨rfl, harr⟩
      · have hlt : depth e.2 < depth (.obj o) := depth_entry he
        rw [repairEntry_congr (fun w hw => hbelow w (hw.trans hlt)) fun _ => hbelow _ hlt]
      · rw [he, repairEntry_of_ne (by decide) (by decide) (by decide),
          repairEntry_of_ne (by decide) (by decide) (by decide)]
      · rw [he, repairEntry_of_ne (by decide) (by decide) (by decide),
          repairEntry_of_ne (by decide) (by decide) (by decide)]
      · have hself : f (typed "string") = g (typed "string") := by
          apply h
          have hplain : repairMeasure (typed "string" : Json ν) = 2 := rfl
          rw [hplain, repairMeasure, if_pos harr, depth]
          omega
        exact congrArg (Prod.mk "items") hself
    simp only [repairBody, hchildren]
  | _ => rfl

theorem repair_eq (node : Json ν) : repair serde node = repairBody serde (repair serde) node :=
  run_eq repairBody_descends node

end Repairing

end FerrisScope.GeminiSchema
