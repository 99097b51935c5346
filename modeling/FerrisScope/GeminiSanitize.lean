import Mathlib.Data.List.Basic
import FerrisScope.GeminiPasses

/-!
# Inlining and sanitizing call themselves

Inlining ends because the stack of references is bounded. Sanitizing calls itself on the members
it makes for a list of types, which are no part of the node; they hold sanitized values alone,
where no list of types is left, so that one more round is enough and `sanitize` satisfies the
equation of the source.
-/

namespace FerrisScope.GeminiSchema
open Json OpenRecursion

variable {ν : Type} {serde : Serde ν}

/-! ## References -/

theorem derefMeasure_below {defs : Fields ν} {stack : List String} {v node : Json ν}
    (h : depth v < depth node) : derefMeasure defs (stack, v) < derefMeasure defs (stack, node) := by
  simp only [derefMeasure]
  omega

theorem derefMeasure_definition {defs : Fields ν} {stack : List String} {target : String}
    {definition node : Json ν} (hd : find target defs = some definition)
    (h : ¬ (maxRefDepth ≤ stack.length ∨ target ∈ stack)) :
    derefMeasure defs (stack ++ [target], definition) < derefMeasure defs (stack, node) := by
  have hdepth : depth definition < depth (.obj defs) := depth_entry (mem_of_find hd)
  obtain ⟨room, hroom⟩ : ∃ room, maxRefDepth - stack.length = room + 1 := by
    rw [not_or] at h
    exact ⟨maxRefDepth - stack.length - 1, by omega⟩
  have hnext : maxRefDepth - (stack ++ [target]).length = room := by
    rw [List.length_append, List.length_singleton]
    omega
  simp only [derefMeasure, hroom, hnext, Nat.succ_mul]
  omega

theorem inlineRef_congr {defs : Fields ν} {f g : List String × Json ν → Json ν}
    {stack : List String} {node : Fields ν}
    (h : ∀ y, derefMeasure defs y < derefMeasure defs (stack, .obj node) → f y = g y)
    (target : String) : inlineRef defs f stack node target = inlineRef defs g stack node target := by
  have hsiblings : ∀ r, (node.foldl (fun r e =>
      if e.1 = "$ref" then r else mapInsert e.1 (f (stack, e.2)) r) r) =
      node.foldl (fun r e => if e.1 = "$ref" then r else mapInsert e.1 (g (stack, e.2)) r) r := by
    intro r
    apply List.foldl_ext
    intro r e he
    rw [h (stack, e.2) (derefMeasure_below (depth_entry he))]
  unfold inlineRef
  split
  · rfl
  · next definition hd =>
    split_ifs with hdeep
    · rfl
    · have hjump : f (stack ++ [target], definition) = g (stack ++ [target], definition) :=
        h _ (derefMeasure_definition hd hdeep)
      rw [hjump]
      split
      · rw [hsiblings]
      · rfl

theorem derefBody_descends (defs : Fields ν) : Descends (derefMeasure defs) (derefBody defs) := by
  intro f g x h
  obtain ⟨stack, node⟩ := x
  have hbelow : ∀ v, depth v < depth node → f (stack, v) = g (stack, v) := by
    intro v hv
    exact h _ (derefMeasure_below hv)
  cases node with
  | arr items =>
    simp only [derefBody, List.map_congr_left fun v hv => hbelow v (depth_elem hv)]
  | obj o =>
    have hmap : (o.map fun e => (e.1, f (stack, e.2))) = o.map fun e => (e.1, g (stack, e.2)) :=
      List.map_congr_left fun e he => by rw [hbelow e.2 (depth_entry he)]
    simp only [derefBody, hmap]
    split
    · exact inlineRef_congr h _
    · rfl
  | _ => rfl

theorem deref_eq (defs : Fields ν) (p : List String × Json ν) :
    deref defs p = derefBody defs (deref defs) p := run_eq (derefBody_descends defs) p

/-! ## Lists of types -/

/-- The subschemas under one key. -/
def entrySchemas (key : String) (v : Json ν) : List (Json ν) :=
  if key ∈ schemaKeys then [v]
  else if key ∈ schemaListKeys then (elements (some v)).getD []
  else if key ∈ schemaMapKeys then ((entries (some v)).getD []).map Prod.snd
  else []

def subschemas : Json ν → List (Json ν)
  | .arr items => items
  | .obj o => o.flatMap fun e => entrySchemas e.1 e.2
  | _ => []

/-- No schema in it gives a list of types. -/
inductive SingleTyped : Json ν → Prop
  | mk {node : Json ν} (type : ∀ o ts, node = .obj o → find "type" o ≠ some (.arr ts))
      (below : ∀ c ∈ subschemas node, SingleTyped c) : SingleTyped node

theorem depth_subschema {node c : Json ν} (h : c ∈ subschemas node) : depth c < depth node := by
  cases node with
  | arr items => exact depth_elem h
  | obj o =>
    obtain ⟨⟨k, v⟩, he, hc⟩ := List.mem_flatMap.mp h
    apply lt_of_le_of_lt _ (depth_entry he)
    simp only [entrySchemas] at hc
    split_ifs at hc
    · rw [List.mem_singleton.mp hc]
    · cases v with
      | arr xs => exact (depth_elem hc).le
      | _ => cases hc
    · cases v with
      | obj fs =>
        obtain ⟨⟨k', v'⟩, he', rfl⟩ := List.mem_map.mp hc
        exact (depth_entry he').le
      | _ => cases hc
    · cases hc
  | _ => cases h

theorem sanitizeEntry_congr {f g : Json ν → Json ν} {k : String} {v : Json ν}
    (h : ∀ c ∈ entrySchemas k v, f c = g c) : sanitizeEntry f k v = sanitizeEntry g k v := by
  unfold entrySchemas at h
  unfold sanitizeEntry
  split_ifs at h ⊢
  · exact h v (List.mem_singleton_self v)
  · cases v with
    | arr xs => exact congrArg Json.arr (List.map_congr_left h)
    | _ => rfl
  · cases v with
    | obj m =>
      have hmap : (m.map fun e => (e.1, f e.2)) = m.map fun e => (e.1, g e.2) :=
        List.map_congr_left fun e he => by rw [h e.2 (List.mem_map_of_mem he)]
      simp only [hmap]
    | _ => rfl
  · rfl

theorem entrySchemas_sanitizeEntry (f : Json ν → Json ν) (k : String) (v : Json ν) :
    entrySchemas k (sanitizeEntry f k v) = (entrySchemas k v).map f := by
  unfold entrySchemas sanitizeEntry
  split_ifs
  · rfl
  · cases v <;> rfl
  · cases v with
    | obj m => simp [entries]
    | _ => rfl
  · rfl

/-- The fields of a node after its subschemas are sanitized. -/
def sanitizeEntries (f : Json ν → Json ν) (o : Fields ν) : Fields ν :=
  o.map fun e => (e.1, sanitizeEntry f e.1 e.2)

theorem find_sanitizeEntries (f : Json ν → Json ν) (k : String) (o : Fields ν) :
    find k (sanitizeEntries f o) = (find k o).map (sanitizeEntry f k) := find_map (sanitizeEntry f) k o

theorem sanitizeEntry_of_notMem {f : Json ν → Json ν} {k : String}
    (h : k ∉ schemaKeys ++ schemaListKeys ++ schemaMapKeys) (v : Json ν) :
    sanitizeEntry f k v = v := by
  simp only [List.mem_append, not_or] at h
  unfold sanitizeEntry
  rw [if_neg h.1.1, if_neg h.1.2, if_neg h.2]

theorem sanitizeBody_descends (again : Json ν → Json ν) :
    Descends depth (sanitizeBody serde again) := by
  intro f g x h
  have hsub : ∀ c ∈ subschemas x, f c = g c := fun c hc => h c (depth_subschema hc)
  cases x with
  | arr items => exact congrArg Json.arr (List.map_congr_left hsub)
  | obj o =>
    have hmap : (o.map fun e => (e.1, sanitizeEntry f e.1 e.2)) =
        o.map fun e => (e.1, sanitizeEntry g e.1 e.2) := by
      apply List.map_congr_left
      intro e he
      rw [sanitizeEntry_congr fun c hc => hsub c (List.mem_flatMap.mpr ⟨e, he, hc⟩)]
    simp only [sanitizeBody, hmap]
  | _ => rfl

theorem sanitizeOnce_eq (again : Json ν → Json ν) (node : Json ν) : sanitizeOnce serde again node =
    sanitizeBody serde again (sanitizeOnce serde again) node := run_eq (sanitizeBody_descends again) node

theorem find_stringEnum_type (serde : Serde ν) (o : Fields ν) :
    find "type" (stringEnum serde o) = find "type" o ∨
      find "type" (stringEnum serde o) = some (.str "string") := by
  unfold stringEnum
  simp only
  split_ifs
  · exact .inr (find_mapInsert_self ..)
  · left
    split
    · rw [find_mapInsert, if_neg (by decide)]
    · split
      · rw [find_mapInsert, if_neg (by decide), find_remove, if_neg (by decide)]
      · rfl

/-- Without a list of types no member is made, and nothing is sanitized again. -/
theorem splitTypes_of_single {again : Json ν → Json ν} {o : Fields ν}
    (h : ∀ ts, find "type" o ≠ some (.arr ts)) :
    splitTypes again (stringEnum serde o) = stringEnum serde o := by
  unfold splitTypes
  split
  · next ts hts =>
    rcases find_stringEnum_type serde o with heq | heq
    · exact absurd (heq ▸ hts) (h ts)
    · rw [heq] at hts
      cases hts
  · rfl

theorem sanitizeOnce_of_single {node : Json ν} (h : SingleTyped node) (again again' : Json ν → Json ν) :
    sanitizeOnce serde again node = sanitizeOnce serde again' node := by
  induction h with
  | @mk node type below ih =>
    rw [sanitizeOnce_eq, sanitizeOnce_eq]
    cases node with
    | arr items => exact congrArg Json.arr (List.map_congr_left ih)
    | obj o =>
      have hmap : sanitizeEntries (sanitizeOnce serde again) o =
          sanitizeEntries (sanitizeOnce serde again') o := by
        apply List.map_congr_left
        intro e he
        rw [sanitizeEntry_congr fun c hc => ih c (List.mem_flatMap.mpr ⟨e, he, hc⟩)]
      have htype : ∀ f : Json ν → Json ν, ∀ ts,
          find "type" (sanitizeEntries f o) ≠ some (.arr ts) := by
        intro f ts hts
        rw [find_sanitizeEntries] at hts
        obtain ⟨t, ht, hts⟩ := Option.map_eq_some_iff.mp hts
        rw [sanitizeEntry_of_notMem (by decide)] at hts
        exact type o ts rfl (hts ▸ ht)
      have hnode : ∀ a f : Json ν → Json ν, sanitizeBody serde a f (.obj o) =
          .obj (sanitizeNode serde a (sanitizeEntries f o)) := fun _ _ => rfl
      rw [hnode, hnode, hmap]
      simp only [sanitizeNode, splitTypes_of_single (htype _)]
    | _ => simp only [sanitizeBody]

/-- The subschemas among the fields of a node are single typed. -/
def Settled (o : Fields ν) : Prop := ∀ e ∈ o, ∀ c ∈ entrySchemas e.1 e.2, SingleTyped c

theorem Settled.mapInsert {o : Fields ν} (h : Settled o) {k : String} {v : Json ν}
    (hv : ∀ c ∈ entrySchemas k v, SingleTyped c) : Settled (mapInsert k v o) := by
  intro e he
  rcases mem_mapInsert he with rfl | he
  · exact hv
  · exact h e he

theorem Settled.mapInsert_data {o : Fields ν} (h : Settled o) {k : String}
    (hk : k ∉ schemaKeys ++ schemaListKeys ++ schemaMapKeys) (v : Json ν) :
    Settled (Json.mapInsert k v o) := by
  apply h.mapInsert
  simp only [List.mem_append, not_or] at hk
  rw [entrySchemas, if_neg hk.1.1, if_neg hk.1.2, if_neg hk.2]
  simp

theorem Settled.remove {o : Fields ν} (h : Settled o) (k : String) :
    Settled (GeminiSchema.remove k o) := fun e he => h e (mem_remove he)

theorem Settled.obj {o : Fields ν} (h : Settled o) (ht : ∀ ts, find "type" o ≠ some (.arr ts)) :
    SingleTyped (.obj o) := by
  constructor
  · rintro o ts ⟨⟩
    exact ht ts
  · intro c hc
    obtain ⟨e, he, hc⟩ := List.mem_flatMap.mp hc
    exact h e he c hc

theorem Settled.stringEnum (serde : Serde ν) {o : Fields ν} (h : Settled o) : Settled (stringEnum serde o) := by
  have hset : ∀ {p : Fields ν}, Settled p → ∀ v, Settled (Json.mapInsert "enum" v p) :=
    fun hp v => hp.mapInsert_data (by decide) v
  have hlast : ∀ p : Fields ν, Settled p → Settled (if (elements (find "enum" p)).isSome ∧
      typeStr p ∈ [some "integer", some "number", some "boolean"] then
        Json.mapInsert "type" (.str "string") p else p) := by
    intro p hp
    split_ifs
    · exact hp.mapInsert_data (by decide) _
    · exact hp
  unfold GeminiSchema.stringEnum
  refine hlast _ ?_
  split
  · exact hset h _
  · split
    · exact hset (h.remove _) _
    · exact h

theorem find_foldl_putSome (result : Fields ν) (ks : List String) (m : Fields ν) {k : String}
    (hk : k ∉ ks) : find k (ks.foldl (fun m k => putSome k (find k result) m) m) = find k m := by
  induction ks generalizing m with
  | nil => rfl
  | cons l ks ih =>
    rw [List.mem_cons, not_or] at hk
    rw [List.foldl_cons, ih _ hk.2, find_putSome, if_neg hk.1]

theorem Settled.typeMember {o : Fields ν} (h : Settled o) (t : String) :
    SingleTyped (typeMember o t) := by
  have hmember : ∀ (ks : List String) (m : Fields ν), Settled m →
      Settled (ks.foldl (fun m k => putSome k (find k o) m) m) := by
    intro ks
    induction ks with
    | nil => exact fun m hm => hm
    | cons k ks ih =>
      intro m hm
      apply ih
      show Settled (putSome k (find k o) m)
      cases hf : find k o with
      | none => exact hm
      | some v => exact hm.mapInsert (h (k, v) (mem_of_find hf))
  have hkeys : "type" ∉ movedKeys o t := by
    intro hmem
    have hmem := List.mem_of_mem_filter hmem
    unfold typeKeywords at hmem
    split_ifs at hmem <;> simp at hmem
  apply (hmember _ _ _).obj
  · intro ts hts
    rw [find_foldl_putSome _ _ _ hkeys] at hts
    cases hts
  · intro e he c hc
    rw [List.mem_singleton.mp he] at hc
    cases hc

theorem Settled.foldl_remove {o : Fields ν} (h : Settled o) (ks : List String) :
    Settled (ks.foldl (fun r k => GeminiSchema.remove k r) o) := by
  induction ks generalizing o with
  | nil => exact h
  | cons k ks ih => exact ih (h.remove k)

theorem Settled.setNullable {o : Fields ν} (h : Settled o) (hasNull : Bool) :
    Settled (setNullable hasNull o) := by
  unfold GeminiSchema.setNullable
  split_ifs
  · exact h.mapInsert_data (by decide) _
  · exact h

theorem Settled.splitTypes {again : Json ν → Json ν}
    (hagain : ∀ m, SingleTyped m → SingleTyped (again m)) {o : Fields ν} (h : Settled o) :
    Settled (splitTypes again o) := by
  unfold GeminiSchema.splitTypes
  split
  · next types _ =>
    simp only
    split_ifs
    · exact h.mapInsert_data (by decide) _
    · exact (h.remove _).setNullable _
    · apply Settled.setNullable
      apply ((h.remove _).foldl_remove _).mapInsert
      intro c hc
      obtain ⟨t, -, rfl⟩ := List.mem_map.mp (show c ∈ List.map _ _ from hc)
      exact hagain _ ((h.remove _).typeMember t)
  · exact h

theorem find_foldl_remove (ks : List String) {o : Fields ν} {k : String} (h : find k o = none) :
    find k (ks.foldl (fun r k => remove k r) o) = none := by
  induction ks generalizing o with
  | nil => exact h
  | cons l ks ih =>
    apply ih
    rw [find_remove, h, ite_self]

theorem find_setNullable {k : String} (hk : k ≠ "nullable") (hasNull : Bool) (o : Fields ν) :
    find k (setNullable hasNull o) = find k o := by
  unfold setNullable
  split_ifs
  · rw [find_mapInsert, if_neg hk]
  · rfl

theorem splitTypes_type (again : Json ν → Json ν) (o : Fields ν) (ts : List (Json ν)) :
    find "type" (splitTypes again o) ≠ some (.arr ts) := by
  unfold splitTypes
  split
  · simp only
    split_ifs
    · rw [find_mapInsert_self]
      simp
    · rw [find_setNullable (by decide), find_remove, if_pos rfl]
      simp
    · rw [find_setNullable (by decide), find_mapInsert, if_neg (by decide),
        find_foldl_remove _ (by rw [find_remove, if_pos rfl])]
      simp
  · next h => exact fun hts => h ts hts

theorem Settled.declaredRequired {o : Fields ν} (h : Settled o) : Settled (declaredRequired o) := by
  unfold GeminiSchema.declaredRequired
  split
  · exact h.mapInsert_data (by decide) _
  · exact h

theorem singleTyped_setType {o : Fields ν} (h : SingleTyped (.obj o)) (t : String) :
    SingleTyped (.obj (mapInsert "type" (.str t) o)) := by
  obtain ⟨-, below⟩ := h
  have hsettled : Settled o := fun e he c hc => below c (List.mem_flatMap.mpr ⟨e, he, hc⟩)
  apply (hsettled.mapInsert_data (by decide) _).obj
  intro ts
  rw [find_mapInsert_self]
  simp

theorem Settled.arrayItems {o : Fields ν} (h : Settled o) : Settled (arrayItems o) := by
  have hempty : SingleTyped (.obj [] : Json ν) := by
    apply Settled.obj
    · intro e he
      cases he
    · simp
  have hdescribed : ∀ items : Json ν, SingleTyped items → SingleTyped (describedItems items) := by
    intro items hi
    cases items with
    | obj p =>
      unfold describedItems
      simp only
      split_ifs
      · exact hi
      · exact singleTyped_setType hi _
    | _ => exact hi
  unfold GeminiSchema.arrayItems
  apply (h.remove _).mapInsert
  intro c hc
  rw [entrySchemas, if_pos (by decide), List.mem_singleton] at hc
  rw [hc]
  apply hdescribed
  split
  · exact hempty
  · exact hempty
  · next other _ hother =>
    exact h ("items", other) (mem_of_find hother) other (by simp [entrySchemas, schemaKeys])

theorem Settled.settleKeys {o : Fields ν} (h : Settled o) (ty : Option String) (combiner : Bool) :
    Settled (settleKeys ty combiner o) := by
  have hrequired : Settled (if ty = some "object" then GeminiSchema.declaredRequired o else o) := by
    split_ifs
    · exact h.declaredRequired
    · exact h
  unfold GeminiSchema.settleKeys bareScalar
  simp only
  generalize (if ty = some "object" then GeminiSchema.declaredRequired o else o) = p at hrequired
  split_ifs
  · exact (hrequired.arrayItems.remove _).remove _
  · exact (hrequired.remove _).remove _
  · exact hrequired.arrayItems
  · exact hrequired

theorem find_settleKeys_type (ty : Option String) (combiner : Bool) (o : Fields ν) :
    find "type" (settleKeys ty combiner o) = find "type" o := by
  have hrequired : find "type" (if ty = some "object" then declaredRequired o else o) =
      find "type" o := by
    split_ifs
    · unfold declaredRequired
      split
      · rw [find_mapInsert, if_neg (by decide)]
      · rfl
    · rfl
  have hitems : ∀ p : Fields ν, find "type" (arrayItems p) = find "type" p := by
    intro p
    unfold arrayItems
    rw [find_mapInsert, if_neg (by decide), find_remove, if_neg (by decide)]
  unfold settleKeys
  simp only [find_bareScalar]
  rw [if_neg (by simp)]
  generalize (if ty = some "object" then declaredRequired o else o) = p at hrequired ⊢
  split_ifs
  · rw [hitems, hrequired]
  · exact hrequired

theorem singleTyped_sanitizeNode {again : Json ν → Json ν}
    (hagain : ∀ m, SingleTyped m → SingleTyped (again m)) {o : Fields ν} (h : Settled o) :
    SingleTyped (.obj (sanitizeNode serde again o)) := by
  have hsplit := (h.stringEnum serde).splitTypes hagain
  have htype := splitTypes_type again (stringEnum serde o)
  have hgiven : Settled (giveInferred serde (splitTypes again (stringEnum serde o))) := by
    unfold giveInferred
    split_ifs
    · exact hsplit.mapInsert_data (by decide) _
    · exact hsplit
  apply (hgiven.settleKeys _ _).obj
  intro ts
  rw [find_settleKeys_type]
  unfold giveInferred
  split_ifs
  · rw [find_mapInsert_self]
    simp
  · exact htype ts

theorem settled_sanitizeEntries {f : Json ν → Json ν} {o : Fields ν}
    (h : ∀ c ∈ subschemas (.obj o), SingleTyped (f c)) : Settled (sanitizeEntries f o) := by
  intro e he c hc
  obtain ⟨e', he', rfl⟩ := List.mem_map.mp he
  rw [entrySchemas_sanitizeEntry] at hc
  obtain ⟨c', hc', rfl⟩ := List.mem_map.mp hc
  exact h c' (List.mem_flatMap.mpr ⟨e', he', hc'⟩)

theorem singleTyped_sanitizeOnce {again : Json ν → Json ν}
    (hagain : ∀ m, SingleTyped m → SingleTyped (again m)) (node : Json ν) :
    SingleTyped (sanitizeOnce serde again node) := by
  induction hn : depth node using Nat.strongRecOn generalizing node with
  | _ n ih =>
    have hsub : ∀ c ∈ subschemas node, SingleTyped (sanitizeOnce serde again c) :=
      fun c hc => ih _ (hn ▸ depth_subschema hc) c rfl
    rw [sanitizeOnce_eq]
    cases node with
    | arr items =>
      constructor
      · rintro o ts ⟨⟩
      · intro c hc
        obtain ⟨c', hc', rfl⟩ := List.mem_map.mp (show c ∈ items.map _ from hc)
        exact hsub c' hc'
    | obj o => exact singleTyped_sanitizeNode hagain (settled_sanitizeEntries hsub)
    | _ =>
      simp only [sanitizeBody]
      constructor
      · rintro o ts ⟨⟩
      · rintro c ⟨⟩

theorem singleTyped_sanitize (node : Json ν) : SingleTyped (sanitize serde node) :=
  singleTyped_sanitizeOnce (fun m _ => singleTyped_sanitizeOnce (fun _ h => h) m) node

/-- The recursion of the source: the members made for a list of types are sanitized like any
other schema. -/
theorem sanitize_eq (node : Json ν) :
    sanitize serde node = sanitizeBody serde (sanitize serde) (sanitize serde) node := by
  have honce : sanitize serde node =
      sanitizeBody serde (sanitizeOnce serde id) (sanitize serde) node := sanitizeOnce_eq _ node
  rw [honce]
  cases node with
  | obj o =>
    have hmember : ∀ t, sanitizeOnce serde id (typeMember
        (remove "type" (stringEnum serde (sanitizeEntries (sanitize serde) o))) t) =
        sanitize serde (typeMember
          (remove "type" (stringEnum serde (sanitizeEntries (sanitize serde) o))) t) := by
      intro t
      apply sanitizeOnce_of_single
      apply Settled.typeMember
      apply Settled.remove
      apply Settled.stringEnum
      exact settled_sanitizeEntries fun c _ => singleTyped_sanitize c
    have hsplit : splitTypes (sanitizeOnce serde id)
        (stringEnum serde (sanitizeEntries (sanitize serde) o)) =
        splitTypes (sanitize serde) (stringEnum serde (sanitizeEntries (sanitize serde) o)) := by
      simp only [splitTypes, hmember]
    have hnode : ∀ again : Json ν → Json ν, sanitizeBody serde again (sanitize serde) (.obj o) =
        .obj (sanitizeNode serde again (sanitizeEntries (sanitize serde) o)) := fun _ => rfl
    rw [hnode, hnode, sanitizeNode, sanitizeNode, hsplit]
  | _ => simp only [sanitizeBody]

end FerrisScope.GeminiSchema
