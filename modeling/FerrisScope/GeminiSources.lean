import FerrisScope.GeminiDialect

/-!
# Where the keywords of a declaration come from

A node whose `anyOf` offers one schema besides `null` is merged with that schema, which may be
merged in turn: the node is a pile of layers, and a keyword is the one of the last layer that
writes it. What is read off the layers of a sanitized schema says exactly which nodes of the
declaration come out in order.
-/

namespace FerrisScope.GeminiSchema
open Json OpenRecursion

variable {ν : Type}

/-- The only schema an `anyOf` offers besides `null`. -/
def mergedMember (o : Fields ν) : Option (Json ν) :=
  (elements (find "anyOf" o)).bind fun members =>
    if members.any isNullSchema then
      match members.filter fun m => !isNullSchema m with
      | [only] => some only
      | _ => none
    else none

def layersBody (serde : Serde ν) (layers : Json ν → List (Fields ν)) : Json ν → List (Fields ν)
  | .bool true => [[("type", .str "string")]]
  | .obj o =>
      if isEmptyObject serde o then [[("type", .str "object")]]
      else o :: ((mergedMember o).map layers).getD []
  | _ => []

/-- The objects whose keywords make up one node of the declaration, none for a schema that is
left out. -/
def layers (serde : Serde ν) : Json ν → List (Fields ν) :=
  run depth (layersBody serde) fun _ => []

/-- The keyword of the last layer that writes it. -/
def last {γ : Type} (read : Fields ν → Option γ) (ls : List (Fields ν)) : Option γ :=
  ls.foldr (fun l r => r.or (read l)) none

def writtenEnum (o : Fields ν) : Option (Json ν) :=
  (find "enum" o).or ((find "const" o).map fun c => .arr [c])

def writtenRequired (o : Fields ν) : Option (Json ν) := (find "required" o).filter notNull

def writtenProperties (o : Fields ν) : Option (Fields ν) := entries (find "properties" o)

def writtenItems (o : Fields ν) : Option (List (Json ν)) :=
  match find "items" o with
  | some (.arr tuple) => some tuple
  | some (.bool true) => some [.bool true]
  | some (.obj items) => some [.obj items]
  | _ => none

def writtenAllOf (o : Fields ν) : Option (List (Json ν)) := elements (find "allOf" o)

/-- The members of an `anyOf` that is kept as such. -/
def writtenAnyOf (o : Fields ν) : Option (List (Json ν)) :=
  (elements (find "anyOf" o)).bind fun members =>
    if members.any isNullSchema then
      match members.filter fun m => !isNullSchema m with
      | [_] => none
      | nonNull => some nonNull
    else some members

def writtenOneOf (o : Fields ν) : Option (List (Json ν)) := elements (find "oneOf" o)

section Reading

variable (ls : List (Fields ν))

/-- The member lists of a node; of several `oneOf` the first counts. -/
def combined : List (List (Json ν)) :=
  (last writtenAnyOf ls).toList ++ (ls.findSome? writtenOneOf).toList ++ (last writtenAllOf ls).toList

/-- The type of the node: an enum makes it a string, as does the lack of any type. -/
def settledType : Option String :=
  if ((last writtenEnum ls).any isArray) = true then some "string"
  else if last typeStr ls = none ∧ combined ls = [] then some "string"
  else last typeStr ls

def mayHaveProperties : Bool := !(combined ls).isEmpty || decide (settledType ls = some "object")

/-- The schemas that the node's children are made of. -/
def childSources : List (Json ν) :=
  (if mayHaveProperties ls then ((last writtenProperties ls).getD []).map Prod.snd else []) ++
    (last writtenItems ls).getD [] ++ (combined ls).flatten

/-- The keywords that no pass sets right are in order. -/
structure WellWritten : Prop where
  type : (∃ t ∈ geminiTypes, settledType ls = some t) ∨ combined ls ≠ []
  enum : ∀ e, last writtenEnum ls = some e → isArray e = true
  required : mayHaveProperties ls = true → ∀ r, last writtenRequired ls = some r → isArray r = true

end Reading

/-- The schemas that a declaration is made of. -/
def Feeds (serde : Serde ν) : Json ν → Json ν → Prop :=
  Relation.ReflTransGen fun schema child => child ∈ childSources (layers serde schema)

variable {serde : Serde ν}

/-! ## Layers -/

theorem mergedMember_eq_some {o : Fields ν} {m : Json ν} (h : mergedMember o = some m) :
    depth m < depth (.obj o) := by
  unfold mergedMember at h
  obtain ⟨members, hm, h⟩ := Option.bind_eq_some_iff.mp h
  split_ifs at h
  rw [elements_eq_some] at hm
  split at h
  · next only honly =>
    cases h
    have hmem : m ∈ members.filter fun m => !isNullSchema m := by
      rw [honly]
      exact List.mem_singleton_self m
    exact depth_find_elem hm (List.mem_of_mem_filter hmem)
  · cases h

theorem layersBody_descends : Descends depth (layersBody serde) := by
  intro f g x h
  cases x with
  | obj o =>
    have hmap : (mergedMember o).map f = (mergedMember o).map g :=
      Option.map_congr fun m hm => h m (mergedMember_eq_some hm)
    simp only [layersBody, hmap]
  | bool b => cases b <;> rfl
  | _ => rfl

theorem layers_eq (schema : Json ν) :
    layers serde schema = layersBody serde (layers serde) schema := run_eq layersBody_descends schema

section Last

variable {γ δ : Type} {read : Fields ν → Option γ}

@[simp] theorem last_nil : last read [] = none := rfl

@[simp] theorem last_cons (l : Fields ν) (ls : List (Fields ν)) :
    last read (l :: ls) = (last read ls).or (read l) := rfl

theorem last_map (f : γ → δ) (ls : List (Fields ν)) :
    last (fun l => (read l).map f) ls = (last read ls).map f := by
  induction ls with
  | nil => rfl
  | cons l ls ih => rw [last_cons, last_cons, ih, Option.map_or]

theorem last_rel {P : γ → δ → Prop} {read' : Fields ν → Option δ}
    (h : ∀ l, Option.Rel P (read l) (read' l)) (ls : List (Fields ν)) :
    Option.Rel P (last read ls) (last read' ls) := by
  induction ls with
  | nil => exact .none
  | cons l ls ih =>
    rw [last_cons, last_cons]
    generalize last read ls = a at ih
    generalize last read' ls = b at ih
    cases ih with
    | none => exact h l
    | some hp => exact .some hp

end Last

/-! ## The keys of a node -/

section Keys

variable {f : Json ν → Option (Json ν)}

theorem find_ownKeys_type (o : Fields ν) : find "type" (ownKeys f o) = (typeStr o).map .str := by
  simp [ownKeys, find_putSome]

theorem find_ownKeys_enum (o : Fields ν) : find "enum" (ownKeys f o) = writtenEnum o := by
  simp [ownKeys, find_putSome, writtenEnum]

theorem find_ownKeys_required (o : Fields ν) :
    find "required" (ownKeys f o) = writtenRequired o := by
  simp [ownKeys, find_putSome, writtenRequired]

theorem find_ownKeys_properties (o : Fields ν) : find "properties" (ownKeys f o) =
    (writtenProperties o).map fun props => .obj (mapEntries (fun _ v => f v) props) := by
  simp [ownKeys, find_putSome, convertProperties, writtenProperties]

theorem find_ownKeys_items (o : Fields ν) : find "items" (ownKeys f o) = convertItems f o := by
  simp [ownKeys, find_putSome]

theorem find_ownKeys_allOf (o : Fields ν) :
    find "allOf" (ownKeys f o) = (writtenAllOf o).map (convertAll f) := by
  simp [ownKeys, find_putSome, writtenAllOf]

theorem find_ownKeys_format (o : Fields ν) : find "format" (ownKeys f o) =
    ((text (find "format" o)).filter (formatAllowed (typeStr o))).map .str := by
  simp [ownKeys, find_putSome]

theorem find_ownKeys_anyOf (o : Fields ν) : find "anyOf" (ownKeys f o) = none := by
  simp [ownKeys, find_putSome]

theorem find_ownKeys_oneOf (o : Fields ν) : find "oneOf" (ownKeys f o) = none := by
  simp [ownKeys, find_putSome]

theorem find_extend (k : String) (out converted : Fields ν) :
    find k (extend out converted) = (find k converted).or (find k out) := by
  induction converted with
  | nil => rfl
  | cons e converted ih =>
    obtain ⟨k', v⟩ := e
    rw [extend, List.foldr_cons, find_mapInsert, find_cons]
    by_cases hk : k = k'
    · subst hk
      simp
    · rw [if_neg hk, if_neg (Ne.symm hk)]
      exact ih

/-- What a node writes under a key on its own account. -/
def written (f : Json ν → Option (Json ν)) (k : String) (o : Fields ν) : Option (Json ν) :=
  if k = "anyOf" then (writtenAnyOf o).map (convertAll f) else find k (ownKeys f o)

/-- What a node is merged with writes under a key. -/
def mergedKey (f : Json ν → Option (Json ν)) (k : String) (o : Fields ν) : Option (Json ν) :=
  (mergedMember o).bind fun m => (entries (f m)).bind (find k)

def ownedKeys : List String :=
  ["type", "enum", "required", "properties", "items", "allOf", "format", "anyOf"]

theorem find_convertAnyOf {k : String} (hk : k ≠ "nullable") {o : Fields ν} {members : List (Json ν)}
    (hm : find "anyOf" o = some (.arr members)) (out : Fields ν) :
    find k (convertAnyOf f out members) = (mergedKey f k o).or
      ((if k = "anyOf" then (writtenAnyOf o).map (convertAll f) else none).or (find k out)) := by
  have helems : elements (find "anyOf" o) = some members := elements_eq_some.mpr hm
  unfold convertAnyOf mergedKey mergedMember writtenAnyOf
  rw [helems]
  simp only [Option.bind_some]
  cases hnull : members.any isNullSchema with
  | false => by_cases ha : k = "anyOf" <;> simp [find_mapInsert, ha]
  | true =>
    simp only [not_true, if_false, if_true]
    generalize (members.filter fun m => !isNullSchema m) = rest
    split
    · next only =>
      simp only [Option.bind_some]
      cases hf : f only with
      | none => simp [entries]
      | some w => cases w <;> simp [entries, find_extend, find_mapInsert, hk]
    · next hrest =>
      by_cases ha : k = "anyOf" <;> simp [find_mapInsert, hk, ha]

theorem mergedKey_of_not_arr {o : Fields ν} (h : ∀ members, find "anyOf" o ≠ some (.arr members))
    (k : String) : mergedKey f k o = none ∧ writtenAnyOf o = none := by
  have helems : elements (find "anyOf" o) = none := by
    rw [Option.eq_none_iff_forall_ne_some]
    exact fun members hs => h members (elements_eq_some.mp hs)
  rw [mergedKey, mergedMember, writtenAnyOf, helems]
  exact ⟨rfl, rfl⟩

theorem find_openapiNode {k : String} (hk : k ∈ ownedKeys) (o : Fields ν) :
    find k (openapiNode f o) = (mergedKey f k o).or (written f k o) := by
  have hne : k ≠ "oneOf" ∧ k ≠ "minLength" ∧ k ≠ "nullable" := by
    simp only [ownedKeys, List.mem_cons, List.not_mem_nil, or_false] at hk
    rcases hk with rfl | rfl | rfl | rfl | rfl | rfl | rfl | rfl <;> decide
  have hwritten : (if k = "anyOf" then (writtenAnyOf o).map (convertAll f) else none).or
      (find k (ownKeys f o)) = written f k o := by
    by_cases ha : k = "anyOf"
    · subst ha
      rw [find_ownKeys_anyOf, Option.or_none, written, if_pos rfl, if_pos rfl]
    · rw [written, if_neg ha, if_neg ha, Option.none_or]
  simp only [openapiNode, find_putSome, if_neg hne.1, if_neg hne.2.1]
  split
  · next members hm => rw [find_convertAnyOf hne.2.2 hm, hwritten]
  · next hm =>
    obtain ⟨hmerged, hany⟩ := mergedKey_of_not_arr (f := f) hm k
    rw [← hwritten, hmerged, hany]
    simp

theorem find_openapiNode_oneOf (o : Fields ν) : find "oneOf" (openapiNode f o) =
    ((writtenOneOf o).map (convertAll f)).or (mergedKey f "oneOf" o) := by
  simp only [openapiNode, find_putSome, String.reduceEq, if_false, if_true, writtenOneOf]
  split
  · next members hm =>
    rw [find_convertAnyOf (by decide) hm, if_neg (by decide), find_ownKeys_oneOf]
    simp
  · next hm => rw [(mergedKey_of_not_arr (f := f) hm "oneOf").1, find_ownKeys_oneOf]

theorem written_typed {k : String} (hk : k ∈ ownedKeys) (t : String) :
    written f k [("type", .str t)] = find k [("type", .str t)] := by
  simp only [ownedKeys, List.mem_cons, List.not_mem_nil, or_false] at hk
  rcases hk with rfl | rfl | rfl | rfl | rfl | rfl | rfl | rfl <;>
    simp [find_putSome, find, written, ownKeys, typeStr, text, asStr, convertProperties,
      convertItems, entries, elements, writtenAnyOf, truthyStr, nullableKey, isTrue]

theorem find_emptyObject {k : String} (hk : k ∈ ownedKeys) (o : Fields ν) :
    find k (emptyObject o) = find k [("type", .str "object")] := by
  have hne : k ≠ "nullable" ∧ k ≠ "description" := by
    simp only [ownedKeys, List.mem_cons, List.not_mem_nil, or_false] at hk
    rcases hk with rfl | rfl | rfl | rfl | rfl | rfl | rfl | rfl <;> decide
  rw [emptyObject, find_putSome, if_neg hne.1, find_putSome, if_neg hne.2]

end Keys

theorem nested_obj (o : Fields ν) : nested serde (.obj o) = some (.obj
    (if isEmptyObject serde o then emptyObject o else openapiNode (nested serde) o)) := by
  rw [nested_eq, toOpenapi, openapiBody]
  split_ifs <;> simp_all

theorem nested_true : nested serde (.bool true) = some (typed "string") := rfl

/-- A schema is left out exactly when it has no layers. -/
theorem nested_cases (serde : Serde ν) (schema : Json ν) :
    (nested serde schema = none ∧ layers serde schema = []) ∨
      ∃ v, nested serde schema = some (.obj v) := by
  cases schema with
  | obj o => exact .inr ⟨_, nested_obj o⟩
  | bool b =>
    cases b with
    | false => exact .inl ⟨rfl, rfl⟩
    | true => exact .inr ⟨_, nested_true⟩
  | _ => exact .inl ⟨rfl, rfl⟩

theorem layers_obj {o : Fields ν} (h : isEmptyObject serde o = false) :
    layers serde (.obj o) = o :: ((mergedMember o).map (layers serde)).getD [] := by
  rw [layers_eq, layersBody, h]
  rfl

theorem layers_emptyObject {o : Fields ν} (h : isEmptyObject serde o = true) :
    layers serde (.obj o) = [[("type", .str "object")]] := by
  rw [layers_eq, layersBody, h]
  rfl

/-- Induction over what becomes a node: a schema that allows anything, an empty object, and an object after the
member it is merged with. -/
theorem nested_induct {motive : ∀ schema v, nested serde schema = some (.obj v) → Prop}
    (anything : motive (.bool true) [("type", .str "string")] nested_true)
    (empty : ∀ o h, isEmptyObject serde o = true → motive (.obj o) (emptyObject o) h)
    (node : ∀ o h, isEmptyObject serde o = false →
      (∀ m c hc, mergedMember o = some m → motive m c hc) → motive (.obj o) (openapiNode (nested serde) o) h)
    {schema : Json ν} {v : Fields ν} (h : nested serde schema = some (.obj v)) : motive schema v h := by
  induction hn : depth schema using Nat.strongRecOn generalizing schema v with
  | _ n ih =>
    cases schema with
    | obj o =>
      have hv := h
      rw [nested_obj] at hv
      cases he : isEmptyObject serde o with
      | true =>
        rw [he] at hv
        cases hv
        exact empty o h he
      | false =>
        rw [he] at hv
        cases hv
        exact node o h he fun m c hc hm => ih _ (hn ▸ mergedMember_eq_some hm) hc rfl
    | bool b =>
      cases b with
      | false => cases h
      | true =>
        cases h
        exact anything
    | _ => cases h

theorem find_nested {k : String} (hk : k ∈ ownedKeys) {schema : Json ν} {v : Fields ν}
    (h : nested serde schema = some (.obj v)) :
    find k v = last (written (nested serde) k) (layers serde schema) := by
  induction h using nested_induct with
  | anything => exact (written_typed hk "string").symm
  | empty o _ he =>
    rw [layers_emptyObject he, last_cons, last_nil, Option.none_or, written_typed hk]
    exact find_emptyObject hk o
  | node o _ he ih =>
    rw [layers_obj he, last_cons]
    refine (find_openapiNode hk o).trans (congrArg (Option.or · _) ?_)
    rw [mergedKey]
    cases hm : mergedMember o with
    | none => rfl
    | some m =>
      rcases nested_cases serde m with ⟨hnone, hlayers⟩ | ⟨w, hw⟩
      · simp [hnone, hlayers, entries]
      · rw [Option.bind_some, hw]
        exact ih m w hw hm

theorem find_nested_oneOf {schema : Json ν} {v : Fields ν}
    (h : nested serde schema = some (.obj v)) : find "oneOf" v =
      ((layers serde schema).findSome? writtenOneOf).map (convertAll (nested serde)) := by
  induction h using nested_induct with
  | anything => rfl
  | empty o _ he =>
    rw [layers_emptyObject he, emptyObject, find_putSome, find_putSome]
    rfl
  | node o _ he ih =>
    rw [layers_obj he, List.findSome?_cons]
    refine (find_openapiNode_oneOf o).trans ?_
    cases hone : writtenOneOf o with
    | some members => rfl
    | none =>
      rw [Option.map_none, Option.none_or, mergedKey]
      cases hm : mergedMember o with
      | none => rfl
      | some m =>
        rcases nested_cases serde m with ⟨hnone, hlayers⟩ | ⟨w, hw⟩
        · simp [hnone, hlayers, entries]
        · rw [Option.bind_some, hw]
          exact ih m w hw hm

/-! ## The keys are those of the dialect -/

theorem keys_putSome {k : String} (hk : k ∈ allowedKeys) (x : Option (Json ν)) {o : Fields ν}
    (ho : ∀ e ∈ o, e.1 ∈ allowedKeys) : ∀ e ∈ putSome k x o, e.1 ∈ allowedKeys := by
  cases x with
  | none => exact ho
  | some x =>
    intro e he
    rcases mem_mapInsert he with rfl | he
    · exact hk
    · exact ho e he

theorem keys_mapInsert {k : String} (hk : k ∈ allowedKeys) (x : Json ν) {o : Fields ν}
    (ho : ∀ e ∈ o, e.1 ∈ allowedKeys) : ∀ e ∈ mapInsert k x o, e.1 ∈ allowedKeys :=
  keys_putSome hk (some x) ho

theorem keys_extend {out converted : Fields ν} (hout : ∀ e ∈ out, e.1 ∈ allowedKeys)
    (hconv : ∀ e ∈ converted, e.1 ∈ allowedKeys) :
    ∀ e ∈ extend out converted, e.1 ∈ allowedKeys := by
  induction converted with
  | nil => exact hout
  | cons e converted ih =>
    apply keys_mapInsert (hconv e (List.mem_cons_self ..))
    exact ih fun e' he' => hconv e' (List.mem_cons_of_mem _ he')

theorem keys_ownKeys (f : Json ν → Option (Json ν)) (o : Fields ν) :
    ∀ e ∈ ownKeys f o, e.1 ∈ allowedKeys := by
  unfold ownKeys
  iterate 10 refine keys_putSome (by decide) _ ?_
  simp

theorem keys_openapiNode {f : Json ν → Option (Json ν)} {o : Fields ν}
    (h : ∀ m c, mergedMember o = some m → f m = some (.obj c) → ∀ e ∈ c, e.1 ∈ allowedKeys) :
    ∀ e ∈ openapiNode f o, e.1 ∈ allowedKeys := by
  unfold openapiNode
  refine keys_putSome (by decide) _ (keys_putSome (by decide) _ ?_)
  split
  · next members hm =>
    have hmerged : mergedMember o = if members.any isNullSchema then
        match members.filter fun m => !isNullSchema m with
        | [only] => some only
        | _ => none
      else none := by rw [mergedMember, elements_eq_some.mpr hm, Option.bind_some]
    unfold convertAnyOf
    split_ifs with hnull
    · rw [if_pos hnull] at hmerged
      split
      · next only honly =>
        rw [honly] at hmerged
        split
        · next c hc =>
          exact keys_extend (keys_mapInsert (by decide) _ (keys_ownKeys f o)) (h only c hmerged hc)
        · exact keys_ownKeys f o
      · exact keys_mapInsert (by decide) _ (keys_mapInsert (by decide) _ (keys_ownKeys f o))
    · exact keys_mapInsert (by decide) _ (keys_ownKeys f o)
  · exact keys_ownKeys f o

theorem keys_nested {schema : Json ν} {v : Fields ν} (h : nested serde schema = some (.obj v)) :
    ∀ e ∈ v, e.1 ∈ allowedKeys := by
  induction h using nested_induct with
  | anything => simp [allowedKeys]
  | empty o _ _ => exact keys_putSome (by decide) _ (keys_putSome (by decide) _ (by simp [allowedKeys]))
  | node o _ _ ih => exact keys_openapiNode fun m c hm hc => ih m c hc hm

/-! ## Reading a node off its layers -/

section Node

variable {schema : Json ν} {v : Fields ν} (h : nested serde schema = some (.obj v))
include h

theorem find_type : find "type" v = (last typeStr (layers serde schema)).map .str := by
  rw [find_nested (by decide) h, ← last_map]
  congr 1
  funext o
  exact find_ownKeys_type o

theorem typeStr_nested : typeStr v = last typeStr (layers serde schema) := by
  rw [typeStr, find_type h]
  cases last typeStr (layers serde schema) <;> rfl

theorem find_enum : find "enum" v = last writtenEnum (layers serde schema) := by
  rw [find_nested (by decide) h]
  congr 1
  funext o
  exact find_ownKeys_enum o

theorem find_required : find "required" v = last writtenRequired (layers serde schema) := by
  rw [find_nested (by decide) h]
  congr 1
  funext o
  exact find_ownKeys_required o

theorem entries_properties : entries (find "properties" v) =
    (last writtenProperties (layers serde schema)).map
      (mapEntries fun _ w => nested serde w) := by
  have hfind : find "properties" v = (last writtenProperties (layers serde schema)).map
      fun props => .obj (mapEntries (fun _ w => nested serde w) props) := by
    rw [find_nested (by decide) h, ← last_map]
    congr 1
    funext o
    exact find_ownKeys_properties o
  rw [hfind]
  cases last writtenProperties (layers serde schema) <;> rfl

theorem elements_anyOf : elements (find "anyOf" v) =
    (last writtenAnyOf (layers serde schema)).map (List.filterMap (nested serde)) := by
  have hfind : find "anyOf" v =
      (last writtenAnyOf (layers serde schema)).map (convertAll (nested serde)) := by
    rw [find_nested (by decide) h, ← last_map]
    congr 1
  rw [hfind]
  cases last writtenAnyOf (layers serde schema) <;> rfl

theorem elements_allOf : elements (find "allOf" v) =
    (last writtenAllOf (layers serde schema)).map (List.filterMap (nested serde)) := by
  have hfind : find "allOf" v =
      (last writtenAllOf (layers serde schema)).map (convertAll (nested serde)) := by
    rw [find_nested (by decide) h, ← last_map]
    congr 1
    funext o
    exact find_ownKeys_allOf o
  rw [hfind]
  cases last writtenAllOf (layers serde schema) <;> rfl

theorem elements_oneOf : elements (find "oneOf" v) =
    ((layers serde schema).findSome? writtenOneOf).map (List.filterMap (nested serde)) := by
  rw [find_nested_oneOf h]
  cases (layers serde schema).findSome? writtenOneOf <;> rfl

theorem copied : Copied v := by
  constructor
  · exact keys_nested h
  · intro t ht
    rw [find_type h] at ht
    obtain ⟨s, -, rfl⟩ := Option.map_eq_some_iff.mp ht
    exact ⟨s, rfl⟩
  · intro f hf
    have hfind : find "format" v = (last (fun o => (text (find "format" o)).filter
        (formatAllowed (typeStr o))) (layers serde schema)).map .str := by
      rw [find_nested (by decide) h, ← last_map]
      congr 1
      funext o
      exact find_ownKeys_format o
    rw [hfind] at hf
    obtain ⟨s, -, rfl⟩ := Option.map_eq_some_iff.mp hf
    exact ⟨s, rfl⟩

theorem hasCombiner_nested : hasCombiner v = !(combined (layers serde schema)).isEmpty := by
  simp only [hasCombiner, combinerKeys, List.any_cons, List.any_nil, elements_anyOf h,
    elements_oneOf h, elements_allOf h, Option.isSome_map, combined]
  cases last writtenAnyOf (layers serde schema) <;>
    cases (layers serde schema).findSome? writtenOneOf <;>
    cases last writtenAllOf (layers serde schema) <;> rfl

theorem memberNodes_nested :
    memberNodes v = (combined (layers serde schema)).flatten.filterMap (nested serde) := by
  simp only [memberNodes, combinerKeys, List.flatMap_cons, List.flatMap_nil, elements_anyOf h,
    elements_oneOf h, elements_allOf h, combined]
  cases last writtenAnyOf (layers serde schema) <;>
    cases (layers serde schema).findSome? writtenOneOf <;>
    cases last writtenAllOf (layers serde schema) <;> simp

theorem repairedType_nested : repairedType v = settledType (layers serde schema) := by
  have harr : ∀ e : Option (Json ν), (elements e).isSome = e.any isArray := by
    intro e
    cases e with
    | none => rfl
    | some e => cases e <;> rfl
  have hnone : (find "type" v = none ∧ hasCombiner v = false) ↔
      (last typeStr (layers serde schema) = none ∧ combined (layers serde schema) = []) := by
    rw [find_type h, hasCombiner_nested h, Option.map_eq_none_iff, Bool.not_eq_false',
      List.isEmpty_iff]
  rw [repairedType, settledType, harr, find_enum h, typeStr_nested h]
  simp only [hnone]

theorem structured_nested : structured v = mayHaveProperties (layers serde schema) := by
  rw [structured, mayHaveProperties, repairedType_nested h, hasCombiner_nested h]

theorem repairable_nested : Repairable v ↔ WellWritten (layers serde schema) := by
  have hcombined : hasCombiner v = true ↔ combined (layers serde schema) ≠ [] := by
    rw [hasCombiner_nested h, Bool.not_eq_true', ← Bool.not_eq_true, List.isEmpty_iff]
  constructor
  · intro hv
    refine ⟨?_, ?_, ?_⟩
    · simpa only [repairedType_nested h, hcombined] using hv.type
    · simpa only [find_enum h] using hv.enum
    · simpa only [structured_nested h, find_required h] using hv.required
  · intro hw
    refine ⟨?_, ?_, ?_⟩
    · simpa only [repairedType_nested h, hcombined] using hw.type
    · simpa only [find_enum h] using hw.enum
    · simpa only [structured_nested h, find_required h] using hw.required

/-- A single schema under `items` counts as a list of one. -/
theorem items_nested : Option.Rel (fun items sources => notNull items = true ∧
      itemNodes [("items", items)] = sources.filterMap (nested serde))
    (find "items" v) (last writtenItems (layers serde schema)) := by
  rw [find_nested (by decide) h]
  apply last_rel
  intro o
  have hown : written (nested serde) "items" o = convertItems (nested serde) o :=
    find_ownKeys_items o
  rw [hown, convertItems, writtenItems]
  cases find "items" o with
  | none => exact .none
  | some items =>
    cases items with
    | arr tuple => exact .some ⟨rfl, rfl⟩
    | bool b =>
      cases b with
      | false => exact .none
      | true => exact .some ⟨rfl, rfl⟩
    | obj items =>
      simp only [nested_obj]
      exact .some ⟨rfl, by simp [itemNodes, find, nested_obj]⟩
    | _ => exact .none

theorem mem_keptItems {c : Json ν} : c ∈ keptItems v ↔
    c ∈ ((last writtenItems (layers serde schema)).getD []).filterMap (nested serde) ∨
      (c = typed "string" ∧ settledType (layers serde schema) = some "array" ∧
        last writtenItems (layers serde schema) = none) := by
  have hitems := items_nested h
  rw [keptItems, repairedType_nested h, itemNodes]
  generalize find "items" v = items at hitems
  generalize last writtenItems (layers serde schema) = sources at hitems
  cases hitems with
  | none =>
    by_cases harr : settledType (layers serde schema) = some "array" <;> simp [harr]
  | some hi =>
    next items sources =>
    obtain ⟨hnull, hnodes⟩ := hi
    have hmem : c ∈ sources.filterMap (nested serde) ↔ c ∈ itemNodes [("items", items)] := by
      rw [hnodes]
    rw [if_neg (by simp [hnull]), Option.getD_some, hmem, itemNodes, find_cons, if_pos rfl]
    simp

theorem mem_keptNodes {c : Json ν} : c ∈ keptNodes v ↔
    (∃ child ∈ childSources (layers serde schema), nested serde child = some c) ∨
      (c = typed "string" ∧ settledType (layers serde schema) = some "array" ∧
        last writtenItems (layers serde schema) = none) := by
  have hprops : (if structured v then ((entries (find "properties" v)).getD []).map Prod.snd else []) =
      (if mayHaveProperties (layers serde schema) then
        ((last writtenProperties (layers serde schema)).getD []).map Prod.snd
      else []).filterMap (nested serde) := by
    rw [structured_nested h, entries_properties h]
    cases mayHaveProperties (layers serde schema) with
    | false => rfl
    | true =>
      cases last writtenProperties (layers serde schema) with
      | none => rfl
      | some props =>
        simp only [if_true, Option.map_some, Option.getD_some, mapEntries, List.map_filterMap,
          List.filterMap_map, Option.map_map]
        congr 1
        funext e
        exact Option.map_id' ..
  rw [keptNodes, hprops, memberNodes_nested h, List.mem_append, List.mem_append, mem_keptItems h,
    childSources, ← List.mem_filterMap, List.filterMap_append, List.filterMap_append,
    List.mem_append, List.mem_append]
  tauto

end Node

end FerrisScope.GeminiSchema
