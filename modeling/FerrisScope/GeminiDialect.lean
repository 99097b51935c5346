import FerrisScope.GeminiPasses

/-!
# The dialect of a declaration

What Gemini asks of every node of a declaration, and what `repair` leaves of a node that the
earlier passes hand to it: the node is in order unless its type has no meaning to Gemini or its
`enum` or `required` is no list.
-/

namespace FerrisScope.GeminiSchema
open Json

variable {ν : Type} {serde : Serde ν}

def allowedKeys : List String :=
  ["description", "required", "format", "type", "nullable", "enum", "properties", "items", "allOf",
    "anyOf", "oneOf", "minLength"]

def geminiTypes : List String :=
  ["string", "number", "integer", "boolean", "array", "object", "null"]

def declaredNames (o : Fields ν) : List String :=
  ((entries (find "properties" o)).getD []).map Prod.fst

structure NodeValid (o : Fields ν) : Prop where
  keys : ∀ e ∈ o, e.1 ∈ allowedKeys
  type : (∃ t ∈ geminiTypes, typeStr o = some t) ∨ hasCombiner o = true
  items : typeStr o = some "array" → (find "items" o).isSome = true
  enum : ∀ e, find "enum" o = some e →
    typeStr o = some "string" ∧ ∃ names : List String, e = .arr (names.map .str)
  required : ∀ r, find "required" o = some r →
    ∃ names : List String, r = .arr (names.map .str) ∧ ∀ name ∈ names, name ∈ declaredNames o
  format : ∀ f, find "format" o = some f → ∃ s, f = .str s ∧ formatAllowed (typeStr o) s = true
  bare : typeStr o ≠ some "object" → hasCombiner o = false →
    find "properties" o = none ∧ find "required" o = none

def itemNodes (o : Fields ν) : List (Json ν) :=
  match find "items" o with
  | some (.arr tuple) => tuple
  | some items => [items]
  | none => []

def memberNodes (o : Fields ν) : List (Json ν) :=
  combinerKeys.flatMap fun key => (elements (find key o)).getD []

def childNodes (node : Json ν) : List (Json ν) :=
  match node with
  | .obj o =>
      ((entries (find "properties" o)).getD []).map Prod.snd ++ itemNodes o ++ memberNodes o
  | _ => []

/-- The nodes below a node, through properties, items and combiners. -/
def Reaches : Json ν → Json ν → Prop :=
  Relation.ReflTransGen fun node child => child ∈ childNodes node

structure InDialect (out : Json ν) : Prop where
  root : text (get? out "type") = some "object"
  nodes : ∀ node, Reaches out node → ∃ o, node = .obj o ∧ NodeValid o

/-! ## One repaired node -/

def isArray (v : Json ν) : Bool :=
  match v with
  | .arr _ => true
  | _ => false

/-- What the copied keys are, whatever the schema was. -/
structure Copied (v : Fields ν) : Prop where
  keys : ∀ e ∈ v, e.1 ∈ allowedKeys
  type : ∀ t, find "type" v = some t → ∃ s, t = .str s
  format : ∀ f, find "format" v = some f → ∃ s, f = .str s

/-- The nodes that may carry properties. -/
def structured (v : Fields ν) : Bool :=
  hasCombiner v || decide (repairedType v = some "object")

/-- What `repair` takes for granted. -/
structure Repairable (v : Fields ν) : Prop where
  type : (∃ t ∈ geminiTypes, repairedType v = some t) ∨ hasCombiner v = true
  enum : ∀ e, find "enum" v = some e → isArray e = true
  required : structured v = true → ∀ r, find "required" v = some r → isArray r = true

def repairFields (serde : Serde ν) (v : Fields ν) : Fields ν :=
  reconcile (repairChildren (repair serde) (fixNode serde v))

theorem repair_obj (v : Fields ν) : repair serde (.obj v) = .obj (repairFields serde v) :=
  repair_eq _

theorem find_reconcile_of_ne {k : String} (hk : k ≠ "required") (o : Fields ν) :
    find k (reconcile o) = find k o := by
  have hset : ∀ req, find k (mapInsert "required" req o) = find k o :=
    fun req => by rw [find_mapInsert, if_neg hk]
  unfold reconcile
  simp only
  split
  · split_ifs
    · rw [find_remove, if_neg hk, hset]
    · rw [hset]
  · split_ifs
    · rw [find_remove, if_neg hk]
    · rfl

theorem find_reconcile_required (o : Fields ν) : find "required" (reconcile o) =
    match find "required" o, entries (find "properties" o) with
    | some (.arr req), some props => some (.arr (req.filter fun r =>
        (asStr r).any fun s => decide (s ∈ props.map Prod.fst)))
    | some (.arr _), none => none
    | r, _ => r := by
  unfold reconcile
  cases hp : entries (find "properties" o) with
  | none =>
    cases hr : find "required" o with
    | none => simp [hr, elements]
    | some r => cases r <;> simp [hr, elements, find_remove]
  | some props =>
    cases hr : find "required" o with
    | none => simp [hr]
    | some r => cases r <;> simp [hr]

theorem find_fixNode_of_notMem {k : String}
    (hk : k ∉ ["type", "enum", "items", "properties", "required", "format"]) (v : Fields ν) :
    find k (fixNode serde v) = find k v := by
  simp only [List.mem_cons, List.not_mem_nil, or_false, not_or] at hk
  obtain ⟨htype, henum, hitems, hprops, hreq, hformat⟩ := hk
  simp only [fixNode, find_fixFormat, find_bareScalar, find_giveItems, find_fixEnum, find_giveType,
    htype, henum, hitems, hprops, hreq, hformat, false_and, if_false, or_self]
  split <;> rfl

theorem typeStr_repairFields (v : Fields ν) : typeStr (repairFields serde v) = repairedType v := by
  have hentry : ∀ w : Json ν, repairEntry (repair serde) "type" w = w :=
    repairEntry_of_ne (by decide) (by decide) (by decide)
  have hmap : (find "type" (fixNode serde v)).map (repairEntry (repair serde) "type") =
      find "type" (fixNode serde v) := by
    cases find "type" (fixNode serde v) with
    | none => rfl
    | some w => rw [Option.map_some, hentry]
  rw [typeStr, repairFields, find_reconcile_of_ne (by decide), find_repairChildren, hmap,
    ← typeStr_fixed serde, typeStr]
  simp [fixNode, find_fixFormat, find_bareScalar, find_giveItems]

theorem map_repairEntry_self {f : Json ν → Json ν} {k : String} (hp : k ≠ "properties")
    (hi : k ≠ "items") (hc : k ∉ combinerKeys) (v : Option (Json ν)) :
    v.map (repairEntry f k) = v := by
  cases v with
  | none => rfl
  | some w => rw [Option.map_some, repairEntry_of_ne hp hi hc]

theorem find_repairFields_enum (v : Fields ν) : find "enum" (repairFields serde v) =
    match elements (find "enum" v) with
    | some members => some (.arr (members.map (enumMemberToString serde)))
    | none => find "enum" v := by
  rw [repairFields, find_reconcile_of_ne (by decide), find_repairChildren,
    map_repairEntry_self (by decide) (by decide) (by decide)]
  simp only [fixNode, find_fixFormat, find_bareScalar, find_giveItems, find_fixEnum, find_giveType]
  simp only [String.reduceEq, false_and, if_false, or_self]
  cases elements (find "enum" v) <;> rfl

theorem find_fixed_of_ne {k : String} (htype : k ≠ "type") (henum : k ≠ "enum") (v : Fields ν) :
    find k (fixEnum serde (giveType v)) = find k v := by
  simp only [find_fixEnum, find_giveType, htype, henum, false_and, if_false]
  split <;> rfl

theorem find_repairFields_items (v : Fields ν) : find "items" (repairFields serde v) =
    if repairedType v = some "array" ∧ ((find "items" v).all fun w => !notNull w) = true then
      some (repair serde (typed "string"))
    else (find "items" v).map (repairEntry (repair serde) "items") := by
  have hfixed : find "items" (fixEnum serde (giveType v)) = find "items" v :=
    find_fixed_of_ne (by decide) (by decide) v
  rw [repairFields, find_reconcile_of_ne (by decide), find_repairChildren]
  simp only [fixNode, find_fixFormat, find_bareScalar, find_giveItems, typeStr_fixed, hfixed,
    String.reduceEq, false_and, if_false, true_and, or_self]
  split_ifs
  · rfl
  · rfl

theorem find_repairFields_member {key : String} (hk : key ∈ combinerKeys) (v : Fields ν) :
    find key (repairFields serde v) = (find key v).map (repairEntry (repair serde) key) := by
  have hne : key ≠ "required" ∧ key ∉ ["type", "enum", "items", "properties", "required", "format"] := by
    simp only [combinerKeys, List.mem_cons, List.not_mem_nil, or_false] at hk
    rcases hk with rfl | rfl | rfl <;> decide
  rw [repairFields, find_reconcile_of_ne hne.1, find_repairChildren, find_fixNode_of_notMem hne.2]

theorem elements_repairFields {key : String} (hk : key ∈ combinerKeys) (v : Fields ν) :
    elements (find key (repairFields serde v)) =
      (elements (find key v)).map (List.map (repair serde)) := by
  have hne : key ≠ "properties" ∧ key ≠ "items" := by
    simp only [combinerKeys, List.mem_cons, List.not_mem_nil, or_false] at hk
    rcases hk with rfl | rfl | rfl <;> decide
  rw [find_repairFields_member hk]
  cases find key v with
  | none => rfl
  | some w =>
    simp only [Option.map_some, repairEntry, if_neg hne.1, if_neg hne.2, if_pos hk]
    cases w <;> rfl

theorem hasCombiner_repairFields (v : Fields ν) :
    hasCombiner (repairFields serde v) = hasCombiner v := by
  rw [Bool.eq_iff_iff, hasCombiner, hasCombiner, List.any_eq_true, List.any_eq_true]
  apply exists_congr
  intro key
  apply and_congr_right
  intro hk
  rw [elements_repairFields hk, Option.isSome_map]

theorem structured_eq_false {v : Fields ν} (hv : Copied v) : structured v = false ↔
    repairedType v ≠ none ∧ repairedType v ≠ some "object" ∧ hasCombiner v = false := by
  have hnone : repairedType v = none → hasCombiner v = true := by
    intro h
    unfold repairedType at h
    split_ifs at h with henum htype
    cases hf : find "type" v with
    | none =>
      by_contra hc
      exact htype ⟨hf, by simpa using hc⟩
    | some t =>
      obtain ⟨s, rfl⟩ := hv.type t hf
      simp [typeStr, hf, text, asStr] at h
  rw [structured, Bool.or_eq_false_iff, decide_eq_false_iff_not]
  constructor
  · rintro ⟨hc, hobj⟩
    refine ⟨fun hn => ?_, hobj, hc⟩
    rw [hnone hn] at hc
    cases hc
  · rintro ⟨-, hobj, hc⟩
    exact ⟨hc, hobj⟩

/-- The keys that only objects carry, on a node that has been fixed. -/
theorem find_fixNode_structured {k : String} (hk : k = "properties" ∨ k = "required")
    {v : Fields ν} (hv : Copied v) :
    find k (fixNode serde v) = if structured v then find k v else none := by
  have hfixed : find k (fixEnum serde (giveType v)) = find k v := by
    rcases hk with rfl | rfl
    · exact find_fixed_of_ne (by decide) (by decide) v
    · exact find_fixed_of_ne (by decide) (by decide) v
  have hne : k ≠ "format" ∧ k ≠ "items" := by rcases hk with rfl | rfl <;> decide
  simp only [fixNode, find_fixFormat, find_bareScalar, find_giveItems, typeStr_fixed, hne.1, hne.2,
    false_and, if_false, hfixed, hk, true_and, ← structured_eq_false hv]
  cases structured v <;> simp

theorem entries_repairFields {v : Fields ν} (hv : Copied v) :
    entries (find "properties" (repairFields serde v)) =
      if structured v then
        (entries (find "properties" v)).map (List.map fun e => (e.1, repair serde e.2))
      else none := by
  rw [repairFields, find_reconcile_of_ne (by decide), find_repairChildren,
    find_fixNode_structured (.inl rfl) hv]
  cases structured v with
  | false => rfl
  | true =>
    cases find "properties" v with
    | none => rfl
    | some p => cases p <;> rfl

theorem find_repairFields_required {v : Fields ν} (hv : Copied v) :
    find "required" (repairFields serde v) = if structured v then
      match find "required" v with
      | some (.arr req) => (entries (find "properties" v)).map fun props =>
          .arr (req.filter fun r => (asStr r).any fun s => decide (s ∈ props.map Prod.fst))
      | r => r
    else none := by
  have hprops : entries (find "properties" (repairChildren (repair serde) (fixNode serde v))) =
      entries (find "properties" (repairFields serde v)) := by
    rw [repairFields, find_reconcile_of_ne (by decide)]
  have hreq : find "required" (repairChildren (repair serde) (fixNode serde v)) =
      if structured v then find "required" v else none := by
    rw [find_repairChildren, map_repairEntry_self (by decide) (by decide) (by decide),
      find_fixNode_structured (.inr rfl) hv]
  rw [repairFields, find_reconcile_required, hprops, hreq, entries_repairFields hv]
  cases structured v with
  | false => rfl
  | true =>
    simp only [if_true]
    cases hr : find "required" v with
    | none => rfl
    | some r =>
      cases r with
      | arr req =>
        cases entries (find "properties" v) with
        | none => rfl
        | some props =>
          have hkeys : (props.map fun e => (e.1, repair serde e.2)).map Prod.fst = props.map Prod.fst := by
            simp
          simp only [Option.map_some, hkeys]
      | _ => rfl

theorem find_repairFields_format {v : Fields ν} (hv : Copied v) :
    find "format" (repairFields serde v) =
      ((text (find "format" v)).filter (formatAllowed (repairedType v))).map .str := by
  have hfixed : find "format" (fixEnum serde (giveType v)) = find "format" v :=
    find_fixed_of_ne (by decide) (by decide) v
  rw [repairFields, find_reconcile_of_ne (by decide), find_repairChildren,
    map_repairEntry_self (by decide) (by decide) (by decide)]
  simp only [fixNode, find_fixFormat, find_bareScalar, find_giveItems, typeStr_fixed, hfixed,
    String.reduceEq, false_and, if_false, true_and, or_self]
  cases hf : find "format" v with
  | none => simp [text]
  | some f =>
    obtain ⟨s, rfl⟩ := hv.format f hf
    cases hallowed : formatAllowed (repairedType v) s <;>
      simp [text, asStr, hallowed, Option.filter]

theorem find_repairFields_properties {v : Fields ν} (hv : Copied v) (h : structured v = false) :
    find "properties" (repairFields serde v) = none := by
  rw [repairFields, find_reconcile_of_ne (by decide), find_repairChildren,
    find_fixNode_structured (.inl rfl) hv, h]
  rfl

theorem mem_repairFields {v : Fields ν} {e : String × Json ν} (he : e ∈ repairFields serde v) :
    e.1 = "required" ∨ e.1 = "type" ∨ e.1 = "enum" ∨ e.1 = "items" ∨ ∃ e' ∈ v, e'.1 = e.1 := by
  have hchild : e ∈ repairChildren (repair serde) (fixNode serde v) →
      e.1 = "type" ∨ e.1 = "enum" ∨ e.1 = "items" ∨ ∃ e' ∈ v, e'.1 = e.1 := by
    intro he
    obtain ⟨e', he', rfl⟩ := List.mem_map.mp he
    rcases mem_fixNode he' with h | h | h | ⟨rfl, -⟩
    · exact .inr (.inr (.inr ⟨e', h, rfl⟩))
    · exact .inl h
    · exact .inr (.inl h)
    · exact .inr (.inr (.inl rfl))
  have hset : ∀ req, e ∈ mapInsert "required" req (repairChildren (repair serde) (fixNode serde v)) →
      e.1 = "required" ∨ e ∈ repairChildren (repair serde) (fixNode serde v) := by
    intro req he
    rcases mem_mapInsert he with rfl | he
    · exact .inl rfl
    · exact .inr he
  unfold repairFields reconcile at he
  simp only at he
  split at he
  · split_ifs at he
    · exact (hset _ (mem_remove he)).imp_right hchild
    · exact (hset _ he).imp_right hchild
  · split_ifs at he
    · exact .inr (hchild (mem_remove he))
    · exact .inr (hchild he)

theorem enumMemberToString_str (serde : Serde ν) (v : Json ν) : ∃ s, enumMemberToString serde v = .str s := by
  cases v <;> exact ⟨_, rfl⟩

theorem map_enumMemberToString (serde : Serde ν) (members : List (Json ν)) :
    ∃ names : List String, members.map (enumMemberToString serde) = names.map .str := by
  induction members with
  | nil => exact ⟨[], rfl⟩
  | cons m members ih =>
    obtain ⟨s, hs⟩ := enumMemberToString_str serde m
    obtain ⟨names, hn⟩ := ih
    exact ⟨s :: names, by rw [List.map_cons, List.map_cons, hs, hn]⟩

/-- The strings of a list that pass a test. -/
theorem filter_asStr (p : String → Bool) (req : List (Json ν)) :
    (req.filter fun r => (asStr r).any p) = ((req.filterMap asStr).filter p).map .str := by
  induction req with
  | nil => rfl
  | cons r req ih =>
    cases r with
    | str s =>
      have hs : asStr (.str s : Json ν) = some s := rfl
      cases hp : p s <;> simp [hs, hp, ih]
    | _ => rw [List.filter_cons_of_neg Bool.false_ne_true, List.filterMap_cons_none rfl, ih]

theorem type_of_enum {v : Fields ν} {members : List (Json ν)}
    (h : elements (find "enum" v) = some members) : repairedType v = some "string" := by
  rw [repairedType, h]
  rfl

/-- A repaired node is in order exactly when it was repairable. -/
theorem nodeValid_repairFields {v : Fields ν} (hv : Copied v) :
    NodeValid (repairFields serde v) ↔ Repairable v := by
  constructor
  · intro h
    constructor
    · simpa only [typeStr_repairFields, hasCombiner_repairFields] using h.type
    · intro e he
      cases hm : elements (find "enum" v) with
      | some members =>
        rw [elements_eq_some, he] at hm
        cases hm
        rfl
      | none =>
        obtain ⟨-, names, rfl⟩ := h.enum e (by rw [find_repairFields_enum, hm]; exact he)
        rfl
    · intro hs r hr
      cases r with
      | arr req => rfl
      | _ =>
        obtain ⟨names, hn, -⟩ := h.required _ (by rw [find_repairFields_required hv, hs, hr]; rfl)
        cases hn
  · intro h
    constructor
    · intro e he
      rcases mem_repairFields he with h | h | h | h | ⟨e', he', h⟩
      · rw [h]
        decide
      · rw [h]
        decide
      · rw [h]
        decide
      · rw [h]
        decide
      · exact h ▸ hv.keys e' he'
    · simpa only [typeStr_repairFields, hasCombiner_repairFields] using h.type
    · intro harr
      rw [typeStr_repairFields] at harr
      rw [find_repairFields_items]
      split_ifs with hi
      · rfl
      · cases hf : find "items" v with
        | none => exact absurd ⟨harr, by rw [hf]; rfl⟩ hi
        | some w => rfl
    · intro e he
      rw [find_repairFields_enum] at he
      rw [typeStr_repairFields]
      cases hm : elements (find "enum" v) with
      | some members =>
        rw [hm] at he
        cases he
        obtain ⟨names, hn⟩ := map_enumMemberToString serde members
        exact ⟨type_of_enum hm, names, by rw [hn]⟩
      | none =>
        have he' : find "enum" v = some e := by
          rw [hm] at he
          exact he
        have harr := h.enum e he'
        cases e with
        | arr members =>
          rw [he'] at hm
          cases hm
        | _ => cases harr
    · intro r hr
      rw [find_repairFields_required hv] at hr
      cases hs : structured v with
      | false => rw [hs] at hr; cases hr
      | true =>
        rw [hs, if_pos rfl] at hr
        have hdeclared : declaredNames (repairFields serde v) = declaredNames v := by
          rw [declaredNames, declaredNames, entries_repairFields hv, hs, if_pos rfl]
          cases entries (find "properties" v) with
          | none => rfl
          | some props => simp
        rw [hdeclared]
        cases hf : find "required" v with
        | none => rw [hf] at hr; cases hr
        | some r' =>
          have harr := h.required hs r' hf
          cases r' with
          | arr req =>
            rw [hf] at hr
            cases hp : entries (find "properties" v) with
            | none => simp [hp] at hr
            | some props =>
              simp only [hp, Option.map_some, Option.some.injEq] at hr
              refine ⟨_, hr.symm.trans (congrArg _ (filter_asStr _ req)), ?_⟩
              intro name hname
              have hmem := (List.mem_filter.mp hname).2
              rw [declaredNames, hp]
              simpa using hmem
          | _ => cases harr
    · intro f hf
      rw [find_repairFields_format hv] at hf
      obtain ⟨s, hs, rfl⟩ := Option.map_eq_some_iff.mp hf
      rw [typeStr_repairFields]
      exact ⟨s, rfl, (Option.filter_eq_some_iff.mp hs).2⟩
    · intro hobj hc
      rw [typeStr_repairFields] at hobj
      rw [hasCombiner_repairFields] at hc
      have hs : structured v = false := by simp [structured, hc, hobj]
      exact ⟨find_repairFields_properties hv hs, by rw [find_repairFields_required hv, hs]; rfl⟩

/-! ## The children of a repaired node -/

def keptItems (v : Fields ν) : List (Json ν) :=
  if repairedType v = some "array" ∧ ((find "items" v).all fun w => !notNull w) = true then
    [typed "string"]
  else itemNodes v

/-- The nodes that `repair` leaves below a node. -/
def keptNodes (v : Fields ν) : List (Json ν) :=
  (if structured v then ((entries (find "properties" v)).getD []).map Prod.snd else []) ++
    keptItems v ++ memberNodes v

theorem itemNodes_repairFields (v : Fields ν) :
    itemNodes (repairFields serde v) = (keptItems v).map (repair serde) := by
  rw [itemNodes, find_repairFields_items, keptItems]
  split_ifs
  · rfl
  · unfold itemNodes
    cases find "items" v with
    | none => rfl
    | some w =>
      cases w with
      | arr tuple => rfl
      | obj o =>
        have hentry : repairEntry (repair serde) "items" (.obj o) = .obj (repairFields serde o) :=
          repair_obj o
        rw [Option.map_some, hentry, List.map_cons, repair_obj]
        rfl
      | _ => rfl

theorem childNodes_repair {v : Fields ν} (hv : Copied v) :
    childNodes (repair serde (.obj v)) = (keptNodes v).map (repair serde) := by
  have hmembers : memberNodes (repairFields serde v) = (memberNodes v).map (repair serde) := by
    rw [memberNodes, memberNodes, List.map_flatMap]
    apply List.flatMap_congr
    intro key hk
    rw [elements_repairFields hk]
    cases elements (find key v) <;> rfl
  rw [repair_obj, childNodes, keptNodes, List.map_append, List.map_append,
    ← itemNodes_repairFields, ← hmembers, entries_repairFields hv]
  cases structured v with
  | false => rfl
  | true =>
    cases entries (find "properties" v) with
    | none => rfl
    | some props => simp

end FerrisScope.GeminiSchema
