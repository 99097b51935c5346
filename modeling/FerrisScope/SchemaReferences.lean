import FerrisScope.GeminiSanitize

/-!
# References of a tool schema

What inlining leaves of the references of a schema. The keywords that hold subschemas are given
by a vocabulary. In the result no schema keeps a reference, whatever the definitions say of each
other, and a reference that a chain of few and distinct definitions leads to stands for its
definition, refined by the keywords beside it.
-/

namespace FerrisScope.GeminiSchema
open Json OpenRecursion

variable {ν : Type}

/-! ## Schemas -/

/-- The keywords that hold one subschema, a list of them, or subschemas by name. -/
structure Vocabulary where
  single : List String
  list : List String
  named : List String
  defs : ["$defs", "definitions"] ⊆ named
  /-- Texts are no schemas. -/
  text : ∀ k ∈ ["description", "$ref"], k ∉ single ∧ k ∉ list ∧ k ∉ named

namespace Vocabulary

variable (voc : Vocabulary)

/-- The subschemas under one key. -/
def under (key : String) (v : Json ν) : List (Json ν) :=
  (if key ∈ voc.single then [v] else []) ++
    (if key ∈ voc.list then (elements (some v)).getD [] else []) ++
    (if key ∈ voc.named then ((entries (some v)).getD []).map Prod.snd else [])

def subschemas : Json ν → List (Json ν)
  | .arr items => items
  | .obj o => o.flatMap fun e => voc.under e.1 e.2
  | _ => []

end Vocabulary

/-- A boolean, a tuple of schemas, or an object whose reference, if it has one, is a text. -/
inductive IsSchema (voc : Vocabulary) : Json ν → Prop
  | bool (b : Bool) : IsSchema voc (.bool b)
  | tuple {items : List (Json ν)} (items_schemas : ∀ n ∈ items, IsSchema voc n) :
      IsSchema voc (.arr items)
  | object {o : Fields ν} (ref : ∀ v, find "$ref" o = some v → ∃ t, v = .str t)
      (below : ∀ e ∈ o, ∀ c ∈ voc.under e.1 e.2, IsSchema voc c) : IsSchema voc (.obj o)

/-- No schema in it has a reference. -/
inductive RefFree (voc : Vocabulary) : Json ν → Prop
  | mk {node : Json ν} (ref : get? node "$ref" = none)
      (below : ∀ c ∈ voc.subschemas node, RefFree voc c) : RefFree voc node

/-! ## What a reference stands for -/

/-- The definitions that led to a node, and one more: all distinct, and not too many. -/
def Follows (chain : List String) (target : String) : Prop :=
  (chain ++ [target]).Nodup ∧ (chain ++ [target]).length ≤ maxRefDepth

/-- The entries of `r`, overridden by those of the node apart from its reference. -/
def Refines (siblings : Fields ν) (r out : Fields ν) : Prop :=
  ∀ k, find k out = if k = "$ref" then find k r else (find k siblings).or (find k r)

/-- `out` is a node with every reference at the end of a chain of definitions replaced. -/
inductive Inlined (defs : Fields ν) : List String → Json ν → Json ν → Prop
  | leaf {chain} {v : Json ν} (harr : ∀ items, v ≠ .arr items) (hobj : ∀ o, v ≠ .obj o) :
      Inlined defs chain v v
  | arr {chain} {items : List (Json ν)} (f : Json ν → Json ν)
      (h : ∀ n ∈ items, Inlined defs chain n (f n)) :
      Inlined defs chain (.arr items) (.arr (items.map f))
  | obj {chain} {o : Fields ν} (f : Json ν → Json ν) (plain : ∀ t, find "$ref" o ≠ some (.str t))
      (h : ∀ e ∈ o, Inlined defs chain e.2 (f e.2)) :
      Inlined defs chain (.obj o) (.obj (o.map fun e => (e.1, f e.2)))
  | refined {chain} {o r out : Fields ν} {t d} (f : Json ν → Json ν)
      (ref : find "$ref" o = some (.str t)) (definition : find t defs = some d)
      (follows : Follows chain t) (inner : Inlined defs (chain ++ [t]) d (.obj r))
      (siblings : ∀ e ∈ o, Inlined defs chain e.2 (f e.2))
      (refines : Refines (o.map fun e => (e.1, f e.2)) r out) :
      Inlined defs chain (.obj o) (.obj out)
  | replaced {chain} {o : Fields ν} {t d out} (ref : find "$ref" o = some (.str t))
      (definition : find t defs = some d) (follows : Follows chain t)
      (inner : Inlined defs (chain ++ [t]) d out) (other : ∀ r, out ≠ .obj r) :
      Inlined defs chain (.obj o) out
  | beyond {chain} {o : Fields ν} {t} (ref : find "$ref" o = some (.str t))
      (h : find t defs = none ∨ ¬ Follows chain t) : Inlined defs chain (.obj o) (generic o)

/-! ## The cases of inlining -/

variable {defs : Fields ν} {stack : List String}

theorem deref_leaf {v : Json ν} (harr : ∀ items, v ≠ .arr items) (hobj : ∀ o, v ≠ .obj o) :
    deref defs (stack, v) = v := by
  rw [deref_eq]
  cases v with
  | arr items => exact absurd rfl (harr items)
  | obj o => exact absurd rfl (hobj o)
  | _ => rfl

theorem deref_arr (items : List (Json ν)) :
    deref defs (stack, .arr items) = .arr (items.map fun n => deref defs (stack, n)) := by
  rw [deref_eq]
  rfl

theorem deref_plain {o : Fields ν} (plain : ∀ t, find "$ref" o ≠ some (.str t)) :
    deref defs (stack, .obj o) = .obj (o.map fun e => (e.1, deref defs (stack, e.2))) := by
  rw [deref_eq, derefBody]
  split
  · next t ht => exact absurd ht (plain t)
  · rfl

theorem deref_ref {o : Fields ν} {t : String} (ref : find "$ref" o = some (.str t)) :
    deref defs (stack, .obj o) = inlineRef defs (deref defs) stack o t := by
  rw [deref_eq, derefBody]
  simp only [ref]

theorem follows_iff (hn : stack.Nodup) (t : String) :
    Follows stack t ↔ ¬ (maxRefDepth ≤ stack.length ∨ t ∈ stack) := by
  rw [Follows, List.nodup_append, List.length_append, List.length_singleton]
  constructor
  · rintro ⟨⟨-, -, hne⟩, hlen⟩ (hdeep | hmem)
    · omega
    · exact hne t hmem t (List.mem_singleton_self t) rfl
  · intro h
    rw [not_or] at h
    refine ⟨⟨hn, List.pairwise_singleton _ t, ?_⟩, by omega⟩
    intro a ha b hb hab
    rw [List.mem_singleton] at hb
    exact h.2 (hb ▸ hab ▸ ha)

/-- The entries of the node, without the reference, put into those of the definition. -/
def override (node : Fields ν) (f : Json ν → Json ν) (r : Fields ν) : Fields ν :=
  node.foldl (fun r e => if e.1 = "$ref" then r else mapInsert e.1 (f e.2) r) r

theorem deref_generic {o : Fields ν} {t : String} (ref : find "$ref" o = some (.str t))
    (h : find t defs = none ∨ maxRefDepth ≤ stack.length ∨ t ∈ stack) :
    deref defs (stack, .obj o) = generic o := by
  rw [deref_ref ref, inlineRef]
  cases hd : find t defs with
  | none => rfl
  | some d =>
    have hcut : maxRefDepth ≤ stack.length ∨ t ∈ stack := by simpa [hd] using h
    simp only [if_pos hcut]

theorem deref_override {o r : Fields ν} {t : String} {d : Json ν}
    (ref : find "$ref" o = some (.str t)) (hd : find t defs = some d)
    (h : ¬ (maxRefDepth ≤ stack.length ∨ t ∈ stack))
    (hr : deref defs (stack ++ [t], d) = .obj r) :
    deref defs (stack, .obj o) = .obj (override o (fun v => deref defs (stack, v)) r) := by
  rw [deref_ref ref, inlineRef, hd]
  simp only [if_neg h, hr]
  rfl

theorem deref_replace {o : Fields ν} {t : String} {d : Json ν}
    (ref : find "$ref" o = some (.str t)) (hd : find t defs = some d)
    (h : ¬ (maxRefDepth ≤ stack.length ∨ t ∈ stack))
    (hr : ∀ r, deref defs (stack ++ [t], d) ≠ .obj r) :
    deref defs (stack, .obj o) = deref defs (stack ++ [t], d) := by
  rw [deref_ref ref, inlineRef, hd]
  simp only [if_neg h]

/-- The three ways a reference ends. -/
theorem deref_ref_cases {o : Fields ν} {t : String} (ref : find "$ref" o = some (.str t)) :
    (find t defs = none ∨ maxRefDepth ≤ stack.length ∨ t ∈ stack) ∧
        deref defs (stack, .obj o) = generic o ∨
      ∃ d, find t defs = some d ∧ ¬ (maxRefDepth ≤ stack.length ∨ t ∈ stack) ∧
        ((∃ r, deref defs (stack ++ [t], d) = .obj r ∧ deref defs (stack, .obj o) =
            .obj (override o (fun v => deref defs (stack, v)) r)) ∨
          (∀ r, deref defs (stack ++ [t], d) ≠ .obj r) ∧
            deref defs (stack, .obj o) = deref defs (stack ++ [t], d)) := by
  by_cases hcut : find t defs = none ∨ maxRefDepth ≤ stack.length ∨ t ∈ stack
  · exact .inl ⟨hcut, deref_generic ref hcut⟩
  · rw [not_or] at hcut
    obtain ⟨d, hd⟩ := Option.ne_none_iff_exists'.mp hcut.1
    refine .inr ⟨d, hd, hcut.2, ?_⟩
    by_cases hobj : ∃ r, deref defs (stack ++ [t], d) = .obj r
    · obtain ⟨r, hr⟩ := hobj
      exact .inl ⟨r, hr, deref_override ref hd hcut.2 hr⟩
    · have hother := not_exists.mp hobj
      exact .inr ⟨hother, deref_replace ref hd hcut.2 hother⟩

/-- The induction of inlining: below a reference come its definition and the entries beside it. -/
theorem deref_induct {P : List String → Json ν → Prop}
    (leaf : ∀ stack v, (∀ items, v ≠ .arr items) → (∀ o, v ≠ .obj o) → P stack v)
    (arr : ∀ stack items, (∀ n ∈ items, P stack n) → P stack (.arr items))
    (obj : ∀ stack o, (∀ e ∈ o, P stack e.2) →
      (∀ t d, find t defs = some d → ¬ (maxRefDepth ≤ stack.length ∨ t ∈ stack) →
        P (stack ++ [t]) d) → P stack (.obj o)) (stack : List String) (node : Json ν) :
    P stack node := by
  induction hm : derefMeasure defs (stack, node) using Nat.strong_induction_on
    generalizing stack node with
  | _ m ih =>
    subst hm
    cases node with
    | arr items =>
      apply arr
      intro n hn
      exact ih _ (derefMeasure_below (depth_elem hn)) stack n rfl
    | obj o =>
      apply obj
      · intro e he
        exact ih _ (derefMeasure_below (depth_entry he)) stack e.2 rfl
      · intro t d hd hcut
        exact ih _ (derefMeasure_definition hd hcut) (stack ++ [t]) d rfl
    | _ => exact leaf stack _ (by simp) (by simp)

/-! ## No reference is left -/

variable {voc : Vocabulary}

theorem under_of_text {k : String} (hk : k ∈ ["description", "$ref"]) (v : Json ν) :
    voc.under k v = [] := by
  obtain ⟨h₁, h₂, h₃⟩ := voc.text k hk
  simp only [Vocabulary.under, if_neg h₁, if_neg h₂, if_neg h₃, List.append_nil]

theorem mem_under {k : String} {v c : Json ν} : c ∈ voc.under k v ↔
    (k ∈ voc.single ∧ c = v) ∨ (k ∈ voc.list ∧ ∃ items, v = .arr items ∧ c ∈ items) ∨
      (k ∈ voc.named ∧ ∃ o e, v = .obj o ∧ e ∈ o ∧ c = e.2) := by
  rw [Vocabulary.under, List.mem_append, List.mem_append, or_assoc]
  refine or_congr ?_ (or_congr ?_ ?_)
  · split_ifs with hk <;> simp [hk]
  · split_ifs with hk
    · cases v <;> simp [elements, hk]
    · simp [hk]
  · split_ifs with hk
    · cases v with
      | obj o =>
        simp only [entries, Option.getD_some, List.mem_map, hk, true_and]
        constructor
        · rintro ⟨e, he, rfl⟩
          exact ⟨o, e, rfl, he, rfl⟩
        · rintro ⟨o', e, ho, he, rfl⟩
          cases ho
          exact ⟨e, he, rfl⟩
      | _ => simp [entries]
    · simp [hk]

theorem refFree_leaf {v : Json ν} (harr : ∀ items, v ≠ .arr items) (hobj : ∀ o, v ≠ .obj o) :
    RefFree voc v := by
  constructor
  · cases v with
    | obj o => exact absurd rfl (hobj o)
    | _ => rfl
  · intro c hc
    cases v with
    | arr items => exact absurd rfl (harr items)
    | obj o => exact absurd rfl (hobj o)
    | _ => cases hc

theorem refFree_arr {items : List (Json ν)} (h : ∀ n ∈ items, RefFree voc n) :
    RefFree voc (.arr items) := ⟨rfl, h⟩

theorem RefFree.elem {items : List (Json ν)} (h : RefFree voc (.arr items)) :
    ∀ n ∈ items, RefFree voc n := by
  cases h with
  | mk ref below => exact below

theorem refFree_obj {o : Fields ν} :
    RefFree voc (.obj o) ↔
      find "$ref" o = none ∧ ∀ e ∈ o, ∀ c ∈ voc.under e.1 e.2, RefFree voc c := by
  constructor
  · intro h
    cases h with
    | mk ref below =>
      exact ⟨ref, fun e he c hc => below c (List.mem_flatMap.mpr ⟨e, he, hc⟩)⟩
  · rintro ⟨ref, below⟩
    refine ⟨ref, fun c hc => ?_⟩
    obtain ⟨e, he, hc⟩ := List.mem_flatMap.mp hc
    exact below e he c hc

theorem RefFree.mapInsert {o : Fields ν} (h : RefFree voc (.obj o)) {k : String} {v : Json ν}
    (hk : k ≠ "$ref") (hv : ∀ c ∈ voc.under k v, RefFree voc c) :
    RefFree voc (.obj (mapInsert k v o)) := by
  rw [refFree_obj] at h ⊢
  constructor
  · rw [find_mapInsert_of_ne (Ne.symm hk), h.1]
  · intro e he
    rcases mem_mapInsert he with rfl | he
    · exact hv
    · exact h.2 e he

theorem refFree_generic (o : Fields ν) : RefFree voc (generic o) := by
  have htyped : RefFree voc (.obj [("type", (.str "object" : Json ν))]) := by
    refine refFree_obj.mpr ⟨rfl, fun e he c hc => ?_⟩
    rw [List.mem_singleton] at he
    subst he
    rcases mem_under.mp hc with ⟨-, rfl⟩ | ⟨-, items, ho, -⟩ | ⟨-, o, e, ho, -⟩
    · exact refFree_leaf (by simp) (by simp)
    · cases ho
    · cases ho
  rw [generic]
  cases find "description" o with
  | none => exact htyped
  | some d =>
    apply htyped.mapInsert (by decide)
    rw [under_of_text (by simp)]
    simp

theorem RefFree.override {node r : Fields ν} (f : Json ν → Json ν) (hr : RefFree voc (.obj r))
    (h : ∀ e ∈ node, ∀ c ∈ voc.under e.1 (f e.2), RefFree voc c) :
    RefFree voc (.obj (override node f r)) := by
  induction node generalizing r with
  | nil => exact hr
  | cons e node ih =>
    rw [GeminiSchema.override, List.foldl_cons]
    apply ih
    · split_ifs with hk
      · exact hr
      · exact hr.mapInsert hk (h e List.mem_cons_self)
    · intro e' he'
      exact h e' (List.mem_cons_of_mem _ he')

theorem not_isSchema_str (t : String) : ¬ IsSchema voc (.str t : Json ν) := by
  intro h
  cases h

theorem IsSchema.subschemas {o : Fields ν} (h : IsSchema voc (.obj o)) :
    ∀ e ∈ o, ∀ c ∈ voc.under e.1 e.2, IsSchema voc c := by
  cases h with
  | object ref below => exact below

theorem IsSchema.ref {o : Fields ν} (h : IsSchema voc (.obj o)) :
    ∀ v, find "$ref" o = some v → ∃ t, v = .str t := by
  cases h with
  | object ref below => exact ref

theorem IsSchema.elem {items : List (Json ν)} (h : IsSchema voc (.arr items)) :
    ∀ n ∈ items, IsSchema voc n := by
  cases h with
  | tuple items_schemas => exact items_schemas

/-- Inlining leaves no reference in a schema, and none in what a keyword holds. -/
def Clears (voc : Vocabulary) (defs : Fields ν) (stack : List String) (node : Json ν) : Prop :=
  (IsSchema voc node → RefFree voc (deref defs (stack, node))) ∧
    ∀ k, (∀ c ∈ voc.under k node, IsSchema voc c) →
      ∀ c ∈ voc.under k (deref defs (stack, node)), RefFree voc c

theorem clears_arr {items : List (Json ν)} (ih : ∀ n ∈ items, Clears voc defs stack n) :
    Clears voc defs stack (.arr items) := by
  have hfree : IsSchema voc (.arr items) → RefFree voc (deref defs (stack, .arr items)) := by
    intro h
    rw [deref_arr]
    apply refFree_arr
    intro c hc
    obtain ⟨n, hn, rfl⟩ := List.mem_map.mp hc
    exact (ih n hn).1 (h.elem n hn)
  refine ⟨hfree, fun k hk c hc => ?_⟩
  rcases mem_under.mp hc with ⟨hs, rfl⟩ | ⟨hl, out, hout, hc⟩ | ⟨-, o, e, ho, -⟩
  · exact hfree (hk _ (mem_under.mpr (.inl ⟨hs, rfl⟩)))
  · rw [deref_arr] at hout
    cases hout
    obtain ⟨n, hn, rfl⟩ := List.mem_map.mp hc
    exact (ih n hn).1 (hk n (mem_under.mpr (.inr (.inl ⟨hl, items, rfl, hn⟩))))
  · rw [deref_arr] at ho
    cases ho

theorem clears_plain {o : Fields ν} (plain : ∀ t, find "$ref" o ≠ some (.str t))
    (ih : ∀ e ∈ o, Clears voc defs stack e.2) : Clears voc defs stack (.obj o) := by
  have hfree : IsSchema voc (.obj o) → RefFree voc (deref defs (stack, .obj o)) := by
    intro h
    rw [deref_plain plain, refFree_obj]
    constructor
    · rw [find_map (fun _ v => deref defs (stack, v)), Option.map_eq_none_iff]
      by_contra hne
      obtain ⟨v, hv⟩ := Option.ne_none_iff_exists'.mp hne
      obtain ⟨t, rfl⟩ := h.ref v hv
      exact plain t hv
    · intro e' he'
      obtain ⟨e, he, rfl⟩ := List.mem_map.mp he'
      exact (ih e he).2 e.1 (h.subschemas e he)
  refine ⟨hfree, fun k hk c hc => ?_⟩
  rcases mem_under.mp hc with ⟨hs, rfl⟩ | ⟨-, items, hitems, -⟩ | ⟨hn, out, e', hout, he', rfl⟩
  · exact hfree (hk _ (mem_under.mpr (.inl ⟨hs, rfl⟩)))
  · rw [deref_plain plain] at hitems
    cases hitems
  · rw [deref_plain plain] at hout
    cases hout
    obtain ⟨e, he, rfl⟩ := List.mem_map.mp he'
    exact (ih e he).1 (hk e.2 (mem_under.mpr (.inr (.inr ⟨hn, o, e, rfl, he, rfl⟩))))

theorem clears_ref {o : Fields ν} {t : String} (ref : find "$ref" o = some (.str t))
    (hdefs : ∀ t d, find t defs = some d → IsSchema voc d)
    (ih : ∀ e ∈ o, Clears voc defs stack e.2)
    (ihdef : ∀ t d, find t defs = some d → ¬ (maxRefDepth ≤ stack.length ∨ t ∈ stack) →
      Clears voc defs (stack ++ [t]) d) : Clears voc defs stack (.obj o) := by
  have hinner : ∀ d, find t defs = some d → ¬ (maxRefDepth ≤ stack.length ∨ t ∈ stack) →
      RefFree voc (deref defs (stack ++ [t], d)) := fun d hd hcut =>
    (ihdef t d hd hcut).1 (hdefs t d hd)
  have hfree : IsSchema voc (.obj o) → RefFree voc (deref defs (stack, .obj o)) := by
    intro h
    rcases deref_ref_cases ref with
      ⟨-, heq⟩ | ⟨d, hd, hcut, ⟨r, hr, heq⟩ | ⟨-, heq⟩⟩
    · rw [heq]
      exact refFree_generic o
    · have hbase := hinner d hd hcut
      rw [hr] at hbase
      rw [heq]
      exact hbase.override _ fun e he => (ih e he).2 e.1 (h.subschemas e he)
    · rw [heq]
      exact hinner d hd hcut
  refine ⟨hfree, fun k hk c hc => ?_⟩
  rcases mem_under.mp hc with ⟨hs, rfl⟩ | ⟨-, items, hitems, hc⟩ | ⟨hn, -⟩
  · exact hfree (hk _ (mem_under.mpr (.inl ⟨hs, rfl⟩)))
  · rcases deref_ref_cases ref with
      ⟨-, heq⟩ | ⟨d, hd, hcut, ⟨r, -, heq⟩ | ⟨-, heq⟩⟩
    · rw [heq] at hitems
      cases hitems
    · rw [heq] at hitems
      cases hitems
    · have hbase := hinner d hd hcut
      rw [← heq, hitems] at hbase
      exact hbase.elem c hc
  · -- The reference itself would have to be a schema.
    have href := hk _ (mem_under.mpr (.inr (.inr ⟨hn, o, _, rfl, mem_of_find ref, rfl⟩)))
    exact absurd href (not_isSchema_str t)

theorem clears (hdefs : ∀ t d, find t defs = some d → IsSchema voc d) (stack : List String)
    (node : Json ν) : Clears voc defs stack node := by
  induction stack, node using @deref_induct ν defs with
  | leaf stack v harr hobj =>
    have hfree : RefFree voc v := refFree_leaf harr hobj
    rw [Clears, deref_leaf harr hobj]
    refine ⟨fun _ => hfree, fun k hk c hc => ?_⟩
    rcases mem_under.mp hc with ⟨-, rfl⟩ | ⟨-, items, ho, -⟩ | ⟨-, o, e, ho, -⟩
    · exact hfree
    · exact absurd ho (harr items)
    · exact absurd ho (hobj o)
  | arr stack items ih => exact clears_arr ih
  | obj stack o ih ihdef =>
    by_cases plain : ∀ t, find "$ref" o ≠ some (.str t)
    · exact clears_plain plain ih
    · obtain ⟨t, ht⟩ := not_forall.mp plain
      exact clears_ref (not_not.mp ht) hdefs ih ihdef

/-! ## References are replaced -/

theorem override_refines {node : Fields ν} (hn : (node.map Prod.fst).Nodup) (f : Json ν → Json ν)
    (r : Fields ν) : Refines (node.map fun e => (e.1, f e.2)) r (override node f r) := by
  intro k
  induction node generalizing r with
  | nil => simp [override]
  | cons e node ih =>
    obtain ⟨l, v⟩ := e
    rw [List.map_cons, List.nodup_cons] at hn
    rw [override, List.foldl_cons, ← override, ih hn.2, List.map_cons, find_cons]
    by_cases hk : k = "$ref"
    · rw [if_pos hk, if_pos hk]
      split_ifs with hl
      · rfl
      · exact find_mapInsert_of_ne (fun h => hl (h.symm.trans hk)) _ _
    · rw [if_neg hk, if_neg hk]
      by_cases hl : l = k
      · have hnone : find k (node.map fun e => (e.1, f e.2)) = none := by
          rw [find_map (fun _ v => f v), Option.map_eq_none_iff, find_eq_none_iff]
          exact fun hmem => hn.1 (hl ▸ hmem)
        rw [if_pos hl, hnone, if_neg (fun h => hk (hl ▸ h)), hl, find_mapInsert_self]
        rfl
      · rw [if_neg hl]
        split_ifs with href
        · rfl
        · rw [find_mapInsert_of_ne (Ne.symm hl)]

theorem inlined_deref (hdefs : ∀ t d, find t defs = some d → wellFormed d = true)
    (stack : List String) (node : Json ν) (hn : stack.Nodup) (hwf : wellFormed node = true) :
    Inlined defs stack node (deref defs (stack, node)) := by
  induction stack, node using @deref_induct ν defs with
  | leaf stack v harr hobj =>
    rw [deref_leaf harr hobj]
    exact .leaf harr hobj
  | arr stack items ih =>
    rw [deref_arr]
    exact .arr (fun v => deref defs (stack, v)) fun n hmem => ih n hmem hn (wellFormed_elem hwf hmem)
  | obj stack o ih ihdef =>
    have hbelow : ∀ e ∈ o, Inlined defs stack e.2 (deref defs (stack, e.2)) := by
      intro e he
      simp only [wellFormed, Bool.and_eq_true] at hwf
      exact ih e he hn (wellFormedFields_iff.mp hwf.2 e.1 e.2 he)
    by_cases plain : ∀ t, find "$ref" o ≠ some (.str t)
    · rw [deref_plain plain]
      exact .obj (fun v => deref defs (stack, v)) plain hbelow
    · obtain ⟨t, ht⟩ := not_forall.mp plain
      have ref := not_not.mp ht
      rcases deref_ref_cases ref with ⟨hcut, heq⟩ | ⟨d, hd, hcut, hout⟩
      · rw [heq]
        refine .beyond ref (hcut.imp_right fun h => ?_)
        rw [follows_iff hn, not_not]
        exact h
      · have follows := (follows_iff hn t).mpr hcut
        have inner := ihdef t d hd hcut follows.1 (hdefs t d hd)
        rcases hout with ⟨r, hr, heq⟩ | ⟨hother, heq⟩
        · rw [hr] at inner
          rw [heq]
          exact .refined (fun v => deref defs (stack, v)) ref hd follows inner hbelow
            (override_refines (wellFormed_nodup hwf) _ r)
        · rw [heq]
          exact .replaced ref hd follows inner hother

/-! ## The whole schema -/

theorem definitions_values {P : Json ν → Prop} {o : Fields ν}
    (h : ∀ k ∈ ["$defs", "definitions"], ∀ m, find k o = some (.obj m) → ∀ e ∈ m, P e.2) :
    ∀ t d, find t (definitions (.obj o)) = some d → P d := by
  have hinner : ∀ k, ∀ m defs : Fields ν, (∀ e ∈ m, P e.2) → (∀ e ∈ defs, P e.2) →
      ∀ e ∈ m.foldl (fun defs e => mapInsert ("#/" ++ k ++ "/" ++ e.1) e.2 defs) defs, P e.2 := by
    intro k m defs hm hdefs
    induction m generalizing defs with
    | nil => exact hdefs
    | cons e m ih =>
      apply ih
      · exact fun e' he' => hm e' (List.mem_cons_of_mem _ he')
      · intro e' he'
        rcases mem_mapInsert he' with rfl | he'
        · exact hm e List.mem_cons_self
        · exact hdefs e' he'
  have hentries : ∀ k ∈ ["$defs", "definitions"], ∀ e ∈ (entries (find k o)).getD [], P e.2 := by
    intro k hk e he
    cases hv : find k o with
    | none => simp [hv, entries] at he
    | some v =>
      cases v with
      | obj m => exact h k hk m hv e (by simpa [hv, entries] using he)
      | _ => simp [hv, entries] at he
  intro t d hd
  have hfirst := hinner "$defs" _ [] (hentries "$defs" (by simp)) (by simp)
  have hall := hinner "definitions" _ _ (hentries "definitions" (by simp)) hfirst
  exact hall _ (mem_of_find hd)

theorem isSchema_definitions {root : Json ν} (h : IsSchema voc root) :
    ∀ t d, find t (definitions root) = some d → IsSchema voc d := by
  cases root with
  | obj o =>
    apply definitions_values
    intro k hk m hm e he
    apply h.subschemas _ (mem_of_find hm)
    exact mem_under.mpr (.inr (.inr ⟨voc.defs hk, m, e, rfl, he, rfl⟩))
  | _ =>
    intro t d hd
    cases hd

theorem wellFormed_definitions {root : Json ν} (h : wellFormed root = true) :
    ∀ t d, find t (definitions root) = some d → wellFormed d = true := by
  cases root with
  | obj o =>
    apply definitions_values
    intro k _ m hm e he
    have hwf := wellFormed_find h hm
    simp only [wellFormed, Bool.and_eq_true] at hwf
    exact wellFormedFields_iff.mp hwf.2 e.1 e.2 he
  | _ =>
    intro t d hd
    cases hd

/-- The result at the root, which keeps no definitions. -/
def withoutDefinitions : Json ν → Json ν
  | .obj o => .obj (remove "definitions" (remove "$defs" o))
  | out => out

theorem RefFree.remove {o : Fields ν} (h : RefFree voc (.obj o)) (k : String) :
    RefFree voc (.obj (remove k o)) := by
  rw [refFree_obj] at h ⊢
  constructor
  · rw [find_remove, h.1, ite_self]
  · exact fun e he => h.2 e (List.mem_of_mem_filter he)

theorem RefFree.withoutDefinitions {out : Json ν} (h : RefFree voc out) :
    RefFree voc (withoutDefinitions out) := by
  cases out with
  | obj o => exact (h.remove "$defs").remove "definitions"
  | _ => exact h

/-- What inlining makes of a schema. -/
structure Inlines (voc : Vocabulary) (root out : Json ν) : Prop where
  /-- The recursion is bounded, so it does not matter what a deeper call would return. -/
  ends : ∀ stop n, derefMeasure (definitions root) ([], root) < n →
    out = withoutDefinitions (rounds (derefBody (definitions root)) stop n ([], root))
  refFree : RefFree voc out
  inlined : ∃ node, Inlined (definitions root) [] root node ∧ out = withoutDefinitions node

theorem resolveRefs_inlines (voc : Vocabulary) (root : Json ν) (hwf : wellFormed root = true)
    (hs : IsSchema voc root) : Inlines voc root (resolveRefs root) := by
  have heq : resolveRefs root = withoutDefinitions (deref (definitions root) ([], root)) := rfl
  constructor
  · intro stop n hn
    rw [heq, deref, run, rounds_congr (derefBody_descends _) (Nat.lt_succ_self _) hn]
  · rw [heq]
    exact ((clears (isSchema_definitions hs) [] root).1 hs).withoutDefinitions
  · exact ⟨_, inlined_deref (wellFormed_definitions hwf) [] root List.nodup_nil hwf, heq⟩

/-- The keywords that the passes over a tool schema go through. -/
def toolVocabulary : Vocabulary where
  single := schemaKeys
  list := schemaListKeys
  named := schemaMapKeys
  defs := by simp [schemaMapKeys]
  text := by simp [schemaKeys, schemaListKeys, schemaMapKeys]

/-- A list of nodes, each of which refers to the next. -/
def linkedList : Json ℕ :=
  .obj [("$defs", .obj [("Node", .obj [("properties", .obj [("next",
      .obj [("$ref", .str "#/$defs/Node")])])])]),
    ("$ref", .str "#/$defs/Node"), ("description", .str "a list")]

theorem isSchema_linkedList : IsSchema toolVocabulary linkedList := by
  have hnext : IsSchema toolVocabulary (.obj [("$ref", .str "#/$defs/Node")] : Json ℕ) := by
    refine .object (by simp [find]) ?_
    simp [Vocabulary.under, toolVocabulary, schemaKeys, schemaListKeys, schemaMapKeys]
  have hnode : IsSchema toolVocabulary (.obj [("properties", .obj [("next",
      .obj [("$ref", .str "#/$defs/Node")])])] : Json ℕ) := by
    refine .object (by simp [find]) ?_
    simpa [Vocabulary.under, toolVocabulary, schemaKeys, schemaListKeys, schemaMapKeys, elements,
      entries] using hnext
  refine .object (by simp [find]) ?_
  simpa [Vocabulary.under, toolVocabulary, schemaKeys, schemaListKeys, schemaMapKeys, elements,
    entries] using hnode

theorem resolveRefs_inlines_linkedList :
    Inlines toolVocabulary linkedList (resolveRefs linkedList) :=
  resolveRefs_inlines toolVocabulary linkedList (by decide) isSchema_linkedList

/-- A definition that allows anything keeps nothing of what stands beside a reference to it. -/
theorem siblings_of_boolean_lost :
    ¬ ∀ (o : Fields ℕ) (t : String) (d : Json ℕ), IsSchema toolVocabulary (.obj o) →
      find "$ref" o = some (.str t) → find t (definitions (.obj o)) = some d →
      ∀ k v, find k o = some v → k ∉ ["$ref", "$defs", "definitions"] →
        ∃ w, get? (resolveRefs (.obj o)) k = some w := by
  intro h
  have hs : IsSchema toolVocabulary (.obj [("$defs", .obj [("Any", .bool true)]),
      ("$ref", .str "#/$defs/Any"), ("description", .str "a value")] : Json ℕ) := by
    refine .object (by simp [find]) ?_
    simpa [Vocabulary.under, toolVocabulary, schemaKeys, schemaListKeys, schemaMapKeys, elements,
      entries] using IsSchema.bool true
  obtain ⟨w, hw⟩ := h _ "#/$defs/Any" (.bool true) hs rfl (by decide) "description"
    (.str "a value") (by decide) (by decide)
  have hnone : get? (resolveRefs (.obj [("$defs", .obj [("Any", .bool true)]),
      ("$ref", .str "#/$defs/Any"), ("description", .str "a value")] : Json ℕ)) "description" = none := by
    decide
  rw [hnone] at hw
  cases hw

end FerrisScope.GeminiSchema
