import FerrisScope.LabelQueries
import FerrisScope.ListTraversals

/-!
# Queries of label selectors

The selector of a workload is written as a query for the pods it selects. A selector without terms has no query, nor has
one with an operator that is not known.
-/

namespace FerrisScope.SelectorQueries
open LabelQueries ListTraversals

structure LabelSelectorRequirement where
  key : Text
  operator : String
  values : Option (List Text)
  deriving DecidableEq, Repr

/-- The labels are in the order of their keys. -/
structure LabelSelector where
  matchLabels : Option (List (Text × Text))
  matchExpressions : Option (List LabelSelectorRequirement)
  deriving DecidableEq, Repr

def labelPart (p : Text × Text) : Text := p.1 ++ '=' :: p.2

def valueList (values : List Text) : Text := [','].intercalate values ++ [')']

def exprPart (e : LabelSelectorRequirement) : Option Text :=
  let values := e.values.getD []
  if e.operator = "In" then some (e.key ++ " in (".toList ++ valueList values)
  else if e.operator = "NotIn" then some (e.key ++ " notin (".toList ++ valueList values)
  else if e.operator = "Exists" then some e.key
  else if e.operator = "DoesNotExist" then some ('!' :: e.key)
  else none

def selectorQuery (sel : LabelSelector) : Option Text :=
  match (sel.matchExpressions.getD []).mapM exprPart with
  | none => none
  | some exprs =>
      let parts := (sel.matchLabels.getD []).map labelPart ++ exprs
      if parts = [] then none else some ([','].intercalate parts)

/-! ## The meaning of a selector -/

def LabelSelectorRequirement.Satisfied (e : LabelSelectorRequirement) (labels : Labels) : Prop :=
  (e.operator = "In" ∧ ∃ v ∈ e.values.getD [], labels e.key = some v) ∨
    (e.operator = "NotIn" ∧ ∀ v ∈ e.values.getD [], labels e.key ≠ some v) ∨
    (e.operator = "Exists" ∧ labels e.key ≠ none) ∨ (e.operator = "DoesNotExist" ∧ labels e.key = none)

def LabelSelector.Satisfied (sel : LabelSelector) (labels : Labels) : Prop :=
  (∀ p ∈ sel.matchLabels.getD [], labels p.1 = some p.2) ∧ ∀ e ∈ sel.matchExpressions.getD [], e.Satisfied labels

def operators : List String := ["In", "NotIn", "Exists", "DoesNotExist"]

/-- Keys and values obey the syntax of labels. -/
structure LabelSelector.Valid (sel : LabelSelector) : Prop where
  labels : ∀ p ∈ sel.matchLabels.getD [], isLabelKey p.1 = true ∧ isLabelValue p.2 = true
  expressions : ∀ e ∈ sel.matchExpressions.getD [], isLabelKey e.key = true ∧
    ∀ v ∈ e.values.getD [], isLabelValue v = true

/-- The requirements on values have some. -/
def LabelSelector.HasValues (sel : LabelSelector) : Prop :=
  ∀ e ∈ sel.matchExpressions.getD [], e.operator = "In" ∨ e.operator = "NotIn" → e.values.getD [] ≠ []

/-- The query selects what the selector means, and there is one unless there is no term or an unknown operator. -/
structure QueryAgrees (sel : LabelSelector) : Prop where
  selects : ∀ query, selectorQuery sel = some query → ∀ labels, Selects query labels ↔ sel.Satisfied labels
  none_iff : selectorQuery sel = none ↔
    (sel.matchLabels.getD [] = [] ∧ sel.matchExpressions.getD [] = []) ∨
      ∃ e ∈ sel.matchExpressions.getD [], e.operator ∉ operators

/-! ## The parts of a query -/

/-- A part of a query asks for this. -/
def Reads (part : Text) (P : Labels → Prop) : Prop :=
  IsBlock (tokens part) ∧ ∃ r, parseRequirement (tokens part) = some r ∧ ∀ labels, r.Matches labels ↔ P labels

section Parts

variable {key value : Text} {values : List Text}

theorem parseRequirement_eq {ts : List Token} {r : Requirement} (h : parseClause ts = some r) (hr : r.isValid = true) :
    parseRequirement ts = some r := by
  rw [parseRequirement, h, Option.filter_some, if_pos hr]

theorem reads_label (hkey : isLabelKey key = true) (hvalue : isLabelValue value = true) :
    Reads (labelPart (key, value)) fun labels => labels key = some value := by
  obtain ⟨hne, hword⟩ := isWord_key hkey
  have htokens : tokens (labelPart (key, value)) = .word key :: .equals :: flush value := by
    rw [labelPart, tokens_word hword, tokensFrom_symbol rfl rfl, flush_of_ne hne,
      ← List.append_nil value, tokens_word (isWord_value hvalue), tokensFrom, List.append_nil]
    rfl
  have hblock : ∀ ts, IsBlock ts → IsBlock (.word key :: .equals :: ts) := fun ts hts =>
    (hts.cons (by simp) (by simp)).cons (by simp) (by simp)
  have hclause : parseClause (.word key :: .equals :: flush value) = some (.oneOf key [value]) := by
    by_cases hnil : value = []
    · rw [hnil]
      rfl
    · rw [flush_of_ne hnil]
      rfl
  rw [Reads, htokens]
  constructor
  · apply hblock
    rw [flush]
    split
    · exact isBlock_nil
    · exact isBlock_nil.cons (by simp) (by simp)
  · exact ⟨_, parseRequirement_eq hclause (by simp [Requirement.isValid, hkey, hvalue]), by simp [Requirement.Matches]⟩

/-- A set of values behind a word. -/
theorem tokens_set (hkey : isLabelKey key = true) {op : Text} (hop : IsWord op) (hopne : op ≠ []) (rest : Text) :
    tokens (key ++ (' ' :: (op ++ " (".toList)) ++ rest) = .word key :: .word op :: .opening :: tokens rest := by
  obtain ⟨hne, hword⟩ := isWord_key hkey
  have hopening : tokens (op ++ ([' ', '('] ++ rest)) = .word op :: .opening :: tokens rest := by
    have hsymbol : tokens ('(' :: rest) = .opening :: tokens rest := tokensFrom_symbol rfl rfl [] rest
    rw [tokens_word hop, List.cons_append, tokensFrom_blank, flush_of_ne hopne, List.singleton_append, List.cons_append,
      List.nil_append, hsymbol]
  have hassoc : key ++ (' ' :: (op ++ " (".toList)) ++ rest = key ++ (' ' :: (op ++ ([' ', '('] ++ rest))) := by simp
  rw [hassoc, tokens_word hword, tokensFrom_blank, flush_of_ne hne, hopening]
  rfl

theorem closing_notMem_values (h : ∀ v ∈ values, isLabelValue v = true) : .closing ∉ tokens ([','].intercalate values) := by
  intro hmem
  rcases mem_tokensFrom hmem with ⟨v, hv⟩ | ⟨c, hc, hsymbol⟩
  · cases hv
  · rcases ListCuts.mem_intercalate hc with hcomma | ⟨v, hv, hc⟩
    · rw [List.mem_singleton.mp hcomma] at hsymbol
      cases hsymbol
    · rw [(isWord_value (h v hv) c hc).2] at hsymbol
      cases hsymbol

/-- A requirement on values, for both operators. -/
theorem reads_set (hkey : isLabelKey key = true) (hne : values ≠ []) (hvalues : ∀ v ∈ values, isLabelValue v = true)
    {op : Text} (hop : IsWord op) (hopne : op ≠ []) {r : Requirement} (hr : r.isValid = true)
    (hclause : ∀ ts, parseValues ts = some values → parseClause (.word key :: .word op :: .opening :: ts) = some r) :
    Reads (key ++ (' ' :: (op ++ " (".toList)) ++ valueList values) fun labels => r.Matches labels := by
  rw [Reads, tokens_set hkey hop hopne]
  constructor
  · rw [valueList, tokens_append_closing]
    exact ((isBlock_brackets (closing_notMem_values hvalues)).cons (by simp) (by simp)).cons (by simp) (by simp)
  · have hparse := parseValues_intercalate hne fun v hv => isWord_value (hvalues v hv)
    exact ⟨r, parseRequirement_eq (hclause _ hparse) hr, fun labels => Iff.rfl⟩

theorem reads_key (hkey : isLabelKey key = true) : Reads key fun labels => labels key ≠ none := by
  obtain ⟨hne, hword⟩ := isWord_key hkey
  have htokens : tokens key = [.word key] := by
    rw [← List.append_nil key, tokens_word hword, tokensFrom, List.append_nil, flush_of_ne hne]
  rw [Reads, htokens]
  exact ⟨isBlock_nil.cons (by simp) (by simp), .present key, parseRequirement_eq rfl hkey, fun _ => Iff.rfl⟩

theorem reads_notKey (hkey : isLabelKey key = true) : Reads ('!' :: key) fun labels => labels key = none := by
  obtain ⟨hne, hword⟩ := isWord_key hkey
  have hkeys : tokens key = [.word key] := by
    rw [← List.append_nil key, tokens_word hword, tokensFrom, List.append_nil, flush_of_ne hne]
  have htokens : tokens ('!' :: key) = [.bang, .word key] := by
    have hsymbol : tokens ('!' :: key) = .bang :: tokens key := tokensFrom_symbol rfl rfl [] key
    rw [hsymbol, hkeys]
  rw [Reads, htokens]
  exact ⟨(isBlock_nil.cons (by simp) (by simp)).cons (by simp) (by simp), .absent key, parseRequirement_eq rfl hkey,
    fun _ => Iff.rfl⟩

theorem Reads.congr {part : Text} {P Q : Labels → Prop} (h : Reads part P) (hPQ : ∀ labels, P labels ↔ Q labels) :
    Reads part Q := by
  obtain ⟨hblock, r, hr, hmatches⟩ := h
  exact ⟨hblock, r, hr, fun labels => (hmatches labels).trans (hPQ labels)⟩

/-- The part of an expression with a known operator. -/
theorem reads_expr {e : LabelSelectorRequirement} {part : Text} (hpart : exprPart e = some part)
    (hkey : isLabelKey e.key = true) (hvalues : ∀ v ∈ e.values.getD [], isLabelValue v = true)
    (hne : e.operator = "In" ∨ e.operator = "NotIn" → e.values.getD [] ≠ []) : Reads part e.Satisfied := by
  have hin : IsWord "in".toList := isWord_value (by decide)
  have hnotin : IsWord "notin".toList := isWord_value (by decide)
  have hvalid : (isLabelKey e.key && (e.values.getD []).all isLabelValue) = true := by
    rw [hkey, Bool.true_and, List.all_eq_true]
    exact hvalues
  rw [exprPart] at hpart
  split at hpart
  · next hop =>
    have hread := reads_set hkey (hne (Or.inl hop)) hvalues hin (by decide) (r := .oneOf e.key (e.values.getD [])) hvalid
      fun ts hts => by rw [parseClause, if_pos rfl, hts]; rfl
    exact Option.some_inj.mp hpart ▸ hread.congr fun labels => by
      simp [LabelSelectorRequirement.Satisfied, hop, Requirement.Matches]
  · split at hpart
    · next hop =>
      have hread := reads_set hkey (hne (Or.inr hop)) hvalues hnotin (by decide) (r := .noneOf e.key (e.values.getD []))
        hvalid fun ts hts => by rw [parseClause, if_neg (by decide), if_pos rfl, hts]; rfl
      exact Option.some_inj.mp hpart ▸ hread.congr fun labels => by
        simp [LabelSelectorRequirement.Satisfied, hop, Requirement.Matches]
    · split at hpart
      · next hop =>
        exact Option.some_inj.mp hpart ▸ (reads_key hkey).congr fun labels => by
          simp [LabelSelectorRequirement.Satisfied, hop]
      · split at hpart
        · next hop =>
          exact Option.some_inj.mp hpart ▸ (reads_notKey hkey).congr fun labels => by
            simp [LabelSelectorRequirement.Satisfied, hop]
        · cases hpart

theorem exprPart_eq_none {e : LabelSelectorRequirement} : exprPart e = none ↔ e.operator ∉ operators := by
  rw [exprPart, operators]
  split_ifs with hin hnotin hexists habsent
  · simp [hin]
  · simp [hnotin]
  · simp [hexists]
  · simp [habsent]
  · simp [hin, hnotin, hexists, habsent]

end Parts

/-! ## The whole query -/

section Queries

variable {parts : List Text} {Ps : List (Labels → Prop)}

theorem isBlock_parts (h : List.Forall₂ Reads parts Ps) : ∀ ts ∈ parts.map tokens, IsBlock ts := by
  induction h with
  | nil => exact List.forall_mem_nil _
  | cons hread _ ih => exact List.forall_mem_cons.mpr ⟨hread.1, ih⟩

/-- The requirements of the parts ask for all that the parts ask for. -/
theorem parse_parts (h : List.Forall₂ Reads parts Ps) (labels : Labels) :
    ∃ requirements, (parts.map tokens).mapM parseRequirement = some requirements ∧
      ((∀ r ∈ requirements, r.Matches labels) ↔ ∀ P ∈ Ps, P labels) := by
  induction h with
  | nil => exact ⟨[], rfl, by simp⟩
  | cons hread _ ih =>
    obtain ⟨-, r, hr, hmatches⟩ := hread
    obtain ⟨requirements, hrequirements, hall⟩ := ih
    refine ⟨r :: requirements, ?_, ?_⟩
    · simp [hr, hrequirements]
    · rw [List.forall_mem_cons, List.forall_mem_cons, hall, hmatches]

/-- Parts between commas ask for all that the parts ask for. -/
theorem selects_intercalate (hne : parts ≠ []) (h : List.Forall₂ Reads parts Ps) (labels : Labels) :
    Selects ([','].intercalate parts) labels ↔ ∀ P ∈ Ps, P labels := by
  obtain ⟨requirements, hrequirements, hall⟩ := parse_parts h labels
  have hquery : parseQuery ([','].intercalate parts) = some requirements := by
    rw [parseQuery, tokens_intercalate hne, clauses_intercalate (by simpa using hne) (isBlock_parts h), hrequirements]
  rw [Selects, hquery, ← hall]
  simp

end Queries

theorem selectorQuery_eq_none (sel : LabelSelector) : selectorQuery sel = none ↔
    (sel.matchLabels.getD [] = [] ∧ sel.matchExpressions.getD [] = []) ∨
      ∃ e ∈ sel.matchExpressions.getD [], e.operator ∉ operators := by
  have hunknown : (sel.matchExpressions.getD []).mapM exprPart = none ↔
      ∃ e ∈ sel.matchExpressions.getD [], e.operator ∉ operators := by
    simp only [mapM_eq_none, exprPart_eq_none]
  rw [← hunknown, selectorQuery]
  cases hexprs : (sel.matchExpressions.getD []).mapM exprPart with
  | none => simp
  | some exprs =>
    have hlength := (mapM_eq_some hexprs).length_eq
    have hnil : exprs = [] ↔ sel.matchExpressions.getD [] = [] := by
      rw [← List.length_eq_zero_iff, ← hlength, List.length_eq_zero_iff]
    simp [hnil]

/-- A query is a part for each term. -/
theorem reads_parts {sel : LabelSelector} (hvalid : sel.Valid) (hvalues : sel.HasValues) {exprs : List Text}
    (hexprs : (sel.matchExpressions.getD []).mapM exprPart = some exprs) :
    List.Forall₂ Reads ((sel.matchLabels.getD []).map labelPart ++ exprs)
      ((sel.matchLabels.getD []).map (fun p labels => labels p.1 = some p.2) ++
        (sel.matchExpressions.getD []).map LabelSelectorRequirement.Satisfied) := by
  apply List.rel_append
  · rw [List.forall₂_map_left_iff, List.forall₂_map_right_iff, List.forall₂_same]
    exact fun p hp => reads_label (hvalid.labels p hp).1 (hvalid.labels p hp).2
  · rw [List.forall₂_map_right_iff]
    have hparts := mapM_eq_some hexprs
    have hall : ∀ e ∈ sel.matchExpressions.getD [], (isLabelKey e.key = true ∧
        ∀ v ∈ e.values.getD [], isLabelValue v = true) ∧
        (e.operator = "In" ∨ e.operator = "NotIn" → e.values.getD [] ≠ []) := fun e he =>
      ⟨hvalid.expressions e he, hvalues e he⟩
    clear hexprs
    generalize sel.matchExpressions.getD [] = es at hparts hall
    induction hparts with
    | nil => exact .nil
    | cons hpart _ ih =>
      obtain ⟨⟨⟨hkey, hsyntax⟩, hne⟩, hrest⟩ := List.forall_mem_cons.mp hall
      exact .cons (reads_expr hpart hkey hsyntax hne) (ih hrest)

/-- The query of a selector selects what the selector means, when its requirements on values have some. -/
theorem query_agrees {sel : LabelSelector} (hvalid : sel.Valid) (hvalues : sel.HasValues) : QueryAgrees sel := by
  refine ⟨fun query hquery labels => ?_, selectorQuery_eq_none sel⟩
  rw [selectorQuery] at hquery
  split at hquery
  · cases hquery
  · next exprs hexprs =>
    dsimp only at hquery
    split at hquery
    · cases hquery
    · next hne =>
      rw [← Option.some_inj.mp hquery, selects_intercalate hne (reads_parts hvalid hvalues hexprs), LabelSelector.Satisfied,
        List.forall_mem_append, List.forall_mem_map, List.forall_mem_map]

def webSelector : LabelSelector :=
  ⟨some [("app".toList, "web".toList), ("zone".toList, [])], some [⟨"tier".toList, "In", some ["a".toList, []]⟩]⟩

theorem query_agrees_web : QueryAgrees webSelector := by
  refine query_agrees ⟨?_, ?_⟩ ?_
  · intro p hp
    simp only [webSelector, Option.getD_some, List.mem_cons, List.not_mem_nil, or_false] at hp
    rcases hp with rfl | rfl <;> decide
  · intro e he
    rw [List.mem_singleton.mp he]
    exact ⟨by decide, by decide⟩
  · intro e he _
    rw [List.mem_singleton.mp he]
    exact List.cons_ne_nil _ _

/-- A requirement without values asks for the empty value. -/
def noValues : LabelSelector := ⟨none, some [⟨"app".toList, "In", none⟩]⟩

theorem noValues_disagree : ¬ ∀ sel : LabelSelector, sel.Valid → QueryAgrees sel := by
  intro h
  have hvalid : noValues.Valid := by
    refine ⟨fun p hp => ?_, fun e he => ?_⟩
    · cases hp
    · rw [List.mem_singleton.mp he]
      exact ⟨by decide, fun v hv => by cases hv⟩
  have hquery : selectorQuery noValues = some "app in ()".toList := by decide
  have hselects : Selects "app in ()".toList fun _ => some [] :=
    ⟨[.oneOf "app".toList [[]]], by decide, by simp [Requirement.Matches]⟩
  have hsatisfied := ((h noValues hvalid).selects _ hquery _).mp hselects
  have hnot := hsatisfied.2 _ (List.mem_singleton.mpr rfl)
  rcases hnot with ⟨-, v, hv, -⟩ | ⟨hop, -⟩ | ⟨hop, -⟩ | ⟨hop, -⟩
  · cases hv
  all_goals exact absurd hop (by decide)

end FerrisScope.SelectorQueries
