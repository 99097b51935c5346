import FerrisScope.ClusterShortNames
import FerrisScope.ListTraversals
import FerrisScope.SplitOnce
import Mathlib.Data.List.DropRight

/-!
# Filters of a table

What the operator types is a filter on names or on labels. A filter on labels has terms between commas. Terms of one key
are alternatives, different keys must all fit, and a negated term excludes rows. A term is split at the first `!=` in
it if it has one, also where a `=` stands before that.
-/

namespace FerrisScope.TableFilters
open HostsFile (Text)
open ClusterShortNames (isSpace)
open SplitOnce ListTraversals

/-- What the language provides: patterns that ignore case, if they compile, and lower case. -/
structure Js where
  compile : Text → Option (Text → Bool)
  toLowerCase : Text → Text

/-- An object of texts: its own properties, and those it inherits. -/
structure Labels where
  own : Text → Option Text
  inherited : Text → Option Text

structure Row where
  name : Option Text
  labels : Option Labels

inductive Mode where
  | off
  | substring
  | regex
  | labels
  deriving DecidableEq, Repr

structure ParsedTableFilter where
  mode : Mode
  test : Row → Bool
  invalid : Bool

def trim (t : Text) : Text := (t.dropWhile isSpace).rdropWhile isSpace

def isTrigger (c : Char) : Bool := c ∈ "|*+?()^$\\[]\x7b\x7d".toList

/-- A term of a filter on labels. Without a test it is about the label being there. -/
structure LabelTerm where
  key : Text
  negate : Bool
  accepts : Option (Text → Bool)

def rowName (row : Row) : Text := row.name.getD []

def valueMatcher (js : Js) (value : Text) : Option (Text → Bool) :=
  if value.any isTrigger then js.compile value else some fun v => v = value

/-- The key, whether the term is negated, and the value. -/
def splitTerm (term : Text) : Option (Text × Bool × Text) :=
  match splitOnce ['!', '='] term with
  | some (key, value) => some (key, true, value)
  | none => (splitOnce ['='] term).map fun p => (p.1, false, p.2)

/-- The term that the parts stand for, if there is a key and the value is a pattern that compiles. -/
def termOf (js : Js) (parts : Text × Bool × Text) : Option LabelTerm :=
  let key := trim parts.1
  let value := trim parts.2.2
  if key = [] then none
  else if value = [] then some ⟨key, parts.2.1, none⟩
  else (valueMatcher js value).map fun m => ⟨key, parts.2.1, some m⟩

def rawTerms (raw : Text) : List Text := ((raw.splitOn ',').map trim).filter fun t => !t.isEmpty

def parseTerms (js : Js) (raw : Text) : Option (List LabelTerm) :=
  (rawTerms raw).mapM fun term => (splitTerm term).bind (termOf js)

/-- The groups of positive terms with one key, in the order in which the keys come. -/
def addPositive (groups : List (Text × List LabelTerm)) (t : LabelTerm) : List (Text × List LabelTerm) :=
  if groups.any (fun g => g.1 = t.key) then groups.map fun g => if g.1 = t.key then (g.1, g.2 ++ [t]) else g
  else groups ++ [(t.key, [t])]

def posGroups (terms : List LabelTerm) : List (Text × List LabelTerm) :=
  (terms.filter fun t => !t.negate).foldl addPositive []

/-- A read of a property, which may be an inherited one. -/
def Labels.get (labels : Labels) (key : Text) : Option Text := (labels.own key).or (labels.inherited key)

def ownValue (labels : Option Labels) (key : Text) : Option Text :=
  match labels with
  | none => none
  | some labels => if (labels.own key).isSome then labels.get key else none

def LabelTerm.holds (t : LabelTerm) (value : Option Text) : Bool :=
  match t.accepts with
  | none => value.isSome
  | some m => value.any m

def testTerms (terms : List LabelTerm) (row : Row) : Bool :=
  (posGroups terms).all (fun g => g.2.any fun t => t.holds (ownValue row.labels g.1)) &&
    (terms.filter (·.negate)).all fun t => !t.holds (ownValue row.labels t.key)

def invalidLabels : ParsedTableFilter := ⟨.labels, fun _ => false, true⟩

def parseLabelFilter (js : Js) (raw : Text) : ParsedTableFilter :=
  match parseTerms js raw with
  | none => invalidLabels
  | some [] => invalidLabels
  | some terms => ⟨.labels, testTerms terms, false⟩

def parseTableFilter (js : Js) (raw : Text) : ParsedTableFilter :=
  let trimmed := trim raw
  if trimmed = [] then ⟨.off, fun _ => true, false⟩
  else if '=' ∈ trimmed then parseLabelFilter js trimmed
  else if trimmed.any isTrigger then
    match js.compile trimmed with
    | some re => ⟨.regex, fun row => re (rowName row), false⟩
    | none => ⟨.regex, fun _ => false, true⟩
  else ⟨.substring, fun row => decide (js.toLowerCase trimmed <:+: js.toLowerCase (rowName row)), false⟩

/-! ## The meaning of a filter on labels -/

/-- The first operator in a term, with what stands before and behind it. -/
def firstOperator : Text → Option (Text × Bool × Text)
  | [] => none
  | c :: rest =>
      if c = '=' then some ([], false, rest)
      else if c = '!' ∧ rest.head? = some '=' then some ([], true, rest.tail)
      else (firstOperator rest).map fun p => (c :: p.1, p.2)

/-- The terms that are written, each with its first operator. -/
def meant (js : Js) (raw : Text) : List (Option LabelTerm) :=
  (rawTerms raw).map fun term => (firstOperator term).bind (termOf js)

/-- The value of a label that the row itself has. -/
def Row.label (row : Row) (key : Text) : Option Text := row.labels.bind fun l => l.own key

/-- Every key with positive terms is a label whose value one of them accepts, and no negated term is violated. -/
structure Accepts (terms : List LabelTerm) (row : Row) : Prop where
  positive : ∀ t ∈ terms, t.negate = false → ∃ value, row.label t.key = some value ∧
    ∃ t' ∈ terms, t'.negate = false ∧ t'.key = t.key ∧ t'.accepts.all (fun m => m value) = true
  negative : ∀ t ∈ terms, t.negate = true → ∀ value, row.label t.key = some value →
    ∃ m, t.accepts = some m ∧ m value = false

/-- What a filter on labels does is what it says. -/
structure FilterMeans (js : Js) (raw : Text) : Prop where
  operators : ∀ term ∈ rawTerms raw, splitTerm term = firstOperator term
  invalid_iff : (parseTableFilter js raw).invalid = true ↔ none ∈ meant js raw
  rejects : (parseTableFilter js raw).invalid = true → ∀ row, (parseTableFilter js raw).test row = false
  accepts : (parseTableFilter js raw).invalid = false → ∀ row,
    ((parseTableFilter js raw).test row = true ↔ Accepts ((meant js raw).reduceOption) row)
  order : ∀ raw', (raw'.splitOn ',').Perm (raw.splitOn ',') →
    (parseTableFilter js raw').invalid = (parseTableFilter js raw).invalid ∧
      ∀ row, (parseTableFilter js raw').test row = (parseTableFilter js raw).test row

/-- A `=` stands before the first `!=`. -/
def Mixed (term : Text) : Prop := ∃ a b, term = a ++ '!' :: '=' :: b ∧ '=' ∈ a ∧ ¬ ['!', '='] <:+: a

/-! ## Operators of a term -/

section Operators

variable {term a b : Text}

theorem firstOperator_of_notMem (h : '=' ∉ term) : firstOperator term = none := by
  induction term with
  | nil => rfl
  | cons c rest ih =>
    obtain ⟨hc, hrest⟩ := not_or.mp (List.mem_cons.not.mp h)
    have hhead : rest.head? ≠ some '=' := fun heq => hrest (List.mem_of_head? heq)
    rw [firstOperator, if_neg (Ne.symm hc), if_neg fun hand => hhead hand.2, ih hrest, Option.map_none]

theorem firstOperator_bang (h : '=' ∉ a) : firstOperator (a ++ '!' :: '=' :: b) = some (a, true, b) := by
  induction a with
  | nil => rfl
  | cons c a ih =>
    obtain ⟨hc, ha⟩ := not_or.mp (List.mem_cons.not.mp h)
    have hhead : (a ++ '!' :: '=' :: b).head? ≠ some '=' := by
      cases a with
      | nil => simp
      | cons d a => simpa using Ne.symm (not_or.mp (List.mem_cons.not.mp ha)).1
    rw [List.cons_append, firstOperator, if_neg (Ne.symm hc), if_neg fun hand => hhead hand.2, ih ha, Option.map_some]

theorem firstOperator_equals (h : '=' ∉ a) (hlast : a.getLast? ≠ some '!') :
    firstOperator (a ++ '=' :: b) = some (a, false, b) := by
  induction a with
  | nil => rfl
  | cons c a ih =>
    obtain ⟨hc, ha⟩ := not_or.mp (List.mem_cons.not.mp h)
    have hbang : ¬ (c = '!' ∧ (a ++ '=' :: b).head? = some '=') := by
      rintro ⟨rfl, hhead⟩
      cases a with
      | nil => exact hlast rfl
      | cons d a => exact (not_or.mp (List.mem_cons.not.mp ha)).1 (Option.some_inj.mp hhead).symm
    have hrest : a.getLast? ≠ some '!' := by
      cases a with
      | nil => simp
      | cons d a => rwa [List.getLast?_cons_cons] at hlast
    rw [List.cons_append, firstOperator, if_neg (Ne.symm hc), if_neg hbang, ih ha hrest, Option.map_some]

/-- No operator stands before the first one. -/
theorem notMem_of_firstOperator {parts : Text × Bool × Text} (h : firstOperator term = some parts) : '=' ∉ parts.1 := by
  induction term generalizing parts with
  | nil => cases h
  | cons c rest ih =>
    rw [firstOperator] at h
    split_ifs at h with hequals hbang
    · rw [← Option.some_inj.mp h]
      exact List.not_mem_nil
    · rw [← Option.some_inj.mp h]
      exact List.not_mem_nil
    · obtain ⟨inner, hinner, rfl⟩ := Option.map_eq_some_iff.mp h
      exact List.mem_cons.not.mpr (not_or.mpr ⟨Ne.symm hequals, ih hinner⟩)

theorem clear_iff : Clear ['!', '='] a ↔ ¬ ['!', '='] <:+: a := by
  induction a with
  | nil => simp [Clear]
  | cons c a ih =>
    rw [Clear, ih, List.infix_cons_iff, not_or]
    cases a with
    | nil => simp
    | cons d a => simp

theorem mixed_iff : Mixed term ↔ ∃ a b, splitOnce ['!', '='] term = some (a, b) ∧ '=' ∈ a := by
  constructor
  · rintro ⟨a, b, rfl, hmem, hinfix⟩
    have hsplit := splitOnce_append_iff (b := b).mpr (clear_iff.mpr hinfix)
    rw [List.append_assoc] at hsplit
    exact ⟨a, b, hsplit, hmem⟩
  · rintro ⟨a, b, hsplit, hmem⟩
    have hterm := eq_of_splitOnce hsplit
    subst hterm
    exact ⟨a, b, List.append_assoc a _ b, hmem, clear_iff.mp (splitOnce_append_iff.mp hsplit)⟩

/-- The operator found is the first one, unless a `=` stands before the first `!=`. -/
theorem splitTerm_eq_iff (term : Text) : splitTerm term = firstOperator term ↔ ¬ Mixed term := by
  rw [mixed_iff, splitTerm]
  cases hsplit : splitOnce ['!', '='] term with
  | some parts =>
    obtain ⟨a, b⟩ := parts
    have hterm : term = a ++ '!' :: '=' :: b := by
      rw [eq_of_splitOnce hsplit, List.append_assoc]
      rfl
    constructor
    · rintro hfirst ⟨a', b', hparts, hmem⟩
      obtain ⟨rfl, rfl⟩ := Prod.mk.inj (Option.some_inj.mp hparts)
      exact notMem_of_firstOperator hfirst.symm hmem
    · intro hmixed
      have ha : '=' ∉ a := fun hmem => hmixed ⟨a, b, rfl, hmem⟩
      rw [hterm, firstOperator_bang ha]
  | none =>
    refine iff_of_true ?_ (by simp)
    have hbang := splitOnce_eq_none_iff.mp hsplit
    cases hequals : splitOnce ['='] term with
    | none =>
      have hmem : '=' ∉ term := fun hmem => splitOnce_eq_none_iff.mp hequals (by
        obtain ⟨a, b, rfl⟩ := List.append_of_mem hmem
        exact ⟨a, b, by simp⟩)
      rw [firstOperator_of_notMem hmem, Option.map_none]
    | some parts =>
      obtain ⟨a, b⟩ := parts
      have hterm := eq_of_splitOnce hequals
      rw [List.append_assoc, List.singleton_append] at hterm
      have ha : '=' ∉ a := by
        have hclear : splitOnce ['='] (a ++ ['='] ++ b) = some (a, b) := by
          rw [List.append_assoc, List.singleton_append, ← hterm, hequals]
        exact clear_singleton_iff.mp (splitOnce_append_iff.mp hclear)
      have hlast : a.getLast? ≠ some '!' := by
        intro hlast
        obtain ⟨front, rfl⟩ := List.getLast?_eq_some_iff.mp hlast
        exact hbang ⟨front, b, by rw [hterm]; simp⟩
      rw [hterm, firstOperator_equals ha hlast, Option.map_some]

end Operators

/-! ## The terms of a filter -/

section Terms

variable {c : Char} {t : Text}

theorem trim_cons (hc : isSpace c = true) (t : Text) : trim (c :: t) = trim t := by
  rw [trim, List.dropWhile_cons_of_pos hc, trim]

theorem trim_concat (hc : isSpace c = true) (t : Text) : trim (t ++ [c]) = trim t := by
  rw [trim, trim, List.dropWhile_append]
  split
  · next hnil => rw [List.isEmpty_iff.mp hnil, List.dropWhile_cons_of_pos hc, List.dropWhile_nil]
  · rw [List.rdropWhile_concat_pos _ _ _ hc]

/-- What does not change when a space is put at either end does not change when the text is trimmed. -/
theorem eq_of_trim {α : Type*} {f : Text → α} (hcons : ∀ c t, isSpace c = true → f (c :: t) = f t)
    (hconcat : ∀ c t, isSpace c = true → f (t ++ [c]) = f t) (t : Text) : f (trim t) = f t := by
  have hfront : f (t.dropWhile isSpace) = f t := by
    induction t with
    | nil => rfl
    | cons c t ih =>
      by_cases hc : isSpace c = true
      · rw [List.dropWhile_cons_of_pos hc, ih, hcons c t hc]
      · rw [List.dropWhile_cons_of_neg hc]
  rw [trim, ← hfront]
  induction t.dropWhile isSpace using List.reverseRecOn with
  | nil => rfl
  | append_singleton t c ih =>
    by_cases hc : isSpace c = true
    · rw [List.rdropWhile_concat_pos _ _ _ hc, ih, hconcat c t hc]
    · rw [List.rdropWhile_concat_neg _ _ _ hc]

theorem comma_of_isSpace (hc : isSpace c = true) : c ≠ ',' := by
  rintro rfl
  exact absurd hc (by decide)

theorem equals_of_isSpace (hc : isSpace c = true) : c ≠ '=' := by
  rintro rfl
  exact absurd hc (by decide)

/-- Only the last part between commas sees what is put behind the text. -/
theorem splitOn_concat (hc : c ≠ ',') (t : Text) :
    List.Forall₂ (fun p q => p = q ∨ p = q ++ [c]) ((t ++ [c]).splitOn ',') (t.splitOn ',') := by
  induction t with
  | nil =>
    rw [List.nil_append, List.splitOn_eq_singleton (by simpa using hc.symm), List.splitOn_nil]
    exact .cons (Or.inr rfl) .nil
  | cons d t ih =>
    rw [List.cons_append, List.splitOn_cons_eq_if_modifyHead, List.splitOn_cons_eq_if_modifyHead]
    split
    · exact .cons (Or.inl rfl) ih
    · generalize (t ++ [c]).splitOn ',' = ps, t.splitOn ',' = qs at ih
      cases ih with
      | nil => exact .nil
      | cons hhead htail => exact .cons (hhead.imp (congrArg _) (congrArg _)) htail

theorem rawTerms_cons (hc : isSpace c = true) (t : Text) : rawTerms (c :: t) = rawTerms t := by
  have hmap : ((c :: t).splitOn ',').map trim = (t.splitOn ',').map trim := by
    rw [List.splitOn_cons_eq_if_modifyHead, if_neg (by simpa using comma_of_isSpace hc)]
    cases t.splitOn ',' with
    | nil => rfl
    | cons p ps => simp [trim_cons hc]
  rw [rawTerms, hmap, rawTerms]

theorem rawTerms_concat (hc : isSpace c = true) (t : Text) : rawTerms (t ++ [c]) = rawTerms t := by
  have hmap : ((t ++ [c]).splitOn ',').map trim = (t.splitOn ',').map trim := by
    rw [← List.forall₂_eq_eq_eq, List.forall₂_map_left_iff, List.forall₂_map_right_iff]
    refine (splitOn_concat (comma_of_isSpace hc) t).imp fun p q hpq => ?_
    rcases hpq with rfl | rfl
    · rfl
    · exact trim_concat hc q
  rw [rawTerms, hmap, rawTerms]

theorem rawTerms_trim (t : Text) : rawTerms (trim t) = rawTerms t :=
  eq_of_trim (fun _ t hc => rawTerms_cons hc t) (fun _ t hc => rawTerms_concat hc t) t

theorem equals_mem_trim (t : Text) : '=' ∈ trim t ↔ '=' ∈ t := by
  have heq := eq_of_trim (f := fun t => '=' ∈ t) (fun c t hc => propext (by simp [(equals_of_isSpace hc).symm]))
    (fun c t hc => propext (by simp [(equals_of_isSpace hc).symm])) t
  exact iff_of_eq heq

/-- A text is in label mode when one of its parts has a `=`. -/
theorem equals_mem_iff (t : Text) : '=' ∈ t ↔ ∃ p ∈ t.splitOn ',', '=' ∈ p := by
  induction t with
  | nil => simp [List.splitOn_nil]
  | cons c t ih =>
    rw [List.splitOn_cons_eq_if_modifyHead, List.mem_cons, ih]
    split
    · next hc => simp [beq_iff_eq.mp hc]
    · cases hsplit : t.splitOn ',' with
      | nil => exact absurd hsplit (List.splitOn_ne_nil _ _)
      | cons p ps => simp [or_assoc]

theorem rawTerms_ne_nil (h : '=' ∈ t) : rawTerms t ≠ [] := by
  obtain ⟨p, hp, hmem⟩ := (equals_mem_iff t).mp h
  have htrim := (equals_mem_trim p).mpr hmem
  have hterm : trim p ∈ rawTerms t := by
    rw [rawTerms, List.mem_filter]
    exact ⟨List.mem_map_of_mem hp, by simpa using List.ne_nil_of_mem htrim⟩
  exact List.ne_nil_of_mem hterm

end Terms

/-! ## Rows that pass -/

section Rows

variable {groups : List (Text × List LabelTerm)} {terms done : List LabelTerm}

/-- Each group has exactly the terms of its key, and every key has a group. -/
structure Grouped (done : List LabelTerm) (groups : List (Text × List LabelTerm)) : Prop where
  terms : ∀ g ∈ groups, ∀ t, t ∈ g.2 ↔ t ∈ done ∧ t.key = g.1
  key : ∀ g ∈ groups, ∃ t ∈ done, t.key = g.1
  group : ∀ t ∈ done, ∃ g ∈ groups, g.1 = t.key

/-- A term of another key does not belong to the group. -/
theorem mem_group_concat {g : Text × List LabelTerm} {t : LabelTerm} (hg : ∀ u, u ∈ g.2 ↔ u ∈ done ∧ u.key = g.1)
    (hne : g.1 ≠ t.key) (u : LabelTerm) : u ∈ g.2 ↔ u ∈ done ++ [t] ∧ u.key = g.1 := by
  rw [hg, List.mem_append, List.mem_singleton]
  constructor
  · exact fun ⟨hu, hk⟩ => ⟨Or.inl hu, hk⟩
  · rintro ⟨hu | rfl, hk⟩
    · exact ⟨hu, hk⟩
    · exact absurd hk.symm hne

/-- A term whose key has a group is put into it. -/
theorem Grouped.extend (h : Grouped done groups) {t : LabelTerm} (hold : ∃ g ∈ groups, g.1 = t.key) :
    Grouped (done ++ [t]) (groups.map fun g => if g.1 = t.key then (g.1, g.2 ++ [t]) else g) := by
  refine ⟨fun g hg => ?_, fun g hg => ?_, fun u hu => ?_⟩
  · obtain ⟨g, hmem, rfl⟩ := List.mem_map.mp hg
    split
    · next heq =>
      intro u
      rw [List.mem_append, h.terms g hmem, List.mem_append, List.mem_singleton]
      constructor
      · rintro (⟨hu, hk⟩ | rfl)
        · exact ⟨Or.inl hu, hk⟩
        · exact ⟨Or.inr rfl, heq.symm⟩
      · exact fun ⟨hu, hk⟩ => hu.imp_left fun hu => ⟨hu, hk⟩
    · next hne => exact mem_group_concat (h.terms g hmem) hne
  · obtain ⟨g, hmem, rfl⟩ := List.mem_map.mp hg
    obtain ⟨u, hu, hk⟩ := h.key g hmem
    refine ⟨u, List.mem_append_left _ hu, ?_⟩
    split <;> exact hk
  · have hgroup : ∃ g ∈ groups, g.1 = u.key := by
      rcases List.mem_append.mp hu with hu | hu
      · exact h.group u hu
      · rwa [List.mem_singleton.mp hu]
    obtain ⟨g, hmem, hk⟩ := hgroup
    refine ⟨_, List.mem_map_of_mem hmem, ?_⟩
    split <;> exact hk

/-- A term with a new key gets a group of its own. -/
theorem Grouped.concat (h : Grouped done groups) {t : LabelTerm} (hnew : ∀ g ∈ groups, g.1 ≠ t.key) :
    Grouped (done ++ [t]) (groups ++ [(t.key, [t])]) := by
  refine ⟨fun g hg => ?_, fun g hg => ?_, fun u hu => ?_⟩
  · rcases List.mem_append.mp hg with hg | hg
    · exact mem_group_concat (h.terms g hg) (hnew g hg)
    · obtain rfl := List.mem_singleton.mp hg
      intro u
      rw [List.mem_singleton, List.mem_append, List.mem_singleton]
      constructor
      · rintro rfl
        exact ⟨Or.inr rfl, rfl⟩
      · rintro ⟨hu | hu, hk⟩
        · obtain ⟨g, hmem, hgroup⟩ := h.group u hu
          exact absurd (hgroup.trans hk) (hnew g hmem)
        · exact hu
  · rcases List.mem_append.mp hg with hg | hg
    · obtain ⟨u, hu, hk⟩ := h.key g hg
      exact ⟨u, List.mem_append_left _ hu, hk⟩
    · obtain rfl := List.mem_singleton.mp hg
      exact ⟨t, by simp, rfl⟩
  · rcases List.mem_append.mp hu with hu | hu
    · obtain ⟨g, hmem, hk⟩ := h.group u hu
      exact ⟨g, List.mem_append_left _ hmem, hk⟩
    · obtain rfl := List.mem_singleton.mp hu
      exact ⟨_, List.mem_append_right _ List.mem_cons_self, rfl⟩

theorem Grouped.addPositive (h : Grouped done groups) (t : LabelTerm) :
    Grouped (done ++ [t]) (addPositive groups t) := by
  rw [TableFilters.addPositive]
  split
  · next hany => exact h.extend (by simpa using hany)
  · next hany => exact h.concat fun g hg hk => hany (List.any_eq_true.mpr ⟨g, hg, decide_eq_true hk⟩)

theorem Grouped.foldl (h : Grouped done groups) (ts : List LabelTerm) :
    Grouped (done ++ ts) (ts.foldl TableFilters.addPositive groups) := by
  induction ts generalizing done groups with
  | nil => rwa [List.append_nil]
  | cons t ts ih =>
    have hrest := ih (h.addPositive t)
    rwa [List.append_assoc] at hrest

theorem grouped_posGroups (terms : List LabelTerm) : Grouped (terms.filter fun t => !t.negate) (posGroups terms) :=
  have hempty : Grouped [] [] := ⟨by simp, by simp, by simp⟩
  hempty.foldl _

theorem ownValue_eq (row : Row) (key : Text) : ownValue row.labels key = row.label key := by
  rw [Row.label]
  cases row.labels with
  | none => rfl
  | some labels =>
    cases hown : labels.own key <;> simp [ownValue, Labels.get, hown]

theorem LabelTerm.holds_iff (t : LabelTerm) (value : Option Text) :
    t.holds value = true ↔ ∃ v, value = some v ∧ t.accepts.all (fun m => m v) = true := by
  rw [LabelTerm.holds]
  cases t.accepts <;> cases value <;> simp

theorem LabelTerm.holds_eq_false (t : LabelTerm) (value : Option Text) :
    t.holds value = false ↔ ∀ v, value = some v → ∃ m, t.accepts = some m ∧ m v = false := by
  rw [LabelTerm.holds]
  cases t.accepts <;> cases value <;> simp

/-- The test made of the terms is what the terms ask for. -/
theorem testTerms_iff (terms : List LabelTerm) (row : Row) : testTerms terms row = true ↔ Accepts terms row := by
  have hgroups := grouped_posGroups terms
  have hpositive : ∀ t, t ∈ terms.filter (fun t => !t.negate) ↔ t ∈ terms ∧ t.negate = false := fun t => by simp
  rw [testTerms, Bool.and_eq_true, List.all_eq_true, List.all_eq_true]
  constructor
  · rintro ⟨hall, hnone⟩
    refine ⟨fun t ht hpos => ?_, fun t ht hneg => ?_⟩
    · obtain ⟨g, hg, hk⟩ := hgroups.group t ((hpositive t).mpr ⟨ht, hpos⟩)
      obtain ⟨t', ht', hholds⟩ := List.any_eq_true.mp (hall g hg)
      rw [ownValue_eq, LabelTerm.holds_iff] at hholds
      obtain ⟨value, hvalue, haccepts⟩ := hholds
      obtain ⟨hmem, hkey⟩ := (hgroups.terms g hg t').mp ht'
      obtain ⟨hmem, hpos'⟩ := (hpositive t').mp hmem
      exact ⟨value, hk ▸ hvalue, t', hmem, hpos', hkey.trans hk, haccepts⟩
    · have hholds := hnone t (List.mem_filter.mpr ⟨ht, hneg⟩)
      rw [Bool.not_eq_true', ownValue_eq, LabelTerm.holds_eq_false] at hholds
      exact hholds
  · intro h
    refine ⟨fun g hg => ?_, fun t ht => ?_⟩
    · obtain ⟨t, ht, hk⟩ := hgroups.key g hg
      obtain ⟨hmem, hpos⟩ := (hpositive t).mp ht
      obtain ⟨value, hvalue, t', ht', hpos', hkey, haccepts⟩ := h.positive t hmem hpos
      rw [List.any_eq_true]
      refine ⟨t', (hgroups.terms g hg t').mpr ⟨(hpositive t').mpr ⟨ht', hpos'⟩, hkey.trans hk⟩, ?_⟩
      rw [ownValue_eq, LabelTerm.holds_iff]
      exact ⟨value, hk ▸ hvalue, haccepts⟩
    · obtain ⟨hmem, hneg⟩ := List.mem_filter.mp ht
      rw [Bool.not_eq_true', ownValue_eq, LabelTerm.holds_eq_false]
      exact h.negative t hmem hneg

end Rows

/-! ## Filters on labels -/

section Filters

variable {js : Js} {raw : Text}

theorem Accepts.congr {terms terms' : List LabelTerm} (h : ∀ t, t ∈ terms ↔ t ∈ terms') {row : Row}
    (haccepts : Accepts terms row) : Accepts terms' row := by
  refine ⟨fun t ht hpos => ?_, fun t ht hneg => haccepts.negative t ((h t).mpr ht) hneg⟩
  obtain ⟨value, hvalue, t', ht', hrest⟩ := haccepts.positive t ((h t).mpr ht) hpos
  exact ⟨value, hvalue, t', (h t').mp ht', hrest⟩

/-- A filter in label mode is one on the terms that are read, if all of them can be read. -/
theorem parseTableFilter_eq (hmode : '=' ∈ raw) : parseTableFilter js raw =
    match parseTerms js raw with
    | none => invalidLabels
    | some terms => ⟨.labels, testTerms terms, false⟩ := by
  have htrimmed := (equals_mem_trim raw).mpr hmode
  have hterms : parseTerms js (trim raw) = parseTerms js raw := by rw [parseTerms, rawTerms_trim, parseTerms]
  rw [parseTableFilter, if_neg (List.ne_nil_of_mem htrimmed), if_pos htrimmed, parseLabelFilter, hterms]
  cases hparse : parseTerms js raw with
  | none => rfl
  | some terms =>
    have hlength := (mapM_eq_some hparse).length_eq
    cases terms with
    | nil => exact absurd (List.length_eq_zero_iff.mp hlength) (rawTerms_ne_nil hmode)
    | cons t ts => rfl

theorem invalid_iff (hmode : '=' ∈ raw) : (parseTableFilter js raw).invalid = true ↔ parseTerms js raw = none := by
  rw [parseTableFilter_eq hmode]
  cases parseTerms js raw <;> simp [invalidLabels]

theorem test_iff (hmode : '=' ∈ raw) (row : Row) : (parseTableFilter js raw).test row = true ↔
    ∃ terms, parseTerms js raw = some terms ∧ Accepts terms row := by
  rw [parseTableFilter_eq hmode]
  cases parseTerms js raw <;> simp [invalidLabels, testTerms_iff]

theorem rawTerms_perm {raw' : Text} (h : (raw'.splitOn ',').Perm (raw.splitOn ',')) :
    (rawTerms raw').Perm (rawTerms raw) := (h.map trim).filter _

/-- The order of the parts between commas does not matter. -/
theorem parseTableFilter_perm (hmode : '=' ∈ raw) {raw' : Text} (h : (raw'.splitOn ',').Perm (raw.splitOn ',')) :
    (parseTableFilter js raw').invalid = (parseTableFilter js raw).invalid ∧
      ∀ row, (parseTableFilter js raw').test row = (parseTableFilter js raw).test row := by
  have hmode' : '=' ∈ raw' := by
    rw [equals_mem_iff] at hmode ⊢
    obtain ⟨p, hp, hmem⟩ := hmode
    exact ⟨p, h.mem_iff.mpr hp, hmem⟩
  have hperm := rawTerms_perm h
  have hnone : parseTerms js raw' = none ↔ parseTerms js raw = none := by
    rw [parseTerms, mapM_eq_none, parseTerms, mapM_eq_none]
    simp only [hperm.mem_iff]
  have hsome : ∀ {terms terms'}, parseTerms js raw' = some terms' → parseTerms js raw = some terms →
      ∀ t, t ∈ terms' ↔ t ∈ terms := by
    intro terms terms' hterms' hterms t
    rw [mapM_eq_some_filterMap hterms', mapM_eq_some_filterMap hterms, (hperm.filterMap _).mem_iff]
  constructor
  · rw [Bool.eq_iff_iff, invalid_iff hmode', invalid_iff hmode, hnone]
  · intro row
    rw [Bool.eq_iff_iff, test_iff hmode', test_iff hmode]
    cases hterms : parseTerms js raw with
    | none => simp [hnone.mpr hterms]
    | some terms =>
      cases hterms' : parseTerms js raw' with
      | none => simp [hnone.mp hterms'] at hterms
      | some terms' =>
        have hmem := hsome hterms' hterms
        simp only [Option.some.injEq, exists_eq_left']
        exact ⟨Accepts.congr hmem, Accepts.congr fun t => (hmem t).symm⟩

end Filters

end FerrisScope.TableFilters
