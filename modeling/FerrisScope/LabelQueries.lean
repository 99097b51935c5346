import FerrisScope.ListCuts
import Mathlib.Data.List.Basic
import Mathlib.Tactic.Common

/-!
# Label queries

A query is a conjunction of requirements on labels, separated by commas. A requirement names a key and asks for a value
of it, for a value among some, for none of some, for the key itself, or for its absence. Keys and values are words;
a value may be empty and is then not written.
-/

namespace FerrisScope.LabelQueries

abbrev Text := List Char

inductive Requirement where
  | oneOf (key : Text) (values : List Text)
  | noneOf (key : Text) (values : List Text)
  | present (key : Text)
  | absent (key : Text)
  deriving DecidableEq, Repr

abbrev Labels := Text → Option Text

def Requirement.Matches (labels : Labels) : Requirement → Prop
  | .oneOf key values => ∃ v ∈ values, labels key = some v
  | .noneOf key values => ∀ v ∈ values, labels key ≠ some v
  | .present key => labels key ≠ none
  | .absent key => labels key = none

/-! ## Words -/

def isNameChar (c : Char) : Bool := c.isAlphanum || c ∈ ['-', '_', '.']

/-- One to 63 characters, with a letter or digit at both ends. -/
def isName (w : Text) : Bool :=
  decide (0 < w.length) && decide (w.length ≤ 63) && w.all isNameChar && w.head?.any Char.isAlphanum
    && w.getLast?.any Char.isAlphanum

def isLabelValue (w : Text) : Bool := w.isEmpty || isName w

def isLowerOrDigit (c : Char) : Bool := c.isLower || c.isDigit

/-- A part of a domain between dots. -/
def isDomainLabel (w : Text) : Bool :=
  w.all (fun c => isLowerOrDigit c || c = '-') && w.head?.any isLowerOrDigit && w.getLast?.any isLowerOrDigit

def isDomain (w : Text) : Bool := decide (w.length ≤ 253) && (w.splitOn '.').all isDomainLabel

/-- A name, or a domain and a name with a slash between them. -/
def isLabelKey (w : Text) : Bool :=
  match w.splitOn '/' with
  | [name] => isName name
  | [domain, name] => isDomain domain && isName name
  | _ => false

/-! ## Tokens -/

inductive Token where
  | word (w : Text)
  | comma
  | opening
  | closing
  | bang
  | equals
  deriving DecidableEq, Repr

def symbol (c : Char) : Option Token :=
  if c = ',' then some .comma
  else if c = '(' then some .opening
  else if c = ')' then some .closing
  else if c = '!' then some .bang
  else if c = '=' then some .equals
  else none

def isBlank (c : Char) : Bool := c = ' ' || c = '\t'

def flush (w : Text) : List Token := if w = [] then [] else [.word w]

/-- The tokens of a text, behind a word that has begun. -/
def tokensFrom (w : Text) : Text → List Token
  | [] => flush w
  | c :: cs =>
      if isBlank c then flush w ++ tokensFrom [] cs
      else match symbol c with
        | some t => flush w ++ t :: tokensFrom [] cs
        | none => tokensFrom (w ++ [c]) cs

def tokens (text : Text) : List Token := tokensFrom [] text

/-! ## Requirements -/

/-- The values up to the closing bracket, which comes last. -/
def parseValues : List Token → Option (List Text)
  | [.closing] => some [[]]
  | [.word v, .closing] => some [v]
  | .comma :: ts => (parseValues ts).map ([] :: ·)
  | .word v :: .comma :: ts => (parseValues ts).map (v :: ·)
  | _ => none

def parseClause : List Token → Option Requirement
  | [.bang, .word key] => some (.absent key)
  | [.word key] => some (.present key)
  | [.word key, .equals] => some (.oneOf key [[]])
  | [.word key, .equals, .word v] => some (.oneOf key [v])
  | .word key :: .word op :: .opening :: ts =>
      if op = "in".toList then (parseValues ts).map (.oneOf key)
      else if op = "notin".toList then (parseValues ts).map (.noneOf key)
      else none
  | _ => none

/-- Keys and values are words of their kind. -/
def Requirement.isValid : Requirement → Bool
  | .oneOf key values => isLabelKey key && values.all isLabelValue
  | .noneOf key values => isLabelKey key && values.all isLabelValue
  | .present key => isLabelKey key
  | .absent key => isLabelKey key

/-- The tokens between commas that stand in no brackets. -/
def clauses : (inside : Bool) → List Token → List (List Token)
  | _, [] => [[]]
  | true, t :: ts => (clauses (t ≠ .closing) ts).modifyHead (t :: ·)
  | false, t :: ts => if t = .comma then [] :: clauses false ts else (clauses (t = .opening) ts).modifyHead (t :: ·)

def parseRequirement (ts : List Token) : Option Requirement := (parseClause ts).filter Requirement.isValid

def parseQuery (query : Text) : Option (List Requirement) := (clauses false (tokens query)).mapM parseRequirement

/-- A query asks for every one of its requirements. -/
def Selects (query : Text) (labels : Labels) : Prop :=
  ∃ requirements, parseQuery query = some requirements ∧ ∀ r ∈ requirements, r.Matches labels

/-! ## Tokens of a text -/

section Tokens

variable {w : Text}

theorem tokensFrom_append_symbol {c : Char} {t : Token} (hblank : isBlank c = false) (h : symbol c = some t) (w a b : Text) :
    tokensFrom w (a ++ c :: b) = tokensFrom w a ++ t :: tokens b := by
  induction a generalizing w with
  | nil =>
    rw [List.nil_append, tokensFrom, tokensFrom, hblank, h, if_neg Bool.false_ne_true]
    rfl
  | cons d a ih =>
    rw [List.cons_append, tokensFrom, tokensFrom]
    split
    · rw [ih, List.append_assoc]
    · split
      · rw [ih, List.append_assoc, List.cons_append]
      · rw [ih]

theorem tokens_append_comma (a b : Text) : tokens (a ++ ',' :: b) = tokens a ++ .comma :: tokens b :=
  tokensFrom_append_symbol rfl rfl [] a b

theorem tokens_append_closing (a : Text) : tokens (a ++ [')']) = tokens a ++ [.closing] :=
  tokensFrom_append_symbol rfl rfl [] a []

theorem tokens_intercalate {parts : List Text} (h : parts ≠ []) :
    tokens ([','].intercalate parts) = [Token.comma].intercalate (parts.map tokens) := by
  induction parts with
  | nil => exact absurd rfl h
  | cons part parts ih =>
    cases parts with
    | nil => simp
    | cons next parts =>
      have hnext := ih (List.cons_ne_nil _ _)
      simp only [List.map_cons] at hnext ⊢
      rw [List.intercalate_cons_cons, List.append_assoc, List.singleton_append, tokens_append_comma, hnext,
        List.intercalate_cons_cons, List.append_assoc, List.singleton_append]

/-- Symbols among the tokens stand in the text. -/
theorem mem_tokensFrom {t : Token} {a : Text} (h : t ∈ tokensFrom w a) :
    (∃ v, t = .word v) ∨ ∃ c ∈ a, symbol c = some t := by
  have hflush : ∀ {w : Text}, t ∈ flush w → ∃ v, t = .word v := by
    intro w h
    rw [flush] at h
    split at h
    · cases h
    · exact ⟨w, List.mem_singleton.mp h⟩
  induction a generalizing w with
  | nil => exact Or.inl (hflush h)
  | cons c a ih =>
    have hrest : (∃ v, t = .word v) ∨ (∃ d ∈ a, symbol d = some t) →
        (∃ v, t = .word v) ∨ ∃ d ∈ c :: a, symbol d = some t := fun hor =>
      hor.imp_right fun ⟨d, hd, hs⟩ => ⟨d, List.mem_cons_of_mem c hd, hs⟩
    rw [tokensFrom] at h
    split at h
    · rcases List.mem_append.mp h with h | h
      · exact Or.inl (hflush h)
      · exact hrest (ih h)
    · split at h
      · next u hu =>
        rcases List.mem_append.mp h with h | h
        · exact Or.inl (hflush h)
        · rcases List.mem_cons.mp h with rfl | h
          · exact Or.inr ⟨c, List.mem_cons_self, hu⟩
          · exact hrest (ih h)
      · exact hrest (ih h)

/-- A word without blanks and symbols. -/
def IsWord (w : Text) : Prop := ∀ c ∈ w, isBlank c = false ∧ symbol c = none

theorem tokensFrom_word (hw : IsWord w) (begun rest : Text) : tokensFrom begun (w ++ rest) = tokensFrom (begun ++ w) rest := by
  induction w generalizing begun with
  | nil => rw [List.nil_append, List.append_nil]
  | cons c w ih =>
    obtain ⟨⟨hblank, hsymbol⟩, hw⟩ := List.forall_mem_cons.mp hw
    rw [List.cons_append, tokensFrom, hblank, hsymbol, if_neg Bool.false_ne_true]
    dsimp only
    rw [ih hw, List.append_assoc, List.singleton_append]

theorem tokens_word (hw : IsWord w) (rest : Text) : tokens (w ++ rest) = tokensFrom w rest := tokensFrom_word hw [] rest

theorem tokensFrom_symbol {c : Char} {t : Token} (hblank : isBlank c = false) (h : symbol c = some t) (w rest : Text) :
    tokensFrom w (c :: rest) = flush w ++ t :: tokens rest := tokensFrom_append_symbol hblank h w [] rest

theorem tokensFrom_blank (w rest : Text) : tokensFrom w (' ' :: rest) = flush w ++ tokens rest := by
  rw [tokensFrom, if_pos (by decide)]
  rfl

theorem flush_of_ne (h : w ≠ []) : flush w = [.word w] := if_neg h

end Tokens

/-! ## Requirements of a query -/

/-- Tokens that keep together. -/
def IsBlock (ts : List Token) : Prop :=
  ∀ rest, clauses false (ts ++ rest) = (clauses false rest).modifyHead (ts ++ ·)

section Blocks

variable {ts : List Token}

theorem isBlock_nil : IsBlock [] := by
  intro rest
  rw [List.nil_append]
  cases clauses false rest <;> rfl

theorem IsBlock.cons {t : Token} (hcomma : t ≠ .comma) (hopening : t ≠ .opening) (h : IsBlock ts) : IsBlock (t :: ts) := by
  intro rest
  rw [List.cons_append, clauses, if_neg hcomma, decide_eq_false hopening, h rest, List.modifyHead_modifyHead]
  rfl

/-- Inside brackets commas keep together, too. -/
theorem clauses_inside (h : .closing ∉ ts) (rest : List Token) :
    clauses true (ts ++ .closing :: rest) = (clauses false rest).modifyHead ((ts ++ [.closing]) ++ ·) := by
  induction ts with
  | nil => rfl
  | cons t ts ih =>
    obtain ⟨ht, hts⟩ := not_or.mp (List.mem_cons.not.mp h)
    have hdecide : decide (t ≠ .closing) = true := decide_eq_true (Ne.symm ht)
    rw [List.cons_append, clauses, hdecide, ih hts, List.modifyHead_modifyHead]
    rfl

theorem isBlock_brackets (h : .closing ∉ ts) : IsBlock (.opening :: (ts ++ [.closing])) := by
  intro rest
  rw [List.cons_append, List.append_assoc, List.singleton_append, clauses, if_neg (by decide), decide_eq_true rfl,
    clauses_inside h, List.modifyHead_modifyHead]
  rfl

theorem clauses_intercalate {tss : List (List Token)} (hne : tss ≠ []) (h : ∀ ts ∈ tss, IsBlock ts) :
    clauses false ([Token.comma].intercalate tss) = tss := by
  induction tss with
  | nil => exact absurd rfl hne
  | cons ts tss ih =>
    obtain ⟨hts, htss⟩ := List.forall_mem_cons.mp h
    cases tss with
    | nil =>
      have hlast := hts []
      rw [List.append_nil] at hlast
      rw [List.intercalate_singleton, hlast, clauses, List.modifyHead_cons, List.append_nil]
    | cons next tss =>
      rw [List.intercalate_cons_cons, List.append_assoc, List.singleton_append, hts, clauses, if_pos rfl,
        ih (List.cons_ne_nil _ _) htss, List.modifyHead_cons, List.append_nil]

end Blocks

/-- Values that are written with commas between them are read again. An empty value is not written. -/
theorem parseValues_intercalate {values : List Text} (hne : values ≠ []) (h : ∀ v ∈ values, IsWord v) :
    parseValues (tokens ([','].intercalate values ++ [')'])) = some values := by
  induction values with
  | nil => exact absurd rfl hne
  | cons v values ih =>
    obtain ⟨hv, hvalues⟩ := List.forall_mem_cons.mp h
    cases values with
    | nil =>
      rw [List.intercalate_singleton, tokens_word hv, tokensFrom_symbol rfl rfl]
      by_cases hnil : v = []
      · rw [hnil]
        rfl
      · rw [flush_of_ne hnil]
        rfl
    | cons next values =>
      have hrest := ih (List.cons_ne_nil _ _) hvalues
      rw [List.intercalate_cons_cons, List.append_assoc, List.append_assoc, List.singleton_append, tokens_word hv,
        tokensFrom_symbol rfl rfl]
      by_cases hnil : v = []
      · rw [hnil]
        exact congrArg (Option.map ([] :: ·)) hrest
      · rw [flush_of_ne hnil]
        exact congrArg (Option.map (v :: ·)) hrest

/-! ## Keys and values are words -/

section Words

variable {w : Text}

theorem isNameChar_word {c : Char} (h : isNameChar c = true ∨ c = '/') : isBlank c = false ∧ symbol c = none := by
  have hnot : ∀ d ∈ [' ', '\t', ',', '(', ')', '!', '='], c ≠ d := by
    rintro d hd rfl
    simp only [List.mem_cons, List.not_mem_nil, or_false] at hd
    rcases hd with rfl | rfl | rfl | rfl | rfl | rfl | rfl <;> revert h <;> decide
  simp only [List.forall_mem_cons] at hnot
  obtain ⟨hspace, htab, hcomma, hopening, hclosing, hbang, hequals, -⟩ := hnot
  simp [isBlank, symbol, hspace, htab, hcomma, hopening, hclosing, hbang, hequals]

theorem isNameChar_of_domain {c : Char} (h : isLowerOrDigit c = true ∨ c = '-') : isNameChar c = true := by
  rcases h with h | rfl
  · have halnum : c.isAlphanum = true := by
      rw [isLowerOrDigit, Bool.or_eq_true] at h
      change (c.isUpper || c.isLower || c.isDigit) = true
      rcases h with h | h <;> simp [h]
    rw [isNameChar, halnum, Bool.true_or]
  · decide

theorem isName_spec (h : isName w = true) : w ≠ [] ∧ ∀ c ∈ w, isNameChar c = true := by
  simp only [isName, Bool.and_eq_true, decide_eq_true_eq, List.all_eq_true] at h
  exact ⟨List.ne_nil_of_length_pos h.1.1.1.1, h.1.1.2⟩

theorem isWord_value (h : isLabelValue w = true) : IsWord w := by
  rcases Bool.or_eq_true_iff.mp h with h | h
  · rw [List.isEmpty_iff.mp h]
    exact List.forall_mem_nil _
  · exact fun c hc => isNameChar_word (Or.inl ((isName_spec h).2 c hc))

theorem isNameChar_domain (h : isDomain w = true) : ∀ c ∈ w, isNameChar c = true := by
  obtain ⟨-, hlabels⟩ := Bool.and_eq_true_iff.mp h
  have hjoin : ['.'].intercalate (w.splitOn '.') = w := List.intercalate_splitOn '.'
  intro c hc
  rw [← hjoin] at hc
  rcases ListCuts.mem_intercalate hc with hdot | ⟨part, hpart, hc⟩
  · rw [List.mem_singleton.mp hdot]
    decide
  · have hlabel := List.all_eq_true.mp hlabels part hpart
    simp only [isDomainLabel, Bool.and_eq_true, List.all_eq_true, Bool.or_eq_true, decide_eq_true_eq] at hlabel
    exact isNameChar_of_domain (hlabel.1.1 c hc)

theorem isWord_key (h : isLabelKey w = true) : w ≠ [] ∧ IsWord w := by
  have hjoin : ['/'].intercalate (w.splitOn '/') = w := List.intercalate_splitOn '/'
  rw [isLabelKey] at h
  split at h
  · next name hsplit =>
    rw [hsplit, List.intercalate_singleton] at hjoin
    subst hjoin
    exact ⟨(isName_spec h).1, fun c hc => isNameChar_word (Or.inl ((isName_spec h).2 c hc))⟩
  · next domain name hsplit =>
    rw [hsplit, List.intercalate_cons_cons, List.intercalate_singleton] at hjoin
    obtain ⟨hdomain, hname⟩ := Bool.and_eq_true_iff.mp h
    subst hjoin
    refine ⟨List.append_ne_nil_of_right_ne_nil _ (isName_spec hname).1, fun c hc => ?_⟩
    rcases List.mem_append.mp hc with hc | hc
    · rcases List.mem_append.mp hc with hc | hc
      · exact isNameChar_word (Or.inl (isNameChar_domain hdomain c hc))
      · exact isNameChar_word (Or.inr (List.mem_singleton.mp hc))
    · exact isNameChar_word (Or.inl ((isName_spec hname).2 c hc))
  · cases h

end Words

end FerrisScope.LabelQueries
