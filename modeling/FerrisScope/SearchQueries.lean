import FerrisScope.CronSchedules
import FerrisScope.LikePatterns

/-!
# What is asked of the search index

The words of a query are looked up as phrases of the full-text index, and the words that are too short for it
narrow the rows with patterns. A word is quoted for the one and escaped for the other.
-/

namespace FerrisScope.SearchQueries
open HostsFile CronSchedules LikePatterns

def minQueryLen : ℕ := 2
def trigramMin : ℕ := 3

/-- Every occurrence of a character replaced. -/
def replace (c : Char) (r t : Text) : Text := t.flatMap fun d => if d = c then r else [d]

def escapeLike (s : Text) : Text :=
  replace '_' "\\_".toList (replace '%' "\\%".toList (replace '\\' "\\\\".toList s))

def escapeFtsPhrase (token : Text) : Text := '"' :: (replace '"' "\"\"".toList token ++ ['"'])

/-- The text is like the pattern, with the backslash as the escape character. -/
def like (s pattern : Text) : Bool :=
  match items '%' '_' '\\' pattern with
  | some p => matchItems Char.toLower p s
  | none => false

def likePattern (token : Text) : Text := '%' :: (escapeLike token ++ ['%'])

/-- A row passes the filters. A row without a namespace has none that is like a pattern. -/
def passesLikeFilters (tokens : List Text) (name : Text) (namespace_ : Option Text) : Bool :=
  tokens.all fun t => like name (likePattern t) || namespace_.any fun n => like n (likePattern t)

/-- The phrases of the full-text index and the tokens of the filters. -/
def run (query : Text) : Option (Option Text × List Text) :=
  let trimmed := trim query
  if trimmed.length < minQueryLen then none
  else
    let tokens := splitWhitespace trimmed
    let long := tokens.filter fun t => trigramMin ≤ t.length
    let short := tokens.filter fun t => !decide (trigramMin ≤ t.length)
    if long.isEmpty then some (none, short)
    else some (some ([' '].intercalate (long.map escapeFtsPhrase)), short)

/-- Contained up to the case of ASCII letters. -/
def Contains (s t : Text) : Prop := ∃ u, u <:+: s ∧ u.map Char.toLower = t.map Char.toLower

/-! ## Patterns -/

theorem replace_cons (c : Char) (r : Text) (d : Char) (t : Text) :
    replace c r (d :: t) = (if d = c then r else [d]) ++ replace c r t := List.flatMap_cons

theorem replace_append (c : Char) (r t u : Text) : replace c r (t ++ u) = replace c r t ++ replace c r u :=
  List.flatMap_append

/-- The replacements one after another put one backslash in front of each of the three characters: none of
them meets a character that an earlier one has put in. -/
theorem escapeLike_eq (s : Text) : escapeLike s = escaped '%' '_' '\\' s := by
  induction s with
  | nil => rfl
  | cons c s ih =>
    have hcons : escapeLike ([c] ++ s) = escapeLike [c] ++ escapeLike s := by
      rw [escapeLike, replace_append, replace_append, replace_append, ← escapeLike, ← escapeLike]
    rw [← List.singleton_append, hcons, ih, escaped, escaped, List.singleton_append, List.flatMap_cons]
    congr 1
    by_cases hback : c = '\\'
    · subst hback
      decide
    by_cases hmany : c = '%'
    · subst hmany
      decide
    by_cases hone : c = '_'
    · subst hone
      decide
    rw [if_neg (not_or.mpr ⟨hback, not_or.mpr ⟨hmany, hone⟩⟩)]
    unfold escapeLike
    rw [replace_cons, if_neg hback]
    change replace '_' _ (replace '%' _ [c]) = [c]
    rw [replace_cons, if_neg hmany]
    change replace '_' _ [c] = [c]
    rw [replace_cons, if_neg hone]
    rfl

theorem items_likePattern (t : Text) : items '%' '_' '\\' (likePattern t) = some (.many :: (t.map .same ++ [.many])) := by
  rw [likePattern, escapeLike_eq, items_cons _ _ _ (by decide), if_pos rfl, items_escaped]
  rfl

theorem like_likePattern (s t : Text) : like s (likePattern t) = true ↔ Contains s t := by
  rw [like, items_likePattern]
  exact matchItems_within Char.toLower t s

/-- A row passes when each token is in its name or in its namespace. -/
theorem passesLikeFilters_iff (tokens : List Text) (name : Text) (namespace_ : Option Text) :
    passesLikeFilters tokens name namespace_ = true ↔
      ∀ t ∈ tokens, Contains name t ∨ ∃ n ∈ namespace_, Contains n t := by
  unfold passesLikeFilters
  simp only [List.all_eq_true, Bool.or_eq_true, like_likePattern, Option.any_eq_true_iff_get, Option.mem_def]
  refine forall₂_congr fun t _ => or_congr Iff.rfl ?_
  cases namespace_ with
  | none => simp
  | some n => simp

/-! ## Phrases -/

/-- Where a reader of phrases is: between them, within one, or behind a quote that ends the phrase unless
another one follows. -/
inductive Place | outside | inside (said : Text) | quote (said : Text)

def isFtsSpace (c : Char) : Bool := c = ' ' || c = '\t' || c = '\n' || c = '\r'

/-- The contents of a query that is a row of quoted strings, in which a quote is written twice. -/
def phrasesFrom : Place → Text → Option (List Text)
  | .outside, [] => some []
  | .outside, c :: t =>
    if c = '"' then phrasesFrom (.inside []) t else if isFtsSpace c then phrasesFrom .outside t else none
  | .inside _, [] => none
  | .inside said, c :: t =>
    if c = '"' then phrasesFrom (.quote said) t else phrasesFrom (.inside (said ++ [c])) t
  | .quote said, [] => some [said]
  | .quote said, c :: t =>
    if c = '"' then phrasesFrom (.inside (said ++ ['"'])) t
    else if isFtsSpace c then (phrasesFrom .outside t).map (said :: ·)
    else none

def phrases (query : Text) : Option (List Text) := phrasesFrom .outside query

/-- Within a phrase, doubled quotes are read as what they were. -/
theorem phrasesFrom_inside (said t rest : Text) :
    phrasesFrom (.inside said) (replace '"' "\"\"".toList t ++ rest) = phrasesFrom (.inside (said ++ t)) rest := by
  induction t generalizing said with
  | nil =>
    rw [List.append_nil]
    rfl
  | cons c t ih =>
    rw [replace_cons, List.append_assoc]
    by_cases hc : c = '"'
    · subst hc
      rw [if_pos rfl]
      change phrasesFrom (.inside (said ++ ['"'])) (replace '"' "\"\"".toList t ++ rest) = _
      rw [ih, List.append_assoc, List.singleton_append]
    · rw [if_neg hc, List.singleton_append, phrasesFrom, if_neg hc, ih, List.append_assoc, List.singleton_append]

theorem phrasesFrom_phrase (t rest : Text) :
    phrasesFrom .outside (escapeFtsPhrase t ++ rest) = phrasesFrom (.quote t) rest := by
  rw [escapeFtsPhrase, List.cons_append, phrasesFrom, if_pos rfl, List.append_assoc, phrasesFrom_inside,
    List.nil_append, List.singleton_append, phrasesFrom, if_pos rfl]

theorem phrases_escapeFtsPhrase (t : Text) : phrases (escapeFtsPhrase t) = some [t] := by
  have h := phrasesFrom_phrase t []
  rwa [List.append_nil] at h

/-- The index is asked for exactly the long words, whatever is written in them. -/
theorem phrases_intercalate (ts : List Text) : phrases ([' '].intercalate (ts.map escapeFtsPhrase)) = some ts := by
  induction ts with
  | nil => rfl
  | cons t ts ih =>
    cases ts with
    | nil =>
      rw [List.map_cons, List.map_nil, List.intercalate_singleton]
      exact phrases_escapeFtsPhrase t
    | cons u us =>
      rw [List.map_cons, List.map_cons, List.intercalate_cons_cons, ← List.map_cons, List.append_assoc, phrases,
        phrasesFrom_phrase, List.singleton_append, phrasesFrom, if_neg (by decide), if_pos (by decide)]
      exact congrArg (Option.map (t :: ·)) ih

/-- What a query asks for: the phrases are its words of three characters or more, the filters are its other words. -/
theorem run_spec {query : Text} {phraseQuery : Option Text} {short : List Text}
    (h : run query = some (phraseQuery, short)) :
    (phraseQuery.bind phrases).getD [] = (splitWhitespace (trim query)).filter (fun t => trigramMin ≤ t.length) ∧
      (phraseQuery.isSome → (phraseQuery.bind phrases).isSome) ∧
      ∀ t, t ∈ short ↔ t ∈ splitWhitespace (trim query) ∧ t.length < trigramMin := by
  simp only [run] at h
  have hshort : ∀ t, t ∈ (splitWhitespace (trim query)).filter (fun t => !decide (trigramMin ≤ t.length)) ↔
      t ∈ splitWhitespace (trim query) ∧ t.length < trigramMin := by
    intro t
    rw [List.mem_filter, Bool.not_eq_true', decide_eq_false_iff_not, Nat.not_le]
  split at h
  · cases h
  · split at h
    · next hlong =>
      cases h
      exact ⟨(List.isEmpty_iff.mp hlong).symm, fun hsome => absurd hsome Bool.false_ne_true, hshort⟩
    · cases h
      rw [Option.bind_some, phrases_intercalate]
      exact ⟨rfl, fun _ => rfl, hshort⟩

example : like "web-1_B".toList (likePattern "1_b".toList) = true ∧ like "web-12b".toList (likePattern "1_b".toList) = false := by
  decide

end FerrisScope.SearchQueries
