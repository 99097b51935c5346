import Mathlib.Data.List.Infix

/-!
# Patterns with wildcards

A pattern is a list of items: any run of characters, any one character, or one character up to a folding of
the characters. A text of characters stands for a pattern once it is told which of them are the wildcards and
which takes its meaning from the character after it.
-/

namespace FerrisScope.LikePatterns

inductive Item (α : Type) | many | one | same (c : α)
deriving DecidableEq

variable {α β : Type}

section
variable [DecidableEq β] (fold : α → β)

/-- The whole text is matched. A run takes the text from one of its places on. -/
def matchItems : List (Item α) → List α → Bool
  | [], s => s.isEmpty
  | .many :: p, s => s.tails.any (matchItems p)
  | .one :: _, [] => false
  | .one :: p, _ :: s => matchItems p s
  | .same _ :: _, [] => false
  | .same d :: p, c :: s => decide (fold c = fold d) && matchItems p s

theorem matchItems_many (p : List (Item α)) (s : List α) :
    matchItems fold (.many :: p) s = true ↔ ∃ u, u <:+ s ∧ matchItems fold p u = true := by
  simp only [matchItems, List.any_eq_true, List.mem_tails]

/-- A run at the end takes what is left. -/
theorem matchItems_all (s : List α) : matchItems fold [.many] s = true :=
  (matchItems_many fold [] s).mpr ⟨[], List.nil_suffix, rfl⟩

/-- Characters in front of a run are a beginning of the text. -/
theorem matchItems_front (t s : List α) :
    matchItems fold (t.map .same ++ [.many]) s = true ↔ t.map fold <+: s.map fold := by
  induction t generalizing s with
  | nil =>
    rw [List.map_nil, List.map_nil, List.nil_append, matchItems_all]
    exact iff_of_true rfl List.nil_prefix
  | cons d t ih =>
    cases s with
    | nil =>
      rw [List.map_nil, List.map_cons, List.prefix_nil]
      exact iff_of_false Bool.false_ne_true (List.cons_ne_nil _ _)
    | cons c s =>
      rw [List.map_cons, List.cons_append, matchItems, Bool.and_eq_true, decide_eq_true_eq, ih, List.map_cons,
        List.map_cons, List.cons_prefix_cons, eq_comm]

/-- Characters between two runs are somewhere in the text. -/
theorem matchItems_within (t s : List α) :
    matchItems fold (.many :: (t.map .same ++ [.many])) s = true ↔ ∃ u, u <:+: s ∧ u.map fold = t.map fold := by
  rw [matchItems_many]
  constructor
  · rintro ⟨v, hv, hmatch⟩
    obtain ⟨w, hw⟩ := (matchItems_front fold t v).mp hmatch
    obtain ⟨u, x, rfl, hu, -⟩ := List.map_eq_append_iff.mp hw.symm
    exact ⟨u, (List.prefix_append u x).isInfix.trans hv.isInfix, hu⟩
  · rintro ⟨u, ⟨a, b, rfl⟩, hu⟩
    refine ⟨u ++ b, ⟨a, (List.append_assoc a u b).symm⟩, (matchItems_front fold t _).mpr ?_⟩
    rw [List.map_append, hu]
    exact List.prefix_append _ _

end

section
variable [DecidableEq α] (many one escape : α)

/-- A character after the escape character stands for itself, and the pattern may not end within an escape. -/
def items : List α → Option (List (Item α))
  | [] => some []
  | [c] => if c = escape then none else some [if c = many then .many else if c = one then .one else .same c]
  | c :: d :: p =>
    if c = escape then (items p).map (.same d :: ·)
    else (items (d :: p)).map ((if c = many then .many else if c = one then .one else .same c) :: ·)

/-- A text with an escape character in front of each character that has a meaning of its own. -/
def escaped (t : List α) : List α :=
  t.flatMap fun c => if c = escape ∨ c = many ∨ c = one then [escape, c] else [c]

theorem items_cons {c : α} (h : c ≠ escape) (p : List α) :
    items many one escape (c :: p) =
      (items many one escape p).map ((if c = many then .many else if c = one then .one else .same c) :: ·) := by
  cases p with
  | nil => exact if_neg h
  | cons d p => exact if_neg h

theorem items_escape (c : α) (p : List α) :
    items many one escape (escape :: c :: p) = (items many one escape p).map (.same c :: ·) := if_pos rfl

theorem items_escaped (t p : List α) :
    items many one escape (escaped many one escape t ++ p) = (items many one escape p).map (t.map .same ++ ·) := by
  induction t with
  | nil => exact Option.map_id'.symm
  | cons c t ih =>
    rw [escaped, List.flatMap_cons, List.append_assoc]
    change items many one escape (_ ++ (escaped many one escape t ++ p)) = _
    have htail : (items many one escape (escaped many one escape t ++ p)).map (Item.same c :: ·) =
        (items many one escape p).map ((c :: t).map Item.same ++ ·) := by
      rw [ih, Option.map_map]
      rfl
    split
    · exact (items_escape many one escape c _).trans htail
    · next hplain =>
      rw [not_or, not_or] at hplain
      rw [List.singleton_append, items_cons many one escape hplain.1, if_neg hplain.2.1, if_neg hplain.2.2, htail]

end

end FerrisScope.LikePatterns
