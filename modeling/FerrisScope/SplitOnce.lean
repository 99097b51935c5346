import Mathlib.Data.List.Infix

/-!
# Splitting a list at the first occurrence of a separator
-/

namespace FerrisScope.SplitOnce

variable {α : Type*}

/-- The parts before and after the first occurrence of the separator. -/
def splitOnce [DecidableEq α] (sep : List α) : List α → Option (List α × List α)
  | [] => if sep = [] then some ([], []) else none
  | c :: cs =>
      if sep <+: c :: cs then some ([], (c :: cs).drop sep.length)
      else (splitOnce sep cs).map fun e => (c :: e.1, e.2)

/-- With the separator behind the list, its first occurrence is the one behind the list. -/
def Clear (sep : List α) : List α → Prop
  | [] => True
  | c :: cs => ¬ sep <+: c :: (cs ++ sep) ∧ Clear sep cs

attribute [grind =] splitOnce Clear

instance decidableClear [DecidableEq α] (sep : List α) : (a : List α) → Decidable (Clear sep a)
  | [] => isTrue trivial
  | c :: cs =>
      have := decidableClear sep cs
      inferInstanceAs (Decidable (¬ sep <+: c :: (cs ++ sep) ∧ Clear sep cs))

theorem prefix_append_iff {sep a : List α} (b : List α) (h : sep.length ≤ a.length) :
    sep <+: a ++ b ↔ sep <+: a :=
  ⟨fun hb => List.prefix_of_prefix_length_le hb (List.prefix_append a b) h,
    fun ha => ha.trans (List.prefix_append a b)⟩

/-- A part without the separator's first element is clear of it. -/
theorem clear_append {x : α} {sep a : List α} (h : x ∉ a) (b : List α) :
    Clear (x :: sep) (a ++ b) ↔ Clear (x :: sep) b := by
  induction a with
  | nil => rfl
  | cons c cs ih =>
    obtain ⟨hne, hcs⟩ := not_or.mp (List.mem_cons.not.mp h)
    rw [List.cons_append, Clear, ih hcs]
    simp [hne]

theorem clear_of_notMem {x : α} {sep a : List α} (h : x ∉ a) : Clear (x :: sep) a := by
  have happend := @clear_append α x sep a h []
  rw [List.append_nil] at happend
  exact happend.mpr trivial

theorem clear_singleton_iff {x : α} {a : List α} : Clear [x] a ↔ x ∉ a := by
  induction a with
  | nil => simp [Clear]
  | cons c cs ih => simp [Clear, ih]

/-- For a doubled element: it stands nowhere inside, and the element not at the end. -/
theorem clear_pair_iff {x : α} {a : List α} :
    Clear [x, x] a ↔ ¬ [x, x] <:+: a ∧ a.getLast? ≠ some x := by
  induction a with
  | nil => simp [Clear]
  | cons c cs ih =>
    rw [Clear, ih]
    cases cs with
    | nil =>
      by_cases hx : x = c
      · subst hx
        simp
      · simp [List.infix_cons_iff, hx, Ne.symm hx]
    | cons d ds =>
      rw [List.infix_cons_iff (a := c), List.getLast?_cons_cons]
      simp only [List.cons_append, List.cons_prefix_cons, List.nil_prefix, and_true]
      tauto

/-- A part that ends with an element outside of the separator, and does not have the separator in it. -/
theorem clear_append_cons {x : α} {sep a b : List α} (hx : x ∉ sep) (ha : ¬ sep <:+: a) (hb : Clear sep b) :
    Clear sep (a ++ x :: b) := by
  induction a with
  | nil =>
    refine ⟨fun hfront => ?_, hb⟩
    cases sep with
    | nil => exact ha (List.nil_infix)
    | cons y sep =>
      rw [List.cons_prefix_cons] at hfront
      exact hx (hfront.1 ▸ List.mem_cons_self)
  | cons c cs ih =>
    refine ⟨fun hfront => ?_, ih fun hcs => ha (List.infix_cons hcs)⟩
    have hsplit : c :: (cs ++ x :: b ++ sep) = (c :: cs ++ [x]) ++ (b ++ sep) := by simp
    replace hfront : sep <+: (c :: cs ++ [x]) ++ (b ++ sep) := hsplit ▸ hfront
    by_cases hlength : sep.length ≤ (c :: cs).length
    · rw [List.append_assoc] at hfront
      exact ha ((prefix_append_iff _ hlength).mp hfront).isInfix
    · have hlonger : c :: cs ++ [x] <+: sep := by
        apply List.prefix_of_prefix_length_le (List.prefix_append _ _) hfront
        rw [List.length_append, List.length_singleton]
        omega
      exact hx (hlonger.subset (List.mem_append_right _ List.mem_cons_self))

variable [DecidableEq α]

theorem splitOnce_append_self (sep b : List α) : splitOnce sep (sep ++ b) = some ([], b) := by
  cases h : sep ++ b with
  | nil =>
    obtain ⟨rfl, rfl⟩ := List.append_eq_nil_iff.mp h
    simp [splitOnce]
  | cons c cs =>
    have hfront : sep <+: c :: cs := ⟨b, h⟩
    rw [splitOnce, if_pos hfront, ← h, List.drop_left]

theorem eq_of_splitOnce {sep t a b : List α} (h : splitOnce sep t = some (a, b)) :
    t = a ++ sep ++ b := by
  induction t generalizing a with
  | nil =>
    rw [splitOnce] at h
    split_ifs at h with hsep
    simp_all
  | cons c cs ih =>
    rw [splitOnce] at h
    split_ifs at h with hfront
    · obtain ⟨rest, hrest⟩ := hfront
      simp only [Option.some.injEq, Prod.mk.injEq] at h
      obtain ⟨rfl, rfl⟩ := h
      rw [← hrest, List.drop_left, List.nil_append]
    · obtain ⟨⟨a', b'⟩, hcs, heq⟩ := Option.map_eq_some_iff.mp h
      obtain ⟨rfl, rfl⟩ := Prod.mk.inj heq
      rw [ih hcs]
      rfl

/-- The split finds the separator behind `a` exactly when none begins inside `a`. -/
theorem splitOnce_append_iff {sep a b : List α} :
    splitOnce sep (a ++ sep ++ b) = some (a, b) ↔ Clear sep a := by
  induction a with
  | nil => simp [splitOnce_append_self, Clear]
  | cons c cs ih =>
    have hfirst : sep <+: c :: (cs ++ sep ++ b) ↔ sep <+: c :: (cs ++ sep) :=
      prefix_append_iff (a := c :: (cs ++ sep)) b (by simp; omega)
    rw [List.cons_append, List.cons_append, splitOnce, Clear, ← hfirst, ← ih]
    simp only [List.append_assoc] at hfirst ⊢
    split_ifs with hfront
    · simp [hfront]
    · simp [Option.map_eq_some_iff, hfront]

theorem splitOnce_of_notMem {x : α} {t : List α} (h : x ∉ t) : splitOnce [x] t = none := by
  induction t with
  | nil => simp [splitOnce]
  | cons c cs ih =>
    obtain ⟨hne, hcs⟩ := not_or.mp (List.mem_cons.not.mp h)
    simp [splitOnce, hne, ih hcs]

theorem splitOnce_eq_none_iff {sep t : List α} : splitOnce sep t = none ↔ ¬ sep <:+: t := by
  induction t with
  | nil => simp [splitOnce]
  | cons c cs ih =>
    rw [splitOnce, List.infix_cons_iff, not_or, ← ih]
    split_ifs with hfront
    · simp [hfront]
    · simp [hfront]

/-- A split whose second part is the expected one is the expected split. -/
theorem clear_of_splitOnce_snd {sep a b : List α} {e : List α × List α}
    (h : splitOnce sep (a ++ sep ++ b) = some e) (hb : e.2 = b) : Clear sep a := by
  obtain ⟨a', b'⟩ := e
  obtain rfl : b' = b := hb
  have heq := eq_of_splitOnce h
  rw [List.append_left_inj, List.append_left_inj] at heq
  subst heq
  exact splitOnce_append_iff.mp h

end FerrisScope.SplitOnce
