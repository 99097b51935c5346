import Mathlib.Tactic.Common

/-!
# Codes that keep an order

A code keeps a comparison when two codes compare as what they stand for, whatever follows them, and
what follows decides between equal ones. The codes of a list, one behind the other, then compare
lexicographically.
-/

namespace FerrisScope.OrderedCodes

variable {α β : Type*} {cmp : α → α → Ordering} {unit : β → β → Ordering} {code : α → List β} {Valid : α → Prop}

structure OrderedCode (cmp : α → α → Ordering) (unit : β → β → Ordering) (code : α → List β) (Valid : α → Prop) :
    Prop where
  ne_nil : ∀ a, Valid a → code a ≠ []
  compare : ∀ a b, Valid a → Valid b → ∀ x y,
    List.compareLex unit (code a ++ x) (code b ++ y) = (cmp a b).then (List.compareLex unit x y)

theorem compareLex_nil_of_ne {x : List β} (h : x ≠ []) : List.compareLex unit [] x = .lt := by
  obtain ⟨b, bs, rfl⟩ := List.exists_cons_of_ne_nil h
  rfl

theorem compareLex_of_ne_nil {x : List β} (h : x ≠ []) : List.compareLex unit x [] = .gt := by
  obtain ⟨b, bs, rfl⟩ := List.exists_cons_of_ne_nil h
  rfl

/-- Concatenated codes compare as the lists they stand for. -/
theorem OrderedCode.compareLex_flatMap (h : OrderedCode cmp unit code Valid) {as bs : List α}
    (has : ∀ a ∈ as, Valid a) (hbs : ∀ b ∈ bs, Valid b) :
    List.compareLex unit (as.flatMap code) (bs.flatMap code) = List.compareLex cmp as bs := by
  have hne : ∀ {c : α} {cs : List α}, Valid c → (c :: cs).flatMap code ≠ [] := by
    intro c cs hc hnil
    rw [List.flatMap_cons] at hnil
    exact h.ne_nil c hc (List.append_eq_nil_iff.mp hnil).1
  induction as generalizing bs with
  | nil =>
    cases bs with
    | nil => rfl
    | cons b bs => exact compareLex_nil_of_ne (hne (hbs b List.mem_cons_self))
  | cons a as ih =>
    cases bs with
    | nil => exact compareLex_of_ne_nil (hne (has a List.mem_cons_self))
    | cons b bs =>
      have htail := ih (fun c hc => has c (List.mem_cons_of_mem a hc)) fun c hc => hbs c (List.mem_cons_of_mem b hc)
      rw [List.flatMap_cons, List.flatMap_cons, h.compare a b (has a List.mem_cons_self) (hbs b List.mem_cons_self),
        htail, List.compareLex_cons_cons]

theorem compareLex_map {γ : Type*} (f : γ → α) (as bs : List γ) :
    List.compareLex cmp (as.map f) (bs.map f) = List.compareLex (fun a b => cmp (f a) (f b)) as bs := by
  induction as generalizing bs with
  | nil => cases bs <;> rfl
  | cons a as ih =>
    cases bs with
    | nil => rfl
    | cons b bs => rw [List.map_cons, List.map_cons, List.compareLex_cons_cons, List.compareLex_cons_cons, ih]

/-- Of lists of one length, what follows decides only when they are equal. -/
theorem compareLex_append {t u : List β} (hlength : t.length = u.length) (x y : List β) :
    List.compareLex unit (t ++ x) (u ++ y) = (List.compareLex unit t u).then (List.compareLex unit x y) := by
  induction t generalizing u with
  | nil =>
    cases u with
    | nil => rfl
    | cons b bs => cases hlength
  | cons a t ih =>
    cases u with
    | nil => cases hlength
    | cons b u =>
      rw [List.cons_append, List.cons_append, List.compareLex_cons_cons, List.compareLex_cons_cons,
        ih (Nat.succ.inj hlength), Ordering.then_assoc]

/-- An end mark below every element makes a list end before its continuations. -/
theorem compareLex_terminated {mark : β} {t u : List β} (hself : unit mark mark = .eq)
    (ht : ∀ b ∈ t, unit b mark = .gt) (hu : ∀ b ∈ u, unit mark b = .lt) (x y : List β) :
    List.compareLex unit (t ++ mark :: x) (u ++ mark :: y) =
      (List.compareLex unit t u).then (List.compareLex unit x y) := by
  induction t generalizing u with
  | nil =>
    cases u with
    | nil =>
      rw [List.nil_append, List.nil_append, List.compareLex_cons_cons, hself]
      rfl
    | cons b u =>
      rw [List.nil_append, List.cons_append, List.compareLex_cons_cons, hu b List.mem_cons_self]
      rfl
  | cons a t ih =>
    cases u with
    | nil =>
      rw [List.nil_append, List.cons_append, List.compareLex_cons_cons, ht a List.mem_cons_self]
      rfl
    | cons b u =>
      rw [List.cons_append, List.cons_append, List.compareLex_cons_cons, List.compareLex_cons_cons,
        ih (fun c hc => ht c (List.mem_cons_of_mem a hc)) (fun c hc => hu c (List.mem_cons_of_mem b hc)),
        Ordering.then_assoc]

end FerrisScope.OrderedCodes
