import Mathlib.Data.List.Basic
import Mathlib.Data.List.TakeWhile
import Mathlib.Tactic.Common

/-!
# Marked blocks in a list

A block runs from an element that opens it through the next one that closes it, or to the end of the
list. What opens a block counts only outside of blocks, and what closes one only inside.
-/

namespace FerrisScope.MarkedBlocks

variable {α : Type*} (opens closes : α → Bool)

/-- What stands outside of blocks. -/
def outside : Bool → List α → List α
  | _, [] => []
  | true, l :: rest => outside (!closes l) rest
  | false, l :: rest => if opens l then outside true rest else l :: outside false rest

/-- What stands in each block, without the marks. -/
def blocks : Option (List α) → List α → List (List α)
  | current, [] => current.toList
  | some body, l :: rest => if closes l then body :: blocks none rest else blocks (some (body ++ [l])) rest
  | none, l :: rest => if opens l then blocks (some []) rest else blocks none rest

attribute [grind =] outside blocks

variable {opens closes}

theorem outside_of_not_opens {ls : List α} (h : ∀ l ∈ ls, opens l = false) (rest : List α) :
    outside opens closes false (ls ++ rest) = ls ++ outside opens closes false rest := by
  induction ls with
  | nil => rfl
  | cons l ls ih =>
    obtain ⟨hl, hls⟩ := List.forall_mem_cons.mp h
    rw [List.cons_append, outside, if_neg (by simp [hl]), ih hls, List.cons_append]

theorem blocks_of_not_opens {ls : List α} (h : ∀ l ∈ ls, opens l = false) (rest : List α) :
    blocks opens closes none (ls ++ rest) = blocks opens closes none rest := by
  induction ls with
  | nil => rfl
  | cons l ls ih =>
    obtain ⟨hl, hls⟩ := List.forall_mem_cons.mp h
    rw [List.cons_append, blocks, if_neg (by simp [hl]), ih hls]

theorem outside_of_not_closes {ls : List α} (h : ∀ l ∈ ls, closes l = false) (rest : List α) :
    outside opens closes true (ls ++ rest) = outside opens closes true rest := by
  induction ls with
  | nil => rfl
  | cons l ls ih =>
    obtain ⟨hl, hls⟩ := List.forall_mem_cons.mp h
    rw [List.cons_append, outside, hl, Bool.not_false, ih hls]

theorem blocks_of_not_closes {ls : List α} (h : ∀ l ∈ ls, closes l = false) (body rest : List α) :
    blocks opens closes (some body) (ls ++ rest) = blocks opens closes (some (body ++ ls)) rest := by
  induction ls generalizing body with
  | nil => rw [List.nil_append, List.append_nil]
  | cons l ls ih =>
    obtain ⟨hl, hls⟩ := List.forall_mem_cons.mp h
    rw [List.cons_append, blocks, if_neg (by simp [hl]), ih hls, List.append_assoc, List.singleton_append]

/-- One block without anything around it. -/
theorem outside_block {first last : α} {body : List α} (hfirst : opens first = true) (hlast : closes last = true)
    (hbody : ∀ l ∈ body, closes l = false) (rest : List α) :
    outside opens closes false (first :: (body ++ last :: rest)) = outside opens closes false rest := by
  rw [outside, if_pos hfirst, outside_of_not_closes hbody, outside, hlast, Bool.not_true]

theorem blocks_block {first last : α} {body : List α} (hfirst : opens first = true) (hlast : closes last = true)
    (hbody : ∀ l ∈ body, closes l = false) (rest : List α) :
    blocks opens closes none (first :: (body ++ last :: rest)) = body :: blocks opens closes none rest := by
  rw [blocks, if_pos hfirst, blocks_of_not_closes hbody, List.nil_append, blocks, if_pos hlast]

theorem not_opens_of_mem_outside {inside : Bool} {ls : List α} :
    ∀ l ∈ outside opens closes inside ls, opens l = false := by
  induction ls generalizing inside with
  | nil =>
    intro l hl
    cases inside <;> cases hl
  | cons l' ls ih =>
    intro l hl
    cases inside with
    | true => exact ih l hl
    | false =>
      rw [outside] at hl
      split at hl
      · exact ih l hl
      · rename_i hopens
        rcases List.mem_cons.mp hl with rfl | hl
        · simpa using hopens
        · exact ih l hl

theorem outside_map {β : Type*} (f : β → α) (inside : Bool) (ls : List β) :
    outside opens closes inside (ls.map f) =
      (outside (fun b => opens (f b)) (fun b => closes (f b)) inside ls).map f := by
  induction ls generalizing inside with
  | nil => cases inside <;> rfl
  | cons l ls ih =>
    rw [List.map_cons]
    cases inside with
    | true => rw [outside, ih, outside]
    | false =>
      rw [outside, ih, ih, outside]
      split
      · rfl
      · rw [List.map_cons]

theorem outside_sublist (inside : Bool) (ls : List α) : (outside opens closes inside ls).Sublist ls := by
  induction ls generalizing inside with
  | nil => cases inside <;> exact List.Sublist.refl _
  | cons l ls ih =>
    cases inside with
    | true => exact (ih _).cons l
    | false =>
      rw [outside]
      split
      · exact (ih true).cons l
      · exact (ih false).cons_cons l

/-- The open block ends before the first closing mark. -/
theorem blocks_some (body ls : List α) :
    blocks opens closes (some body) ls =
      (body ++ ls.takeWhile fun l => !closes l) :: blocks opens closes none ((ls.dropWhile fun l => !closes l).drop 1) := by
  induction ls generalizing body with
  | nil => simp [blocks]
  | cons l ls ih =>
    cases hl : closes l with
    | true => simp [blocks, hl]
    | false => simp [blocks, hl, ih]

theorem blocks_eq_nil_iff {ls : List α} : blocks opens closes none ls = [] ↔ ∀ l ∈ ls, opens l = false := by
  constructor
  · intro h
    induction ls with
    | nil => exact fun l hl => absurd hl List.not_mem_nil
    | cons l ls ih =>
      rw [blocks] at h
      split at h
      · rw [blocks_some] at h
        cases h
      · rename_i hopens
        exact List.forall_mem_cons.mpr ⟨by simpa using hopens, ih h⟩
  · intro h
    have hnone : blocks opens closes none (ls ++ []) = blocks opens closes none [] := blocks_of_not_opens h []
    rwa [List.append_nil] at hnone

end FerrisScope.MarkedBlocks
