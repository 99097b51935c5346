import Mathlib.Data.List.Basic

/-!
# Lists cut into pieces

A list of pieces spells a list. Where a piece begins is told by what the pieces before it spell, and a
place of the list lies in one piece only.
-/

namespace FerrisScope.ListCuts

section
variable {α β γ : Type} (text : β → List α)

/-- The piece begins behind this list. -/
def Cut (pieces : List β) (behind : List α) (piece : β) : Prop :=
  ∃ before after, pieces = before ++ piece :: after ∧ before.flatMap text = behind

variable {text}

/-- Every place lies in a piece. -/
theorem exists_cut {pieces : List β} {u r : List α} (h : pieces.flatMap text = u ++ r) (hr : r ≠ []) :
    ∃ a p v w, Cut text pieces a p ∧ u = a ++ v ∧ text p = v ++ w ∧ w ≠ [] := by
  induction pieces generalizing u with
  | nil => exact absurd (List.append_eq_nil_iff.mp h.symm).2 hr
  | cons p ps ih =>
    rw [List.flatMap_cons] at h
    rcases List.append_eq_append_iff.mp h with ⟨u', hu, hrest⟩ | ⟨w, hp, hrest⟩
    · obtain ⟨a, q, v, w, ⟨before, after, hps, ha⟩, hu', hq, hw⟩ := ih hrest
      refine ⟨text p ++ a, q, v, w, ⟨p :: before, after, ?_, ?_⟩, ?_, hq, hw⟩
      · rw [hps, List.cons_append]
      · rw [List.flatMap_cons, ha]
      · rw [hu, hu', List.append_assoc]
    · cases w with
      | nil =>
        -- The place is the end of this piece.
        rw [List.append_nil] at hp
        obtain ⟨a, q, v, w, ⟨before, after, hps, ha⟩, hu', hq, hw⟩ :=
          ih (u := []) (by rw [hrest, List.nil_append, List.nil_append])
        obtain ⟨ha', hv⟩ := List.append_eq_nil_iff.mp hu'.symm
        refine ⟨text p, q, [], w, ⟨p :: before, after, ?_, ?_⟩, ?_, ?_, hw⟩
        · rw [hps, List.cons_append]
        · rw [List.flatMap_cons, ha, ha', List.append_nil]
        · rw [List.append_nil, hp]
        · rw [hq, hv]
      | cons c w => exact ⟨[], p, u, c :: w, ⟨[], ps, rfl, rfl⟩, rfl, hp, List.cons_ne_nil c w⟩

/-- Two pieces of which one begins within the other begin at the same place. -/
theorem Cut.unique {pieces : List β} {a b : List α} {p q : β} (hp : Cut text pieces a p) (hq : Cut text pieces b q)
    (hle : a.length ≤ b.length) (hlt : b.length < a.length + (text p).length) (hne : text q ≠ []) : a = b := by
  obtain ⟨before, after, hps, rfl⟩ := hp
  obtain ⟨before', after', hps', rfl⟩ := hq
  have hsame := hps.symm.trans hps'
  rcases List.append_eq_append_iff.mp hsame with ⟨l, hl, htail⟩ | ⟨l, hl, htail⟩
  · cases l with
    | nil => rw [hl, List.append_nil]
    | cons x l =>
      rw [List.cons_append] at htail
      rw [hl, List.flatMap_append, List.flatMap_cons, ← (List.cons.inj htail).1, List.length_append,
        List.length_append] at hlt
      omega
  · cases l with
    | nil => rw [hl, List.append_nil]
    | cons x l =>
      rw [List.cons_append] at htail
      rw [hl, List.flatMap_append, List.flatMap_cons, ← (List.cons.inj htail).1, List.length_append,
        List.length_append] at hle
      have hpos := List.length_pos_of_ne_nil hne
      omega

/-- Labels of the places, piece by piece, are read off the piece. -/
theorem Cut.label {pieces : List β} {a : List α} {p : β} (h : Cut text pieces a p) {label : β → List γ}
    (hlabel : ∀ q, (label q).length = (text q).length) {k : Nat} (hk : k < (text p).length) :
    (pieces.flatMap label)[a.length + k]? = (label p)[k]? := by
  obtain ⟨before, after, rfl, rfl⟩ := h
  have hlength : (before.flatMap label).length = (before.flatMap text).length := by
    rw [List.length_flatMap, List.length_flatMap]
    exact congrArg List.sum (List.map_congr_left fun q _ => hlabel q)
  rw [List.flatMap_append, List.flatMap_cons, ← hlength, List.getElem?_append_right (Nat.le_add_right _ _),
    Nat.add_sub_cancel_left, List.getElem?_append_left (by rw [hlabel]; exact hk)]

end

/-- What stands in joined pieces stands in a piece or in the separator. -/
theorem mem_intercalate {α : Type*} {sep : List α} {pieces : List (List α)} {a : α} (h : a ∈ sep.intercalate pieces) :
    a ∈ sep ∨ ∃ p ∈ pieces, a ∈ p := by
  induction pieces with
  | nil => cases h
  | cons p ps ih =>
    cases ps with
    | nil =>
      rw [List.intercalate_singleton] at h
      exact Or.inr ⟨p, List.mem_cons_self, h⟩
    | cons q qs =>
      rw [List.intercalate_cons_cons] at h
      rcases List.mem_append.mp h with h | h
      · rcases List.mem_append.mp h with h | h
        · exact Or.inr ⟨p, List.mem_cons_self, h⟩
        · exact Or.inl h
      · exact (ih h).imp_right fun ⟨r, hr, ha⟩ => ⟨r, List.mem_cons_of_mem p hr, ha⟩

/-- A piece has no separator in it. -/
theorem notMem_of_mem_splitOn {α : Type*} [DecidableEq α] {sep : α} {t p : List α} (h : p ∈ t.splitOn sep) : sep ∉ p := by
  induction t generalizing p with
  | nil =>
    rw [List.mem_singleton.mp h]
    exact List.not_mem_nil
  | cons c t ih =>
    rw [List.splitOn_cons_eq_if_modifyHead] at h
    split at h
    · rcases List.mem_cons.mp h with rfl | h
      · exact List.not_mem_nil
      · exact ih h
    · next hc =>
      cases hparts : t.splitOn sep with
      | nil =>
        rw [hparts] at h
        cases h
      | cons q qs =>
        rw [hparts, List.modifyHead_cons] at h
        rcases List.mem_cons.mp h with rfl | h
        · intro hmem
          rcases List.mem_cons.mp hmem with rfl | hmem
          · exact hc (beq_self_eq_true _)
          · exact ih (hparts ▸ List.mem_cons_self) hmem
        · exact ih (hparts ▸ List.mem_cons_of_mem q h)

end FerrisScope.ListCuts
