import FerrisScope.CharacterBoundaries
import FerrisScope.LeftmostScans

/-!
# Where a text occurs in another

The first place of a pattern in a text, and all of its places in the bytes of the text. The first byte of a
character is no byte within one, so the bytes of a pattern are found only where the pattern is.
-/

namespace FerrisScope.TextSearch
open Utf8Slices CharacterBoundaries LeftmostScans

/-- The pattern is in the text with this many bytes before it. -/
def Occurs (p t : List Char) (i : Nat) : Prop := ∃ u w, t = u ++ (p ++ w) ∧ byteLen u = i

/-- The place of the first occurrence. -/
def find (p : List Char) : List Char → Option Nat
  | [] => if p = [] then some 0 else none
  | c :: t => if p.isPrefixOf (c :: t) then some 0 else (find p t).map (c.utf8Size + ·)

theorem occurs_zero {p t : List Char} : Occurs p t 0 ↔ p <+: t := by
  constructor
  · rintro ⟨u, w, rfl, hu⟩
    rw [byteLen_eq_zero.mp hu]
    exact List.prefix_append p w
  · rintro ⟨w, rfl⟩
    exact ⟨[], w, rfl, rfl⟩

theorem occurs_nil {p : List Char} {i : Nat} : Occurs p [] i ↔ p = [] ∧ i = 0 := by
  constructor
  · rintro ⟨u, w, ht, rfl⟩
    obtain ⟨rfl, hpw⟩ := List.append_eq_nil_iff.mp ht.symm
    exact ⟨(List.append_eq_nil_iff.mp hpw).1, rfl⟩
  · rintro ⟨rfl, rfl⟩
    exact ⟨[], [], rfl, rfl⟩

theorem occurs_cons {p t : List Char} {c : Char} {i : Nat} :
    Occurs p (c :: t) i ↔ (i = 0 ∧ p <+: c :: t) ∨ ∃ j, Occurs p t j ∧ i = c.utf8Size + j := by
  constructor
  · rintro ⟨u, w, ht, rfl⟩
    cases u with
    | nil => exact Or.inl ⟨rfl, w, ht.symm⟩
    | cons d u =>
      obtain ⟨rfl, rfl⟩ := List.cons.inj ht
      exact Or.inr ⟨byteLen u, ⟨u, w, rfl, rfl⟩, byteLen_cons c u⟩
  · rintro (⟨rfl, h⟩ | ⟨j, ⟨u, w, rfl, rfl⟩, rfl⟩)
    · exact occurs_zero.mpr h
    · exact ⟨c :: u, w, rfl, byteLen_cons c u⟩

theorem find_spec (p t : List Char) : First (Occurs p t) 0 (find p t) := by
  induction t with
  | nil =>
    rw [find]
    split
    · next hp => exact First.hit (occurs_nil.mpr ⟨hp, rfl⟩)
    · next hp => exact fun k _ hk => hp (occurs_nil.mp hk).1
  | cons c t ih =>
    rw [find]
    split
    · next hp => exact First.hit (occurs_zero.mpr (List.isPrefixOf_iff_prefix.mp hp))
    · next hp =>
      have hprefix : ¬ p <+: c :: t := fun h => hp (List.isPrefixOf_iff_prefix.mpr h)
      apply ih.shift (Nat.zero_le _)
      intro k _
      rw [occurs_cons]
      exact or_iff_right fun h => hprefix h.2

/-! ## Places in the bytes -/

theorem encode_cons (c : Char) (t : List Char) : encode (c :: t) = String.utf8EncodeChar c ++ encode t :=
  List.flatMap_cons

/-- A text is its bytes. -/
theorem encode_prefix {p t : List Char} : encode p <+: encode t ↔ p <+: t := by
  constructor
  · intro h
    induction p generalizing t with
    | nil => exact List.nil_prefix
    | cons c p ih =>
      obtain ⟨rest, hrest⟩ := h
      rw [encode_cons, List.append_assoc] at hrest
      cases t with
      | nil => exact absurd (List.append_eq_nil_iff.mp hrest).1 String.utf8EncodeChar_ne_nil
      | cons d t =>
        rw [encode_cons] at hrest
        have hc := ByteArray.utf8DecodeChar?_utf8EncodeChar_append (c := c) (b := (encode p ++ rest).toByteArray)
        have hd := ByteArray.utf8DecodeChar?_utf8EncodeChar_append (c := d) (b := (encode t).toByteArray)
        rw [← List.toByteArray_append] at hc hd
        rw [hrest, hd] at hc
        obtain rfl := Option.some_inj.mp hc
        exact List.cons_prefix_cons.mpr ⟨rfl, ih ⟨rest, List.append_cancel_left hrest⟩⟩
  · rintro ⟨w, rfl⟩
    rw [encode_append]
    exact List.prefix_append _ _

/-- The first byte of a character starts a character. -/
theorem boundary_of_firstByte {t : List Char} {i : Nat} {b : UInt8} (h : (encode t)[i]? = some b)
    (hb : b.IsUTF8FirstByte) : isCharBoundary t i = true := by
  induction t generalizing i with
  | nil => exact absurd h (by simp [encode])
  | cons c t ih =>
    rw [encode_cons] at h
    by_cases hi : i < (String.utf8EncodeChar c).length
    · rw [List.getElem?_append_left hi, List.getElem?_eq_getElem hi] at h
      obtain rfl := Option.some_inj.mp h
      rw [UInt8.isUTF8FirstByte_getElem_utf8EncodeChar.mp hb]
      exact isCharBoundary_zero _
    · have hle := Nat.not_lt.mp hi
      rw [List.getElem?_append_right hle] at h
      obtain ⟨u, r, rfl, hu⟩ := isCharBoundary_iff.mp (ih h)
      refine isCharBoundary_iff.mpr ⟨c :: u, r, rfl, ?_⟩
      rw [String.length_utf8EncodeChar] at hle hu
      rw [byteLen_cons, hu]
      omega

/-- The bytes of a pattern start in the bytes of a text just where the pattern starts in the text. -/
theorem encode_prefix_drop_iff {p t : List Char} {i : Nat} (hp : p ≠ []) :
    encode p <+: (encode t).drop i ↔ Occurs p t i := by
  constructor
  · intro h
    have hboundary : isCharBoundary t i = true := by
      obtain ⟨c, p, rfl⟩ := List.exists_cons_of_ne_nil hp
      obtain ⟨rest, hrest⟩ := h
      have hpos : 0 < (String.utf8EncodeChar c).length := by
        rw [String.length_utf8EncodeChar]
        exact c.utf8Size_pos
      apply boundary_of_firstByte (b := (String.utf8EncodeChar c)[0])
      · rw [← Nat.add_zero i, ← List.getElem?_drop, ← hrest, encode_cons, List.append_assoc,
          List.getElem?_append_left hpos, List.getElem?_eq_getElem hpos]
      · exact UInt8.isUTF8FirstByte_getElem_utf8EncodeChar.mpr rfl
    obtain ⟨u, r, rfl, rfl⟩ := isCharBoundary_iff.mp hboundary
    rw [encode_append, byteLen, List.drop_left] at h
    obtain ⟨w, rfl⟩ := encode_prefix.mp h
    exact ⟨u, w, rfl, rfl⟩
  · rintro ⟨u, w, rfl, rfl⟩
    rw [encode_append, byteLen, List.drop_left, encode_append]
    exact List.prefix_append _ _

end FerrisScope.TextSearch
