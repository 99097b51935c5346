import Mathlib.Data.List.Basic
import Mathlib.Data.List.Induction
import Mathlib.Data.List.TakeWhile

/-!
# Texts and their bytes

A place in a text is counted in bytes, and a part of a text is taken only between its characters. An ASCII
character is one byte, and any other character is made of bytes that are no ASCII character.
-/

namespace FerrisScope.Utf8Slices

def encode (t : List Char) : List UInt8 := t.flatMap String.utf8EncodeChar

def byteLen (t : List Char) : Nat := (encode t).length

/-- The text from this byte on, if the byte does not lie within a character. -/
def sliceFrom : List Char → Nat → Option (List Char)
  | [], n => if n = 0 then some [] else none
  | c :: t, n => if n = 0 then some (c :: t) else if c.utf8Size ≤ n then sliceFrom t (n - c.utf8Size) else none

def sliceTo : List Char → Nat → Option (List Char)
  | [], n => if n = 0 then some [] else none
  | c :: t, n =>
    if n = 0 then some [] else if c.utf8Size ≤ n then (sliceTo t (n - c.utf8Size)).map (c :: ·) else none

def slice (t : List Char) (i j : Nat) : Option (List Char) :=
  if i ≤ j then (sliceFrom t i).bind fun r => sliceTo r (j - i) else none

theorem encode_append (u v : List Char) : encode (u ++ v) = encode u ++ encode v := List.flatMap_append

theorem byteLen_nil : byteLen [] = 0 := rfl

theorem byteLen_append (u v : List Char) : byteLen (u ++ v) = byteLen u + byteLen v := by
  rw [byteLen, encode_append, List.length_append, byteLen, byteLen]

theorem byteLen_cons (c : Char) (t : List Char) : byteLen (c :: t) = c.utf8Size + byteLen t := by
  rw [byteLen, encode, List.flatMap_cons, List.length_append, String.length_utf8EncodeChar, byteLen, encode]

theorem length_le_byteLen (t : List Char) : t.length ≤ byteLen t := by
  induction t with
  | nil => exact Nat.zero_le _
  | cons c t ih =>
    have hpos := c.utf8Size_pos
    rw [byteLen_cons, List.length_cons]
    omega

theorem byteLen_eq_zero {t : List Char} : byteLen t = 0 ↔ t = [] := by
  constructor
  · intro h
    have hlength := length_le_byteLen t
    exact List.eq_nil_of_length_eq_zero (by omega)
  · rintro rfl
    rfl

theorem sliceFrom_append (u t : List Char) : sliceFrom (u ++ t) (byteLen u) = some t := by
  induction u with
  | nil => cases t <;> rfl
  | cons c u ih =>
    have hpos := c.utf8Size_pos
    rw [byteLen_cons, List.cons_append, sliceFrom, if_neg (by omega), if_pos (Nat.le_add_right _ _),
      Nat.add_sub_cancel_left, ih]

theorem sliceTo_append (u t : List Char) : sliceTo (u ++ t) (byteLen u) = some u := by
  induction u with
  | nil => cases t <;> rfl
  | cons c u ih =>
    have hpos := c.utf8Size_pos
    rw [byteLen_cons, List.cons_append, sliceTo, if_neg (by omega), if_pos (Nat.le_add_right _ _),
      Nat.add_sub_cancel_left, ih, Option.map_some]

theorem slice_append (u v w : List Char) : slice (u ++ (v ++ w)) (byteLen u) (byteLen u + byteLen v) = some v := by
  rw [slice, if_pos (Nat.le_add_right _ _), sliceFrom_append, Option.bind_some, Nat.add_sub_cancel_left, sliceTo_append]

/-! ## Bytes of a character -/

theorem encode_ascii {c : Char} (h : c.toNat < 128) : String.utf8EncodeChar c = [c.toUInt8] := by
  have hsize : c.utf8Size = 1 := by
    rw [Char.utf8Size_eq_one_iff, UInt32.le_iff_toNat_le]
    change c.toNat ≤ 127
    omega
  rw [String.utf8EncodeChar_eq_singleton hsize]
  rfl

theorem utf8Size_ascii {c : Char} (h : c.toNat < 128) : c.utf8Size = 1 := by
  rw [← String.length_utf8EncodeChar, encode_ascii h]
  rfl

theorem byteLen_ascii {t : List Char} (h : ∀ c ∈ t, c.toNat < 128) : byteLen t = t.length := by
  induction t with
  | nil => rfl
  | cons c t ih =>
    rw [byteLen_cons, utf8Size_ascii (h c List.mem_cons_self), ih fun d hd => h d (List.mem_cons_of_mem c hd),
      List.length_cons, Nat.add_comm]

theorem high_of_mem {c : Char} (h : 128 ≤ c.toNat) : ∀ b ∈ String.utf8EncodeChar c, 128 ≤ b.toNat := by
  intro b hb
  have hv : ¬ c.val.toNat ≤ 0x7f := Nat.not_le.mpr h
  rw [String.utf8EncodeChar, if_neg hv] at hb
  split at hb
  · simp only [List.mem_cons, List.not_mem_nil, or_false] at hb
    rcases hb with rfl | rfl <;> rw [UInt8.toNat_ofNat'] <;> omega
  · split at hb
    · simp only [List.mem_cons, List.not_mem_nil, or_false] at hb
      rcases hb with rfl | rfl | rfl <;> rw [UInt8.toNat_ofNat'] <;> omega
    · simp only [List.mem_cons, List.not_mem_nil, or_false] at hb
      rcases hb with rfl | rfl | rfl | rfl <;> rw [UInt8.toNat_ofNat'] <;> omega

/-- A set of characters that are all ASCII, and the bytes that are these characters. -/
structure Ascii (p : Char → Bool) (q : UInt8 → Bool) : Prop where
  same : ∀ c : Char, c.toNat < 128 → q c.toUInt8 = p c
  high_byte : ∀ b : UInt8, 128 ≤ b.toNat → q b = false
  high_char : ∀ c : Char, 128 ≤ c.toNat → p c = false

theorem Ascii.takeWhile_encode {p : Char → Bool} {q : UInt8 → Bool} (h : Ascii p q) (t : List Char) :
    (encode t).takeWhile q = encode (t.takeWhile p) := by
  induction t with
  | nil => rfl
  | cons c t ih =>
    rw [encode, List.flatMap_cons, List.takeWhile_cons]
    by_cases hc : c.toNat < 128
    · rw [encode_ascii hc, List.singleton_append, List.takeWhile_cons, h.same c hc]
      cases p c with
      | false => rfl
      | true =>
        rw [if_pos rfl, if_pos rfl, encode, List.flatMap_cons, encode_ascii hc]
        exact congrArg (c.toUInt8 :: ·) ih
    · have hhigh : 128 ≤ c.toNat := by omega
      rw [h.high_char c hhigh]
      cases hbytes : String.utf8EncodeChar c with
      | nil => exact absurd hbytes String.utf8EncodeChar_ne_nil
      | cons b bs =>
        have hb := high_of_mem hhigh b (by rw [hbytes]; exact List.mem_cons_self)
        rw [List.cons_append, List.takeWhile_cons, h.high_byte b hb]
        rfl

theorem Ascii.getLast?_encode {p : Char → Bool} {q : UInt8 → Bool} (h : Ascii p q) (t : List Char) :
    (encode t).getLast?.map q = t.getLast?.map p := by
  induction t using List.reverseRecOn with
  | nil => rfl
  | append_singleton t c _ =>
    have hencode : encode (t ++ [c]) = encode t ++ String.utf8EncodeChar c := by
      rw [encode_append, encode, encode, List.flatMap_singleton]
    rw [hencode, List.getLast?_append_of_ne_nil _ String.utf8EncodeChar_ne_nil, List.getLast?_concat, Option.map_some]
    by_cases hc : c.toNat < 128
    · rw [encode_ascii hc]
      exact congrArg some (h.same c hc)
    · have hhigh : 128 ≤ c.toNat := by omega
      rw [h.high_char c hhigh, List.getLast?_eq_some_getLast String.utf8EncodeChar_ne_nil, Option.map_some,
        h.high_byte _ (high_of_mem hhigh _ (List.getLast_mem _))]

theorem toNat_toUInt8 {c : Char} (h : c.toNat < 128) : c.toUInt8.toNat = c.toNat := by
  change c.val.toNat % 256 = _
  exact Nat.mod_eq_of_lt (Nat.lt_trans h (by decide))

/-- An ASCII word is found in the bytes exactly where it is found in the text. -/
theorem encode_prefix_iff {w t : List Char} (hw : ∀ c ∈ w, c.toNat < 128) : encode w <+: encode t ↔ w <+: t := by
  induction w generalizing t with
  | nil => exact iff_of_true List.nil_prefix List.nil_prefix
  | cons c w ih =>
    have hc : c.toNat < 128 := hw c List.mem_cons_self
    have htail : ∀ d ∈ w, d.toNat < 128 := fun d hd => hw d (List.mem_cons_of_mem c hd)
    have hencode : encode (c :: w) = c.toUInt8 :: encode w := by
      rw [encode, List.flatMap_cons, encode_ascii hc]
      rfl
    rw [hencode]
    cases t with
    | nil =>
      apply iff_of_false
      · exact fun h => absurd (List.prefix_nil.mp h) (List.cons_ne_nil _ _)
      · exact fun h => absurd (List.prefix_nil.mp h) (List.cons_ne_nil _ _)
    | cons d t =>
      rw [List.cons_prefix_cons, ← ih htail]
      by_cases hd : d.toNat < 128
      · have hencode' : encode (d :: t) = d.toUInt8 :: encode t := by
          rw [encode, List.flatMap_cons, encode_ascii hd]
          rfl
        rw [hencode', List.cons_prefix_cons]
        refine and_congr_left fun _ => ⟨fun h => ?_, congrArg Char.toUInt8⟩
        apply Char.toNat_inj.mp
        rw [← toNat_toUInt8 hc, h, toNat_toUInt8 hd]
      · apply iff_of_false
        · intro h
          cases hbytes : String.utf8EncodeChar d with
          | nil => exact String.utf8EncodeChar_ne_nil hbytes
          | cons b bs =>
            have hb := high_of_mem (Nat.not_lt.mp hd) b (by rw [hbytes]; exact List.mem_cons_self)
            have hencode' : encode (d :: t) = b :: (bs ++ encode t) := by
              rw [encode, List.flatMap_cons, hbytes]
              rfl
            rw [hencode', List.cons_prefix_cons] at h
            rw [← h.1, toNat_toUInt8 hc] at hb
            omega
        · rintro ⟨rfl, -⟩
          exact hd hc

end FerrisScope.Utf8Slices
