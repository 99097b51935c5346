import FerrisScope.Utf8Slices

/-!
# Letters of the ASCII alphabet in lower case

Lower case changes only letters of one byte. So it can be taken of the characters of a text or of its bytes.
-/

namespace FerrisScope.AsciiCase
open Utf8Slices

def toLowerByte (b : UInt8) : UInt8 := if 65 ≤ b && b ≤ 90 then b + 32 else b

def eqIgnoreAsciiCase (x y : List UInt8) : Bool := decide (x.map toLowerByte = y.map toLowerByte)

theorem forall_ascii {P : Char → Prop} (h : ∀ n < 128, P (Char.ofNat n)) (c : Char) (hc : c.toNat < 128) : P c := by
  rw [← Char.ofNat_toNat c]
  exact h _ hc

theorem forall_byte {P : UInt8 → Prop} (h : ∀ n < 256, P (UInt8.ofNat n)) (b : UInt8) : P b := by
  rw [← UInt8.ofNat_toNat (x := b)]
  exact h _ b.toNat_lt

theorem isAlphanum_high {c : Char} (h : 128 ≤ c.toNat) : c.isAlphanum = false := by
  have hupper : c.isUpper = false := by
    apply decide_eq_false
    change ¬ (65 ≤ c.toNat ∧ c.toNat ≤ 90)
    omega
  have hlow : ∀ d : Char, d.toNat < 128 → decide (c.val ≤ d.val) = false := by
    intro d hd
    apply decide_eq_false
    change ¬ c.toNat ≤ d.toNat
    omega
  change ((c.isUpper || (decide (c.val ≥ 'a'.val) && decide (c.val ≤ 'z'.val))) ||
    (decide (c.val ≥ '0'.val) && decide (c.val ≤ '9'.val))) = false
  rw [hupper, hlow 'z' (by decide), hlow '9' (by decide), Bool.and_false, Bool.and_false, Bool.or_false, Bool.or_false]

theorem ascii_of_isAlphanum {c : Char} (h : c.isAlphanum = true) : c.toNat < 128 := by
  by_contra hc
  rw [isAlphanum_high (Nat.not_lt.mp hc)] at h
  cases h

/-- Lower case leaves a letter a letter, and any other character as it is. -/
theorem toLower_cases (c : Char) : c.toLower = c ∨ (c.isAlphanum = true ∧ c.toLower.isAlphanum = true) := by
  by_cases h : c.val ≥ 'A'.val ∧ c.val ≤ 'Z'.val
  · have hrange : 65 ≤ c.toNat ∧ c.toNat ≤ 90 := h
    have hval : c.toLower.val = c.val + 32 := congrArg Char.val (dif_pos h)
    have hnat : c.toLower.toNat = c.toNat + 32 := by
      change c.toLower.val.toNat = _
      rw [hval, UInt32.toNat_add]
      change (c.toNat + 32) % 2 ^ 32 = _
      omega
    have hupper : c.isUpper = true := decide_eq_true h
    have hlower : c.toLower.isLower = true := by
      refine (Bool.and_eq_true _ _).mpr ?_
      rw [decide_eq_true_eq, decide_eq_true_eq]
      change 97 ≤ c.toLower.toNat ∧ c.toLower.toNat ≤ 122
      omega
    right
    constructor
    · change (c.isUpper || c.isLower || c.isDigit) = true
      rw [hupper, Bool.true_or, Bool.true_or]
    · change (c.toLower.isUpper || c.toLower.isLower || c.toLower.isDigit) = true
      rw [hlower, Bool.or_true, Bool.true_or]
  · exact .inl (dif_neg h)

theorem utf8Size_toLower (c : Char) : c.toLower.utf8Size = c.utf8Size := by
  rcases toLower_cases c with h | ⟨h, hlower⟩
  · rw [h]
  · rw [utf8Size_ascii (ascii_of_isAlphanum h), utf8Size_ascii (ascii_of_isAlphanum hlower)]

theorem byteLen_map_toLower (t : List Char) : byteLen (t.map Char.toLower) = byteLen t := by
  induction t with
  | nil => rfl
  | cons c t ih => rw [List.map_cons, byteLen_cons, byteLen_cons, utf8Size_toLower, ih]

theorem toLowerByte_high {b : UInt8} (h : 128 ≤ b.toNat) : toLowerByte b = b := by
  have hnot : ¬ b ≤ 90 := by
    rw [UInt8.le_iff_toNat_le]
    change ¬ b.toNat ≤ 90
    omega
  rw [toLowerByte, decide_eq_false hnot, Bool.and_false, if_neg Bool.false_ne_true]

theorem encodeChar_toLower (c : Char) : String.utf8EncodeChar c.toLower = (String.utf8EncodeChar c).map toLowerByte := by
  by_cases h : c.toNat < 128
  · exact forall_ascii (P := fun c => String.utf8EncodeChar c.toLower = (String.utf8EncodeChar c).map toLowerByte)
      (by decide) c h
  · have hhigh := Nat.not_lt.mp h
    have hsame : c.toLower = c := by
      rcases toLower_cases c with hsame | ⟨halnum, -⟩
      · exact hsame
      · exact absurd (ascii_of_isAlphanum halnum) h
    rw [hsame, List.map_congr_left fun b hb => toLowerByte_high (high_of_mem hhigh b hb), List.map_id']

/-- The bytes of a text in lower case are its bytes in lower case. -/
theorem encode_map_toLower (t : List Char) : encode (t.map Char.toLower) = (encode t).map toLowerByte := by
  rw [encode, encode, List.flatMap_map, List.map_flatMap]
  exact congrArg (fun f => t.flatMap f) (funext encodeChar_toLower)

end FerrisScope.AsciiCase
