import Mathlib.Data.List.FinRange
import Mathlib.Data.UInt
import Mathlib.Tactic.Common

/-!
# Base 64

Three bytes are four digits of six bits. A text that ends within a group leaves the unused bits of its last
digit at zero, and may be padded to whole groups. Reading takes exactly what writing makes.
-/

namespace FerrisScope.Base64

abbrev Sextet := Fin 64

section
variable (a b c : UInt8) (x y z w : Sextet)

def first : Sextet := ⟨a.toNat / 4, by have := a.toNat_lt; omega⟩
def second : Sextet := ⟨a.toNat % 4 * 16 + b.toNat / 16, by have := b.toNat_lt; omega⟩
def third : Sextet := ⟨b.toNat % 16 * 4 + c.toNat / 64, by have := c.toNat_lt; omega⟩
def fourth : Sextet := ⟨c.toNat % 64, by omega⟩

def byte₁ : UInt8 := UInt8.ofNat (x.val * 4 + y.val / 16)
def byte₂ : UInt8 := UInt8.ofNat (y.val % 16 * 16 + z.val / 4)
def byte₃ : UInt8 := UInt8.ofNat (z.val % 4 * 64 + w.val)

theorem toNat_byte₁ : (byte₁ x y).toNat = x.val * 4 + y.val / 16 := by
  apply UInt8.toNat_ofNat_of_lt'
  change _ < 256
  omega

theorem toNat_byte₂ : (byte₂ y z).toNat = y.val % 16 * 16 + z.val / 4 := by
  apply UInt8.toNat_ofNat_of_lt'
  change _ < 256
  omega

theorem toNat_byte₃ : (byte₃ z w).toNat = z.val % 4 * 64 + w.val := by
  apply UInt8.toNat_ofNat_of_lt'
  change _ < 256
  omega

theorem byte₁_sextets : byte₁ (first a) (second a b) = a := by
  apply UInt8.toNat_inj.mp
  have hb := b.toNat_lt
  rw [toNat_byte₁]
  simp only [first, second]
  omega

theorem byte₂_sextets : byte₂ (second a b) (third b c) = b := by
  apply UInt8.toNat_inj.mp
  have hb := b.toNat_lt
  have hc := c.toNat_lt
  rw [toNat_byte₂]
  simp only [second, third]
  omega

theorem byte₃_sextets : byte₃ (third b c) (fourth c) = c := by
  apply UInt8.toNat_inj.mp
  have hc := c.toNat_lt
  rw [toNat_byte₃]
  simp only [third, fourth]
  omega

theorem first_bytes : first (byte₁ x y) = x := by
  apply Fin.ext
  simp only [first, toNat_byte₁]
  omega

theorem second_bytes : second (byte₁ x y) (byte₂ y z) = y := by
  apply Fin.ext
  simp only [second, toNat_byte₁, toNat_byte₂]
  omega

theorem third_bytes : third (byte₂ y z) (byte₃ z w) = z := by
  apply Fin.ext
  simp only [third, toNat_byte₂, toNat_byte₃]
  omega

theorem fourth_bytes : fourth (byte₃ z w) = w := by
  apply Fin.ext
  simp only [fourth, toNat_byte₃]
  omega

theorem second_last (h : y.val % 16 = 0) : second (byte₁ x y) 0 = y := by
  apply Fin.ext
  simp only [second, toNat_byte₁]
  change _ + 0 / 16 = _
  omega

theorem third_last (h : z.val % 4 = 0) : third (byte₂ y z) 0 = z := by
  apply Fin.ext
  simp only [third, toNat_byte₂]
  change _ + 0 / 64 = _
  omega

end

def sextets : List UInt8 → List Sextet
  | [] => []
  | [a] => [first a, second a 0]
  | [a, b] => [first a, second a b, third b 0]
  | a :: b :: c :: t => first a :: second a b :: third b c :: fourth c :: sextets t

def bytes : List Sextet → Option (List UInt8)
  | [] => some []
  | [_] => none
  | [x, y] => if y.val % 16 = 0 then some [byte₁ x y] else none
  | [x, y, z] => if z.val % 4 = 0 then some [byte₁ x y, byte₂ y z] else none
  | x :: y :: z :: w :: t => (bytes t).map (byte₁ x y :: byte₂ y z :: byte₃ z w :: ·)

theorem bytes_sextets (t : List UInt8) : bytes (sextets t) = some t := by
  induction t using sextets.induct with
  | case1 => rfl
  | case2 a =>
    have hzero : (second a 0).val % 16 = 0 := by
      change (a.toNat % 4 * 16 + 0 / 16) % 16 = 0
      omega
    rw [sextets, bytes, if_pos hzero, byte₁_sextets]
  | case3 a b =>
    have hzero : (third b 0).val % 4 = 0 := by
      change (b.toNat % 16 * 4 + 0 / 64) % 4 = 0
      omega
    rw [sextets, bytes, if_pos hzero, byte₁_sextets, byte₂_sextets]
  | case4 a b c t ih =>
    rw [sextets, bytes, ih, byte₁_sextets, byte₂_sextets, byte₃_sextets]
    rfl

theorem sextets_of_bytes {v : List Sextet} {t : List UInt8} (h : bytes v = some t) : sextets t = v := by
  induction v using bytes.induct generalizing t with
  | case1 =>
    cases h
    rfl
  | case2 => cases h
  | case3 x y hzero =>
    rw [bytes, if_pos hzero] at h
    cases h
    rw [sextets, first_bytes, second_last x y hzero]
  | case4 x y hzero =>
    rw [bytes, if_neg hzero] at h
    cases h
  | case5 x y z hzero =>
    rw [bytes, if_pos hzero] at h
    cases h
    rw [sextets, first_bytes, second_bytes, third_last y z hzero]
  | case6 x y z hzero =>
    rw [bytes, if_neg hzero] at h
    cases h
  | case7 x y z w v ih =>
    rw [bytes] at h
    obtain ⟨t', ht', rfl⟩ := Option.map_eq_some_iff.mp h
    rw [sextets, first_bytes, second_bytes, third_bytes, fourth_bytes, ih ht']

/-- Sixty-four digits, and a character for the padding that is none of them. -/
structure Alphabet (α : Type) where
  digit : Sextet → α
  pad : α
  digit_injective : Function.Injective digit
  digit_ne_pad : ∀ x, digit x ≠ pad

namespace Alphabet
variable {α : Type} [DecidableEq α] (A : Alphabet α)

def value (c : α) : Option Sextet := (List.finRange 64).find? fun x => A.digit x = c

theorem value_eq_some {c : α} {x : Sextet} : A.value c = some x ↔ A.digit x = c := by
  constructor
  · intro h
    exact of_decide_eq_true (List.find?_some (p := fun x => decide (A.digit x = c)) h)
  · intro h
    have hsome : (A.value c).isSome :=
      List.find?_isSome.mpr ⟨x, List.mem_finRange x, decide_eq_true h⟩
    obtain ⟨y, hy⟩ := Option.isSome_iff_exists.mp hsome
    have hdigit : A.digit y = c := of_decide_eq_true (List.find?_some (p := fun x => decide (A.digit x = c)) hy)
    rw [hy, A.digit_injective (hdigit.trans h.symm)]

def encode (t : List UInt8) : List α := (sextets t).map A.digit

def decode (t : List α) : Option (List UInt8) := (t.mapM A.value).bind bytes

/-- What is missing to whole groups of four. -/
def padding (t : List α) : List α := List.replicate ((4 - t.length % 4) % 4) A.pad

def encodePadded (t : List UInt8) : List α := A.encode t ++ A.padding (A.encode t)

/-- The padding has to be there, and nothing more than it. -/
def decodePadded (t : List α) : Option (List UInt8) :=
  let u := t.takeWhile fun c => c ≠ A.pad
  if t = u ++ A.padding u then A.decode u else none

theorem mapM_value {t : List α} {v : List Sextet} : t.mapM A.value = some v ↔ v.map A.digit = t := by
  induction t generalizing v with
  | nil =>
    rw [List.mapM_nil]
    constructor
    · intro h
      cases h
      rfl
    · intro h
      rw [List.map_eq_nil_iff.mp h]
      rfl
  | cons c t ih =>
    rw [List.mapM_cons]
    simp only [Option.bind_eq_bind, Option.bind_eq_some_iff, Option.pure_def, Option.some.injEq, value_eq_some, ih]
    constructor
    · rintro ⟨x, rfl, w, rfl, rfl⟩
      rfl
    · intro h
      obtain ⟨x, w, rfl, hx, hw⟩ := List.map_eq_cons_iff.mp h
      exact ⟨x, hx, w, hw, rfl⟩

/-- Reading without padding inverts writing without it, and takes nothing else. -/
theorem decode_eq_some {t : List α} {b : List UInt8} : A.decode t = some b ↔ A.encode b = t := by
  rw [decode, Option.bind_eq_some_iff]
  constructor
  · rintro ⟨v, hv, hb⟩
    rw [encode, sextets_of_bytes hb]
    exact A.mapM_value.mp hv
  · intro h
    exact ⟨sextets b, A.mapM_value.mpr h, bytes_sextets b⟩

omit [DecidableEq α] in
theorem pad_notMem_encode (b : List UInt8) : A.pad ∉ A.encode b := by
  intro hmem
  obtain ⟨x, -, hx⟩ := List.mem_map.mp hmem
  exact A.digit_ne_pad x hx

theorem takeWhile_encodePadded (b : List UInt8) :
    (A.encodePadded b).takeWhile (fun c => c ≠ A.pad) = A.encode b := by
  have hencode : ∀ c ∈ A.encode b, (decide (c ≠ A.pad)) = true := by
    intro c hc
    apply decide_eq_true
    intro hpad
    exact A.pad_notMem_encode b (hpad ▸ hc)
  have hpadding : (A.padding (A.encode b)).takeWhile (fun c => c ≠ A.pad) = [] := by
    rw [padding]
    cases (4 - (A.encode b).length % 4) % 4 with
    | zero => rfl
    | succ n => exact List.takeWhile_cons_of_neg (by simp)
  rw [encodePadded, List.takeWhile_append_of_pos hencode, hpadding, List.append_nil]

/-- Reading with padding inverts writing with it, and takes nothing else. -/
theorem decodePadded_eq_some {t : List α} {b : List UInt8} : A.decodePadded t = some b ↔ A.encodePadded b = t := by
  constructor
  · intro h
    rw [decodePadded] at h
    split at h
    · next ht =>
      rw [encodePadded, A.decode_eq_some.mp h]
      exact ht.symm
    · cases h
  · rintro rfl
    rw [decodePadded, takeWhile_encodePadded]
    exact (if_pos rfl).trans (A.decode_eq_some.mpr rfl)

/-- The two ways of writing agree only where there is nothing to pad. -/
theorem encodePadded_eq_encode {b b' : List UInt8} (h : A.encodePadded b = A.encode b') : b = b' := by
  have hpad : A.padding (A.encode b) = [] := by
    by_contra hne
    have hmem : A.pad ∈ A.padding (A.encode b) := by
      rw [padding, List.mem_replicate]
      refine ⟨?_, rfl⟩
      intro hzero
      rw [padding, hzero] at hne
      exact hne rfl
    exact A.pad_notMem_encode b' (h ▸ List.mem_append_right _ hmem)
  rw [encodePadded, hpad, List.append_nil] at h
  have hdecode := A.decode_eq_some.mpr h
  rw [A.decode_eq_some.mpr rfl] at hdecode
  exact (Option.some.inj hdecode).symm

end Alphabet

end FerrisScope.Base64
