import FerrisScope.OrderedCodes
import Mathlib.Data.List.SplitBy
import Mathlib.Data.List.TakeWhile
import Mathlib.Algebra.Order.Ring.Nat
import Mathlib.Tactic.Ring

/-!
# Natural sort keys

A string is a list of UTF-16 code units. Its key writes each run of text with an end mark and each run
of digits with its length in front, so that comparing keys unit by unit compares the lowercase strings
chunk by chunk.
-/

namespace FerrisScope.NaturalSort
open OrderedCodes

abbrev CodeUnit := Fin 65536

abbrev Units := List CodeUnit

/-- The code unit of a number, which is taken modulo 2^16. -/
def fromCharCode (n : ℕ) : CodeUnit := Fin.ofNat 65536 n

def isDigit (code : CodeUnit) : Bool := 48 ≤ code.val && code.val ≤ 57

/-- The digits of a run behind its leading zeros. -/
def significant (run : Units) : Units := run.dropWhile fun u => u.val == 48

def encodeRun (numeric : Bool) (run : Units) : Units :=
  if numeric then fromCharCode 2 :: fromCharCode (0x100 + (significant run).length) :: significant run
  else fromCharCode 1 :: run ++ [fromCharCode 0]

/-- The outer loop, with a bound on its passes. -/
def encodeFrom : ℕ → Units → Units
  | 0, _ => []
  | _ + 1, [] => []
  | n + 1, u :: s =>
      let numeric := isDigit u
      encodeRun numeric (u :: s.takeWhile fun v => isDigit v == numeric) ++
        encodeFrom n (s.dropWhile fun v => isDigit v == numeric)

attribute [grind =] encodeFrom

def naturalSortKey (toLowerCase : Units → Units) (value : Units) : Units :=
  let s := toLowerCase value
  encodeFrom s.length s

def compareUnits (a b : CodeUnit) : Ordering := compare a.val b.val

/-- The operators `<` and `>` between strings. -/
def compareKeys (x y : Units) : Ordering := List.compareLex compareUnits x y

/-! ## The order that is meant -/

inductive Chunk where
  | text (t : Units)
  | number (n : ℕ)

def numberOf (run : Units) : ℕ := run.foldl (fun n u => 10 * n + (u.val - 48)) 0

def chunkOf (run : Units) : Chunk := if run.all isDigit then .number (numberOf run) else .text run

def sameKind (u v : CodeUnit) : Bool := isDigit u == isDigit v

def chunks (s : Units) : List Chunk := (s.splitBy sameKind).map chunkOf

def compareChunk : Chunk → Chunk → Ordering
  | .text t, .text u => List.compareLex compareUnits t u
  | .text _, .number _ => .lt
  | .number _, .text _ => .gt
  | .number m, .number n => compare m n

/-- Chunk by chunk, and a string before its continuations. -/
def compareNatural (s t : Units) : Ordering := List.compareLex compareChunk (chunks s) (chunks t)

/-! ## Numbers -/

theorem compareUnits_self (u : CodeUnit) : compareUnits u u = .eq := Nat.compare_eq_eq.mpr rfl

theorem numberOf_from (run : Units) (n : ℕ) :
    run.foldl (fun n u => 10 * n + (u.val - 48)) n = n * 10 ^ run.length + numberOf run := by
  induction run generalizing n with
  | nil => simp [numberOf]
  | cons u run ih =>
    have hcons : numberOf (u :: run) = (10 * 0 + (u.val - 48)) * 10 ^ run.length + numberOf run :=
      ih (10 * 0 + (u.val - 48))
    rw [List.foldl_cons, ih, hcons, List.length_cons]
    ring

theorem numberOf_cons (u : CodeUnit) (run : Units) :
    numberOf (u :: run) = (u.val - 48) * 10 ^ run.length + numberOf run := by
  rw [numberOf, List.foldl_cons, numberOf_from]
  simp

theorem digit_bounds {u : CodeUnit} (h : isDigit u = true) : 48 ≤ u.val ∧ u.val ≤ 57 := by
  simpa [isDigit] using h

theorem numberOf_lt {run : Units} (h : ∀ u ∈ run, isDigit u = true) : numberOf run < 10 ^ run.length := by
  induction run with
  | nil => simp [numberOf]
  | cons u run ih =>
    have hrest := ih fun v hv => h v (List.mem_cons_of_mem u hv)
    obtain ⟨-, hu⟩ := digit_bounds (h u List.mem_cons_self)
    have hdigit : u.val - 48 ≤ 9 := by omega
    calc numberOf (u :: run) = (u.val - 48) * 10 ^ run.length + numberOf run := numberOf_cons u run
      _ < 9 * 10 ^ run.length + 10 ^ run.length :=
        Nat.add_lt_add_of_le_of_lt (Nat.mul_le_mul_right _ hdigit) hrest
      _ = 10 ^ (u :: run).length := by
        rw [List.length_cons]
        ring

/-- A leading digit decides before the digits behind it. -/
theorem compare_leading {b v w : ℕ} (a c : ℕ) (hv : v < b) (hw : w < b) :
    compare (a * b + v) (c * b + w) = (compare a c).then (compare v w) := by
  rcases Nat.lt_trichotomy a c with hac | rfl | hac
  · have hle : (a + 1) * b ≤ c * b := Nat.mul_le_mul_right b hac
    rw [Nat.add_mul, Nat.one_mul] at hle
    rw [Nat.compare_eq_lt.mpr hac, Nat.compare_eq_lt.mpr (by omega)]
    rfl
  · rw [Nat.compare_eq_eq.mpr rfl]
    rcases Nat.lt_trichotomy v w with hvw | rfl | hvw
    · rw [Nat.compare_eq_lt.mpr hvw, Nat.compare_eq_lt.mpr (by omega)]
      rfl
    · rw [Nat.compare_eq_eq.mpr rfl, Nat.compare_eq_eq.mpr rfl]
      rfl
    · rw [Nat.compare_eq_gt.mpr hvw, Nat.compare_eq_gt.mpr (by omega)]
      rfl
  · have hle : (c + 1) * b ≤ a * b := Nat.mul_le_mul_right b hac
    rw [Nat.add_mul, Nat.one_mul] at hle
    rw [Nat.compare_eq_gt.mpr hac, Nat.compare_eq_gt.mpr (by omega)]
    rfl

/-- Digit runs of one length compare as their numbers. -/
theorem compare_digits {d e : Units} (hd : ∀ u ∈ d, isDigit u = true) (he : ∀ u ∈ e, isDigit u = true)
    (hlength : d.length = e.length) : List.compareLex compareUnits d e = compare (numberOf d) (numberOf e) := by
  induction d generalizing e with
  | nil =>
    cases e with
    | nil => rfl
    | cons v e => cases hlength
  | cons u d ih =>
    cases e with
    | nil => cases hlength
    | cons v e =>
      have hlength' : d.length = e.length := Nat.succ.inj hlength
      have hd' : ∀ w ∈ d, isDigit w = true := fun w hw => hd w (List.mem_cons_of_mem u hw)
      have he' : ∀ w ∈ e, isDigit w = true := fun w hw => he w (List.mem_cons_of_mem v hw)
      have hunit : compareUnits u v = compare (u.val - 48) (v.val - 48) := by
        obtain ⟨hu, -⟩ := digit_bounds (hd u List.mem_cons_self)
        obtain ⟨hv, -⟩ := digit_bounds (he v List.mem_cons_self)
        rw [compareUnits]
        rcases Nat.lt_trichotomy u.val v.val with h | h | h
        · rw [Nat.compare_eq_lt.mpr h, Nat.compare_eq_lt.mpr (by omega)]
        · rw [Nat.compare_eq_eq.mpr h, Nat.compare_eq_eq.mpr (by omega)]
        · rw [Nat.compare_eq_gt.mpr h, Nat.compare_eq_gt.mpr (by omega)]
      rw [List.compareLex_cons_cons, ih hd' he' hlength', numberOf_cons, numberOf_cons, hlength',
        compare_leading _ _ (hlength' ▸ numberOf_lt hd') (numberOf_lt he'), hunit]

theorem numberOf_significant (run : Units) : numberOf (significant run) = numberOf run := by
  induction run with
  | nil => rfl
  | cons u run ih =>
    rw [significant, List.dropWhile_cons]
    split
    · rename_i hzero
      have hu : u.val = 48 := eq_of_beq hzero
      rw [numberOf_cons, hu]
      simpa [significant] using ih
    · rfl

/-- Without leading zeros, fewer digits make a smaller number. -/
theorem numberOf_lt_of_length {d e : Units} (hd : ∀ u ∈ d, isDigit u = true) (he : ∀ u ∈ e, isDigit u = true)
    (hhead : ∀ u, e.head? = some u → u.val ≠ 48) (hlength : d.length < e.length) : numberOf d < numberOf e := by
  cases e with
  | nil => cases hlength
  | cons v e =>
    obtain ⟨hv, -⟩ := digit_bounds (he v List.mem_cons_self)
    have hne := hhead v rfl
    have hpos : 1 ≤ v.val - 48 := by omega
    have hle : d.length ≤ e.length := Nat.le_of_lt_succ hlength
    calc numberOf d < 10 ^ d.length := numberOf_lt hd
      _ ≤ 10 ^ e.length := Nat.pow_le_pow_right (by omega) hle
      _ ≤ (v.val - 48) * 10 ^ e.length := Nat.le_mul_of_pos_left _ hpos
      _ ≤ numberOf (v :: e) := by
        rw [numberOf_cons]
        exact Nat.le_add_right _ _

/-! ## Runs -/

/-- A run of text without the end mark, or of digits with a length that fits a code unit. -/
structure Codable (run : Units) : Prop where
  ne_nil : run ≠ []
  uniform : (∀ u ∈ run, isDigit u = true) ∨ ∀ u ∈ run, isDigit u = false
  no_mark : fromCharCode 0 ∉ run
  short : (∀ u ∈ run, isDigit u = true) → (significant run).length < 0xFF00

def isNumeric (run : Units) : Bool := run.all isDigit

theorem fromCharCode_val {n : ℕ} (h : n < 65536) : (fromCharCode n).val = n := Nat.mod_eq_of_lt h

theorem head_significant (run : Units) (u : CodeUnit) (h : (significant run).head? = some u) : u.val ≠ 48 := by
  induction run with
  | nil => cases h
  | cons v run ih =>
    rw [significant, List.dropWhile_cons] at h
    split at h
    · exact ih h
    · rename_i hv
      obtain rfl : v = u := Option.some.inj h
      simpa using hv

theorem digits_significant {run : Units} (h : ∀ u ∈ run, isDigit u = true) :
    ∀ u ∈ significant run, isDigit u = true := fun u hu =>
  h u ((List.dropWhile_suffix _).subset hu)

/-- A length and its digits compare as the number. -/
theorem compare_numeric {r r' : Units} (hr : ∀ u ∈ r, isDigit u = true) (hr' : ∀ u ∈ r', isDigit u = true)
    (hlen : (significant r).length < 0xFF00) (hlen' : (significant r').length < 0xFF00) (x y : Units) :
    List.compareLex compareUnits (encodeRun true r ++ x) (encodeRun true r' ++ y) =
      (compare (numberOf r) (numberOf r')).then (List.compareLex compareUnits x y) := by
  have hd := digits_significant hr
  have hd' := digits_significant hr'
  have hunit : compareUnits (fromCharCode (0x100 + (significant r).length))
      (fromCharCode (0x100 + (significant r').length)) =
      compare (0x100 + (significant r).length) (0x100 + (significant r').length) := by
    rw [compareUnits, fromCharCode_val (by omega), fromCharCode_val (by omega)]
  rw [encodeRun, encodeRun, if_pos rfl, if_pos rfl, List.cons_append, List.cons_append, List.cons_append,
    List.cons_append, List.compareLex_cons_cons, compareUnits_self, List.compareLex_cons_cons, hunit,
    ← numberOf_significant r, ← numberOf_significant r']
  rcases Nat.lt_trichotomy (significant r).length (significant r').length with h | h | h
  · have hlt := numberOf_lt_of_length hd hd' (head_significant r') h
    rw [Nat.compare_eq_lt.mpr (by omega), Nat.compare_eq_lt.mpr hlt]
    rfl
  · rw [Nat.compare_eq_eq.mpr (by omega), compareLex_append h, compare_digits hd hd' h]
    rfl
  · have hlt := numberOf_lt_of_length hd' hd (head_significant r) h
    rw [Nat.compare_eq_gt.mpr (by omega), Nat.compare_eq_gt.mpr hlt]
    rfl

theorem compare_text {t u : Units} (ht : fromCharCode 0 ∉ t) (hu : fromCharCode 0 ∉ u) (x y : Units) :
    List.compareLex compareUnits (encodeRun false t ++ x) (encodeRun false u ++ y) =
      (List.compareLex compareUnits t u).then (List.compareLex compareUnits x y) := by
  have hpos : ∀ {v : CodeUnit}, v ≠ fromCharCode 0 → (fromCharCode 0).val < v.val := by
    intro v hv
    have hval : v.val ≠ 0 := fun h => hv (Fin.ext h)
    exact Nat.pos_of_ne_zero hval
  have hshape : ∀ w z : Units, encodeRun false w ++ z = fromCharCode 1 :: (w ++ fromCharCode 0 :: z) := fun w z => by
    simp [encodeRun]
  rw [hshape, hshape, List.compareLex_cons_cons, compareUnits_self,
    compareLex_terminated (compareUnits_self _) (fun v hv => Nat.compare_eq_gt.mpr (hpos (ne_of_mem_of_not_mem hv ht)))
      fun v hv => Nat.compare_eq_lt.mpr (hpos (ne_of_mem_of_not_mem hv hu))]
  rfl

theorem isNumeric_eq {run : Units} (h : Codable run) :
    (isNumeric run = true ∧ ∀ u ∈ run, isDigit u = true) ∨ isNumeric run = false := by
  rcases h.uniform with hall | hnone
  · exact Or.inl ⟨List.all_eq_true.mpr hall, hall⟩
  · refine Or.inr ?_
    obtain ⟨u, us, rfl⟩ := List.exists_cons_of_ne_nil h.ne_nil
    rw [isNumeric, List.all_cons, hnone u List.mem_cons_self, Bool.false_and]

/-- The code of a run keeps the order of its chunk. -/
theorem encodeRun_ordered : OrderedCode (fun r r' => compareChunk (chunkOf r) (chunkOf r')) compareUnits
    (fun r => encodeRun (isNumeric r) r) Codable where
  ne_nil := by
    intro r hr
    rw [encodeRun]
    split <;> exact List.cons_ne_nil _ _
  compare := by
    intro r r' hr hr' x y
    have hchunk : ∀ q, chunkOf q = if isNumeric q then .number (numberOf q) else .text q := fun q => rfl
    rw [hchunk, hchunk]
    rcases isNumeric_eq hr with ⟨h, hdigits⟩ | h <;> rcases isNumeric_eq hr' with ⟨h', hdigits'⟩ | h' <;>
      rw [h, h']
    · exact compare_numeric hdigits hdigits' (hr.short hdigits) (hr'.short hdigits') x y
    · rfl
    · rfl
    · exact compare_text hr.no_mark hr'.no_mark x y

/-! ## The loop and its runs -/

theorem sameKind_chain {u : CodeUnit} {run : Units} (h : ∀ v ∈ run, isDigit v = isDigit u) :
    (u :: run).IsChain fun v w => sameKind v w = true := by
  induction run generalizing u with
  | nil => exact List.isChain_singleton u
  | cons v run ih =>
    have hv := h v List.mem_cons_self
    rw [List.isChain_cons_cons]
    refine ⟨by rw [sameKind, hv]; exact beq_self_eq_true _, ih fun w hw => ?_⟩
    rw [h w (List.mem_cons_of_mem v hw), hv]

theorem kind_of_chain {u : CodeUnit} {run : Units} (h : (u :: run).IsChain fun v w => sameKind v w = true) :
    ∀ v ∈ run, isDigit v = isDigit u := by
  induction run generalizing u with
  | nil => exact fun v hv => absurd hv List.not_mem_nil
  | cons w run ih =>
    rw [List.isChain_cons_cons] at h
    have hw : isDigit u = isDigit w := eq_of_beq h.1
    intro v hv
    rcases List.mem_cons.mp hv with rfl | hv
    · exact hw.symm
    · rw [ih h.2 v hv, hw]

theorem kind_of_mem_takeWhile (u : CodeUnit) (s : Units) :
    ∀ v ∈ s.takeWhile fun v => isDigit v == isDigit u, isDigit v = isDigit u := fun v hv =>
  eq_of_beq (List.mem_takeWhile_imp (p := fun v => isDigit v == isDigit u) hv)

theorem isNumeric_of_kind {u : CodeUnit} {run : Units} (h : ∀ v ∈ run, isDigit v = isDigit u) :
    isNumeric (u :: run) = isDigit u := by
  rw [isNumeric, List.all_cons]
  cases hu : isDigit u with
  | false => rfl
  | true =>
    rw [Bool.true_and, List.all_eq_true]
    exact fun v hv => (h v hv).trans hu

/-- One pass of the outer loop takes the first of the maximal runs of one kind. -/
theorem splitBy_cons (u : CodeUnit) (s : Units) :
    (u :: s).splitBy sameKind = (u :: s.takeWhile fun v => isDigit v == isDigit u) ::
      (s.dropWhile fun v => isDigit v == isDigit u).splitBy sameKind := by
  have hrun := kind_of_mem_takeWhile u s
  have hchain := sameKind_chain hrun
  have hsplit : u :: s = (u :: s.takeWhile fun v => isDigit v == isDigit u) ++
      s.dropWhile fun v => isDigit v == isDigit u := by
    rw [List.cons_append, List.takeWhile_append_dropWhile]
  have hlast : ∀ v ∈ (u :: s.takeWhile fun v => isDigit v == isDigit u).getLast?,
      ∀ w ∈ (s.dropWhile fun v => isDigit v == isDigit u).head?, sameKind v w = false := by
    intro v hv w hw
    have hvu : isDigit v = isDigit u := by
      rcases List.mem_cons.mp (List.mem_of_getLast? hv) with rfl | hv
      · rfl
      · exact hrun v hv
    have hwu : (isDigit w == isDigit u) = false := by
      have hne : (s.dropWhile fun v => isDigit v == isDigit u) ≠ [] := fun hnil => by
        rw [hnil] at hw
        cases hw
      have hhead := List.head_dropWhile_not (fun v => isDigit v == isDigit u) hne
      rw [List.head?_eq_some_head hne] at hw
      rw [← Option.some.inj hw]
      exact hhead
    rw [sameKind, hvu, ← hwu, Bool.beq_comm]
  conv_lhs => rw [hsplit]
  rw [List.splitBy_append hlast, List.splitBy_of_isChain (List.cons_ne_nil _ _) hchain]
  rfl

theorem encodeFrom_eq {n : ℕ} {s : Units} (h : s.length ≤ n) :
    encodeFrom n s = (s.splitBy sameKind).flatMap fun r => encodeRun (isNumeric r) r := by
  induction n generalizing s with
  | zero =>
    rw [List.length_eq_zero_iff.mp (Nat.le_zero.mp h)]
    rfl
  | succ n ih =>
    cases s with
    | nil => rfl
    | cons u s =>
      have hnumeric := isNumeric_of_kind (kind_of_mem_takeWhile u s)
      have hrest : (s.dropWhile fun v => isDigit v == isDigit u).length ≤ n :=
        le_trans (List.dropWhile_suffix _).length_le (Nat.le_of_succ_le_succ h)
      rw [splitBy_cons, List.flatMap_cons, hnumeric, ← ih hrest]
      rfl

/-! ## Keys keep the natural order -/

/-- A string whose key is a faithful one: without the end mark, and with runs of at most 2^16 − 2^8 − 1
digits behind their leading zeros. -/
structure Encodable (s : Units) : Prop where
  no_mark : fromCharCode 0 ∉ s
  short : ∀ r, r <:+: s → (∀ u ∈ r, isDigit u = true) → (∀ u, r.head? = some u → u.val ≠ 48) → r.length < 0xFF00

/-- Lowercasing brings in no end mark and makes no new runs of digits. -/
structure KeepsDigits (toLowerCase : Units → Units) : Prop where
  no_mark : ∀ s, fromCharCode 0 ∈ toLowerCase s → fromCharCode 0 ∈ s
  digits : ∀ s r, (∀ u ∈ r, isDigit u = true) → r <:+: toLowerCase s → r <:+: s

theorem KeepsDigits.encodable {toLowerCase : Units → Units} (h : KeepsDigits toLowerCase) {s : Units}
    (hs : Encodable s) : Encodable (toLowerCase s) :=
  ⟨fun hmark => hs.no_mark (h.no_mark s hmark), fun r hr hdigits => hs.short r (h.digits s r hdigits hr) hdigits⟩

theorem codable_of_mem_splitBy {s r : Units} (hs : Encodable s) (hr : r ∈ s.splitBy sameKind) : Codable r := by
  have hpart : r <:+: s := by
    have hflat := List.infix_of_mem_flatten hr
    rwa [List.flatten_splitBy] at hflat
  refine ⟨List.ne_nil_of_mem_splitBy hr, ?_, fun hmark => hs.no_mark (hpart.subset hmark), fun hdigits => ?_⟩
  · obtain ⟨u, us, rfl⟩ := List.exists_cons_of_ne_nil (List.ne_nil_of_mem_splitBy hr)
    have hkind := kind_of_chain (List.isChain_of_mem_splitBy hr)
    have hall : ∀ v ∈ u :: us, isDigit v = isDigit u := by
      intro v hv
      rcases List.mem_cons.mp hv with rfl | hv
      · rfl
      · exact hkind v hv
    cases hu : isDigit u with
    | true => exact Or.inl fun v hv => (hall v hv).trans hu
    | false => exact Or.inr fun v hv => (hall v hv).trans hu
  · exact hs.short _ ((List.dropWhile_suffix _).isInfix.trans hpart) (digits_significant hdigits)
      (head_significant r)

/-- Comparing keys unit by unit compares the lowercase strings chunk by chunk. -/
theorem naturalSortKey_ordered (toLowerCase : Units → Units) (h : KeepsDigits toLowerCase) (a b : Units)
    (ha : Encodable a) (hb : Encodable b) :
    compareKeys (naturalSortKey toLowerCase a) (naturalSortKey toLowerCase b) =
      compareNatural (toLowerCase a) (toLowerCase b) := by
  have hkey : ∀ s, naturalSortKey toLowerCase s =
      ((toLowerCase s).splitBy sameKind).flatMap fun r => encodeRun (isNumeric r) r := fun s =>
    encodeFrom_eq (Nat.le_refl _)
  rw [compareKeys, hkey, hkey, compareNatural, chunks, chunks, compareLex_map]
  exact encodeRun_ordered.compareLex_flatMap (fun r => codable_of_mem_splitBy (h.encodable ha))
    fun r => codable_of_mem_splitBy (h.encodable hb)

def asciiLower (u : CodeUnit) : CodeUnit := if 65 ≤ u.val ∧ u.val ≤ 90 then fromCharCode (u.val + 32) else u

/-- Lower case of the ASCII letters, the others as they are. -/
def asciiLowerCase (s : Units) : Units := s.map asciiLower

theorem asciiLower_cases (u : CodeUnit) : asciiLower u = u ∨ 97 ≤ (asciiLower u).val := by
  rw [asciiLower]
  split
  · rename_i hletter
    rw [fromCharCode_val (by omega)]
    exact Or.inr (by omega)
  · exact Or.inl rfl

theorem asciiLowerCase_keepsDigits : KeepsDigits asciiLowerCase where
  no_mark := by
    intro s hmark
    obtain ⟨u, hu, heq⟩ := List.mem_map.mp hmark
    rcases asciiLower_cases u with hsame | hlarge
    · exact heq ▸ hsame.symm ▸ hu
    · rw [heq] at hlarge
      exact absurd hlarge (by decide)
  digits := by
    rintro s r hdigits ⟨before, after, heq⟩
    obtain ⟨front, back, rfl, hfront, -⟩ := List.map_eq_append_iff.mp heq.symm
    obtain ⟨before', run, rfl, -, hrun⟩ := List.map_eq_append_iff.mp hfront
    have hkeep : ∀ u ∈ run, asciiLower u = id u := by
      intro u hu
      obtain ⟨-, hdigit⟩ := digit_bounds (hdigits (asciiLower u) (hrun ▸ List.mem_map_of_mem hu))
      exact (asciiLower_cases u).resolve_right (by omega)
    rw [← hrun, List.map_congr_left hkeep, List.map_id]
    exact ⟨before', back, rfl⟩

def units (t : String) : Units := t.toList.map fun c => fromCharCode c.toNat

theorem naturalSortKey_ordered_items :
    compareKeys (naturalSortKey asciiLowerCase (units "Item2")) (naturalSortKey asciiLowerCase (units "item10")) =
      compareNatural (asciiLowerCase (units "Item2")) (asciiLowerCase (units "item10")) := by
  refine naturalSortKey_ordered asciiLowerCase asciiLowerCase_keepsDigits _ _ ⟨by decide, fun r hr _ _ => ?_⟩
    ⟨by decide, fun r hr _ _ => ?_⟩
  · exact lt_of_le_of_lt hr.length_le (by decide)
  · exact lt_of_le_of_lt hr.length_le (by decide)

end FerrisScope.NaturalSort
