import Mathlib.Data.Nat.Bitwise
import Mathlib.Data.Set.Basic
import Mathlib.Tactic.Ring
import FerrisScope.HostsFile
import FerrisScope.SplitOnce

/-!
# The fields of a cron schedule

A field is a list of terms, each a value, a range or the whole range, with an optional step. It
is parsed into a set of bits. What a term stands for in cron is said apart from the parser: a
value with a step is open-ended and runs to the end of the range, which for the days of the
week is Saturday, while 7 is another name of Sunday.
-/

namespace FerrisScope.CronFields
open HostsFile SplitOnce

/-! ## Parsing -/

def isDigit (c : Char) : Bool := 48 ≤ c.toNat && c.toNat ≤ 57

def ofDigits (t : Text) : ℕ := t.foldl (fun n c => n * 10 + (c.toNat - 48)) 0

/-- A number of 32 bits, in decimal with an optional plus sign. -/
def parseU32 (t : Text) : Option ℕ :=
  let digits := match t with
    | '+' :: rest => rest
    | t => t
  if digits = [] ∨ digits.all isDigit = false then none
  else if ofDigits digits < 2 ^ 32 then some (ofDigits digits)
  else none

def toAsciiLowercase (t : Text) : Text :=
  t.map fun c => if 65 ≤ c.toNat ∧ c.toNat ≤ 90 then Char.ofNat (c.toNat + 32) else c

/-- The values a field may take and the names of the first of them. -/
structure Bounds where
  min : ℕ
  max : ℕ
  names : Option (List Text)
  fits : ∀ ns, names = some ns → min + ns.length ≤ max + 1

def parseValue (b : Bounds) (raw : Text) : Option ℕ :=
  let raw := trim raw
  match parseU32 raw with
  | some n => if b.min ≤ n ∧ n ≤ b.max then some n else none
  | none => b.names.bind fun names =>
      (names.idxOf? (toAsciiLowercase raw)).map fun i => i + b.min

/-- A step wider than the range counts as the width of the range. -/
def parseStep (b : Bounds) (s : Text) : Option ℕ :=
  ((parseU32 s).filter fun s => decide (0 < s)).map fun s => min s (b.max - b.min + 1)

def splitStep (b : Bounds) (part : Text) : Option (Text × ℕ) :=
  match splitOnce ['/'] part with
  | some (r, s) => (parseStep b s).map fun step => (r, step)
  | none => some (part, 1)

def isWildcard (range : Text) : Bool := decide (range = ['*']) || decide (range = ['?'])

def limits (b : Bounds) (range : Text) (step : ℕ) : Option (ℕ × ℕ) :=
  if isWildcard range then some (b.min, b.max)
  else match splitOnce ['-'] range with
    | some (lo, hi) => (parseValue b lo).bind fun lo => (parseValue b hi).map fun hi => (lo, hi)
    | none => (parseValue b range).map fun v => if step > 1 then (v, b.max) else (v, v)

/-- The bits from `v` to `hi`, so many rounds of the loop at most. -/
def walk (hi step : ℕ) : ℕ → ℕ → ℕ → ℕ
  | 0, _, bits => bits
  | rounds + 1, v, bits => if v ≤ hi then walk hi step rounds (v + step) (bits ||| 1 <<< v) else bits

def parsePart (b : Bounds) (bits : ℕ) (part : Text) : Option ℕ :=
  let part := trim part
  if part = [] then none
  else (splitStep b part).bind fun rs => (limits b rs.1 rs.2).bind fun lh =>
    if lh.1 > lh.2 then none else some (walk lh.2 rs.2 (lh.2 + 1 - lh.1) lh.1 bits)

def parseField (b : Bounds) (field : Text) : Option ℕ :=
  ((field.splitOn ',').foldlM (parsePart b) 0).bind fun bits =>
    if bits = 0 then none else some bits

def monthNames : List Text :=
  ["jan", "feb", "mar", "apr", "may", "jun", "jul", "aug", "sep", "oct", "nov", "dec"].map
    String.toList

def dowNames : List Text := ["sun", "mon", "tue", "wed", "thu", "fri", "sat"].map String.toList

def minuteBounds : Bounds := ⟨0, 59, none, by simp⟩

def hourBounds : Bounds := ⟨0, 23, none, by simp⟩

def domBounds : Bounds := ⟨1, 31, none, by simp⟩

def monthBounds : Bounds := ⟨1, 12, some monthNames, by rintro ns ⟨⟩; decide⟩

def dowBounds : Bounds := ⟨0, 7, some dowNames, by rintro ns ⟨⟩; decide⟩

/-- Bit 7 is folded onto bit 0. -/
def normalizeDow (bits : ℕ) : ℕ :=
  if bits.testBit 7 then (bits &&& (2 ^ 128 - 1 - 1 <<< 7)) ||| 1 else bits

/-! ## Terms -/

inductive Range where
  | all
  | between (a b : ℕ)
  | value (a : ℕ)
  deriving DecidableEq, Repr

structure Term where
  range : Range
  step : Option ℕ
  deriving DecidableEq, Repr

def readRange (b : Bounds) (range : Text) : Option Range :=
  if isWildcard range then some .all
  else match splitOnce ['-'] range with
    | some (lo, hi) => (parseValue b lo).bind fun lo => (parseValue b hi).map fun hi => .between lo hi
    | none => (parseValue b range).map .value

def readTerm (b : Bounds) (part : Text) : Option Term :=
  match splitOnce ['/'] (trim part) with
  | some (r, s) => ((parseU32 s).filter fun s => decide (0 < s)).bind fun s =>
      (readRange b r).map fun range => ⟨range, some s⟩
  | none => (readRange b (trim part)).map fun range => ⟨range, none⟩

def readTerms (b : Bounds) (field : Text) : Option (List Term) :=
  (field.splitOn ',').mapM (readTerm b)

/-- The values from `a` in steps up to `hi`. -/
def steps (a s hi : ℕ) : Set ℕ := {n | ∃ k, n = a + k * s ∧ n ≤ hi}

/-- A field of a schedule: one with its own range, or the days of the week. -/
inductive Field where
  | plain (b : Bounds)
  | weekday

namespace Field

def bounds : Field → Bounds
  | plain b => b
  | weekday => dowBounds

/-- Where an open-ended term ends. -/
def last : Field → ℕ
  | plain b => b.max
  | weekday => 6

/-- What a value stands for: 7 is Sunday too. -/
def fold : Field → ℕ → ℕ
  | plain _, n => n
  | weekday, n => n % 7

def parse : Field → Text → Option ℕ
  | plain b, field => parseField b field
  | weekday, field => (parseField dowBounds field).map normalizeDow

/-- The values a term stands for; an open-ended term always has the value it starts from. -/
def meaning (f : Field) : Term → Set ℕ
  | ⟨.all, s⟩ => steps f.bounds.min (s.getD 1) f.bounds.max
  | ⟨.between a b, s⟩ => steps a (s.getD 1) b
  | ⟨.value a, none⟩ => {a}
  | ⟨.value a, some s⟩ => {a} ∪ steps a s f.last

/-- The values a term has without the open end of a step of one. -/
def named (f : Field) : Term → Set ℕ
  | ⟨.value a, some 1⟩ => {a}
  | t => f.meaning t

end Field

/-- The values a term adds to the set of bits. -/
def marked (b : Bounds) : Term → Set ℕ
  | ⟨.all, s⟩ => steps b.min (s.getD 1) b.max
  | ⟨.between lo hi, s⟩ => steps lo (s.getD 1) hi
  | ⟨.value a, none⟩ => {a}
  | ⟨.value a, some s⟩ => if s = 1 then {a} else steps a s b.max

/-- The set of bits is the union of what the terms stand for. -/
def Denotes (f : Field) (terms : List Term) (bits : ℕ) : Prop :=
  ∀ d, bits.testBit d = true ↔ ∃ t ∈ terms, ∃ n ∈ f.meaning t, f.fold n = d

/-- The values that an open-ended step of one runs through are named by other terms, and so are
those an open-ended step reaches beyond its end. -/
structure Covered (f : Field) (terms : List Term) : Prop where
  run : ∀ a, ⟨.value a, some 1⟩ ∈ terms → ∀ n ∈ steps a 1 f.last,
    ∃ t ∈ terms, ∃ n' ∈ f.named t, f.fold n' = f.fold n
  beyond : ∀ a s, ⟨.value a, some s⟩ ∈ terms → s ≠ 1 → ∀ n ∈ steps a s f.bounds.max, f.last < n →
    ∃ t ∈ terms, ∃ n' ∈ f.named t, f.fold n' = f.fold n

/-! ## Steps -/

theorem mem_steps_self {a hi : ℕ} (s : ℕ) (h : a ≤ hi) : a ∈ steps a s hi := ⟨0, by simp, h⟩

theorem steps_cons {a s hi : ℕ} (h : a ≤ hi) (n : ℕ) :
    n ∈ steps a s hi ↔ n = a ∨ n ∈ steps (a + s) s hi := by
  constructor
  · rintro ⟨k, rfl, hle⟩
    cases k with
    | zero => exact .inl (by simp)
    | succ k => exact .inr ⟨k, by ring, hle⟩
  · rintro (rfl | ⟨k, rfl, hle⟩)
    · exact mem_steps_self s h
    · exact ⟨k + 1, by ring, hle⟩

/-- A step wider than the range reaches nothing, as does one of the width of the range. -/
theorem steps_clamp {lo hi s w : ℕ} (hw : hi < lo + w) :
    steps lo (min s w) hi = steps lo s hi := by
  rcases Nat.le_total s w with hle | hle
  · rw [Nat.min_eq_left hle]
  · have hfirst : ∀ t k, w ≤ t → lo + k * t ≤ hi → k = 0 := by
      intro t k ht hk
      by_contra hne
      have hmul : t ≤ k * t := Nat.le_mul_of_pos_left t (Nat.pos_of_ne_zero hne)
      omega
    rw [Nat.min_eq_right hle]
    ext n
    constructor
    · rintro ⟨k, rfl, hk⟩
      rw [hfirst w k le_rfl hk]
      exact ⟨0, by simp, by rw [hfirst w k le_rfl hk] at hk; simpa using hk⟩
    · rintro ⟨k, rfl, hk⟩
      rw [hfirst s k hle hk]
      exact ⟨0, by simp, by rw [hfirst s k hle hk] at hk; simpa using hk⟩

/-- The loop sets the bits in steps up to its limit. -/
theorem testBit_walk {hi step : ℕ} (hs : 0 < step) {rounds v : ℕ} (hr : hi + 1 - v ≤ rounds)
    (bits n : ℕ) : (walk hi step rounds v bits).testBit n = true ↔
      bits.testBit n = true ∨ n ∈ steps v step hi := by
  induction rounds generalizing v bits with
  | zero =>
    have hempty : n ∉ steps v step hi := by
      rintro ⟨k, rfl, hle⟩
      omega
    simp [walk, hempty]
  | succ rounds ih =>
    rw [walk]
    split_ifs with hv
    · rw [ih (by omega), steps_cons hv, Nat.testBit_or, Bool.or_eq_true, Nat.one_shiftLeft,
        Nat.testBit_two_pow, decide_eq_true_eq, or_assoc, @eq_comm _ v n]
    · have hempty : n ∉ steps v step hi := by
        rintro ⟨k, rfl, hle⟩
        omega
      simp [hempty]

/-! ## Parsing reads the terms -/

theorem parseValue_mem {b : Bounds} {raw : Text} {v : ℕ} (h : parseValue b raw = some v) :
    b.min ≤ v ∧ v ≤ b.max := by
  unfold parseValue at h
  simp only at h
  split at h
  · split_ifs at h with hin
    cases h
    exact hin
  · obtain ⟨names, hnames, h⟩ := Option.bind_eq_some_iff.mp h
    obtain ⟨i, hi, rfl⟩ := Option.map_eq_some_iff.mp h
    have hlt := (List.idxOf?_eq_some_iff.mp hi).1
    have hfits := b.fits names hnames
    omega

/-- The values of a term lie in the bounds. -/
def Range.Within (b : Bounds) : Range → Prop
  | .all => True
  | .between lo hi => b.min ≤ lo ∧ hi ≤ b.max
  | .value a => b.min ≤ a ∧ a ≤ b.max

theorem readRange_within {b : Bounds} {range : Text} {r : Range} (h : readRange b range = some r) :
    r.Within b := by
  unfold readRange at h
  split_ifs at h
  · cases h
    trivial
  · split at h
    · obtain ⟨lo, hlo, h⟩ := Option.bind_eq_some_iff.mp h
      obtain ⟨hi, hhi, rfl⟩ := Option.map_eq_some_iff.mp h
      exact ⟨(parseValue_mem hlo).1, (parseValue_mem hhi).2⟩
    · obtain ⟨v, hv, rfl⟩ := Option.map_eq_some_iff.mp h
      exact parseValue_mem hv

/-- The limits of the loop, from the range that was read. -/
def Range.limits (b : Bounds) (step : ℕ) : Range → ℕ × ℕ
  | .all => (b.min, b.max)
  | .between lo hi => (lo, hi)
  | .value a => if step > 1 then (a, b.max) else (a, a)

theorem limits_eq (b : Bounds) (range : Text) (step : ℕ) :
    limits b range step = (readRange b range).map (Range.limits b step) := by
  unfold limits readRange
  by_cases hw : isWildcard range = true
  · rw [if_pos hw, if_pos hw]
    rfl
  · rw [if_neg hw, if_neg hw]
    split
    · next lo hi _ =>
      cases parseValue b lo with
      | none => rfl
      | some lo => cases parseValue b hi <;> rfl
    · cases parseValue b range <;> rfl

theorem steps_self (a s : ℕ) : steps a s a = {a} := by
  ext n
  constructor
  · rintro ⟨k, rfl, hle⟩
    rw [Set.mem_singleton_iff]
    omega
  · rintro rfl
    exact mem_steps_self s le_rfl

/-- A term that can be read has a step of at least one and values in the bounds. -/
structure Term.Sound (b : Bounds) (t : Term) : Prop where
  range : t.range.Within b
  step : ∀ s, t.step = some s → 0 < s

/-- The loop marks the values of the term, with or without the clamp on its step. -/
theorem steps_limits {b : Bounds} {r : Range} (hr : r.Within b) {s : ℕ} (hs : 0 < s) :
    steps (r.limits b (min s (b.max - b.min + 1))).1 (min s (b.max - b.min + 1))
      (r.limits b (min s (b.max - b.min + 1))).2 = marked b ⟨r, some s⟩ := by
  cases r with
  | all =>
    have hw : b.max < b.min + (b.max - b.min + 1) := by omega
    exact steps_clamp hw
  | between lo hi =>
    obtain ⟨hlo, hhi⟩ := hr
    have hw : hi < lo + (b.max - b.min + 1) := by omega
    exact steps_clamp hw
  | value a =>
    obtain ⟨hmin, hmax⟩ := hr
    rw [Range.limits, marked]
    split_ifs with hstep hone hone
    · omega
    · exact steps_clamp (by omega)
    · exact steps_self a _
    · have hend : a = b.max := by omega
      rw [hend, steps_self, steps_self]

theorem steps_limits_one {b : Bounds} (r : Range) :
    steps (r.limits b 1).1 1 (r.limits b 1).2 = marked b ⟨r, none⟩ := by
  cases r with
  | all => rfl
  | between lo hi => rfl
  | value a => exact steps_self a 1

theorem parsePart_marks {b : Bounds} {bits bits' : ℕ} {part : Text}
    (h : parsePart b bits part = some bits') : ∃ t, readTerm b part = some t ∧ t.Sound b ∧
      ∀ n, bits'.testBit n = true ↔ bits.testBit n = true ∨ n ∈ marked b t := by
  unfold parsePart at h
  simp only at h
  split_ifs at h with hempty
  obtain ⟨⟨r, step⟩, hsplit, h⟩ := Option.bind_eq_some_iff.mp h
  obtain ⟨⟨lo, hi⟩, hlimits, h⟩ := Option.bind_eq_some_iff.mp h
  rw [limits_eq] at hlimits
  obtain ⟨range, hrange, hpair⟩ := Option.map_eq_some_iff.mp hlimits
  have hwithin := readRange_within hrange
  simp only at h hpair
  split_ifs at h
  obtain rfl := Option.some.inj h
  unfold splitStep at hsplit
  unfold readTerm
  split at hsplit
  · next r' s _ =>
    obtain ⟨step', hstep, heq⟩ := Option.map_eq_some_iff.mp hsplit
    obtain ⟨rfl, rfl⟩ := Prod.mk.inj heq
    obtain ⟨s₀, hparse, rfl⟩ := Option.map_eq_some_iff.mp hstep
    have hpos : 0 < s₀ := of_decide_eq_true (Option.filter_eq_some_iff.mp hparse).2
    refine ⟨⟨range, some s₀⟩, ?_, ⟨hwithin, fun s hs => ?_⟩, fun n => ?_⟩
    · simp only [hparse, Option.bind_some, hrange, Option.map_some]
    · cases hs
      exact hpos
    · rw [← steps_limits hwithin hpos, hpair]
      exact testBit_walk (by omega) le_rfl bits n
  · next _ =>
    obtain ⟨rfl, rfl⟩ := Prod.mk.inj (Option.some.inj hsplit)
    refine ⟨⟨range, none⟩, ?_, ⟨hwithin, fun s hs => ?_⟩, fun n => ?_⟩
    · simp only [hrange, Option.map_some]
    · cases hs
    · rw [← steps_limits_one range, hpair]
      exact testBit_walk Nat.one_pos le_rfl bits n

theorem parseParts_marks {b : Bounds} {parts : List Text} {bits bits' : ℕ}
    (h : parts.foldlM (parsePart b) bits = some bits') :
    ∃ terms, parts.mapM (readTerm b) = some terms ∧ (∀ t ∈ terms, t.Sound b) ∧
      ∀ n, bits'.testBit n = true ↔ bits.testBit n = true ∨ ∃ t ∈ terms, n ∈ marked b t := by
  induction parts generalizing bits with
  | nil =>
    cases h
    exact ⟨[], rfl, by simp, by simp⟩
  | cons part parts ih =>
    rw [List.foldlM_cons] at h
    obtain ⟨bits₁, hpart, hrest⟩ := Option.bind_eq_some_iff.mp h
    obtain ⟨t, ht, hsound, hmarks⟩ := parsePart_marks hpart
    obtain ⟨terms, hterms, hsounds, hmore⟩ := ih hrest
    refine ⟨t :: terms, ?_, ?_, fun n => ?_⟩
    · rw [List.mapM_cons, ht, hterms]
      rfl
    · simpa using ⟨hsound, hsounds⟩
    · rw [hmore, hmarks, or_assoc]
      simp

/-- An accepted field sets the bits its terms mark. -/
theorem parseField_marks {b : Bounds} {field : Text} {bits : ℕ} (h : parseField b field = some bits) :
    ∃ terms, readTerms b field = some terms ∧ (∀ t ∈ terms, t.Sound b) ∧
      ∀ n, bits.testBit n = true ↔ ∃ t ∈ terms, n ∈ marked b t := by
  obtain ⟨bits', hfold, h⟩ := Option.bind_eq_some_iff.mp h
  split_ifs at h
  cases h
  obtain ⟨terms, hterms, hsounds, hmarks⟩ := parseParts_marks hfold
  exact ⟨terms, hterms, hsounds, fun n => by simpa using hmarks n⟩

theorem marked_le {b : Bounds} {t : Term} (ht : t.Sound b) {n : ℕ} (h : n ∈ marked b t) :
    n ≤ b.max := by
  obtain ⟨range, step⟩ := t
  have hrange := ht.range
  cases range with
  | all =>
    obtain ⟨k, -, hle⟩ := h
    exact hle
  | between lo hi =>
    obtain ⟨k, -, hle⟩ := h
    exact hle.trans hrange.2
  | value a =>
    cases step with
    | none =>
      rw [Set.mem_singleton_iff.mp h]
      exact hrange.2
    | some s =>
      rw [marked] at h
      split_ifs at h
      · rw [Set.mem_singleton_iff.mp h]
        exact hrange.2
      · obtain ⟨k, -, hle⟩ := h
        exact hle

/-! ## The days of the week -/

theorem testBit_normalizeDow {bits : ℕ} (h : ∀ n, bits.testBit n = true → n ≤ 7) (d : ℕ) :
    (normalizeDow bits).testBit d = true ↔ ∃ n, bits.testBit n = true ∧ n % 7 = d := by
  have hmask : ∀ n < 8, (2 ^ 128 - 1 - 1 <<< 7).testBit n = decide (n ≠ 7) := by decide
  have hsmall : ∀ n, bits.testBit n = true → n ≠ 7 → n % 7 = n := by
    intro n hn hne
    have hle := h n hn
    exact Nat.mod_eq_of_lt (by omega)
  unfold normalizeDow
  split_ifs with hseven
  · rw [Nat.testBit_or, Nat.testBit_and, Bool.or_eq_true, Bool.and_eq_true]
    constructor
    · rintro (⟨hbit, hm⟩ | hone)
      · rw [hmask d (by have := h d hbit; omega), decide_eq_true_eq] at hm
        exact ⟨d, hbit, hsmall d hbit hm⟩
      · rw [Nat.testBit_one_eq_true_iff_self_eq_zero] at hone
        exact ⟨7, hseven, hone.symm⟩
    · rintro ⟨n, hbit, rfl⟩
      by_cases hn : n = 7
      · subst hn
        exact .inr rfl
      · rw [hsmall n hbit hn]
        refine .inl ⟨hbit, ?_⟩
        rw [hmask n (by have := h n hbit; omega), decide_eq_true_eq]
        exact hn
  · constructor
    · intro hbit
      refine ⟨d, hbit, hsmall d hbit ?_⟩
      rintro rfl
      exact hseven hbit
    · rintro ⟨n, hbit, rfl⟩
      rwa [hsmall n hbit fun hn => hseven (hn ▸ hbit)]

/-! ## What an accepted field stands for -/

theorem Field.last_le (f : Field) : f.last ≤ f.bounds.max := by
  cases f with
  | plain b => exact le_rfl
  | weekday => decide

/-- Folding loses nothing below the end of an open-ended term. -/
theorem Field.fold_eq {f : Field} {n n' : ℕ} (hn : n ≤ f.last) (hn' : n' ≤ f.bounds.max)
    (h : f.fold n' = f.fold n) : n' ≤ f.last ∨ n = 0 := by
  cases f with
  | plain b => exact .inl hn'
  | weekday =>
    have hlast : n ≤ 6 := hn
    have hmax : n' ≤ 7 := hn'
    have hfold : n' % 7 = n % 7 := h
    have hgoal : n' ≤ 6 ∨ n = 0 := by omega
    exact hgoal

variable {f : Field} {t : Term}

theorem named_subset_marked (ht : t.Sound f.bounds) : f.named t ⊆ marked f.bounds t := by
  obtain ⟨range, step⟩ := t
  have hrange := ht.range
  cases range with
  | all => exact fun n hn => hn
  | between lo hi => exact fun n hn => hn
  | value a =>
    cases step with
    | none => exact fun n hn => hn
    | some s =>
      intro n hn
      by_cases hone : s = 1
      · subst hone
        exact hn
      · have hmeaning : n ∈ f.meaning ⟨.value a, some s⟩ := by
          unfold Field.named at hn
          split at hn
          · next heq =>
            cases heq
            exact absurd rfl hone
          · exact hn
        rw [marked, if_neg hone]
        rcases hmeaning with hself | ⟨k, rfl, hle⟩
        · rw [Set.mem_singleton_iff.mp hself]
          exact mem_steps_self s hrange.2
        · exact ⟨k, rfl, hle.trans f.last_le⟩

theorem named_subset_meaning : f.named t ⊆ f.meaning t := by
  intro n hn
  unfold Field.named at hn
  split at hn
  · exact .inl hn
  · exact hn

theorem marked_cases {n : ℕ} (hn : n ∈ marked f.bounds t) : n ∈ f.named t ∨
    ∃ a s, t = ⟨.value a, some s⟩ ∧ s ≠ 1 ∧ n ∈ steps a s f.bounds.max ∧ f.last < n := by
  obtain ⟨range, step⟩ := t
  cases range with
  | all => exact .inl hn
  | between lo hi => exact .inl hn
  | value a =>
    cases step with
    | none => exact .inl hn
    | some s =>
      rw [marked] at hn
      split_ifs at hn with hone
      · subst hone
        exact .inl hn
      · rcases Nat.lt_or_ge f.last n with hlt | hle
        · exact .inr ⟨a, s, rfl, hone, hn, hlt⟩
        · left
          obtain ⟨k, rfl, -⟩ := hn
          have hmeaning : a + k * s ∈ f.meaning ⟨.value a, some s⟩ := .inr ⟨k, rfl, hle⟩
          unfold Field.named
          split
          · next heq =>
            cases heq
            exact absurd rfl hone
          · exact hmeaning

theorem meaning_cases {n : ℕ} (hn : n ∈ f.meaning t) : n ∈ f.named t ∨
    ∃ a, t = ⟨.value a, some 1⟩ ∧ n ∈ steps a 1 f.last := by
  unfold Field.named
  split
  · next a =>
    rcases hn with hself | hrun
    · exact .inl hself
    · exact .inr ⟨a, rfl, hrun⟩
  · exact .inl hn

/-- The bits of an accepted field, up to the second name of Sunday. -/
theorem parse_marks {field : Text} {bits : ℕ} (h : f.parse field = some bits) :
    ∃ terms, readTerms f.bounds field = some terms ∧ (∀ t ∈ terms, t.Sound f.bounds) ∧
      ∀ d, bits.testBit d = true ↔ ∃ t ∈ terms, ∃ n ∈ marked f.bounds t, f.fold n = d := by
  cases f with
  | plain b =>
    obtain ⟨terms, hterms, hsound, hmarks⟩ := parseField_marks h
    refine ⟨terms, hterms, hsound, fun d => (hmarks d).trans ?_⟩
    apply exists_congr
    intro t
    apply and_congr_right
    intro _
    constructor
    · exact fun hd => ⟨d, hd, rfl⟩
    · rintro ⟨n, hn, rfl⟩
      exact hn
  | weekday =>
    obtain ⟨raw, hraw, rfl⟩ := Option.map_eq_some_iff.mp h
    obtain ⟨terms, hterms, hsound, hmarks⟩ := parseField_marks hraw
    have hseven : ∀ n, raw.testBit n = true → n ≤ 7 := by
      intro n hn
      obtain ⟨t, ht, hmem⟩ := (hmarks n).mp hn
      exact marked_le (hsound t ht) hmem
    refine ⟨terms, hterms, hsound, fun d => (testBit_normalizeDow hseven d).trans ?_⟩
    constructor
    · rintro ⟨n, hn, rfl⟩
      obtain ⟨t, ht, hmem⟩ := (hmarks n).mp hn
      exact ⟨t, ht, n, hmem, rfl⟩
    · rintro ⟨t, ht, n, hmem, rfl⟩
      exact ⟨n, (hmarks n).mpr ⟨t, ht, hmem⟩, rfl⟩

/-- An open-ended run that contains 0 starts there. -/
theorem run_zero {a hi : ℕ} (h : 0 ∈ steps a 1 hi) : a = 0 := by
  obtain ⟨k, hk, -⟩ := h
  omega

theorem denotes_iff {terms : List Term} {bits : ℕ} (hsound : ∀ t ∈ terms, t.Sound f.bounds)
    (hbits : ∀ d, bits.testBit d = true ↔ ∃ t ∈ terms, ∃ n ∈ marked f.bounds t, f.fold n = d) :
    Denotes f terms bits ↔ Covered f terms := by
  constructor
  · intro h
    constructor
    · intro a ht n hn
      have hmeaning : n ∈ f.meaning ⟨.value a, some 1⟩ := .inr hn
      obtain ⟨t', ht', n', hn', hfold⟩ := (hbits _).mp ((h _).mpr ⟨_, ht, n, hmeaning, rfl⟩)
      rcases marked_cases hn' with hnamed | ⟨a', s', rfl, -, -, hlast⟩
      · exact ⟨t', ht', n', hnamed, hfold⟩
      · obtain ⟨k, rfl, hle⟩ := id hn
        rcases Field.fold_eq hle (marked_le (hsound _ ht') hn') hfold with hle' | hzero
        · omega
        · rw [hzero] at hn ⊢
          obtain rfl := run_zero hn
          exact ⟨_, ht, 0, rfl, rfl⟩
    · intro a s ht hone n hn hlast
      have hmarked : n ∈ marked f.bounds ⟨.value a, some s⟩ := by
        rw [marked, if_neg hone]
        exact hn
      obtain ⟨t', ht', n', hn', hfold⟩ := (h _).mp ((hbits _).mpr ⟨_, ht, n, hmarked, rfl⟩)
      rcases meaning_cases hn' with hnamed | ⟨a', rfl, hrun⟩
      · exact ⟨t', ht', n', hnamed, hfold⟩
      · obtain ⟨k, rfl, hle⟩ := id hrun
        rcases Field.fold_eq hle (marked_le (hsound _ ht) hmarked) hfold.symm with hle' | hzero
        · omega
        · rw [hzero] at hrun
          rw [← hfold, hzero]
          obtain rfl := run_zero hrun
          exact ⟨_, ht', 0, rfl, rfl⟩
  · intro h d
    have hnamed : (∃ t ∈ terms, ∃ n ∈ f.named t, f.fold n = d) →
        (∃ t ∈ terms, ∃ n ∈ marked f.bounds t, f.fold n = d) ∧
          ∃ t ∈ terms, ∃ n ∈ f.meaning t, f.fold n = d := by
      rintro ⟨t, ht, n, hn, hfold⟩
      exact ⟨⟨t, ht, n, named_subset_marked (hsound t ht) hn, hfold⟩,
        ⟨t, ht, n, named_subset_meaning hn, hfold⟩⟩
    rw [hbits]
    constructor
    · rintro ⟨t, ht, n, hn, rfl⟩
      rcases marked_cases hn with hn | ⟨a, s, rfl, hone, hmem, hlast⟩
      · exact (hnamed ⟨t, ht, n, hn, rfl⟩).2
      · exact (hnamed (h.beyond a s ht hone n hmem hlast)).2
    · rintro ⟨t, ht, n, hn, rfl⟩
      rcases meaning_cases hn with hn | ⟨a, rfl, hmem⟩
      · exact (hnamed ⟨t, ht, n, hn, rfl⟩).1
      · exact (hnamed (h.run a ht n hmem)).1

/-- An accepted field is the union of what its terms stand for exactly when the values that an
open-ended step drops, or reaches beyond its end, are named by its terms anyway. -/
theorem parse_denotes_iff {field : Text} {bits : ℕ} (h : f.parse field = some bits) :
    ∃ terms, readTerms f.bounds field = some terms ∧ (Denotes f terms bits ↔ Covered f terms) := by
  obtain ⟨terms, hterms, hsound, hbits⟩ := parse_marks h
  exact ⟨terms, hterms, denotes_iff hsound hbits⟩

theorem parse_denotes_iff_weekdays : ∃ terms,
    readTerms Field.weekday.bounds "mon-fri,7".toList = some terms ∧
      (Denotes .weekday terms 63 ↔ Covered .weekday terms) :=
  parse_denotes_iff (by decide)

/-- Every minute from 5 on is minute 5 alone, and every other day from Monday on has the Sunday
after Saturday. -/
theorem open_step_misread :
    (∃ bits, Field.parse (.plain minuteBounds) "5/1".toList = some bits ∧
      ∀ terms, readTerms minuteBounds "5/1".toList = some terms →
        ¬ Denotes (.plain minuteBounds) terms bits) ∧
    ∃ bits, Field.parse .weekday "1/2".toList = some bits ∧
      ∀ terms, readTerms dowBounds "1/2".toList = some terms → ¬ Denotes .weekday terms bits := by
  constructor
  · refine ⟨32, by decide, fun terms hterms h => ?_⟩
    have hread : readTerms minuteBounds "5/1".toList = some [⟨.value 5, some 1⟩] := by decide
    cases hread.symm.trans hterms
    have hsix := (h 6).mpr ⟨_, List.mem_singleton_self _, 6, .inr ⟨1, rfl, by decide⟩, rfl⟩
    exact absurd hsix (by decide)
  · refine ⟨43, by decide, fun terms hterms h => ?_⟩
    have hread : readTerms dowBounds "1/2".toList = some [⟨.value 1, some 2⟩] := by decide
    cases hread.symm.trans hterms
    obtain ⟨t, ht, n, hn, hfold⟩ := (h 0).mp (by decide)
    cases List.mem_singleton.mp ht
    have hzero : n % 7 = 0 := hfold
    rcases hn with hself | ⟨k, rfl, hle⟩
    · rw [Set.mem_singleton_iff.mp hself] at hzero
      cases hzero
    · have hle' : 1 + k * 2 ≤ 6 := hle
      omega

end FerrisScope.CronFields
