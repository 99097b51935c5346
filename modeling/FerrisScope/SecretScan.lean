import FerrisScope.AsciiCase
import FerrisScope.ListCuts
import FerrisScope.ProviderErrors
import Mathlib.Data.List.TakeWhile

/-!
# What the redaction takes for a secret

The scan takes a text in pieces. A piece keeps some characters and hides the rest of it behind one mark. A
piece that hides something begins where a word can begin, with a trigger or with the start of a key, and goes
to the end of the run of secret characters.
-/

namespace FerrisScope.SecretScan
open HostsFile (Text)
open AsciiCase ProviderErrors

/-- What one turn of the scan takes from the text. -/
structure Piece where
  kept : Text
  hidden : Text
  deriving DecidableEq

namespace Piece

def text (p : Piece) : Text := p.kept ++ p.hidden

def shown (p : Piece) : Text := p.kept ++ (if p.hidden = [] then [] else redacted)

/-- For each character whether it is copied. -/
def copied (p : Piece) : List Bool := List.replicate p.kept.length true ++ List.replicate p.hidden.length false

theorem length_copied (p : Piece) : p.copied.length = p.text.length := by
  rw [copied, text, List.length_append, List.length_append, List.length_replicate, List.length_replicate]

end Piece

/-- A word can start behind this text. -/
def atBoundary (before : Text) : Bool := before.getLast?.all fun c => !isWordChar c

/-- The run of secret characters at the start. -/
def run (t : Text) : Text := t.takeWhile isSecretChar

def valueSpan (t : Text) (trigger : String) : Option Piece :=
  if trigger.toList.isPrefixOf (toAsciiLowercase t) then some ⟨t.take trigger.length, run (t.drop trigger.length)⟩
  else none

def keySpan (t : Text) (start : String) : Option Piece :=
  if start.toList.isPrefixOf (toAsciiLowercase t) && 8 ≤ (run (t.drop start.length)).length then
    some ⟨[], t.take start.length ++ run (t.drop start.length)⟩
  else none

def spanAt (t : Text) : Option Piece := (valueTriggers.findSome? (valueSpan t)).or (keyPrefixes.findSome? (keySpan t))

def pieceAt (before t : Text) : Piece :=
  match if atBoundary before then spanAt t else none with
  | some piece => piece
  | none => ⟨t.take 1, []⟩

/-! ## Triggers -/

/-- A value trigger, in whatever case. -/
def IsTrigger (w : Text) : Prop := toAsciiLowercase w ∈ valueTriggers.map String.toList

def IsBearer (w : Text) : Prop := toAsciiLowercase w = "bearer ".toList

/-- A token that starts like a key and goes on for eight characters or more. -/
def IsKeyToken (v : Text) : Prop :=
  ∃ start ∈ keyPrefixes, start.toList <+: toAsciiLowercase v ∧ start.length + 8 ≤ v.length

instance (w : Text) : Decidable (IsTrigger w) := inferInstanceAs (Decidable (_ ∈ _))

instance (w : Text) : Decidable (IsBearer w) := inferInstanceAs (Decidable (_ = _))

theorem isSecretChar_toLower (c : Char) : isSecretChar c.toLower = isSecretChar c := by
  rcases toLower_cases c with h | ⟨h, hlower⟩
  · rw [h]
  · rw [isSecretChar, isSecretChar, h, hlower, Bool.true_or, Bool.true_or]

theorem isWordChar_toLower (c : Char) : isWordChar c.toLower = isWordChar c := by
  rcases toLower_cases c with h | ⟨h, hlower⟩
  · rw [h]
  · rw [isWordChar, isWordChar, h, hlower, Bool.true_or, Bool.true_or]

theorem all_secret_lower (w : Text) : (toAsciiLowercase w).all isSecretChar = w.all isSecretChar := by
  rw [toAsciiLowercase, List.all_map]
  exact congrArg w.all (funext isSecretChar_toLower)

theorem atBoundary_lower (w : Text) : atBoundary (toAsciiLowercase w) = atBoundary w := by
  rw [atBoundary, toAsciiLowercase, List.getLast?_map, Option.all_map]
  exact congrArg (Option.all · w.getLast?) (funext fun c => congrArg (! ·) (isWordChar_toLower c))

theorem lower_append (u v : Text) : toAsciiLowercase (u ++ v) = toAsciiLowercase u ++ toAsciiLowercase v :=
  List.map_append

theorem length_lower (w : Text) : (toAsciiLowercase w).length = w.length := List.length_map _

theorem atBoundary_append (u : Text) {v : Text} (h : v ≠ []) : atBoundary (u ++ v) = atBoundary v := by
  rw [atBoundary, List.getLast?_append_of_ne_nil u h, atBoundary]

theorem run_append {u : Text} (v : Text) (h : u.all isSecretChar = true) : run (u ++ v) = u ++ run v :=
  List.takeWhile_append_of_pos (List.all_eq_true.mp h)

theorem run_all (t : Text) : (run t).all isSecretChar = true := List.all_takeWhile

theorem run_le (t : Text) : run t <+: t := List.takeWhile_prefix _

theorem run_cons_of_not {c : Char} (t : Text) (h : isSecretChar c = false) : run (c :: t) = [] := by
  rw [run, List.takeWhile_cons, h]
  rfl

/-- A word at the start of a text, found without regard to case. -/
theorem isPrefixOf_lower {word t : Text} :
    word.isPrefixOf (toAsciiLowercase t) = true ↔ ∃ w r, t = w ++ r ∧ toAsciiLowercase w = word := by
  rw [List.isPrefixOf_iff_prefix, toAsciiLowercase, List.prefix_map_iff]
  constructor
  · rintro ⟨w, ⟨r, hr⟩, hw⟩
    exact ⟨w, r, hr.symm, hw.symm⟩
  · rintro ⟨w, r, hr, hw⟩
    exact ⟨w, ⟨r, hr.symm⟩, hw.symm⟩

theorem valueSpan_eq_some {t : Text} {trigger : String} {p : Piece} :
    valueSpan t trigger = some p ↔ ∃ w r, t = w ++ r ∧ toAsciiLowercase w = trigger.toList ∧ p = ⟨w, run r⟩ := by
  rw [valueSpan]
  constructor
  · intro h
    split at h
    · rename_i hbegin
      obtain ⟨w, r, rfl, hw⟩ := isPrefixOf_lower.mp hbegin
      have hlength : trigger.length = w.length := by rw [← String.length_toList, ← hw, length_lower]
      rw [hlength, List.take_left, List.drop_left] at h
      exact ⟨w, r, rfl, hw, (Option.some.inj h).symm⟩
    · cases h
  · rintro ⟨w, r, rfl, hw, rfl⟩
    have hlength : trigger.length = w.length := by rw [← String.length_toList, ← hw, length_lower]
    rw [if_pos (isPrefixOf_lower.mpr ⟨w, r, rfl, hw⟩), hlength, List.take_left, List.drop_left]

theorem keySpan_eq_some {t : Text} {start : String} {p : Piece} :
    keySpan t start = some p ↔ ∃ w r, t = w ++ r ∧ toAsciiLowercase w = start.toList ∧ 8 ≤ (run r).length ∧
      p = ⟨[], w ++ run r⟩ := by
  rw [keySpan]
  constructor
  · intro h
    split at h
    · rename_i hboth
      rw [Bool.and_eq_true, decide_eq_true_eq] at hboth
      obtain ⟨w, r, rfl, hw⟩ := isPrefixOf_lower.mp hboth.1
      have hlength : start.length = w.length := by rw [← String.length_toList, ← hw, length_lower]
      rw [hlength, List.drop_left] at hboth
      rw [hlength, List.take_left, List.drop_left] at h
      exact ⟨w, r, rfl, hw, hboth.2, (Option.some.inj h).symm⟩
    · cases h
  · rintro ⟨w, r, rfl, hw, hlong, rfl⟩
    have hlength : start.length = w.length := by rw [← String.length_toList, ← hw, length_lower]
    rw [hlength, List.take_left, List.drop_left, if_pos]
    rw [Bool.and_eq_true, decide_eq_true_eq]
    exact ⟨isPrefixOf_lower.mpr ⟨w, r, rfl, hw⟩, hlong⟩

theorem trigger_prefixFree : ∀ s ∈ valueTriggers, ∀ s' ∈ valueTriggers, s.toList <+: s'.toList → s = s' := by decide

theorem trigger_key_apart : ∀ s ∈ valueTriggers, ∀ k ∈ keyPrefixes, ¬ s.toList <+: k.toList ∧ ¬ k.toList <+: s.toList := by
  decide

theorem key_secret : ∀ k ∈ keyPrefixes, k.toList.all isSecretChar = true := by decide

theorem trigger_secret : ∀ s ∈ valueTriggers, s ≠ "bearer " → s.toList.all isSecretChar = true := by decide

/-- Two words at the start of one text, one of which goes on with the other. -/
theorem prefix_or_prefix {w r w' r' : Text} (h : w ++ r = w' ++ r') :
    toAsciiLowercase w <+: toAsciiLowercase w' ∨ toAsciiLowercase w' <+: toAsciiLowercase w := by
  have hw : w <+: w' ++ r' := ⟨r, h⟩
  rcases List.prefix_or_prefix_of_prefix hw (List.prefix_append w' r') with hle | hle
  · exact .inl (hle.map _)
  · exact .inr (hle.map _)

theorem IsTrigger.exists_mem {w : Text} (h : IsTrigger w) : ∃ s ∈ valueTriggers, s.toList = toAsciiLowercase w :=
  List.mem_map.mp h

theorem IsTrigger.ne_nil {w : Text} (h : IsTrigger w) : w ≠ [] := by
  rintro rfl
  exact absurd h (by decide)

theorem IsTrigger.secret {w : Text} (h : IsTrigger w) (hbearer : ¬ IsBearer w) : w.all isSecretChar = true := by
  obtain ⟨s, hs, hw⟩ := h.exists_mem
  rw [← all_secret_lower, ← hw]
  apply trigger_secret s hs
  rintro rfl
  exact hbearer hw.symm

/-- No word can start within a trigger. -/
theorem IsTrigger.no_boundary {u v : Text} (h : IsTrigger (u ++ v)) (hu : u ≠ []) (hv : v ≠ []) :
    atBoundary u = false := by
  have hclosed : ∀ s ∈ valueTriggers, ∀ n < s.toList.length, 0 < n → atBoundary (s.toList.take n) = false := by
    decide
  obtain ⟨s, hs, hw⟩ := h.exists_mem
  rw [lower_append] at hw
  have hlength : u.length < s.toList.length := by
    rw [hw, List.length_append, length_lower, length_lower]
    have hpos := List.length_pos_of_ne_nil hv
    omega
  have hinner := hclosed s hs u.length hlength (List.length_pos_of_ne_nil hu)
  rwa [hw, ← length_lower u, List.take_left, atBoundary_lower] at hinner

theorem spanAt_trigger {w : Text} (r : Text) (h : IsTrigger w) : spanAt (w ++ r) = some ⟨w, run r⟩ := by
  obtain ⟨s, hs, hw⟩ := h.exists_mem
  have hspan : valueSpan (w ++ r) s = some ⟨w, run r⟩ := valueSpan_eq_some.mpr ⟨w, r, rfl, hw.symm, rfl⟩
  cases hfind : valueTriggers.findSome? (valueSpan (w ++ r)) with
  | none =>
    rw [List.findSome?_eq_none_iff.mp hfind s hs] at hspan
    cases hspan
  | some p =>
    obtain ⟨s', hs', hp⟩ := List.exists_of_findSome?_eq_some hfind
    obtain ⟨w', r', ht, hw', rfl⟩ := valueSpan_eq_some.mp hp
    have hsame : s = s' := by
      rcases prefix_or_prefix ht with hle | hle
      · exact trigger_prefixFree s hs s' hs' (by rwa [hw, ← hw'])
      · exact (trigger_prefixFree s' hs' s hs (by rwa [hw, ← hw'])).symm
    have hlength : w.length = w'.length := by rw [← length_lower, ← length_lower w', hw', ← hw, hsame]
    obtain ⟨rfl, rfl⟩ := List.append_inj ht hlength
    rw [spanAt, hfind, Option.some_or]

theorem run_key {w : Text} {k : String} (hk : k ∈ keyPrefixes) (hw : toAsciiLowercase w = k.toList) (r : Text) :
    run (w ++ r) = w ++ run r := by
  apply run_append
  rw [← all_secret_lower, hw]
  exact key_secret k hk

/-- The run at the start of a text is a token when the text starts like a key. -/
theorem isKeyToken_run {t : Text} : IsKeyToken (run t) ↔
    ∃ k ∈ keyPrefixes, ∃ w r, t = w ++ r ∧ toAsciiLowercase w = k.toList ∧ 8 ≤ (run r).length := by
  constructor
  · rintro ⟨k, hk, hbegin, hlong⟩
    obtain ⟨w, v, hwv, hw⟩ := isPrefixOf_lower.mp (List.isPrefixOf_iff_prefix.mpr hbegin)
    obtain ⟨rest, hrest⟩ := run_le t
    have ht : t = w ++ (v ++ rest) := by rw [← List.append_assoc, ← hwv, hrest]
    refine ⟨k, hk, w, v ++ rest, ht, hw, ?_⟩
    have hrun := run_key hk hw (v ++ rest)
    rw [← ht] at hrun
    rw [hrun, List.length_append, ← length_lower, hw, String.length_toList] at hlong
    omega
  · rintro ⟨k, hk, w, r, rfl, hw, hlong⟩
    refine ⟨k, hk, ?_, ?_⟩
    · rw [run_key hk hw, lower_append, hw]
      exact List.prefix_append _ _
    · rw [run_key hk hw, List.length_append, ← length_lower w, hw, String.length_toList]
      omega

theorem spanAt_token {t : Text} (h : IsKeyToken (run t)) : spanAt t = some ⟨[], run t⟩ := by
  obtain ⟨k, hk, w, r, ht, hw, hlong⟩ := isKeyToken_run.mp h
  have hvalue : valueTriggers.findSome? (valueSpan t) = none := by
    rw [List.findSome?_eq_none_iff]
    intro s hs
    cases hspan : valueSpan t s with
    | none => rfl
    | some p =>
      obtain ⟨w', r', ht', hw', -⟩ := valueSpan_eq_some.mp hspan
      rw [ht] at ht'
      have hapart := trigger_key_apart s hs k hk
      rw [← hw, ← hw'] at hapart
      rcases prefix_or_prefix ht' with hle | hle
      · exact absurd hle hapart.2
      · exact absurd hle hapart.1
  have hspan : keySpan t k = some ⟨[], w ++ run r⟩ := keySpan_eq_some.mpr ⟨w, r, ht, hw, hlong, rfl⟩
  rw [spanAt, hvalue, Option.none_or]
  cases hfind : keyPrefixes.findSome? (keySpan t) with
  | none =>
    rw [List.findSome?_eq_none_iff.mp hfind k hk] at hspan
    cases hspan
  | some p =>
    obtain ⟨k', hk', hp⟩ := List.exists_of_findSome?_eq_some hfind
    obtain ⟨w', r', ht', hw', -, rfl⟩ := keySpan_eq_some.mp hp
    rw [ht', run_key hk' hw']

/-- A piece that hides something keeps a trigger, or nothing of a token. -/
theorem spanAt_spec {t : Text} {p : Piece} (h : spanAt t = some p) :
    ∃ r, t = p.kept ++ r ∧ p.hidden = run r ∧ (IsTrigger p.kept ∨ p.kept = [] ∧ IsKeyToken p.hidden) := by
  rw [spanAt, Option.or_eq_some_iff] at h
  rcases h with h | ⟨-, h⟩
  · obtain ⟨s, hs, hp⟩ := List.exists_of_findSome?_eq_some h
    obtain ⟨w, r, rfl, hw, rfl⟩ := valueSpan_eq_some.mp hp
    exact ⟨r, rfl, rfl, .inl (List.mem_map.mpr ⟨s, hs, hw.symm⟩)⟩
  · obtain ⟨k, hk, hp⟩ := List.exists_of_findSome?_eq_some h
    obtain ⟨w, r, rfl, hw, hlong, rfl⟩ := keySpan_eq_some.mp hp
    rw [← run_key hk hw]
    exact ⟨w ++ r, rfl, rfl, .inr ⟨rfl, isKeyToken_run.mpr ⟨k, hk, w, r, rfl, hw, hlong⟩⟩⟩

/-- What no secret character starts is copied. -/
theorem spanAt_of_not_secret {c : Char} (r : Text) (h : isSecretChar c = false) : spanAt (c :: r) = none := by
  have hhead : ∀ s ∈ valueTriggers, s.toList.head?.any isSecretChar = true := by decide
  cases hspan : spanAt (c :: r) with
  | none => rfl
  | some p =>
    obtain ⟨r', ht, hhidden, htrigger | ⟨hkept, hkey⟩⟩ := spanAt_spec hspan
    · obtain ⟨s, hs, hw⟩ := htrigger.exists_mem
      cases hk : p.kept with
      | nil => exact absurd hk htrigger.ne_nil
      | cons d w =>
        rw [hk, List.cons_append] at ht
        have hfirst := hhead s hs
        rw [hw, hk, ← (List.cons.inj ht).1] at hfirst
        have hsecret : isSecretChar c.toLower = true := hfirst
        rw [isSecretChar_toLower, h] at hsecret
        cases hsecret
    · rw [hkept, List.nil_append] at ht
      rw [hhidden, ← ht, run_cons_of_not r h] at hkey
      obtain ⟨k, -, -, hlong⟩ := hkey
      exact absurd hlong (by simp)

/-- A piece is found again wherever its text is. -/
theorem spanAt_again {t t' : Text} {p : Piece} (h : spanAt t = some p) (hbegin : p.text <+: t') : spanAt t' ≠ none := by
  obtain ⟨r, -, hhidden, htrigger | ⟨hkept, k, hk, hstart, hlong⟩⟩ := spanAt_spec h
  · obtain ⟨rest, rfl⟩ := hbegin
    rw [Piece.text, List.append_assoc, spanAt_trigger _ htrigger]
    exact Option.some_ne_none _
  · obtain ⟨rest, rfl⟩ := hbegin
    have hrun : run (p.text ++ rest) = p.hidden ++ run rest := by
      rw [Piece.text, hkept, List.nil_append, run_append rest (by rw [hhidden]; exact run_all r)]
    rw [spanAt_token]
    · exact Option.some_ne_none _
    · rw [hrun]
      refine ⟨k, hk, ?_, ?_⟩
      · rw [lower_append]
        exact hstart.trans (List.prefix_append _ _)
      · rw [List.length_append]
        omega

theorem spanAt_text_ne_nil {t : Text} {p : Piece} (h : spanAt t = some p) : p.text ≠ [] := by
  obtain ⟨r, -, -, htrigger | ⟨-, k, -, -, hlong⟩⟩ := spanAt_spec h
  · exact List.append_ne_nil_of_left_ne_nil htrigger.ne_nil _
  · apply List.append_ne_nil_of_right_ne_nil
    apply List.ne_nil_of_length_pos
    omega

/-- A text is copied that neither goes on as a trigger or key does nor ends within one. -/
theorem spanAt_of_apart {u : Text} (r : Text)
    (h : ∀ s ∈ valueTriggers ++ keyPrefixes, ¬ s.toList <+: toAsciiLowercase u ∧ ¬ toAsciiLowercase u <+: s.toList) :
    spanAt (u ++ r) = none := by
  have hno : ∀ s ∈ valueTriggers ++ keyPrefixes, ¬ s.toList <+: toAsciiLowercase (u ++ r) := by
    intro s hs hbegin
    obtain ⟨w, r', hr', hw⟩ := isPrefixOf_lower.mp (List.isPrefixOf_iff_prefix.mpr hbegin)
    have hapart := h s hs
    rw [← hw] at hapart
    rcases prefix_or_prefix hr' with hle | hle
    · exact hapart.2 hle
    · exact hapart.1 hle
  cases hspan : spanAt (u ++ r) with
  | none => rfl
  | some p =>
    obtain ⟨r', hr', hhidden, htrigger | ⟨hkept, k, hk, hstart, -⟩⟩ := spanAt_spec hspan
    · obtain ⟨s, hs, hw⟩ := htrigger.exists_mem
      refine absurd ?_ (hno s (List.mem_append_left _ hs))
      rw [hr', lower_append, hw]
      exact List.prefix_append _ _
    · refine absurd ?_ (hno k (List.mem_append_right _ hk))
      rw [hr', hkept, List.nil_append]
      rw [hhidden] at hstart
      exact hstart.trans ((run_le r').map _)

theorem lt_not_secret : isSecretChar '<' = false := by decide

theorem not_mem_of_all_secret {w : Text} (h : w.all isSecretChar = true) : '<' ∉ w := by
  intro hmem
  have hsecret := List.all_eq_true.mp h _ hmem
  rw [lt_not_secret] at hsecret
  cases hsecret

/-- The mark starts with a character that no piece has. -/
theorem lt_not_mem_text {t : Text} {p : Piece} (h : spanAt t = some p) : '<' ∉ p.text := by
  have hclosed : ∀ s ∈ valueTriggers, '<' ∉ s.toList := by decide
  obtain ⟨r, -, hhidden, hkind⟩ := spanAt_spec h
  have htail : '<' ∉ p.hidden := by
    rw [hhidden]
    exact not_mem_of_all_secret (run_all r)
  rw [Piece.text, List.mem_append, not_or]
  rcases hkind with htrigger | ⟨hkept, -⟩
  · refine ⟨fun hmem => ?_, htail⟩
    obtain ⟨s, hs, hw⟩ := htrigger.exists_mem
    apply hclosed s hs
    rw [hw]
    exact List.mem_map.mpr ⟨'<', hmem, rfl⟩
  · rw [hkept]
    exact ⟨List.not_mem_nil, htail⟩

/-! ## The scan -/

theorem pieceAt_cases (before : Text) {t : Text} (ht : t ≠ []) :
    (∃ c r, t = c :: r ∧ pieceAt before t = ⟨[c], []⟩ ∧ (atBoundary before = true → spanAt t = none)) ∨
      (atBoundary before = true ∧ spanAt t = some (pieceAt before t)) := by
  cases hb : atBoundary before with
  | false =>
    cases t with
    | nil => exact absurd rfl ht
    | cons c r =>
      left
      refine ⟨c, r, rfl, ?_, fun h => by cases h⟩
      rw [pieceAt, hb]
      rfl
  | true =>
    cases hspan : spanAt t with
    | none =>
      cases t with
      | nil => exact absurd rfl ht
      | cons c r =>
        left
        refine ⟨c, r, rfl, ?_, fun _ => rfl⟩
        rw [pieceAt, hb, if_pos rfl, hspan]
        rfl
    | some p =>
      right
      refine ⟨rfl, ?_⟩
      rw [pieceAt, hb, if_pos rfl, hspan]

theorem pieceAt_text (before : Text) {t : Text} (ht : t ≠ []) :
    (pieceAt before t).text ≠ [] ∧ (pieceAt before t).text <+: t := by
  rcases pieceAt_cases before ht with ⟨c, r, rfl, hp, -⟩ | ⟨-, hspan⟩
  · rw [hp]
    exact ⟨List.cons_ne_nil _ _, ⟨r, rfl⟩⟩
  · obtain ⟨r, hr, hhidden, -⟩ := spanAt_spec hspan
    refine ⟨spanAt_text_ne_nil hspan, ?_⟩
    rw [Piece.text]
    conv => rhs; rw [hr]
    rw [hhidden]
    exact (List.prefix_append_right_inj _).mpr (run_le r)

/-- The pieces of a text that comes behind another one. -/
def pieces (before : Text) : Text → List Piece
  | [] => []
  | c :: r =>
    let p := pieceAt before (c :: r)
    p :: pieces (before ++ p.text) ((c :: r).drop p.text.length)
termination_by t => t.length
decreasing_by
  rw [List.length_drop]
  have hpos := List.length_pos_of_ne_nil (pieceAt_text before (List.cons_ne_nil c r)).1
  simp only [List.length_cons]
  omega

theorem pieces_nil (before : Text) : pieces before [] = [] := by rw [pieces]

theorem pieces_eq (before : Text) {t : Text} (ht : t ≠ []) :
    ∃ r, t = (pieceAt before t).text ++ r ∧
      pieces before t = pieceAt before t :: pieces (before ++ (pieceAt before t).text) r := by
  obtain ⟨r, hr⟩ := (pieceAt_text before ht).2
  refine ⟨r, hr.symm, ?_⟩
  have hdrop : t.drop (pieceAt before t).text.length = r := by
    have hright := congrArg (List.drop (pieceAt before t).text.length) hr
    rw [List.drop_left] at hright
    exact hright.symm
  cases t with
  | nil => exact absurd rfl ht
  | cons c t =>
    rw [pieces]
    simp only [hdrop]

theorem pieces_copy (before : Text) {c : Char} (r : Text) (h : atBoundary before = true → spanAt (c :: r) = none) :
    pieces before (c :: r) = ⟨[c], []⟩ :: pieces (before ++ [c]) r := by
  obtain ⟨r', hr, hpieces⟩ := pieces_eq before (List.cons_ne_nil c r)
  rcases pieceAt_cases before (List.cons_ne_nil c r) with ⟨d, s, hd, hp, -⟩ | ⟨hb, hspan⟩
  · obtain ⟨rfl, rfl⟩ := List.cons.inj hd
    rw [hp] at hr hpieces
    rw [hpieces]
    have htail : r = r' := (List.cons.inj hr).2
    rw [htail]
    rfl
  · rw [h hb] at hspan
    cases hspan

theorem pieces_hide {before : Text} {p : Piece} (r : Text) (hb : atBoundary before = true)
    (h : spanAt (p.text ++ r) = some p) : pieces before (p.text ++ r) = p :: pieces (before ++ p.text) r := by
  have hne : p.text ++ r ≠ [] := List.append_ne_nil_of_left_ne_nil (spanAt_text_ne_nil h) r
  have hp : pieceAt before (p.text ++ r) = p := by rw [pieceAt, hb, if_pos rfl, h]
  obtain ⟨r', hr, hpieces⟩ := pieces_eq before hne
  rw [hp] at hr hpieces
  rw [hpieces, List.append_cancel_left hr]

/-- The scan by the kinds of its pieces. -/
@[elab_as_elim]
theorem scan_induction {motive : Text → Text → List Piece → Prop} (done : ∀ before, motive before [] [])
    (copy : ∀ before c r, (atBoundary before = true → spanAt (c :: r) = none) →
      motive (before ++ [c]) r (pieces (before ++ [c]) r) →
      motive before (c :: r) (⟨[c], []⟩ :: pieces (before ++ [c]) r))
    (hide : ∀ before p r, atBoundary before = true → spanAt (p.text ++ r) = some p →
      motive (before ++ p.text) r (pieces (before ++ p.text) r) →
      motive before (p.text ++ r) (p :: pieces (before ++ p.text) r))
    (before t : Text) : motive before t (pieces before t) := by
  induction hn : t.length using Nat.strong_induction_on generalizing before t with
  | _ n ih =>
    subst hn
    by_cases ht : t = []
    · rw [ht, pieces_nil]
      exact done before
    · rcases pieceAt_cases before ht with ⟨c, r, rfl, -, hnone⟩ | ⟨hb, hspan⟩
      · rw [pieces_copy before r hnone]
        exact copy before c r hnone (ih _ (Nat.lt_succ_self _) _ _ rfl)
      · obtain ⟨hne, r, hr⟩ := pieceAt_text before ht
        generalize pieceAt before t = p at hspan hne hr
        subst hr
        rw [pieces_hide r hb hspan]
        refine hide before p r hb hspan (ih _ ?_ _ _ rfl)
        have hpos := List.length_pos_of_ne_nil hne
        rw [List.length_append]
        omega

/-- What comes behind a piece that hides something is no secret character. -/
theorem rest_not_secret {p : Piece} {r : Text} (h : spanAt (p.text ++ r) = some p) :
    ∀ c ∈ r.head?, isSecretChar c = false := by
  obtain ⟨r', hr, hhidden, -⟩ := spanAt_spec h
  rw [Piece.text, List.append_assoc] at hr
  have hrest : p.hidden ++ r = r' := List.append_cancel_left hr
  have hnil : run r = [] := by
    have hrun := run_append r (u := p.hidden) (by rw [hhidden]; exact run_all r')
    rw [hrest, ← hhidden] at hrun
    exact List.self_eq_append_right.mp hrun
  intro c hc
  cases r with
  | nil => cases hc
  | cons d r =>
    obtain rfl := Option.some.inj hc
    cases hd : isSecretChar d with
    | false => rfl
    | true =>
      rw [run, List.takeWhile_cons, hd] at hnil
      cases hnil

theorem text_pieces (before t : Text) : (pieces before t).flatMap Piece.text = t := by
  induction before, t using scan_induction with
  | done before => rfl
  | copy before c r _ ih => rw [List.flatMap_cons, ih]; rfl
  | hide before p r _ _ ih => rw [List.flatMap_cons, ih]

/-! ## What the scan writes -/

theorem secretAt_eq (t : Text) : secretAt t = (spanAt t).map fun p => (p.shown, p.text.length) := by
  have hvalue : ∀ trigger, valueAt t trigger = (valueSpan t trigger).map fun p => (p.shown, p.text.length) := by
    intro trigger
    rw [valueAt, valueSpan]
    split
    · rename_i hbegin
      obtain ⟨w, r, rfl, hw⟩ := isPrefixOf_lower.mp hbegin
      have hlength : trigger.length = w.length := by rw [← String.length_toList, ← hw, length_lower]
      rw [hlength, List.take_left, List.drop_left, Option.map_some, Piece.text, List.length_append]
      rfl
    · rfl
  have hkey : ∀ start, keyAt t start = (keySpan t start).map fun p => (p.shown, p.text.length) := by
    intro start
    rw [keyAt, keySpan]
    by_cases hboth : (start.toList.isPrefixOf (toAsciiLowercase t) && decide (8 ≤ (run (t.drop start.length)).length)) = true
    · rw [if_pos hboth, Option.map_some]
      refine (if_pos hboth).trans ?_
      rw [Bool.and_eq_true, decide_eq_true_eq] at hboth
      obtain ⟨w, r, rfl, hw⟩ := isPrefixOf_lower.mp hboth.1
      have hlength : start.length = w.length := by rw [← String.length_toList, ← hw, length_lower]
      have hlong := hboth.2
      rw [hlength, List.drop_left] at hlong
      have hne : w ++ run r ≠ [] := List.append_ne_nil_of_right_ne_nil _ (List.ne_nil_of_length_pos (by omega))
      rw [hlength, List.take_left, List.drop_left, Piece.shown, Piece.text, if_neg hne, List.nil_append,
        List.nil_append, List.length_append]
      rfl
    · rw [if_neg hboth]
      exact if_neg hboth
  rw [secretAt, spanAt, Option.map_or, List.map_findSome?, List.map_findSome?]
  congr 1
  · exact congrArg (List.findSome? · valueTriggers) (funext hvalue)
  · exact congrArg (List.findSome? · keyPrefixes) (funext hkey)

/-- Characters that have been dealt with are left out. -/
theorem redactFrom_skip (c : Char) (u r : Text) :
    redactFrom (!isWordChar c) u.length (u ++ r) = redactFrom (atBoundary (c :: u)) 0 r := by
  induction u generalizing c with
  | nil => rfl
  | cons d u ih =>
    have hstep : redactFrom (!isWordChar c) (d :: u).length (d :: u ++ r) = redactFrom (!isWordChar d) u.length (u ++ r) := rfl
    rw [hstep, ih, show c :: d :: u = [c] ++ d :: u from rfl, atBoundary_append _ (List.cons_ne_nil d u)]

theorem redactFrom_copy {b : Bool} {c : Char} (r : Text) (h : (if b then secretAt (c :: r) else none) = none) :
    redactFrom b 0 (c :: r) = c :: redactFrom (!isWordChar c) 0 r := by
  rw [redactFrom.eq_def]
  dsimp only
  rw [h]

theorem redactFrom_hide {c : Char} {u r shown : Text} (h : secretAt (c :: u ++ r) = some (shown, u.length + 1)) :
    redactFrom true 0 (c :: u ++ r) = shown ++ redactFrom (!isWordChar c) u.length (u ++ r) := by
  rw [List.cons_append] at h ⊢
  rw [redactFrom.eq_def]
  dsimp only
  rw [if_pos rfl, h]
  rfl

theorem redactFrom_eq (before t : Text) :
    redactFrom (atBoundary before) 0 t = (pieces before t).flatMap Piece.shown := by
  induction before, t using scan_induction with
  | done before => rfl
  | copy before c r hnone ih =>
    rw [redactFrom_copy, List.flatMap_cons, ← ih, atBoundary_append before (List.cons_ne_nil c [])]
    · rfl
    · split
      · rename_i hb
        rw [secretAt_eq, hnone hb, Option.map_none]
      · rfl
  | hide before p r hb hspan ih =>
    rw [List.flatMap_cons, ← ih, hb]
    cases htext : p.text with
    | nil => exact absurd htext (spanAt_text_ne_nil hspan)
    | cons c u =>
      have hsecret : secretAt (c :: u ++ r) = some (p.shown, u.length + 1) := by
        rw [← htext, secretAt_eq, hspan, Option.map_some, htext, List.length_cons]
      rw [redactFrom_hide hsecret, redactFrom_skip, atBoundary_append before (List.cons_ne_nil c u)]

theorem redactSecrets_eq (input : Text) : redactSecrets input = (pieces [] input).flatMap Piece.shown :=
  redactFrom_eq [] input

/-! ## Redacting twice -/

/-- What is written up to the first mark is there in the text. -/
theorem prefix_text_of_prefix_shown {w : Text} {ps : List Piece} (h : w <+: ps.flatMap Piece.shown) (hw : '<' ∉ w) :
    w <+: ps.flatMap Piece.text := by
  induction ps generalizing w with
  | nil => exact h
  | cons p ps ih =>
    rw [List.flatMap_cons, Piece.shown, List.append_assoc] at h
    rw [List.flatMap_cons, Piece.text, List.append_assoc]
    obtain ⟨r, hr⟩ := h
    rcases List.append_eq_append_iff.mp hr with ⟨v, hv, -⟩ | ⟨v, rfl, hr'⟩
    · rw [hv, List.append_assoc]
      exact List.prefix_append _ _
    · have hv : v <+: _ := ⟨r, hr'.symm⟩
      refine (List.prefix_append_right_inj _).mpr ?_
      rw [List.mem_append, not_or] at hw
      by_cases hhidden : p.hidden = []
      · rw [if_pos hhidden, List.nil_append] at hv
        rw [hhidden, List.nil_append]
        exact ih hv hw.2
      · rw [if_neg hhidden] at hv
        cases v with
        | nil => exact List.nil_prefix
        | cons c v =>
          obtain ⟨rfl, -⟩ := List.cons_prefix_cons.mp (show c :: v <+: '<' :: _ from hv)
          exact absurd List.mem_cons_self hw.2

theorem pieces_word {before w : Text} (r : Text) (hb : atBoundary before = false) (hw : w.all isWordChar = true) :
    (pieces before (w ++ r)).flatMap Piece.shown = w ++ (pieces (before ++ w) r).flatMap Piece.shown := by
  induction w generalizing before with
  | nil => rw [List.nil_append, List.nil_append, List.append_nil]
  | cons c w ih =>
    rw [List.all_cons, Bool.and_eq_true] at hw
    have hnext : atBoundary (before ++ [c]) = false := by
      rw [atBoundary_append before (List.cons_ne_nil c [])]
      exact congrArg (! ·) hw.1
    rw [List.cons_append, pieces_copy before _ fun h => absurd (hb.symm.trans h) Bool.false_ne_true,
      List.flatMap_cons, ih hnext hw.2, List.append_assoc]
    rfl

/-- The mark is copied. -/
theorem pieces_mark (before r : Text) :
    (pieces before (redacted ++ r)).flatMap Piece.shown = redacted ++ (pieces (before ++ redacted) r).flatMap Piece.shown := by
  have hless : spanAt ('<' :: ("redacted>".toList ++ r)) = none := spanAt_of_not_secret _ lt_not_secret
  have hword : spanAt ("redacted>".toList ++ r) = none := spanAt_of_apart r (by decide)
  have hgreater : spanAt ('>' :: r) = none := spanAt_of_not_secret r (by decide)
  have hfirst : pieces before (redacted ++ r) = ⟨['<'], []⟩ :: pieces (before ++ ['<']) ("redacted>".toList ++ r) :=
    pieces_copy before _ fun _ => hless
  have hsecond : pieces (before ++ ['<']) ("redacted>".toList ++ r) =
      ⟨['r'], []⟩ :: pieces (before ++ ['<'] ++ ['r']) ("edacted".toList ++ '>' :: r) := pieces_copy _ _ fun _ => hword
  have hinside : atBoundary (before ++ ['<'] ++ ['r']) = false := atBoundary_append _ (List.cons_ne_nil _ _)
  rw [hfirst, List.flatMap_cons, hsecond, List.flatMap_cons, pieces_word _ hinside (by decide),
    pieces_copy _ r fun _ => hgreater, List.flatMap_cons, List.append_assoc, List.append_assoc, List.append_assoc]
  rfl

/-- What is written for a text that no secret character starts starts with none either. -/
theorem run_shown {before t : Text} (h : ∀ c ∈ t.head?, isSecretChar c = false) :
    run ((pieces before t).flatMap Piece.shown) = [] := by
  cases t with
  | nil =>
    rw [pieces_nil]
    rfl
  | cons c r =>
    have hc : isSecretChar c = false := h c rfl
    rw [pieces_copy before r fun _ => spanAt_of_not_secret r hc]
    exact run_cons_of_not _ hc

/-- Where the scan copied a character it copies it again: a piece that is found in what was written is there in
the text. -/
theorem spanAt_copied {before r : Text} {c : Char} (h : spanAt (c :: r) = none) :
    spanAt (c :: (pieces (before ++ [c]) r).flatMap Piece.shown) = none := by
  cases hspan : spanAt (c :: (pieces (before ++ [c]) r).flatMap Piece.shown) with
  | none => rfl
  | some q =>
    have hwritten : q.text <+: (⟨[c], []⟩ :: pieces (before ++ [c]) r).flatMap Piece.shown := by
      obtain ⟨s, hs, hhidden, -⟩ := spanAt_spec hspan
      rw [Piece.text, hhidden]
      refine ((List.prefix_append_right_inj _).mpr (run_le s)).trans ?_
      rw [← hs]
      exact List.prefix_refl _
    have htext := prefix_text_of_prefix_shown hwritten (lt_not_mem_text hspan)
    rw [List.flatMap_cons, text_pieces] at htext
    exact absurd h (spanAt_again hspan htext)

/-- What hides something begins with a secret character. -/
theorem head_of_span {p : Piece} {r : Text} (h : spanAt (p.text ++ r) = some p) :
    ¬ ∀ c ∈ (p.text ++ r).head?, isSecretChar c = false := by
  intro hfirst
  cases htext : p.text ++ r with
  | nil =>
    rw [htext] at h
    exact spanAt_text_ne_nil h (List.append_eq_nil_iff.mp htext).1
  | cons c u =>
    rw [htext] at h hfirst
    rw [spanAt_of_not_secret u (hfirst c rfl)] at h
    cases h

/-- What a piece wrote is copied, if what comes behind it is. -/
theorem pieces_written {behind r written : Text} {p : Piece} (hb : atBoundary behind = true)
    (hspan : spanAt (p.text ++ r) = some p) (hrun : run written = [])
    (hcopied : ∀ b, (pieces b written).flatMap Piece.shown = written) :
    (pieces behind (p.shown ++ written)).flatMap Piece.shown = p.shown ++ written := by
  rw [Piece.shown, List.append_assoc]
  have hmark : (if p.hidden = [] then [] else redacted) = [] ∨ (if p.hidden = [] then [] else redacted) = redacted := by
    split
    · exact .inl rfl
    · exact .inr rfl
  generalize (if p.hidden = [] then [] else redacted) = mark at hmark
  have htail : ∀ b, (pieces b (mark ++ written)).flatMap Piece.shown = mark ++ written := by
    intro b
    rcases hmark with rfl | rfl
    · exact hcopied b
    · rw [pieces_mark, hcopied]
  obtain ⟨s, -, -, htrigger | ⟨hkept, -⟩⟩ := spanAt_spec hspan
  · have hnone : run (mark ++ written) = [] := by
      rcases hmark with rfl | rfl
      · exact hrun
      · exact run_cons_of_not _ lt_not_secret
    have hagain := spanAt_trigger (mark ++ written) htrigger
    rw [hnone] at hagain
    have hq : Piece.text ⟨p.kept, []⟩ = p.kept := List.append_nil _
    have hpiece := pieces_hide (p := ⟨p.kept, []⟩) _ hb (by rw [hq]; exact hagain)
    rw [hq] at hpiece
    rw [hpiece, List.flatMap_cons, htail, Piece.shown, if_pos rfl, List.append_nil]
  · rw [hkept, List.nil_append]
    exact htail behind

/-- A text that was redacted is copied, also behind a mark that stands for what was a word character. -/
theorem pieces_shown (before t : Text) (behind : Text)
    (h : atBoundary behind = atBoundary before ∨ ∀ c ∈ t.head?, isSecretChar c = false) :
    (pieces behind ((pieces before t).flatMap Piece.shown)).flatMap Piece.shown =
      (pieces before t).flatMap Piece.shown := by
  induction before, t using scan_induction generalizing behind with
  | done before => rw [List.flatMap_nil, pieces_nil, List.flatMap_nil]
  | copy before c r hnone ih =>
    have hbehind : atBoundary (behind ++ [c]) = atBoundary (before ++ [c]) := by
      rw [atBoundary_append _ (List.cons_ne_nil c []), atBoundary_append _ (List.cons_ne_nil c [])]
    have hcopy : atBoundary behind = true → spanAt (c :: (pieces (before ++ [c]) r).flatMap Piece.shown) = none := by
      intro hb
      rcases h with hsame | hfirst
      · exact spanAt_copied (hnone (hsame.symm.trans hb))
      · exact spanAt_of_not_secret _ (hfirst c rfl)
    have hwrite : (⟨[c], []⟩ :: pieces (before ++ [c]) r).flatMap Piece.shown =
        c :: (pieces (before ++ [c]) r).flatMap Piece.shown := rfl
    rw [hwrite, pieces_copy behind _ hcopy, List.flatMap_cons, ih _ (.inl hbehind)]
    rfl
  | hide before p r hb hspan ih =>
    have hrest := rest_not_secret hspan
    have hbehind : atBoundary behind = true := by
      rw [h.resolve_right (head_of_span hspan), hb]
    rw [List.flatMap_cons]
    exact pieces_written hbehind hspan (run_shown hrest) fun b => ih b (.inr hrest)

theorem redactSecrets_idempotent (input : Text) : redactSecrets (redactSecrets input) = redactSecrets input := by
  rw [redactSecrets_eq, redactSecrets_eq]
  exact pieces_shown [] input [] (.inl rfl)

end FerrisScope.SecretScan
