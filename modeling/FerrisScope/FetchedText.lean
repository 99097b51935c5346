import FerrisScope.CharacterBoundaries
import FerrisScope.HostsFile
import FerrisScope.SessionLog
import FerrisScope.TextSearch

/-!
# The body of a fetched page

The bytes of a response are cut at a number of bytes and then read as text. In text mode the visible text of
the page is taken, its white space is collapsed, and what is left is cut at a number of characters.
-/

namespace FerrisScope.FetchedText
open HostsFile Utf8Slices CharacterBoundaries SessionLog

def maxResponseBytes : ℕ := 512 * 1024
def readerMaxTextChars : ℕ := 24000

inductive Mode | reader | raw | text
deriving DecidableEq

inductive ModeLabel | head | binary | raw | text | reader
deriving DecidableEq

inductive BodyValue (ρ : Type) | null | string (t : Text) | extracted (r : ρ)

/-- The members of the answer that depend on the body. -/
structure Answer (ρ : Type) where
  mode : ModeLabel
  body : BodyValue ρ
  binaryBytes : Option ℕ
  truncated : Option Bool

inductive Node | text (t : Text) | element (tag : String) (children : List Node) | other

structure Element where
  tag : String
  children : List Node

def skippedTags : List String := ["script", "style", "noscript", "template", "svg"]

def blockTags : List String :=
  ["p", "div", "section", "article", "header", "footer", "main", "nav", "aside", "li", "tr", "br", "h1", "h2", "h3",
    "h4", "h5", "h6", "pre", "blockquote", "hr"]

mutual
/-- The visible text of a child, after what is there already. -/
def walkNode (out : Text) : Node → Text
  | .text t => out ++ t
  | .element tag children =>
    if tag ∈ skippedTags then out
    else if tag ∈ blockTags then walkNodes out children ++ ['\n'] else walkNodes out children
  | .other => out

def walkNodes (out : Text) : List Node → Text
  | [] => out
  | n :: ns => walkNodes (walkNode out n) ns
end

def walkText (el : Element) : Text := walkNode [] (.element el.tag el.children)

/-- The text so far with its last character first, and whether a space would be dropped. -/
def collapseChar (s : Text × Bool) (ch : Char) : Text × Bool :=
  if ch = '\n' then
    let out := s.1.dropWhile fun c => c = ' '
    if ['\n', '\n'] <+: out then (out, s.2) else ('\n' :: out, true)
  else if isWhitespace ch then if s.2 then s else (' ' :: s.1, true)
  else (ch :: s.1, false)

def collapseWhitespace (s : Text) : Text := trim (s.foldl collapseChar ([], true)).1.reverse

section
variable {ρ : Type} (parseDocument : Text → Element) (extractReader : Text → ρ × Bool)

def htmlToText (html : Text) (maxChars : ℕ) : Text × Bool :=
  let collapsed := collapseWhitespace (walkText (parseDocument html))
  if maxChars < collapsed.length then (collapsed.take maxChars, true) else (collapsed, false)

/-- What becomes of the bytes of a response. -/
def handleBody (mode : Mode) (bytes : List UInt8) : Answer ρ :=
  let transportTruncated := decide (maxResponseBytes < bytes.length)
  let slice := if maxResponseBytes < bytes.length then bytes.take maxResponseBytes else bytes
  match fromUtf8 slice with
  | none => ⟨.binary, .null, some slice.length, some transportTruncated⟩
  | some text =>
    match mode with
    | .raw => ⟨.raw, .string text, none, some transportTruncated⟩
    | .text =>
      let r := htmlToText parseDocument text readerMaxTextChars
      ⟨.text, .string r.1, none, some (transportTruncated || r.2)⟩
    | .reader =>
      let r := extractReader text
      ⟨.reader, .extracted r.1, none, some (transportTruncated || r.2)⟩

/-- The answer to a request of which only the head was asked for has no body. -/
def call (headOnly : Bool) (mode : Mode) (bytes : List UInt8) : Answer ρ :=
  if headOnly then ⟨.head, .null, none, none⟩ else handleBody parseDocument extractReader mode bytes

end

/-! ## Collapsed white space -/

/-- There are never three newlines in a row and no space is next to a newline. There is no other white space. -/
structure Tidy (t : Text) : Prop where
  newlines : ¬ ['\n', '\n', '\n'] <:+: t
  space_newline : ¬ [' ', '\n'] <:+: t
  newline_space : ¬ ['\n', ' '] <:+: t
  plain : ∀ c ∈ t, isWhitespace c = true → c = ' ' ∨ c = '\n'

theorem Tidy.within {s t : Text} (h : Tidy t) (hs : s <:+: t) : Tidy s where
  newlines := fun h' => h.newlines (h'.trans hs)
  space_newline := fun h' => h.space_newline (h'.trans hs)
  newline_space := fun h' => h.newline_space (h'.trans hs)
  plain := fun c hc => h.plain c (hs.subset hc)

theorem Tidy.reverse {t : Text} (h : Tidy t) : Tidy t.reverse where
  newlines := fun h' => h.newlines (List.reverse_infix.mp h')
  space_newline := fun h' => h.newline_space (List.reverse_infix.mp h')
  newline_space := fun h' => h.space_newline (List.reverse_infix.mp h')
  plain := fun c hc => h.plain c (List.mem_reverse.mp hc)

theorem tidy_nil : Tidy [] where
  newlines := by simp
  space_newline := by simp
  newline_space := by simp
  plain := by simp

/-- A character in front is tidy when it is no white space. -/
theorem Tidy.cons {t : Text} {c : Char} (h : Tidy t) (hc : isWhitespace c = false) : Tidy (c :: t) := by
  have hnl : c ≠ '\n' := by
    intro hcn
    rw [hcn] at hc
    cases hc
  have hsp : c ≠ ' ' := by
    intro hcs
    rw [hcs] at hc
    cases hc
  constructor
  · rw [List.infix_cons_iff, List.cons_prefix_cons]
    rintro (⟨heq, -⟩ | h')
    · exact hnl heq.symm
    · exact h.newlines h'
  · rw [List.infix_cons_iff, List.cons_prefix_cons]
    rintro (⟨heq, -⟩ | h')
    · exact hsp heq.symm
    · exact h.space_newline h'
  · rw [List.infix_cons_iff, List.cons_prefix_cons]
    rintro (⟨heq, -⟩ | h')
    · exact hnl heq.symm
    · exact h.newline_space h'
  · intro d hd hws
    rcases List.mem_cons.mp hd with rfl | hd
    · rw [hc] at hws
      cases hws
    · exact h.plain d hd hws

theorem Tidy.cons_space {t : Text} (h : Tidy t) (hhead : ¬ ['\n'] <+: t) : Tidy (' ' :: t) := by
  constructor
  · rw [List.infix_cons_iff, List.cons_prefix_cons]
    rintro (⟨heq, -⟩ | h')
    · exact absurd heq (by decide)
    · exact h.newlines h'
  · rw [List.infix_cons_iff, List.cons_prefix_cons]
    rintro (⟨-, h'⟩ | h')
    · exact hhead h'
    · exact h.space_newline h'
  · rw [List.infix_cons_iff, List.cons_prefix_cons]
    rintro (⟨heq, -⟩ | h')
    · exact absurd heq (by decide)
    · exact h.newline_space h'
  · intro d hd hws
    rcases List.mem_cons.mp hd with rfl | hd
    · exact .inl rfl
    · exact h.plain d hd hws

theorem Tidy.cons_newline {t : Text} (h : Tidy t) (hspace : ¬ [' '] <+: t) (htwo : ¬ ['\n', '\n'] <+: t) :
    Tidy ('\n' :: t) := by
  constructor
  · rw [List.infix_cons_iff, List.cons_prefix_cons]
    rintro (⟨-, h'⟩ | h')
    · exact htwo h'
    · exact h.newlines h'
  · rw [List.infix_cons_iff, List.cons_prefix_cons]
    rintro (⟨heq, -⟩ | h')
    · exact absurd heq (by decide)
    · exact h.space_newline h'
  · rw [List.infix_cons_iff, List.cons_prefix_cons]
    rintro (⟨-, h'⟩ | h')
    · exact hspace h'
    · exact h.newline_space h'
  · intro d hd hws
    rcases List.mem_cons.mp hd with rfl | hd
    · exact .inr rfl
    · exact h.plain d hd hws

/-- While the text is collapsed: a newline that was written last keeps spaces out. -/
structure Collapsing (s : Text × Bool) : Prop where
  tidy : Tidy s.1
  drops : ['\n'] <+: s.1 → s.2 = true

theorem not_space_prefix_dropWhile (t : Text) : ¬ [' '] <+: t.dropWhile fun c => c = ' ' := by
  induction t with
  | nil => simp
  | cons c t ih =>
    rw [List.dropWhile_cons]
    split
    · exact ih
    · next hc =>
      rw [List.cons_prefix_cons]
      rintro ⟨rfl, -⟩
      exact hc rfl

/-- Spaces that are dropped have no newline before them. -/
theorem dropWhile_eq_of_newlines {t : Text} (h : Tidy t) (hn : ['\n'] <+: t.dropWhile fun c => c = ' ') :
    (t.dropWhile fun c => c = ' ') = t := by
  induction t with
  | nil => rfl
  | cons c t ih =>
    rw [List.dropWhile_cons] at hn ⊢
    split
    · next hc =>
      rw [if_pos hc] at hn
      rw [of_decide_eq_true hc] at h
      have ht := ih (h.within (List.suffix_cons _ _).isInfix) hn
      rw [ht] at hn
      exact absurd ((List.cons_prefix_cons.mpr ⟨rfl, hn⟩).isInfix) h.space_newline
    · rfl

theorem Collapsing.step {s : Text × Bool} (h : Collapsing s) (ch : Char) : Collapsing (collapseChar s ch) := by
  rw [collapseChar]
  split
  · have htidy : Tidy (s.1.dropWhile fun c => c = ' ') := h.tidy.within (List.dropWhile_suffix _).isInfix
    simp only
    split
    · next htwo =>
      refine ⟨htidy, fun hnl => ?_⟩
      rw [dropWhile_eq_of_newlines h.tidy hnl] at hnl
      exact h.drops hnl
    · next htwo => exact ⟨htidy.cons_newline (not_space_prefix_dropWhile s.1) htwo, fun _ => rfl⟩
  · split
    · split
      · exact h
      · next hflag => exact ⟨h.tidy.cons_space fun hnl => hflag (h.drops hnl), fun _ => rfl⟩
    · next hnl hws =>
      refine ⟨h.tidy.cons (Bool.eq_false_iff.mpr hws), fun hprefix => ?_⟩
      exact absurd (List.cons_prefix_cons.mp hprefix).1.symm hnl

theorem Collapsing.foldl {s : Text × Bool} (h : Collapsing s) (t : Text) : Collapsing (t.foldl collapseChar s) := by
  induction t generalizing s with
  | nil => exact h
  | cons c t ih => exact ih (h.step c)

theorem trim_within (t : Text) : trim t <:+: t := by
  have hfront : (t.dropWhile isWhitespace) <:+: t := (List.dropWhile_suffix _).isInfix
  have hback : ((t.dropWhile isWhitespace).reverse.dropWhile isWhitespace).reverse <:+: t.dropWhile isWhitespace := by
    rw [← List.reverse_infix, List.reverse_reverse]
    exact (List.dropWhile_suffix _).isInfix
  exact hback.trans hfront

theorem tidy_collapseWhitespace (s : Text) : Tidy (collapseWhitespace s) := by
  have hstart : Collapsing (([] : Text), true) := ⟨tidy_nil, fun _ => rfl⟩
  exact (hstart.foldl s).tidy.reverse.within (trim_within _)

example : collapseWhitespace " a \t b \n\n\n c\n".toList = "a b\n\nc".toList := by decide

section
variable {ρ : Type} (parseDocument : Text → Element) (extractReader : Text → ρ × Bool)

/-- The whole visible text of a page. -/
def visibleText (html : Text) : Text := collapseWhitespace (walkText (parseDocument html))

theorem htmlToText_spec (html : Text) (maxChars : ℕ) :
    (htmlToText parseDocument html maxChars).1 = (visibleText parseDocument html).take maxChars ∧
      ((htmlToText parseDocument html maxChars).2 = true ↔ maxChars < (visibleText parseDocument html).length) := by
  simp only [htmlToText, visibleText]
  split
  · next hlt => exact ⟨rfl, iff_of_true rfl hlt⟩
  · next hle => exact ⟨(List.take_of_length_le (Nat.not_lt.mp hle)).symm, iff_of_false Bool.false_ne_true hle⟩

end

/-! ## Whole characters -/

/-- The longest beginning of whole characters within a number of bytes. -/
def LongestWithin (n : ℕ) (t u : Text) : Prop := u <+: t ∧ byteLen u ≤ n ∧ ∀ v, v <+: t → byteLen v ≤ n → v <+: u

theorem longestWithin_of_byteLen {t u : Text} (h : u <+: t) : LongestWithin (byteLen u) t u := by
  refine ⟨h, Nat.le_refl _, fun v hv hle => ?_⟩
  obtain ⟨r, rfl⟩ := h
  obtain ⟨w, hw⟩ := hv
  obtain ⟨m, rfl, -⟩ := append_eq_of_byteLen_le hw hle
  exact List.prefix_append v m

/-- The first bytes of a text are a text exactly where they end with a character. -/
theorem fromUtf8_take {t u : Text} {n : ℕ} (hn : n ≤ byteLen t) :
    fromUtf8 ((encode t).take n) = some u ↔ u <+: t ∧ byteLen u = n := by
  constructor
  · intro h
    have hbytes : (encode t).take n = encode u := eq_toUtf8_of_fromUtf8 h
    have hlen : byteLen u = n := by
      rw [byteLen, ← hbytes, List.length_take]
      exact Nat.min_eq_left hn
    refine ⟨TextSearch.encode_prefix.mp ?_, hlen⟩
    rw [← hbytes]
    exact List.take_prefix n _
  · rintro ⟨⟨r, rfl⟩, rfl⟩
    rw [encode_append]
    have htake : (encode u ++ encode r).take (byteLen u) = encode u := List.take_left
    rw [htake]
    exact fromUtf8_toUtf8 u

section
variable {ρ : Type} (parseDocument : Text → Element) (extractReader : Text → ρ × Bool)

/-- What an answer to a body that is a text has to be. -/
structure Kept (mode : Mode) (t : Text) (a : Answer ρ) : Prop where
  not_binary : a.mode ≠ .binary
  raw : mode = .raw → ∃ u, a.body = .string u ∧
    ((byteLen t ≤ maxResponseBytes ∧ u = t) ∨
      (maxResponseBytes < byteLen t ∧ LongestWithin maxResponseBytes t u ∧ a.truncated = some true))
  text : mode = .text → ∃ u, a.body = .string u ∧ u.length ≤ readerMaxTextChars ∧ Tidy u ∧
    (a.truncated = some true ∨ u = visibleText parseDocument t)

/-- The part of a text that is read. -/
inductive Read (t : Text) : Text → Bool → Prop
  | whole : byteLen t ≤ maxResponseBytes → Read t t false
  | cut {u : Text} : maxResponseBytes < byteLen t → LongestWithin maxResponseBytes t u → Read t u true

theorem handleBody_of_fits {t : Text} (h : byteLen t ≤ maxResponseBytes ∨ isCharBoundary t maxResponseBytes = true) :
    ∃ u cut, Read t u cut ∧ ∀ mode, handleBody parseDocument extractReader mode (encode t) =
      match mode with
      | .raw => ⟨.raw, .string u, none, some cut⟩
      | .text => ⟨.text, .string (htmlToText parseDocument u readerMaxTextChars).1, none,
          some (cut || (htmlToText parseDocument u readerMaxTextChars).2)⟩
      | .reader => ⟨.reader, .extracted (extractReader u).1, none, some (cut || (extractReader u).2)⟩ := by
  by_cases hle : byteLen t ≤ maxResponseBytes
  · refine ⟨t, false, .whole hle, fun mode => ?_⟩
    have hnot : ¬ maxResponseBytes < (encode t).length := Nat.not_lt.mpr hle
    have hutf : fromUtf8 (encode t) = some t := fromUtf8_toUtf8 t
    simp only [handleBody, if_neg hnot, decide_eq_false hnot, hutf]
  · have hlt : maxResponseBytes < byteLen t := Nat.lt_of_not_le hle
    obtain ⟨u, r, rfl, hu⟩ := isCharBoundary_iff.mp (h.resolve_left hle)
    have hlongest : LongestWithin maxResponseBytes (u ++ r) u := hu ▸ longestWithin_of_byteLen (List.prefix_append u r)
    refine ⟨u, true, .cut hlt hlongest, fun mode => ?_⟩
    have hgt : maxResponseBytes < (encode (u ++ r)).length := hlt
    have hutf := (fromUtf8_take (Nat.le_of_lt hlt)).mpr ⟨List.prefix_append u r, hu⟩
    simp only [handleBody, if_pos hgt, decide_eq_true hgt, hutf]

theorem handleBody_binary {t : Text} (hlt : maxResponseBytes < byteLen t)
    (hcut : isCharBoundary t maxResponseBytes = false) (mode : Mode) :
    (handleBody parseDocument extractReader mode (encode t)).mode = .binary := by
  have hgt : maxResponseBytes < (encode t).length := hlt
  have hutf : fromUtf8 ((encode t).take maxResponseBytes) = none := by
    cases hread : fromUtf8 ((encode t).take maxResponseBytes) with
    | none => rfl
    | some u =>
      obtain ⟨⟨r, hr⟩, hu⟩ := (fromUtf8_take (Nat.le_of_lt hlt)).mp hread
      rw [isCharBoundary_iff.mpr ⟨u, r, hr.symm, hu⟩] at hcut
      cases hcut
  simp only [handleBody, if_pos hgt, hutf]

/-- A body that is a text is kept exactly where it is short enough or a character ends at the last byte that
is read. -/
theorem fetched_text_kept_iff (mode : Mode) (t : Text) :
    Kept parseDocument mode t (call parseDocument extractReader false mode (encode t)) ↔
      byteLen t ≤ maxResponseBytes ∨ isCharBoundary t maxResponseBytes = true := by
  change Kept parseDocument mode t (handleBody parseDocument extractReader mode (encode t)) ↔ _
  constructor
  · intro h
    by_contra hnot
    rw [not_or, Nat.not_le, Bool.not_eq_true] at hnot
    exact h.not_binary (handleBody_binary parseDocument extractReader hnot.1 hnot.2 mode)
  · intro h
    obtain ⟨u, cut, hread, heq⟩ := handleBody_of_fits parseDocument extractReader h
    rw [heq mode]
    cases mode with
    | raw =>
      refine ⟨by simp, fun _ => ⟨u, rfl, ?_⟩, by simp⟩
      cases hread with
      | whole hle => exact .inl ⟨hle, rfl⟩
      | cut hlt hlongest => exact .inr ⟨hlt, hlongest, rfl⟩
    | text =>
      obtain ⟨htext, hflag⟩ := htmlToText_spec parseDocument u readerMaxTextChars
      refine ⟨by simp, by simp, fun _ => ⟨_, rfl, ?_, ?_, ?_⟩⟩
      · rw [htext]
        exact List.length_take_le _ _
      · rw [htext]
        exact (tidy_collapseWhitespace _).within (List.take_prefix _ _).isInfix
      · cases hread with
        | cut => exact .inl rfl
        | whole =>
          by_cases hlong : readerMaxTextChars < (visibleText parseDocument t).length
          · left
            rw [hflag.mpr hlong]
            rfl
          · right
            rw [htext]
            exact List.take_of_length_le (Nat.not_lt.mp hlong)
    | reader => exact ⟨by simp, by simp, by simp⟩

end

/-- A text of one byte more than is read, with a character of two bytes at its end. -/
def accentAtCap : Text := List.replicate 524287 'a' ++ ['é']

theorem long_text_binary :
    (call (fun t => ⟨"body", [.text t]⟩) (fun t => (t, false)) false .raw (encode accentAtCap)).mode = .binary := by
  have hbefore : byteLen (List.replicate 524287 'a') = 524287 := by
    rw [byteLen_ascii fun c hc => by rw [List.eq_of_mem_replicate hc]; decide, List.length_replicate]
  have hlen : byteLen accentAtCap = 524289 := by
    rw [accentAtCap, byteLen_append, hbefore]
    rfl
  have hlong : maxResponseBytes < byteLen accentAtCap := by
    rw [hlen]
    decide
  have hcut : isCharBoundary accentAtCap maxResponseBytes = false := by
    apply Bool.eq_false_iff.mpr
    intro hboundary
    have hsides := boundary_le_or_ge (u := List.replicate 524287 'a') (w := []) hboundary
    rw [hbefore] at hsides
    exact absurd hsides (by decide)
  rw [call, if_neg Bool.false_ne_true]
  exact handleBody_binary _ _ hlong hcut .raw

end FerrisScope.FetchedText
