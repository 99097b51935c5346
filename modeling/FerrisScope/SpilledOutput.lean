import FerrisScope.CharacterBoundaries
import FerrisScope.HostsFile

/-!
# Reading a spilled output

The text of a long tool result is kept in a file and read back a window at a time. The ends of a window are
moved down to boundaries between characters, and a window that ends before the text does names the next place.
-/

namespace FerrisScope.SpilledOutput
open HostsFile (Text)
open Utf8Slices CharacterBoundaries

def readDefaultLimit : Nat := 30000

def readMaxLimit : Nat := 100000

/-- The loop that goes down to a boundary. -/
def descend (s : Text) : Nat → Nat
  | 0 => 0
  | n + 1 => if isCharBoundary s (n + 1) then n + 1 else descend s n

def charBoundaryFloor (s : Text) (max : Nat) : Nat := if byteLen s ≤ max then byteLen s else descend s max

def sanitizeChar (c : Char) : Char := if c.isAlphanum || ['_', '-', '.'].contains c then c else '_'

def sanitize (s : Text) : Text := s.map sanitizeChar

inductive ReadError
  | notFound
  | other (text : Text)

/-- The files of the directory of one chat, when there is a cache directory. -/
structure ToolSpool where
  dir : Option (Text → Except ReadError Text)

def loadError (handle : Text) : ReadError → Text
  | .notFound => "no spilled output for handle `".toList ++ handle ++
      ("` — it may have expired, or this chat predates output spooling. Re-run the original tool with a narrower " ++
        "request (label/field selector, a more specific name, namespace, or limit).").toList
  | .other e => "read spool failed: ".toList ++ e

def ToolSpool.load (spool : ToolSpool) (handle : Text) : Except Text Text :=
  match spool.dir with
  | none => .error "tool-output spool unavailable on this host".toList
  | some readToString => (readToString (sanitize handle)).mapError (loadError handle)

structure ReadArgs where
  handle : Text
  offset : Nat
  limit : Option Nat

structure ReadResult where
  handle : Text
  totalBytes : Nat
  offset : Nat
  returnedBytes : Nat
  nextOffset : Option Nat
  eof : Bool
  content : Text

def effectiveLimit (limit : Option Nat) : Nat := min (max (limit.getD readDefaultLimit) 1) readMaxLimit

/-- The window of the text from this place on. There is none when a slice ends the program. -/
def readWindow (a : ReadArgs) (content : Text) : Option ReadResult :=
  let total := byteLen content
  let limit := effectiveLimit a.limit
  let start := charBoundaryFloor content (min a.offset total)
  let stop := charBoundaryFloor content (min (start + limit) total)
  (slice content start (max stop start)).map fun slice =>
    { handle := a.handle
      totalBytes := total
      offset := start
      returnedBytes := byteLen slice
      nextOffset := if stop < total then some stop else none
      eof := total ≤ stop
      content := slice }

def ToolSpool.read (spool : ToolSpool) (a : ReadArgs) : Option (Except Text ReadResult) :=
  match spool.load a.handle with
  | .error e => some (.error e)
  | .ok content => (readWindow a content).map .ok

/-- The windows that are read when each call starts at the place named by the call before. -/
def pages (spool : ToolSpool) (handle : Text) (limit : Option Nat) : Nat → Nat → Option (List ReadResult)
  | 0, _ => none
  | calls + 1, offset =>
    match spool.read ⟨handle, offset, limit⟩ with
    | some (.ok page) =>
      match page.nextOffset with
      | some next => (pages spool handle limit calls next).map (page :: ·)
      | none => some [page]
    | _ => none

/-! ## The boundary below a place -/

theorem descend_spec (s : Text) (n : Nat) : IsGreatest {k | k ≤ n ∧ isCharBoundary s k = true} (descend s n) := by
  induction n with
  | zero => exact ⟨⟨Nat.le_refl 0, isCharBoundary_zero s⟩, fun k hk => hk.1⟩
  | succ n ih =>
    obtain ⟨⟨hle, hboundary⟩, hgreatest⟩ := ih
    rw [descend]
    split
    · next h => exact ⟨⟨Nat.le_refl _, h⟩, fun k hk => hk.1⟩
    · next h =>
      refine ⟨⟨Nat.le_succ_of_le hle, hboundary⟩, fun k hk => hgreatest ⟨?_, hk.2⟩⟩
      have hne : k ≠ n + 1 := fun heq => h (heq ▸ hk.2)
      have hk' := hk.1
      omega

theorem charBoundaryFloor_spec (s : Text) (max : Nat) :
    IsGreatest {k | k ≤ max ∧ isCharBoundary s k = true} (charBoundaryFloor s max) := by
  rw [charBoundaryFloor]
  split
  · next h => exact ⟨⟨h, isCharBoundary_byteLen s⟩, fun k hk => le_byteLen_of_boundary hk.2⟩
  · exact descend_spec s max

theorem charBoundaryFloor_le (s : Text) (max : Nat) : charBoundaryFloor s max ≤ max := (charBoundaryFloor_spec s max).1.1

theorem charBoundaryFloor_boundary (s : Text) (max : Nat) : isCharBoundary s (charBoundaryFloor s max) = true :=
  (charBoundaryFloor_spec s max).1.2

theorem le_charBoundaryFloor {s : Text} {k max : Nat} (hk : k ≤ max) (h : isCharBoundary s k = true) :
    k ≤ charBoundaryFloor s max := (charBoundaryFloor_spec s max).2 ⟨hk, h⟩

theorem charBoundaryFloor_of_boundary {s : Text} {k : Nat} (h : isCharBoundary s k = true) : charBoundaryFloor s k = k :=
  Nat.le_antisymm (charBoundaryFloor_le s k) (le_charBoundaryFloor (Nat.le_refl k) h)

/-! ## The windows -/

/-- The place where a window from a boundary ends. -/
def windowEnd (content : Text) (limit : Option Nat) (start : Nat) : Nat :=
  charBoundaryFloor content (min (start + effectiveLimit limit) (byteLen content))

theorem le_windowEnd {content : Text} {start : Nat} (limit : Option Nat) (h : isCharBoundary content start = true) :
    start ≤ windowEnd content limit start :=
  le_charBoundaryFloor (Nat.le_min.mpr ⟨Nat.le_add_right _ _, le_byteLen_of_boundary h⟩) h

theorem windowEnd_boundary (content : Text) (limit : Option Nat) (start : Nat) :
    isCharBoundary content (windowEnd content limit start) = true := charBoundaryFloor_boundary content _

theorem readWindow_of_slice {a : ReadArgs} {content v : Text} {start : Nat}
    (hstart : charBoundaryFloor content (min a.offset (byteLen content)) = start)
    (hle : start ≤ windowEnd content a.limit start)
    (hslice : slice content start (windowEnd content a.limit start) = some v) :
    readWindow a content = some
      { handle := a.handle
        totalBytes := byteLen content
        offset := start
        returnedBytes := byteLen v
        nextOffset := if windowEnd content a.limit start < byteLen content then some (windowEnd content a.limit start)
          else none
        eof := byteLen content ≤ windowEnd content a.limit start
        content := v } := by
  rw [readWindow, hstart]
  change (slice content start (max (windowEnd content a.limit start) start)).map _ = _
  rw [Nat.max_eq_left hle, hslice, Option.map_some]
  rfl

/-- The answer with the part `v` of a text, where `u` is before it and `w` after it. -/
def windowBetween (handle u v w : Text) : ReadResult :=
  { handle
    totalBytes := byteLen (u ++ (v ++ w))
    offset := byteLen u
    returnedBytes := byteLen v
    nextOffset := if w = [] then none else some (byteLen (u ++ v))
    eof := w.isEmpty
    content := v }

/-- A window is a part of the text and ends where the next one starts. -/
theorem readWindow_spec (a : ReadArgs) (content : Text) :
    ∃ u v w, content = u ++ (v ++ w) ∧ byteLen u = charBoundaryFloor content (min a.offset (byteLen content)) ∧
      byteLen u + byteLen v = windowEnd content a.limit (byteLen u) ∧
      readWindow a content = some (windowBetween a.handle u v w) := by
  have hstart := charBoundaryFloor_boundary content (min a.offset (byteLen content))
  have hle := le_windowEnd a.limit hstart
  obtain ⟨u, v, w, ht, hu, hv, hslice⟩ := slice_of_boundaries hstart (windowEnd_boundary _ _ _) hle
  rw [← hu] at hle hv hslice
  refine ⟨u, v, w, ht, hu, hv, ?_⟩
  have htotal : byteLen content = byteLen u + byteLen v + byteLen w := by
    rw [ht, byteLen_append, byteLen_append, Nat.add_assoc]
  have hw : w = [] ↔ byteLen content ≤ byteLen u + byteLen v := by
    rw [← byteLen_eq_zero]
    omega
  rw [readWindow_of_slice hu.symm hle hslice, ← hv, windowBetween, ← ht, byteLen_append]
  by_cases hnil : w = []
  · rw [if_neg (Nat.not_lt.mpr (hw.mp hnil)), if_pos hnil, decide_eq_true (hw.mp hnil), hnil]
    rfl
  · rw [if_pos (Nat.not_le.mp fun h => hnil (hw.mpr h)), if_neg hnil, decide_eq_false fun h => hnil (hw.mpr h),
      List.isEmpty_eq_false_iff.mpr hnil]

/-! ## Reading to the end -/

/-- The calls from this place on come to the end of the text, and their windows are parts of it that make up `rest`. -/
def ReadsFrom (spool : ToolSpool) (handle : Text) (limit : Option Nat) (content : Text) (offset : Nat) (rest : Text) :
    Prop :=
  ∃ calls ps, pages spool handle limit calls offset = some ps ∧ ps.flatMap ReadResult.content = rest ∧
    (∀ p ∈ ps, slice content p.offset (p.offset + p.returnedBytes) = some p.content) ∧
    ∃ last, ps.getLast? = some last ∧ last.eof = true

section Paging
variable {spool : ToolSpool} {handle content : Text} {limit : Option Nat}

theorem pages_succ (hload : spool.load handle = .ok content) (limit : Option Nat) (offset : Nat) :
    ∃ u v w, content = u ++ (v ++ w) ∧ byteLen u = charBoundaryFloor content (min offset (byteLen content)) ∧
      byteLen u + byteLen v = windowEnd content limit (byteLen u) ∧
      ∀ calls, pages spool handle limit (calls + 1) offset =
        if w = [] then some [windowBetween handle u v w]
        else (pages spool handle limit calls (byteLen (u ++ v))).map (windowBetween handle u v w :: ·) := by
  obtain ⟨u, v, w, ht, hu, hv, hwindow⟩ := readWindow_spec ⟨handle, offset, limit⟩ content
  refine ⟨u, v, w, ht, hu, hv, fun calls => ?_⟩
  rw [pages, ToolSpool.read, hload]
  simp only [hwindow, Option.map_some, windowBetween]
  by_cases hnil : w = []
  · rw [if_pos hnil, if_pos hnil]
  · rw [if_neg hnil, if_neg hnil]

/-- A window that starts before a character which fits in it is not empty. -/
theorem windowEnd_progress {u r : Text} {c : Char} (h : c.utf8Size ≤ effectiveLimit limit) :
    byteLen u + c.utf8Size ≤ windowEnd (u ++ c :: r) limit (byteLen u) := by
  have hboundary : isCharBoundary (u ++ c :: r) (byteLen u + c.utf8Size) = true := by
    have hsize : byteLen [c] = c.utf8Size := by rw [byteLen_cons, byteLen_nil, Nat.add_zero]
    rw [List.append_cons, ← hsize, ← byteLen_append]
    exact isCharBoundary_append (u ++ [c]) r
  apply le_charBoundaryFloor _ hboundary
  exact Nat.le_min.mpr ⟨by omega, le_byteLen_of_boundary hboundary⟩

theorem readsFrom_last {u v : Text} {offset : Nat} (ht : content = u ++ v)
    (hpages : pages spool handle limit 1 offset = some [windowBetween handle u v []]) :
    ReadsFrom spool handle limit content offset v := by
  refine ⟨1, _, hpages, List.append_nil v, ?_, _, rfl, rfl⟩
  intro p hp
  rw [List.mem_singleton.mp hp, ht]
  have hslice := slice_append u v []
  rw [List.append_nil] at hslice
  exact hslice

theorem ReadsFrom.cons {u v w : Text} {offset next : Nat} (h : ReadsFrom spool handle limit content next w)
    (ht : content = u ++ (v ++ w))
    (hpages : ∀ calls, pages spool handle limit (calls + 1) offset =
      (pages spool handle limit calls next).map (windowBetween handle u v w :: ·)) :
    ReadsFrom spool handle limit content offset (v ++ w) := by
  obtain ⟨calls, ps, hps, hcontent, hslices, last, hlast, heof⟩ := h
  refine ⟨calls + 1, windowBetween handle u v w :: ps, ?_, ?_, ?_, last, ?_, heof⟩
  · rw [hpages, hps, Option.map_some]
  · rw [List.flatMap_cons, hcontent]
    rfl
  · exact List.forall_mem_cons.mpr ⟨ht ▸ slice_append u v w, hslices⟩
  · rw [List.getLast?_cons, hlast]
    rfl

theorem readsFrom_of_fit (hload : spool.load handle = .ok content) {u r : Text} (ht : content = u ++ r)
    (hfit : ∀ c ∈ r, c.utf8Size ≤ effectiveLimit limit) :
    ReadsFrom spool handle limit content (byteLen u) r := by
  induction hn : r.length using Nat.strong_induction_on generalizing u r with
  | _ n ih =>
    obtain ⟨u', v, w, ht', hu', hv, hpages⟩ := pages_succ hload limit (byteLen u)
    have hboundary : isCharBoundary content (byteLen u) = true := ht ▸ isCharBoundary_append u r
    rw [Nat.min_eq_left (le_byteLen_of_boundary hboundary), charBoundaryFloor_of_boundary hboundary] at hu'
    obtain ⟨rfl, rfl⟩ := append_inj_of_byteLen_eq (ht.symm.trans ht') hu'.symm
    by_cases hw : w = []
    · subst hw
      rw [List.append_nil] at ht ⊢
      exact readsFrom_last ht (hpages 0)
    · have hv' : v ≠ [] := by
        rintro rfl
        obtain ⟨c, w, rfl⟩ := List.exists_cons_of_ne_nil hw
        have hprogress := windowEnd_progress (u := u) (r := w) (hfit c List.mem_cons_self)
        rw [List.nil_append] at ht
        rw [← ht, ← hv, byteLen_nil] at hprogress
        have hpos := c.utf8Size_pos
        omega
      have hlt : w.length < n := by
        have hpos := List.length_pos_iff.mpr hv'
        rw [List.length_append] at hn
        omega
      have hrest := ih w.length hlt (u := u ++ v) (by rw [ht, List.append_assoc])
        (fun c hc => hfit c (List.mem_append_right v hc)) rfl
      exact hrest.cons ht fun calls => by rw [hpages, if_neg hw]

/-- No call reaches beyond a character that fits in no window. -/
theorem pages_stuck (hload : spool.load handle = .ok content) {u r : Text} {c : Char} (ht : content = u ++ c :: r)
    (hc : effectiveLimit limit < c.utf8Size) (calls : Nat) {offset : Nat} (hoffset : offset ≤ byteLen u) :
    pages spool handle limit calls offset = none := by
  induction calls generalizing offset with
  | zero => rfl
  | succ calls ih =>
    obtain ⟨u', v, w, ht', hu', hv, hpages⟩ := pages_succ hload limit offset
    have hstart : byteLen u' ≤ byteLen u := by
      rw [hu']
      exact Nat.le_trans (charBoundaryFloor_le _ _) (Nat.le_trans (Nat.min_le_left _ _) hoffset)
    have hend : byteLen u' + byteLen v ≤ byteLen u' + effectiveLimit limit := by
      rw [hv]
      exact Nat.le_trans (charBoundaryFloor_le _ _) (Nat.min_le_left _ _)
    have hboundary : isCharBoundary (u ++ c :: r) (byteLen (u' ++ v)) = true := by
      rw [← ht, ht', ← List.append_assoc]
      exact isCharBoundary_append _ _
    have hbefore : byteLen (u' ++ v) ≤ byteLen u := by
      rcases boundary_le_or_ge hboundary with h | h
      · exact h
      · rw [byteLen_append] at h
        omega
    have hrest : w ≠ [] := by
      rintro rfl
      have hlen := congrArg byteLen (ht.symm.trans ht')
      rw [List.append_nil, byteLen_append u, byteLen_cons] at hlen
      have hpos := c.utf8Size_pos
      omega
    rw [hpages, if_neg hrest, ih hbefore, Option.map_none]

/-- The windows from the start are the whole text exactly when each of its characters fits in a window. -/
theorem readsFrom_zero_iff (hload : spool.load handle = .ok content) :
    ReadsFrom spool handle limit content 0 content ↔ ∀ c ∈ content, c.utf8Size ≤ effectiveLimit limit := by
  constructor
  · rintro ⟨calls, ps, hps, -⟩ c hc
    obtain ⟨u, r, ht⟩ := List.append_of_mem hc
    apply Nat.not_lt.mp
    intro hlt
    rw [pages_stuck hload ht hlt calls (Nat.zero_le _)] at hps
    exact absurd hps (by simp)
  · intro hfit
    exact readsFrom_of_fit (u := []) hload rfl hfit

end Paging

def accented : ToolSpool := ⟨some fun _ => .ok ['é']⟩

theorem readsFrom_zero_iff_accented :
    ReadsFrom accented ['h'] (some 2) ['é'] 0 ['é'] ↔ ∀ c ∈ ['é'], c.utf8Size ≤ effectiveLimit (some 2) :=
  readsFrom_zero_iff rfl

/-- With windows of one byte the calls stay at the start of a character of two bytes. -/
theorem not_readsFrom_accented : ¬ ReadsFrom accented ['h'] (some 1) ['é'] 0 ['é'] := by
  rintro ⟨calls, ps, hps, -⟩
  have hstuck : pages accented ['h'] (some 1) calls 0 = none :=
    pages_stuck (u := []) (r := []) (c := 'é') rfl rfl (by decide) calls (Nat.le_refl 0)
  rw [hstuck] at hps
  exact absurd hps (by simp)

end FerrisScope.SpilledOutput
