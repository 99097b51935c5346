import FerrisScope.AsciiCase
import FerrisScope.LeftmostScans
import FerrisScope.SpilledOutput
import FerrisScope.TextSearch

/-!
# Searching a spilled output

The search goes through the text from left to right, with or without regard to case, and reports where each
match is, its line and the text around it. The bytes of the text are compared when case does not count, and
the places that are found are those of characters.
-/

namespace FerrisScope.SpilledSearch
open HostsFile (Text)
open Utf8Slices CharacterBoundaries TextSearch AsciiCase LeftmostScans SpilledOutput

def grepDefaultMaxMatches : Nat := 50

def grepMaxMatches : Nat := 500

def grepDefaultContext : Nat := 160

def grepMaxContext : Nat := 2000

structure GrepArgs where
  handle : Text
  pattern : Text
  ignoreCase : Bool
  maxMatches : Option Nat
  contextBytes : Option Nat

structure Match where
  offset : Nat
  line : Nat
  windowOffset : Nat
  snippet : Text

structure GrepResult where
  handle : Text
  pattern : Text
  ignoreCase : Bool
  totalBytes : Nat
  matchCount : Nat
  truncated : Bool
  found : List Match

/-- The loop over the places of the bytes. -/
def scanBytes (h n : List UInt8) : Nat → Nat → Option Nat
  | 0, _ => none
  | turns + 1, i =>
    if i + n.length ≤ h.length then
      if eqIgnoreAsciiCase ((h.drop i).take n.length) n then some i else scanBytes h n turns (i + 1)
    else none

def nextMatch (content pattern : Text) (start : Nat) (ignoreCase : Bool) : Option Nat :=
  let h := encode content
  let n := encode pattern
  if n = [] ∨ h.length < start then none
  else if ignoreCase then scanBytes h n (h.length + 1 - start) start
  else (sliceFrom content start).bind fun rest => (find pattern rest).map (start + ·)

/-- The text around a match, and where it begins. There is none when a slice ends the program. -/
def window (content : Text) (pos matchLen context : Nat) : Option (Nat × Text) :=
  let start := charBoundaryFloor content (pos - context)
  let rawEnd := min (pos + matchLen + context) (byteLen content)
  let stop := max (charBoundaryFloor content rawEnd) start
  (slice content start stop).map (start, ·)

/-- The bytes between two places. -/
def bytesBetween (bytes : List UInt8) (i j : Nat) : Option (List UInt8) :=
  if i ≤ j ∧ j ≤ bytes.length then some ((bytes.drop i).take (j - i)) else none

def newlines (bytes : List UInt8) : Nat := bytes.count 10

/-- The matches from `start` on, no more than are left to find, and where the last one ends. -/
def grepLoop (content pattern : Text) (ignoreCase : Bool) (context : Nat) :
    Nat → Nat → Nat → Nat → Option (List Match × Nat)
  | 0, start, _, _ => some ([], start)
  | left + 1, start, nlCountedTo, line =>
    match nextMatch content pattern start ignoreCase with
    | none => some ([], start)
    | some pos =>
      (bytesBetween (encode content) nlCountedTo pos).bind fun between =>
        (window content pos (byteLen pattern) context).bind fun (windowOffset, snippet) =>
          let line := line + newlines between
          (grepLoop content pattern ignoreCase context left (pos + byteLen pattern) pos line).map fun (rest, stop) =>
            (⟨pos, line, windowOffset, snippet⟩ :: rest, stop)

def effectiveMatches (maxMatches : Option Nat) : Nat := min (max (maxMatches.getD grepDefaultMaxMatches) 1) grepMaxMatches

def effectiveContext (contextBytes : Option Nat) : Nat := min (contextBytes.getD grepDefaultContext) grepMaxContext

def grepResult (a : GrepArgs) (content : Text) (found : List Match) (stop : Nat) : GrepResult :=
  { handle := a.handle
    pattern := a.pattern
    ignoreCase := a.ignoreCase
    totalBytes := byteLen content
    matchCount := found.length
    truncated := decide (found.length = effectiveMatches a.maxMatches) &&
      (nextMatch content a.pattern stop a.ignoreCase).isSome
    found }

def grepContent (a : GrepArgs) (content : Text) : Option GrepResult :=
  (grepLoop content a.pattern a.ignoreCase (effectiveContext a.contextBytes) (effectiveMatches a.maxMatches) 0 0 1).map
    fun (found, stop) => grepResult a content found stop

/-- The answer to a search. There is none when a slice ends the program. -/
def grep (spool : ToolSpool) (a : GrepArgs) : Option (Except Text GrepResult) :=
  if a.pattern = [] then some (.error "pattern must not be empty".toList)
  else
    match spool.load a.handle with
    | .error e => some (.error e)
    | .ok content => (grepContent a content).map .ok

/-! ## Where the pattern is -/

/-- Without regard to case, if it does not count. -/
def fold (ignoreCase : Bool) (t : Text) : Text := if ignoreCase then t.map Char.toLower else t

/-- The text has the pattern with this many bytes before it. -/
def MatchAt (ignoreCase : Bool) (pattern content : Text) (i : Nat) : Prop :=
  ∃ u m w, content = u ++ (m ++ w) ∧ byteLen u = i ∧ fold ignoreCase m = fold ignoreCase pattern

theorem fold_append (ic : Bool) (s t : Text) : fold ic (s ++ t) = fold ic s ++ fold ic t := by
  cases ic with
  | false => rfl
  | true => exact List.map_append

theorem byteLen_fold (ic : Bool) (t : Text) : byteLen (fold ic t) = byteLen t := by
  cases ic with
  | false => rfl
  | true => exact byteLen_map_toLower t

theorem fold_eq_append {ic : Bool} {t x y : Text} (h : fold ic t = x ++ y) :
    ∃ s r, t = s ++ r ∧ fold ic s = x ∧ fold ic r = y := by
  cases ic with
  | false => exact ⟨x, y, h, rfl, rfl⟩
  | true => exact List.map_eq_append_iff.mp h

theorem fold_ne_nil {ic : Bool} {t : Text} (h : t ≠ []) : fold ic t ≠ [] := by
  cases ic with
  | false => exact h
  | true => exact mt List.map_eq_nil_iff.mp h

theorem matchAt_iff_occurs {ic : Bool} {pattern content : Text} {i : Nat} :
    MatchAt ic pattern content i ↔ Occurs (fold ic pattern) (fold ic content) i := by
  constructor
  · rintro ⟨u, m, w, rfl, rfl, hm⟩
    refine ⟨fold ic u, fold ic w, ?_, byteLen_fold ic u⟩
    rw [fold_append, fold_append, hm]
  · rintro ⟨u, w, hcontent, rfl⟩
    obtain ⟨u, r, rfl, rfl, hr⟩ := fold_eq_append hcontent
    obtain ⟨m, w, rfl, hm, -⟩ := fold_eq_append hr
    exact ⟨u, m, w, rfl, (byteLen_fold ic u).symm, hm⟩

/-! ## The search for the next match -/

theorem eqIgnoreAsciiCase_iff (h n : List UInt8) (i : Nat) :
    eqIgnoreAsciiCase ((h.drop i).take n.length) n = true ↔ n.map toLowerByte <+: (h.map toLowerByte).drop i := by
  rw [eqIgnoreAsciiCase, decide_eq_true_eq, List.prefix_iff_eq_take, List.map_take, List.map_drop, List.length_map]
  exact eq_comm

theorem scanBytes_spec {h n : List UInt8} (hn : n ≠ []) {turns i : Nat} (hturns : h.length < i + turns) :
    First (fun k => n.map toLowerByte <+: (h.map toLowerByte).drop k) i (scanBytes h n turns i) := by
  have hbeyond : ∀ j, h.length < j + n.length → ∀ k, j ≤ k → ¬ n.map toLowerByte <+: (h.map toLowerByte).drop k := by
    intro j hj k hk hprefix
    have hlength := hprefix.length_le
    rw [List.length_map, List.length_drop, List.length_map] at hlength
    have hpos := List.length_pos_iff.mpr hn
    omega
  induction turns generalizing i with
  | zero => exact hbeyond i (by omega)
  | succ turns ih =>
    rw [scanBytes]
    split
    · split
      · next heq => exact First.hit ((eqIgnoreAsciiCase_iff h n i).mp heq)
      · next heq =>
        apply First.next (ih (by omega))
        exact fun hprefix => heq ((eqIgnoreAsciiCase_iff h n i).mpr hprefix)
    · next hlong => exact hbeyond i (Nat.not_le.mp hlong)

theorem matchAt_iff_bytes {pattern content : Text} (hp : pattern ≠ []) (k : Nat) :
    MatchAt true pattern content k ↔
      (encode pattern).map toLowerByte <+: ((encode content).map toLowerByte).drop k := by
  rw [matchAt_iff_occurs, ← encode_prefix_drop_iff (fold_ne_nil hp), fold, if_pos rfl, fold, if_pos rfl,
    encode_map_toLower, encode_map_toLower]

/-- The search finds the next place of the pattern. -/
theorem nextMatch_spec (ic : Bool) {pattern content : Text} {start : Nat} (hp : pattern ≠ [])
    (hstart : isCharBoundary content start = true) :
    First (MatchAt ic pattern content) start (nextMatch content pattern start ic) := by
  have hle : start ≤ (encode content).length := le_byteLen_of_boundary hstart
  have hn : encode pattern ≠ [] := fun h => hp (byteLen_eq_zero.mp (congrArg List.length h))
  rw [nextMatch, if_neg (not_or.mpr ⟨hn, Nat.not_lt.mpr hle⟩)]
  cases ic with
  | true =>
    have hbytes : MatchAt true pattern content =
        fun k => (encode pattern).map toLowerByte <+: ((encode content).map toLowerByte).drop k :=
      funext fun k => propext (matchAt_iff_bytes hp k)
    rw [if_pos rfl, hbytes]
    apply scanBytes_spec hn
    omega
  | false =>
    obtain ⟨u, r, rfl, rfl⟩ := isCharBoundary_iff.mp hstart
    rw [if_neg Bool.false_ne_true, sliceFrom_append, Option.bind_some]
    apply (find_spec pattern r).shift (Nat.le_refl _)
    intro k hk
    rw [matchAt_iff_occurs]
    constructor
    · rintro ⟨v, w, hcontent, rfl⟩
      obtain ⟨m, rfl, rfl⟩ := append_eq_of_byteLen_le hcontent hk
      exact ⟨byteLen m, ⟨m, w, rfl, rfl⟩, byteLen_append u m⟩
    · rintro ⟨j, ⟨m, w, rfl, rfl⟩, rfl⟩
      exact ⟨u ++ m, w, (List.append_assoc _ _ _).symm, byteLen_append u m⟩

/-! ## What is reported -/

/-- The match is there, its line is right, and the snippet is the text around it. -/
def Reported (ic : Bool) (pattern content : Text) (m : Match) : Prop :=
  ∃ u front matched back w, content = u ++ (front ++ (matched ++ (back ++ w))) ∧ byteLen u = m.windowOffset ∧
    byteLen (u ++ front) = m.offset ∧ m.snippet = front ++ (matched ++ back) ∧
    fold ic matched = fold ic pattern ∧ m.line = (u ++ front).count '\n' + 1

theorem newlines_encode (t : Text) : newlines (encode t) = t.count '\n' := by
  induction t with
  | nil => rfl
  | cons c t ih =>
    have hchar : newlines (String.utf8EncodeChar c) = if c = '\n' then 1 else 0 := by
      by_cases hc : c.toNat < 128
      · exact forall_ascii (P := fun c => newlines (String.utf8EncodeChar c) = if c = '\n' then 1 else 0) (by decide) c hc
      · have hne : c ≠ '\n' := by
          rintro rfl
          exact hc (by decide)
        rw [if_neg hne, newlines, List.count_eq_zero]
        intro hmem
        have hhigh := high_of_mem (Nat.not_lt.mp hc) 10 hmem
        exact absurd hhigh (by decide)
    rw [newlines] at ih hchar ⊢
    rw [encode_cons, List.count_append, hchar, ih, List.count_cons, Nat.add_comm]
    by_cases h : c = '\n'
    · rw [if_pos h, h, beq_self_eq_true, if_pos rfl]
    · rw [if_neg h, beq_eq_false_iff_ne.mpr h, if_neg Bool.false_ne_true]

theorem matched_byteLen {ic : Bool} {m pattern : Text} (h : fold ic m = fold ic pattern) : byteLen m = byteLen pattern := by
  rw [← byteLen_fold ic m, h, byteLen_fold]

/-- The window around a match is a part of the text that has the match in it. -/
theorem window_spec {u m w : Text} (context : Nat) :
    ∃ v front back x, u = v ++ front ∧ w = back ++ x ∧
      window (u ++ (m ++ w)) (byteLen u) (byteLen m) context = some (byteLen v, front ++ (m ++ back)) := by
  have hstart := charBoundaryFloor_boundary (u ++ (m ++ w)) (byteLen u - context)
  have hle : charBoundaryFloor (u ++ (m ++ w)) (byteLen u - context) ≤ byteLen u :=
    Nat.le_trans (charBoundaryFloor_le _ _) (Nat.sub_le _ _)
  have hend : isCharBoundary (u ++ (m ++ w)) (byteLen u + byteLen m) = true := by
    rw [← List.append_assoc, ← byteLen_append]
    exact isCharBoundary_append (u ++ m) w
  have hstop := le_charBoundaryFloor
    (Nat.le_min.mpr ⟨Nat.le_add_right _ context, le_byteLen_of_boundary hend⟩) hend
  have hstop' : byteLen u ≤ _ := Nat.le_trans (Nat.le_add_right _ _) hstop
  obtain ⟨v, s, x, hcontent, hv, hs, hslice⟩ :=
    slice_of_boundaries hstart (charBoundaryFloor_boundary _ _) (Nat.le_trans hle hstop')
  obtain ⟨front, hu, hrest⟩ := append_eq_of_byteLen_le hcontent.symm (hv.trans_le hle)
  have hfront : byteLen (front ++ m) ≤ byteLen s := by
    have hlen := congrArg byteLen hu
    rw [byteLen_append] at hlen ⊢
    omega
  rw [← List.append_assoc] at hrest
  obtain ⟨back, rfl, hw⟩ := append_eq_of_byteLen_le hrest.symm hfront
  refine ⟨v, front, back, x, hu, hw, ?_⟩
  rw [window, Nat.max_eq_left (Nat.le_trans hle hstop'), hslice, Option.map_some, hv, List.append_assoc]

theorem newlines_before (before rest : Text) :
    newlines ((encode (before ++ rest)).take (byteLen before)) = before.count '\n' := by
  rw [encode_append, byteLen, List.take_left]
  exact newlines_encode before

/-- The line of a place, from the lines before an earlier one. -/
theorem newlines_between {before : Text} (rest : Text) {nl : Nat} (hnl : nl ≤ byteLen before) :
    ∃ between, bytesBetween (encode (before ++ rest)) nl (byteLen before) = some between ∧
      newlines ((encode (before ++ rest)).take nl) + newlines between = before.count '\n' := by
  have hle : byteLen before ≤ (encode (before ++ rest)).length := le_byteLen_of_boundary (isCharBoundary_append before rest)
  refine ⟨_, if_pos ⟨hnl, hle⟩, ?_⟩
  rw [newlines, newlines, ← List.count_append, ← List.take_add, Nat.add_sub_cancel' hnl]
  exact newlines_before before rest

theorem grepLoop_spec {ic : Bool} {pattern content : Text} (context : Nat) (hp : pattern ≠ []) (left : Nat)
    {start nl : Nat} {ps : List Nat} (hscan : Scan (MatchAt ic pattern content) (byteLen pattern) start ps)
    (hstart : isCharBoundary content start = true) (hnl : nl ≤ start) :
    ∃ found stop,
      grepLoop content pattern ic context left start nl (newlines ((encode content).take nl) + 1) = some (found, stop) ∧
      found.map Match.offset = ps.take left ∧ (∀ m ∈ found, Reported ic pattern content m) ∧
      isCharBoundary content stop = true ∧ Scan (MatchAt ic pattern content) (byteLen pattern) stop (ps.drop left) := by
  induction left generalizing start nl ps with
  | zero => exact ⟨[], start, rfl, rfl, fun m hm => absurd hm List.not_mem_nil, hstart, hscan⟩
  | succ left ih =>
    have hfirst := nextMatch_spec ic hp hstart
    cases hnext : nextMatch content pattern start ic with
    | none =>
      rw [hnext] at hfirst
      obtain rfl := hscan.unique (.done hfirst)
      refine ⟨[], start, ?_, rfl, fun m hm => absurd hm List.not_mem_nil, hstart, hscan⟩
      rw [grepLoop, hnext]
    | some pos =>
      rw [hnext] at hfirst
      cases hscan with
      | done hnone => exact absurd hfirst.1.2 (hnone _ hfirst.1.1)
      | found hi hrest =>
        obtain rfl := hi.unique hfirst
        obtain ⟨⟨hle, u, m, w, rfl, rfl, hm⟩, -⟩ := hfirst
        obtain ⟨between, hbetween, hlines⟩ := newlines_between (m ++ w) (Nat.le_trans hnl hle)
        obtain ⟨v, front, back, x, rfl, rfl, hwindow⟩ := window_spec (u := u) (m := m) (w := w) context
        have hlen := matched_byteLen hm
        have hend : isCharBoundary (v ++ front ++ (m ++ (back ++ x))) (byteLen (v ++ front) + byteLen pattern) = true := by
          rw [← hlen, ← byteLen_append, ← List.append_assoc]
          exact isCharBoundary_append (v ++ front ++ m) (back ++ x)
        obtain ⟨found, stop, hloop, hoffsets, hreported, hstop, hleft⟩ := ih hrest hend (Nat.le_add_right _ _)
        rw [newlines_before] at hloop
        refine ⟨⟨byteLen (v ++ front), (v ++ front).count '\n' + 1, byteLen v, front ++ (m ++ back)⟩ :: found, stop,
          ?_, ?_, ?_, hstop, hleft⟩
        · rw [grepLoop, hnext]
          simp only [hbetween, Option.bind_some, ← hlen, hwindow]
          rw [Nat.add_right_comm, hlines, hlen, hloop, Option.map_some]
        · rw [List.map_cons, hoffsets, List.take_succ_cons]
        · refine List.forall_mem_cons.mpr ⟨?_, hreported⟩
          exact ⟨v, front, m, back, x, List.append_assoc _ _ _, rfl, rfl, rfl, hm, rfl⟩

/-! ## The answer -/

theorem exists_scan_content {pattern : Text} (ic : Bool) (content : Text) (hp : pattern ≠ []) :
    ∃ ps, Scan (MatchAt ic pattern content) (byteLen pattern) 0 ps := by
  have hpos : 0 < byteLen pattern := Nat.pos_of_ne_zero fun h => hp (byteLen_eq_zero.mp h)
  have hbound : ∀ k, MatchAt ic pattern content k → k < byteLen content := by
    intro k hk
    obtain ⟨u, m, w, rfl, rfl, hm⟩ := hk
    have hlen := matched_byteLen hm
    rw [byteLen_append, byteLen_append]
    omega
  exact exists_scan hpos hbound 0

theorem nextMatch_isSome_iff {ic : Bool} {pattern content : Text} {stop : Nat} {ps : List Nat} (hp : pattern ≠ [])
    (hstop : isCharBoundary content stop = true)
    (hscan : Scan (MatchAt ic pattern content) (byteLen pattern) stop ps) :
    (nextMatch content pattern stop ic).isSome = true ↔ 0 < ps.length := by
  have hfirst := nextMatch_spec ic hp hstop
  cases hnext : nextMatch content pattern stop ic with
  | none =>
    rw [hnext] at hfirst
    obtain rfl := hscan.unique (.done hfirst)
    exact iff_of_false Bool.false_ne_true (Nat.lt_irrefl 0)
  | some i =>
    rw [hnext] at hfirst
    cases hscan with
    | done hnone => exact absurd hfirst.1.2 (hnone _ hfirst.1.1)
    | found => exact iff_of_true rfl (Nat.succ_pos _)

/-- The search reports the first matches of the scan, as many as it may, and whether there are more. -/
theorem grep_reports {spool : ToolSpool} {a : GrepArgs} {content : Text} (hload : spool.load a.handle = .ok content)
    (hp : a.pattern ≠ []) :
    ∃ ps result, (∀ qs, Scan (MatchAt a.ignoreCase a.pattern content) (byteLen a.pattern) 0 qs ↔ qs = ps) ∧
      grep spool a = some (.ok result) ∧
      result.found.map Match.offset = ps.take (effectiveMatches a.maxMatches) ∧
      (∀ m ∈ result.found, Reported a.ignoreCase a.pattern content m) ∧
      result.matchCount = result.found.length ∧
      (result.truncated = true ↔ effectiveMatches a.maxMatches < ps.length) := by
  obtain ⟨ps, hscan⟩ := exists_scan_content a.ignoreCase content hp
  obtain ⟨found, stop, hloop, hoffsets, hreported, hstop, hleft⟩ :=
    grepLoop_spec (effectiveContext a.contextBytes) hp (effectiveMatches a.maxMatches) hscan (isCharBoundary_zero content)
      (Nat.le_refl 0)
  refine ⟨ps, grepResult a content found stop, fun qs => ⟨fun h => h.unique hscan, fun h => h ▸ hscan⟩, ?_, hoffsets,
    hreported, rfl, ?_⟩
  · have hloop' : grepLoop content a.pattern a.ignoreCase (effectiveContext a.contextBytes)
        (effectiveMatches a.maxMatches) 0 0 1 = some (found, stop) := hloop
    rw [grep, if_neg hp, hload]
    simp only [grepContent, hloop', Option.map_some]
  · have hmore := nextMatch_isSome_iff hp hstop hleft
    have hlength := congrArg List.length hoffsets
    rw [List.length_map, List.length_take] at hlength
    rw [grepResult, Bool.and_eq_true, decide_eq_true_eq, hmore, List.length_drop]
    omega

/-- The pattern `x` without regard to case in the text `éX`. -/
theorem grep_reports_accented :
    ∃ ps result, (∀ qs, Scan (MatchAt true ['x'] ['é', 'X']) (byteLen ['x']) 0 qs ↔ qs = ps) ∧
      grep ⟨some fun _ => .ok ['é', 'X']⟩ ⟨['h'], ['x'], true, none, none⟩ = some (.ok result) ∧
      result.found.map Match.offset = ps.take (effectiveMatches none) ∧
      (∀ m ∈ result.found, Reported true ['x'] ['é', 'X'] m) ∧ result.matchCount = result.found.length ∧
      (result.truncated = true ↔ effectiveMatches none < ps.length) :=
  grep_reports (a := ⟨['h'], ['x'], true, none, none⟩) rfl (List.cons_ne_nil _ _)

end FerrisScope.SpilledSearch
