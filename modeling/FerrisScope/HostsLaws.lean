import FerrisScope.HostsFile
import FerrisScope.MarkedBlocks
import Mathlib.Data.List.DropRight

/-!
# Editing a hosts file again and again

The lines outside of the managed blocks, and the blocks, of a file that was stripped or given a new
block. A name with a line feed puts lines of its own into the block, and a line is read without the
carriage return before its line feed, so one that ends in a carriage return of its own is not read
back as it was written.
-/

namespace FerrisScope.HostsLaws
open LoopbackAddresses HostNames HelperProtocol HostsFile MarkedBlocks

def opensBlock (line : Text) : Bool := trim line == beginMarker

def closesBlock (line : Text) : Bool := trim line == endMarker

def isBlank (line : Text) : Bool := trim line == []

/-- The address in the first field. -/
def firstAddress (line : Text) : Option Ipv4Addr := parseIpv4 ((trim line).takeWhile fun c => !isWhitespace c)

/-- The lines outside of the managed blocks, without the blank ones at the end. -/
def keptLines (t : Text) : List Text :=
  (outside opensBlock closesBlock false (lines t)).rdropWhile isBlank

def managedBlocks (t : Text) : List (List Text) := blocks opensBlock closesBlock none (lines t)

/-- The lines of the rows of a block. -/
def rowLines (entries : List HostEntry) : List Text := lines (unlines ((rowsOf entries).map rowText))

/-- What an entry's names leave on further lines. -/
def continuations (e : HostEntry) : List Text := (lines (rowText e ++ ['\n'])).tail

theorem outsideBlocks_eq (inside : Bool) (ls : List Text) :
    outsideBlocks inside ls = outside opensBlock closesBlock inside ls := by
  induction ls generalizing inside with
  | nil => cases inside <;> rfl
  | cons l ls ih =>
    cases inside with
    | true =>
      rw [outsideBlocks, outside, if_neg (by simp), if_pos rfl, ih]
      rfl
    | false =>
      rw [outsideBlocks, outside, if_neg Bool.false_ne_true, ih, ih]
      rfl

theorem stripBlock_eq (t : Text) : stripBlock t = unlines (keptLines t) := by
  rw [stripBlock, outsideBlocks_eq]
  rfl

/-! ### Lines of texts put together -/

theorem linesFrom_split (line a rest : Text) :
    linesFrom line (a ++ '\n' :: rest) = linesFrom line (a ++ ['\n']) ++ lines rest := by
  induction a generalizing line with
  | nil => rfl
  | cons c a ih =>
    rw [List.cons_append, List.cons_append, linesFrom, linesFrom]
    split
    · rw [ih, List.cons_append]
    · rw [ih]

theorem lines_split (a rest : Text) : lines (a ++ '\n' :: rest) = lines (a ++ ['\n']) ++ lines rest :=
  linesFrom_split [] a rest

theorem lines_cons {line : Text} (h : '\n' ∉ line) (rest : Text) :
    lines (line ++ '\n' :: rest) = stripCr line :: lines rest := by
  rw [lines, linesFrom_append h, List.nil_append]
  rfl

theorem unlines_append (ls ls' : List Text) : unlines (ls ++ ls') = unlines ls ++ unlines ls' := by
  induction ls with
  | nil => rfl
  | cons l ls ih => rw [List.cons_append, unlines, unlines, ih, List.append_assoc, List.cons_append]

theorem lines_unlines_append (ls : List Text) (rest : Text) :
    lines (unlines ls ++ rest) = lines (unlines ls) ++ lines rest := by
  induction ls with
  | nil => rfl
  | cons l ls ih =>
    rw [unlines, List.append_assoc, List.cons_append, lines_split l (unlines ls ++ rest), lines_split l (unlines ls),
      ih, List.append_assoc]

theorem lines_unlines_eq_map {ls : List Text} (h : ∀ l ∈ ls, '\n' ∉ l) : lines (unlines ls) = ls.map stripCr := by
  induction ls with
  | nil => rfl
  | cons l ls ih =>
    obtain ⟨hl, hls⟩ := List.forall_mem_cons.mp h
    rw [unlines, lines_cons hl, ih hls, List.map_cons]

theorem mem_stripCr {c : Char} {l : Text} (h : c ∈ stripCr l) : c ∈ l := by
  unfold stripCr at h
  split at h
  · exact List.mem_of_mem_dropLast h
  · exact h

theorem notMem_linesFrom {line t : Text} (hline : '\n' ∉ line) : ∀ l ∈ linesFrom line t, '\n' ∉ l := by
  induction t generalizing line with
  | nil =>
    intro l hl
    rw [linesFrom] at hl
    split at hl
    · cases hl
    · rwa [List.mem_singleton.mp hl]
  | cons c t ih =>
    intro l hl
    rw [linesFrom] at hl
    split at hl
    · rcases List.mem_cons.mp hl with rfl | hl
      · exact fun hmem => hline (mem_stripCr hmem)
      · exact ih List.not_mem_nil l hl
    · rename_i hc
      refine ih (fun hmem => ?_) l hl
      rcases List.mem_append.mp hmem with hmem | hmem
      · exact hline hmem
      · exact hc (List.mem_singleton.mp hmem).symm

theorem notMem_lines {t l : Text} (h : l ∈ lines t) : '\n' ∉ l := notMem_linesFrom List.not_mem_nil l h

/-! ### Blanks around a line -/

theorem trim_append_blank {c : Char} (hc : isWhitespace c = true) (l : Text) : trim (l ++ [c]) = trim l := by
  change (List.dropWhile _ (l ++ [c])).rdropWhile _ = (List.dropWhile _ l).rdropWhile _
  rw [List.dropWhile_append]
  split
  · rename_i hempty
    rw [List.isEmpty_iff.mp hempty, List.dropWhile_cons_of_pos hc, List.dropWhile_nil]
  · exact List.rdropWhile_concat_pos _ _ _ hc

theorem trim_stripCr (l : Text) : trim (stripCr l) = trim l := by
  unfold stripCr
  split
  · rename_i hlast
    conv_rhs => rw [← List.dropLast_append_getLast? '\r' hlast, trim_append_blank (by decide)]
  · rfl

@[simp] theorem opensBlock_stripCr (l : Text) : opensBlock (stripCr l) = opensBlock l := by
  rw [opensBlock, trim_stripCr, opensBlock]

@[simp] theorem isBlank_stripCr (l : Text) : isBlank (stripCr l) = isBlank l := by
  rw [isBlank, trim_stripCr, isBlank]

/-- Blanks at the end are behind the first field. -/
theorem takeWhile_rdropWhile (l : Text) :
    (l.rdropWhile isWhitespace).takeWhile (fun c => !isWhitespace c) = l.takeWhile fun c => !isWhitespace c := by
  conv_rhs => rw [← List.rdropWhile_append_rtakeWhile (p := isWhitespace) (l := l), List.takeWhile_append]
  split
  · rename_i hall
    have hblank : (l.rtakeWhile isWhitespace).takeWhile (fun c => !isWhitespace c) = [] := by
      cases hr : l.rtakeWhile isWhitespace with
      | nil => rfl
      | cons c r =>
        have hc : isWhitespace c := List.mem_rtakeWhile_imp (hr ▸ List.mem_cons_self)
        rw [List.takeWhile_cons_of_neg (by simp [hc])]
    rw [hblank, List.append_nil]
    exact List.takeWhile_eq_self_iff.mpr (List.takeWhile_eq_self_iff.mp
      ((List.takeWhile_prefix _).eq_of_length hall))
  · rfl

/-- The first field of a trimmed line is that of the line without the blanks before it. -/
theorem firstField_trim (l : Text) :
    (trim l).takeWhile (fun c => !isWhitespace c) =
      (l.dropWhile isWhitespace).takeWhile fun c => !isWhitespace c :=
  takeWhile_rdropWhile _

/-! ### Rows -/

theorem isDigit_of_mem_octetText {b : UInt8} {c : Char} (hc : c ∈ octetText b) : c.isDigit :=
  Nat.isDigit_of_mem_toDigits (by decide) (by decide) hc

theorem not_isWhitespace_of_isDigit {c : Char} (h : c.isDigit) : isWhitespace c = false := by
  obtain ⟨hlo, hhi⟩ : 48 ≤ c.toNat ∧ c.toNat ≤ 57 := Char.isDigit_iff_toNat.mp h
  simp only [isWhitespace, Bool.or_eq_false_iff, Bool.and_eq_false_iff, beq_eq_false_iff_ne, decide_eq_false_iff_not]
  omega

theorem parseOctet_octetText (b : UInt8) : parseOctet (octetText b) = some b := by
  have hall : ∀ n : Fin 256, parseOctet (Nat.toDigits 10 n) = some (UInt8.ofNat n) := by decide +kernel
  have hb := hall ⟨b.toNat, b.toNat_lt⟩
  rwa [UInt8.ofNat_toNat] at hb

theorem notMem_octetText {b : UInt8} {c : Char} (hc : c.isDigit = false) : c ∉ octetText b := by
  intro hmem
  rw [isDigit_of_mem_octetText hmem] at hc
  cases hc

theorem ipText_eq_intercalate (ip : Ipv4Addr) :
    ipText ip = ['.'].intercalate [octetText ip.a, octetText ip.b, octetText ip.c, octetText ip.d] := by
  simp [ipText, List.intercalate, List.intersperse]

theorem parseIpv4_ipText (ip : Ipv4Addr) : parseIpv4 (ipText ip) = some ip := by
  have hdot : ∀ l ∈ [octetText ip.a, octetText ip.b, octetText ip.c, octetText ip.d], '.' ∉ l := by
    simp only [List.forall_mem_cons]
    exact ⟨notMem_octetText rfl, notMem_octetText rfl, notMem_octetText rfl, notMem_octetText rfl, by simp⟩
  rw [parseIpv4, ipText_eq_intercalate, List.splitOn_intercalate '.' hdot (by simp)]
  simp only [List.map_cons, parseOctet_octetText, List.map_nil]

theorem isWhitespace_of_mem_ipText {ip : Ipv4Addr} {c : Char} (hc : c ∈ ipText ip) : isWhitespace c = false := by
  simp only [ipText, List.cons_append, List.append_assoc, List.mem_append, List.mem_cons] at hc
  rcases hc with ha | rfl | hb | rfl | hc | rfl | hd
  · exact not_isWhitespace_of_isDigit (isDigit_of_mem_octetText ha)
  · decide
  · exact not_isWhitespace_of_isDigit (isDigit_of_mem_octetText hb)
  · decide
  · exact not_isWhitespace_of_isDigit (isDigit_of_mem_octetText hc)
  · decide
  · exact not_isWhitespace_of_isDigit (isDigit_of_mem_octetText hd)

theorem firstAddress_row (ip : Ipv4Addr) (names : Text) : firstAddress (ipText ip ++ '\t' :: names) = some ip := by
  have hnone : ∀ c ∈ ipText ip, (!isWhitespace c) = true := fun c hc => by simp [isWhitespace_of_mem_ipText hc]
  have hstart : (ipText ip ++ '\t' :: names).dropWhile isWhitespace = ipText ip ++ '\t' :: names := by
    cases hip : ipText ip with
    | nil =>
      have hparse := parseIpv4_ipText ip
      rw [hip, show parseIpv4 [] = none by decide] at hparse
      cases hparse
    | cons c rest =>
      rw [List.cons_append, List.dropWhile_cons_of_neg]
      rw [isWhitespace_of_mem_ipText (hip ▸ List.mem_cons_self)]
      decide
  rw [firstAddress, firstField_trim, hstart, List.takeWhile_append_of_pos hnone,
    List.takeWhile_cons_of_neg (by decide), List.append_nil, parseIpv4_ipText]

theorem firstAddress_of_closes {line : Text} (h : closesBlock line = true) : firstAddress line = none := by
  have htrim : trim line = endMarker := by simpa [closesBlock] using h
  rw [firstAddress, htrim]
  decide

theorem firstAddress_stripCr (l : Text) : firstAddress (stripCr l) = firstAddress l := by
  rw [firstAddress, trim_stripCr, firstAddress]

/-- A row is read as a line that starts with its address, and what its names go on with. -/
theorem lines_row (e : HostEntry) :
    ∃ first, lines (rowText e ++ ['\n']) = first :: continuations e ∧ firstAddress first = some e.ip := by
  have hmem : '\n' ∈ [' '].intercalate (e.hostnames.map String.toList) ++ ['\n'] := by simp
  obtain ⟨names, rest, hsplit, hnames⟩ := List.eq_append_cons_of_mem hmem
  have hip : '\n' ∉ ipText e.ip := fun h => by
    have := isWhitespace_of_mem_ipText h
    exact absurd this (by decide)
  have hline : '\n' ∉ ipText e.ip ++ '\t' :: names := by
    simp only [List.mem_append, List.mem_cons, not_or]
    exact ⟨hip, by decide, hnames⟩
  have hrow : rowText e ++ ['\n'] = (ipText e.ip ++ '\t' :: names) ++ '\n' :: rest := by
    rw [rowText, List.append_assoc, List.cons_append, hsplit, List.append_assoc, List.cons_append]
  refine ⟨stripCr (ipText e.ip ++ '\t' :: names), ?_, ?_⟩
  · rw [continuations, hrow, lines_cons hline, List.tail_cons]
  · rw [firstAddress_stripCr, firstAddress_row]

theorem rowLines_eq (entries : List HostEntry) :
    rowLines entries = (rowsOf entries).flatMap fun e => lines (rowText e ++ ['\n']) := by
  unfold rowLines
  induction rowsOf entries with
  | nil => rfl
  | cons e rows ih => rw [List.map_cons, unlines, lines_split, ih, List.flatMap_cons]

/-- No name goes on with a line that closes the block or starts with an address. -/
def NamesPlain (entries : List HostEntry) : Prop :=
  ∀ e ∈ rowsOf entries, ∀ line ∈ continuations e, closesBlock line = false ∧ firstAddress line = none

theorem mem_rowLines_iff {entries : List HostEntry} {line : Text} :
    line ∈ rowLines entries ↔ ∃ e ∈ rowsOf entries, line ∈ lines (rowText e ++ ['\n']) := by
  rw [rowLines_eq, List.mem_flatMap]

theorem closes_rowLines_iff {entries : List HostEntry} :
    (∀ line ∈ rowLines entries, closesBlock line = false) ↔
      ∀ e ∈ rowsOf entries, ∀ line ∈ continuations e, closesBlock line = false := by
  constructor
  · intro h e he line hline
    obtain ⟨first, hlines, -⟩ := lines_row e
    exact h line (mem_rowLines_iff.mpr ⟨e, he, hlines ▸ List.mem_cons_of_mem first hline⟩)
  · intro h line hline
    obtain ⟨e, he, hmem⟩ := mem_rowLines_iff.mp hline
    obtain ⟨first, hlines, hfirst⟩ := lines_row e
    rw [hlines] at hmem
    rcases List.mem_cons.mp hmem with rfl | hmem
    · by_contra hcloses
      rw [firstAddress_of_closes (by simpa using hcloses)] at hfirst
      cases hfirst
    · exact h e he line hmem

theorem flatMap_cons_eq_map_iff {α β : Type} (f : α → β) (g : α → List β) (l : List α) :
    (l.flatMap fun a => f a :: g a) = l.map f ↔ ∀ a ∈ l, g a = [] := by
  induction l with
  | nil => simp
  | cons a l ih =>
    have hlength : ∀ l : List α, l.length ≤ (l.flatMap fun a => f a :: g a).length := by
      intro l
      induction l with
      | nil => exact Nat.le_refl 0
      | cons a l ih =>
        rw [List.flatMap_cons, List.length_append, List.length_cons, List.length_cons]
        omega
    rw [List.flatMap_cons, List.map_cons, List.cons_append, List.cons.injEq, List.forall_mem_cons, ← ih]
    constructor
    · rintro ⟨-, h⟩
      have hsum := congrArg List.length h
      rw [List.length_append, List.length_map] at hsum
      have hempty : g a = [] := List.length_eq_zero_iff.mp (by have := hlength l; omega)
      rw [hempty, List.nil_append] at h
      exact ⟨hempty, h⟩
    · rintro ⟨hempty, h⟩
      exact ⟨rfl, by rw [hempty, List.nil_append, h]⟩

/-- The addresses at the start of the rows' lines are those of the entries exactly when no name goes on with
an address. -/
theorem addresses_rowLines_iff {entries : List HostEntry} :
    (rowLines entries).filterMap firstAddress = (rowsOf entries).map (·.ip) ↔
      ∀ e ∈ rowsOf entries, ∀ line ∈ continuations e, firstAddress line = none := by
  have hrow : ∀ e, (lines (rowText e ++ ['\n'])).filterMap firstAddress =
      e.ip :: (continuations e).filterMap firstAddress := by
    intro e
    obtain ⟨first, hlines, hfirst⟩ := lines_row e
    rw [hlines, List.filterMap_cons_some hfirst]
  rw [rowLines_eq, List.filterMap_flatMap]
  simp only [hrow, flatMap_cons_eq_map_iff, List.filterMap_eq_nil_iff]

/-! ### The lines of the edited file -/

theorem not_opens_of_mem_kept {t l : Text} (h : l ∈ keptLines t) : opensBlock l = false :=
  not_opens_of_mem_outside l ((List.rdropWhile_prefix _ _).subset h)

theorem notMem_of_mem_kept {t l : Text} (h : l ∈ keptLines t) : '\n' ∉ l :=
  notMem_lines ((outside_sublist _ _).subset ((List.rdropWhile_prefix _ _).subset h))

theorem lines_stripBlock (t : Text) : lines (stripBlock t) = (keptLines t).map stripCr := by
  rw [stripBlock_eq, lines_unlines_eq_map fun l => notMem_of_mem_kept]

/-- No kept line opens a block when it is read back. -/
theorem not_opens_read_back (t : Text) : ∀ l ∈ (keptLines t).map stripCr, opensBlock l = false := by
  intro l hl
  obtain ⟨l', hl', rfl⟩ := List.mem_map.mp hl
  rw [opensBlock_stripCr, not_opens_of_mem_kept hl']

theorem managedBlocks_stripBlock (t : Text) : managedBlocks (stripBlock t) = [] := by
  refine blocks_eq_nil_iff.mpr fun l hl => ?_
  rw [lines_stripBlock] at hl
  exact not_opens_read_back t l hl

theorem rdropWhile_map_stripCr (ls : List Text) :
    (ls.map stripCr).rdropWhile isBlank = (ls.rdropWhile isBlank).map stripCr := by
  rw [List.rdropWhile, ← List.map_reverse, List.dropWhile_map, ← List.map_reverse, List.rdropWhile]
  simp only [Function.comp_def, isBlank_stripCr]

/-- The kept lines, read back. -/
theorem outside_kept (t : Text) (rest : List Text) :
    outside opensBlock closesBlock false ((keptLines t).map stripCr ++ rest) =
      (keptLines t).map stripCr ++ outside opensBlock closesBlock false rest :=
  outside_of_not_opens (not_opens_read_back t) rest

theorem rdropWhile_kept (t : Text) : ((keptLines t).map stripCr).rdropWhile isBlank = (keptLines t).map stripCr := by
  rw [rdropWhile_map_stripCr, keptLines, List.rdropWhile_idempotent]

theorem keptLines_stripBlock (t : Text) : keptLines (stripBlock t) = (keptLines t).map stripCr := by
  have hread := outside_kept t []
  rw [List.append_nil, outside, List.append_nil] at hread
  rw [keptLines, lines_stripBlock, hread, rdropWhile_kept]

theorem unlines_eq_nil_iff {ls : List Text} : unlines ls = [] ↔ ls = [] := by
  cases ls <;> simp [unlines]

/-- The blank line between the kept lines and the block. -/
def separator (t : Text) : List Text := if keptLines t = [] then [] else [[]]

variable {t : Text} {x y : List HostEntry}

theorem lines_renderBlock_eq (hrows : rowsOf x ≠ []) :
    lines (renderBlock x) = beginMarker :: (rowLines x ++ [endMarker]) := by
  have hend : lines (unlines [endMarker]) = [endMarker] := by decide
  rw [renderBlock, if_neg hrows, unlines, lines_cons (by decide), unlines_append, lines_unlines_append, hend, rowLines,
    stripCr_of_notMem (by decide)]

theorem renderBlock_ne_nil_iff : renderBlock x ≠ [] ↔ rowsOf x ≠ [] := by
  unfold renderBlock
  split
  · simp [*]
  · simp [*, unlines]

theorem upsertBlock_of_rows_nil (hrows : rowsOf x = []) : upsertBlock t x = stripBlock t := by
  rw [upsertBlock, renderBlock, if_pos hrows]
  simp

theorem lines_upsertBlock (hrows : rowsOf x ≠ []) :
    lines (upsertBlock t x) =
      (keptLines t).map stripCr ++ (separator t ++ beginMarker :: (rowLines x ++ [endMarker])) := by
  have hblock := renderBlock_ne_nil_iff.mpr hrows
  have hline : lines ('\n' :: renderBlock x) = [] :: lines (renderBlock x) := lines_cons List.not_mem_nil _
  simp only [upsertBlock, if_neg hblock, separator, stripBlock_eq, unlines_eq_nil_iff]
  split
  · rename_i hkept
    rw [lines_renderBlock_eq hrows, hkept, List.map_nil, List.nil_append, List.nil_append]
  · rw [lines_unlines_append, hline, lines_renderBlock_eq hrows, lines_unlines_eq_map fun l => notMem_of_mem_kept,
      List.cons_append, List.nil_append]

theorem not_opens_separator : ∀ l ∈ separator t, opensBlock l = false := by
  unfold separator
  split
  · simp
  · decide

theorem isBlank_separator : ∀ l ∈ separator t, isBlank l = true := by
  unfold separator
  split
  · simp
  · decide

theorem rdropWhile_append_blank {ls blank : List Text} (h : ∀ l ∈ blank, isBlank l = true) :
    (ls ++ blank).rdropWhile isBlank = ls.rdropWhile isBlank := by
  induction blank using List.reverseRec with
  | nil => rw [List.append_nil]
  | append_singleton blank l ih =>
    rw [← List.append_assoc, List.rdropWhile_concat_pos _ _ _ (h l (by simp)),
      ih fun b hb => h b (List.mem_append_left _ hb)]

/-- What stands outside of blocks once a block was put in. -/
theorem outside_upsertBlock (hrows : rowsOf x ≠ []) :
    outside opensBlock closesBlock false (lines (upsertBlock t x)) =
      (keptLines t).map stripCr ++ (separator t ++
        outside opensBlock closesBlock false (beginMarker :: (rowLines x ++ [endMarker]))) := by
  rw [lines_upsertBlock hrows, outside_kept, outside_of_not_opens not_opens_separator]

theorem managedBlocks_upsertBlock (hrows : rowsOf x ≠ []) :
    managedBlocks (upsertBlock t x) =
      blocks opensBlock closesBlock none (beginMarker :: (rowLines x ++ [endMarker])) := by
  rw [managedBlocks, lines_upsertBlock hrows, blocks_of_not_opens (not_opens_read_back t),
    blocks_of_not_opens not_opens_separator]

theorem outside_marked {body : List Text} (h : ∀ line ∈ body, closesBlock line = false) :
    outside opensBlock closesBlock false (beginMarker :: (body ++ [endMarker])) = [] :=
  outside_block (by decide) (by decide) h []

theorem blocks_marked {body rest : List Text} {last : Text} (hlast : closesBlock last = true)
    (h : ∀ line ∈ body, closesBlock line = false) :
    blocks opensBlock closesBlock none (beginMarker :: (body ++ last :: rest)) =
      body :: blocks opensBlock closesBlock none rest :=
  blocks_block (by decide) hlast h rest

theorem keptLines_upsertBlock (hplain : ∀ line ∈ rowLines x, closesBlock line = false) :
    keptLines (upsertBlock t x) = (keptLines t).map stripCr := by
  by_cases hrows : rowsOf x = []
  · rw [upsertBlock_of_rows_nil hrows, keptLines_stripBlock]
  · rw [keptLines, outside_upsertBlock hrows, outside_marked hplain, List.append_nil,
      rdropWhile_append_blank isBlank_separator, rdropWhile_kept]

/-! ### The addresses of a block -/

theorem ipsOfBlock_true (ls : List Text) :
    ipsOfBlock true ls = (ls.takeWhile fun l => !closesBlock l).filterMap firstAddress := by
  induction ls with
  | nil => rfl
  | cons l ls ih =>
    by_cases hl : trim l = endMarker
    · have hcloses : closesBlock l = true := by simp [closesBlock, hl]
      simp [ipsOfBlock, hl, hcloses]
    · have hcloses : closesBlock l = false := by simp [closesBlock, hl]
      rw [List.takeWhile_cons_of_pos (by simp [hcloses]), List.filterMap_cons, ← ih]
      simp only [ipsOfBlock, Bool.not_true, Bool.false_eq_true, if_false, if_neg hl, firstAddress]
      split <;> simp_all

/-- The addresses returned are those at the start of a line of the first block. -/
theorem blockIps_eq (t : Text) : blockIps t = ((managedBlocks t).head?.getD []).filterMap firstAddress := by
  unfold blockIps managedBlocks
  induction lines t with
  | nil => rfl
  | cons l ls ih =>
    rw [ipsOfBlock, blocks]
    cases hl : opensBlock l with
    | true =>
      rw [if_pos rfl, blocks_some, List.head?_cons, Option.getD_some, List.nil_append, ← ipsOfBlock_true]
      simp only [Bool.not_false, if_true]
      rw [show (trim l == beginMarker) = true from hl]
    | false =>
      rw [if_neg Bool.false_ne_true, ← ih]
      simp only [Bool.not_false, if_true]
      rw [show (trim l == beginMarker) = false from hl]

/-! ### The laws -/

structure EditingLaws (t : Text) (x y : List HostEntry) : Prop where
  idempotent : stripBlock (stripBlock t) = stripBlock t
  replaced : upsertBlock (upsertBlock t x) y = upsertBlock t y
  oneBlock : renderBlock x ≠ [] → (managedBlocks (upsertBlock t x)).length = 1
  addresses : blockIps (upsertBlock t x) = (rowsOf x).map (·.ip)
  survives : keptLines (stripBlock t) = keptLines t ∧ keptLines (upsertBlock t x) = keptLines t

/-- No kept line ends in a carriage return of its own. -/
def ReadsBack (t : Text) : Prop := ∀ line ∈ keptLines t, line.getLast? ≠ some '\r'

instance (t : Text) : Decidable (ReadsBack t) := inferInstanceAs (Decidable (∀ line ∈ keptLines t, _))

theorem stripCr_eq_self_iff {l : Text} : stripCr l = l ↔ l.getLast? ≠ some '\r' := by
  unfold stripCr
  split
  · rename_i hlast
    refine ⟨fun h => ?_, fun h => absurd hlast h⟩
    have hne : l ≠ [] := by
      rintro rfl
      cases hlast
    have hlength := congrArg List.length h
    rw [List.length_dropLast] at hlength
    have := List.length_pos_iff.mpr hne
    omega
  · rename_i hlast
    exact ⟨fun _ => hlast, fun _ => rfl⟩

theorem map_stripCr_kept_iff : (keptLines t).map stripCr = keptLines t ↔ ReadsBack t := by
  conv_lhs => rhs; rw [← List.map_id (keptLines t)]
  simp only [List.map_inj_left, id_eq, stripCr_eq_self_iff, ReadsBack]

/-- A row whose names close the block early leaves the end of the block behind, or opens another one. -/
theorem not_closes_of_laws (h : EditingLaws t x y) : ∀ line ∈ rowLines x, closesBlock line = false := by
  by_contra hex
  obtain ⟨line, hline, hcloses⟩ : ∃ line ∈ rowLines x, closesBlock line = true := by simpa using hex
  obtain ⟨last, hlast⟩ := Option.isSome_iff_exists.mp (List.find?_isSome.mpr ⟨line, hline, hcloses⟩)
  obtain ⟨hclose, before, rest, hsplit, hbefore⟩ := List.find?_eq_some_iff_append.mp hlast
  have hplain : ∀ line ∈ before, closesBlock line = false := fun l hl => by simpa using hbefore l hl
  have hrows : rowsOf x ≠ [] := by
    intro hnil
    rw [rowLines, hnil] at hline
    cases hline
  have hbody : rowLines x ++ [endMarker] = before ++ last :: (rest ++ [endMarker]) := by
    rw [hsplit, List.append_assoc, List.cons_append]
  have hnone : ∀ l ∈ rest ++ [endMarker], opensBlock l = false := by
    have hone := h.oneBlock (renderBlock_ne_nil_iff.mpr hrows)
    rw [managedBlocks_upsertBlock hrows, hbody, blocks_marked hclose hplain, List.length_cons, Nat.add_eq_right,
      List.length_eq_zero_iff] at hone
    exact blocks_eq_nil_iff.mp hone
  have hleft : outside opensBlock closesBlock false (beginMarker :: (rowLines x ++ [endMarker])) =
      rest ++ [endMarker] := by
    have hrest : outside opensBlock closesBlock false ((rest ++ [endMarker]) ++ []) = _ :=
      outside_of_not_opens hnone []
    rw [List.append_nil] at hrest
    rw [hbody, outside_block (by decide) hclose hplain, hrest, outside, List.append_nil]
  have hkept := h.survives.2
  rw [keptLines, outside_upsertBlock hrows, hleft, ← List.append_assoc, ← List.append_assoc,
    List.rdropWhile_concat_neg _ _ _ (by decide)] at hkept
  have hlength := congrArg List.length hkept
  simp only [List.length_append, List.length_map, List.length_singleton] at hlength
  omega

theorem managedBlocks_of_plain (hrows : rowsOf x ≠ []) (hplain : ∀ line ∈ rowLines x, closesBlock line = false) :
    managedBlocks (upsertBlock t x) = [rowLines x] := by
  rw [managedBlocks_upsertBlock hrows, blocks_marked (by decide) hplain]
  rfl

theorem blockIps_of_plain (hplain : ∀ line ∈ rowLines x, closesBlock line = false) :
    blockIps (upsertBlock t x) = (rowLines x).filterMap firstAddress := by
  by_cases hrows : rowsOf x = []
  · rw [upsertBlock_of_rows_nil hrows, blockIps_eq, managedBlocks_stripBlock, rowLines, hrows]
    rfl
  · rw [blockIps_eq, managedBlocks_of_plain hrows hplain]
    rfl

theorem editingLaws_iff (t : Text) (x y : List HostEntry) : EditingLaws t x y ↔ ReadsBack t ∧ NamesPlain x := by
  constructor
  · intro h
    have hplain := not_closes_of_laws h
    have haddresses := h.addresses
    rw [blockIps_of_plain hplain, addresses_rowLines_iff] at haddresses
    have hkept := h.survives.1
    rw [keptLines_stripBlock] at hkept
    exact ⟨map_stripCr_kept_iff.mp hkept, fun e he line hline =>
      ⟨closes_rowLines_iff.mp hplain e he line hline, haddresses e he line hline⟩⟩
  · rintro ⟨hreads, hnames⟩
    have hplain := closes_rowLines_iff.mpr fun e he line hline => (hnames e he line hline).1
    have hkept := map_stripCr_kept_iff.mpr hreads
    have hstrip : keptLines (stripBlock t) = keptLines t := (keptLines_stripBlock t).trans hkept
    have hupsert : keptLines (upsertBlock t x) = keptLines t := (keptLines_upsertBlock hplain).trans hkept
    refine ⟨?_, ?_, fun hblock => ?_, ?_, hstrip, hupsert⟩
    · rw [stripBlock_eq (stripBlock t), hstrip, stripBlock_eq t]
    · rw [upsertBlock, stripBlock_eq, hupsert, ← stripBlock_eq t, ← upsertBlock]
    · rw [managedBlocks_of_plain (renderBlock_ne_nil_iff.mp hblock) hplain]
      rfl
    · rw [blockIps_of_plain hplain, addresses_rowLines_iff]
      exact fun e he line hline => (hnames e he line hline).2

/-- A line that ends in two carriage returns loses one each time. -/
def doubleReturn : Text := "10.0.0.5 a\r\r\n".toList

theorem editingLaws_doubleReturn : ¬∀ (t : Text) (x y : List HostEntry), EditingLaws t x y := fun h =>
  absurd (h doubleReturn [] []).idempotent (by decide)

/-- Names that pass the hostname check stay on the line of their row. -/
theorem namesPlain_of_valid (hv : NamesValid x) : NamesPlain x := by
  intro e he line hline
  have hmem : rowText e ∈ (rowsOf x).map rowText := List.mem_map_of_mem he
  rw [continuations, lines_cons (notMem_row hv hmem (by decide)), List.tail_cons] at hline
  cases hline

end FerrisScope.HostsLaws
