import FerrisScope.HelperProtocol
import FerrisScope.HostNames
import FerrisScope.ListCuts

/-!
# The managed block of a hosts file

The app owns one block between two sentinel lines and leaves everything else alone. Setting
the block strips every block that is there and appends a new one. Names that passed the
hostname check cannot contain a line break or a sentinel, so the new block has the lines it was
made of.
-/

namespace FerrisScope.HostsFile
open LoopbackAddresses HostNames HelperProtocol

abbrev Text := List Char

def beginMarker : Text := "# >>> ferrisscope managed — removed automatically on disable >>>".toList

def endMarker : Text := "# <<< ferrisscope managed <<<".toList

/-- The characters with the Unicode property `White_Space`. -/
def isWhitespace (c : Char) : Bool :=
  (9 ≤ c.toNat && c.toNat ≤ 13) || c.toNat == 0x20 || c.toNat == 0x85 || c.toNat == 0xA0 ||
    c.toNat == 0x1680 || (0x2000 ≤ c.toNat && c.toNat ≤ 0x200A) || c.toNat == 0x2028 ||
    c.toNat == 0x2029 || c.toNat == 0x202F || c.toNat == 0x205F || c.toNat == 0x3000

def trim (t : Text) : Text := ((t.dropWhile isWhitespace).reverse.dropWhile isWhitespace).reverse

def stripCr (line : Text) : Text := if line.getLast? = some '\r' then line.dropLast else line

/-- The lines of a text of which `line` is read. A carriage return goes with the line feed after it. -/
def linesFrom (line : Text) : Text → List Text
  | [] => if line = [] then [] else [line]
  | c :: rest => if c = '\n' then stripCr line :: linesFrom [] rest else linesFrom (line ++ [c]) rest

def lines (t : Text) : List Text := linesFrom [] t

/-- Each line with a line feed. -/
def unlines : List Text → Text
  | [] => []
  | line :: rest => line ++ '\n' :: unlines rest

def octetText (b : UInt8) : Text := Nat.toDigits 10 b.toNat

def ipText (ip : Ipv4Addr) : Text :=
  octetText ip.a ++ '.' :: octetText ip.b ++ '.' :: octetText ip.c ++ '.' :: octetText ip.d

def rowText (e : HostEntry) : Text :=
  ipText e.ip ++ '\t' :: [' '].intercalate (e.hostnames.map String.toList)

/-- The entries that get a line. -/
def rowsOf (entries : List HostEntry) : List HostEntry := entries.filter fun e => !e.hostnames.isEmpty

def renderBlock (entries : List HostEntry) : Text :=
  if rowsOf entries = [] then []
  else unlines (beginMarker :: ((rowsOf entries).map rowText ++ [endMarker]))

/-- The lines outside of blocks. -/
def outsideBlocks (inside : Bool) : List Text → List Text
  | [] => []
  | line :: rest =>
    if !inside && trim line == beginMarker then outsideBlocks true rest
    else if inside then outsideBlocks (trim line != endMarker) rest
    else line :: outsideBlocks false rest

def stripBlock (existing : Text) : Text :=
  let out := outsideBlocks false (lines existing)
  unlines (out.reverse.dropWhile fun line => trim line == []).reverse

def upsertBlock (existing : Text) (entries : List HostEntry) : Text :=
  let base := stripBlock existing
  let block := renderBlock entries
  if block = [] then base
  else if base = [] then block
  else base ++ '\n' :: block

def hasBlock (existing : Text) : Bool := (lines existing).any fun line => trim line == beginMarker

/-- Up to three decimal digits, without leading zeros. -/
def parseOctet (digits : Text) : Option UInt8 :=
  let value := Nat.ofDigitChars 10 digits 0
  if digits ≠ [] ∧ digits.length ≤ 3 ∧ digits.all Char.isDigit ∧
      ¬(digits.head? = some '0' ∧ 1 < digits.length) ∧ value ≤ 255 then some (UInt8.ofNat value)
  else none

def parseIpv4 (token : Text) : Option Ipv4Addr :=
  match (token.splitOn '.').map parseOctet with
  | [some a, some b, some c, some d] => some ⟨a, b, c, d⟩
  | _ => none

def ipsOfBlock (inside : Bool) : List Text → List Ipv4Addr
  | [] => []
  | line :: rest =>
    let t := trim line
    if !inside then ipsOfBlock (t == beginMarker) rest
    else if t = endMarker then []
    else
      match parseIpv4 (t.takeWhile fun c => !isWhitespace c) with
      | some ip => ip :: ipsOfBlock true rest
      | none => ipsOfBlock true rest

/-- The addresses of the first block. -/
def blockIps (existing : Text) : List Ipv4Addr := ipsOfBlock false (lines existing)

/-! ### The lines of a rendered block -/

theorem linesFrom_append {line l : Text} (hl : '\n' ∉ l) (rest : Text) :
    linesFrom line (l ++ '\n' :: rest) = stripCr (line ++ l) :: linesFrom [] rest := by
  induction l generalizing line with
  | nil => simp [linesFrom]
  | cons c l ih =>
    have hc : c ≠ '\n' := fun he => hl (he ▸ List.mem_cons_self)
    rw [List.cons_append, linesFrom, if_neg hc, ih fun hmem => hl (List.mem_cons_of_mem c hmem)]
    rw [List.append_assoc, List.singleton_append]

theorem stripCr_of_notMem {line : Text} (h : '\r' ∉ line) : stripCr line = line := by
  unfold stripCr
  split
  · rename_i hlast
    exact absurd (List.mem_of_getLast? hlast) h
  · rfl

/-- Text that is written line by line is read back line by line. -/
theorem lines_unlines {ls : List Text} (h : ∀ l ∈ ls, '\n' ∉ l ∧ '\r' ∉ l) : lines (unlines ls) = ls := by
  induction ls with
  | nil => rfl
  | cons l ls ih =>
    obtain ⟨hl, hls⟩ := List.forall_mem_cons.mp h
    rw [lines, unlines, linesFrom_append hl.1, List.nil_append, stripCr_of_notMem hl.2]
    exact congrArg (l :: ·) (ih hls)

theorem mem_trim {c : Char} {t : Text} (h : c ∈ trim t) : c ∈ t := by
  have hdrop := (List.dropWhile_sublist _).subset (List.mem_reverse.mp h)
  exact (List.dropWhile_sublist _).subset (List.mem_reverse.mp hdrop)

/-- The characters of a row whose names are valid. -/
def isRowChar (c : Char) : Bool := c.isLower || c.isDigit || c == '-' || c == '.' || c == '\t' || c == ' '

theorem isRowChar_of_mem_hostname {h : String} (hv : isValidHostname h) {c : Char} (hc : c ∈ h.toList) :
    isRowChar c := by
  have hsplit : ['.'].intercalate (h.toList.splitOn '.') = h.toList := List.intercalate_splitOn '.'
  rw [← hsplit] at hc
  rcases ListCuts.mem_intercalate hc with hdot | ⟨label, hlabel, hmem⟩
  · rw [List.mem_singleton.mp hdot]
    decide
  · have hall : (h.toList.splitOn '.').all isValidLabel := by
      simp only [isValidHostname, Bool.and_eq_true] at hv
      exact hv.2
    have hvalid := List.all_eq_true.mp hall label hlabel
    simp only [isValidLabel, Bool.and_eq_true] at hvalid
    have hchar := List.all_eq_true.mp hvalid.2 c hmem
    simp only [Bool.or_eq_true] at hchar
    simp only [isRowChar, Bool.or_eq_true]
    tauto

theorem isRowChar_of_mem_octetText {b : UInt8} {c : Char} (hc : c ∈ octetText b) : isRowChar c := by
  have hdigit : c.isDigit := Nat.isDigit_of_mem_toDigits (by decide) (by decide) hc
  simp [isRowChar, hdigit]

theorem isRowChar_of_mem_rowText {e : HostEntry} (hv : ∀ h ∈ e.hostnames, isValidHostname h) {c : Char}
    (hc : c ∈ rowText e) : isRowChar c := by
  simp only [rowText, ipText, List.cons_append, List.append_assoc, List.mem_append, List.mem_cons] at hc
  rcases hc with ha | rfl | hb | rfl | hc | rfl | hd | rfl | hnames
  · exact isRowChar_of_mem_octetText ha
  · decide
  · exact isRowChar_of_mem_octetText hb
  · decide
  · exact isRowChar_of_mem_octetText hc
  · decide
  · exact isRowChar_of_mem_octetText hd
  · decide
  · rcases ListCuts.mem_intercalate hnames with hblank | ⟨name, hname, hmem⟩
    · rw [List.mem_singleton.mp hblank]
      decide
    · obtain ⟨h, hh, rfl⟩ := List.mem_map.mp hname
      exact isRowChar_of_mem_hostname (hv h hh) hmem

/-- All names of the entries pass the hostname check. -/
def NamesValid (entries : List HostEntry) : Prop := ∀ e ∈ entries, ∀ h ∈ e.hostnames, isValidHostname h

variable {entries : List HostEntry}

theorem isRowChar_of_mem_row (hv : NamesValid entries) {row : Text} (hrow : row ∈ (rowsOf entries).map rowText)
    {c : Char} (hc : c ∈ row) : isRowChar c := by
  obtain ⟨e, he, rfl⟩ := List.mem_map.mp hrow
  exact isRowChar_of_mem_rowText (hv e (List.mem_of_mem_filter he)) hc

theorem notMem_row (hv : NamesValid entries) {row : Text} (hrow : row ∈ (rowsOf entries).map rowText) {c : Char}
    (hc : isRowChar c = false) : c ∉ row := by
  intro hmem
  rw [isRowChar_of_mem_row hv hrow hmem] at hc
  cases hc

/-- One begin line, one line for each entry with names, one end line. -/
theorem lines_renderBlock (hv : NamesValid entries) (hrows : rowsOf entries ≠ []) :
    lines (renderBlock entries) = beginMarker :: ((rowsOf entries).map rowText ++ [endMarker]) := by
  rw [renderBlock, if_neg hrows]
  apply lines_unlines
  refine List.forall_mem_cons.mpr ⟨by decide, List.forall_mem_append.mpr ⟨fun row hrow => ?_, ?_⟩⟩
  · exact ⟨notMem_row hv hrow (by decide), notMem_row hv hrow (by decide)⟩
  · exact List.forall_mem_singleton.mpr (by decide)

/-- No row reads as a sentinel. -/
theorem countP_rows (hv : NamesValid entries) {marker : Text} (hmarker : '#' ∈ marker) :
    ((rowsOf entries).map rowText).countP (fun line => trim line == marker) = 0 := by
  rw [List.countP_eq_zero]
  intro row hrow heq
  have htrim : trim row = marker := by simpa using heq
  exact notMem_row hv hrow (by decide) (mem_trim (htrim ▸ hmarker))

theorem one_begin_line (hv : NamesValid entries) (hrows : rowsOf entries ≠ []) :
    (lines (renderBlock entries)).countP (fun line => trim line == beginMarker) = 1 := by
  rw [lines_renderBlock hv hrows, List.countP_cons, List.countP_append, countP_rows hv (by decide)]
  decide

theorem one_end_line (hv : NamesValid entries) (hrows : rowsOf entries ≠ []) :
    (lines (renderBlock entries)).countP (fun line => trim line == endMarker) = 1 := by
  rw [lines_renderBlock hv hrows, List.countP_cons, List.countP_append, countP_rows hv (by decide)]
  decide

end FerrisScope.HostsFile
