import FerrisScope.AsciiCase
import FerrisScope.CronFields
import FerrisScope.FixedWidthText
import FerrisScope.JsonText
import FerrisScope.TextSearch

/-!
# Printer columns of custom resources

Each column has a path whose value is shown in its cell. The text of an array or an object is cut after 64 bytes. A cut
within a character ends the task that projects the rows.
-/

namespace FerrisScope.PrinterColumns
open HostsFile (Text trim)
open Utf8Slices CharacterBoundaries TextSearch
open Json hiding find
open CronFields (isDigit ofDigits)

/-- A slice that begins or ends within a character. -/
inductive Panic where
  | insideCharacter
  deriving DecidableEq, Repr

def orPanic {α : Type} : Option α → Except Panic α
  | some a => .ok a
  | none => .error .insideCharacter

structure DiscoveredPrinterColumn where
  name : Text
  jsonPath : Text
  type_ : String
  deriving DecidableEq, Repr

/-- The time is the text in which it is served and shown. -/
structure ObjectMeta where
  name : Option String
  namespace_ : Option String
  creationTimestamp : Option String
  others : Fields String

structure DynamicObject where
  apiVersion : Option String
  kind : Option String
  metadata : ObjectMeta
  data : Json String

/-! ## Paths -/

def isNameChar (c : Char) : Bool := c.isAlphanum || c = '_' || c = '-'

/-- The indices in brackets, and what follows them. Every index takes a part of the text. -/
def parseIndices : ℕ → Text → Except Panic (Option (List Text × Text))
  | n + 1, '[' :: stripped =>
      match find [']'] stripped with
      | none => .ok none
      | some close => do
          let inner ← orPanic (sliceTo stripped close)
          if inner.all isDigit && !inner.isEmpty then
            let rest ← orPanic (sliceFrom stripped (close + 1))
            let more ← parseIndices n rest
            return more.map fun p => (inner :: p.1, p.2)
          else return none
  | _, rest => .ok (some ([], rest))

def parseSegment (raw : Text) : Except Panic (Option (List Text)) := do
  if raw = [] then return none
  let headEnd := (find ['['] raw).getD (byteLen raw)
  let head ← orPanic (sliceTo raw headEnd)
  if head = [] ∨ head.all isNameChar = false then return none
  let rest ← orPanic (sliceFrom raw headEnd)
  match ← parseIndices rest.length rest with
  | some (indices, []) => return some (head :: indices)
  | _ => return none

def parseSegments : List Text → Except Panic (Option (List Text))
  | [] => .ok (some [])
  | raw :: raws => do
      match ← parseSegment raw with
      | none => return none
      | some segs => return (← parseSegments raws).map (segs ++ ·)

def stripDot (s : Text) : Text := if s.head? = some '.' then s.tail else s

def parseJsonpathSegments (path : Text) : Except Panic (Option (List Text)) :=
  let s := stripDot (trim path)
  if s = [] then .ok none else parseSegments (s.splitOn '.')

/-- A number in decimal with an optional plus sign. One that a machine word does not hold is the place of no element. -/
def parseUsize (seg : Text) : Option ℕ :=
  let digits := if seg.head? = some '+' then seg.tail else seg
  if digits.isEmpty || !digits.all isDigit then none else some (ofDigits digits)

def walkStep (cur : Json String) (seg : Text) : Option (Json String) :=
  match cur with
  | .obj fs => Json.find (String.ofList seg) fs
  | .arr xs => (parseUsize seg).bind fun i => xs[i]?
  | _ => none

def walkJsonpath : Json String → List Text → Option (Json String)
  | root, [] => some root
  | root, seg :: segs => (walkStep root seg).bind fun cur => walkJsonpath cur segs

/-! ## Cells -/

def truncate (s : Text) (n : ℕ) : Except Panic Text := if byteLen s < n then .ok s else orPanic (sliceTo s n)

def coercePrinterValue (v : Option (Json String)) (ty : String) : Except Panic (Json String) :=
  match v with
  | none => .ok .null
  | some .null => .ok .null
  | some (.str s) => .ok (.str s)
  | some (.bool b) => .ok (.str (if b then "true" else "false"))
  | some (.num n) => .ok (if ty = "integer" ∨ ty = "number" then .num n else .str n)
  | some other =>
      let s := text other
      if 64 < byteLen s then (truncate s 64).map fun s => .str (String.ofList (s ++ ['…']))
      else .ok (.str (String.ofList s))

/-- A column that is projected: the name of its slot, the segments of its path and its type. -/
structure PrinterSlot where
  slot : String
  segments : List Text
  type_ : String
  deriving DecidableEq, Repr

structure DynamicProjector where
  printer : List PrinterSlot

/-- The table shows the age in a column of its own. -/
def isAgeColumn (c : DiscoveredPrinterColumn) : Bool :=
  AsciiCase.eqIgnoreAsciiCase (encode c.name) (encode "age".toList) && decide (c.type_ = "date")

def slotName (idx : ℕ) : String := "pc" ++ String.ofList (Nat.toDigits 10 idx)

def printerSlot (c : DiscoveredPrinterColumn) (idx : ℕ) : Except Panic (Option PrinterSlot) :=
  if isAgeColumn c then .ok none
  else (parseJsonpathSegments c.jsonPath).map (Option.map fun segs => ⟨slotName idx, segs, c.type_⟩)

/-- The columns from this index on. -/
def printerSlots : List DiscoveredPrinterColumn → ℕ → Except Panic (List PrinterSlot)
  | [], _ => .ok []
  | c :: cs, idx => do
      let slot ← printerSlot c idx
      return slot.toList ++ (← printerSlots cs (idx + 1))

def DynamicProjector.new (printer : List DiscoveredPrinterColumn) : Except Panic DynamicProjector :=
  (printerSlots printer 0).map .mk

def orNull (s : Option String) : Json String := s.elim .null .str

def metaFields (metadata : ObjectMeta) : Fields String :=
  mapInsert "creation_timestamp" (orNull metadata.creationTimestamp)
    (mapInsert "namespace" (orNull metadata.namespace_) (mapInsert "name" (.str (metadata.name.getD "")) []))

def PrinterSlot.cell (s : PrinterSlot) (obj : DynamicObject) : Except Panic (Json String) :=
  coercePrinterValue (walkJsonpath obj.data s.segments) s.type_

def insertCells (obj : DynamicObject) : List PrinterSlot → Fields String → Except Panic (Fields String)
  | [], out => .ok out
  | s :: slots, out => do
      let cell ← s.cell obj
      insertCells obj slots (mapInsert s.slot cell out)

def DynamicProjector.project (p : DynamicProjector) (obj : DynamicObject) : Except Panic (Json String) :=
  (insertCells obj p.printer (metaFields obj.metadata)).map .obj

/-! ## Rows that can be projected -/

def isCompound : Json String → Bool
  | .arr _ => true
  | .obj _ => true
  | _ => false

/-- The text of a value, or a proper prefix of it and an ellipsis. -/
def Renders (v : Json String) (cell : Text) : Prop :=
  cell = text v ∨ ∃ front, front <+: text v ∧ front ≠ text v ∧ cell = front ++ ['…']

/-- The projector is built and projects the object, and shows arrays and objects as their text. -/
structure Projectable (cols : List DiscoveredPrinterColumn) (obj : DynamicObject) : Prop where
  builds : ∃ p, DynamicProjector.new cols = .ok p
  projects : ∀ p, DynamicProjector.new cols = .ok p → ∃ row, p.project obj = .ok row
  cells : ∀ p row, DynamicProjector.new cols = .ok p → p.project obj = .ok row → ∀ s ∈ p.printer, ∀ v,
    walkJsonpath obj.data s.segments = some v → isCompound v = true →
      ∃ cell, row.get? s.slot = some (.str cell) ∧ Renders v cell.toList

/-- The text of an array or an object is short, or the cut is between two characters. -/
def CutFits (v : Json String) : Prop := isCompound v = true → 64 < byteLen (text v) → isCharBoundary (text v) 64 = true

/-! ## Slices of a path -/

section Paths

theorem find_of_notMem {c : Char} {t : Text} (h : c ∉ t) : find [c] t = none := by
  induction t with
  | nil => rfl
  | cons d t ih =>
    obtain ⟨hd, ht⟩ := not_or.mp (List.mem_cons.not.mp h)
    rw [find, if_neg (by simp [List.isPrefixOf, hd]), ih ht, Option.map_none]

theorem find_append {c : Char} {u : Text} (h : c ∉ u) (w : Text) : find [c] (u ++ c :: w) = some (byteLen u) := by
  induction u with
  | nil => simp [find, byteLen_nil]
  | cons d u ih =>
    obtain ⟨hd, hu⟩ := not_or.mp (List.mem_cons.not.mp h)
    rw [List.cons_append, find, if_neg (by simp [List.isPrefixOf, hd]), ih hu, Option.map_some, byteLen_cons]

def isIndex (inner : Text) : Bool := inner.all isDigit && !inner.isEmpty

variable {n : ℕ}

theorem parseIndices_other {rest : Text} (h : rest.head? ≠ some '[') : parseIndices n rest = .ok (some ([], rest)) := by
  rw [parseIndices.eq_def]
  split
  · exact absurd rfl h
  · rfl

theorem parseIndices_unclosed {stripped : Text} (h : ']' ∉ stripped) :
    parseIndices (n + 1) ('[' :: stripped) = .ok none := by
  rw [parseIndices, find_of_notMem h]

/-- The slices before and behind a closing bracket are between characters. -/
theorem parseIndices_bracket {inner : Text} (h : ']' ∉ inner) (rest : Text) :
    parseIndices (n + 1) ('[' :: (inner ++ ']' :: rest)) =
      if isIndex inner then (parseIndices n rest).map (Option.map fun p => (inner :: p.1, p.2)) else .ok none := by
  have hrest : sliceFrom (inner ++ ']' :: rest) (byteLen inner + 1) = some rest := by
    have hslice := sliceFrom_append (inner ++ [']']) rest
    rwa [List.append_assoc, List.singleton_append, byteLen_append] at hslice
  rw [parseIndices, find_append h]
  dsimp only
  rw [sliceTo_append, hrest]
  change (if isIndex inner = true then parseIndices n rest >>= fun more => pure (more.map fun p => (inner :: p.1, p.2))
    else pure none) = _
  split
  · cases parseIndices n rest <;> rfl
  · rfl

theorem parseIndices_ok (n : ℕ) (rest : Text) : ∃ r, parseIndices n rest = .ok r := by
  induction n generalizing rest with
  | zero =>
    rw [parseIndices.eq_def]
    exact ⟨_, rfl⟩
  | succ n ih =>
    by_cases hhead : rest.head? = some '['
    · obtain ⟨stripped, rfl⟩ := List.head?_eq_some_iff.mp hhead
      by_cases hmem : ']' ∈ stripped
      · obtain ⟨inner, rest, rfl, hinner⟩ := List.eq_append_cons_of_mem hmem
        obtain ⟨r, hr⟩ := ih rest
        rw [parseIndices_bracket hinner, hr]
        split
        · exact ⟨_, rfl⟩
        · exact ⟨_, rfl⟩
      · exact ⟨_, parseIndices_unclosed hmem⟩
    · exact ⟨_, parseIndices_other hhead⟩

/-- A part of a path, with its name cut off before the first bracket. -/
theorem parseSegment_append {head rest : Text} (hhead : '[' ∉ head) (hrest : rest = [] ∨ rest.head? = some '[') :
    parseSegment (head ++ rest) = if head = [] ∨ head.all isNameChar = false then .ok none
      else (parseIndices rest.length rest).map fun r => r.bind fun p => if p.2 = [] then some (head :: p.1) else none := by
  have hend : (find ['['] (head ++ rest)).getD (byteLen (head ++ rest)) = byteLen head := by
    rcases hrest with rfl | hsome
    · rw [List.append_nil, find_of_notMem hhead, Option.getD_none]
    · obtain ⟨tail, rfl⟩ := List.head?_eq_some_iff.mp hsome
      rw [find_append hhead, Option.getD_some]
  by_cases hraw : head ++ rest = []
  · obtain ⟨rfl, rfl⟩ := List.append_eq_nil_iff.mp hraw
    rfl
  · rw [parseSegment, if_neg hraw]
    dsimp only
    rw [hend, sliceTo_append, sliceFrom_append]
    change (if head = [] ∨ head.all isNameChar = false then pure none else _) = _
    split
    · rfl
    · obtain ⟨r, hr⟩ := parseIndices_ok rest.length rest
      change (parseIndices rest.length rest >>= fun r => match r with
        | some (indices, []) => pure (some (head :: indices))
        | _ => pure none) = _
      rw [hr]
      match r with
      | none => rfl
      | some (indices, []) => rfl
      | some (indices, c :: tail) => rfl

/-- The name of a part, and the brackets behind it. -/
theorem split_at_bracket (raw : Text) :
    ∃ head rest, raw = head ++ rest ∧ '[' ∉ head ∧ (rest = [] ∨ rest.head? = some '[') := by
  by_cases hmem : '[' ∈ raw
  · obtain ⟨head, tail, rfl, hhead⟩ := List.eq_append_cons_of_mem hmem
    exact ⟨head, '[' :: tail, rfl, hhead, Or.inr rfl⟩
  · exact ⟨raw, [], (List.append_nil raw).symm, hmem, Or.inl rfl⟩

theorem parseSegment_ok (raw : Text) : ∃ r, parseSegment raw = .ok r := by
  obtain ⟨head, rest, rfl, hhead, hrest⟩ := split_at_bracket raw
  obtain ⟨r, hr⟩ := parseIndices_ok rest.length rest
  rw [parseSegment_append hhead hrest, hr]
  split
  · exact ⟨_, rfl⟩
  · exact ⟨_, rfl⟩

theorem parseSegments_cons (raw : Text) (raws : List Text) : parseSegments (raw :: raws) =
    (parseSegment raw).bind fun r => r.elim (.ok none) fun segs => (parseSegments raws).map (Option.map (segs ++ ·)) := by
  obtain ⟨r, hr⟩ := parseSegment_ok raw
  rw [parseSegments, hr]
  cases r with
  | none => rfl
  | some segs =>
    change (parseSegments raws >>= fun more => pure (more.map (segs ++ ·))) = (parseSegments raws).map _
    cases parseSegments raws <;> rfl

theorem parseSegments_ok (raws : List Text) : ∃ r, parseSegments raws = .ok r := by
  induction raws with
  | nil => exact ⟨_, rfl⟩
  | cons raw raws ih =>
    obtain ⟨r, hr⟩ := parseSegment_ok raw
    obtain ⟨rs, hrs⟩ := ih
    rw [parseSegments_cons, hr, hrs]
    cases r with
    | none => exact ⟨_, rfl⟩
    | some segs => exact ⟨_, rfl⟩

theorem parseJsonpathSegments_ok (path : Text) : ∃ r, parseJsonpathSegments path = .ok r := by
  rw [parseJsonpathSegments]
  split
  · exact ⟨_, rfl⟩
  · exact parseSegments_ok _

end Paths

/-! ## Columns of a projector -/

section Slots

variable {cols : List DiscoveredPrinterColumn} {slots : List PrinterSlot} {idx : ℕ}

/-- A column has a slot unless it is the age or its path is none that can be read. -/
def IsSlot (c : DiscoveredPrinterColumn) (idx : ℕ) (s : PrinterSlot) : Prop :=
  isAgeColumn c = false ∧ parseJsonpathSegments c.jsonPath = .ok (some s.segments) ∧ s.slot = slotName idx ∧
    s.type_ = c.type_

theorem printerSlot_spec (c : DiscoveredPrinterColumn) (idx : ℕ) :
    ∃ r, printerSlot c idx = .ok r ∧ ∀ s, r = some s ↔ IsSlot c idx s := by
  obtain ⟨r, hr⟩ := parseJsonpathSegments_ok c.jsonPath
  rw [printerSlot]
  split
  · next hage => exact ⟨none, rfl, fun s => by simp [IsSlot, hage]⟩
  · next hage =>
    rw [hr]
    refine ⟨_, rfl, fun s => ?_⟩
    obtain ⟨slot, segments, type_⟩ := s
    rw [IsSlot, hr]
    cases r with
    | none => simp
    | some segs =>
      simp only [Bool.not_eq_true] at hage
      simp only [Option.map_some, Option.some.injEq, PrinterSlot.mk.injEq, Except.ok.injEq, hage, true_and]
      constructor
      · rintro ⟨rfl, rfl, rfl⟩
        exact ⟨rfl, rfl, rfl⟩
      · rintro ⟨rfl, rfl, rfl⟩
        exact ⟨rfl, rfl, rfl⟩

theorem slotName_inj {i j : ℕ} (h : slotName i = slotName j) : i = j := by
  rw [slotName, slotName, String.append_right_inj, String.ofList_inj] at h
  exact FixedWidthText.toDigits_inj h

theorem printerSlots_spec (cols : List DiscoveredPrinterColumn) (idx : ℕ) :
    ∃ slots, printerSlots cols idx = .ok slots ∧
      (∀ s, s ∈ slots ↔ ∃ i c, cols[i]? = some c ∧ IsSlot c (idx + i) s) ∧ (slots.map (·.slot)).Nodup := by
  induction cols generalizing idx with
  | nil => exact ⟨[], rfl, by simp, List.nodup_nil⟩
  | cons c cols ih =>
    obtain ⟨r, hr, hslot⟩ := printerSlot_spec c idx
    obtain ⟨slots, hslots, hmem, hnodup⟩ := ih (idx + 1)
    refine ⟨r.toList ++ slots, ?_, fun s => ?_, ?_⟩
    · rw [printerSlots, hr, hslots]
      rfl
    · rw [List.mem_append, Option.mem_toList, hslot, hmem]
      constructor
      · rintro (hs | ⟨i, d, hd, hs⟩)
        · exact ⟨0, c, rfl, hs⟩
        · exact ⟨i + 1, d, hd, by rwa [Nat.add_comm i 1, ← Nat.add_assoc]⟩
      · rintro ⟨i, d, hd, hs⟩
        cases i with
        | zero =>
          obtain rfl := Option.some_inj.mp hd
          exact Or.inl hs
        | succ i => exact Or.inr ⟨i, d, hd, by rwa [Nat.add_assoc, Nat.add_comm 1 i]⟩
    · cases r with
      | none => exact hnodup
      | some s =>
        refine List.nodup_cons.mpr ⟨fun hin => ?_, hnodup⟩
        obtain ⟨s', hs', heq⟩ := List.mem_map.mp hin
        obtain ⟨i, d, -, -, -, hname', -⟩ := (hmem s').mp hs'
        obtain ⟨-, -, hname, -⟩ := (hslot s).mp rfl
        have hidx := slotName_inj (hname'.symm.trans (heq.trans hname))
        omega

theorem new_spec (cols : List DiscoveredPrinterColumn) : ∃ p, DynamicProjector.new cols = .ok p ∧
    (∀ s, s ∈ p.printer ↔ ∃ i c, cols[i]? = some c ∧ IsSlot c i s) ∧ (p.printer.map (·.slot)).Nodup := by
  obtain ⟨slots, hslots, hmem, hnodup⟩ := printerSlots_spec cols 0
  refine ⟨⟨slots⟩, by rw [DynamicProjector.new, hslots]; rfl, fun s => ?_, hnodup⟩
  rw [hmem]
  simp only [Nat.zero_add]

end Slots

/-! ## Cells of a row -/

section Rows

variable {obj : DynamicObject} {slots : List PrinterSlot}

theorem orPanic_eq_ok {α : Type} {o : Option α} {a : α} : orPanic o = .ok a ↔ o = some a := by
  cases o <;> simp [orPanic]

theorem truncate_eq_ok {s front : Text} {n : ℕ} (hlen : n < byteLen s) :
    truncate s n = .ok front ↔ ∃ back, s = front ++ back ∧ byteLen front = n := by
  rw [truncate, if_neg (Nat.not_lt.mpr (Nat.le_of_lt hlen)), orPanic_eq_ok, sliceTo_eq_some]

theorem coerce_compound {v : Json String} (h : isCompound v = true) (ty : String) :
    coercePrinterValue (some v) ty = if 64 < byteLen (text v) then
      (truncate (text v) 64).map fun s => .str (String.ofList (s ++ ['…'])) else .ok (.str (String.ofList (text v))) := by
  cases v with
  | arr xs => rfl
  | obj fs => rfl
  | null => cases h
  | bool b => cases h
  | num n => cases h
  | str s => cases h

/-- A value has a cell unless its text is cut within a character. -/
theorem coerce_ok_iff (v : Json String) (ty : String) :
    (∃ cell, coercePrinterValue (some v) ty = .ok cell) ↔ CutFits v := by
  by_cases hv : isCompound v = true
  · rw [coerce_compound hv]
    split
    · next hlen =>
      constructor
      · rintro ⟨cell, hcell⟩ - -
        cases htruncate : truncate (text v) 64 with
        | error e =>
          rw [htruncate] at hcell
          cases hcell
        | ok front =>
          obtain ⟨back, heq, hfront⟩ := (truncate_eq_ok hlen).mp htruncate
          exact isCharBoundary_iff.mpr ⟨front, back, heq, hfront⟩
      · intro h
        obtain ⟨front, back, heq, hfront⟩ := isCharBoundary_iff.mp (h hv hlen)
        rw [(truncate_eq_ok hlen).mpr ⟨back, heq, hfront⟩]
        exact ⟨_, rfl⟩
    · next hlen => exact iff_of_true ⟨_, rfl⟩ fun _ h => absurd h hlen
  · refine iff_of_true ?_ fun h => absurd h hv
    cases v with
    | arr xs => exact absurd rfl hv
    | obj fs => exact absurd rfl hv
    | null => exact ⟨_, rfl⟩
    | bool b => exact ⟨_, rfl⟩
    | num n => exact ⟨_, rfl⟩
    | str s => exact ⟨_, rfl⟩

theorem coerce_renders {v cell : Json String} {ty : String} (hv : isCompound v = true)
    (h : coercePrinterValue (some v) ty = .ok cell) : ∃ shown, cell = .str shown ∧ Renders v shown.toList := by
  rw [coerce_compound hv] at h
  split at h
  · next hlen =>
    cases htruncate : truncate (text v) 64 with
    | error e =>
      rw [htruncate] at h
      cases h
    | ok front =>
      obtain ⟨back, heq, hfront⟩ := (truncate_eq_ok hlen).mp htruncate
      rw [htruncate] at h
      cases h
      refine ⟨_, rfl, Or.inr ⟨front, ⟨back, heq.symm⟩, fun hwhole => ?_, String.toList_ofList⟩⟩
      rw [← hwhole, hfront] at hlen
      exact Nat.lt_irrefl _ hlen
  · cases h
    exact ⟨_, rfl, Or.inl String.toList_ofList⟩

theorem insertCells_cons {s : PrinterSlot} {out out' : Fields String} :
    insertCells obj (s :: slots) out = .ok out' ↔
      ∃ cell, s.cell obj = .ok cell ∧ insertCells obj slots (mapInsert s.slot cell out) = .ok out' := by
  rw [insertCells]
  cases s.cell obj with
  | error e =>
    refine iff_of_false (fun h => by cases h) ?_
    rintro ⟨cell, hcell, -⟩
    cases hcell
  | ok cell =>
    constructor
    · exact fun h => ⟨cell, rfl, h⟩
    · rintro ⟨_, hcell, h⟩
      cases hcell
      exact h

theorem insertCells_ok_iff {out : Fields String} : (∃ out', insertCells obj slots out = .ok out') ↔
    ∀ s ∈ slots, ∃ cell, s.cell obj = .ok cell := by
  induction slots generalizing out with
  | nil => simp [insertCells]
  | cons s slots ih =>
    rw [List.forall_mem_cons]
    constructor
    · rintro ⟨out', hout⟩
      obtain ⟨cell, hcell, hrest⟩ := insertCells_cons.mp hout
      exact ⟨⟨cell, hcell⟩, ih.mp ⟨out', hrest⟩⟩
    · rintro ⟨⟨cell, hcell⟩, hslots⟩
      obtain ⟨out', hrest⟩ := ih.mpr hslots
      exact ⟨out', insertCells_cons.mpr ⟨cell, hcell, hrest⟩⟩

theorem find_insertCells_of_notMem {out out' : Fields String} {k : String} (hk : k ∉ slots.map (·.slot))
    (h : insertCells obj slots out = .ok out') : Json.find k out' = Json.find k out := by
  induction slots generalizing out with
  | nil =>
    cases h
    rfl
  | cons s slots ih =>
    rw [List.map_cons, List.mem_cons, not_or] at hk
    obtain ⟨cell, -, hrest⟩ := insertCells_cons.mp h
    rw [ih hk.2 hrest, find_mapInsert_of_ne hk.1]

/-- Each slot of a row has the cell of its column. -/
theorem find_insertCells {out out' : Fields String} (hnodup : (slots.map (·.slot)).Nodup)
    (h : insertCells obj slots out = .ok out') {s : PrinterSlot} (hs : s ∈ slots) :
    ∃ cell, s.cell obj = .ok cell ∧ Json.find s.slot out' = some cell := by
  induction slots generalizing out with
  | nil => cases hs
  | cons t slots ih =>
    obtain ⟨hnotMem, hnodup⟩ := List.nodup_cons.mp hnodup
    obtain ⟨cell, hcell, hrest⟩ := insertCells_cons.mp h
    rcases List.mem_cons.mp hs with rfl | hs
    · exact ⟨cell, hcell, by rw [find_insertCells_of_notMem hnotMem hrest, find_mapInsert_self]⟩
    · exact ih hnodup hrest hs

theorem project_eq_ok {p : DynamicProjector} {row : Json String} : p.project obj = .ok row ↔
    ∃ out, insertCells obj p.printer (metaFields obj.metadata) = .ok out ∧ row = .obj out := by
  rw [DynamicProjector.project]
  cases insertCells obj p.printer (metaFields obj.metadata) with
  | error e => simp [Except.map]
  | ok out => simp [Except.map, eq_comm]

/-- A row that is projected has the cell of each column. -/
theorem get?_project {p : DynamicProjector} {row : Json String} (hnodup : (p.printer.map (·.slot)).Nodup)
    (h : p.project obj = .ok row) {s : PrinterSlot} (hs : s ∈ p.printer) :
    ∃ cell, s.cell obj = .ok cell ∧ row.get? s.slot = some cell := by
  obtain ⟨out, hout, rfl⟩ := project_eq_ok.mp h
  exact find_insertCells hnodup hout hs

theorem cell_ok_iff (s : PrinterSlot) : (∃ cell, s.cell obj = .ok cell) ↔
    ∀ v, walkJsonpath obj.data s.segments = some v → CutFits v := by
  rw [PrinterSlot.cell]
  cases hwalk : walkJsonpath obj.data s.segments with
  | none => exact iff_of_true ⟨_, rfl⟩ fun v h => by cases h
  | some v =>
    rw [coerce_ok_iff]
    constructor
    · rintro h w hw
      cases hw
      exact h
    · exact fun h => h v rfl

/-- Objects can be projected exactly when no column shows a text that is cut within a character. -/
theorem projectable_iff (cols : List DiscoveredPrinterColumn) (obj : DynamicObject) : Projectable cols obj ↔
    ∀ c ∈ cols, isAgeColumn c = false → ∀ segs, parseJsonpathSegments c.jsonPath = .ok (some segs) →
      ∀ v, walkJsonpath obj.data segs = some v → CutFits v := by
  obtain ⟨p, hp, hmem, hnodup⟩ := new_spec cols
  have hslots : (∀ s ∈ p.printer, ∃ cell, s.cell obj = .ok cell) ↔ ∀ c ∈ cols, isAgeColumn c = false → ∀ segs,
      parseJsonpathSegments c.jsonPath = .ok (some segs) → ∀ v, walkJsonpath obj.data segs = some v → CutFits v := by
    simp only [cell_ok_iff]
    constructor
    · intro h c hc hage segs hsegs
      obtain ⟨i, hi⟩ := List.getElem?_of_mem hc
      exact h ⟨slotName i, segs, c.type_⟩ ((hmem _).mpr ⟨i, c, hi, hage, hsegs, rfl, rfl⟩)
    · intro h s hs
      obtain ⟨i, c, hi, hage, hsegs, -, -⟩ := (hmem s).mp hs
      exact h c (List.mem_of_getElem? hi) hage s.segments hsegs
  rw [← hslots]
  constructor
  · intro h
    obtain ⟨row, hrow⟩ := h.projects p hp
    obtain ⟨out, hout, -⟩ := project_eq_ok.mp hrow
    exact insertCells_ok_iff.mp ⟨out, hout⟩
  · intro h
    refine ⟨⟨p, hp⟩, fun p' hp' => ?_, fun p' row hp' hrow s hs v hv hcompound => ?_⟩
    · rw [hp] at hp'
      cases hp'
      obtain ⟨out, hout⟩ := insertCells_ok_iff.mpr h
      exact ⟨.obj out, project_eq_ok.mpr ⟨out, hout, rfl⟩⟩
    · rw [hp] at hp'
      cases hp'
      obtain ⟨cell, hcell, hget⟩ := get?_project hnodup hrow hs
      rw [PrinterSlot.cell, hv] at hcell
      obtain ⟨shown, rfl, hrenders⟩ := coerce_renders hcompound hcell
      exact ⟨shown, hget, hrenders⟩

/-- A list with one note, in which the bytes 63 and 64 are one character. -/
def noteData : Json String :=
  .obj [("spec", .obj [("notes", .arr [.str (String.ofList (List.replicate 61 'a' ++ ['é']))])])]

def noteColumn : DiscoveredPrinterColumn := ⟨"Notes".toList, ".spec.notes".toList, "string"⟩

theorem not_projectable_notes : ¬ Projectable [noteColumn] ⟨none, none, ⟨none, none, none, []⟩, noteData⟩ := by
  intro h
  have hnew : DynamicProjector.new [noteColumn] = .ok ⟨[⟨"pc0", ["spec".toList, "notes".toList], "string"⟩]⟩ := rfl
  obtain ⟨row, hrow⟩ := h.projects _ hnew
  have hpanic : (⟨[⟨"pc0", ["spec".toList, "notes".toList], "string"⟩]⟩ : DynamicProjector).project
      ⟨none, none, ⟨none, none, none, []⟩, noteData⟩ = .error .insideCharacter := rfl
  rw [hpanic] at hrow
  cases hrow

end Rows

end FerrisScope.PrinterColumns
