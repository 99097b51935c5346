import FerrisScope.PrinterColumns
import Mathlib.Data.List.Forall2

/-!
# The paths of printer columns

A path is names between dots, each with indices in brackets behind it. A name selects a member of an object and an index
an element of an array. The projector does not tell the two apart, and looks only into what is not metadata.
-/

namespace FerrisScope.PrinterPaths
open HostsFile (Text trim isWhitespace)
open PrinterColumns Json
open CronFields (isDigit ofDigits)

/-! ## Paths and what they select -/

structure Part where
  name : Text
  indices : List Text
  deriving DecidableEq, Repr

structure Part.Valid (p : Part) : Prop where
  nonempty : p.name ≠ []
  name : ∀ c ∈ p.name, isNameChar c = true
  indices : ∀ i ∈ p.indices, isIndex i = true

def bracket (i : Text) : Text := '[' :: (i ++ [']'])

def Part.text (p : Part) : Text := p.name ++ p.indices.flatMap bracket

def joined (parts : List Part) : Text := ['.'].intercalate (parts.map Part.text)

/-- The path has these parts, and perhaps a dot before them. -/
def IsPath (path : Text) (parts : List Part) : Prop :=
  parts ≠ [] ∧ (∀ p ∈ parts, p.Valid) ∧ (path = joined parts ∨ path = '.' :: joined parts)

inductive Step where
  | name (n : Text)
  | index (i : Text)
  deriving DecidableEq, Repr

def Part.steps (p : Part) : List Step := .name p.name :: p.indices.map .index

def stepsOf (parts : List Part) : List Step := parts.flatMap Part.steps

def Step.text : Step → Text
  | .name n => n
  | .index i => i

/-- A name selects a member of an object, an index an element of an array. -/
def select : Json String → Step → Option (Json String)
  | .obj fs, .name n => Json.find (String.ofList n) fs
  | .arr xs, .index i => xs[ofDigits i]?
  | _, _ => none

def descend : Json String → List Step → Option (Json String)
  | root, [] => some root
  | root, s :: steps => (select root s).bind fun cur => descend cur steps

/-! ## Objects as they are served -/

def optField (k : String) (v : Option String) : Fields String := (v.map fun s => (k, Json.str s)).toList

def ObjectMeta.served (m : ObjectMeta) : Json String :=
  .obj (optField "name" m.name ++ optField "namespace" m.namespace_ ++
    optField "creationTimestamp" m.creationTimestamp ++ m.others)

def members : Json String → Fields String
  | .obj fs => fs
  | _ => []

def reserved : List String := ["apiVersion", "kind", "metadata"]

/-- The whole object, with its type, its metadata and everything else. -/
def served (obj : DynamicObject) : Json String :=
  .obj (optField "apiVersion" obj.apiVersion ++ optField "kind" obj.kind ++
    ("metadata", ObjectMeta.served obj.metadata) :: members obj.data)

/-- What is held elsewhere is not in the data. -/
structure FromApi (obj : DynamicObject) : Prop where
  data : ∃ fs, obj.data = .obj fs
  elsewhere : ∀ k ∈ reserved, Json.find k (members obj.data) = none

/-- Exactly the paths have segments, and the cell of a path shows what it selects in the whole object. -/
structure ColumnDenotes (path : Text) (obj : DynamicObject) : Prop where
  none_iff : parseJsonpathSegments path = .ok none ↔ ¬ ∃ parts, IsPath path parts
  cell : ∀ cols idx c p, cols[idx]? = some c → c.jsonPath = path → isAgeColumn c = false →
    DynamicProjector.new cols = .ok p → ∀ parts, IsPath path parts → ∃ s ∈ p.printer, s.slot = slotName idx ∧
      s.cell obj = coercePrinterValue (descend (served obj) (stepsOf parts)) c.type_ ∧
      ∀ row, p.project obj = .ok row → ∃ cell, s.cell obj = .ok cell ∧ row.get? s.slot = some cell

/-! ## What goes wrong -/

/-- Behind a place where a name picks an element of an array, or an index a member of an object, there is this value. -/
inductive Misread : Json String → List Step → Json String → Prop
  | element {xs : List (Json String)} {n : Text} {cur v : Json String} {steps : List Step}
      (pick : parseUsize n = some (ofDigits n)) (place : xs[ofDigits n]? = some cur)
      (rest : walkJsonpath cur (steps.map Step.text) = some v) : Misread (.arr xs) (.name n :: steps) v
  | member {fs : Fields String} {i : Text} {cur v : Json String} {steps : List Step}
      (place : Json.find (String.ofList i) fs = some cur)
      (rest : walkJsonpath cur (steps.map Step.text) = some v) : Misread (.obj fs) (.index i :: steps) v
  | later {root cur v : Json String} {s : Step} {steps : List Step} (place : select root s = some cur)
      (rest : Misread cur steps v) : Misread root (s :: steps) v

/-- No blanks around the path, nothing in what is not looked into, and nothing where a step is misread. -/
structure Undisturbed (path : Text) (obj : DynamicObject) : Prop where
  blanks : ∀ parts, IsPath (trim path) parts → trim path = path
  elsewhere : ∀ p ps, IsPath path (p :: ps) → String.ofList p.name ∈ reserved →
    ∀ v, descend (served obj) (stepsOf (p :: ps)) = some v → v = .null
  misread : ∀ parts, IsPath path parts → ∀ v, Misread obj.data (stepsOf parts) v → v = .null

/-! ## Segments are the parts of a path -/

section Segments

variable {path raw rest : Text} {indices : List Text} {n : ℕ}

def Part.segments (p : Part) : List Text := p.name :: p.indices

theorem isIndex_digits {i : Text} (h : isIndex i = true) : i ≠ [] ∧ ∀ c ∈ i, isDigit c = true := by
  rw [isIndex, Bool.and_eq_true, List.all_eq_true] at h
  refine ⟨?_, h.1⟩
  rintro rfl
  exact absurd h.2 (by decide)

theorem closing_notMem {i : Text} (h : isIndex i = true) : ']' ∉ i := fun hmem =>
  absurd ((isIndex_digits h).2 _ hmem) (by decide)

theorem parseIndices_sound (h : parseIndices n rest = .ok (some (indices, []))) :
    (∀ i ∈ indices, isIndex i = true) ∧ rest = indices.flatMap bracket := by
  induction n generalizing rest indices with
  | zero =>
    rw [parseIndices.eq_def] at h
    cases h
    exact ⟨List.forall_mem_nil _, rfl⟩
  | succ n ih =>
    by_cases hhead : rest.head? = some '['
    · obtain ⟨stripped, rfl⟩ := List.head?_eq_some_iff.mp hhead
      by_cases hmem : ']' ∈ stripped
      · obtain ⟨inner, rest, rfl, hinner⟩ := List.eq_append_cons_of_mem hmem
        rw [parseIndices_bracket hinner] at h
        split at h
        · next hindex =>
          obtain ⟨r, hr⟩ := parseIndices_ok n rest
          rw [hr] at h
          cases r with
          | none => cases h
          | some p =>
            obtain ⟨more, tail⟩ := p
            cases h
            obtain ⟨hall, hrest⟩ := ih hr
            exact ⟨List.forall_mem_cons.mpr ⟨hindex, hall⟩, by simp [bracket, hrest]⟩
        · cases h
      · rw [parseIndices_unclosed hmem] at h
        cases h
    · rw [parseIndices_other hhead] at h
      cases h
      exact ⟨List.forall_mem_nil _, rfl⟩

theorem parseIndices_complete (h : ∀ i ∈ indices, isIndex i = true) (hn : (indices.flatMap bracket).length ≤ n) :
    parseIndices n (indices.flatMap bracket) = .ok (some (indices, [])) := by
  induction indices generalizing n with
  | nil => exact parseIndices_other (by simp)
  | cons i indices ih =>
    obtain ⟨hi, hindices⟩ := List.forall_mem_cons.mp h
    have htext : (i :: indices).flatMap bracket = '[' :: (i ++ ']' :: indices.flatMap bracket) := by simp [bracket]
    rw [htext] at hn ⊢
    cases n with
    | zero => simp at hn
    | succ n =>
      have hrest : (indices.flatMap bracket).length ≤ n := by
        simp only [List.length_cons, List.length_append] at hn
        omega
      rw [parseIndices_bracket (closing_notMem hi), if_pos hi, ih hindices hrest]
      rfl

theorem opening_notMem {name : Text} (h : ∀ c ∈ name, isNameChar c = true) : '[' ∉ name := fun hmem =>
  absurd (h _ hmem) (by decide)

theorem parseSegment_iff {segs : List Text} : parseSegment raw = .ok (some segs) ↔
    ∃ p : Part, p.Valid ∧ raw = p.text ∧ segs = p.segments := by
  constructor
  · intro h
    obtain ⟨head, rest, rfl, hhead, hrest⟩ := split_at_bracket raw
    rw [parseSegment_append hhead hrest] at h
    split at h
    · cases h
    · next hname =>
      rw [not_or, Bool.not_eq_false, List.all_eq_true] at hname
      obtain ⟨r, hr⟩ := parseIndices_ok rest.length rest
      rw [hr] at h
      match r with
      | none => cases h
      | some (indices, c :: tail) => cases h
      | some (indices, []) =>
        cases h
        obtain ⟨hall, htext⟩ := parseIndices_sound hr
        exact ⟨⟨head, indices⟩, ⟨hname.1, hname.2, hall⟩, by rw [htext, Part.text], rfl⟩
  · rintro ⟨p, hp, rfl, rfl⟩
    have hrest : p.indices.flatMap bracket = [] ∨ (p.indices.flatMap bracket).head? = some '[' := by
      cases p.indices with
      | nil => exact Or.inl rfl
      | cons i indices => exact Or.inr rfl
    have hname : ¬ (p.name = [] ∨ p.name.all isNameChar = false) := by
      rw [not_or, Bool.not_eq_false, List.all_eq_true]
      exact ⟨hp.nonempty, hp.name⟩
    rw [Part.text, parseSegment_append (opening_notMem hp.name) hrest, if_neg hname,
      parseIndices_complete hp.indices (Nat.le_refl _)]
    rfl

theorem parseSegments_iff {raws segs : List Text} : parseSegments raws = .ok (some segs) ↔
    ∃ parts : List Part, (∀ p ∈ parts, p.Valid) ∧ raws = parts.map Part.text ∧ segs = parts.flatMap Part.segments := by
  induction raws generalizing segs with
  | nil =>
    constructor
    · intro h
      cases h
      exact ⟨[], by simp⟩
    · rintro ⟨parts, -, hraws, rfl⟩
      obtain rfl := List.map_eq_nil_iff.mp hraws.symm
      rfl
  | cons raw raws ih =>
    obtain ⟨r, hr⟩ := parseSegment_ok raw
    obtain ⟨rs, hrs⟩ := parseSegments_ok raws
    rw [parseSegments_cons, hr, hrs]
    constructor
    · intro h
      match r, rs with
      | none, _ => cases h
      | some segs', none => cases h
      | some segs', some more =>
        cases h
        obtain ⟨p, hp, rfl, rfl⟩ := parseSegment_iff.mp hr
        obtain ⟨parts, hparts, rfl, rfl⟩ := ih.mp hrs
        exact ⟨p :: parts, List.forall_mem_cons.mpr ⟨hp, hparts⟩, rfl, rfl⟩
    · rintro ⟨parts, hvalid, hraws, rfl⟩
      obtain ⟨p, parts, rfl, rfl, rfl⟩ := List.map_eq_cons_iff.mp hraws.symm
      obtain ⟨hp, hparts⟩ := List.forall_mem_cons.mp hvalid
      have hhead := parseSegment_iff.mpr ⟨p, hp, rfl, rfl⟩
      have htail := ih.mpr ⟨parts, hparts, rfl, rfl⟩
      rw [hhead] at hr
      rw [htail] at hrs
      cases hr
      cases hrs
      rfl

/-- The characters of the parts of a path. -/
def isPathChar (c : Char) : Bool := isNameChar c || isDigit c || c = '[' || c = ']'

theorem isPathChar_plain {c : Char} (h : isPathChar c = true) : isWhitespace c = false ∧ c ≠ '.' ∧ c ≠ '+' := by
  have hascii : c.toNat < 128 := by
    simp only [isPathChar, isNameChar, isDigit, Bool.or_eq_true, Bool.and_eq_true, decide_eq_true_eq] at h
    rcases h with ((((halnum | rfl) | rfl) | hdigit) | rfl) | rfl
    · exact AsciiCase.ascii_of_isAlphanum halnum
    · decide
    · decide
    · omega
    · decide
    · decide
  revert h
  refine AsciiCase.forall_ascii (P := fun c => isPathChar c = true → isWhitespace c = false ∧ c ≠ '.' ∧ c ≠ '+') ?_ c hascii
  decide

theorem isPathChar_name {p : Part} (hp : p.Valid) : ∀ c ∈ p.name, isPathChar c = true := by
  intro c hc
  rw [isPathChar, hp.name c hc]
  rfl

theorem isPathChar_index {i : Text} (hi : isIndex i = true) : ∀ c ∈ i, isPathChar c = true := by
  intro c hc
  rw [isPathChar, (isIndex_digits hi).2 c hc, Bool.or_true]
  rfl

theorem isPathChar_text {p : Part} (hp : p.Valid) : ∀ c ∈ p.text, isPathChar c = true := by
  intro c hc
  rcases List.mem_append.mp hc with hc | hc
  · exact isPathChar_name hp c hc
  · obtain ⟨i, hi, hc⟩ := List.mem_flatMap.mp hc
    rcases List.mem_cons.mp hc with rfl | hc
    · rfl
    · rcases List.mem_append.mp hc with hc | hc
      · exact isPathChar_index (hp.indices i hi) c hc
      · rw [List.mem_singleton.mp hc]
        rfl

theorem head?_joined {parts : List Part} (hne : parts ≠ []) (hparts : ∀ p ∈ parts, p.Valid) :
    ∃ c, (joined parts).head? = some c ∧ isPathChar c = true := by
  obtain ⟨p, ps, rfl⟩ := List.exists_cons_of_ne_nil hne
  obtain ⟨hp, -⟩ := List.forall_mem_cons.mp hparts
  obtain ⟨c, name, hname⟩ := List.exists_cons_of_ne_nil hp.nonempty
  have hc : isPathChar c = true := isPathChar_name hp c (by rw [hname]; exact List.mem_cons_self)
  refine ⟨c, ?_, hc⟩
  cases ps with
  | nil => simp [joined, Part.text, hname]
  | cons q qs => simp [joined, Part.text, hname, List.intercalate_cons_cons]

/-- The dot at the front of a path does not count. -/
theorem isPath_iff {parts : List Part} :
    IsPath path parts ↔ parts ≠ [] ∧ (∀ p ∈ parts, p.Valid) ∧ stripDot path = joined parts := by
  refine and_congr_right fun hne => and_congr_right fun hparts => ?_
  obtain ⟨c, hhead, hc⟩ := head?_joined hne hparts
  rw [stripDot]
  constructor
  · rintro (rfl | rfl)
    · rw [hhead, if_neg]
      exact fun heq => (isPathChar_plain hc).2.1 (Option.some_inj.mp heq)
    · exact if_pos rfl
  · intro h
    split at h
    · next hdot =>
      obtain ⟨tail, rfl⟩ := List.head?_eq_some_iff.mp hdot
      exact Or.inr (congrArg _ h)
    · exact Or.inl h

theorem splitOn_joined {parts : List Part} (hne : parts ≠ []) (hparts : ∀ p ∈ parts, p.Valid) :
    (joined parts).splitOn '.' = parts.map Part.text := by
  apply List.splitOn_intercalate
  · intro t ht hmem
    obtain ⟨p, hp, rfl⟩ := List.mem_map.mp ht
    exact (isPathChar_plain (isPathChar_text (hparts p hp) _ hmem)).2.1 rfl
  · rwa [Ne, List.map_eq_nil_iff]

/-- The segments are those of the path between the blanks. -/
theorem parse_iff {segs : List Text} : parseJsonpathSegments path = .ok (some segs) ↔
    ∃ parts, IsPath (trim path) parts ∧ segs = parts.flatMap Part.segments := by
  rw [parseJsonpathSegments]
  split
  · next hnil =>
    refine iff_of_false (by simp) ?_
    rintro ⟨parts, hpath, -⟩
    obtain ⟨hne, hparts, hjoined⟩ := isPath_iff.mp hpath
    obtain ⟨c, hhead, -⟩ := head?_joined hne hparts
    rw [← hjoined, hnil] at hhead
    cases hhead
  · rw [parseSegments_iff]
    constructor
    · rintro ⟨parts, hparts, hsplit, rfl⟩
      have hne : parts ≠ [] := by
        rintro rfl
        exact List.splitOn_ne_nil _ _ hsplit
      have hjoined : ['.'].intercalate ((stripDot (trim path)).splitOn '.') = stripDot (trim path) :=
        List.intercalate_splitOn '.'
      exact ⟨parts, isPath_iff.mpr ⟨hne, hparts, by rw [← hjoined, hsplit, joined]⟩, rfl⟩
    · rintro ⟨parts, hpath, rfl⟩
      obtain ⟨hne, hparts, hjoined⟩ := isPath_iff.mp hpath
      exact ⟨parts, hparts, by rw [hjoined, splitOn_joined hne hparts], rfl⟩

theorem trim_of_plain {t : Text} (h : ∀ c ∈ t, isWhitespace c = false) : trim t = t := by
  have hdrop : ∀ {t : Text}, (∀ c ∈ t, isWhitespace c = false) → t.dropWhile isWhitespace = t := by
    intro t ht
    cases t with
    | nil => rfl
    | cons c t => exact List.dropWhile_cons_of_neg (by simp [ht c List.mem_cons_self])
  rw [trim, hdrop h, hdrop fun c hc => h c (List.mem_reverse.mp hc), List.reverse_reverse]

theorem trim_path {parts : List Part} (h : IsPath path parts) : trim path = path := by
  obtain ⟨-, hparts, htext⟩ := h
  have hjoined : ∀ c ∈ joined parts, isWhitespace c = false := by
    intro c hc
    rcases ListCuts.mem_intercalate hc with hdot | ⟨t, ht, hc⟩
    · rw [List.mem_singleton.mp hdot]
      decide
    · obtain ⟨p, hp, rfl⟩ := List.mem_map.mp ht
      exact (isPathChar_plain (isPathChar_text (hparts p hp) c hc)).1
  apply trim_of_plain
  rcases htext with rfl | rfl
  · exact hjoined
  · exact List.forall_mem_cons.mpr ⟨by decide, hjoined⟩

theorem parse_none_iff : parseJsonpathSegments path = .ok none ↔ ¬ ∃ parts, IsPath (trim path) parts := by
  obtain ⟨r, hr⟩ := parseJsonpathSegments_ok path
  cases r with
  | none =>
    refine iff_of_true hr ?_
    rintro ⟨parts, hpath⟩
    rw [parse_iff.mpr ⟨parts, hpath, rfl⟩] at hr
    cases hr
  | some segs =>
    obtain ⟨parts, hpath, -⟩ := parse_iff.mp hr
    rw [hr]
    exact iff_of_false (by simp) fun h => h ⟨parts, hpath⟩

end Segments

/-! ## The descent -/

section Descent

variable {root v : Json String} {steps : List Step}

/-- What the steps of a path are written with. -/
structure Step.Plain (s : Step) : Prop where
  plus : s.text.head? ≠ some '+'
  index : ∀ i, s = .index i → isIndex i = true

theorem map_text_steps (parts : List Part) : (stepsOf parts).map Step.text = parts.flatMap Part.segments := by
  rw [stepsOf, List.map_flatMap]
  congr 1
  funext p
  rw [Part.steps, List.map_cons, List.map_map, Part.segments]
  exact congrArg _ (List.map_id _)

theorem plain_steps {parts : List Part} (hparts : ∀ p ∈ parts, p.Valid) : ∀ s ∈ stepsOf parts, s.Plain := by
  have hplus : ∀ {t : Text}, (∀ c ∈ t, isPathChar c = true) → t.head? ≠ some '+' := fun ht hhead =>
    (isPathChar_plain (ht _ (List.mem_of_head? hhead))).2.2 rfl
  intro s hs
  obtain ⟨p, hp, hs⟩ := List.mem_flatMap.mp hs
  rcases List.mem_cons.mp hs with rfl | hs
  · exact ⟨hplus (isPathChar_name (hparts p hp)), fun i hi => by cases hi⟩
  · obtain ⟨i, hi, rfl⟩ := List.mem_map.mp hs
    have hindex := (hparts p hp).indices i hi
    exact ⟨hplus (isPathChar_index hindex), fun j hj => Step.index.inj hj ▸ hindex⟩

theorem parseUsize_eq {seg : Text} (h : seg.head? ≠ some '+') :
    parseUsize seg = if isIndex seg then some (ofDigits seg) else none := by
  rw [parseUsize, if_neg h, isIndex]
  cases seg.all isDigit <;> cases seg.isEmpty <;> rfl

/-- A step that selects is one of the walk. -/
theorem walkStep_of_select {s : Step} (hs : s.Plain) {cur : Json String} (h : select root s = some cur) :
    walkStep root s.text = some cur := by
  match root, s with
  | .obj fs, .name n => exact h
  | .arr xs, .index i =>
    have hi : isIndex (Step.index i).text = true := hs.index i rfl
    rw [walkStep, parseUsize_eq hs.plus, if_pos hi]
    exact h
  | .null, _ => cases h
  | .bool _, _ => cases h
  | .num _, _ => cases h
  | .str _, _ => cases h
  | .obj fs, .index i => cases h
  | .arr xs, .name n => cases h

/-- A step of the walk selects, or takes a name for an index or an index for a name. -/
theorem walkStep_cases {s : Step} (hs : s.Plain) {cur : Json String} (h : walkStep root s.text = some cur) :
    select root s = some cur ∨ (∃ xs n, root = .arr xs ∧ s = .name n ∧ parseUsize n = some (ofDigits n) ∧
      xs[ofDigits n]? = some cur) ∨ ∃ fs i, root = .obj fs ∧ s = .index i ∧ Json.find (String.ofList i) fs = some cur := by
  match root, s with
  | .obj fs, .name n => exact Or.inl h
  | .obj fs, .index i => exact Or.inr (Or.inr ⟨fs, i, rfl, rfl, h⟩)
  | .arr xs, .index i =>
    have hi : isIndex (Step.index i).text = true := hs.index i rfl
    rw [walkStep, parseUsize_eq hs.plus, if_pos hi] at h
    exact Or.inl h
  | .arr xs, .name n =>
    obtain ⟨k, hk, hplace⟩ := Option.bind_eq_some_iff.mp h
    have hparse := hk
    rw [parseUsize_eq hs.plus] at hparse
    split at hparse
    · obtain rfl := Option.some_inj.mp hparse
      exact Or.inr (Or.inl ⟨xs, n, rfl, rfl, hk, hplace⟩)
    · cases hparse
  | .null, _ => cases h
  | .bool _, _ => cases h
  | .num _, _ => cases h
  | .str _, _ => cases h

/-- The walk ends where the descent does, or behind a step that is misread. -/
theorem walk_iff (hsteps : ∀ s ∈ steps, s.Plain) : walkJsonpath root (steps.map Step.text) = some v ↔
    descend root steps = some v ∨ Misread root steps v := by
  induction steps generalizing root with
  | nil =>
    constructor
    · exact Or.inl
    · rintro (h | h)
      · exact h
      · cases h
  | cons s steps ih =>
    obtain ⟨hs, hsteps⟩ := List.forall_mem_cons.mp hsteps
    rw [List.map_cons, walkJsonpath, descend, Option.bind_eq_some_iff, Option.bind_eq_some_iff]
    constructor
    · rintro ⟨cur, hcur, hwalk⟩
      rcases walkStep_cases hs hcur with hselect | ⟨xs, n, rfl, rfl, hpick, hplace⟩ | ⟨fs, i, rfl, rfl, hplace⟩
      · rcases (ih hsteps).mp hwalk with hdescend | hmisread
        · exact Or.inl ⟨cur, hselect, hdescend⟩
        · exact Or.inr (.later hselect hmisread)
      · exact Or.inr (.element hpick hplace hwalk)
      · exact Or.inr (.member hplace hwalk)
    · rintro (⟨cur, hselect, hdescend⟩ | hmisread)
      · exact ⟨cur, walkStep_of_select hs hselect, (ih hsteps).mpr (Or.inl hdescend)⟩
      · cases hmisread with
        | element hpick hplace hwalk => exact ⟨_, Option.bind_eq_some_iff.mpr ⟨_, hpick, hplace⟩, hwalk⟩
        | member hplace hwalk => exact ⟨_, hplace, hwalk⟩
        | later hselect hmisread =>
          exact ⟨_, walkStep_of_select hs hselect, (ih hsteps).mpr (Or.inr hmisread)⟩

theorem Misread.descend_eq_none (h : Misread root steps v) : descend root steps = none := by
  induction h with
  | element => rfl
  | member => rfl
  | later hselect _ ih => rw [descend, hselect, Option.bind_some, ih]

theorem coerce_eq_null_iff (o : Option (Json String)) (ty : String) :
    coercePrinterValue o ty = .ok .null ↔ ∀ j, o = some j → j = .null := by
  cases o with
  | none => exact iff_of_true rfl fun j h => by cases h
  | some j =>
    have hsome : (∀ k, some j = some k → k = .null) ↔ j = .null :=
      ⟨fun h => h j rfl, fun h k hk => Option.some_inj.mp hk ▸ h⟩
    rw [hsome]
    by_cases hj : isCompound j = true
    · refine iff_of_false (fun h => ?_) (by rintro rfl; cases hj)
      obtain ⟨shown, hshown, -⟩ := coerce_renders hj h
      cases hshown
    · cases j with
      | arr xs => exact absurd rfl hj
      | obj fs => exact absurd rfl hj
      | null => exact iff_of_true rfl rfl
      | bool b => simp [coercePrinterValue]
      | str s => simp [coercePrinterValue]
      | num n =>
        rw [coercePrinterValue]
        split <;> simp

/-- The cell of the walk is that of the descent exactly when nothing but nulls are misread. -/
theorem coerce_walk_iff (hsteps : ∀ s ∈ steps, s.Plain) (ty : String) :
    coercePrinterValue (walkJsonpath root (steps.map Step.text)) ty = coercePrinterValue (descend root steps) ty ↔
      ∀ v, Misread root steps v → v = .null := by
  constructor
  · intro h v hv
    rw [hv.descend_eq_none, (walk_iff hsteps).mpr (Or.inr hv)] at h
    exact (coerce_eq_null_iff _ ty).mp h v rfl
  · intro h
    cases hdescend : descend root steps with
    | some v => rw [(walk_iff hsteps).mpr (Or.inl hdescend)]
    | none =>
      have hnull : coercePrinterValue none ty = .ok .null := rfl
      rw [hnull, coerce_eq_null_iff]
      intro v hv
      rcases (walk_iff hsteps).mp hv with hsome | hmisread
      · rw [hdescend] at hsome
        cases hsome
      · exact h v hmisread

end Descent

/-! ## Columns -/

section Columns

variable {path : Text} {obj : DynamicObject}

theorem find_optField_append {k k' : String} (h : k ≠ k') (v : Option String) (fs : Fields String) :
    Json.find k (optField k' v ++ fs) = Json.find k fs := by
  cases v with
  | none => rfl
  | some s => rw [optField, Option.map_some, Option.toList_some, List.singleton_append, find_cons, if_neg h.symm]

/-- What is held elsewhere comes before the members of the data. -/
theorem find_served {k : String} (hk : k ∉ reserved) (obj : DynamicObject) :
    Json.find k (optField "apiVersion" obj.apiVersion ++ optField "kind" obj.kind ++
      ("metadata", ObjectMeta.served obj.metadata) :: members obj.data) = Json.find k (members obj.data) := by
  simp only [reserved, List.mem_cons, List.not_mem_nil, or_false, not_or] at hk
  obtain ⟨hversion, hkind, hmetadata⟩ := hk
  rw [List.append_assoc, find_optField_append hversion, find_optField_append hkind, find_cons, if_neg (Ne.symm hmetadata)]

/-- A path that starts elsewhere has an empty cell, and any other shows what the data has. -/
theorem coerce_served_iff (hapi : FromApi obj) {p : Part} {ps : List Part} (hparts : ∀ q ∈ p :: ps, q.Valid) (ty : String) :
    coercePrinterValue (walkJsonpath obj.data ((p :: ps).flatMap Part.segments)) ty =
        coercePrinterValue (descend (served obj) (stepsOf (p :: ps))) ty ↔
      (String.ofList p.name ∈ reserved → ∀ v, descend (served obj) (stepsOf (p :: ps)) = some v → v = .null) ∧
        ∀ v, Misread obj.data (stepsOf (p :: ps)) v → v = .null := by
  obtain ⟨fs, hfs⟩ := hapi.data
  have hmembers : members obj.data = fs := by rw [hfs]; rfl
  have hplain := plain_steps hparts
  rw [← map_text_steps]
  have hsteps : stepsOf (p :: ps) = .name p.name :: (p.indices.map .index ++ stepsOf ps) := rfl
  by_cases hreserved : String.ofList p.name ∈ reserved
  · have hnone : Json.find (String.ofList p.name) fs = none := hmembers ▸ hapi.elsewhere _ hreserved
    have hwalk : walkJsonpath obj.data ((stepsOf (p :: ps)).map Step.text) = none := by
      rw [hsteps, List.map_cons, walkJsonpath, hfs, walkStep, Step.text, hnone, Option.bind_none]
    have hmisread : ∀ v, ¬ Misread obj.data (stepsOf (p :: ps)) v := by
      intro v hv
      rw [(walk_iff hplain).mpr (Or.inr hv)] at hwalk
      cases hwalk
    have hnull : coercePrinterValue none ty = .ok .null := rfl
    rw [hwalk, hnull, eq_comm, coerce_eq_null_iff]
    exact ⟨fun h => ⟨fun _ => h, fun v hv => absurd hv (hmisread v)⟩, fun h => h.1 hreserved⟩
  · have hdescend : descend (served obj) (stepsOf (p :: ps)) = descend obj.data (stepsOf (p :: ps)) := by
      rw [hsteps, descend, descend, served, select, find_served hreserved, hmembers, hfs, select]
    rw [hdescend, coerce_walk_iff hplain, and_iff_right]
    exact fun h => absurd h hreserved

/-- The projector has a slot for each column with a path, and writes its cell. -/
theorem slot_of_path {cols : List DiscoveredPrinterColumn} {idx : ℕ} {c : DiscoveredPrinterColumn} {p : DynamicProjector}
    {segs : List Text} (hc : cols[idx]? = some c) (hage : isAgeColumn c = false) (hp : DynamicProjector.new cols = .ok p)
    (hsegs : parseJsonpathSegments c.jsonPath = .ok (some segs)) :
    (⟨slotName idx, segs, c.type_⟩ : PrinterSlot) ∈ p.printer ∧ ∀ s ∈ p.printer, ∀ row, p.project obj = .ok row →
      ∃ cell, s.cell obj = .ok cell ∧ row.get? s.slot = some cell := by
  obtain ⟨p', hp', hmem, hnodup⟩ := new_spec cols
  rw [hp] at hp'
  cases hp'
  exact ⟨(hmem _).mpr ⟨idx, c, hc, hage, hsegs, rfl, rfl⟩, fun s hs row hrow => get?_project hnodup hrow hs⟩

theorem slot_unique {cols : List DiscoveredPrinterColumn} {idx : ℕ} {c : DiscoveredPrinterColumn} {p : DynamicProjector}
    (hc : cols[idx]? = some c) (hp : DynamicProjector.new cols = .ok p) {s : PrinterSlot} (hs : s ∈ p.printer)
    (hslot : s.slot = slotName idx) : parseJsonpathSegments c.jsonPath = .ok (some s.segments) ∧ s.type_ = c.type_ := by
  obtain ⟨p', hp', hmem, -⟩ := new_spec cols
  rw [hp] at hp'
  cases hp'
  obtain ⟨i, d, hd, -, hsegs, hname, htype⟩ := (hmem s).mp hs
  rw [hslot] at hname
  rw [← slotName_inj hname, hc] at hd
  cases hd
  exact ⟨hsegs, htype⟩

/-- Columns show what their paths select exactly when there are no blanks and no misread values. -/
theorem columnDenotes_iff (path : Text) {obj : DynamicObject} (hapi : FromApi obj) :
    ColumnDenotes path obj ↔ Undisturbed path obj := by
  have hparse : ∀ {parts}, IsPath path parts → parseJsonpathSegments path = .ok (some (parts.flatMap Part.segments)) :=
    fun hpath => parse_iff.mpr ⟨_, (trim_path hpath).symm ▸ hpath, rfl⟩
  constructor
  · intro h
    have hcell : ∀ p ps, IsPath path (p :: ps) →
        (String.ofList p.name ∈ reserved → ∀ v, descend (served obj) (stepsOf (p :: ps)) = some v → v = .null) ∧
          ∀ v, Misread obj.data (stepsOf (p :: ps)) v → v = .null := by
      intro p ps hpath
      obtain ⟨proj, hproj, -⟩ := new_spec [⟨[], path, "string"⟩]
      obtain ⟨s, hs, hslot, hcell, -⟩ := h.cell _ 0 _ proj rfl rfl rfl hproj _ hpath
      obtain ⟨hsegs, htype⟩ := slot_unique rfl hproj hs hslot
      rw [hparse hpath] at hsegs
      rw [PrinterSlot.cell, ← Option.some_inj.mp (Except.ok.inj hsegs), htype] at hcell
      exact (coerce_served_iff hapi hpath.2.1 _).mp hcell
    refine ⟨fun parts hpath => ?_, fun p ps hpath => (hcell p ps hpath).1, fun parts hpath => ?_⟩
    · by_contra hne
      have hnone : ¬ ∃ parts, IsPath path parts := not_exists.mpr fun _ hpath => hne (trim_path hpath)
      exact parse_none_iff.mp (h.none_iff.mpr hnone) ⟨parts, hpath⟩
    · obtain ⟨p, ps, rfl⟩ := List.exists_cons_of_ne_nil hpath.1
      exact (hcell p ps hpath).2
  · intro h
    refine ⟨?_, fun cols idx c p hc hpathc hage hp parts hpath => ?_⟩
    · rw [parse_none_iff, not_iff_not]
      refine exists_congr fun parts => ⟨fun hpath => ?_, fun hpath => ?_⟩
      · exact h.blanks parts hpath ▸ hpath
      · exact (trim_path hpath).symm ▸ hpath
    · subst hpathc
      obtain ⟨hs, hrows⟩ := slot_of_path hc hage hp (hparse hpath)
      refine ⟨_, hs, rfl, ?_, hrows _ hs⟩
      obtain ⟨q, qs, rfl⟩ := List.exists_cons_of_ne_nil hpath.1
      exact (coerce_served_iff hapi hpath.2.1 _).mpr ⟨h.elsewhere q qs hpath, h.misread _ hpath⟩

def webObject : DynamicObject :=
  ⟨some "example.com/v1", some "Site", ⟨some "web", none, none, []⟩, .obj [("spec", .obj [("replicas", .num "3")])]⟩

theorem fromApi_web : FromApi webObject := ⟨⟨_, rfl⟩, by decide⟩

theorem columnDenotes_replicas : FromApi webObject ∧
    (ColumnDenotes ".spec.replicas".toList webObject ↔ Undisturbed ".spec.replicas".toList webObject) :=
  ⟨fromApi_web, columnDenotes_iff _ fromApi_web⟩

/-- The name of an object is not shown by its path. -/
theorem not_columnDenotes_name : FromApi webObject ∧ ¬ ColumnDenotes ".metadata.name".toList webObject := by
  refine ⟨fromApi_web, fun h => ?_⟩
  have hpath : IsPath ".metadata.name".toList [⟨"metadata".toList, []⟩, ⟨"name".toList, []⟩] := by
    refine ⟨by decide, fun p hp => ?_, Or.inr rfl⟩
    rcases List.mem_cons.mp hp with rfl | hp
    · exact ⟨List.cons_ne_nil _ _, List.all_eq_true.mp (by decide), List.forall_mem_nil _⟩
    · rw [List.mem_singleton.mp hp]
      exact ⟨List.cons_ne_nil _ _, List.all_eq_true.mp (by decide), List.forall_mem_nil _⟩
  have hnew : DynamicProjector.new [⟨[], ".metadata.name".toList, "string"⟩] =
      .ok ⟨[⟨"pc0", ["metadata".toList, "name".toList], "string"⟩]⟩ := rfl
  obtain ⟨s, hs, -, hcell, -⟩ := h.cell _ 0 _ _ rfl rfl rfl hnew _ hpath
  rw [List.mem_singleton.mp hs] at hcell
  have hempty : PrinterSlot.cell ⟨"pc0", ["metadata".toList, "name".toList], "string"⟩ webObject = .ok .null := rfl
  have hname : coercePrinterValue (descend (served webObject)
      (stepsOf [⟨"metadata".toList, []⟩, ⟨"name".toList, []⟩])) "string" = .ok (.str "web") := rfl
  rw [hempty, hname] at hcell
  cases hcell

end Columns

end FerrisScope.PrinterPaths
