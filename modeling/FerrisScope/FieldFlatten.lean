import FerrisScope.EntryLists
import FerrisScope.FixedWidthText
import FerrisScope.HostsFile
import FerrisScope.JsonText

/-!
# Manifests flattened to paths

Each leaf of a value is set under the text of the steps that lead to it. A key that is no plain word is
quoted, so that it ends where its quotes do. The merge key of a list entry is put between brackets as
it is.
-/

namespace FerrisScope.FieldFlatten
open HostsFile Json EntryLists

def mergeKeys : List String := ["name", "containerPort", "port", "mountPath", "ip", "key"]

section Walk
variable {ν : Type} (numText : ν → Text)

/-- What an entry's value under a merge key gives. -/
def keyText : Json ν → Option Text
  | .str s => if s = "" then none else some s.toList
  | .num n => some (numText n)
  | _ => none

def mergeKeyOf : Json ν → Option Text
  | .obj fs => mergeKeys.findSome? fun k => (find k fs).bind (keyText numText)
  | _ => none

/-- Every entry has a merge key and no two share it. -/
def MergeKeyed (xs : List (Json ν)) : Prop :=
  (∀ x ∈ xs, (mergeKeyOf numText x).isSome) ∧ (xs.map (mergeKeyOf numText)).Nodup

instance (xs : List (Json ν)) : Decidable (MergeKeyed numText xs) := instDecidableAnd

def arrayKeys (xs : List (Json ν)) : List Text :=
  if MergeKeyed numText xs then xs.map fun x => '=' :: (mergeKeyOf numText x).getD []
  else (List.range xs.length).map (Nat.toDigits 10)

def isPlainChar (c : Char) : Bool := c.isAlphanum || c == '_' || c == '-'

def isPlain (key : String) : Bool := !key.toList.isEmpty && key.toList.all isPlainChar

def segment (key : String) (root : Bool) : Text :=
  if isPlain key then (if root then key.toList else '.' :: key.toList)
  else '[' :: quote key ++ [']']

/-- The text of a scalar. -/
def scalarText : Json ν → Text
  | .null => "null".toList
  | .bool b => if b then "true".toList else "false".toList
  | .num n => numText n
  | .str s => s.toList
  | .arr _ => []
  | .obj _ => []

/-- An entry for a leaf, unless it is the root. -/
def leafAt (path value : Text) : List (Text × Text) := if path = [] then [] else [(path, value)]

mutual
/-- The entries that are set, in order. -/
def walk (path : Text) : Json ν → List (Text × Text)
  | .arr xs => if xs.isEmpty then leafAt path "[]".toList else walkElems path (arrayKeys numText xs) xs
  | .obj fs => if fs.isEmpty then leafAt path ['\x7b', '\x7d'] else walkFields path fs
  | .null => leafAt path (scalarText numText (.null : Json ν))
  | .bool b => leafAt path (scalarText numText (.bool b : Json ν))
  | .num n => leafAt path (scalarText numText (.num n))
  | .str s => leafAt path (scalarText numText (.str s : Json ν))

def walkElems (path : Text) (keys : List Text) : List (Json ν) → List (Text × Text)
  | [] => []
  | x :: xs => walk (path ++ '[' :: keys.headD [] ++ [']']) x ++ walkElems path keys.tail xs

def walkFields (path : Text) : Fields ν → List (Text × Text)
  | [] => []
  | (k, v) :: fs =>
      walk (if path = [] then segment k true else path ++ segment k false) v ++ walkFields path fs
end

attribute [grind =] walk walkElems walkFields

def flattenFields (doc : Json ν) : List (Text × Text) := fromEntries (walk numText [] doc)

/-- The value a flattened map has at a path. -/
def valueAt (path : Text) (fields : List (Text × Text)) : Option Text :=
  @List.lookup Text Text instBEqOfDecidableEq path fields

/-! ## Leaves by their position -/

/-- What leads from a value to one directly inside it. -/
inductive Step where
  | field (key : String)
  | index (i : ℕ)
  | merged (key : Text)
  deriving DecidableEq

def stepText : Step → Text
  | .field key => segment key false
  | .index i => '[' :: Nat.toDigits 10 i ++ [']']
  | .merged key => '[' :: '=' :: key ++ [']']

def spell (position : List Step) : Text := position.flatMap stepText

/-- The steps to the elements of a list. -/
def elemSteps (xs : List (Json ν)) : List Step :=
  if MergeKeyed numText xs then xs.map fun x => .merged ((mergeKeyOf numText x).getD [])
  else (List.range xs.length).map .index

mutual
/-- The leaves of a value with the steps that lead to them. -/
def leaves : Json ν → List (List Step × Text)
  | .arr xs => if xs.isEmpty then [([], "[]".toList)] else leavesElems (elemSteps numText xs) xs
  | .obj fs => if fs.isEmpty then [([], ['\x7b', '\x7d'])] else leavesFields fs
  | .null => [([], scalarText numText (.null : Json ν))]
  | .bool b => [([], scalarText numText (.bool b : Json ν))]
  | .num n => [([], scalarText numText (.num n))]
  | .str s => [([], scalarText numText (.str s : Json ν))]

def leavesElems (steps : List Step) : List (Json ν) → List (List Step × Text)
  | [] => []
  | x :: xs => (leaves x).map (fun l => (steps.headD (.index 0) :: l.1, l.2)) ++ leavesElems steps.tail xs

def leavesFields : Fields ν → List (List Step × Text)
  | [] => []
  | (k, v) :: fs => (leaves v).map (fun l => (.field k :: l.1, l.2)) ++ leavesFields fs
end

attribute [grind =] leaves leavesElems leavesFields

end Walk

/-! ## Texts that end where they seem to -/

section Texts

def hexValue (c : Char) : ℕ := if c.isDigit then c.toNat - 48 else c.toNat - 87

/-- The character a backslash and this letter stand for. -/
def unescaped (e : Char) : Char :=
  if e = 'b' then '\x08' else if e = 'f' then '\x0c' else if e = 'n' then '\n' else if e = 'r' then '\r'
  else if e = 't' then '\t' else e

/-- The first character of a literal's inside, and what follows it. -/
def readEscaped : Text → Option (Char × Text)
  | [] => none
  | c :: r =>
      if c ≠ '\\' then some (c, r)
      else if r.head? = some 'u' then
        some (Char.ofNat (16 * hexValue (r.getD 3 c) + hexValue (r.getD 4 c)), r.drop 5)
      else some (unescaped (r.headD c), r.tail)

theorem hexValue_digitChar {n : ℕ} (h : n < 16) : hexValue (Nat.digitChar n) = n := by
  have hall : ∀ m : Fin 16, hexValue (Nat.digitChar m) = m := by decide
  exact hall ⟨n, h⟩

theorem readEscaped_escape (c : Char) (r : Text) : readEscaped (escape c ++ r) = some (c, r) := by
  unfold escape
  split_ifs with hquote hslash hb hf hn hr ht hlow
  all_goals try subst c
  · rfl
  · rfl
  · rfl
  · rfl
  · rfl
  · rfl
  · rfl
  · have hhigh : c.toNat / 16 < 16 := by omega
    have hdigits : 16 * (c.toNat / 16) + c.toNat % 16 = c.toNat := Nat.div_add_mod _ _
    simp only [List.cons_append, List.nil_append, readEscaped, List.head?_cons, if_true, List.getD_cons_succ,
      List.getD_cons_zero, List.drop_succ_cons, List.drop_zero]
    rw [hexValue_digitChar hhigh, hexValue_digitChar (Nat.mod_lt _ (by omega)), hdigits, Char.ofNat_toNat]
    simp
  · rw [List.singleton_append, readEscaped, if_pos hslash]

theorem escape_head_ne (c : Char) (r : Text) : (escape c ++ r).head? ≠ some '"' := by
  unfold escape
  split_ifs with hquote <;> simp [hquote]

/-- The inside of a literal ends at the first quote that is not escaped. -/
theorem escaped_inj {s t x y : Text} (h : s.flatMap escape ++ '"' :: x = t.flatMap escape ++ '"' :: y) :
    s = t ∧ x = y := by
  induction s generalizing t with
  | nil =>
    cases t with
    | nil => exact ⟨rfl, (List.cons.inj h).2⟩
    | cons d ds =>
      rw [List.flatMap_cons, List.append_assoc] at h
      exact absurd (congrArg List.head? h.symm) (escape_head_ne d _)
  | cons c cs ih =>
    rw [List.flatMap_cons, List.append_assoc] at h
    cases t with
    | nil => exact absurd (congrArg List.head? h) (escape_head_ne c _)
    | cons d ds =>
      rw [List.flatMap_cons, List.append_assoc] at h
      have hread := congrArg readEscaped h
      rw [readEscaped_escape, readEscaped_escape] at hread
      obtain ⟨rfl, hrest⟩ := Prod.mk.inj (Option.some.inj hread)
      obtain ⟨rfl, hxy⟩ := ih hrest
      exact ⟨rfl, hxy⟩

theorem quote_inj {s t : String} {x y : Text} (h : quote s ++ x = quote t ++ y) : s = t ∧ x = y := by
  simp only [quote, List.cons_append, List.append_assoc, List.nil_append] at h
  obtain ⟨hst, hxy⟩ := escaped_inj (List.cons.inj h).2
  exact ⟨String.toList_inj.mp hst, hxy⟩

/-- What may follow a step: nothing, or another step that is not at the root. -/
def Tail (t : Text) : Prop := ∀ c, t.head? = some c → c = '.' ∨ c = '['

theorem stepText_head (s : Step) (r : Text) : Tail (stepText s ++ r) := by
  intro c hc
  cases s with
  | field key =>
    simp only [stepText, segment] at hc
    split at hc
    · exact Or.inl (Option.some.inj hc).symm
    · exact Or.inr (Option.some.inj hc).symm
  | index i => exact Or.inr (Option.some.inj hc).symm
  | merged key => exact Or.inr (Option.some.inj hc).symm

theorem tail_spell (p : List Step) : Tail (spell p) := by
  cases p with
  | nil =>
    intro c hc
    cases hc
  | cons s p => exact stepText_head s (spell p)

/-- A word ends where a tail begins. -/
theorem plain_append_inj {k l x y : Text} (hk : ∀ c ∈ k, isPlainChar c = true) (hl : ∀ c ∈ l, isPlainChar c = true)
    (hx : Tail x) (hy : Tail y) (h : k ++ x = l ++ y) : k = l ∧ x = y := by
  have hno : ∀ {z : Text}, Tail z → ∀ c, z.head? = some c → isPlainChar c = false := by
    intro z hz c hc
    rcases hz c hc with rfl | rfl <;> decide
  rcases List.append_eq_append_iff.mp h with ⟨as, rfl, rfl⟩ | ⟨as, rfl, rfl⟩
  · cases as with
    | nil => exact ⟨(List.append_nil k).symm, rfl⟩
    | cons c cs =>
      have hplain := hl c (List.mem_append_right k List.mem_cons_self)
      rw [hno hx c rfl] at hplain
      cases hplain
  · cases as with
    | nil => exact ⟨List.append_nil l, rfl⟩
    | cons c cs =>
      have hplain := hk c (List.mem_append_right l List.mem_cons_self)
      rw [hno hy c rfl] at hplain
      cases hplain

/-- The keys of an object have segments that end where they seem to. -/
theorem segment_inj {k l : String} {root : Bool} {x y : Text} (hx : Tail x) (hy : Tail y)
    (h : segment k root ++ x = segment l root ++ y) : k = l ∧ x = y := by
  have hplain : ∀ {s : String}, isPlain s = true → ∀ c ∈ s.toList, isPlainChar c = true := fun hs =>
    List.all_eq_true.mp (Bool.and_eq_true_iff.mp hs).2
  have hne : ∀ {s : String}, isPlain s = true → s.toList ≠ [] := fun hs => by
    simpa using (Bool.and_eq_true_iff.mp hs).1
  have hfirst : ∀ {s : String} {r : Text}, isPlain s = true → ∀ t, segment s root ++ r ≠ '[' :: t := by
    intro s r hs t heq
    obtain ⟨c, cs, hcs⟩ := List.exists_cons_of_ne_nil (hne hs)
    rw [segment, if_pos hs] at heq
    cases root with
    | false => cases (List.cons.inj heq).1
    | true =>
      rw [if_pos rfl, hcs] at heq
      have hbracket := hplain hs c (by rw [hcs]; exact List.mem_cons_self)
      rw [(List.cons.inj heq).1] at hbracket
      cases hbracket
  by_cases hk : isPlain k <;> by_cases hl : isPlain l
  · rw [segment, segment, if_pos hk, if_pos hl] at h
    cases root with
    | false =>
      obtain ⟨hkl, hxy⟩ := plain_append_inj (hplain hk) (hplain hl) hx hy (List.cons.inj h).2
      exact ⟨String.toList_inj.mp hkl, hxy⟩
    | true =>
      obtain ⟨hkl, hxy⟩ := plain_append_inj (hplain hk) (hplain hl) hx hy h
      exact ⟨String.toList_inj.mp hkl, hxy⟩
  · rw [segment.eq_def l, if_neg hl] at h
    exact absurd h (hfirst hk _)
  · rw [segment.eq_def k, if_neg hk] at h
    exact absurd h.symm (hfirst hl _)
  · rw [segment, segment, if_neg hk, if_neg hl] at h
    simp only [List.cons_append, List.append_assoc] at h
    obtain ⟨hkl, hxy⟩ := quote_inj (List.cons.inj h).2
    exact ⟨hkl, (List.cons.inj hxy).2⟩

/-- A bracket that the key does not have ends the step. -/
theorem bracket_inj {k l x y : Text} (hk : ']' ∉ k) (hl : ']' ∉ l)
    (h : '[' :: k ++ [']'] ++ x = '[' :: l ++ [']'] ++ y) : k = l ∧ x = y := by
  simp only [List.cons_append, List.append_assoc, List.nil_append] at h
  have hinside := (List.cons.inj h).2
  rcases List.append_eq_append_iff.mp hinside with ⟨as, rfl, heq⟩ | ⟨as, rfl, heq⟩
  · cases as with
    | nil => exact ⟨(List.append_nil k).symm, (List.cons.inj heq).2⟩
    | cons b bs =>
      rw [← (List.cons.inj heq).1] at hl
      exact absurd (List.mem_append_right k List.mem_cons_self) hl
  · cases as with
    | nil => exact ⟨List.append_nil l, (List.cons.inj heq).2.symm⟩
    | cons b bs =>
      rw [← (List.cons.inj heq).1] at hk
      exact absurd (List.mem_append_right l List.mem_cons_self) hk

end Texts

section Leaves
variable {ν : Type} {numText : ν → Text}

/-! ## The code's walk sets one entry for each leaf -/

theorem length_elemSteps (xs : List (Json ν)) : (elemSteps numText xs).length = xs.length := by
  rw [elemSteps]
  split <;> simp

theorem map_stepText_elemSteps (xs : List (Json ν)) :
    (elemSteps numText xs).map stepText = (arrayKeys numText xs).map fun key => '[' :: key ++ [']'] := by
  rw [elemSteps, arrayKeys]
  split
  · rw [List.map_map, List.map_map]
    rfl
  · rw [List.map_map, List.map_map]
    rfl

/-- The entries of the leaves of a value that stands at a path. -/
def entriesAt (path : Text) (ls : List (List Step × Text)) : List (Text × Text) :=
  ls.map fun l => (path ++ spell l.1, l.2)

theorem entriesAt_append (path : Text) (ls ms : List (List Step × Text)) :
    entriesAt path (ls ++ ms) = entriesAt path ls ++ entriesAt path ms := List.map_append

theorem entriesAt_step (path : Text) (s : Step) (ls : List (List Step × Text)) :
    entriesAt path (ls.map fun l => (s :: l.1, l.2)) = entriesAt (path ++ stepText s) ls := by
  rw [entriesAt, entriesAt, List.map_map]
  refine List.map_congr_left fun l _ => ?_
  simp [spell]

theorem walkElems_eq (path : Text) {xs : List (Json ν)} {keys : List Text} {steps : List Step}
    (hwalk : ∀ x ∈ xs, ∀ p ≠ [], walk numText p x = entriesAt p (leaves numText x))
    (hkeys : steps.map stepText = keys.map fun key => '[' :: key ++ [']']) (hlength : steps.length = xs.length) :
    walkElems numText path keys xs = entriesAt path (leavesElems numText steps xs) := by
  induction xs generalizing keys steps with
  | nil => rfl
  | cons x xs ih =>
    cases steps with
    | nil => cases hlength
    | cons s steps =>
      cases keys with
      | nil => cases hkeys
      | cons key keys =>
        obtain ⟨hkey, hrest⟩ := List.cons.inj hkeys
        have hx := hwalk x List.mem_cons_self (path ++ '[' :: key ++ [']']) (by simp)
        have hxs := ih (fun y hy => hwalk y (List.mem_cons_of_mem x hy)) hrest (Nat.succ.inj hlength)
        rw [walkElems, leavesElems, List.headD_cons, List.headD_cons, List.tail_cons, List.tail_cons, hx, hxs,
          entriesAt_append, entriesAt_step, hkey, List.append_assoc]

theorem walkFields_eq {path : Text} (hpath : path ≠ []) {fs : Fields ν}
    (hwalk : ∀ k v, (k, v) ∈ fs → ∀ p ≠ [], walk numText p v = entriesAt p (leaves numText v)) :
    walkFields numText path fs = entriesAt path (leavesFields numText fs) := by
  induction fs with
  | nil => rfl
  | cons e fs ih =>
    obtain ⟨k, v⟩ := e
    have hv := hwalk k v List.mem_cons_self (path ++ segment k false) (by simp [hpath])
    have hfs := ih fun l w hw => hwalk l w (List.mem_cons_of_mem _ hw)
    rw [walkFields, leavesFields, if_neg hpath, hv, hfs, entriesAt_append, entriesAt_step]
    rfl

/-- Below the root, the walk sets the leaves under the path they are at. -/
theorem walk_eq (j : Json ν) {path : Text} (hpath : path ≠ []) :
    walk numText path j = entriesAt path (leaves numText j) := by
  have hleaf : ∀ value, leafAt path value = entriesAt path [([], value)] := by
    intro value
    simp [leafAt, entriesAt, spell, hpath]
  induction j using Json.induct generalizing path with
  | null => rw [walk, leaves, hleaf]
  | bool b => rw [walk, leaves, hleaf]
  | num n => rw [walk, leaves, hleaf]
  | str t => rw [walk, leaves, hleaf]
  | arr xs ih =>
    rw [walk, leaves]
    split
    · exact hleaf _
    · exact walkElems_eq path (fun x hx p hp => ih x hx hp fun value => by
        simp [leafAt, entriesAt, spell, hp]) (map_stepText_elemSteps xs) (length_elemSteps xs)
  | obj fs ih =>
    rw [walk, leaves]
    split
    · exact hleaf _
    · exact walkFields_eq hpath fun k v hv p hp => ih k v hv hp fun value => by
        simp [leafAt, entriesAt, spell, hp]

/-- The path of a leaf of the whole document. -/
def rootText : List Step → Text
  | [] => []
  | .field key :: p => segment key true ++ spell p
  | s :: p => stepText s ++ spell p

theorem segment_ne_nil (key : String) (root : Bool) : segment key root ≠ [] := by
  rw [segment]
  split
  · rename_i hplain
    split
    · simpa using (Bool.and_eq_true_iff.mp hplain).1
    · exact List.cons_ne_nil _ _
  · exact List.cons_ne_nil _ _

theorem walk_root (fs : Fields ν) (hne : fs ≠ []) :
    walk numText [] (.obj fs) = (leaves numText (.obj fs)).map fun l => (rootText l.1, l.2) := by
  have hfields : ∀ gs : Fields ν,
      walkFields numText [] gs = (leavesFields numText gs).map fun l => (rootText l.1, l.2) := by
    intro gs
    induction gs with
    | nil => rfl
    | cons e gs ih =>
      obtain ⟨k, v⟩ := e
      rw [walkFields, leavesFields, if_pos rfl, walk_eq v (segment_ne_nil k true), ih, List.map_append, List.map_map]
      rfl
  rw [walk, leaves, if_neg (by simpa using hne), if_neg (by simpa using hne)]
  exact hfields fs

/-! ## When the paths of a value's leaves are distinct -/

variable (numText) in
/-- No two leaves of the value have one text of steps. -/
def DistinctInside (j : Json ν) : Prop := ((leaves numText j).map fun l => spell l.1).Nodup

/-- Two values have leaves that come to one text behind these first texts. -/
def Meet (numText : ν → Text) (a b : Text × Json ν) : Prop :=
  ∃ l ∈ leaves numText a.2, ∃ m ∈ leaves numText b.2, a.1 ++ spell l.1 = b.1 ++ spell m.1

theorem Meet.symm {a b : Text × Json ν} (h : Meet numText a b) : Meet numText b a := by
  obtain ⟨l, hl, m, hm, heq⟩ := h
  exact ⟨m, hm, l, hl, heq.symm⟩

/-- The leaves of several values, each behind a text of its own. -/
def textsBehind (numText : ν → Text) (es : List (Text × Json ν)) : List Text :=
  es.flatMap fun e => (leaves numText e.2).map fun l => e.1 ++ spell l.1

theorem textsBehind_nodup {es : List (Text × Json ν)} : (textsBehind numText es).Nodup ↔
    (∀ e ∈ es, DistinctInside numText e.2) ∧ es.Pairwise fun a b => ¬ Meet numText a b := by
  rw [textsBehind, List.nodup_flatMap]
  refine and_congr (forall₂_congr fun e _ => ?_) (List.Pairwise.iff ?_)
  · have hbehind := List.nodup_map_iff (l := (leaves numText e.2).map fun l => spell l.1)
      (List.append_right_injective e.1)
    rw [List.map_map] at hbehind
    exact hbehind
  · intro a b
    rw [Function.onFun, List.disjoint_left]
    simp only [List.mem_map, Meet, not_exists, not_and]
    constructor
    · rintro h l hl m hm heq
      exact h ⟨l, hl, rfl⟩ m hm heq.symm
    · rintro h t ⟨l, hl, rfl⟩ m hm heq
      exact h l hl m hm heq.symm

theorem spell_leavesElems (steps : List Step) (xs : List (Json ν)) (hlength : steps.length = xs.length) :
    (leavesElems numText steps xs).map (fun l => spell l.1) =
      textsBehind numText ((steps.map stepText).zip xs) := by
  induction xs generalizing steps with
  | nil =>
    rw [List.zip_nil_right]
    rfl
  | cons x xs ih =>
    cases steps with
    | nil => cases hlength
    | cons s steps =>
      have hxs := ih steps (Nat.succ.inj hlength)
      rw [leavesElems, List.map_append, List.headD_cons, List.tail_cons, hxs, List.map_map]
      rfl

theorem texts_leavesFields (root : Bool) (fs : Fields ν) :
    textsBehind numText (fs.map fun e => (segment e.1 root, e.2)) =
      (leavesFields numText fs).map fun l => if root then rootText l.1 else spell l.1 := by
  induction fs with
  | nil => rfl
  | cons e fs ih =>
    obtain ⟨k, v⟩ := e
    rw [leavesFields, List.map_append, ← ih, List.map_map]
    cases root <;> rfl

/-- The fields of an object are always apart. -/
theorem fields_nodup (numText : ν → Text) (root : Bool) {fs : Fields ν} (hkeys : (fs.map Prod.fst).Nodup) :
    (textsBehind numText (fs.map fun e => (segment e.1 root, e.2))).Nodup ↔
      ∀ k v, (k, v) ∈ fs → DistinctInside numText v := by
  have hapart : (fs.map fun e => (segment e.1 root, e.2)).Pairwise fun a b => ¬ Meet numText a b := by
    rw [List.pairwise_map]
    refine (List.pairwise_map.mp hkeys).imp ?_
    rintro e f hne ⟨l, -, m, -, heq⟩
    exact hne (segment_inj (tail_spell l.1) (tail_spell m.1) heq).1
  rw [textsBehind_nodup, and_iff_left hapart]
  constructor
  · intro h k v hv
    have hmem : (segment k root, v) ∈ fs.map fun e => (segment e.1 root, e.2) := List.mem_map.mpr ⟨(k, v), hv, rfl⟩
    exact h _ hmem
  · intro h e he
    obtain ⟨⟨k, v⟩, hv, rfl⟩ := List.mem_map.mp he
    exact h k v hv

variable (numText) in
/-- No merge key of a list ends another entry's key early in a way that their leaves continue. -/
def KeysClear (xs : List (Json ν)) : Prop :=
  ∀ x ∈ xs, ∀ y ∈ xs, ∀ k u, mergeKeyOf numText x = some k → mergeKeyOf numText y = some (k ++ ']' :: u) →
    ∀ l ∈ leaves numText x, ∀ m ∈ leaves numText y, spell l.1 ≠ u ++ ']' :: spell m.1

theorem index_elems_apart (xs : List (Json ν)) :
    (((List.range xs.length).map fun i => stepText (.index i)).zip xs).Pairwise
      fun a b => ¬ Meet numText a b := by
  have hfst : ((List.range xs.length).map fun i => stepText (.index i)).Pairwise
      fun a b => ∀ x y : Json ν, ¬ Meet numText (a, x) (b, y) := by
    rw [List.pairwise_map]
    refine (List.nodup_range (n := xs.length)).imp ?_
    rintro i j hne x y ⟨l, -, m, -, heq⟩
    exact hne (FixedWidthText.toDigits_inj (bracket_inj (FixedWidthText.notMem_toDigits rfl i)
      (FixedWidthText.notMem_toDigits rfl j) heq).1)
  rw [List.pairwise_iff_getElem] at hfst ⊢
  intro i j hi hj hij
  rw [List.getElem_zip, List.getElem_zip]
  exact hfst i j _ _ hij _ _

/-- Two merge keys meet when one of them goes on behind a bracket as the other's leaf does. -/
theorem meet_merged_iff {k k' : Text} {x y : Json ν} (hne : k ≠ k') :
    Meet numText (stepText (.merged k), x) (stepText (.merged k'), y) ↔
      (∃ u, k' = k ++ ']' :: u ∧ ∃ l ∈ leaves numText x, ∃ m ∈ leaves numText y, spell l.1 = u ++ ']' :: spell m.1) ∨
      (∃ u, k = k' ++ ']' :: u ∧ ∃ m ∈ leaves numText y, ∃ l ∈ leaves numText x, spell m.1 = u ++ ']' :: spell l.1) := by
  have hsame : ∀ {a b s t : Text}, stepText (.merged a) ++ s = stepText (.merged b) ++ t ↔
      a ++ ']' :: s = b ++ ']' :: t := by
    intro a b s t
    simp [stepText]
  constructor
  · rintro ⟨l, hl, m, hm, heq⟩
    rcases List.append_eq_append_iff.mp (hsame.mp heq) with ⟨as, hk, htail⟩ | ⟨as, hk, htail⟩
    · cases as with
      | nil => exact absurd (hk.trans (List.append_nil k)).symm hne
      | cons c u =>
        obtain ⟨rfl, hrest⟩ := List.cons.inj htail
        exact Or.inl ⟨u, hk, l, hl, m, hm, hrest⟩
    · cases as with
      | nil => exact absurd (hk.trans (List.append_nil k')) hne
      | cons c u =>
        obtain ⟨rfl, hrest⟩ := List.cons.inj htail
        exact Or.inr ⟨u, hk, m, hm, l, hl, hrest⟩
  · rintro (⟨u, rfl, l, hl, m, hm, heq⟩ | ⟨u, rfl, m, hm, l, hl, heq⟩)
    · exact ⟨l, hl, m, hm, hsame.mpr (by simp [heq])⟩
    · exact ⟨l, hl, m, hm, hsame.mpr (by simp [heq])⟩

theorem merged_elems_apart {xs : List (Json ν)} (h : MergeKeyed numText xs) :
    (xs.map fun x => (stepText (.merged ((mergeKeyOf numText x).getD [])), x)).Pairwise
        (fun a b => ¬ Meet numText a b) ↔ KeysClear numText xs := by
  obtain ⟨hsome, hnodup⟩ := h
  have hkey : ∀ x ∈ xs, mergeKeyOf numText x = some ((mergeKeyOf numText x).getD []) := fun x hx =>
    (Option.getD_of_ne_none (Option.isSome_iff_ne_none.mp (hsome x hx)) []).symm
  have hxs : xs.Nodup := hnodup.of_map _
  have hne : ∀ x ∈ xs, ∀ y ∈ xs, x ≠ y → (mergeKeyOf numText x).getD [] ≠ (mergeKeyOf numText y).getD [] := by
    intro x hx y hy hxy heq
    exact hxy (List.inj_on_of_nodup_map hnodup hx hy (by rw [hkey x hx, hkey y hy, heq]))
  rw [List.pairwise_map]
  constructor
  · intro hpair x hx y hy k u hkx hky l hl m hm heq
    have hxy : x ≠ y := by
      rintro rfl
      rw [hkx] at hky
      have hlength := congrArg List.length (Option.some.inj hky)
      simp at hlength
    have hmeet : Meet numText (stepText (.merged ((mergeKeyOf numText x).getD [])), x)
        (stepText (.merged ((mergeKeyOf numText y).getD [])), y) := by
      rw [meet_merged_iff (hne x hx y hy hxy), hkx, hky]
      exact Or.inl ⟨u, rfl, l, hl, m, hm, heq⟩
    have : Std.Symm fun a b : Json ν => ¬ Meet numText (stepText (.merged ((mergeKeyOf numText a).getD [])), a)
        (stepText (.merged ((mergeKeyOf numText b).getD [])), b) :=
      ⟨fun a b hab hba => hab hba.symm⟩
    exact hpair.forall hx hy hxy hmeet
  · intro hclear
    refine (List.Nodup.pairwise_of_forall_ne hxs fun x hx y hy hxy => ?_)
    rw [meet_merged_iff (hne x hx y hy hxy)]
    rintro (⟨u, hk, l, hl, m, hm, heq⟩ | ⟨u, hk, m, hm, l, hl, heq⟩)
    · exact hclear x hx y hy _ u (hkey x hx) (by rw [hkey y hy, hk]) l hl m hm heq
    · exact hclear y hy x hx _ u (hkey y hy) (by rw [hkey x hx, hk]) m hm l hl heq

theorem distinctInside_elems {xs : List (Json ν)} (hne : xs ≠ []) : DistinctInside numText (.arr xs) ↔
    (∀ x ∈ xs, DistinctInside numText x) ∧ (MergeKeyed numText xs → KeysClear numText xs) := by
  rw [DistinctInside, leaves, if_neg (by simpa using hne), spell_leavesElems _ _ (length_elemSteps xs),
    textsBehind_nodup]
  refine and_congr ?_ ?_
  · have hlength : xs.length ≤ ((elemSteps numText xs).map stepText).length := by
      rw [List.length_map, length_elemSteps]
    have hmem : ∀ x, x ∈ xs ↔ ∃ e ∈ ((elemSteps numText xs).map stepText).zip xs, e.2 = x := by
      intro x
      rw [← List.mem_map, ← List.unzip_snd, List.unzip_zip_right hlength]
    constructor
    · intro h x hx
      obtain ⟨e, he, rfl⟩ := (hmem x).mp hx
      exact h e he
    · intro h e he
      exact h e.2 ((hmem e.2).mpr ⟨e, he, rfl⟩)
  · by_cases hkeyed : MergeKeyed numText xs
    · have hzip : ((elemSteps numText xs).map stepText).zip xs =
          xs.map fun x => (stepText (.merged ((mergeKeyOf numText x).getD [])), x) := by
        rw [elemSteps, if_pos hkeyed, List.map_map]
        have hself : (xs.map fun x => stepText (.merged ((mergeKeyOf numText x).getD []))).zip (xs.map id) =
            xs.map fun x => (stepText (.merged ((mergeKeyOf numText x).getD [])), id x) := List.zip_map'
        rw [List.map_id] at hself
        exact hself
      rw [hzip, merged_elems_apart hkeyed]
      exact ⟨fun h _ => h, fun h => h hkeyed⟩
    · have hzip : (elemSteps numText xs).map stepText = (List.range xs.length).map fun i => stepText (.index i) := by
        rw [elemSteps, if_neg hkeyed, List.map_map]
        rfl
      rw [hzip]
      exact ⟨fun _ h => absurd h hkeyed, fun _ => index_elems_apart xs⟩

/-- A value within another one. -/
inductive Within : Json ν → Json ν → Prop where
  | self (j : Json ν) : Within j j
  | elem {j x : Json ν} {xs : List (Json ν)} (hx : x ∈ xs) (h : Within j x) : Within j (.arr xs)
  | entry {j v : Json ν} {k : String} {fs : Fields ν} (hv : (k, v) ∈ fs) (h : Within j v) : Within j (.obj fs)

variable (numText) in
/-- The merge keys of every list in the value are clear. -/
def AllKeysClear (j : Json ν) : Prop :=
  ∀ xs, Within (.arr xs) j → MergeKeyed numText xs → KeysClear numText xs

theorem allKeysClear_arr {xs : List (Json ν)} : AllKeysClear numText (.arr xs) ↔
    (∀ x ∈ xs, AllKeysClear numText x) ∧ (MergeKeyed numText xs → KeysClear numText xs) := by
  constructor
  · exact fun h => ⟨fun x hx ys hys => h ys (.elem hx hys), h xs (.self _)⟩
  · rintro ⟨hinside, hself⟩ ys hys
    cases hys with
    | self => exact hself
    | elem hx h => exact hinside _ hx ys h

theorem allKeysClear_obj {fs : Fields ν} : AllKeysClear numText (.obj fs) ↔
    ∀ k v, (k, v) ∈ fs → AllKeysClear numText v := by
  constructor
  · exact fun h k v hv ys hys => h ys (.entry hv hys)
  · intro h ys hys
    cases hys with
    | entry hv hin => exact h _ _ hv ys hin

theorem distinctInside_iff {j : Json ν} (hwf : wellFormed j = true) :
    DistinctInside numText j ↔ AllKeysClear numText j := by
  have hscalar : ∀ {i : Json ν} {value : Text}, leaves numText i = [([], value)] →
      (∀ xs, ¬ Within (.arr xs) i) → (DistinctInside numText i ↔ AllKeysClear numText i) := by
    intro i value hleaves hnone
    refine ⟨fun _ xs hxs => absurd hxs (hnone xs), fun _ => ?_⟩
    rw [DistinctInside, hleaves]
    exact List.nodup_singleton _
  induction j using Json.induct with
  | null => exact hscalar (by rw [leaves]) fun xs h => by cases h
  | bool b => exact hscalar (by rw [leaves]) fun xs h => by cases h
  | num n => exact hscalar (by rw [leaves]) fun xs h => by cases h
  | str t => exact hscalar (by rw [leaves]) fun xs h => by cases h
  | arr xs ih =>
    by_cases hne : xs = []
    · subst hne
      have hclear : KeysClear numText ([] : List (Json ν)) := fun x hx => absurd hx List.not_mem_nil
      have hall : AllKeysClear numText (.arr ([] : List (Json ν))) :=
        allKeysClear_arr.mpr ⟨fun x hx => absurd hx List.not_mem_nil, fun _ => hclear⟩
      refine iff_of_true ?_ hall
      rw [DistinctInside, leaves]
      exact List.nodup_singleton _
    · rw [distinctInside_elems hne, allKeysClear_arr]
      refine and_congr_left fun _ => forall₂_congr fun x hx => ih x hx (wellFormed_elem hwf hx)
  | obj fs ih =>
    by_cases hne : fs = []
    · subst hne
      refine hscalar (by rw [leaves]; rfl) fun xs h => ?_
      cases h with
      | entry hv _ => cases hv
    · have hkeys := wellFormed_nodup hwf
      have hfields := fields_nodup numText false hkeys
      rw [texts_leavesFields] at hfields
      rw [DistinctInside, leaves, if_neg (by simpa using hne), allKeysClear_obj]
      refine hfields.trans (forall₃_congr fun k v hv => ih k v hv ?_)
      exact wellFormed_find hwf (find_of_mem hkeys hv)

theorem paths_nodup_iff {fs : Fields ν} (hwf : wellFormed (.obj fs) = true) :
    ((walk numText [] (.obj fs)).map Prod.fst).Nodup ↔ AllKeysClear numText (.obj fs) := by
  have hkeys := wellFormed_nodup hwf
  have hinside : (∀ k v, (k, v) ∈ fs → DistinctInside numText v) ↔ AllKeysClear numText (.obj fs) := by
    rw [allKeysClear_obj]
    exact forall₃_congr fun k v hv => distinctInside_iff (wellFormed_find hwf (find_of_mem hkeys hv))
  by_cases hne : fs = []
  · subst hne
    rw [← hinside]
    exact iff_of_true List.nodup_nil fun k v hv => absurd hv List.not_mem_nil
  · have hfields := fields_nodup numText true hkeys
    rw [texts_leavesFields] at hfields
    rw [walk_root fs hne, leaves, if_neg (by simpa using hne), List.map_map, ← hinside]
    exact hfields

/-! ## The order of a list with merge keys -/

variable (numText) in
/-- One list with distinct merge keys, anywhere in the value, in another order. -/
inductive Reordered : Json ν → Json ν → Prop where
  | here {xs ys : List (Json ν)} (hkeyed : MergeKeyed numText xs) (hperm : xs.Perm ys) :
      Reordered (.arr xs) (.arr ys)
  | elem {x y : Json ν} (before after : List (Json ν)) (h : Reordered x y) :
      Reordered (.arr (before ++ x :: after)) (.arr (before ++ y :: after))
  | entry {v w : Json ν} (k : String) (before after : Fields ν) (h : Reordered v w) :
      Reordered (.obj (before ++ (k, v) :: after)) (.obj (before ++ (k, w) :: after))

theorem Reordered.keyText_eq {a b : Json ν} (h : Reordered numText a b) : keyText numText a = keyText numText b := by
  cases h <;> rfl

theorem Reordered.mergeKeyOf_eq {a b : Json ν} (h : Reordered numText a b) :
    mergeKeyOf numText a = mergeKeyOf numText b := by
  cases h with
  | here hkeyed hperm => rfl
  | elem before after h => rfl
  | @entry v w k before after h =>
    have hfind : ∀ key, (find key (before ++ (k, v) :: after)).bind (keyText numText) =
        (find key (before ++ (k, w) :: after)).bind (keyText numText) := by
      intro key
      rw [find_append, find_append, find_cons, find_cons]
      cases find key before with
      | some u => rfl
      | none =>
        by_cases hk : k = key
        · simp [hk, h.keyText_eq]
        · simp [hk]
    simp only [mergeKeyOf, hfind]

theorem elemSteps_congr {xs ys : List (Json ν)} (h : xs.map (mergeKeyOf numText) = ys.map (mergeKeyOf numText)) :
    elemSteps numText xs = elemSteps numText ys := by
  have hlength : xs.length = ys.length := by simpa using congrArg List.length h
  have hkeyed : MergeKeyed numText xs ↔ MergeKeyed numText ys := by
    have hall : ∀ zs : List (Json ν), (∀ x ∈ zs, (mergeKeyOf numText x).isSome) ↔
        ∀ k ∈ zs.map (mergeKeyOf numText), k.isSome = true := fun zs => by simp
    rw [MergeKeyed, MergeKeyed, hall, hall, h]
  have hsteps : ∀ zs : List (Json ν), (zs.map fun x => Step.merged ((mergeKeyOf numText x).getD [])) =
      (zs.map (mergeKeyOf numText)).map fun k => Step.merged (k.getD []) := fun zs => by
    rw [List.map_map]
    rfl
  simp only [elemSteps, hkeyed, hsteps, h, hlength]

theorem leavesElems_map (f : Json ν → Step) (xs : List (Json ν)) :
    leavesElems numText (xs.map f) xs = xs.flatMap fun x => (leaves numText x).map fun l => (f x :: l.1, l.2) := by
  induction xs with
  | nil => rfl
  | cons x xs ih =>
    rw [List.map_cons, leavesElems, List.headD_cons, List.tail_cons, ih, List.flatMap_cons]

theorem leavesElems_perm {x y : Json ν} (h : (leaves numText x).Perm (leaves numText y)) (steps : List Step)
    (before after : List (Json ν)) :
    (leavesElems numText steps (before ++ x :: after)).Perm (leavesElems numText steps (before ++ y :: after)) := by
  induction before generalizing steps with
  | nil =>
    rw [List.nil_append, List.nil_append, leavesElems, leavesElems]
    exact (h.map _).append_right _
  | cons b before ih =>
    rw [List.cons_append, List.cons_append, leavesElems, leavesElems]
    exact (ih steps.tail).append_left _

theorem leavesFields_perm {v w : Json ν} (h : (leaves numText v).Perm (leaves numText w)) (k : String)
    (before after : Fields ν) : (leavesFields numText (before ++ (k, v) :: after)).Perm
      (leavesFields numText (before ++ (k, w) :: after)) := by
  induction before with
  | nil =>
    rw [List.nil_append, List.nil_append, leavesFields, leavesFields]
    exact (h.map _).append_right _
  | cons e before ih =>
    obtain ⟨l, u⟩ := e
    rw [List.cons_append, List.cons_append, leavesFields, leavesFields]
    exact ih.append_left _

/-- Reordering moves the leaves and keeps their positions. -/
theorem Reordered.leaves_perm {a b : Json ν} (h : Reordered numText a b) :
    (leaves numText a).Perm (leaves numText b) := by
  induction h with
  | @here xs ys hkeyed hperm =>
    have hkeyed' : MergeKeyed numText ys :=
      ⟨fun y hy => hkeyed.1 y (hperm.mem_iff.mpr hy), (hperm.map _).nodup_iff.mp hkeyed.2⟩
    by_cases hne : xs = []
    · subst hne
      rw [hperm.nil_eq]
    · have hne' : ys ≠ [] := fun hnil => hne (hnil ▸ hperm).eq_nil
      rw [leaves, leaves, if_neg (by simpa using hne), if_neg (by simpa using hne'), elemSteps, elemSteps,
        if_pos hkeyed, if_pos hkeyed', leavesElems_map, leavesElems_map]
      exact hperm.flatMap_right _
  | @elem x y before after h ih =>
    have hkeys : (before ++ x :: after).map (mergeKeyOf numText) = (before ++ y :: after).map (mergeKeyOf numText) := by
      rw [List.map_append, List.map_append, List.map_cons, List.map_cons, h.mergeKeyOf_eq]
    rw [leaves, leaves, if_neg (by simp), if_neg (by simp), elemSteps_congr hkeys]
    exact leavesElems_perm ih _ before after
  | @entry v w k before after h ih =>
    rw [leaves, leaves, if_neg (by simp), if_neg (by simp)]
    exact leavesFields_perm ih k before after

/-- The same entries in any order make the same map when no path repeats. -/
theorem lookup_of_perm {es fs : List (Text × Text)} (hnodup : (es.map Prod.fst).Nodup) (hperm : es.Perm fs)
    (path : Text) : valueAt path (fromEntries fs) = valueAt path (fromEntries es) := by
  have hnodup' : (fs.map Prod.fst).Nodup := (hperm.map _).nodup_iff.mp hnodup
  have hvalue : ∀ {gs : List (Text × Text)} {value}, (gs.map Prod.fst).Nodup →
      (valueAt path (fromEntries gs) = some value ↔ (path, value) ∈ gs) := by
    intro gs value hgs
    constructor
    · intro h
      exact mem_fromEntries ((lookup_eq_some_iff nodup_fromEntries).mp h)
    · intro h
      refine lookup_fromEntries h fun w hw => ?_
      exact (Prod.mk.inj (List.inj_on_of_nodup_map hgs hw h rfl)).2
  apply Option.ext
  intro value
  rw [hvalue hnodup', hvalue hnodup, hperm.mem_iff]

theorem Reordered.walk_perm {fs : Fields ν} {doc : Json ν} (h : Reordered numText (.obj fs) doc) :
    (walk numText [] (.obj fs)).Perm (walk numText [] doc) := by
  have hleaves := h.leaves_perm
  cases h with
  | entry k before after h =>
    rw [walk_root _ (by simp), walk_root _ (by simp)]
    exact hleaves.map _

end Leaves

/-- Every leaf has a path of its own, keeps its value, and does not depend on the order of lists with
merge keys, exactly when no merge key ends another one early in a way that their leaves continue. -/
theorem flattenFields_injective_iff {ν : Type} (numText : ν → Text) (fs : Fields ν)
    (hwf : wellFormed (.obj fs) = true) :
    (((walk numText [] (.obj fs)).map Prod.fst).Nodup ∧
        (∀ path value, (path, value) ∈ walk numText [] (.obj fs) →
          valueAt path (flattenFields numText (.obj fs)) = some value) ∧
        ∀ doc, Reordered numText (.obj fs) doc →
          ∀ path, valueAt path (flattenFields numText doc) = valueAt path (flattenFields numText (.obj fs))) ↔
      AllKeysClear numText (.obj fs) := by
  rw [← paths_nodup_iff hwf]
  refine ⟨fun h => h.1, fun hnodup => ⟨hnodup, fun path value hmem => ?_, fun doc hdoc path => ?_⟩⟩
  · refine lookup_fromEntries hmem fun w hw => ?_
    exact (Prod.mk.inj (List.inj_on_of_nodup_map hnodup hw hmem rfl)).2
  · exact lookup_of_perm hnodup hdoc.walk_perm path

/-- A list whose second entry is named as the path of the first one's field goes on. -/
def nestedNames : Fields ℕ :=
  let leaf : Json ℕ := .obj [("name", .str "c")]
  [("xs", .arr [.obj [("name", .str "a"), ("b", .arr [leaf])], .obj [("name", .str "a].b[=c")]])]

theorem nestedNames_share_a_path : wellFormed (.obj nestedNames) = true ∧
    ¬ ((walk (Nat.toDigits 10) [] (.obj nestedNames)).map Prod.fst).Nodup := by decide

theorem flattenFields_injective_port : let fs : Fields ℕ := [("port", .num 80)]
    wellFormed (.obj fs) = true ∧ ((walk (Nat.toDigits 10) [] (.obj fs)).map Prod.fst).Nodup := by
  intro fs
  have hwf : wellFormed (.obj fs) = true := by decide
  refine ⟨hwf, ((flattenFields_injective_iff (Nat.toDigits 10) fs hwf).mpr ?_).1⟩
  rw [← paths_nodup_iff hwf]
  decide

end FerrisScope.FieldFlatten
