import Mathlib.Algebra.BigOperators.Group.List.Basic
import Mathlib.Algebra.Order.Ring.Nat
import FerrisScope.JsonValue

/-!
# The text of JSON values

A value is written without blanks, a number as the literal it is given by. Text has two measures: the
bytes of its UTF-8 encoding, and the UTF-16 code units in which a string's length is counted. Writing a
character inside a string literal never takes fewer bytes than it has code units; the excess is its
`growth`.
-/

namespace FerrisScope.Json

def utf8Size (cs : List Char) : ℕ := (cs.map Char.utf8Size).sum

def utf16Size (c : Char) : ℕ := if c.toNat < 0x10000 then 1 else 2

/-- The length of a string in UTF-16 code units. -/
def utf16Length (s : String) : ℕ := (s.toList.map utf16Size).sum

/-- A character inside a string literal. -/
def escape (c : Char) : List Char :=
  if c = '"' then ['\\', '"']
  else if c = '\\' then ['\\', '\\']
  else if c = '\x08' then ['\\', 'b']
  else if c = '\x0c' then ['\\', 'f']
  else if c = '\n' then ['\\', 'n']
  else if c = '\r' then ['\\', 'r']
  else if c = '\t' then ['\\', 't']
  else if c.toNat < 0x20 then ['\\', 'u', '0', '0', Nat.digitChar (c.toNat / 16), Nat.digitChar (c.toNat % 16)]
  else [c]

def quote (s : String) : List Char := '"' :: s.toList.flatMap escape ++ ['"']

mutual
def text : Json String → List Char
  | .null => ['n', 'u', 'l', 'l']
  | .bool true => ['t', 'r', 'u', 'e']
  | .bool false => ['f', 'a', 'l', 's', 'e']
  | .num n => n.toList
  | .str s => quote s
  | .arr xs => '[' :: elemsText xs ++ [']']
  | .obj fs => '\x7b' :: fieldsText fs ++ ['\x7d']

def elemsText : List (Json String) → List Char
  | [] => []
  | [x] => text x
  | x :: xs => text x ++ ',' :: elemsText xs

def fieldsText : Fields String → List Char
  | [] => []
  | [(k, v)] => quote k ++ ':' :: text v
  | (k, v) :: fs => quote k ++ ':' :: text v ++ ',' :: fieldsText fs
end

def stringify (j : Json String) : String := String.ofList (text j)

def textSize (j : Json String) : ℕ := utf8Size (text j)

def escapedSize (s : String) : ℕ := (s.toList.map fun c => utf8Size (escape c)).sum

/-- The bytes by which the literal of a string exceeds its length and the two quotes. -/
def growth (s : String) : ℕ := (s.toList.map fun c => utf8Size (escape c) - utf16Size c).sum

@[simp] theorem utf8Size_nil : utf8Size [] = 0 := rfl

@[simp] theorem utf8Size_cons (c : Char) (cs : List Char) : utf8Size (c :: cs) = c.utf8Size + utf8Size cs := rfl

@[simp] theorem utf8Size_append (cs ds : List Char) : utf8Size (cs ++ ds) = utf8Size cs + utf8Size ds := by
  simp [utf8Size]

theorem utf8Size_flatMap {α : Type*} (f : α → List Char) (xs : List α) :
    utf8Size (xs.flatMap f) = (xs.map fun x => utf8Size (f x)).sum := by
  induction xs with
  | nil => rfl
  | cons x xs ih => simp [ih]

theorem utf8ByteSize_ofList (cs : List Char) : (String.ofList cs).utf8ByteSize = utf8Size cs := by
  induction cs with
  | nil => simp
  | cons c cs ih =>
    have hcons : String.ofList (c :: cs) = String.singleton c ++ String.ofList cs := by
      rw [← String.toList_inj]
      simp
    rw [hcons, String.utf8ByteSize_append, String.utf8ByteSize_singleton, ih, utf8Size_cons]

theorem utf8ByteSize_stringify (j : Json String) : (stringify j).utf8ByteSize = textSize j :=
  utf8ByteSize_ofList _

theorem utf8Size_quote (s : String) : utf8Size (quote s) = escapedSize s + 2 := by
  have hquote : ('"' : Char).utf8Size = 1 := rfl
  simp only [quote, List.cons_append, utf8Size_cons, utf8Size_append, utf8Size_flatMap, utf8Size_nil, hquote]
  rw [escapedSize]
  omega

/-- A character takes at least as many bytes in a literal as it has code units. -/
theorem utf16Size_le (c : Char) : utf16Size c ≤ utf8Size (escape c) := by
  have hle : utf16Size c ≤ 2 := by
    unfold utf16Size
    split_ifs <;> omega
  have hwide : utf16Size c ≤ c.utf8Size := by
    unfold utf16Size
    split_ifs with h
    · exact c.utf8Size_pos
    · have hval (n : UInt32) (hn : n.toNat < 0x10000) : ¬ c.val ≤ n := fun hcn => h (lt_of_le_of_lt hcn hn)
      simp [Char.utf8Size, hval]
  have hpos := Char.utf8Size_pos
  unfold escape
  split_ifs <;> simp only [utf8Size_cons, utf8Size_nil] <;> grind

theorem escapedSize_eq (s : String) : escapedSize s = utf16Length s + growth s := by
  unfold escapedSize utf16Length growth
  induction s.toList with
  | nil => rfl
  | cons c cs ih =>
    have hc := utf16Size_le c
    simp only [List.map_cons, List.sum_cons, ih]
    omega

/-- The literal of a string exceeds that of the empty one by the string's length and growth. -/
theorem textSize_str (s : String) : textSize (.str s) = textSize (.str "") + utf16Length s + growth s := by
  have hempty : textSize (.str "") = 2 := rfl
  rw [hempty, textSize, text, utf8Size_quote, escapedSize_eq]
  omega

theorem utf8Size_elemsText (xs : List (Json String)) :
    utf8Size (elemsText xs) = (xs.map textSize).sum + (xs.length - 1) := by
  have hcomma : (',' : Char).utf8Size = 1 := rfl
  induction xs with
  | nil => rfl
  | cons x xs ih =>
    cases xs with
    | nil => simp [elemsText, textSize]
    | cons y ys =>
      have hx : utf8Size (text x) = textSize x := rfl
      rw [elemsText, utf8Size_append, utf8Size_cons, hcomma, ih, hx]
      · simp only [List.map_cons, List.sum_cons, List.length_cons]
        omega
      · exact List.cons_ne_nil y ys

theorem utf8Size_fieldsText (fs : Fields String) :
    utf8Size (fieldsText fs) = (fs.map fun e => utf8Size (quote e.1) + 1 + textSize e.2).sum + (fs.length - 1) := by
  have hcomma : (',' : Char).utf8Size = 1 := rfl
  have hcolon : (':' : Char).utf8Size = 1 := rfl
  induction fs with
  | nil => rfl
  | cons e fs ih =>
    obtain ⟨k, v⟩ := e
    cases fs with
    | nil => simp [fieldsText, textSize, hcolon, add_assoc]
    | cons y ys =>
      have hv : utf8Size (text v) = textSize v := rfl
      rw [fieldsText]
      · simp only [List.append_assoc, utf8Size_append, utf8Size_cons, List.cons_append, hcomma, hcolon, ih, hv]
        simp only [List.map_cons, List.sum_cons, List.length_cons]
        omega
      · exact List.cons_ne_nil y ys

theorem textSize_arr (xs : List (Json String)) :
    textSize (.arr xs) = (xs.map textSize).sum + (xs.length - 1) + 2 := by
  have hopen : ('[' : Char).utf8Size = 1 := rfl
  have hclose : (']' : Char).utf8Size = 1 := rfl
  rw [textSize, text, List.cons_append, utf8Size_cons, utf8Size_append, utf8Size_elemsText, hopen, utf8Size_cons, hclose,
    utf8Size_nil]
  omega

theorem textSize_obj (fs : Fields String) :
    textSize (.obj fs) = (fs.map fun e => utf8Size (quote e.1) + 1 + textSize e.2).sum + (fs.length - 1) + 2 := by
  have hopen : ('\x7b' : Char).utf8Size = 1 := rfl
  have hclose : ('\x7d' : Char).utf8Size = 1 := rfl
  rw [textSize, text, List.cons_append, utf8Size_cons, utf8Size_append, utf8Size_fieldsText, hopen, utf8Size_cons,
    hclose, utf8Size_nil]
  omega

end FerrisScope.Json
