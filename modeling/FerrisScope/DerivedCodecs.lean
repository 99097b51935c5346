import FerrisScope.EntryLists
import FerrisScope.JsonValue

/-!
# Derived JSON codecs

A shape says how values of a type are written and read back. Shapes are put together from those of
the parts: lists, options, enumerations and records. A record writes a list of entries, some of
them left out under a condition, and reads each field by its key, with an error or a default where
the key is missing. An optional value is written as itself or as `null`, so an option whose inner
value is written as `null` reads back as nothing.
-/

namespace FerrisScope.DerivedCodecs
open Json

variable {ν α β : Type}

structure Shape (ν α : Type) where
  write : α → Json ν
  read : Json ν → Option α

/-- The value comes back as it was. -/
def Shape.Exact (S : Shape ν α) (a : α) : Prop := S.read (S.write a) = some a

def string : Shape ν String where
  write := .str
  read := asStr

/-- Any JSON value, as itself. -/
def verbatim : Shape ν (Json ν) where
  write := id
  read := some

def list (S : Shape ν α) : Shape ν (List α) where
  write xs := .arr (xs.map S.write)
  read
    | .arr xs => xs.mapM S.read
    | _ => none

def option (S : Shape ν α) : Shape ν (Option α) where
  write
    | none => .null
    | some a => S.write a
  read
    | .null => some none
    | j => (S.read j).map some

/-- An enumeration without data, written by name. -/
def enumeration (name : α → String) (all : List α) : Shape ν α where
  write a := .str (name a)
  read j := (asStr j).bind fun s => all.find? fun a => name a = s

/-- A record: the entries written, and the fields read from an object. -/
def record (write : α → Fields ν) (read : Fields ν → Option α) : Shape ν α where
  write a := .obj (write a)
  read
    | .obj fs => read fs
    | _ => none

def boolean : Shape ν Bool where
  write := .bool
  read
    | .bool b => some b
    | _ => none

/-- An enumeration without data, which may also be read from an entry without a value. -/
def unitVariants (name : α → String) (all : List α) : Shape ν α where
  write a := .str (name a)
  read
    | .str s => all.find? fun a => name a = s
    | .obj [(s, .null)] => all.find? fun a => name a = s
    | _ => none

/-- A record whose fields may also be read by their places. -/
def struct (names : List String) (write : α → Fields ν) (read : Fields ν → Option α) : Shape ν α where
  write a := .obj (write a)
  read
    | .obj fs => read fs
    | .arr xs => if xs.length ≤ names.length then read (names.zip xs) else none
    | _ => none

/-- A map whose keys have names. Entries under other names are read and left out. -/
def table {κ : Type} (name : κ → String) (all : List κ) (S : Shape ν α) : Shape ν (κ → Option α) where
  write m := .obj (all.filterMap fun k => (m k).map fun a => (name k, S.write a))
  read
    | .obj fs => if fs.all (fun e => (S.read e.2).isSome) then some fun k => (find (name k) fs).bind S.read else none
    | _ => none

/-- A set whose elements have names. Other names are left out. -/
def nameSet {κ : Type} (name : κ → String) (all : List κ) : Shape ν (κ → Bool) where
  write m := .arr ((all.filter m).map fun k => .str (name k))
  read
    | .arr xs => (xs.mapM asStr).map fun names k => names.contains (name k)
    | _ => none

/-- Entries under any keys, each once. -/
abbrev Dictionary (α : Type) := { es : List (String × α) // (es.map Prod.fst).Nodup }

def dictionary (S : Shape ν α) : Shape ν (Dictionary α) where
  write m := .obj (m.1.map fun e => (e.1, S.write e.2))
  read
    | .obj fs => (fs.mapM fun e => (S.read e.2).map fun a => (e.1, a)).map fun es =>
        ⟨EntryLists.fromEntries es, EntryLists.nodup_fromEntries⟩
    | _ => none

/-- An entry that is left out under a condition. -/
def entryUnless (skip : Bool) (k : String) (j : Json ν) : Fields ν := if skip then [] else [(k, j)]

/-- A field that must be there. -/
def required (S : Shape ν α) (k : String) (fs : Fields ν) : Option α := (find k fs).bind S.read

/-- A field with a default. -/
def orDefault (S : Shape ν α) (k : String) (default : α) (fs : Fields ν) : Option α :=
  match find k fs with
  | none => some default
  | some j => S.read j

theorem string_exact (s : String) : (string : Shape ν String).Exact s := rfl

theorem verbatim_exact (j : Json ν) : (verbatim : Shape ν (Json ν)).Exact j := rfl

theorem list_exact {S : Shape ν α} {xs : List α} (h : ∀ x ∈ xs, S.Exact x) : (list S).Exact xs := by
  change (xs.map S.write).mapM S.read = some xs
  induction xs with
  | nil => rfl
  | cons x xs ih =>
    have hx : S.read (S.write x) = some x := h x List.mem_cons_self
    rw [List.map_cons, List.mapM_cons, hx, ih fun y hy => h y (List.mem_cons_of_mem x hy)]
    rfl

theorem boolean_exact (b : Bool) : (boolean : Shape ν Bool).Exact b := rfl

section Tables
variable {κ : Type} {name : κ → String} {all : List κ} {S : Shape ν α}

theorem find_table_write [DecidableEq κ] (hname : Function.Injective name) (m : κ → Option α) (k : κ) :
    find (name k) (all.filterMap fun k => (m k).map fun a => (name k, S.write a)) =
      if k ∈ all then (m k).map S.write else none := by
  induction all with
  | nil => rfl
  | cons l all ih =>
    by_cases hk : k = l
    · subst hk
      cases hm : m k with
      | none =>
        rw [List.filterMap_cons_none (by rw [hm]; rfl), ih, hm]
        simp
      | some a =>
        rw [List.filterMap_cons_some (by rw [hm]; rfl), find_cons, if_pos rfl, if_pos List.mem_cons_self]
        rfl
    · have hmem : k ∈ l :: all ↔ k ∈ all := by simp [hk]
      have hne : name l ≠ name k := fun heq => hk (hname heq).symm
      cases hm : m l with
      | none => rw [List.filterMap_cons_none (by rw [hm]; rfl), ih, if_congr hmem rfl rfl]
      | some a =>
        rw [List.filterMap_cons_some (by rw [hm]; rfl), find_cons, if_neg hne, ih, if_congr hmem rfl rfl]

theorem table_exact [DecidableEq κ] (hname : Function.Injective name) (hall : ∀ k, k ∈ all) (h : ∀ a, S.Exact a) (m : κ → Option α) :
    (table name all S).Exact m := by
  have hread : ((all.filterMap fun k => (m k).map fun a => (name k, S.write a)).all fun e => (S.read e.2).isSome) =
      true := by
    apply List.all_eq_true.mpr
    intro e he
    obtain ⟨k, -, hk⟩ := List.mem_filterMap.mp he
    obtain ⟨a, -, rfl⟩ := Option.map_eq_some_iff.mp hk
    rw [h a]
    rfl
  have hvalues : (fun k => (find (name k) (all.filterMap fun k => (m k).map fun a => (name k, S.write a))).bind S.read) =
      m := by
    funext k
    rw [find_table_write hname, if_pos (hall k)]
    cases m k with
    | none => rfl
    | some a => exact h a
  change (if _ then some _ else none) = some m
  rw [if_pos hread, hvalues]

theorem nameSet_exact (hname : Function.Injective name) (hall : ∀ k, k ∈ all) (m : κ → Bool) :
    (nameSet name all : Shape ν (κ → Bool)).Exact m := by
  have hread : ((all.filter m).map fun k => (Json.str (name k) : Json ν)).mapM asStr = some ((all.filter m).map name) := by
    induction all.filter m with
    | nil => rfl
    | cons k ks ih =>
      rw [List.map_cons, List.mapM_cons, ih]
      rfl
  have hset : (fun k => ((all.filter m).map name).contains (name k)) = m := by
    funext k
    rw [Bool.eq_iff_iff, List.contains_iff_mem, List.mem_map_of_injective hname, List.mem_filter]
    exact and_iff_right (hall k)
  change (((all.filter m).map fun k => (Json.str (name k) : Json ν)).mapM asStr).map _ = some m
  rw [hread, Option.map_some, hset]

theorem dictionary_exact (h : ∀ a, S.Exact a) (m : Dictionary α) : (dictionary S).Exact m := by
  obtain ⟨es, hnodup⟩ := m
  have hread : (es.map fun e : String × α => (e.1, S.write e.2)).mapM (fun e : String × Json ν => (S.read e.2).map fun a => (e.1, a)) = some es := by
    clear hnodup
    induction es with
    | nil => rfl
    | cons e es ih =>
      have hvalue : S.read (S.write e.2) = some e.2 := h e.2
      rw [List.map_cons, List.mapM_cons, ih, hvalue]
      rfl
  have hmap : (dictionary S).read (.obj (es.map fun e => (e.1, S.write e.2))) =
      some ⟨EntryLists.fromEntries es, EntryLists.nodup_fromEntries⟩ := by
    simp only [dictionary, hread, Option.map_some]
  exact hmap.trans <| congrArg some (Subtype.ext (EntryLists.fromEntries_of_nodup hnodup))

end Tables

/-- A value that is written as `null` does not come back. -/
theorem option_read_null {S : Shape ν α} {a : α} (h : S.write a = .null) :
    (option S).read ((option S).write (some a)) = some none := by
  change (option S).read (S.write a) = some none
  rw [h]
  rfl

theorem option_read_some {S : Shape ν α} {a : α} (h : S.write a ≠ .null) :
    (option S).read ((option S).write (some a)) = (S.read (S.write a)).map some := by
  change (option S).read (S.write a) = _
  cases hj : S.write a with
  | null => exact absurd hj h
  | bool b => rfl
  | num n => rfl
  | str s => rfl
  | arr xs => rfl
  | obj fs => rfl

theorem option_exact {S : Shape ν α} (h : ∀ a, S.Exact a ∧ S.write a ≠ .null) (o : Option α) : (option S).Exact o := by
  cases o with
  | none => rfl
  | some a =>
    rw [Shape.Exact, option_read_some (h a).2, (h a).1]
    rfl

@[simp] theorem find_entryUnless (skip : Bool) (k k' : String) (j : Json ν) :
    find k (entryUnless skip k' j) = if k' = k ∧ skip = false then some j else none := by
  cases skip <;> simp [entryUnless, find]

theorem find_entryUnless_self (skip : Bool) (k : String) (j : Json ν) :
    find k (entryUnless skip k j) = if skip then none else some j := by
  cases skip <;> simp

theorem required_of_find {S : Shape ν α} {k : String} {fs : Fields ν} {a : α} (hfind : find k fs = some (S.write a))
    (hexact : S.Exact a) : required S k fs = some a := by
  rw [required, hfind]
  exact hexact

/-- A field that is always written comes back. -/
theorem orDefault_of_find {S : Shape ν α} {k : String} {fs : Fields ν} {a default : α} (hfind : find k fs = some (S.write a))
    (hexact : S.Exact a) : orDefault S k default fs = some a := by
  rw [orDefault, hfind]
  exact hexact

/-- An optional field, left out when there is none. -/
def entryIfSome (S : Shape ν α) (k : String) (o : Option α) : Fields ν :=
  entryUnless o.isNone k ((option S).write o)

/-- A list, left out when empty. -/
def entryIfAny (S : Shape ν α) (k : String) (xs : List α) : Fields ν :=
  entryUnless xs.isEmpty k ((list S).write xs)

theorem find_entryUnless_of_ne {skip : Bool} {k k' : String} {j : Json ν} (h : k' ≠ k) :
    find k (entryUnless skip k' j) = none := by
  rw [find_entryUnless, if_neg fun hk => h hk.1]

@[simp] theorem find_entryIfSome_of_ne {S : Shape ν α} {k k' : String} {o : Option α} (h : k' ≠ k) :
    find k (entryIfSome S k' o) = none := find_entryUnless_of_ne h

@[simp] theorem find_entryIfAny_of_ne {S : Shape ν α} {k k' : String} {xs : List α} (h : k' ≠ k) :
    find k (entryIfAny S k' xs) = none := find_entryUnless_of_ne h

/-- What a doubly optional value comes back as. -/
def sentinelBack (S : Shape ν α) : Option (Option α) → Option (Option (Option α))
  | some (some a) => (option (option S)).read (S.write a)
  | _ => some none

section Fields

variable {S : Shape ν α} {k : String} {fs : Fields ν}

/-- A field that is left out only when it has its default comes back. -/
theorem orDefault_unless {a default : α} (h : S.Exact a) {skip : Bool} (hskip : skip = true → a = default)
    (hfind : find k fs = find k (entryUnless skip k (S.write a))) : orDefault S k default fs = some a := by
  rw [find_entryUnless_self] at hfind
  rw [orDefault, hfind]
  cases skip with
  | true => rw [hskip rfl]; rfl
  | false => exact h

/-- An optional field comes back when its values do and none of them is written as `null`. -/
theorem orDefault_ifSome (h : ∀ a, S.Exact a ∧ S.write a ≠ .null) {o : Option α}
    (hfind : find k fs = find k (entryIfSome S k o)) : orDefault (option S) k none fs = some o :=
  orDefault_unless (option_exact h o) Option.isNone_iff_eq_none.mp hfind

theorem orDefault_ifAny (h : ∀ a, S.Exact a) {xs : List α} (hfind : find k fs = find k (entryIfAny S k xs)) :
    orDefault (list S) k [] fs = some xs :=
  orDefault_unless (list_exact fun x _ => h x) List.isEmpty_iff.mp hfind

/-- A doubly optional field reads back as nothing unless it has an inner value. -/
theorem orDefault_sentinel {o : Option (Option α)} (hfind : find k fs = find k (entryIfSome (option S) k o)) :
    orDefault (option (option S)) k none fs = sentinelBack S o := by
  rw [entryIfSome, find_entryUnless_self] at hfind
  rw [orDefault, hfind]
  match o with
  | none => rfl
  | some none => rfl
  | some (some a) => rfl

/-- The inner value comes back unless it is written as `null` itself. -/
theorem sentinelBack_of_exact {a : α} (h : S.Exact a) (hnull : S.write a ≠ .null) :
    sentinelBack S (some (some a)) = some (some (some a)) := by
  have hinner : (option S).read (S.write a) = some (some a) := by
    have hread := option_read_some (S := S) hnull
    rw [h] at hread
    exact hread
  have houter := option_read_some (S := option S) (a := some a) hnull
  rw [Shape.Exact] at h
  change (option (option S)).read (S.write a) = _ at houter
  rw [show (option S).write (some a) = S.write a from rfl, hinner] at houter
  exact houter

theorem sentinelBack_of_null {a : α} (hnull : S.write a = .null) : sentinelBack S (some (some a)) = some none :=
  option_read_null (S := option S) (a := some a) hnull

end Fields

/-- A doubly optional value without its clears and without the inner values `p` does not allow. -/
def keepSet (p : α → Bool) : Option (Option α) → Option (Option α)
  | some (some a) => if p a then some (some a) else none
  | _ => none

theorem sentinelBack_eq {S : Shape ν α} {p : α → Bool} (hexact : ∀ a, p a = true → S.Exact a ∧ S.write a ≠ .null)
    (hnull : ∀ a, p a = false → S.write a = .null) (o : Option (Option α)) :
    sentinelBack S o = some (keepSet p o) := by
  match o with
  | none => rfl
  | some none => rfl
  | some (some a) =>
    cases h : p a with
    | true => rw [sentinelBack_of_exact (hexact a h).1 (hexact a h).2, keepSet, h, if_pos rfl]
    | false => rw [sentinelBack_of_null (hnull a h), keepSet, h, if_neg Bool.false_ne_true]

theorem keepSet_eq_self_iff {p : α → Bool} {o : Option (Option α)} :
    keepSet p o = o ↔ o ≠ some none ∧ ∀ a, o = some (some a) → p a = true := by
  match o with
  | none => simp [keepSet]
  | some none => simp [keepSet]
  | some (some a) => simp [keepSet]

end FerrisScope.DerivedCodecs
