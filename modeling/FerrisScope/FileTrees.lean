import FerrisScope.EntryLists

/-!
# Trees of files

A directory has entries with names, each a file or a directory of its own. What stands at a path is a file with its
content and mode, or a directory with its mode.
-/

namespace FerrisScope.FileTrees
open EntryLists

variable {ν γ μ : Type}

inductive Tree (ν γ μ : Type) where
  | file (content : γ) (mode : μ)
  | dir (mode : μ) (entries : List (ν × Tree ν γ μ))

inductive Node (γ μ : Type) where
  | file (content : γ) (mode : μ)
  | dir (mode : μ)
  deriving DecidableEq, Repr

abbrev Entries (ν γ μ : Type) := List (ν × Tree ν γ μ)

namespace Tree

def node : Tree ν γ μ → Node γ μ
  | .file content mode => .file content mode
  | .dir mode _ => .dir mode

/-- A file has no entries. -/
def entries : Tree ν γ μ → Entries ν γ μ
  | .file _ _ => []
  | .dir _ es => es

/-- No directory has two entries of one name. -/
inductive WellFormed : Tree ν γ μ → Prop
  | file (content : γ) (mode : μ) : WellFormed (.file content mode)
  | dir {mode : μ} {es : Entries ν γ μ} (nodup : (es.map Prod.fst).Nodup) (all : ∀ e ∈ es, WellFormed e.2) :
      WellFormed (.dir mode es)

variable [DecidableEq ν]

/-- What stands at a path below a place, if anything does. -/
def at? : Option (Tree ν γ μ) → List ν → Option (Node γ μ)
  | none, _ => none
  | some t, [] => some t.node
  | some t, n :: path => at? (t.entries.lookup n) path

theorem at?_none (path : List ν) : at? (none : Option (Tree ν γ μ)) path = none := by
  cases path <;> rfl

theorem at?_cons (t : Tree ν γ μ) (n : ν) (path : List ν) : at? (some t) (n :: path) = at? (t.entries.lookup n) path := rfl

omit [DecidableEq ν] in
theorem WellFormed.nodup_entries {t : Tree ν γ μ} (h : t.WellFormed) : (t.entries.map Prod.fst).Nodup := by
  cases h with
  | file => exact List.nodup_nil
  | dir hnodup _ => exact hnodup

omit [DecidableEq ν] in
theorem WellFormed.entry {t : Tree ν γ μ} (h : t.WellFormed) {e : ν × Tree ν γ μ} (he : e ∈ t.entries) :
    e.2.WellFormed := by
  cases h with
  | file => cases he
  | dir _ hall => exact hall e he

theorem WellFormed.lookup {t u : Tree ν γ μ} (h : t.WellFormed) {n : ν} (hu : t.entries.lookup n = some u) :
    u.WellFormed :=
  h.entry ((lookup_eq_some_iff h.nodup_entries).mp hu)

end Tree

/-- A directory in which no name is given twice, at any depth. -/
structure Folder (ν γ μ : Type) where
  mode : μ
  entries : Entries ν γ μ
  wellFormed : (Tree.dir mode entries).WellFormed

def Folder.tree (f : Folder ν γ μ) : Tree ν γ μ := .dir f.mode f.entries

def Folder.at? [DecidableEq ν] (f : Folder ν γ μ) (path : List ν) : Option (Node γ μ) := Tree.at? (some f.tree) path

end FerrisScope.FileTrees
