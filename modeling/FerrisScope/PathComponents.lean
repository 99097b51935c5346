import Mathlib.Data.List.Basic
import Mathlib.Tactic.Common

/-!
# Components of a path

A path is a text whose parts are separated by slashes. Empty parts and single dots say nothing, but for a dot at the
beginning. A file name is a part that stands for itself.
-/

namespace FerrisScope.PathComponents

inductive Component where
  | rootDir
  | curDir
  | parentDir
  | normal (name : List Char)
  deriving DecidableEq, Repr

def component (part : List Char) : Option Component :=
  if part = [] ∨ part = ['.'] then none else if part = ['.', '.'] then some .parentDir else some (.normal part)

/-- What a path begins with, before its parts. -/
def start (p : List Char) : List Component :=
  if p.head? = some '/' then [.rootDir] else if (p.splitOn '/').head? = some ['.'] then [.curDir] else []

def components (p : List Char) : List Component := start p ++ (p.splitOn '/').filterMap component

/-- A path below another one, or the path itself if it starts at the root. -/
def join (p q : List Char) : List Char :=
  if q.head? = some '/' then q else if p = [] ∨ p.getLast? = some '/' then p ++ q else p ++ '/' :: q

/-- A part that stands for itself. -/
structure IsFileName (name : List Char) : Prop where
  ne_nil : name ≠ []
  ne_dot : name ≠ ['.']
  ne_dots : name ≠ ['.', '.']
  no_slash : '/' ∉ name

variable {name : List Char}

theorem IsFileName.component (h : IsFileName name) : component name = some (.normal name) := by
  rw [PathComponents.component, if_neg (not_or.mpr ⟨h.ne_nil, h.ne_dot⟩), if_neg h.ne_dots]

theorem IsFileName.splitOn (h : IsFileName name) : name.splitOn '/' = [name] := List.splitOn_eq_singleton h.no_slash

theorem IsFileName.head?_ne (h : IsFileName name) : name.head? ≠ some '/' := fun hs =>
  h.no_slash (List.mem_of_mem_head? hs)

theorem IsFileName.components (h : IsFileName name) : components name = [.normal name] := by
  have hdot : (name.splitOn '/').head? ≠ some ['.'] := by
    rw [h.splitOn]
    exact fun hs => h.ne_dot (Option.some_inj.mp hs)
  rw [PathComponents.components, start, if_neg h.head?_ne, if_neg hdot, h.splitOn, List.filterMap_cons, h.component]
  rfl

/-- The beginning of a path does not depend on what comes behind a slash. -/
theorem start_append {p q : List Char} (hp : p ≠ []) (hq : (p.splitOn '/').head? = ((p ++ q).splitOn '/').head?) :
    start (p ++ q) = start p := by
  rw [start, start, hq, List.head?_append_of_ne_nil p hp]

theorem head?_splitOn_append (p q : List Char) : ((p ++ '/' :: q).splitOn '/').head? = (p.splitOn '/').head? := by
  rw [List.splitOn_append_cons_self, List.head?_append_of_ne_nil _ (List.splitOn_ne_nil _ _)]

/-- A file name below a path is one more component. -/
theorem components_join (p : List Char) (h : IsFileName name) : components (join p name) = components p ++ [.normal name] := by
  have hname : (name.splitOn '/').filterMap component = [.normal name] := by
    rw [h.splitOn, List.filterMap_cons, h.component]
    rfl
  rw [join, if_neg h.head?_ne]
  by_cases hnil : p = []
  · rw [if_pos (Or.inl hnil), hnil, List.nil_append, h.components]
    rfl
  by_cases hlast : p.getLast? = some '/'
  · obtain ⟨r, rfl⟩ := List.getLast?_eq_some_iff.mp hlast
    have hhead : (((r ++ ['/']).splitOn '/')).head? = ((r ++ ['/'] ++ name).splitOn '/').head? := by
      rw [List.append_assoc, List.singleton_append, head?_splitOn_append, head?_splitOn_append]
    rw [if_pos (Or.inr hlast), components, components, start_append hnil hhead, List.append_assoc (start _)]
    congr 1
    rw [List.append_assoc, List.singleton_append, List.splitOn_append_cons_self, List.splitOn_append_cons_self,
      List.filterMap_append, List.filterMap_append, hname]
    simp [component]
  · rw [if_neg (not_or.mpr ⟨hnil, hlast⟩), components, components,
      start_append hnil (head?_splitOn_append p name).symm, List.splitOn_append_cons_self, List.filterMap_append, hname,
      List.append_assoc]

end FerrisScope.PathComponents
