import FerrisScope.FileTrees
import Mathlib.Data.String.Basic

/-!
# Updates of the installed application

The entries of the package are copied over those that are installed, and what the package does not have is removed.
Leftovers of an earlier update stay. Files get their permissions from the package. Directories keep those they have,
and new ones get those of any new directory.
-/

namespace FerrisScope.PackageSync
open FileTrees EntryLists

variable {γ μ : Type}

abbrev FileTree (γ μ : Type) := Tree String γ μ

/-- The name of a file that was moved out of the way. -/
def isUpdateOld (name : String) : Bool := decide (".fs-update-old".toList <:+ name.toList)

/-- What is left of a file or a directory that is removed. -/
def removed (_ : FileTree γ μ) : Option (FileTree γ μ) := none

/-- A file gives way to a directory. -/
def unblock : Option (FileTree γ μ) → Option (FileTree γ μ)
  | some (.file content mode) => removed (.file content mode)
  | there => there

/-- The mode and the entries of the directory that is there then. -/
def createDirAll (newMode : μ) : Option (FileTree γ μ) → μ × Entries String γ μ
  | some (.dir mode es) => (mode, es)
  | _ => (newMode, [])

/-- Whatever is there gives way to a file. A file can be removed, so none is renamed. -/
def makeWay (there : Option (FileTree γ μ)) : Option (FileTree γ μ) := there.bind removed

/-- A copy has the content and the permissions of its source, also where a file is. -/
def copyFile (content : γ) (mode : μ) : Option (FileTree γ μ) → FileTree γ μ := fun _ => .file content mode

def removeStaleEntries (source there : Entries String γ μ) : Entries String γ μ :=
  there.filter fun e => isUpdateOld e.1 || (source.lookup e.1).isSome

mutual
def syncPath (newMode : μ) : FileTree γ μ → Option (FileTree γ μ) → FileTree γ μ
  | .dir _ es, there =>
      let made := createDirAll newMode (unblock there)
      .dir made.1 (removeStaleEntries es (syncEntries newMode es made.2))
  | .file content mode, there => copyFile content mode (makeWay there)

/-- The entries of a directory, one after the other. -/
def syncEntries (newMode : μ) : Entries String γ μ → Entries String γ μ → Entries String γ μ
  | [], there => there
  | (name, t) :: es, there => syncEntries newMode es (put name (syncPath newMode t (there.lookup name)) there)
end

section Trees

variable {newMode : μ} {es there : Entries String γ μ}

theorem lookup_syncEntries (h : (es.map Prod.fst).Nodup) (there : Entries String γ μ) (name : String) :
    (syncEntries newMode es there).lookup name =
      (es.lookup name).elim (there.lookup name) fun t => some (syncPath newMode t (there.lookup name)) := by
  induction es generalizing there with
  | nil => rfl
  | cons e es ih =>
    obtain ⟨first, t⟩ := e
    obtain ⟨hnew, hrest⟩ := List.nodup_cons.mp h
    rw [syncEntries, ih hrest, lookup_put]
    by_cases hname : name = first
    · subst hname
      rw [lookup_of_notMem hnew, if_pos rfl, List.lookup_cons_self]
      rfl
    · rw [if_neg hname, lookup_cons_of_ne hname]

/-- An entry of the package is synchronised, and any other stays only as a leftover. -/
theorem lookup_synced (newMode : μ) (h : (es.map Prod.fst).Nodup) (there : Entries String γ μ) (name : String) :
    (removeStaleEntries es (syncEntries newMode es there)).lookup name =
      (es.lookup name).elim (if isUpdateOld name then there.lookup name else none)
        fun t => some (syncPath newMode t (there.lookup name)) := by
  refine (lookup_filter (fun k => isUpdateOld k || (es.lookup k).isSome) name).trans ?_
  rw [lookup_syncEntries h]
  cases es.lookup name with
  | none => simp
  | some t => simp

theorem nodup_syncEntries (h : (there.map Prod.fst).Nodup) : ((syncEntries newMode es there).map Prod.fst).Nodup := by
  induction es generalizing there with
  | nil => exact h
  | cons e es ih => exact ih (nodup_put h)

theorem wellFormed_entries (hes : ∀ e ∈ es, ∀ u : Option (FileTree γ μ), (∀ v, u = some v → v.WellFormed) →
    (syncPath newMode e.2 u).WellFormed) (hnodup : (there.map Prod.fst).Nodup) (hthere : ∀ e ∈ there, e.2.WellFormed) :
    ∀ e ∈ syncEntries newMode es there, e.2.WellFormed := by
  induction es generalizing there with
  | nil => exact hthere
  | cons e es ih =>
    obtain ⟨hfirst, hrest⟩ := List.forall_mem_cons.mp hes
    refine ih hrest (nodup_put hnodup) fun d hd => ?_
    rcases mem_put hd with rfl | hd
    · exact hfirst _ fun v hv => hthere _ ((lookup_eq_some_iff hnodup).mp hv)
    · exact hthere d hd

/-- The directory that there is then is well formed if what was there is. -/
theorem wellFormed_made {slot : Option (FileTree γ μ)} (h : ∀ v, slot = some v → v.WellFormed) :
    ((createDirAll newMode (unblock slot)).2.map Prod.fst).Nodup ∧
      ∀ e ∈ (createDirAll newMode (unblock slot)).2, e.2.WellFormed := by
  match slot with
  | none => exact ⟨List.nodup_nil, List.forall_mem_nil _⟩
  | some (.file content mode) => exact ⟨List.nodup_nil, List.forall_mem_nil _⟩
  | some (.dir mode es) => exact ⟨(h _ rfl).nodup_entries, fun e he => (h _ rfl).entry he⟩

theorem wellFormed_dir {mode : μ} (hes : ∀ e ∈ es, ∀ u : Option (FileTree γ μ), (∀ v, u = some v → v.WellFormed) →
    (syncPath newMode e.2 u).WellFormed) (hnodup : (there.map Prod.fst).Nodup) (hthere : ∀ e ∈ there, e.2.WellFormed) :
    (Tree.dir mode (removeStaleEntries es (syncEntries newMode es there))).WellFormed := by
  refine .dir ?_ fun e he => wellFormed_entries hes hnodup hthere e (List.mem_of_mem_filter he)
  exact (nodup_syncEntries hnodup).sublist (List.filter_sublist.map _)

theorem wellFormed_syncPath {t : FileTree γ μ} (h : t.WellFormed) (slot : Option (FileTree γ μ))
    (hslot : ∀ v, slot = some v → v.WellFormed) : (syncPath newMode t slot).WellFormed := by
  induction h generalizing slot with
  | file content mode =>
    rw [syncPath]
    exact .file content mode
  | dir _ _ ih =>
    obtain ⟨hnodup, hthere⟩ := wellFormed_made hslot
    rw [syncPath]
    exact wellFormed_dir ih hnodup hthere

end Trees

/-- The root is made if it is not there, and its entries are those of the package then. -/
def syncPackageContents (newMode : μ) (package : Folder String γ μ) (install : Option (Folder String γ μ)) :
    Folder String γ μ :=
  let made := createDirAll newMode (install.map Folder.tree)
  { mode := made.1
    entries := removeStaleEntries package.entries (syncEntries newMode package.entries made.2)
    wellFormed := by
      have hmade : (made.2.map Prod.fst).Nodup ∧ ∀ e ∈ made.2, e.2.WellFormed := by
        cases install with
        | none => exact ⟨List.nodup_nil, List.forall_mem_nil _⟩
        | some f => exact ⟨f.wellFormed.nodup_entries, fun e he => f.wellFormed.entry he⟩
      exact wellFormed_dir (fun e he u => wellFormed_syncPath (package.wellFormed.entry he) u) hmade.1 hmade.2 }

/-! ## What is installed after an update -/

/-- A directory keeps the mode it has. -/
def modeThere (newMode : μ) : Option (Node γ μ) → μ
  | some (.dir mode) => mode
  | _ => newMode

/-- At the path is a leftover of an earlier update that was there, or something in it, and the package has no such entry. -/
def IsLeftover (package install : List String → Option (Node γ μ)) (path : List String) : Prop :=
  ∃ front name back, path = front ++ name :: back ∧ isUpdateOld name = true ∧ install (front ++ [name]) ≠ none ∧
    package (front ++ [name]) = none

/-- The files of the package with their contents and permissions, its directories with the permissions `dirMode` says, and
nothing else but leftovers. -/
structure Mirrors (dirMode : List String → μ → μ) (package install result : List String → Option (Node γ μ)) : Prop where
  files : ∀ path content mode, package path = some (.file content mode) → result path = some (.file content mode)
  dirs : ∀ path mode, package path = some (.dir mode) → result path = some (.dir (dirMode path mode))
  others : ∀ path, package path = none → result path = none ∨ IsLeftover package install path ∧ result path = install path

section Paths

variable {newMode : μ} {t : FileTree γ μ} {slot : Option (FileTree γ μ)}

/-- The entries of the directory that is there then are those that were there. -/
theorem at?_made (newMode : μ) (slot : Option (FileTree γ μ)) (name : String) (path : List String) :
    Tree.at? slot (name :: path) = Tree.at? ((createDirAll newMode (unblock slot)).2.lookup name) path := by
  match slot with
  | none => exact (Tree.at?_none path).symm
  | some (.file content mode) => rfl
  | some (.dir mode es) => rfl

theorem at?_syncPath_dir {mode : μ} {es : Entries String γ μ} (h : (Tree.dir mode es).WellFormed)
    (slot : Option (FileTree γ μ)) (name : String) (path : List String) :
    Tree.at? (some (syncPath newMode (.dir mode es) slot)) (name :: path) =
      (es.lookup name).elim (if isUpdateOld name then Tree.at? slot (name :: path) else none) fun t =>
        Tree.at? (some (syncPath newMode t ((createDirAll newMode (unblock slot)).2.lookup name))) path := by
  have hlookup := lookup_synced newMode h.nodup_entries (createDirAll newMode (unblock slot)).2 name
  rw [syncPath, Tree.at?_cons, at?_made newMode slot]
  refine (congrArg (fun o => Tree.at? o path) hlookup).trans ?_
  rw [Tree.entries]
  cases es.lookup name with
  | none =>
    rw [Option.elim_none, Option.elim_none]
    split
    · rfl
    · exact Tree.at?_none path
  | some u => rfl

/-- A file is where one is in the package. -/
theorem file_syncPath (h : t.WellFormed) {path : List String} {content : γ} {mode : μ}
    (hfile : Tree.at? (some t) path = some (.file content mode)) :
    Tree.at? (some (syncPath newMode t slot)) path = some (.file content mode) := by
  induction path generalizing t slot with
  | nil =>
    cases t with
    | file c m => exact hfile
    | dir m es => cases hfile
  | cons name path ih =>
    cases t with
    | file c m => cases path <;> cases hfile
    | dir m es =>
      rw [at?_syncPath_dir h]
      rw [Tree.at?_cons] at hfile
      cases hname : es.lookup name with
      | none =>
        rw [Tree.entries, hname, Tree.at?_none] at hfile
        cases hfile
      | some u =>
        rw [Tree.entries, hname] at hfile
        exact ih (h.lookup hname) hfile

/-- A directory is where one is in the package, and keeps its mode if there was one. -/
theorem dir_syncPath (h : t.WellFormed) {path : List String} {mode : μ}
    (hdir : Tree.at? (some t) path = some (.dir mode)) :
    Tree.at? (some (syncPath newMode t slot)) path = some (.dir (modeThere newMode (Tree.at? slot path))) := by
  induction path generalizing t slot with
  | nil =>
    cases t with
    | file c m => cases hdir
    | dir m es =>
      match slot with
      | none => rfl
      | some (.file c m') => rfl
      | some (.dir m' es') => rfl
  | cons name path ih =>
    cases t with
    | file c m => cases path <;> cases hdir
    | dir m es =>
      rw [at?_syncPath_dir h, at?_made newMode slot]
      rw [Tree.at?_cons] at hdir
      cases hname : es.lookup name with
      | none =>
        rw [Tree.entries, hname, Tree.at?_none] at hdir
        cases hdir
      | some u =>
        rw [Tree.entries, hname] at hdir
        exact ih (h.lookup hname) hdir

/-- What is not in the package is gone, or is a leftover. -/
theorem other_syncPath (h : t.WellFormed) {path : List String} (hnone : Tree.at? (some t) path = none) :
    Tree.at? (some (syncPath newMode t slot)) path = none ∨ IsLeftover (Tree.at? (some t)) (Tree.at? slot) path ∧
      Tree.at? (some (syncPath newMode t slot)) path = Tree.at? slot path := by
  induction path generalizing t slot with
  | nil => cases hnone
  | cons name path ih =>
    cases t with
    | file c m =>
      rw [syncPath, copyFile, Tree.at?_cons]
      exact Or.inl (Tree.at?_none path)
    | dir m es =>
      rw [at?_syncPath_dir h]
      cases hname : es.lookup name with
      | none =>
        rw [Option.elim_none]
        split
        · next hold =>
          by_cases hslot : Tree.at? slot (name :: path) = none
          · exact Or.inl hslot
          · refine Or.inr ⟨⟨[], name, path, rfl, hold, fun hgone => hslot ?_, ?_⟩, rfl⟩
            · rw [List.nil_append, at?_made newMode slot] at hgone
              rw [at?_made newMode slot]
              cases hthere : (createDirAll newMode (unblock slot)).2.lookup name with
              | none => exact Tree.at?_none path
              | some u =>
                rw [hthere] at hgone
                cases hgone
            · rw [List.nil_append, Tree.at?_cons, Tree.entries, hname]
              rfl
        · exact Or.inl rfl
      | some u =>
        rw [Option.elim_some]
        rw [Tree.at?_cons, Tree.entries, hname] at hnone
        rcases ih (h.lookup hname) hnone with hgone | ⟨⟨front, old, back, rfl, hold, hthere, hpackage⟩, heq⟩
        · exact Or.inl hgone
        · refine Or.inr ⟨⟨name :: front, old, back, rfl, hold, ?_, ?_⟩, ?_⟩
          · rw [List.cons_append, at?_made newMode slot]
            exact hthere
          · rw [List.cons_append, Tree.at?_cons, Tree.entries, hname]
            exact hpackage
          · rw [heq, at?_made newMode slot]

theorem mirrors_syncPath (newMode : μ) (h : t.WellFormed) (slot : Option (FileTree γ μ)) :
    Mirrors (fun path _ => modeThere newMode (Tree.at? slot path)) (Tree.at? (some t)) (Tree.at? slot)
      (Tree.at? (some (syncPath newMode t slot))) :=
  ⟨fun _ _ _ => file_syncPath h, fun _ _ => dir_syncPath h, fun _ => other_syncPath h⟩

theorem tree_syncPackageContents (newMode : μ) (package : Folder String γ μ) (install : Option (Folder String γ μ)) :
    (syncPackageContents newMode package install).tree = syncPath newMode package.tree (install.map Folder.tree) := by
  cases install with
  | none => rfl
  | some f => rfl

/-- An update mirrors the package but for the modes of directories, which are those that were there or those of new ones. -/
theorem sync_mirrors (newMode : μ) (package : Folder String γ μ) (install : Option (Folder String γ μ)) :
    Mirrors (fun path _ => modeThere newMode (Tree.at? (install.map Folder.tree) path)) package.at?
      (Tree.at? (install.map Folder.tree)) (syncPackageContents newMode package install).at? := by
  have hmirrors := mirrors_syncPath newMode package.wellFormed (install.map Folder.tree)
  have hresult : (syncPackageContents newMode package install).at? =
      Tree.at? (some (syncPath newMode package.tree (install.map Folder.tree))) := by
    funext path
    rw [Folder.at?, tree_syncPackageContents]
  rw [hresult]
  exact hmirrors

/-- A directory that only its owner may read is open to all after the update. -/
theorem not_mirrors_modes : ¬ ∀ package install : Folder String Unit ℕ,
    Mirrors (fun _ mode => mode) package.at? install.at? (syncPackageContents 0o755 package (some install)).at? := by
  intro h
  have hbin : (Tree.dir 0o755 [("bin", (.dir 0o700 [] : FileTree Unit ℕ))]).WellFormed :=
    .dir (by decide) fun e he => by
      rw [List.mem_singleton.mp he]
      exact .dir List.nodup_nil (List.forall_mem_nil _)
  have hempty : (Tree.dir 0o755 [] : FileTree Unit ℕ).WellFormed := .dir List.nodup_nil (List.forall_mem_nil _)
  have hmode := (h ⟨_, _, hbin⟩ ⟨_, _, hempty⟩).dirs ["bin"] 0o700 rfl
  have hmade : Tree.at? (some (syncPath 0o755 (.dir 0o755 [("bin", (.dir 0o700 [] : FileTree Unit ℕ))])
      (some (.dir 0o755 [])))) ["bin"] = some (.dir 0o755) := rfl
  rw [Folder.at?, tree_syncPackageContents] at hmode
  have hmodes := hmade.symm.trans hmode
  exact absurd (Node.dir.inj (Option.some_inj.mp hmodes)) (by decide)

end Paths

end FerrisScope.PackageSync
