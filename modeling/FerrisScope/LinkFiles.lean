import Mathlib.Logic.Function.Basic
import Mathlib.Data.List.Basic

/-!
# Files and symbolic links

A place is a name in a directory. What stands there is a file with its content and mode bits, a
link to another place, or something that is neither. Links are followed up to a limit.
-/

namespace FerrisScope.LinkFiles

structure Loc (δ : Type*) where
  dir : δ
  name : List Char
  deriving DecidableEq

abbrev Mode := BitVec 12

/-- The read, write and execute bits. -/
def Mode.perm (m : Mode) : Mode := m &&& 0o777

inductive Node (δ : Type*) where
  | file (content : String) (mode : Mode)
  | link (target : Loc δ)
  | other

abbrev Fs (δ : Type*) := Loc δ → Option (Node δ)

variable {δ : Type*}

/-- The place that the links from `p` on end at. -/
def follow (fs : Fs δ) : ℕ → Loc δ → Option (Loc δ)
  | 0, p => match fs p with
      | some (.file _ _) | some .other => some p
      | _ => none
  | n + 1, p => match fs p with
      | some (.link t) => follow fs n t
      | some _ => some p
      | none => none

/-- The places visited. -/
def way (fs : Fs δ) : ℕ → Loc δ → List (Loc δ)
  | 0, p => [p]
  | n + 1, p => match fs p with
      | some (.link t) => p :: way fs n t
      | _ => [p]

/-- Content and mode of the file behind the links. -/
def readFile (fs : Fs δ) (n : ℕ) (p : Loc δ) : Option (String × Mode) :=
  match follow fs n p with
  | none => none
  | some q => match fs q with
      | some (.file c m) => some (c, m)
      | _ => none

variable {fs fs' : Fs δ} {n : ℕ} {p q : Loc δ} {c : String} {m : Mode}

theorem self_mem_way (fs : Fs δ) (n : ℕ) (p : Loc δ) : p ∈ way fs n p := by
  cases n with
  | zero => simp [way]
  | succ n => cases h : fs p with
    | none => simp [way, h]
    | some node => cases node <;> simp [way, h]

theorem follow_of_file (h : fs p = some (.file c m)) (n : ℕ) : follow fs n p = some p := by
  cases n <;> simp [follow, h]

theorem readFile_of_file (h : fs p = some (.file c m)) (n : ℕ) : readFile fs n p = some (c, m) := by
  rw [readFile, follow_of_file h]
  simp [h]

theorem readFile_eq_some (h : readFile fs n p = some (c, m)) :
    ∃ q, follow fs n p = some q ∧ fs q = some (.file c m) := by
  unfold readFile at h
  split at h
  · cases h
  · next q hq =>
    split at h
    · next hfile =>
      cases h
      exact ⟨q, hq, hfile⟩
    · cases h

theorem readFile_of_follow (hq : follow fs n p = some q) (hfile : fs q = some (.file c m)) :
    readFile fs n p = some (c, m) := by
  simp [readFile, hq, hfile]

/-- Links end where they did, when nothing on the way changes but the content of the end. -/
theorem follow_congr (hway : ∀ r ∈ way fs n p, r ≠ q → fs' r = fs r) (hend : fs' q = some (.file c m))
    (hq : follow fs n p = some q) : follow fs' n p = some q := by
  induction n generalizing p with
  | zero =>
    by_cases hp : p = q
    · subst hp
      exact follow_of_file hend 0
    · have hself : fs' p = fs p := hway p (self_mem_way fs 0 p) hp
      rw [follow] at hq ⊢
      rwa [hself]
  | succ n ih =>
    by_cases hp : p = q
    · subst hp
      exact follow_of_file hend _
    · have hself : fs' p = fs p := hway p (self_mem_way fs (n + 1) p) hp
      rw [follow] at hq ⊢
      rw [hself]
      split at hq
      · next t ht =>
        refine ih (fun r hr hne => hway r ?_ hne) hq
        rw [way, ht]
        exact List.mem_cons_of_mem _ hr
      · exact absurd (Option.some.inj hq) hp
      · cases hq

/-- A path that does not end at itself is a link. -/
theorem exists_link_of_ne (h : follow fs n p = some q) (hne : p ≠ q) : ∃ t, fs p = some (.link t) := by
  cases n with
  | zero =>
    rw [follow] at h
    split at h
    · exact absurd (Option.some.inj h) hne
    · exact absurd (Option.some.inj h) hne
    · cases h
  | succ n =>
    rw [follow] at h
    split at h
    · next t ht => exact ⟨t, ht⟩
    · exact absurd (Option.some.inj h) hne
    · cases h

theorem ne_none_of_readFile (h : readFile fs n p = some (c, m)) : fs p ≠ none := by
  obtain ⟨q, hq, hfile⟩ := readFile_eq_some h
  by_cases hp : p = q
  · rw [hp, hfile]
    exact Option.some_ne_none _
  · obtain ⟨t, ht⟩ := exists_link_of_ne hq hp
    rw [ht]
    exact Option.some_ne_none _

/-- The links end at a file, or at something that is neither. -/
theorem follow_end (h : follow fs n p = some q) : (∃ c m, fs q = some (.file c m)) ∨ fs q = some .other := by
  induction n generalizing p with
  | zero =>
    rw [follow] at h
    split at h
    · next c m hp =>
      obtain rfl := Option.some.inj h
      exact .inl ⟨c, m, hp⟩
    · next hp =>
      obtain rfl := Option.some.inj h
      exact .inr hp
    · cases h
  | succ n ih =>
    rw [follow] at h
    split at h
    · exact ih h
    · next node hnode hp =>
      obtain rfl := Option.some.inj h
      cases node with
      | file c m => exact .inl ⟨c, m, hp⟩
      | link t => exact absurd rfl (hnode t)
      | other => exact .inr hp
    · cases h

/-- Before the end the way has only links. -/
theorem exists_link_of_mem_way {r : Loc δ} (hq : follow fs n p = some q) (hr : r ∈ way fs n p)
    (hne : r ≠ q) : ∃ t, fs r = some (.link t) := by
  induction n generalizing p with
  | zero =>
    obtain rfl := List.mem_singleton.mp hr
    exact exists_link_of_ne hq hne
  | succ n ih =>
    by_cases hp : r = p
    · exact hp ▸ exists_link_of_ne hq (hp ▸ hne)
    · rw [way] at hr
      split at hr
      · next t ht =>
        rw [follow, ht] at hq
        exact ih hq ((List.mem_cons.mp hr).resolve_left hp)
      · exact absurd (List.mem_singleton.mp hr) hp

/-- A file on the way ends the links there. -/
theorem follow_cut {r : Loc δ} (hr : r ∈ way fs n p) (hne : r ≠ q)
    (hway : ∀ s ∈ way fs n p, s ≠ r → s ≠ q → fs' s = fs s) (hend : fs' r = some (.file c m))
    (hq : follow fs n p = some q) : follow fs' n p = some r := by
  induction n generalizing p with
  | zero =>
    obtain rfl := List.mem_singleton.mp hr
    exact follow_of_file hend 0
  | succ n ih =>
    by_cases hp : r = p
    · subst hp
      exact follow_of_file hend _
    · have hpq : p ≠ q := by
        rintro rfl
        rcases follow_end hq with ⟨c', m', hfile⟩ | hother
        · rw [way, hfile] at hr
          exact hp (List.mem_singleton.mp hr)
        · rw [way, hother] at hr
          exact hp (List.mem_singleton.mp hr)
      obtain ⟨t, ht⟩ := exists_link_of_ne hq hpq
      have hself : fs' p = fs p := hway p (self_mem_way fs (n + 1) p) (Ne.symm hp) hpq
      rw [way, ht] at hr hway
      rw [follow, ht] at hq
      rw [follow, hself, ht]
      have htail : r ∈ way fs n t := (List.mem_cons.mp hr).resolve_left hp
      exact ih htail (fun s hs => hway s (List.mem_cons_of_mem _ hs)) hq

variable [DecidableEq δ]

/-- A new file, unless something stands there. -/
def createNew (fs : Fs δ) (p : Loc δ) (content : String) (mode : Mode) : Option (Fs δ) :=
  match fs p with
  | none => some (Function.update fs p (some (.file content mode)))
  | some _ => none

/-- What stands at `p` takes the place of what stood at `q`; a link there is replaced itself. -/
def rename (fs : Fs δ) (p q : Loc δ) : Option (Fs δ) :=
  match fs q with
  | some .other => none
  | _ => some (Function.update (Function.update fs q (fs p)) p none)

def removeFile (fs : Fs δ) (p : Loc δ) : Fs δ :=
  match fs p with
  | some .other => fs
  | _ => Function.update fs p none

/-- A file written beside the target and renamed over it, and whether this went through. On an
error what stands under the name beside is removed. -/
def replaceFile (fs : Fs δ) (tmp p : Loc δ) (content : String) (mode : Mode) (fails : Bool) :
    Fs δ × Bool :=
  match createNew fs tmp content mode with
  | none => (removeFile fs tmp, false)
  | some fs₁ =>
      if fails then (removeFile fs₁ tmp, false)
      else match rename fs₁ tmp p with
        | none => (removeFile fs₁ tmp, false)
        | some fs₂ => (fs₂, true)

/-- Only the target and the name beside can change, and the target only when this goes through. -/
theorem replaceFile_frame (fs : Fs δ) {tmp p : Loc δ} (hne : tmp ≠ p) (content : String) (mode : Mode) (fails : Bool) :
    ((replaceFile fs tmp p content mode fails).2 = false ∧
        ∀ r, r ≠ tmp → (replaceFile fs tmp p content mode fails).1 r = fs r) ∨
      ((replaceFile fs tmp p content mode fails).2 = true ∧
        (replaceFile fs tmp p content mode fails).1 p = some (.file content mode)) := by
  have hremove : ∀ (fs : Fs δ) r, r ≠ tmp → removeFile fs tmp r = fs r := by
    intro fs r hr
    have hcases : removeFile fs tmp = fs ∨ removeFile fs tmp = Function.update fs tmp none := by
      rw [removeFile]
      split
      · exact Or.inl rfl
      · exact Or.inr rfl
    rcases hcases with h | h
    · rw [h]
    · rw [h, Function.update_of_ne hr]
  rw [replaceFile, createNew]
  cases htmp : fs tmp with
  | some node => exact Or.inl ⟨rfl, hremove fs⟩
  | none =>
    have hcreated : ∀ r, r ≠ tmp → Function.update fs tmp (some (.file content mode)) r = fs r :=
      fun r hr => Function.update_of_ne hr _ _
    cases fails with
    | true => exact Or.inl ⟨rfl, fun r hr => (hremove _ r hr).trans (hcreated r hr)⟩
    | false =>
      simp only [Bool.false_eq_true, if_false]
      rw [rename]
      split
      · next hnone => exact Or.inl ⟨rfl, fun r hr => (hremove _ r hr).trans (hcreated r hr)⟩
      · next fs₂ hsome =>
        split at hsome
        · cases hsome
        · obtain rfl := Option.some_inj.mp hsome
          refine Or.inr ⟨rfl, ?_⟩
          dsimp only
          rw [Function.update_of_ne hne.symm, Function.update_self, Function.update_self]

/-- Neither a file nor a link. -/
def isOther (fs : Fs δ) (p : Loc δ) : Bool :=
  match fs p with
  | some .other => true
  | _ => false

/-- Under an unused name beside, the target is replaced or nothing changes. -/
theorem replaceFile_eq {tmp : Loc δ} (htmp : fs tmp = none) (hne : tmp ≠ p) (content : String) (mode : Mode)
    (fails : Bool) : replaceFile fs tmp p content mode fails =
      if fails || isOther fs p then (fs, false)
      else (Function.update fs p (some (.file content mode)), true) := by
  have hback : Function.update (Function.update fs tmp (some (.file content mode))) tmp none = fs := by
    rw [Function.update_idem, ← htmp, Function.update_eq_self]
  have hremove : removeFile (Function.update fs tmp (some (.file content mode))) tmp = fs := by
    simp [removeFile, hback]
  have hsame : Function.update fs tmp (some (.file content mode)) p = fs p :=
    Function.update_of_ne hne.symm _ _
  have hrename : Function.update (Function.update (Function.update fs tmp (some (.file content mode))) p
      (some (.file content mode))) tmp none = Function.update fs p (some (.file content mode)) := by
    rw [Function.update_comm hne.symm, hback]
  simp only [replaceFile, createNew, htmp]
  cases fails with
  | true => simp [hremove]
  | false =>
    cases hp : fs p with
    | none => simp [isOther, rename, hsame, hp, hrename]
    | some node => cases node <;> simp [isOther, rename, hsame, hp, hrename, hremove]

end FerrisScope.LinkFiles
