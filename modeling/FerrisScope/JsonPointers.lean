import FerrisScope.CronFields
import FerrisScope.MergePatch

/-!
# Pointers into JSON values

A pointer is a row of tokens with a slash before each. In a token `~1` stands for a slash and `~0` for a tilde.
A token is the key of an object or the index of an array.
-/

namespace FerrisScope.JsonPointers
open HostsFile CronFields

/-- Every occurrence of two characters one after the other replaced by one character, from the left. -/
def replacePair (a b r : Char) : Text → Text
  | [] => []
  | [x] => [x]
  | x :: y :: t => if x = a ∧ y = b then r :: replacePair a b r t else x :: replacePair a b r (y :: t)

def unescape (token : Text) : Text := replacePair '~' '0' '~' (replacePair '~' '1' '/' token)

/-- An index has no sign and no leading zero, and fits a machine word. -/
def parseIndex (token : Text) : Option ℕ :=
  if token = [] ∨ token.any (fun c => !isDigit c) ∨ (token.head? = some '0' ∧ token.length ≠ 1) then none
  else if ofDigits token < 2 ^ 64 then some (ofDigits token)
  else none

variable {ν : Type}

def child (target : Json ν) (token : Text) : Option (Json ν) :=
  match target with
  | .obj fs => Json.find (String.ofList token) fs
  | .arr xs => (parseIndex token).bind fun i => xs[i]?
  | _ => none

def descend (target : Json ν) (tokens : List Text) : Option (Json ν) := tokens.foldlM child target

def pointer (target : Json ν) (p : Text) : Option (Json ν) :=
  match p with
  | [] => some target
  | c :: rest => if c = '/' then descend target ((rest.splitOn '/').map unescape) else none

theorem descend_cons (target : Json ν) (t : Text) (ts : List Text) :
    descend target (t :: ts) = (child target t).bind fun j => descend j ts := List.foldlM_cons

/-- A token that is no index finds nothing in an array. -/
theorem child_eq_get? {token : Text} (h : parseIndex token = none) (target : Json ν) :
    child target token = target.get? (String.ofList token) := by
  cases target with
  | arr xs =>
    rw [child, h]
    rfl
  | _ => rfl

/-- The value that keys lead to, one after the other. -/
def getPath (target : Json ν) (keys : List String) : Option (Json ν) := keys.foldlM Json.get? target

theorem getPath_cons (target : Json ν) (k : String) (ks : List String) :
    getPath target (k :: ks) = (target.get? k).bind fun j => getPath j ks := List.foldlM_cons

theorem wellFormed_getPath {target v : Json ν} {keys : List String} (h : target.wellFormed = true)
    (hv : getPath target keys = some v) : v.wellFormed = true := by
  induction keys generalizing target with
  | nil =>
    cases hv
    exact h
  | cons k ks ih =>
    rw [getPath_cons] at hv
    obtain ⟨j, hj, hrest⟩ := Option.bind_eq_some_iff.mp hv
    cases target with
    | obj fs => exact ih (Json.wellFormed_find h hj) hrest
    | _ => cases hj

/-- A pointer whose tokens are no indices follows keys. -/
theorem descend_eq_getPath {keys : List String} (h : ∀ k ∈ keys, parseIndex k.toList = none) (target : Json ν) :
    descend target (keys.map String.toList) = getPath target keys := by
  induction keys generalizing target with
  | nil => rfl
  | cons k ks ih =>
    rw [List.map_cons, descend_cons, getPath_cons, child_eq_get? (h k List.mem_cons_self), String.ofList_toList]
    exact Option.bind_congr fun j _ => ih (fun l hl => h l (List.mem_cons_of_mem k hl)) j

theorem pointer_eq_getPath {rest : Text} {keys : List String} (htokens : (rest.splitOn '/').map unescape = keys.map String.toList)
    (hkeys : (keys.all fun k => (parseIndex k.toList).isNone) = true) (v : Json ν) :
    pointer v ('/' :: rest) = getPath v keys := by
  change descend v ((rest.splitOn '/').map unescape) = _
  rw [htokens]
  apply descend_eq_getPath
  intro k hk
  exact Option.isNone_iff_eq_none.mp (List.all_eq_true.mp hkeys k hk)

/-! ## Patches at one place -/

/-- The merge patch that holds a value at the end of a row of keys, and nothing else. -/
def patchAt (keys : List String) (v : Json ν) : Json ν := keys.foldr (fun k j => .obj [(k, j)]) v

theorem get?_patchAt (target : Json ν) (k k' : String) (ks : List String) (v : Json ν) :
    (target.applyPatch (patchAt (k :: ks) v)).get? k' =
      if k = k' then Json.mergedAt (target.get? k) (some (patchAt ks v)) else target.get? k' := by
  have hn : ([(k, patchAt ks v)].map Prod.fst).Nodup := List.nodup_singleton k
  change (target.applyPatch (.obj [(k, patchAt ks v)])).get? k' = _
  rw [Json.get?_applyPatch hn, Json.find_cons]
  by_cases hk : k = k'
  · rw [if_pos hk, if_pos hk, hk]
  · rw [if_neg hk, if_neg hk]
    rfl

theorem patchAt_cons_ne_null (k : String) (ks : List String) (v : Json ν) : patchAt (k :: ks) v ≠ .null := by simp [patchAt]

theorem getPath_getD_null (v : Option (Json ν)) (k : String) (ks : List String) :
    getPath (v.getD .null) (k :: ks) = v.bind fun j => getPath j (k :: ks) := by
  cases v with
  | none => rfl
  | some j => rfl

/-- What the patch leaves at its place. -/
theorem getPath_patchAt (target : Json ν) (k : String) (ks : List String) (v : Json ν) :
    getPath (target.applyPatch (patchAt (k :: ks) v)) (k :: ks) = Json.mergedAt (getPath target (k :: ks)) (some v) := by
  induction ks generalizing target k with
  | nil =>
    rw [getPath_cons, getPath_cons, get?_patchAt, if_pos rfl]
    have hself : ∀ o : Option (Json ν), (o.bind fun j => getPath j []) = o := by
      intro o
      cases o <;> rfl
    rw [hself, hself]
    rfl
  | cons l ks ih =>
    rw [getPath_cons, get?_patchAt, if_pos rfl, Json.mergedAt_of_ne (patchAt_cons_ne_null l ks v), Option.bind_some, ih,
      getPath_getD_null, ← getPath_cons]

/-- The patch leaves everything that neither holds its place nor lies below it. -/
theorem getPath_patchAt_of_apart {keys path : List String} (target v : Json ν) (h : ¬ keys <+: path) (h' : ¬ path <+: keys) :
    getPath (target.applyPatch (patchAt keys v)) path = getPath target path := by
  induction keys generalizing target path with
  | nil => exact absurd (List.nil_prefix) h
  | cons k ks ih =>
    cases path with
    | nil => exact absurd (List.nil_prefix) h'
    | cons l path =>
      rw [getPath_cons, get?_patchAt]
      by_cases hk : k = l
      · subst hk
        rw [List.cons_prefix_cons] at h h'
        have hbelow : ¬ ks <+: path := fun hpath => h ⟨rfl, hpath⟩
        have habove : ¬ path <+: ks := fun hpath => h' ⟨rfl, hpath⟩
        cases ks with
        | nil => exact absurd (List.nil_prefix) hbelow
        | cons k' ks =>
          cases path with
          | nil => exact absurd (List.nil_prefix) habove
          | cons l' path =>
            rw [if_pos rfl, Json.mergedAt_of_ne (patchAt_cons_ne_null k' ks v), Option.bind_some, ih _ hbelow habove,
              getPath_getD_null, ← getPath_cons]
      · rw [if_neg hk, getPath_cons]

end FerrisScope.JsonPointers
