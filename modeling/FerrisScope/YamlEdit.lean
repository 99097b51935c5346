import FerrisScope.MergePatch

/-!
# The YAML editor

The editor shows an object without its server fields and turns the edited document into a
merge patch. Its objects are JavaScript objects: the `in` operator and property reads also
see the members of `Object.prototype`, so reading a key finds an own entry, an inherited
member, or nothing. A document has no key `__proto__`, which assignment treats as the
prototype itself.
-/

namespace FerrisScope.YamlEdit
open Json

variable {ν : Type}

/-- The members of `Object.prototype`. -/
def objectPrototype : List String :=
  ["constructor", "__defineGetter__", "__defineSetter__", "hasOwnProperty", "__lookupGetter__",
    "__lookupSetter__", "isPrototypeOf", "propertyIsEnumerable", "toString", "valueOf",
    "toLocaleString", "__proto__"]

/-- What a property read finds; `k in o` holds unless it is `absent`. -/
inductive Slot (ν : Type) where
  | own (v : Json ν)
  | inherited
  | absent

def slot (fs : Fields ν) (k : String) : Slot ν :=
  match find k fs with
  | some v => .own v
  | none => if k ∈ objectPrototype then .inherited else .absent

def isIn (k : String) (fs : Fields ν) : Bool :=
  match slot fs k with
  | .absent => false
  | _ => true

def metaStripKeys : List String :=
  ["managedFields", "resourceVersion", "uid", "generation", "creationTimestamp",
    "deletionTimestamp", "deletionGracePeriodSeconds", "selfLink"]

def annotationStripKeys : List String := ["kubectl.kubernetes.io/last-applied-configuration"]

/-- The annotations in `stripServerFields`: dropped when nothing of them is left. -/
def stripAnnotations : Json ν → Option (Json ν)
  | .obj anns =>
      let ann := anns.filter fun e => decide (e.1 ∉ annotationStripKeys)
      if ann.isEmpty then none else some (.obj ann)
  | v => some v

def stripServerMeta (mk : String) (mv : Json ν) : Option (Json ν) :=
  if mk ∈ metaStripKeys then none
  else if mk = "annotations" then stripAnnotations mv
  else some mv

def stripServerEntry (k : String) (v : Json ν) : Option (Json ν) :=
  if k = "status" then none
  else if k = "metadata" then match v with
    | .obj metaFields => some (.obj (mapEntries stripServerMeta metaFields))
    | v => some v
  else some v

def stripServerFields : Json ν → Json ν
  | .obj fs => .obj (mapEntries stripServerEntry fs)
  | doc => doc

def identityKeys : List String := ["apiVersion", "kind"]

def metaIdentityKeys : List String := ["name", "namespace"]

/-- The metadata in `stripIdentity`: dropped when only identity is in it. -/
def stripIdentityMeta : Json ν → Option (Json ν)
  | .obj metaFields =>
      let rest := metaFields.filter fun e => decide (e.1 ∉ metaIdentityKeys)
      if rest.isEmpty then none else some (.obj rest)
  | v => some v

def stripIdentityEntry (k : String) (v : Json ν) : Option (Json ν) :=
  if k ∈ identityKeys then none
  else if k = "metadata" then stripIdentityMeta v
  else some v

def stripIdentity : Json ν → Json ν
  | .obj fs => .obj (mapEntries stripIdentityEntry fs)
  | doc => doc

mutual
/-- No key is `__proto__`. -/
def protoFree : Json ν → Bool
  | .arr xs => protoFreeElems xs
  | .obj fs => protoFreeFields fs
  | _ => true

def protoFreeElems : List (Json ν) → Bool
  | [] => true
  | x :: xs => protoFree x && protoFreeElems xs

def protoFreeFields : Fields ν → Bool
  | [] => true
  | (k, v) :: fs => decide (k ≠ "__proto__") && protoFree v && protoFreeFields fs
end

variable [DecidableEq ν]

mutual
def deepEqual : Json ν → Json ν → Bool
  | .null, .null => true
  | .bool a, .bool b => decide (a = b)
  | .num a, .num b => decide (a = b)
  | .str a, .str b => decide (a = b)
  | .arr xs, .arr ys => deepEqualElems xs ys
  | .obj fs, .obj gs => decide (fs.length = gs.length) && deepEqualFields fs gs
  | _, _ => false

def deepEqualElems : List (Json ν) → List (Json ν) → Bool
  | [], [] => true
  | x :: xs, y :: ys => deepEqual x y && deepEqualElems xs ys
  | _, _ => false

/-- An inherited member is a function, which equals no document value. -/
def deepEqualFields : Fields ν → Fields ν → Bool
  | [], _ => true
  | (k, v) :: fs, gs => (match slot gs k with
      | .own w => deepEqual v w
      | .inherited => false
      | .absent => false) && deepEqualFields fs gs
end

/-- The keys of the original that are not in the edited object, each patched to `null`. -/
def removedKeys (fs gs : Fields ν) (topLevel : Bool) : Fields ν :=
  (fs.filter fun e => !isIn e.1 gs && !(topLevel && decide (e.1 = "metadata"))).map
    fun e => (e.1, .null)

mutual
/-- The patch, or none for `UNCHANGED`, and what it adds to the count. -/
def walkMerge (original : Json ν) (topLevel : Bool) : Json ν → Option (Json ν) × ℕ
  | .obj gs =>
      if deepEqual original (.obj gs) then (none, 0)
      else match original with
        | .obj fs =>
            let r := mergeEntries fs gs
            let out := r.1 ++ removedKeys fs gs topLevel
            (if out.isEmpty then none else some (.obj out),
              r.2 + (removedKeys fs gs topLevel).length)
        | _ => (some (.obj gs), 1)
  | edited => if deepEqual original edited then (none, 0) else (some edited, 1)

/-- The loop over the edited entries. Against an inherited member the edited value is a leaf
that replaces it. -/
def mergeEntries (fs : Fields ν) : Fields ν → Fields ν × ℕ
  | [] => ([], 0)
  | (k, v) :: gs =>
      let sub := match slot fs k with
        | .absent => (some v, 1)
        | .inherited => (some v, 1)
        | .own w => walkMerge w false v
      let rest := mergeEntries fs gs
      ((match sub.1 with
        | none => rest.1
        | some p => (k, p) :: rest.1), sub.2 + rest.2)
end

attribute [grind =] deepEqual walkMerge mergeEntries

structure MergePatch (ν : Type) where
  patch : Fields ν
  empty : Bool
  count : ℕ

def mergePatch (originalRaw editedRaw : Json ν) : MergePatch ν :=
  let r := walkMerge (stripIdentity originalRaw) true (stripIdentity editedRaw)
  { patch := match r.1 with
      | some (.obj out) => out
      | _ => []
    empty := decide (r.2 = 0)
    count := r.2 }

omit [DecidableEq ν] in
theorem slot_of_find {fs : Fields ν} {k : String} {v : Json ν} (h : find k fs = some v) :
    slot fs k = .own v := by
  simp [slot, h]

omit [DecidableEq ν] in
theorem isIn_of_find {fs : Fields ν} {k : String} {v : Json ν} (h : find k fs = some v) :
    isIn k fs = true := by
  simp [isIn, slot_of_find h]

omit [DecidableEq ν] in
theorem isIn_of_not_find {fs : Fields ν} {k : String} (h : find k fs = none) :
    isIn k fs = decide (k ∈ objectPrototype) := by
  by_cases hk : k ∈ objectPrototype <;> simp [isIn, slot, h, hk]

/-- On documents the comparison is equality up to the order of entries. -/
theorem deepEqual_eq_same (a b : Json ν) : deepEqual a b = same a b := by
  induction a using Json.induct generalizing b with
  | arr xs ih =>
    have helems : ∀ l : List (Json ν), (∀ x ∈ l, ∀ b, deepEqual x b = same x b) →
        ∀ ys, deepEqualElems l ys = sameElems l ys := by
      intro l hl
      induction l with
      | nil =>
        intro ys
        cases ys <;> simp [deepEqualElems, sameElems]
      | cons x l ihl =>
        intro ys
        cases ys with
        | nil => simp [deepEqualElems, sameElems]
        | cons y ys =>
          rw [deepEqualElems, sameElems, hl x (by simp), ihl fun z hz => hl z (by simp [hz])]
    cases b with
    | arr ys => rw [deepEqual, same, helems xs ih]
    | _ => simp [deepEqual, same]
  | obj fs ih =>
    have hfields : ∀ l : Fields ν, (∀ k v, (k, v) ∈ l → ∀ b, deepEqual v b = same v b) →
        ∀ gs, deepEqualFields l gs = sameFields l gs := by
      intro l hl
      induction l with
      | nil => simp [deepEqualFields, sameFields]
      | cons e l ihl =>
        intro gs
        obtain ⟨k, v⟩ := e
        rw [deepEqualFields, sameFields, ihl fun k v hm => hl k v (by simp [hm])]
        cases hg : find k gs with
        | some w => simp [slot, hg, hl k v (by simp)]
        | none => by_cases hk : k ∈ objectPrototype <;> simp [slot, hg, hk]
    cases b with
    | obj gs => rw [deepEqual, same, hfields fs ih]
    | _ => simp [deepEqual, same]
  | _ => cases b <;> simp [deepEqual, same]

/-- The patch for one edited entry. -/
def subPatch (fs : Fields ν) (k : String) (v : Json ν) : Option (Json ν) :=
  match find k fs with
  | some w => (walkMerge w false v).1
  | none => some v

/-- The entries of a patch between two objects that differ. -/
def patchEntries (fs gs : Fields ν) (topLevel : Bool) : Fields ν :=
  (mergeEntries fs gs).1 ++ removedKeys fs gs topLevel

theorem walkMerge_obj {fs gs : Fields ν} (topLevel : Bool)
    (h : same (.obj fs) (.obj gs) = false) : (walkMerge (.obj fs) topLevel (.obj gs)).1 =
      if (patchEntries fs gs topLevel).isEmpty then none
      else some (.obj (patchEntries fs gs topLevel)) := by
  rw [walkMerge, deepEqual_eq_same, h]
  rfl

theorem walkMerge_obj_result (fs gs : Fields ν) (topLevel : Bool) :
    (walkMerge (.obj fs) topLevel (.obj gs)).1 = none ∨
      ∃ ps, (walkMerge (.obj fs) topLevel (.obj gs)).1 = some (.obj ps) := by
  rw [walkMerge]
  split_ifs
  · exact .inl rfl
  · dsimp only
    split_ifs
    · exact .inl rfl
    · exact .inr ⟨_, rfl⟩

theorem walkMerge_obj_count {fs gs : Fields ν} (topLevel : Bool)
    (h : same (.obj fs) (.obj gs) = false) : (walkMerge (.obj fs) topLevel (.obj gs)).2 =
      (mergeEntries fs gs).2 + (removedKeys fs gs topLevel).length := by
  rw [walkMerge, deepEqual_eq_same, h]
  rfl

theorem walkMerge_of_same {a b : Json ν} (topLevel : Bool) (h : same a b = true) :
    walkMerge a topLevel b = (none, 0) := by
  cases b <;> simp [walkMerge, deepEqual_eq_same, h]

/-- Where one side is no object the edited value replaces the original. -/
theorem walkMerge_leaf {a b : Json ν} (topLevel : Bool) (h : same a b = false)
    (hobj : (∀ fs, a ≠ .obj fs) ∨ ∀ gs, b ≠ .obj gs) : walkMerge a topLevel b = (some b, 1) := by
  cases b with
  | obj gs =>
    cases a with
    | obj fs => rcases hobj with hobj | hobj <;> exact absurd rfl (hobj _)
    | _ => simp [walkMerge, deepEqual_eq_same, h]
  | _ => simp [walkMerge, deepEqual_eq_same, h]

theorem mergeEntries_cons (fs gs : Fields ν) (k : String) (v : Json ν) :
    (mergeEntries fs ((k, v) :: gs)).1 = (match subPatch fs k v with
      | none => (mergeEntries fs gs).1
      | some p => (k, p) :: (mergeEntries fs gs).1) := by
  rw [mergeEntries]
  cases hf : find k fs with
  | some w => simp [slot, hf, subPatch]
  | none => by_cases hk : k ∈ objectPrototype <;> simp [slot, hf, hk, subPatch]

theorem mergeEntries_cons_count (fs gs : Fields ν) (k : String) (v : Json ν) :
    (mergeEntries fs ((k, v) :: gs)).2 = (match find k fs with
      | some w => (walkMerge w false v).2
      | none => 1) + (mergeEntries fs gs).2 := by
  rw [mergeEntries]
  cases hf : find k fs with
  | some w => simp [slot, hf]
  | none => by_cases hk : k ∈ objectPrototype <;> simp [slot, hf, hk]

theorem mergeEntries_keys (fs gs : Fields ν) :
    ((mergeEntries fs gs).1.map Prod.fst).Sublist (gs.map Prod.fst) := by
  induction gs with
  | nil => simp [mergeEntries]
  | cons e gs ih =>
    obtain ⟨k, v⟩ := e
    rw [mergeEntries_cons]
    cases subPatch fs k v with
    | none => exact ih.cons _
    | some p => exact ih.cons_cons _

theorem find_mergeEntries (fs : Fields ν) {gs : Fields ν} (hn : (gs.map Prod.fst).Nodup)
    (k : String) : find k (mergeEntries fs gs).1 = (find k gs).bind (subPatch fs k) := by
  have heq : ∀ l : Fields ν, (mergeEntries fs l).1 = mapEntries (subPatch fs) l := by
    intro l
    induction l with
    | nil => simp [mergeEntries, mapEntries]
    | cons e l ih =>
      obtain ⟨k', v'⟩ := e
      rw [mergeEntries_cons, ih]
      cases hs : subPatch fs k' v' <;> simp [mapEntries, hs]
  rw [heq, find_mapEntries _ hn]

omit [DecidableEq ν] in
theorem find_removedKeys (fs gs : Fields ν) (topLevel : Bool) (k : String) :
    find k (removedKeys fs gs topLevel) =
      if (find k fs).isSome && !isIn k gs && !(topLevel && decide (k = "metadata")) then some .null
      else none := by
  have hmap : ∀ l : Fields ν, find k (l.map fun e => (e.1, (.null : Json ν))) =
      (find k l).map fun _ => .null := by
    intro l
    induction l with
    | nil => rfl
    | cons e l ih =>
      obtain ⟨k', v'⟩ := e
      rw [List.map_cons, find_cons, find_cons, ih]
      split_ifs <;> rfl
  rw [removedKeys, hmap,
    find_filter fun l => !isIn l gs && !(topLevel && decide (l = "metadata"))]
  cases hf : find k fs with
  | none => simp
  | some v => cases isIn k gs <;> cases topLevel <;> by_cases hk : k = "metadata" <;> simp [hk]

theorem find_patchEntries (fs : Fields ν) {gs : Fields ν} (hn : (gs.map Prod.fst).Nodup)
    (topLevel : Bool) (k : String) : find k (patchEntries fs gs topLevel) =
      ((find k gs).bind (subPatch fs k)).or
        (if (find k fs).isSome && !isIn k gs && !(topLevel && decide (k = "metadata")) then
          some .null else none) := by
  rw [patchEntries, find_append, find_mergeEntries fs hn, find_removedKeys]

theorem nodup_patchEntries {fs gs : Fields ν} (hf : (fs.map Prod.fst).Nodup)
    (hg : (gs.map Prod.fst).Nodup) (topLevel : Bool) :
    ((patchEntries fs gs topLevel).map Prod.fst).Nodup := by
  rw [patchEntries, List.map_append, List.nodup_append]
  refine ⟨hg.sublist (mergeEntries_keys fs gs), ?_, ?_⟩
  · rw [removedKeys, List.map_map]
    exact hf.sublist (List.filter_sublist.map _)
  · rintro k hk k' hk' rfl
    have hin : find k gs ≠ none := fun hn => find_eq_none_iff.mp hn ((mergeEntries_keys fs gs).subset hk)
    have hrem : find k (removedKeys fs gs topLevel) ≠ none := fun hn => find_eq_none_iff.mp hn hk'
    obtain ⟨v, hv⟩ := Option.ne_none_iff_exists'.mp hin
    simp [find_removedKeys, isIn_of_find hv] at hrem

theorem patchEntries_of_same {fs gs : Fields ν} (hf : Json.wellFormed (.obj fs) = true)
    (hg : Json.wellFormed (.obj gs) = true) (topLevel : Bool)
    (h : same (.obj fs) (.obj gs) = true) : patchEntries fs gs topLevel = [] := by
  have hnone : ∀ k, find k (patchEntries fs gs topLevel) = none := by
    intro k
    have hk := (same_obj_iff (wellFormed_nodup hf) (wellFormed_nodup hg)).mp h k
    rw [find_patchEntries fs (wellFormed_nodup hg)]
    cases hfk : find k fs with
    | none =>
      rw [hfk] at hk
      cases hgk : find k gs with
      | none => simp
      | some v =>
        rw [hgk] at hk
        cases hk
    | some w =>
      cases hgk : find k gs with
      | none =>
        rw [hfk, hgk] at hk
        cases hk
      | some v =>
        rw [hfk, hgk] at hk
        cases hk with
        | some hs => simp [subPatch, hfk, walkMerge_of_same false hs, isIn_of_find hgk]
  refine List.eq_nil_iff_forall_not_mem.mpr fun e he => ?_
  exact find_eq_none_iff.mp (hnone e.1) (List.mem_map.mpr ⟨e, he, rfl⟩)

/-- Between objects the walk's result is its entries, if there are any. -/
theorem walkMerge_obj_obj {fs gs : Fields ν} (hf : Json.wellFormed (.obj fs) = true)
    (hg : Json.wellFormed (.obj gs) = true) (topLevel : Bool) :
    (walkMerge (.obj fs) topLevel (.obj gs)).1 =
      if (patchEntries fs gs topLevel).isEmpty then none
      else some (.obj (patchEntries fs gs topLevel)) := by
  by_cases hs : same (.obj fs) (.obj gs) = true
  · rw [walkMerge_of_same topLevel hs, patchEntries_of_same hf hg topLevel hs]
    rfl
  · exact walkMerge_obj topLevel (by simpa using hs)

omit [DecidableEq ν] in
theorem wellFormed_stripIdentity {fs : Fields ν} (h : wellFormed (.obj fs) = true) :
    wellFormed (.obj (mapEntries stripIdentityEntry fs)) = true := by
  refine wellFormed_mapEntries h fun k v w hv hw => ?_
  unfold stripIdentityEntry at hw
  split_ifs at hw
  · cases v with
    | obj fs =>
      simp only [stripIdentityMeta] at hw
      split_ifs at hw
      cases hw
      exact wellFormed_filter hv fun k => decide (k ∉ metaIdentityKeys)
    | _ =>
      cases hw
      exact hv
  · cases hw
    exact hv

/-- The patch between two objects. -/
theorem mergePatch_obj {fs gs : Fields ν} (hf : wellFormed (.obj fs) = true)
    (hg : wellFormed (.obj gs) = true) : (mergePatch (.obj fs) (.obj gs)).patch =
      patchEntries (mapEntries stripIdentityEntry fs) (mapEntries stripIdentityEntry gs) true := by
  have hwalk := walkMerge_obj_obj (wellFormed_stripIdentity hf) (wellFormed_stripIdentity hg) true
  have hpatch : (mergePatch (.obj fs) (.obj gs)).patch =
      (match (walkMerge (.obj (mapEntries stripIdentityEntry fs)) true
        (.obj (mapEntries stripIdentityEntry gs))).1 with
        | some (.obj out) => out
        | _ => []) := rfl
  rw [hpatch, hwalk]
  cases patchEntries (mapEntries stripIdentityEntry fs) (mapEntries stripIdentityEntry gs) true <;>
    simp

end FerrisScope.YamlEdit
