import FerrisScope.YamlEdit

/-!
# What a YAML edit does to the edited object

A patch is judged by applying it to the original document: outside the identity fields the
result has to agree with the edited document, and the patch has to be empty exactly when
there was nothing to do. That is a condition on every key, and fails in two ways only: a key
that the edit removes from an object stays when `Object.prototype` has a member of that name,
and metadata left with nothing but identity is not patched at all.
-/

namespace FerrisScope.YamlEdit
open Json

variable {ν : Type} [DecidableEq ν]

mutual
/-- No key that the edited object lacks is named like a member of `Object.prototype`, in any
pair of objects that are merged. -/
def clean : Json ν → Json ν → Bool
  | .obj fs, .obj gs => cleanFields fs gs
  | _, _ => true

def cleanFields : Fields ν → Fields ν → Bool
  | [], _ => true
  | (k, w) :: fs, gs => (match find k gs with
      | none => decide (k ∉ objectPrototype)
      | some v => clean w v) && cleanFields fs gs
end

def CleanAt (k : String) : Option (Json ν) → Option (Json ν) → Prop
  | none, _ => True
  | some _, none => k ∉ objectPrototype
  | some w, some v => clean w v = true

omit [DecidableEq ν] in
theorem clean_obj_iff {fs : Fields ν} (hn : (fs.map Prod.fst).Nodup) (gs : Fields ν) :
    clean (.obj fs) (.obj gs) = true ↔ ∀ k, CleanAt k (find k fs) (find k gs) := by
  have hentry : ∀ k (w : Json ν), (match find k gs with
      | none => decide (k ∉ objectPrototype)
      | some v => clean w v) = true ↔ CleanAt k (some w) (find k gs) := by
    intro k w
    cases find k gs <;> simp [CleanAt]
  have hall : ∀ l : Fields ν, cleanFields l gs = true ↔
      ∀ k w, (k, w) ∈ l → CleanAt k (some w) (find k gs) := by
    intro l
    induction l with
    | nil => simp [cleanFields]
    | cons e l ih =>
      obtain ⟨k', w'⟩ := e
      simp only [cleanFields, Bool.and_eq_true, ih, List.mem_cons, Prod.mk.injEq]
      rw [hentry]
      constructor
      · rintro ⟨hw, hl⟩ k w (⟨rfl, rfl⟩ | hm)
        · exact hw
        · exact hl k w hm
      · intro h
        exact ⟨h k' w' (.inl ⟨rfl, rfl⟩), fun k w hm => h k w (.inr hm)⟩
  rw [clean, hall]
  constructor
  · intro h k
    cases hk : find k fs with
    | none => trivial
    | some w => exact h k w (mem_of_find hk)
  · intro h k w hm
    have hk := h k
    rwa [find_of_mem hn hm] at hk

omit [DecidableEq ν] in
theorem clean_of_ne_obj {a b : Json ν} (h : (∀ fs, a ≠ .obj fs) ∨ ∀ gs, b ≠ .obj gs) :
    clean a b = true := by
  cases a with
  | obj fs =>
    cases b with
    | obj gs => rcases h with h | h <;> exact absurd rfl (h _)
    | _ => rfl
  | _ => rfl

/-- Apply a walk's result; `UNCHANGED` leaves the target. -/
def applyWalk (target : Json ν) : Option (Json ν) → Json ν
  | none => target
  | some p => applyPatch target p

/-- What the walk between two values has to do, and when it says there is nothing to do. -/
structure Walked (a b : Json ν) : Prop where
  agrees : agrees (applyWalk a (walkMerge a false b).1) b = true ↔ clean a b = true
  unchanged : clean a b = true → ((walkMerge a false b).1 = none ↔ same a b = true)

theorem eq_null_of_walkMerge {a b : Json ν} {topLevel : Bool}
    (h : (walkMerge a topLevel b).1 = some .null) : b = .null := by
  by_cases hs : same a b = true
  · simp [walkMerge_of_same topLevel hs] at h
  · have hs' : same a b = false := by simpa using hs
    by_cases hobj : (∀ fs, a ≠ .obj fs) ∨ ∀ gs, b ≠ .obj gs
    · rw [walkMerge_leaf topLevel hs' hobj] at h
      exact Option.some.inj h
    · push Not at hobj
      obtain ⟨⟨fs, rfl⟩, gs, rfl⟩ := hobj
      rw [walkMerge_obj topLevel hs'] at h
      split_ifs at h
      cases h

theorem not_skipped {topLevel : Bool} {k : String} (htop : topLevel = false ∨ k ≠ "metadata") :
    (topLevel && decide (k = "metadata")) = false := by
  rcases htop with rfl | hk
  · rfl
  · simp [hk]

/-- The key by key account of a merge: the entry reached agrees with the edited one exactly
when the key is not one that is lost. -/
theorem agreeAt_patched {fs gs : Fields ν} (hg : Json.wellFormed (.obj gs) = true) {k : String}
    {topLevel : Bool} (htop : topLevel = false ∨ k ≠ "metadata")
    (ih : ∀ w v, find k fs = some w → find k gs = some v → Walked w v) :
    AgreeAt (mergedAt (find k fs) (find k (patchEntries fs gs topLevel))) (find k gs) ↔
      CleanAt k (find k fs) (find k gs) := by
  rw [find_patchEntries fs (wellFormed_nodup hg), not_skipped htop]
  cases hf : find k fs with
  | none =>
    cases hgk : find k gs with
    | none => simp [mergedAt, AgreeAt, CleanAt]
    | some v =>
      by_cases hv : v = .null
      · subst hv
        simp [subPatch, hf, mergedAt, AgreeAt, CleanAt]
      · have hfresh : agrees (applyPatch .null v) v = true :=
          agrees_applyPatch_fresh rfl (wellFormed_find hg hgk)
        simp [subPatch, hf, mergedAt_of_ne hv, AgreeAt, CleanAt, hfresh]
  | some w =>
    cases hgk : find k gs with
    | none =>
      rw [isIn_of_not_find hgk]
      by_cases hk : k ∈ objectPrototype <;> simp [hk, mergedAt, AgreeAt, CleanAt]
    | some v =>
      have hw := (ih w v hf hgk).agrees
      rw [isIn_of_find hgk]
      simp only [Option.bind_some, subPatch, hf, Option.isSome_some, Bool.not_true,
        Bool.and_false, Bool.false_and, Bool.false_eq_true, if_false, Option.or_none, CleanAt]
      rw [← hw]
      cases hp : (walkMerge w false v).1 with
      | none => rfl
      | some p =>
        by_cases hnull : p = .null
        · subst hnull
          rw [eq_null_of_walkMerge hp]
          simp [mergedAt, AgreeAt, applyWalk, applyPatch, agrees, same]
        · rw [mergedAt_of_ne hnull]
          rfl

/-- A key is left out of the patch exactly when nothing changed there. -/
theorem find_patchEntries_eq_none_iff {fs gs : Fields ν} (hg : Json.wellFormed (.obj gs) = true)
    {k : String} {topLevel : Bool} (htop : topLevel = false ∨ k ≠ "metadata")
    (hc : CleanAt k (find k fs) (find k gs))
    (ih : ∀ w v, find k fs = some w → find k gs = some v → Walked w v) :
    find k (patchEntries fs gs topLevel) = none ↔
      Option.Rel (fun v w => same v w = true) (find k fs) (find k gs) := by
  rw [find_patchEntries fs (wellFormed_nodup hg), not_skipped htop]
  cases hf : find k fs with
  | none =>
    cases hgk : find k gs with
    | none => simp
    | some v => simp [subPatch, hf]
  | some w =>
    cases hgk : find k gs with
    | none =>
      rw [hf, hgk] at hc
      rw [isIn_of_not_find hgk]
      have hk : k ∉ objectPrototype := hc
      simp [hk]
    | some v =>
      rw [hf, hgk] at hc
      rw [isIn_of_find hgk]
      simp only [Option.bind_some, subPatch, hf, Option.isSome_some, Bool.not_true,
        Bool.and_false, Bool.false_and, Bool.false_eq_true, if_false, Option.or_none]
      rw [(ih w v hf hgk).unchanged hc]
      exact ⟨fun h => .some h, fun h => by cases h; assumption⟩

omit [DecidableEq ν] in
theorem applyWalk_entries (fs ps : Fields ν) :
    applyWalk (.obj fs) (if ps.isEmpty then none else some (.obj ps)) = .obj (mergeFields fs ps) := by
  cases ps with
  | nil => simp [applyWalk, mergeFields]
  | cons e ps => simp [applyWalk, applyPatch, fields]

omit [DecidableEq ν] in
theorem eq_nil_iff_find {fs : Fields ν} : fs = [] ↔ ∀ k, find k fs = none := by
  constructor
  · rintro rfl k
    rfl
  · intro h
    refine List.eq_nil_iff_forall_not_mem.mpr fun e he => ?_
    exact find_eq_none_iff.mp (h e.1) (List.mem_map.mpr ⟨e, he, rfl⟩)

theorem walked_leaf {a b : Json ν} (ha : Json.wellFormed a = true) (hb : Json.wellFormed b = true)
    (hobj : (∀ fs, a ≠ .obj fs) ∨ ∀ gs, b ≠ .obj gs) : Walked a b := by
  have hclean : clean a b = true := clean_of_ne_obj hobj
  by_cases hs : same a b = true
  · refine ⟨?_, fun _ => ?_⟩
    · simp [walkMerge_of_same false hs, applyWalk, hclean, agrees_of_same ha hb hs]
    · simp [walkMerge_of_same false hs, hs]
  · have hs' : same a b = false := by simpa using hs
    rw [Bool.not_eq_true] at hs
    have hagrees : agrees (applyPatch a b) b = true := by
      rcases hobj with hobj | hobj
      · refine agrees_applyPatch_fresh ?_ hb
        cases a with
        | obj fs => exact absurd rfl (hobj fs)
        | _ => rfl
      · rw [agrees_of_ne_obj hobj]
        cases b with
        | obj gs => exact absurd rfl (hobj gs)
        | _ => simpa [applyPatch] using same_refl hb
    exact ⟨by simp [walkMerge_leaf false hs' hobj, applyWalk, hclean, hagrees],
      fun _ => by simp [walkMerge_leaf false hs' hobj, hs']⟩

theorem walked (a b : Json ν) (ha : Json.wellFormed a = true) (hb : Json.wellFormed b = true) :
    Walked a b := by
  induction b using Json.induct generalizing a with
  | obj gs ih =>
    cases a with
    | obj fs =>
      have hsub : ∀ k w v, find k fs = some w → find k gs = some v → Walked w v := by
        intro k w v hw hv
        exact ih k v (mem_of_find hv) w (wellFormed_find ha hw) (wellFormed_find hb hv)
      have hpatch := nodup_patchEntries (wellFormed_nodup ha) (wellFormed_nodup hb) false
      constructor
      · rw [walkMerge_obj_obj ha hb, applyWalk_entries, agrees_obj_iff (wellFormed_nodup hb),
          clean_obj_iff (wellFormed_nodup ha)]
        refine forall_congr' fun k => ?_
        rw [find_mergeFields hpatch]
        exact agreeAt_patched hb (.inl rfl) (hsub k)
      · intro hc
        rw [clean_obj_iff (wellFormed_nodup ha)] at hc
        have hnone : (walkMerge (.obj fs) false (.obj gs)).1 = none ↔ patchEntries fs gs false = [] := by
          rw [walkMerge_obj_obj ha hb]
          cases patchEntries fs gs false <;> simp
        rw [hnone, eq_nil_iff_find, same_obj_iff (wellFormed_nodup ha) (wellFormed_nodup hb)]
        exact forall_congr' fun k => find_patchEntries_eq_none_iff hb (.inl rfl) (hc k) (hsub k)
    | _ => exact walked_leaf ha hb (.inl (by simp))
  | _ => exact walked_leaf ha hb (.inr (by simp))

theorem count_leaf {a b : Json ν} (topLevel : Bool)
    (hobj : (∀ fs, a ≠ .obj fs) ∨ ∀ gs, b ≠ .obj gs) :
    (walkMerge a topLevel b).2 = 0 ↔ (walkMerge a topLevel b).1 = none := by
  by_cases hs : same a b = true
  · simp [walkMerge_of_same topLevel hs]
  · simp [walkMerge_leaf topLevel (by simpa using hs) hobj]

theorem count_entries (fs : Fields ν) {gs : Fields ν} (h : ∀ k v, (k, v) ∈ gs → ∀ a,
    (walkMerge a false v).2 = 0 ↔ (walkMerge a false v).1 = none) :
    (mergeEntries fs gs).2 = 0 ↔ (mergeEntries fs gs).1 = [] := by
  induction gs with
  | nil => simp [mergeEntries]
  | cons e gs ih =>
    obtain ⟨k, v⟩ := e
    have hrest := ih fun k v hm => h k v (by simp [hm])
    rw [mergeEntries_cons, mergeEntries_cons_count, subPatch]
    cases hf : find k fs with
    | none => simp
    | some w =>
      have hw := h k v (by simp) w
      cases hp : (walkMerge w false v).1 with
      | none => simpa [hw.mpr hp, hp] using hrest
      | some p =>
        have hne : (walkMerge w false v).2 ≠ 0 := fun h0 => by simp [hw.mp h0] at hp
        simp [hne, hp]

/-- The count is zero exactly when the walk reports no change. -/
theorem count_eq_zero_iff (a b : Json ν) (topLevel : Bool) :
    (walkMerge a topLevel b).2 = 0 ↔ (walkMerge a topLevel b).1 = none := by
  induction b using Json.induct generalizing a topLevel with
  | obj gs ih =>
    cases a with
    | obj fs =>
      by_cases hs : same (.obj fs) (.obj gs) = true
      · simp [walkMerge_of_same topLevel hs]
      · have hs' : same (.obj fs) (.obj gs) = false := by simpa using hs
        have hentries := count_entries fs fun k v hm a => ih k v hm a false
        rw [walkMerge_obj topLevel hs', walkMerge_obj_count topLevel hs', patchEntries,
          Nat.add_eq_zero_iff, hentries, List.length_eq_zero_iff, ← List.append_eq_nil_iff]
        cases (mergeEntries fs gs).1 ++ removedKeys fs gs topLevel <;> simp
    | _ => exact count_leaf topLevel (.inl (by simp))
  | _ => exact count_leaf topLevel (.inr (by simp))

/-- A document the editor patches: an object with an object under `metadata`. -/
structure Manifest (ν : Type) where
  fields : Fields ν
  metaFields : Fields ν
  wellFormed : Json.wellFormed (.obj fields) = true
  protoFree : YamlEdit.protoFree (.obj fields) = true
  metadata : find "metadata" fields = some (.obj metaFields)

namespace Manifest

def doc (m : Manifest ν) : Json ν := .obj m.fields

/-- The metadata outside the identity fields. -/
def ownMeta (m : Manifest ν) : Fields ν :=
  m.metaFields.filter fun e => decide (e.1 ∉ metaIdentityKeys)

end Manifest

def eraseIdentityEntry (k : String) (v : Json ν) : Option (Json ν) :=
  if k ∈ identityKeys then none
  else if k = "metadata" then match v with
    | .obj metaFields => some (.obj (metaFields.filter fun e => decide (e.1 ∉ metaIdentityKeys)))
    | v => some v
  else some v

/-- A document without its identity fields, and with all the rest. -/
def eraseIdentity : Json ν → Json ν
  | .obj fs => .obj (mapEntries eraseIdentityEntry fs)
  | doc => doc

/-- The patch does what the edit says: applied to the original it reaches the edited document
outside the identity fields, and it is reported empty exactly when the two are equal there. -/
def Faithful (original edited : Json ν) : Prop :=
  let r := mergePatch original edited
  agrees (eraseIdentity (applyPatch original (.obj r.patch))) (eraseIdentity edited) = true ∧
    (r.empty = true ↔ same (eraseIdentity original) (eraseIdentity edited) = true)

section Patched

variable (o e : Manifest ν)

/-- The fields the walk compares. -/
def stripped (m : Manifest ν) : Fields ν := mapEntries stripIdentityEntry m.fields

def erased (m : Manifest ν) : Fields ν := mapEntries eraseIdentityEntry m.fields

omit [DecidableEq ν] in
theorem wellFormed_ownMeta (m : Manifest ν) : Json.wellFormed (.obj m.ownMeta) = true :=
  wellFormed_filter (wellFormed_find m.wellFormed m.metadata) fun k => decide (k ∉ metaIdentityKeys)

omit [DecidableEq ν] in
theorem wellFormed_stripped (m : Manifest ν) : Json.wellFormed (.obj (stripped m)) = true :=
  wellFormed_stripIdentity m.wellFormed

omit [DecidableEq ν] in
theorem wellFormed_erased (m : Manifest ν) : Json.wellFormed (.obj (erased m)) = true := by
  refine wellFormed_mapEntries m.wellFormed fun k v w hv hw => ?_
  unfold eraseIdentityEntry at hw
  split_ifs at hw
  · cases v with
    | obj fs =>
      cases hw
      exact wellFormed_filter hv fun k => decide (k ∉ metaIdentityKeys)
    | _ =>
      cases hw
      exact hv
  · cases hw
    exact hv

omit [DecidableEq ν] in
theorem find_stripped (m : Manifest ν) (k : String) : find k (stripped m) =
    if k ∈ identityKeys then none
    else if k = "metadata" then (if m.ownMeta.isEmpty then none else some (.obj m.ownMeta))
    else find k m.fields := by
  rw [stripped, find_mapEntries _ (wellFormed_nodup m.wellFormed)]
  by_cases hid : k ∈ identityKeys
  · cases find k m.fields <;> simp [stripIdentityEntry, hid]
  · by_cases hm : k = "metadata"
    · subst hm
      simp only [m.metadata, Option.bind_some, stripIdentityEntry, hid, if_false, if_true,
        stripIdentityMeta]
      rfl
    · cases find k m.fields <;> simp [stripIdentityEntry, hid, hm]

omit [DecidableEq ν] in
theorem find_erased (m : Manifest ν) (k : String) : find k (erased m) =
    if k ∈ identityKeys then none
    else if k = "metadata" then some (.obj m.ownMeta) else find k m.fields := by
  rw [erased, find_mapEntries _ (wellFormed_nodup m.wellFormed)]
  by_cases hid : k ∈ identityKeys
  · cases find k m.fields <;> simp [eraseIdentityEntry, hid]
  · by_cases hm : k = "metadata"
    · subst hm
      simp only [m.metadata, Option.bind_some, eraseIdentityEntry, hid, if_false, if_true]
      rfl
    · cases find k m.fields <;> simp [eraseIdentityEntry, hid, hm]

/-- The entries of the patch between two manifests. -/
def entries : Fields ν := patchEntries (stripped o) (stripped e) true

theorem mergePatch_patch : (mergePatch o.doc e.doc).patch = entries o e :=
  mergePatch_obj o.wellFormed e.wellFormed

theorem mergePatch_empty : (mergePatch o.doc e.doc).empty = true ↔ entries o e = [] := by
  have hwalk := walkMerge_obj_obj (wellFormed_stripped o) (wellFormed_stripped e) true
  have hempty : (mergePatch o.doc e.doc).empty =
      decide ((walkMerge (.obj (stripped o)) true (.obj (stripped e))).2 = 0) := rfl
  rw [hempty, decide_eq_true_eq, count_eq_zero_iff, hwalk, entries]
  cases patchEntries (stripped o) (stripped e) true <;> simp

theorem nodup_entries : ((entries o e).map Prod.fst).Nodup :=
  nodup_patchEntries (wellFormed_nodup (wellFormed_stripped o))
    (wellFormed_nodup (wellFormed_stripped e)) true

/-- The walk does not see metadata that is all identity. -/
theorem find_entries_metadata : find "metadata" (entries o e) =
    if e.ownMeta.isEmpty then none
    else if o.ownMeta.isEmpty then some (.obj e.ownMeta)
    else (walkMerge (.obj o.ownMeta) false (.obj e.ownMeta)).1 := by
  rw [entries, find_patchEntries _ (wellFormed_nodup (wellFormed_stripped e)), find_stripped e]
  have hid : "metadata" ∉ identityKeys := by decide
  by_cases he : e.ownMeta.isEmpty = true
  · simp [hid, he]
  · by_cases ho : o.ownMeta.isEmpty = true
    · simp [hid, he, ho, subPatch, find_stripped]
    · simp [hid, he, ho, subPatch, find_stripped]

omit [DecidableEq ν] in
theorem find_ownMeta_identity (m : Manifest ν) {k : String} (hk : k ∈ metaIdentityKeys) :
    find k m.ownMeta = none := by
  rw [Manifest.ownMeta, find_filter fun k => decide (k ∉ metaIdentityKeys)]
  simp [hk]

omit [DecidableEq ν] in
/-- Merging into the metadata, seen outside the identity fields. -/
theorem find_merged_ownMeta (m : Manifest ν) {ps : Fields ν} (hn : (ps.map Prod.fst).Nodup)
    (hps : ∀ k ∈ metaIdentityKeys, find k ps = none) (k : String) :
    find k ((mergeFields m.metaFields ps).filter fun e => decide (e.1 ∉ metaIdentityKeys)) =
      mergedAt (find k m.ownMeta) (find k ps) := by
  rw [find_filter fun k => decide (k ∉ metaIdentityKeys), find_mergeFields hn]
  by_cases hk : k ∈ metaIdentityKeys
  · simp [hk, hps k hk, find_ownMeta_identity m hk, mergedAt]
  · rw [Manifest.ownMeta, find_filter fun k => decide (k ∉ metaIdentityKeys)]
    simp [hk]

omit [DecidableEq ν] in
theorem erase_merged_metadata (ms ps : Fields ν) :
    (mergedAt (some (.obj ms)) (if ps.isEmpty then none else some (.obj ps))).bind
      (eraseIdentityEntry "metadata") =
    some (.obj ((mergeFields ms ps).filter fun e => decide (e.1 ∉ metaIdentityKeys))) := by
  cases ps with
  | nil => simp [mergedAt, mergeFields, eraseIdentityEntry, identityKeys]
  | cons e ps => simp [mergedAt, applyPatch, fields, eraseIdentityEntry, identityKeys]

/-- Metadata that the walk does not see although it had something to remove. -/
def metadataLost : Prop := o.ownMeta ≠ [] ∧ e.ownMeta = []

/-- Nothing is left of the edited metadata: the walk patches nothing. -/
theorem agrees_ownMeta_nil (he : e.ownMeta = []) :
    agrees (.obj o.ownMeta) (.obj e.ownMeta) = true ↔ ¬ metadataLost o e := by
  rw [he, agrees_obj_iff (by simp)]
  constructor
  · intro h hl
    exact hl.1 (eq_nil_iff_find.mpr fun k => h k)
  · intro hl k
    have hnil : o.ownMeta = [] := by
      by_contra hne
      exact hl ⟨hne, he⟩
    rw [hnil]
    rfl

/-- There was no metadata to merge with: the edited one is set as it is. -/
theorem agrees_merged_fresh (ho : o.ownMeta = []) :
    agrees (.obj ((mergeFields o.metaFields e.ownMeta).filter
      fun e => decide (e.1 ∉ metaIdentityKeys))) (.obj e.ownMeta) = true := by
  have he := wellFormed_ownMeta e
  have hfresh : agrees (applyPatch .null (.obj e.ownMeta)) (.obj e.ownMeta) = true :=
    agrees_applyPatch_fresh rfl he
  rw [applyPatch, agrees_obj_iff (wellFormed_nodup he)] at hfresh
  rw [agrees_obj_iff (wellFormed_nodup he)]
  intro k
  have hk := hfresh k
  rw [find_mergeFields (wellFormed_nodup he)] at hk
  rw [find_merged_ownMeta o (wellFormed_nodup he) (fun k hk => find_ownMeta_identity e hk), ho]
  exact hk

/-- Both sides have metadata and the walk merges them. -/
theorem agrees_merged_walked :
    agrees (.obj ((mergeFields o.metaFields (patchEntries o.ownMeta e.ownMeta false)).filter
      fun e => decide (e.1 ∉ metaIdentityKeys))) (.obj e.ownMeta) = true ↔
    clean (.obj o.ownMeta) (.obj e.ownMeta) = true := by
  have ho := wellFormed_ownMeta o
  have he := wellFormed_ownMeta e
  have hn := nodup_patchEntries (wellFormed_nodup ho) (wellFormed_nodup he) false
  have hps : ∀ k ∈ metaIdentityKeys, find k (patchEntries o.ownMeta e.ownMeta false) = none := by
    intro k hk
    rw [find_patchEntries _ (wellFormed_nodup he), find_ownMeta_identity e hk,
      find_ownMeta_identity o hk]
    rfl
  rw [agrees_obj_iff (wellFormed_nodup he), clean_obj_iff (wellFormed_nodup ho)]
  refine forall_congr' fun k => ?_
  rw [find_merged_ownMeta o hn hps]
  exact agreeAt_patched he (.inl rfl) fun w v hw hv =>
    walked w v (wellFormed_find ho hw) (wellFormed_find he hv)

theorem agreeAt_metadata :
    AgreeAt ((mergedAt (some (.obj o.metaFields)) (find "metadata" (entries o e))).bind
      (eraseIdentityEntry "metadata")) (some (.obj e.ownMeta)) ↔
    clean (.obj o.ownMeta) (.obj e.ownMeta) = true ∧ ¬ metadataLost o e := by
  rw [find_entries_metadata]
  by_cases hem : e.ownMeta = []
  · have herase := erase_merged_metadata o.metaFields ([] : Fields ν)
    have hempty : e.ownMeta.isEmpty = true := by simp [hem]
    simp only [List.isEmpty_nil, if_true] at herase
    rw [hempty, if_pos rfl, herase, mergeFields]
    show agrees (.obj o.ownMeta) (.obj e.ownMeta) = true ↔ _
    rw [agrees_ownMeta_nil o e hem]
    refine ⟨fun hl => ⟨?_, hl⟩, And.right⟩
    have hnil : o.ownMeta = [] := by
      by_contra hne
      exact hl ⟨hne, hem⟩
    simp [hnil, clean, cleanFields]
  · have hlost : ¬ metadataLost o e := fun hl => hem hl.2
    have heb : e.ownMeta.isEmpty = false := by simpa using hem
    by_cases hom : o.ownMeta = []
    · have herase := erase_merged_metadata o.metaFields e.ownMeta
      simp only [heb, hom, Bool.false_eq_true, if_false, List.isEmpty_nil, if_true] at herase ⊢
      rw [herase]
      exact iff_of_true (agrees_merged_fresh o e hom) ⟨by simp [clean, cleanFields], hlost⟩
    · have hob : o.ownMeta.isEmpty = false := by simpa using hom
      have herase := erase_merged_metadata o.metaFields (patchEntries o.ownMeta e.ownMeta false)
      simp only [heb, hob, Bool.false_eq_true, if_false]
      rw [walkMerge_obj_obj (wellFormed_ownMeta o) (wellFormed_ownMeta e), herase]
      show agrees _ _ = true ↔ _
      rw [agrees_merged_walked]
      exact ⟨fun h => ⟨h, hlost⟩, And.left⟩

theorem find_entries_identity {k : String} (hk : k ∈ identityKeys) :
    find k (entries o e) = none := by
  rw [entries, find_patchEntries _ (wellFormed_nodup (wellFormed_stripped e)), find_stripped,
    find_stripped]
  simp [hk]

omit [DecidableEq ν] in
theorem find_stripped_of_ne {m : Manifest ν} {k : String} (hid : k ∉ identityKeys)
    (hm : k ≠ "metadata") : find k (stripped m) = find k m.fields := by
  rw [find_stripped, if_neg hid, if_neg hm]

omit [DecidableEq ν] in
theorem find_erased_of_ne {m : Manifest ν} {k : String} (hid : k ∉ identityKeys)
    (hm : k ≠ "metadata") : find k (erased m) = find k m.fields := by
  rw [find_erased, if_neg hid, if_neg hm]

theorem walked_stripped (k : String) (w v : Json ν) (hw : find k (stripped o) = some w)
    (hv : find k (stripped e) = some v) : Walked w v :=
  walked w v (wellFormed_find (wellFormed_stripped o) hw) (wellFormed_find (wellFormed_stripped e) hv)

/-- Key by key, what the patched document has against the edited one. -/
theorem agreeAt_entries (k : String) :
    AgreeAt ((mergedAt (find k o.fields) (find k (entries o e))).bind (eraseIdentityEntry k))
      (find k (erased e)) ↔
    CleanAt k (find k (erased o)) (find k (erased e)) ∧ (k = "metadata" → ¬ metadataLost o e) := by
  by_cases hid : k ∈ identityKeys
  · have hm : k ≠ "metadata" := by
      rintro rfl
      exact absurd hid (by decide)
    have hbind : ∀ x : Option (Json ν), x.bind (eraseIdentityEntry k) = none := by
      intro x
      cases x <;> simp [eraseIdentityEntry, hid]
    rw [hbind, find_erased, find_erased]
    simp [hid, hm, AgreeAt, CleanAt]
  · by_cases hm : k = "metadata"
    · subst hm
      rw [o.metadata, find_erased, find_erased]
      simp only [hid, if_false, if_true, CleanAt, true_implies]
      exact agreeAt_metadata o e
    · have hbind : ∀ x : Option (Json ν), x.bind (eraseIdentityEntry k) = x := by
        intro x
        cases x <;> simp [eraseIdentityEntry, hid, hm]
      rw [hbind, find_erased_of_ne hid hm, find_erased_of_ne hid hm, ← find_stripped_of_ne hid hm,
        ← find_stripped_of_ne hid hm]
      simp only [hm, false_implies, and_true]
      exact agreeAt_patched (wellFormed_stripped e) (.inr hm) (walked_stripped o e k)

/-- Key by key, when the patch leaves a key out. -/
theorem find_entries_eq_none_iff (hl : ¬ metadataLost o e) {k : String}
    (hc : CleanAt k (find k (erased o)) (find k (erased e))) :
    find k (entries o e) = none ↔
      Option.Rel (fun v w => same v w = true) (find k (erased o)) (find k (erased e)) := by
  by_cases hid : k ∈ identityKeys
  · rw [find_entries_identity o e hid, find_erased, find_erased]
    simp [hid]
  · by_cases hm : k = "metadata"
    · subst hm
      rw [find_erased, find_erased] at hc ⊢
      simp only [hid, if_false, if_true, CleanAt, Option.rel_some_some] at hc ⊢
      rw [find_entries_metadata]
      by_cases hem : e.ownMeta = []
      · have hom : o.ownMeta = [] := by
          by_contra hne
          exact hl ⟨hne, hem⟩
        simp [hem, hom, same, sameFields]
      · have heb : e.ownMeta.isEmpty = false := by simpa using hem
        by_cases hom : o.ownMeta = []
        · have hlen : 0 ≠ e.ownMeta.length := fun h0 => hem (List.length_eq_zero_iff.mp h0.symm)
          simp [heb, hom, same, hlen]
        · have hob : o.ownMeta.isEmpty = false := by simpa using hom
          simp only [heb, hob, Bool.false_eq_true, if_false]
          exact (walked _ _ (wellFormed_ownMeta o) (wellFormed_ownMeta e)).unchanged hc
    · rw [find_erased_of_ne hid hm, find_erased_of_ne hid hm, ← find_stripped_of_ne hid hm,
        ← find_stripped_of_ne hid hm] at hc ⊢
      exact find_patchEntries_eq_none_iff (wellFormed_stripped e) (.inr hm) hc
        (walked_stripped o e k)

end Patched

/-- A config map with one label and two entries, and two edits of it. -/
def labelled : Manifest ℕ where
  fields := [("metadata", .obj [("name", .str "a"), ("labels", .obj [("x", .str "1")])]),
    ("data", .obj [("constructor", .str "2"), ("kept", .str "3")])]
  metaFields := [("name", .str "a"), ("labels", .obj [("x", .str "1")])]
  wellFormed := by decide
  protoFree := by decide
  metadata := by decide

def withoutLabels : Manifest ℕ where
  fields := [("metadata", .obj [("name", .str "a")]),
    ("data", .obj [("constructor", .str "2"), ("kept", .str "3")])]
  metaFields := [("name", .str "a")]
  wellFormed := by decide
  protoFree := by decide
  metadata := by decide

def withoutConstructor : Manifest ℕ where
  fields := [("metadata", .obj [("name", .str "a"), ("labels", .obj [("x", .str "1")])]),
    ("data", .obj [("kept", .str "3")])]
  metaFields := [("name", .str "a"), ("labels", .obj [("x", .str "1")])]
  wellFormed := by decide
  protoFree := by decide
  metadata := by decide

end FerrisScope.YamlEdit
