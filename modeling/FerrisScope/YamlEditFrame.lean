import FerrisScope.YamlEdit

/-!
# What a YAML edit does to the fields it does not show

The baseline of an edit is the live object without its server fields, and the patch is
applied to the live object. The hidden fields stand in three containers: the document, its
metadata and its annotations. A patch entry can reach a hidden field only by replacing or
deleting a container, so the fields survive exactly when the containers do.
-/

namespace FerrisScope.YamlEdit
open Json

variable {ν : Type}

/-- The entries of the metadata, when it is an object. -/
def metaOf (fs : Fields ν) : Fields ν := fields ((find "metadata" fs).getD .null)

/-- The entries of the annotations, when they are an object. -/
def annotationsOf (fs : Fields ν) : Fields ν := fields ((find "annotations" (metaOf fs)).getD .null)

structure LiveObject (ν : Type) where
  fields : Fields ν
  wellFormed : Json.wellFormed (.obj fields) = true
  protoFree : YamlEdit.protoFree (.obj fields) = true

/-- An edited document that adds none of the hidden keys. -/
structure Edit (ν : Type) where
  doc : Json ν
  wellFormed : Json.wellFormed doc = true
  protoFree : YamlEdit.protoFree doc = true
  status : doc.get? "status" = none
  metadata : ∀ k ∈ metaStripKeys, find k (metaOf (Json.fields doc)) = none
  annotations : ∀ k ∈ annotationStripKeys, find k (annotationsOf (Json.fields doc)) = none

/-- The hidden fields of two objects are equal. -/
structure SameHidden (fs gs : Fields ν) : Prop where
  status : find "status" fs = find "status" gs
  metadata : ∀ k ∈ metaStripKeys, find k (metaOf fs) = find k (metaOf gs)
  annotations : ∀ k ∈ annotationStripKeys, find k (annotationsOf fs) = find k (annotationsOf gs)

def hidesMeta (l : LiveObject ν) : Prop := ∃ k ∈ metaStripKeys, find k (metaOf l.fields) ≠ none

def hidesAnnotations (l : LiveObject ν) : Prop :=
  ∃ k ∈ annotationStripKeys, find k (annotationsOf l.fields) ≠ none

/-- The annotations the editor shows. -/
def shownAnnotations (l : LiveObject ν) : Fields ν :=
  (annotationsOf l.fields).filter fun e => decide (e.1 ∉ annotationStripKeys)

/-- The edit leaves the containers of the hidden fields in place. -/
def KeepsContainers (l : LiveObject ν) (e : Edit ν) : Prop :=
  match e.doc.get? "metadata" with
  | none => True
  | some (.obj me) => hidesAnnotations l →
      (∃ anns, find "annotations" me = some (.obj anns)) ∨
      find "annotations" me = none ∧
        (shownAnnotations l = [] ∨ (me.filter fun e => decide (e.1 ∉ metaIdentityKeys)) = [])
  | some _ => ¬ hidesMeta l ∧ ¬ hidesAnnotations l

variable [DecidableEq ν]

/-- The live object after the edit is saved. -/
def saved (l : LiveObject ν) (e : Edit ν) : Fields ν :=
  mergeFields l.fields (mergePatch (stripServerFields (.obj l.fields)) e.doc).patch

omit [DecidableEq ν] in
theorem wellFormed_stripAnnotations {v w : Json ν} (hv : wellFormed v = true)
    (hw : stripAnnotations v = some w) : wellFormed w = true := by
  cases v with
  | obj anns =>
    simp only [stripAnnotations] at hw
    split_ifs at hw
    cases hw
    exact wellFormed_filter hv fun k => decide (k ∉ annotationStripKeys)
  | _ =>
    cases hw
    exact hv

omit [DecidableEq ν] in
theorem wellFormed_stripServer {fs : Fields ν} (h : wellFormed (.obj fs) = true) :
    wellFormed (.obj (mapEntries stripServerEntry fs)) = true := by
  have hmeta : ∀ k (v w : Json ν), wellFormed v = true → stripServerMeta k v = some w →
      wellFormed w = true := by
    intro k v w hv hw
    unfold stripServerMeta at hw
    split_ifs at hw
    · exact wellFormed_stripAnnotations hv hw
    · cases hw
      exact hv
  refine wellFormed_mapEntries h fun k v w hv hw => ?_
  unfold stripServerEntry at hw
  split_ifs at hw
  · cases v with
    | obj ms =>
      cases hw
      exact wellFormed_mapEntries hv hmeta
    | _ =>
      cases hw
      exact hv
  · cases hw
    exact hv

section Saved

variable (l : LiveObject ν) (fe : Fields ν)

/-- The two sides of the walk. -/
def baseline : Fields ν := mapEntries stripIdentityEntry (mapEntries stripServerEntry l.fields)

def edited (fe : Fields ν) : Fields ν := mapEntries stripIdentityEntry fe

omit [DecidableEq ν] in
theorem find_baseline (k : String) : find k (baseline l) =
    ((find k l.fields).bind (stripServerEntry k)).bind (stripIdentityEntry k) := by
  rw [baseline, find_mapEntries _ (wellFormed_nodup (wellFormed_stripServer l.wellFormed)),
    find_mapEntries _ (wellFormed_nodup l.wellFormed)]

omit [DecidableEq ν] in
theorem find_edited (he : wellFormed (.obj fe) = true) (k : String) :
    find k (edited fe) = (find k fe).bind (stripIdentityEntry k) := by
  rw [edited, find_mapEntries _ (wellFormed_nodup he)]

/-- The metadata entries on the side of the live object: what is neither server-owned nor
identity. -/
def shownMeta : Fields ν :=
  (mapEntries stripServerMeta (metaOf l.fields)).filter fun e => decide (e.1 ∉ metaIdentityKeys)

omit [DecidableEq ν] in
theorem wellFormed_metaOf {fs : Fields ν} (h : wellFormed (.obj fs) = true) :
    wellFormed (.obj (metaOf fs)) = true := by
  cases hm : find "metadata" fs with
  | none => simp [metaOf, hm, fields, wellFormed, wellFormedFields]
  | some v =>
    have hv := wellFormed_find h hm
    cases v with
    | obj ms => simpa [metaOf, hm, fields] using hv
    | _ => simp [metaOf, hm, fields, wellFormed, wellFormedFields]

omit [DecidableEq ν] in
theorem find_shownMeta (k : String) : find k (shownMeta l) =
    if k ∈ metaIdentityKeys then none else (find k (metaOf l.fields)).bind (stripServerMeta k) := by
  rw [shownMeta, find_filter fun k => decide (k ∉ metaIdentityKeys),
    find_mapEntries _ (wellFormed_nodup (wellFormed_metaOf l.wellFormed))]
  by_cases hk : k ∈ metaIdentityKeys <;> simp [hk]

omit [DecidableEq ν] in
/-- The metadata of the baseline is what is shown of the live metadata. -/
theorem baseline_metadata : (∃ ms, find "metadata" l.fields = some (.obj ms) ∧
      find "metadata" (baseline l) =
        if (shownMeta l).isEmpty then none else some (.obj (shownMeta l))) ∨
    ((∀ ms, find "metadata" l.fields ≠ some (.obj ms)) ∧ shownMeta l = [] ∧ metaOf l.fields = [] ∧
      find "metadata" (baseline l) = find "metadata" l.fields) := by
  rw [find_baseline]
  cases hm : find "metadata" l.fields with
  | none =>
    have hnil : metaOf l.fields = [] := by simp [metaOf, hm, fields]
    exact .inr ⟨by simp, by simp [shownMeta, hnil, mapEntries], hnil, rfl⟩
  | some v =>
    cases v with
    | obj ms =>
      have hms : metaOf l.fields = ms := by simp [metaOf, hm, fields]
      refine .inl ⟨ms, rfl, ?_⟩
      rw [shownMeta, hms]
      simp [stripServerEntry, stripIdentityEntry, stripIdentityMeta, identityKeys]
    | _ =>
      have hnil : metaOf l.fields = [] := by simp [metaOf, hm, fields]
      refine .inr ⟨by simp, by simp [shownMeta, hnil, mapEntries], hnil, ?_⟩
      simp [stripServerEntry, stripIdentityEntry, stripIdentityMeta, identityKeys]

omit [DecidableEq ν] in
theorem wellFormed_baseline : wellFormed (.obj (baseline l)) = true :=
  wellFormed_stripIdentity (wellFormed_stripServer l.wellFormed)

/-- The live object after an edit to an object. -/
def savedObject : Fields ν := mergeFields l.fields (patchEntries (baseline l) (edited fe) true)

variable {fe} (he : wellFormed (.obj fe) = true)

include he

omit [DecidableEq ν] in
theorem wellFormed_edited : wellFormed (.obj (edited fe)) = true := wellFormed_stripIdentity he

theorem find_savedObject (k : String) : find k (savedObject l fe) =
    mergedAt (find k l.fields) (find k (patchEntries (baseline l) (edited fe) true)) :=
  find_mergeFields (nodup_patchEntries (wellFormed_nodup (wellFormed_baseline l))
    (wellFormed_nodup (wellFormed_edited he)) true) l.fields k

theorem find_patch_metadata :
    find "metadata" (patchEntries (baseline l) (edited fe) true) =
      (find "metadata" (edited fe)).bind (subPatch (baseline l) "metadata") := by
  rw [find_patchEntries _ (wellFormed_nodup (wellFormed_edited he))]
  simp

theorem status_saved (hs : find "status" fe = none) :
    find "status" (savedObject l fe) = find "status" l.fields := by
  have hb : find "status" (baseline l) = none := by
    rw [find_baseline]
    cases find "status" l.fields <;> simp [stripServerEntry]
  have hpatch : find "status" (patchEntries (baseline l) (edited fe) true) = none := by
    rw [find_patchEntries _ (wellFormed_nodup (wellFormed_edited he)), find_edited fe he, hs, hb]
    rfl
  rw [find_savedObject l he, hpatch]
  rfl

/-- Without metadata on the edited side the patch leaves the metadata alone. -/
theorem metaOf_saved_none (hm : find "metadata" (edited fe) = none) :
    metaOf (savedObject l fe) = metaOf l.fields := by
  rw [metaOf, find_savedObject l he, find_patch_metadata l he, hm]
  rfl

/-- Metadata that is edited to something else than an object is replaced or deleted. -/
theorem metaOf_saved_leaf {v : Json ν} (hv : ∀ ms, v ≠ .obj ms)
    (hm : find "metadata" (edited fe) = some v) : metaOf (savedObject l fe) = [] := by
  have hleaf : ∀ x, fields ((mergedAt x (some v)).getD .null) = [] := by
    intro x
    cases v with
    | obj ms => exact absurd rfl (hv ms)
    | _ => rfl
  rw [metaOf, find_savedObject l he, find_patch_metadata l he, hm, Option.bind_some, subPatch]
  rcases baseline_metadata l with ⟨ms, hms, hb⟩ | ⟨-, -, hnil, hb⟩
  · rw [hb]
    cases hempty : (shownMeta l).isEmpty with
    | true => simpa using hleaf _
    | false =>
      have hs : same (.obj (shownMeta l)) v = false := by
        cases v with
        | obj ms => exact absurd rfl (hv ms)
        | _ => simp [same]
      simpa [walkMerge_leaf false hs (.inr hv)] using hleaf _
  · rw [hb]
    cases hl : find "metadata" l.fields with
    | none => simpa using hleaf none
    | some w =>
      by_cases hs : same w v = true
      · rw [metaOf, hl] at hnil
        simpa [walkMerge_of_same false hs, mergedAt] using hnil
      · have hwalk := walkMerge_leaf false (by simpa using hs) (.inr hv)
        simpa [hwalk] using hleaf (some w)

omit he in
theorem patchEntries_nil {me : Fields ν} (hn : (me.map Prod.fst).Nodup) :
    ∀ k, find k (patchEntries [] me false) = find k me := by
  intro k
  rw [find_patchEntries _ hn]
  cases find k me <;> simp [subPatch]

/-- Metadata edited to an object is merged into the live metadata entry by entry. -/
theorem find_metaOf_saved {me : Fields ν} (hm : find "metadata" (edited fe) = some (.obj me))
    (k : String) : find k (metaOf (savedObject l fe)) =
      mergedAt (find k (metaOf l.fields)) (find k (patchEntries (shownMeta l) me false)) := by
  have hme : wellFormed (.obj me) = true := wellFormed_find (wellFormed_edited he) hm
  have hmerge : ∀ x, find k (fields ((mergedAt x (some (.obj me))).getD .null)) =
      mergedAt (find k (fields (x.getD .null))) (find k me) := by
    intro x
    simp only [mergedAt, Option.getD_some, applyPatch, fields]
    exact find_mergeFields (wellFormed_nodup hme) _ k
  rw [metaOf, find_savedObject l he, find_patch_metadata l he, hm, Option.bind_some, subPatch]
  rcases baseline_metadata l with ⟨ms, hms, hb⟩ | ⟨hne, hshown, hnil, hb⟩
  · have hl : metaOf l.fields = ms := by simp [metaOf, hms, fields]
    rw [hb]
    cases hempty : (shownMeta l).isEmpty with
    | true =>
      have hnil : shownMeta l = [] := List.isEmpty_iff.mp hempty
      rw [hnil, patchEntries_nil (wellFormed_nodup hme)]
      simpa [hms, hl, fields] using hmerge (some (.obj ms))
    | false =>
      have hfind : find "metadata" (baseline l) = some (.obj (shownMeta l)) := by simp [hb, hempty]
      have hshown : wellFormed (.obj (shownMeta l)) = true :=
        wellFormed_find (wellFormed_baseline l) hfind
      have hn := nodup_patchEntries (wellFormed_nodup hshown) (wellFormed_nodup hme) false
      simp only [Bool.false_eq_true, if_false]
      rw [walkMerge_obj_obj hshown hme, hms, hl, ← find_mergeFields hn]
      cases patchEntries (shownMeta l) me false <;>
        simp [mergedAt, applyPatch, mergeFields, fields]
  · rw [hb, hshown, patchEntries_nil (wellFormed_nodup hme), hnil]
    cases hl : find "metadata" l.fields with
    | none => simpa [fields] using hmerge none
    | some w =>
      have hw : ∀ fs, w ≠ .obj fs := fun fs hfs => hne fs (by rw [hl, hfs])
      have hs : same w (.obj me) = false := by
        cases w with
        | obj fs => exact absurd rfl (hw fs)
        | _ => simp [same]
      have hfw : fields w = [] := by simpa [metaOf, hl] using hnil
      simpa [walkMerge_leaf false hs (.inl hw), hfw] using hmerge (some w)

/-- Server-owned metadata survives an edit that keeps an object under `metadata`. -/
theorem metadata_saved {me : Fields ν} (hm : find "metadata" (edited fe) = some (.obj me))
    {k : String} (hk : k ∈ metaStripKeys) (hme : find k me = none) :
    find k (metaOf (savedObject l fe)) = find k (metaOf l.fields) := by
  have hwf : wellFormed (.obj me) = true := wellFormed_find (wellFormed_edited he) hm
  have hshown : find k (shownMeta l) = none := by
    rw [find_shownMeta]
    split_ifs
    · rfl
    · cases find k (metaOf l.fields) <;> simp [stripServerMeta, hk]
  rw [find_metaOf_saved l he hm, find_patchEntries _ (wellFormed_nodup hwf), hme, hshown]
  rfl

end Saved

/-- A patch entry that brings nothing hidden with it. -/
def Plain (p : Json ν) : Prop := ∀ ps, p = .obj ps →
  (ps.map Prod.fst).Nodup ∧ ∀ k ∈ annotationStripKeys, find k ps = none

omit [DecidableEq ν] in
/-- Merging a plain entry keeps the hidden annotations exactly when it merges at all. -/
theorem annotations_merged {x pa : Option (Json ν)} (hpa : ∀ p, pa = some p → Plain p) :
    (∀ k ∈ annotationStripKeys, find k (fields ((mergedAt x pa).getD .null)) =
      find k (fields (x.getD .null))) ↔
    ((∃ k ∈ annotationStripKeys, find k (fields (x.getD .null)) ≠ none) →
      pa = none ∨ ∃ ps, pa = some (.obj ps)) := by
  cases pa with
  | none => simp [mergedAt]
  | some p =>
    by_cases hobj : ∃ ps, p = .obj ps
    · obtain ⟨ps, rfl⟩ := hobj
      obtain ⟨hn, hhid⟩ := hpa _ rfl ps rfl
      refine ⟨fun _ _ => .inr ⟨ps, rfl⟩, fun _ k hk => ?_⟩
      simp only [mergedAt, Option.getD_some, applyPatch, fields]
      rw [find_mergeFields hn, hhid k hk]
      rfl
    · have hnil : fields ((mergedAt x (some p)).getD .null) = [] := by
        cases p with
        | obj ps => exact absurd ⟨ps, rfl⟩ hobj
        | _ => rfl
      have hne : ¬ ((some p : Option (Json ν)) = none ∨ ∃ ps, some p = some (.obj ps)) := by
        simpa using hobj
      rw [hnil]
      constructor
      · rintro h ⟨k, hk, hx⟩
        exact absurd (h k hk).symm hx
      · intro h k hk
        by_contra hx
        exact hne (h ⟨k, hk, fun h0 => hx h0.symm⟩)


omit [DecidableEq ν] in
theorem find_shownMeta_annotations (l : LiveObject ν) : find "annotations" (shownMeta l) =
    (find "annotations" (metaOf l.fields)).bind stripAnnotations := by
  have hid : "annotations" ∉ metaIdentityKeys := by decide
  have hstrip : "annotations" ∉ metaStripKeys := by decide
  rw [find_shownMeta, if_neg hid]
  cases find "annotations" (metaOf l.fields) <;> simp [stripServerMeta, hstrip]

omit [DecidableEq ν] in
/-- What is shown of the annotations has nothing hidden in it. -/
theorem find_stripAnnotations {v w : Json ν} (h : stripAnnotations v = some w) {k : String}
    (hk : k ∈ annotationStripKeys) : find k (fields w) = none := by
  cases v with
  | obj anns =>
    simp only [stripAnnotations] at h
    split_ifs at h
    cases h
    rw [fields, find_filter fun k => decide (k ∉ annotationStripKeys)]
    simp [hk]
  | _ =>
    cases h
    rfl

/-- The entry for the annotations in a metadata patch. -/
def annotationsPatch (l : LiveObject ν) (me : Fields ν) : Option (Json ν) :=
  find "annotations" (patchEntries (shownMeta l) me false)

theorem annotationsPatch_eq (l : LiveObject ν) {me : Fields ν} (hme : wellFormed (.obj me) = true) :
    annotationsPatch l me = match find "annotations" me with
      | some v => subPatch (shownMeta l) "annotations" v
      | none => if (find "annotations" (shownMeta l)).isSome then some .null else none := by
  have hproto : "annotations" ∉ objectPrototype := by decide
  rw [annotationsPatch, find_patchEntries _ (wellFormed_nodup hme)]
  cases hv : find "annotations" me with
  | none => simp [isIn_of_not_find hv, hproto]
  | some v => simp [isIn_of_find hv]

/-- The walk over two plain values finds nothing to say about the hidden annotations. -/
theorem walkMerge_plain {w v p : Json ν} (hw : Plain w) (hv : Plain v)
    (hp : (walkMerge w false v).1 = some p) : Plain p := by
  by_cases hs : same w v = true
  · simp [walkMerge_of_same false hs] at hp
  · have hs' : same w v = false := by simpa using hs
    by_cases hobj : (∀ fs, w ≠ .obj fs) ∨ ∀ gs, v ≠ .obj gs
    · rw [walkMerge_leaf false hs' hobj] at hp
      cases hp
      exact hv
    · push Not at hobj
      obtain ⟨⟨ws, rfl⟩, vs, rfl⟩ := hobj
      rw [walkMerge_obj false hs'] at hp
      split_ifs at hp
      cases hp
      obtain ⟨hwn, hwhid⟩ := hw ws rfl
      obtain ⟨hvn, hvhid⟩ := hv vs rfl
      rintro ps hps
      cases hps
      refine ⟨nodup_patchEntries hwn hvn false, fun k hk => ?_⟩
      rw [find_patchEntries _ hvn, hvhid k hk, hwhid k hk]
      rfl

theorem annotationsPatch_plain (l : LiveObject ν) {me : Fields ν}
    (hme : wellFormed (.obj me) = true)
    (hhid : ∀ k ∈ annotationStripKeys, find k (fields ((find "annotations" me).getD .null)) = none)
    (p : Json ν) (hp : annotationsPatch l me = some p) : Plain p := by
  rw [annotationsPatch_eq l hme] at hp
  cases hv : find "annotations" me with
  | none =>
    rw [hv] at hp
    simp only [Option.ite_none_right_eq_some, Option.some.injEq] at hp
    obtain ⟨-, rfl⟩ := hp
    intro ps hps
    cases hps
  | some v =>
    have hwf := wellFormed_find hme hv
    have hplain : Plain v := by
      rintro ps rfl
      exact ⟨wellFormed_nodup hwf, fun k hk => by simpa [hv, fields] using hhid k hk⟩
    simp only [hv, subPatch] at hp
    cases hw : find "annotations" (shownMeta l) with
    | none =>
      rw [hw] at hp
      cases hp
      exact hplain
    | some w =>
      simp only [hw] at hp
      rw [find_shownMeta_annotations, Option.bind_eq_some_iff] at hw
      obtain ⟨a, ha, hstrip⟩ := hw
      refine walkMerge_plain (fun ws hws => ?_) hplain hp
      subst hws
      have hwws : wellFormed (.obj ws) = true :=
        wellFormed_stripAnnotations (wellFormed_find (wellFormed_metaOf l.wellFormed) ha) hstrip
      exact ⟨wellFormed_nodup hwws, fun k hk => find_stripAnnotations hstrip hk⟩

/-- A hidden annotation is in reach of the patch unless the edit keeps an object there, or has
no annotations and none were shown. -/
theorem annotationsPatch_merges {l : LiveObject ν} (hh : hidesAnnotations l) {me : Fields ν}
    (hme : wellFormed (.obj me) = true) :
    (annotationsPatch l me = none ∨ ∃ ps, annotationsPatch l me = some (.obj ps)) ↔
    (∃ anns, find "annotations" me = some (.obj anns)) ∨
      find "annotations" me = none ∧ shownAnnotations l = [] := by
  obtain ⟨la, hla⟩ : ∃ la, find "annotations" (metaOf l.fields) = some (.obj la) := by
    obtain ⟨k, -, hne⟩ := hh
    cases hx : find "annotations" (metaOf l.fields) with
    | none => simp [annotationsOf, hx, fields] at hne
    | some x =>
      cases x with
      | obj la => exact ⟨la, rfl⟩
      | _ => simp [annotationsOf, hx, fields] at hne
  have hshown : find "annotations" (shownMeta l) =
      if (shownAnnotations l).isEmpty then none else some (.obj (shownAnnotations l)) := by
    rw [find_shownMeta_annotations, hla, shownAnnotations, annotationsOf, hla]
    rfl
  rw [annotationsPatch_eq l hme]
  cases hv : find "annotations" me with
  | none =>
    rw [hshown]
    by_cases hs : shownAnnotations l = [] <;> simp [hs]
  | some v =>
    simp only [subPatch, hshown]
    by_cases hobj : ∃ anns, v = .obj anns
    · obtain ⟨anns, rfl⟩ := hobj
      refine iff_of_true ?_ (.inl ⟨anns, rfl⟩)
      by_cases hs : (shownAnnotations l).isEmpty = true
      · simp [hs]
      · simpa [hs] using walkMerge_obj_result (shownAnnotations l) anns false
    · have hno : ∀ gs, v ≠ .obj gs := fun gs hgs => hobj ⟨gs, hgs⟩
      have hs' : same (.obj (shownAnnotations l)) v = false := by
        cases v with
        | obj gs => exact absurd rfl (hno gs)
        | _ => simp [same]
      by_cases hs : (shownAnnotations l).isEmpty = true
      · simp [hs, hno]
      · simp [hs, hno, walkMerge_leaf false hs' (.inr hno)]

omit [DecidableEq ν] in
/-- The metadata the walk sees on the edited side. -/
theorem edited_metadata {fe : Fields ν} (he : wellFormed (.obj fe) = true) :
    find "metadata" (edited fe) = (find "metadata" fe).bind stripIdentityMeta := by
  rw [find_edited fe he]
  cases find "metadata" fe <;> simp [stripIdentityEntry, identityKeys]

section Framed

variable {l : LiveObject ν} {e : Edit ν} {fe : Fields ν} (hdoc : e.doc = .obj fe)

include hdoc

/-- Metadata replaced or deleted takes every hidden field in it along. -/
theorem sameHidden_leaf {v : Json ν} (hv : ∀ ms, v ≠ .obj ms)
    (hm : find "metadata" (edited fe) = some v)
    (hstatus : find "status" (savedObject l fe) = find "status" l.fields) :
    SameHidden (savedObject l fe) l.fields ↔ ¬ hidesMeta l ∧ ¬ hidesAnnotations l := by
  have he : wellFormed (.obj fe) = true := hdoc ▸ e.wellFormed
  have hmeta : metaOf (savedObject l fe) = [] := metaOf_saved_leaf l he hv hm
  have hann : annotationsOf (savedObject l fe) = [] := by simp [annotationsOf, hmeta, fields]
  constructor
  · intro h
    refine ⟨fun ⟨k, hk, hne⟩ => hne ?_, fun ⟨k, hk, hne⟩ => hne ?_⟩
    · rw [← h.metadata k hk, hmeta]
      rfl
    · rw [← h.annotations k hk, hann]
      rfl
  · rintro ⟨hnm, hna⟩
    refine ⟨hstatus, fun k hk => ?_, fun k hk => ?_⟩
    · rw [hmeta]
      by_contra hne
      exact hnm ⟨k, hk, fun h0 => hne h0.symm⟩
    · rw [hann]
      by_contra hne
      exact hna ⟨k, hk, fun h0 => hne h0.symm⟩

/-- Metadata that stays an object loses at most the hidden annotations. -/
theorem sameHidden_obj {me : Fields ν} (hfe : find "metadata" fe = some (.obj me))
    (hm : find "metadata" (edited fe) =
      some (.obj (me.filter fun e => decide (e.1 ∉ metaIdentityKeys))))
    (hstatus : find "status" (savedObject l fe) = find "status" l.fields) :
    SameHidden (savedObject l fe) l.fields ↔ (hidesAnnotations l →
      (∃ anns, find "annotations" me = some (.obj anns)) ∨
        find "annotations" me = none ∧ shownAnnotations l = []) := by
  have he : wellFormed (.obj fe) = true := hdoc ▸ e.wellFormed
  have hmeta : metaOf fe = me := by simp [metaOf, hfe, fields]
  have hfields : Json.fields e.doc = fe := by rw [hdoc]; rfl
  generalize hme' : (me.filter fun e => decide (e.1 ∉ metaIdentityKeys)) = me' at hm
  have hwf : wellFormed (.obj me') = true := wellFormed_find (wellFormed_edited he) hm
  have hfilter : ∀ k, find k me' = if k ∈ metaIdentityKeys then none else find k me := by
    intro k
    rw [← hme', find_filter fun k => decide (k ∉ metaIdentityKeys)]
    by_cases hk : k ∈ metaIdentityKeys <;> simp [hk]
  have hann : find "annotations" me' = find "annotations" me := by
    rw [hfilter, if_neg (by decide)]
  have hserver : ∀ k ∈ metaStripKeys, find k me' = none := by
    intro k hk
    have hnone : find k me = none := by simpa [hfields, hmeta] using e.metadata k hk
    rw [hfilter, hnone, ite_self]
  have hhid : ∀ k ∈ annotationStripKeys,
      find k (fields ((find "annotations" me').getD .null)) = none := by
    intro k hk
    simpa [hfields, annotationsOf, hmeta, hann] using e.annotations k hk
  have hsaved : annotationsOf (savedObject l fe) =
      fields ((mergedAt (find "annotations" (metaOf l.fields)) (annotationsPatch l me')).getD .null) := by
    rw [annotationsOf, find_metaOf_saved l he hm]
    rfl
  have hkeep := annotations_merged (x := find "annotations" (metaOf l.fields))
    (annotationsPatch_plain l hwf hhid)
  have hiff : SameHidden (savedObject l fe) l.fields ↔ (hidesAnnotations l →
      annotationsPatch l me' = none ∨ ∃ ps, annotationsPatch l me' = some (.obj ps)) := by
    refine Iff.trans ⟨fun h => h.annotations, fun h => ⟨hstatus, fun k hk => ?_, h⟩⟩
      (hsaved ▸ hkeep)
    exact metadata_saved l he hm hk (hserver k hk)
  rw [hiff]
  refine imp_congr_right fun hh => ?_
  rw [annotationsPatch_merges hh hwf, hann]

theorem sameHidden_saved : SameHidden (savedObject l fe) l.fields ↔ KeepsContainers l e := by
  have he : wellFormed (.obj fe) = true := hdoc ▸ e.wellFormed
  have hstatus : find "status" (savedObject l fe) = find "status" l.fields :=
    status_saved l he (by simpa [hdoc, get?] using e.status)
  have hget : e.doc.get? "metadata" = find "metadata" fe := by rw [hdoc]; rfl
  have hkept : find "metadata" (edited fe) = none → SameHidden (savedObject l fe) l.fields := by
    intro hnone
    have hmeta := metaOf_saved_none l he hnone
    exact ⟨hstatus, by simp [hmeta], by simp [annotationsOf, hmeta]⟩
  have hedited := edited_metadata he
  rw [KeepsContainers, hget]
  cases hm : find "metadata" fe with
  | none =>
    rw [hm] at hedited
    exact iff_of_true (hkept hedited) trivial
  | some v =>
    rw [hm, Option.bind_some] at hedited
    cases v with
    | obj me =>
      by_cases hnil : (me.filter fun e => decide (e.1 ∉ metaIdentityKeys)) = []
      · have hann : find "annotations" me = none := by
          have hf := find_filter (fun k => decide (k ∉ metaIdentityKeys)) "annotations" me
          rw [hnil] at hf
          simpa [metaIdentityKeys] using hf.symm
        refine iff_of_true (hkept ?_) fun _ => .inr ⟨hann, .inr hnil⟩
        rw [hedited, stripIdentityMeta, hnil]
        rfl
      · have hobj : stripIdentityMeta (.obj me) =
            some (.obj (me.filter fun e => decide (e.1 ∉ metaIdentityKeys))) :=
          if_neg (by rw [List.isEmpty_iff]; exact hnil)
        rw [sameHidden_obj hdoc hm (hedited.trans hobj) hstatus]
        simp only [hnil, or_false]
    | _ => exact sameHidden_leaf hdoc (by simp) hedited hstatus

end Framed

/-- An object that was applied with `kubectl`, and two edits of it: one removes the block of
annotations, the other blanks the metadata. -/
def applied : LiveObject ℕ where
  fields := [("metadata", .obj [("name", .str "a"), ("uid", .str "u"), ("labels", .obj [("x", .str "1")]),
    ("annotations", .obj [("kubectl.kubernetes.io/last-applied-configuration", .str "cfg"),
      ("note", .str "2")])])]
  wellFormed := by decide
  protoFree := by decide

def withoutAnnotations : Edit ℕ where
  doc := .obj [("metadata", .obj [("name", .str "a"), ("labels", .obj [("x", .str "1")])])]
  wellFormed := by decide
  protoFree := by decide
  status := by decide
  metadata := by decide
  annotations := by decide

def blankMetadata : Edit ℕ where
  doc := .obj [("metadata", .null)]
  wellFormed := by decide
  protoFree := by decide
  status := by decide
  metadata := by decide
  annotations := by decide

end FerrisScope.YamlEdit
