import FerrisScope.JsonPointers
import FerrisScope.ListTraversals
import FerrisScope.MergePatch

/-!
# The operations on an application

A sync and a rollback are asked for by an entry of the application that its controller takes away when it begins.
The entry is built from the application as it was read, and is merged into it as a patch. A second kind of patch
turns the automatic sync on and off.
-/

namespace FerrisScope.GitOpsPatches
open HostsFile JsonPointers

variable {ν : Type}

/-- A value in which no object repeats a key. -/
structure Value (ν : Type) where
  json : Json ν
  wellFormed : json.wellFormed = true

structure SyncResource where
  group : String
  kind : String
  name : String
  namespace_ : Option String

structure SyncRequest (ν : Type) where
  revision : Option String
  revisions : Option (List String)
  prune : Bool
  dryRun : Bool
  force : Bool
  applyOnly : Bool
  syncOptions : List String
  resources : List SyncResource
  retry : Option (Value ν)

inductive OpError | blocked (message : String)

/-- The entry at a key, or null. -/
def index (v : Json ν) (k : String) : Json ν := (v.get? k).getD .null

def isString : Json ν → Bool
  | .str _ => true
  | _ => false

def isObject : Json ν → Bool
  | .obj _ => true
  | _ => false

def isNull : Json ν → Bool
  | .null => true
  | _ => false

def asBool : Json ν → Option Bool
  | .bool b => some b
  | _ => none

def asArray : Json ν → Option (List (Json ν))
  | .arr xs => some xs
  | _ => none

def text (v : Json ν) (path : Text) : Option String := (pointer v path).bind Json.asStr

def array (v : Json ν) (path : Text) : List (Json ν) := ((pointer v path).bind asArray).getD []

def autoSyncEnabled (spec : Json ν) : Bool :=
  (pointer spec "/syncPolicy/automated".toList).any fun a => isObject a && decide (asBool (index a "enabled") ≠ some false)

def operationBusy (d : Json ν) : Bool :=
  (d.get? "operation").any (fun o => !isNull o) ||
    (text d "/status/operationState/phase".toList).any fun phase => phase = "Running" || phase = "Terminating"

def strings (l : List String) : Json ν := .arr (l.map .str)

/-- Retry settings that are no object are left out. -/
def operationFields (sync : Json.Fields ν) (retry : Option (Json ν)) : Json.Fields ν :=
  let op : Json.Fields ν := [("initiatedBy", .obj [("username", .str "ferrisscope")]), ("sync", .obj sync)]
  match retry.filter isObject with
  | some r => Json.setKey "retry" r op
  | none => op

/-- The patch with the operation. -/
def operation (sync : Json.Fields ν) (retry : Option (Json ν)) : Json ν :=
  .obj [("operation", .obj (operationFields sync retry))]

def target (s : Json ν) : String := (((index s "targetRevision").asStr).filter fun r => r ≠ "").getD "HEAD"

def trimmed (r : String) : String := String.ofList (trim r.toList)

def nonEmpty (r : String) : Bool := trimmed r ≠ ""

def deletingMessage : String := "Application is being deleted."
def busyMessage : String := "A sync operation is already in progress."

def autoGuard (spec : Json ν) (dryRun : Bool) (requested target : String) : Except OpError Unit :=
  if autoSyncEnabled spec && !dryRun && requested ≠ target then
    .error (.blocked "Auto-sync is on, so a sync to another revision would be reverted. Disable auto-sync or use Dry run.")
  else .ok ()

/-- The revision for one of several sources. -/
def sourceRevision (spec : Json ν) (dryRun : Bool) (r : String) (s : Json ν) : Except OpError String :=
  if nonEmpty r then (autoGuard spec dryRun (trimmed r) (target s)).map fun _ => trimmed r else .ok (target s)

def revisions (spec : Json ν) (dryRun : Bool) (requested : Option (List String)) (sources : List (Json ν)) :
    Except OpError (List String) :=
  match requested with
  | some r =>
    if r.length ≠ sources.length then
      .error (.blocked ("Expected " ++ sources.length.repr ++ " revisions, one per source."))
    else (r.zip sources).mapM fun p => sourceRevision spec dryRun p.1 p.2
  | none => .ok (sources.map target)

/-- The revision or the revisions, under their key. -/
def syncTarget (spec : Json ν) (req : SyncRequest ν) : Except OpError (String × Json ν) :=
  let sources := array spec "/sources".toList
  if !sources.isEmpty then
    (revisions spec req.dryRun req.revisions sources).map fun rs => ("revisions", strings rs)
  else if isObject (index spec "source") then
    let default_ := target (index spec "source")
    let revision := ((req.revision.filter fun r => nonEmpty r).map trimmed).getD default_
    (autoGuard spec req.dryRun revision default_).map fun _ => ("revision", .str revision)
  else .error (.blocked "No source is configured.")

def resourceJson (r : SyncResource) : Json ν :=
  let v : Json.Fields ν := [("group", .str r.group), ("kind", .str r.kind), ("name", .str r.name)]
  .obj (match r.namespace_.filter fun n => n ≠ "" with
    | some n => Json.setKey "namespace" (.str n) v
    | none => v)

def setIf (c : Bool) (k : String) (v : Json ν) (fs : Json.Fields ν) : Json.Fields ν := if c then Json.setKey k v fs else fs

def strategy (req : SyncRequest ν) : Json ν :=
  if req.applyOnly then .obj [("apply", .obj [("force", .bool req.force)])] else .obj [("hook", .obj [("force", .bool true)])]

def syncFields (req : SyncRequest ν) (revision : String × Json ν) : Json.Fields ν :=
  let sync : Json.Fields ν := Json.setKey revision.1 revision.2 [("prune", .bool req.prune)]
  let sync := setIf req.dryRun "dryRun" (.bool true) sync
  let sync := setIf (req.applyOnly || req.force) "syncStrategy" (strategy req) sync
  let sync := setIf (!req.syncOptions.isEmpty) "syncOptions" (strings req.syncOptions) sync
  setIf (!req.resources.isEmpty) "resources" (.arr (req.resources.map resourceJson)) sync

def syncPatch (d : Json ν) (req : SyncRequest ν) : Except OpError (Json ν) :=
  if isString (index (index d "metadata") "deletionTimestamp") then .error (.blocked deletingMessage)
  else if operationBusy d then .error (.blocked busyMessage)
  else (syncTarget (index d "spec") req).map fun revision => operation (syncFields req revision) (req.retry.map Value.json)

/-- The entry of the history with an id, the first if there are several. -/
def historyEntry (asI64 : ν → Option ℤ) (d : Json ν) (id : ℤ) : Option (Json ν) :=
  (array d "/status/history".toList).find? fun h => match index h "id" with
    | .num n => asI64 n = some id
    | _ => false

def nonEmptyObject : Json ν → Bool
  | .obj (_ :: _) => true
  | _ => false

def nonEmptyArray : Json ν → Bool
  | .arr (_ :: _) => true
  | _ => false

/-- The sources of an entry if it has several, and else its source. -/
def rollbackSource (entry : Json ν) (sync : Json.Fields ν) : Json.Fields ν :=
  match (entry.get? "sources").filter nonEmptyArray, (entry.get? "source").filter nonEmptyObject with
  | some s, _ => Json.setKey "revisions" (index entry "revisions") (Json.setKey "sources" s sync)
  | none, some s => Json.setKey "revision" (index entry "revision") (Json.setKey "source" s sync)
  | none, none => sync

def rollbackStart (prune dryRun : Bool) : Json.Fields ν :=
  setIf dryRun "dryRun" (.bool true) [("prune", .bool prune), ("syncStrategy", .obj [("apply", .obj [])])]

def rollbackFields (d entry : Json ν) (prune dryRun : Bool) : Json.Fields ν :=
  let sync := rollbackSource entry (rollbackStart prune dryRun)
  match (pointer d "/spec/syncPolicy/syncOptions".toList).bind asArray with
  | some opts => Json.setKey "syncOptions" (.arr opts) sync
  | none => sync

def rollbackPatch (asI64 : ν → Option ℤ) (d : Json ν) (id : ℤ) (prune dryRun : Bool) : Except OpError (Json ν) :=
  if isString (index (index d "metadata") "deletionTimestamp") then .error (.blocked deletingMessage)
  else if autoSyncEnabled (index d "spec") then
    .error (.blocked "Disable auto-sync before rolling back; it would sync straight back to the target revision.")
  else if operationBusy d then .error (.blocked busyMessage)
  else
    match historyEntry asI64 d id with
    | none => .error (.blocked ("No deployment with id " ++ toString id ++ " in history."))
    | some entry =>
      if ((entry.get? "sources").filter nonEmptyArray).isNone && ((entry.get? "source").filter nonEmptyObject).isNone then
        .error (.blocked "This deployment predates source tracking; sync to its revision instead.")
      else .ok (operation (rollbackFields d entry prune dryRun) none)

def autoSyncPatch (enabled prune selfHeal : Bool) : Json ν :=
  let automated : Json ν :=
    if enabled then .obj [("prune", .bool prune), ("selfHeal", .bool selfHeal), ("enabled", .null)] else .null
  .obj [("spec", .obj [("syncPolicy", .obj [("automated", automated)])])]

/-! ## Reading the application -/

/-- The application is being deleted. -/
def Deleting (d : Json ν) : Prop := ∃ t, getPath d ["metadata", "deletionTimestamp"] = some (.str t)

/-- An operation is asked for already, or one is running. -/
def Busy (d : Json ν) : Prop :=
  (∃ o, d.get? "operation" = some o ∧ o ≠ .null) ∨
    ∃ phase, getPath d ["status", "operationState", "phase"] = some (.str phase) ∧ (phase = "Running" ∨ phase = "Terminating")

/-- The automatic sync is on. -/
def AutoSync (spec : Json ν) : Prop :=
  ∃ a, getPath spec ["syncPolicy", "automated"] = some (.obj a) ∧ Json.find "enabled" a ≠ some (.bool false)

theorem isString_iff {d : Json ν} : isString (index (index d "metadata") "deletionTimestamp") = true ↔ Deleting d := by
  have hindex : ∀ {j : Json ν} {k : String} {t : String}, index j k = .str t ↔ j.get? k = some (.str t) := by
    intro j k t
    unfold index
    cases j.get? k with
    | none => simp
    | some v => simp
  have hpath : ∀ t, getPath d ["metadata", "deletionTimestamp"] = some (.str t) ↔
      index (index d "metadata") "deletionTimestamp" = .str t := by
    intro t
    rw [hindex, getPath_cons, index]
    cases d.get? "metadata" with
    | none => exact iff_of_false (by simp) (by simp [Json.get?])
    | some m =>
      rw [Option.bind_some, Option.getD_some, getPath_cons]
      cases m.get? "deletionTimestamp" <;> rfl
  constructor
  · intro h
    cases hv : index (index d "metadata") "deletionTimestamp" with
    | str t => exact ⟨t, (hpath t).mpr hv⟩
    | _ =>
      rw [hv] at h
      cases h
  · rintro ⟨t, ht⟩
    rw [(hpath t).mp ht]
    rfl

theorem operationBusy_iff {d : Json ν} : operationBusy d = true ↔ Busy d := by
  have hphase : text d "/status/operationState/phase".toList =
      (getPath d ["status", "operationState", "phase"]).bind Json.asStr :=
    congrArg (fun v => v.bind Json.asStr) (pointer_eq_getPath (by decide) (by decide) d)
  unfold operationBusy Busy
  rw [hphase, Bool.or_eq_true]
  apply or_congr
  · cases d.get? "operation" with
    | none => simp
    | some o => cases o <;> simp [isNull]
  · cases getPath d ["status", "operationState", "phase"] with
    | none => simp
    | some v => cases v <;> simp [Json.asStr]

theorem autoSyncEnabled_iff {spec : Json ν} : autoSyncEnabled spec = true ↔ AutoSync spec := by
  have hautomated : pointer spec "/syncPolicy/automated".toList = getPath spec ["syncPolicy", "automated"] :=
    pointer_eq_getPath (by decide) (by decide) spec
  unfold autoSyncEnabled AutoSync
  rw [hautomated]
  cases getPath spec ["syncPolicy", "automated"] with
  | none => simp
  | some v =>
    cases v with
    | obj a =>
      have henabled : asBool (index (.obj a) "enabled") ≠ some false ↔ Json.find "enabled" a ≠ some (.bool false) := by
        change asBool ((Json.find "enabled" a).getD .null) ≠ some false ↔ _
        cases Json.find "enabled" a with
        | none => simp [asBool]
        | some w => cases w <;> simp [asBool]
      simp [isObject, henabled]
    | _ => simp [isObject]

/-! ## Revisions -/

/-- The revision that is asked for one source: the one that is given, without the blanks around it, or the target
revision of the source. -/
def revisionFor (r : String) (s : Json ν) : String := if nonEmpty r then trimmed r else target s

/-- The sources of an application that has several. -/
def sourcesOf (spec : Json ν) : List (Json ν) := ((spec.get? "sources").bind asArray).getD []

theorem array_sources (spec : Json ν) : array spec "/sources".toList = sourcesOf spec := by
  have hpointer : pointer spec "/sources".toList = getPath spec ["sources"] :=
    pointer_eq_getPath (by decide) (by decide) spec
  rw [array, hpointer, getPath_cons, sourcesOf]
  cases spec.get? "sources" <;> rfl

/-- The revisions that are asked for, source by source. -/
def requestedRevisions (requested : Option (List String)) (sources : List (Json ν)) : List String :=
  match requested with
  | some rs => (rs.zip sources).map fun p => revisionFor p.1 p.2
  | none => sources.map target

/-- The revisions that are asked for, or the one for the only source. -/
def requestedTarget (spec : Json ν) (req : SyncRequest ν) : String × Json ν :=
  if sourcesOf spec = [] then ("revision", .str (revisionFor (req.revision.getD "") (index spec "source")))
  else ("revisions", strings (requestedRevisions req.revisions (sourcesOf spec)))

/-- Every source at its target revision. -/
def targetRevisions (spec : Json ν) : String × Json ν :=
  if sourcesOf spec = [] then ("revision", .str (target (index spec "source")))
  else ("revisions", strings ((sourcesOf spec).map target))

theorem autoGuard_ok {spec : Json ν} {dryRun : Bool} {requested t : String}
    (h : autoGuard spec dryRun requested t = .ok ()) (hauto : AutoSync spec) (hdry : dryRun = false) : requested = t := by
  unfold autoGuard at h
  rw [autoSyncEnabled_iff.mpr hauto, hdry] at h
  by_contra hne
  simp [hne] at h

theorem sourceRevision_ok {spec : Json ν} {dryRun : Bool} {r y : String} {s : Json ν}
    (h : sourceRevision spec dryRun r s = .ok y) :
    y = revisionFor r s ∧ (AutoSync spec → dryRun = false → revisionFor r s = target s) := by
  unfold sourceRevision at h
  unfold revisionFor
  split at h
  · next hr =>
    cases hguard : autoGuard spec dryRun (trimmed r) (target s) with
    | error e =>
      rw [hguard] at h
      cases h
    | ok u =>
      rw [hguard] at h
      cases h
      rw [if_pos hr]
      exact ⟨rfl, autoGuard_ok hguard⟩
  · next hr =>
    cases h
    rw [if_neg hr]
    exact ⟨rfl, fun _ _ => rfl⟩

theorem revisions_ok {spec : Json ν} {dryRun : Bool} {requested : Option (List String)} {sources : List (Json ν)}
    {rs : List String} (h : revisions spec dryRun requested sources = .ok rs) :
    rs = requestedRevisions requested sources ∧ (AutoSync spec → dryRun = false → rs = sources.map target) := by
  unfold revisions at h
  cases requested with
  | none =>
    cases h
    exact ⟨rfl, fun _ _ => rfl⟩
  | some r =>
    simp only at h
    split at h
    · cases h
    · next hlength =>
      obtain ⟨hrs, hall⟩ := ListTraversals.mapM_eq_ok_map (fun p y hy => (sourceRevision_ok hy).1) h
      refine ⟨hrs, fun hauto hdry => ?_⟩
      have htargets : rs = (r.zip sources).map (target ∘ Prod.snd) := by
        rw [hrs]
        exact List.map_congr_left fun p hp => (sourceRevision_ok (hall p hp)).2 hauto hdry
      rw [htargets, ← List.map_map, List.map_snd_zip (Nat.le_of_eq (not_ne_iff.mp hlength).symm)]

theorem syncTarget_ok {spec : Json ν} {req : SyncRequest ν} {t : String × Json ν} (h : syncTarget spec req = .ok t) :
    t = requestedTarget spec req ∧ (AutoSync spec → req.dryRun = false → t = targetRevisions spec) := by
  simp only [syncTarget, array_sources] at h
  unfold requestedTarget targetRevisions
  by_cases hsources : sourcesOf spec = []
  · rw [if_pos hsources, if_pos hsources]
    rw [hsources] at h
    simp only [List.isEmpty_nil, Bool.not_true, Bool.false_eq_true, if_false] at h
    split at h
    · have hrevision : ((req.revision.filter fun r => nonEmpty r).map trimmed).getD (target (index spec "source")) =
          revisionFor (req.revision.getD "") (index spec "source") := by
        unfold revisionFor
        cases req.revision with
        | none => rfl
        | some r => by_cases hr : nonEmpty r = true <;> simp [Option.filter, hr]
      rw [hrevision] at h
      cases hguard : autoGuard spec req.dryRun (revisionFor (req.revision.getD "") (index spec "source"))
          (target (index spec "source")) with
      | error e =>
        rw [hguard] at h
        cases h
      | ok u =>
        rw [hguard] at h
        cases h
        refine ⟨rfl, fun hauto hdry => ?_⟩
        rw [autoGuard_ok hguard hauto hdry]
    · cases h
  · rw [if_neg hsources, if_neg hsources]
    have hnonempty : (!(sourcesOf spec).isEmpty) = true := by simp [hsources]
    rw [if_pos hnonempty] at h
    cases hrs : revisions spec req.dryRun req.revisions (sourcesOf spec) with
    | error e =>
      rw [hrs] at h
      cases h
    | ok rs =>
      rw [hrs] at h
      cases h
      obtain ⟨hrequested, htargets⟩ := revisions_ok hrs
      refine ⟨congrArg (fun l => ("revisions", strings l)) hrequested, fun hauto hdry => ?_⟩
      exact congrArg (fun l => ("revisions", strings l)) (htargets hauto hdry)

/-! ## Operations -/

theorem find_setIf (c : Bool) (k k₀ : String) (v : Json ν) (fs : Json.Fields ν) :
    Json.find k (setIf c k₀ v fs) = if k = k₀ ∧ c = true then some v else Json.find k fs := by
  unfold setIf
  cases c with
  | false => simp
  | true => simp [Json.find_setKey]

theorem wellFormed_setIf {c : Bool} {k : String} {v : Json ν} {fs : Json.Fields ν}
    (h : (Json.obj fs).wellFormed = true) (hv : v.wellFormed = true) : (Json.obj (setIf c k v fs)).wellFormed = true := by
  unfold setIf
  split
  · exact Json.wellFormed_setKey h k hv
  · exact h

theorem wellFormed_strings (l : List String) : (strings l : Json ν).wellFormed = true := by
  apply Json.wellFormed_arr
  intro x hx
  obtain ⟨s, -, rfl⟩ := List.mem_map.mp hx
  rfl

theorem wellFormed_resourceJson (r : SyncResource) : (resourceJson r : Json ν).wellFormed = true := by
  have hbase : (Json.obj [("group", .str r.group), ("kind", .str r.kind), ("name", .str r.name)] : Json ν).wellFormed =
      true := by simp [Json.wellFormed, Json.wellFormedFields]
  unfold resourceJson
  dsimp only
  split
  · exact Json.wellFormed_setKey hbase _ rfl
  · exact hbase

theorem wellFormed_operationFields {sync : Json.Fields ν} {retry : Option (Json ν)} (hsync : (Json.obj sync).wellFormed = true)
    (hretry : ∀ r ∈ retry, r.wellFormed = true) : (Json.obj (operationFields sync retry)).wellFormed = true := by
  have hbase : (Json.obj [("initiatedBy", .obj [("username", .str "ferrisscope")]), ("sync", .obj sync)] :
      Json ν).wellFormed = true := by
    simp [Json.wellFormed, Json.wellFormedFields] at hsync ⊢
    exact hsync
  unfold operationFields
  dsimp only
  split
  · next r hr => exact Json.wellFormed_setKey hbase _ (hretry r (Option.filter_eq_some_iff.mp hr).1)
  · exact hbase

theorem getPath_sync (sync : Json.Fields ν) (retry : Option (Json ν)) (k : String) :
    getPath (.obj (operationFields sync retry)) ["sync", k] = Json.find k sync := by
  have hsync : Json.find "sync" (operationFields sync retry) = some (.obj sync) := by
    unfold operationFields
    dsimp only
    split
    · rw [Json.find_setKey, if_neg (by decide)]
      rfl
    · rfl
  rw [getPath_cons]
  change (Json.find "sync" (operationFields sync retry)).bind _ = _
  rw [hsync, Option.bind_some, getPath_cons]
  change (Json.find k sync).bind _ = _
  cases Json.find k sync <;> rfl

theorem get?_retry (sync : Json.Fields ν) (retry : Option (Json ν)) :
    (Json.obj (operationFields sync retry)).get? "retry" = retry.filter isObject := by
  change Json.find "retry" (operationFields sync retry) = _
  unfold operationFields
  dsimp only
  split
  · next r hr => rw [Json.find_setKey, if_pos rfl, hr]
  · next hr =>
    rw [hr]
    rfl

/-- The operation is the sync that is asked for. -/
structure SyncRequested (spec : Json ν) (req : SyncRequest ν) (op : Json ν) : Prop where
  prune : getPath op ["sync", "prune"] = some (.bool req.prune)
  dryRun : getPath op ["sync", "dryRun"] = if req.dryRun then some (.bool true) else none
  strategy : getPath op ["sync", "syncStrategy"] =
    if req.applyOnly then some (.obj [("apply", .obj [("force", .bool req.force)])])
    else if req.force then some (.obj [("hook", .obj [("force", .bool true)])])
    else none
  options : getPath op ["sync", "syncOptions"] = if req.syncOptions = [] then none else some (strings req.syncOptions)
  resources : getPath op ["sync", "resources"] =
    if req.resources = [] then none else some (.arr (req.resources.map resourceJson))
  revision : getPath op ["sync", (requestedTarget spec req).1] = some (requestedTarget spec req).2
  nothing_else : ∀ k, getPath op ["sync", k] ≠ none →
    k ∈ ["prune", "dryRun", "syncStrategy", "syncOptions", "resources", (requestedTarget spec req).1]
  retry : op.get? "retry" = (req.retry.map Value.json).filter isObject

theorem requestedTarget_key (spec : Json ν) (req : SyncRequest ν) :
    (requestedTarget spec req).1 = "revision" ∨ (requestedTarget spec req).1 = "revisions" := by
  unfold requestedTarget
  split
  · exact .inl rfl
  · exact .inr rfl

theorem wellFormed_requestedTarget (spec : Json ν) (req : SyncRequest ν) :
    (requestedTarget spec req).2.wellFormed = true := by
  unfold requestedTarget
  split
  · rfl
  · exact wellFormed_strings _

theorem syncRequested (spec : Json ν) (req : SyncRequest ν) :
    SyncRequested spec req (.obj (operationFields (syncFields req (requestedTarget spec req)) (req.retry.map Value.json))) := by
  have hfind : ∀ k, Json.find k (syncFields req (requestedTarget spec req)) =
      if k = "resources" ∧ (!req.resources.isEmpty) = true then some (.arr (req.resources.map resourceJson))
      else if k = "syncOptions" ∧ (!req.syncOptions.isEmpty) = true then some (strings req.syncOptions)
      else if k = "syncStrategy" ∧ (req.applyOnly || req.force) = true then some (strategy req)
      else if k = "dryRun" ∧ req.dryRun = true then some (.bool true)
      else if k = (requestedTarget spec req).1 then some (requestedTarget spec req).2
      else if "prune" = k then some (.bool req.prune)
      else none := by
    intro k
    simp only [syncFields, find_setIf, Json.find_setKey, Json.find_cons, Json.find_nil]
  have hne : ∀ {k}, k ≠ "revision" → k ≠ "revisions" → k ≠ (requestedTarget spec req).1 := by
    intro k hone hmany
    rcases requestedTarget_key spec req with h | h
    · rw [h]
      exact hone
    · rw [h]
      exact hmany
  have hprune : "prune" ≠ (requestedTarget spec req).1 := hne (by decide) (by decide)
  have hdry : "dryRun" ≠ (requestedTarget spec req).1 := hne (by decide) (by decide)
  have hstrategy : "syncStrategy" ≠ (requestedTarget spec req).1 := hne (by decide) (by decide)
  have hoptions : "syncOptions" ≠ (requestedTarget spec req).1 := hne (by decide) (by decide)
  have hresources : "resources" ≠ (requestedTarget spec req).1 := hne (by decide) (by decide)
  constructor
  · simp [getPath_sync, hfind, hprune]
  · simp [getPath_sync, hfind, hdry]
  · simp only [getPath_sync, hfind, strategy]
    cases req.applyOnly <;> simp [hstrategy]
  · cases hlist : req.syncOptions <;> simp [getPath_sync, hfind, hoptions, hlist]
  · cases hlist : req.resources <;> simp [getPath_sync, hfind, hresources, hlist]
  · simp [getPath_sync, hfind, hdry.symm, hstrategy.symm, hoptions.symm, hresources.symm]
  · intro k hk
    rw [getPath_sync, hfind] at hk
    by_contra hmem
    simp only [List.mem_cons, List.not_mem_nil, or_false, not_or] at hmem
    obtain ⟨hp, hd, hs, ho, hr, ht⟩ := hmem
    simp [hd, hs, ho, hr, ht, Ne.symm hp] at hk
  · exact get?_retry _ _

/-- The entry of the history has the id. -/
def HasId (asI64 : ν → Option ℤ) (id : ℤ) (h : Json ν) : Prop := ∃ n, h.get? "id" = some (.num n) ∧ asI64 n = some id

/-- The operation goes back to the entry: to its sources if it has several, and else to its source. -/
def GoesBackTo (entry op : Json ν) : Prop :=
  (∃ s, s ≠ [] ∧ entry.get? "sources" = some (.arr s) ∧ getPath op ["sync", "sources"] = some (.arr s) ∧
    getPath op ["sync", "revisions"] = some (index entry "revisions")) ∨
  ∃ s, s ≠ [] ∧ entry.get? "source" = some (.obj s) ∧ getPath op ["sync", "source"] = some (.obj s) ∧
    getPath op ["sync", "revision"] = some (index entry "revision")

/-- The operation is the rollback that is asked for. -/
structure RollbackRequested (asI64 : ν → Option ℤ) (d : Json ν) (id : ℤ) (prune dryRun : Bool) (op : Json ν) : Prop where
  prune : getPath op ["sync", "prune"] = some (.bool prune)
  dryRun : getPath op ["sync", "dryRun"] = if dryRun then some (.bool true) else none
  strategy : getPath op ["sync", "syncStrategy"] = some (.obj [("apply", .obj [])])
  options : getPath op ["sync", "syncOptions"] =
    ((getPath d ["spec", "syncPolicy", "syncOptions"]).bind asArray).map .arr
  entry : ∃ before entry after, getPath d ["status", "history"] = some (.arr (before ++ entry :: after)) ∧
    HasId asI64 id entry ∧ (∀ h ∈ before, ¬ HasId asI64 id h) ∧ GoesBackTo entry op

theorem historyEntry_eq_some {asI64 : ν → Option ℤ} {d entry : Json ν} {id : ℤ} (h : historyEntry asI64 d id = some entry) :
    ∃ before after, getPath d ["status", "history"] = some (.arr (before ++ entry :: after)) ∧
      HasId asI64 id entry ∧ ∀ h ∈ before, ¬ HasId asI64 id h := by
  have hid : ∀ e : Json ν, (match index e "id" with
      | .num n => decide (asI64 n = some id)
      | _ => false) = true ↔ HasId asI64 id e := by
    intro e
    unfold index HasId
    cases e.get? "id" with
    | none => simp
    | some v => cases v <;> simp
  have hhistory : array d "/status/history".toList = ((getPath d ["status", "history"]).bind asArray).getD [] :=
    congrArg (fun v => (v.bind asArray).getD []) (pointer_eq_getPath (by decide) (by decide) d)
  unfold historyEntry at h
  rw [hhistory] at h
  obtain ⟨hentry, before, after, hlist, hbefore⟩ := List.find?_eq_some_iff_append.mp h
  refine ⟨before, after, ?_, (hid entry).mp hentry, fun e he hhas => ?_⟩
  · cases hpath : getPath d ["status", "history"] with
    | none =>
      rw [hpath] at hlist
      simp at hlist
    | some v =>
      rw [hpath] at hlist
      cases v with
      | arr xs => exact congrArg (fun l => some (Json.arr l)) hlist
      | _ => simp [asArray] at hlist
  · have hnot := hbefore e he
    rw [(hid e).mpr hhas] at hnot
    cases hnot

/-- The source of an entry, in the form it is read. -/
theorem filter_nonEmptyArray (v : Option (Json ν)) :
    v.filter nonEmptyArray = none ∨ ∃ s, s ≠ [] ∧ v = some (.arr s) ∧ v.filter nonEmptyArray = some (.arr s) := by
  cases v with
  | none => exact .inl rfl
  | some j =>
    cases j with
    | arr s =>
      cases s with
      | nil => exact .inl rfl
      | cons x s => exact .inr ⟨x :: s, List.cons_ne_nil _ _, rfl, rfl⟩
    | _ => exact .inl rfl

theorem filter_nonEmptyObject (v : Option (Json ν)) :
    v.filter nonEmptyObject = none ∨ ∃ s, s ≠ [] ∧ v = some (.obj s) ∧ v.filter nonEmptyObject = some (.obj s) := by
  cases v with
  | none => exact .inl rfl
  | some j =>
    cases j with
    | obj s =>
      cases s with
      | nil => exact .inl rfl
      | cons x s => exact .inr ⟨x :: s, List.cons_ne_nil _ _, rfl, rfl⟩
    | _ => exact .inl rfl

/-- The options of the application, after everything else. -/
theorem rollbackOptions (d : Json ν) :
    (pointer d "/spec/syncPolicy/syncOptions".toList).bind asArray =
      (getPath d ["spec", "syncPolicy", "syncOptions"]).bind asArray :=
  congrArg (fun v => v.bind asArray) (pointer_eq_getPath (by decide) (by decide) d)

theorem rollbackRequested {asI64 : ν → Option ℤ} {d entry : Json ν} {id : ℤ} (prune dryRun : Bool)
    (hentry : historyEntry asI64 d id = some entry)
    (hsome : (((entry.get? "sources").filter nonEmptyArray).isNone && ((entry.get? "source").filter nonEmptyObject).isNone) =
      false) :
    RollbackRequested asI64 d id prune dryRun (.obj (operationFields (rollbackFields d entry prune dryRun) none)) := by
  obtain ⟨before, after, hhistory, hid, hfirst⟩ := historyEntry_eq_some hentry
  have hfields : ∀ k, Json.find k (rollbackFields d entry prune dryRun) =
      if k = "syncOptions" ∧ ((getPath d ["spec", "syncPolicy", "syncOptions"]).bind asArray).isSome then
        ((getPath d ["spec", "syncPolicy", "syncOptions"]).bind asArray).map .arr
      else Json.find k (rollbackSource entry (rollbackStart prune dryRun)) := by
    intro k
    simp only [rollbackFields, rollbackOptions]
    cases (getPath d ["spec", "syncPolicy", "syncOptions"]).bind asArray with
    | none => simp
    | some opts => simp [Json.find_setKey]
  have hstart : ∀ k, Json.find k (rollbackStart prune dryRun : Json.Fields ν) =
      if k = "dryRun" ∧ dryRun = true then some (.bool true)
      else if "prune" = k then some (.bool prune)
      else if "syncStrategy" = k then some (.obj [("apply", .obj [])])
      else none := by
    intro k
    rw [rollbackStart, find_setIf, Json.find_cons, Json.find_cons, Json.find_nil]
  -- Which keys the source of the entry takes, and what it leaves.
  have hsource : (∀ k, k ∉ ["sources", "revisions", "source", "revision"] →
        Json.find k (rollbackSource entry (rollbackStart prune dryRun)) = Json.find k (rollbackStart prune dryRun)) ∧
      GoesBackTo entry (.obj (operationFields (rollbackFields d entry prune dryRun) none)) := by
    unfold GoesBackTo
    simp only [getPath_sync, hfields]
    rcases filter_nonEmptyArray (entry.get? "sources") with hnone | ⟨s, hs, hget, hfilter⟩
    · rcases filter_nonEmptyObject (entry.get? "source") with hnone' | ⟨s, hs, hget, hfilter⟩
      · rw [hnone, hnone'] at hsome
        cases hsome
      · simp only [rollbackSource, hnone, hfilter]
        refine ⟨fun k hk => ?_, .inr ⟨s, hs, hget, ?_, ?_⟩⟩
        · simp only [List.mem_cons, List.not_mem_nil, or_false, not_or] at hk
          simp [Json.find_setKey, hk]
        · simp [Json.find_setKey]
        · simp [Json.find_setKey]
    · simp only [rollbackSource, hfilter]
      refine ⟨fun k hk => ?_, .inl ⟨s, hs, hget, ?_, ?_⟩⟩
      · simp only [List.mem_cons, List.not_mem_nil, or_false, not_or] at hk
        simp [Json.find_setKey, hk]
      · simp [Json.find_setKey]
      · simp [Json.find_setKey]
  obtain ⟨hkeys, hback⟩ := hsource
  constructor
  · simp [getPath_sync, hfields, hkeys, hstart]
  · simp [getPath_sync, hfields, hkeys, hstart]
  · simp [getPath_sync, hfields, hkeys, hstart]
  · rw [getPath_sync, hfields, hkeys _ (by decide), hstart]
    cases (getPath d ["spec", "syncPolicy", "syncOptions"]).bind asArray <;> simp
  · exact ⟨before, entry, after, hhistory, hid, hfirst, hback⟩

/-! ## Well-formed operations -/

theorem wellFormed_index {v : Json ν} (h : v.wellFormed = true) (k : String) : (index v k).wellFormed = true := by
  unfold index
  cases hk : v.get? k with
  | none => rfl
  | some j =>
    have hpath : getPath v [k] = some j := by
      rw [getPath_cons, hk]
      rfl
    exact wellFormed_getPath h hpath

theorem wellFormed_syncFields (spec : Json ν) (req : SyncRequest ν) :
    (Json.obj (syncFields req (requestedTarget spec req))).wellFormed = true := by
  have hprune : (Json.obj [("prune", .bool req.prune)] : Json ν).wellFormed = true := by
    simp [Json.wellFormed, Json.wellFormedFields]
  have hstrategy : (strategy req : Json ν).wellFormed = true := by
    unfold strategy
    split <;> simp [Json.wellFormed, Json.wellFormedFields]
  have hresources : (Json.arr (req.resources.map resourceJson) : Json ν).wellFormed = true := by
    apply Json.wellFormed_arr
    intro x hx
    obtain ⟨r, -, rfl⟩ := List.mem_map.mp hx
    exact wellFormed_resourceJson r
  unfold syncFields
  apply wellFormed_setIf _ hresources
  apply wellFormed_setIf _ (wellFormed_strings _)
  apply wellFormed_setIf _ hstrategy
  apply wellFormed_setIf _ rfl
  exact Json.wellFormed_setKey hprune _ (wellFormed_requestedTarget spec req)

theorem wellFormed_rollbackSource {entry : Json ν} {sync : Json.Fields ν} (hentry : entry.wellFormed = true)
    (hsync : (Json.obj sync).wellFormed = true) : (Json.obj (rollbackSource entry sync)).wellFormed = true := by
  have hpart : ∀ {k : String} {p : Json ν → Bool} {s : Json ν}, (entry.get? k).filter p = some s → s.wellFormed = true := by
    intro k p s hs
    have hget : index entry k = s := by rw [index, (Option.filter_eq_some_iff.mp hs).1, Option.getD_some]
    exact hget ▸ wellFormed_index hentry k
  unfold rollbackSource
  split
  · next s o hs =>
    exact Json.wellFormed_setKey (Json.wellFormed_setKey hsync _ (hpart hs)) _ (wellFormed_index hentry _)
  · next s hnone hs =>
    exact Json.wellFormed_setKey (Json.wellFormed_setKey hsync _ (hpart hs)) _ (wellFormed_index hentry _)
  · exact hsync

theorem wellFormed_rollbackFields {d entry : Json ν} (prune dryRun : Bool) (hd : d.wellFormed = true)
    (hentry : entry.wellFormed = true) : (Json.obj (rollbackFields d entry prune dryRun)).wellFormed = true := by
  have hstart : (Json.obj (rollbackStart prune dryRun) : Json ν).wellFormed = true := by
    apply wellFormed_setIf _ rfl
    simp [Json.wellFormed, Json.wellFormedFields]
  have hsource := wellFormed_rollbackSource hentry hstart
  unfold rollbackFields
  dsimp only
  rw [rollbackOptions]
  split
  · next opts hopts =>
    obtain ⟨v, hv, harr⟩ := Option.bind_eq_some_iff.mp hopts
    have hoptions : (Json.arr opts).wellFormed = true := by
      cases v with
      | arr xs =>
        cases harr
        exact wellFormed_getPath hd hv
      | _ => cases harr
    exact Json.wellFormed_setKey hsource _ hoptions
  · exact hsource

theorem wellFormed_historyEntry {asI64 : ν → Option ℤ} {d entry : Json ν} {id : ℤ} (hd : d.wellFormed = true)
    (h : historyEntry asI64 d id = some entry) : entry.wellFormed = true := by
  obtain ⟨before, after, hhistory, -, -⟩ := historyEntry_eq_some h
  have harr : (Json.arr (before ++ entry :: after)).wellFormed = true := wellFormed_getPath hd hhistory
  exact Json.wellFormed_elem harr (List.mem_append_right before List.mem_cons_self)

/-! ## Patches -/

theorem syncPatch_ok {d patch : Json ν} {req : SyncRequest ν} (h : syncPatch d req = .ok patch) :
    ¬ Deleting d ∧ ¬ Busy d ∧
      patch = operation (syncFields req (requestedTarget (index d "spec") req)) (req.retry.map Value.json) ∧
      (AutoSync (index d "spec") → req.dryRun = false →
        requestedTarget (index d "spec") req = targetRevisions (index d "spec")) := by
  unfold syncPatch at h
  split at h
  · cases h
  · next hdeleting =>
    split at h
    · cases h
    · next hbusy =>
      cases ht : syncTarget (index d "spec") req with
      | error e =>
        rw [ht] at h
        cases h
      | ok t =>
        rw [ht] at h
        cases h
        obtain ⟨rfl, htargets⟩ := syncTarget_ok ht
        exact ⟨isString_iff.not.mp hdeleting, operationBusy_iff.not.mp hbusy, rfl, htargets⟩

theorem syncPatch_refused {d : Json ν} (h : Deleting d ∨ Busy d) (req : SyncRequest ν) :
    ∃ m, syncPatch d req = .error (.blocked m) := by
  unfold syncPatch
  by_cases hdeleting : Deleting d
  · exact ⟨_, if_pos (isString_iff.mpr hdeleting)⟩
  · refine ⟨busyMessage, ?_⟩
    rw [if_neg (isString_iff.not.mpr hdeleting), if_pos (operationBusy_iff.mpr (h.resolve_left hdeleting))]

theorem rollbackPatch_ok {asI64 : ν → Option ℤ} {d patch : Json ν} {id : ℤ} {prune dryRun : Bool}
    (h : rollbackPatch asI64 d id prune dryRun = .ok patch) :
    ¬ Deleting d ∧ ¬ Busy d ∧ ∃ entry, historyEntry asI64 d id = some entry ∧
      (((entry.get? "sources").filter nonEmptyArray).isNone && ((entry.get? "source").filter nonEmptyObject).isNone) =
        false ∧
      patch = operation (rollbackFields d entry prune dryRun) none := by
  unfold rollbackPatch at h
  split at h
  · cases h
  · next hdeleting =>
    split at h
    · cases h
    · split at h
      · cases h
      · next hbusy =>
        split at h
        · cases h
        · next entry hentry =>
          split at h
          · cases h
          · next hsource =>
            cases h
            exact ⟨isString_iff.not.mp hdeleting, operationBusy_iff.not.mp hbusy, entry, hentry,
              Bool.eq_false_iff.mpr hsource, rfl⟩

theorem rollbackPatch_refused {d : Json ν} (h : Deleting d ∨ Busy d) (asI64 : ν → Option ℤ) (id : ℤ) (prune dryRun : Bool) :
    ∃ m, rollbackPatch asI64 d id prune dryRun = .error (.blocked m) := by
  unfold rollbackPatch
  by_cases hdeleting : Deleting d
  · exact ⟨_, if_pos (isString_iff.mpr hdeleting)⟩
  · rw [if_neg (isString_iff.not.mpr hdeleting), if_pos (operationBusy_iff.mpr (h.resolve_left hdeleting))]
    split
    · exact ⟨_, rfl⟩
    · exact ⟨_, rfl⟩

/-- Where an application says that it is synced automatically. -/
def automated : List String := ["spec", "syncPolicy", "automated"]

theorem autoSyncPatch_eq (e prune selfHeal : Bool) : (autoSyncPatch e prune selfHeal : Json ν) =
    patchAt automated (if e then .obj [("prune", .bool prune), ("selfHeal", .bool selfHeal), ("enabled", .null)] else .null) := rfl

theorem autoSync_merged {d : Json ν} (e prune selfHeal : Bool) :
    AutoSync (index (d.applyPatch (autoSyncPatch e prune selfHeal)) "spec") ↔ e = true := by
  have hplace : getPath (index (d.applyPatch (autoSyncPatch e prune selfHeal)) "spec") ["syncPolicy", "automated"] =
      Json.mergedAt (getPath d automated)
        (some (if e then .obj [("prune", .bool prune), ("selfHeal", .bool selfHeal), ("enabled", .null)] else .null)) := by
    rw [index, getPath_getD_null, ← getPath_cons, autoSyncPatch_eq]
    exact getPath_patchAt d "spec" ["syncPolicy", "automated"] _
  unfold AutoSync
  rw [hplace]
  cases e with
  | false => simp [Json.mergedAt]
  | true =>
    rw [if_pos rfl, Json.mergedAt_of_ne (by simp), Json.applyPatch]
    refine iff_of_true ⟨_, rfl, ?_⟩ rfl
    rw [Json.find_mergeFields (by simp)]
    simp [Json.find_cons, Json.mergedAt]

section
variable [DecidableEq ν]

/-- The patched application differs from the application in the operation only, which is the given one up to null
members. -/
structure OnlyOperation (d merged op : Json ν) : Prop where
  others : ∀ k, k ≠ "operation" → merged.get? k = d.get? k
  operation : ∃ v, merged.get? "operation" = some v ∧ v.agrees op = true

theorem onlyOperation {d : Json ν} {fs : Json.Fields ν} (hwell : (Json.obj fs).wellFormed = true) (hfree : ¬ Busy d) :
    OnlyOperation d (d.applyPatch (.obj [("operation", .obj fs)])) (.obj fs) := by
  have hnodup : ([("operation", Json.obj fs)].map Prod.fst).Nodup := List.nodup_singleton _
  constructor
  · intro k hk
    rw [Json.get?_applyPatch hnodup, Json.find_cons, if_neg (Ne.symm hk)]
    rfl
  · have hfresh : Json.fields ((d.get? "operation").getD .null) = [] := by
      cases ho : d.get? "operation" with
      | none => rfl
      | some o =>
        by_contra hne
        apply hfree
        refine .inl ⟨o, ho, ?_⟩
        rintro rfl
        exact hne rfl
    refine ⟨_, ?_, Json.agrees_applyPatch_fresh hfresh hwell⟩
    rw [Json.get?_applyPatch hnodup, Json.find_cons, if_pos rfl, Json.mergedAt_of_ne (by simp)]

end

end FerrisScope.GitOpsPatches
