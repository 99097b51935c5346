import FerrisScope.DirtyChannel
import FerrisScope.JsonValue

/-!
# The typed watcher task

A projected row is built once, with its uid and labels injected, and cached in its encoded
form. The encoding is kept here as the tree it encodes: encoded rows are equal exactly when
their trees are. The task handles one event of the kube stream or the preview list at a
time. It changes the cache under the cache lock and then issues its calls on the dirty
channel; `handleEvent` returns the calls, in order, so that drains and snapshots can be
placed between them.
-/

namespace FerrisScope
open KeyedWrites

variable {ν : Type}

structure RowJson (ν : Type) where
  value : Json ν
  deriving DecidableEq

inductive SerdeError where
  | message (text : String)

/-- Encoding a value. Every value encodes: its keys are strings and its numbers finite. -/
def RowJson.fromValue (v : Json ν) : Except SerdeError (RowJson ν) := .ok ⟨v⟩

/-- The `uid` field a consumer reads off a row. -/
def RowJson.uid (r : RowJson ν) : Uid := ((r.value.get? "uid").bind Json.asStr).getD ""

structure Row (ν : Type) where
  json : RowJson ν
  ns : Option String
  name : Option String
  labels : String

def withUid (uid : Uid) : Json ν → Json ν
  | .obj map => .obj (Json.mapInsert "uid" (.str uid) map)
  | other => .obj [("uid", .str uid), ("value", other)]

def withLabels (row : Json ν) (labels : Option (List (String × String))) : Json ν :=
  match labels, row with
  | some (l :: ls), .obj map =>
      .obj (Json.mapInsert "__labels" (.obj ((l :: ls).map fun e => (e.1, .str e.2))) map)
  | _, row => row

def labelTerms (labels : List (String × String)) : String :=
  labels.foldl (fun out e => (if out.isEmpty then out else out ++ " ") ++ e.1 ++ "=" ++ e.2) ""

def Row.build (uid : Uid) (projected : Json ν) (labels : Option (List (String × String))) :
    Except SerdeError (Row ν) := do
  let terms := labelTerms (labels.getD [])
  let v := withLabels (withUid uid projected) labels
  let field (key : String) : Option String :=
    ((v.get? key).bind Json.asStr).filter fun s => !s.isEmpty
  let json ← RowJson.fromValue v
  return { json := json, ns := field "namespace", name := field "name", labels := terms }

theorem uid_withUid (uid : Uid) (v : Json ν) : (withUid uid v).get? "uid" = some (.str uid) := by
  cases v <;> simp [withUid, Json.get?, Json.find]

theorem uid_withLabels (row : Json ν) (labels : Option (List (String × String))) :
    (withLabels row labels).get? "uid" = row.get? "uid" := by
  unfold withLabels
  split
  · exact Json.find_mapInsert_of_ne (by decide) _ _
  · rfl

theorem Row.build_eq_ok (uid : Uid) (v : Json ν) (labels : Option (List (String × String))) :
    ∃ row, Row.build uid v labels = .ok row ∧
      row.json = ⟨withLabels (withUid uid v) labels⟩ :=
  ⟨_, rfl, rfl⟩

/-- A built row carries the uid it was built for. -/
theorem Row.build_uid {uid : Uid} {v : Json ν} {labels : Option (List (String × String))}
    {row : Row ν} (h : Row.build uid v labels = .ok row) : row.json.uid = uid := by
  obtain ⟨row', h', hj⟩ := Row.build_eq_ok uid v labels
  cases h.symm.trans h'
  simp [RowJson.uid, hj, uid_withLabels, uid_withUid, Json.asStr]

/-- A kind: how its objects are identified, labelled and projected. -/
structure KindSpec (Obj ν : Type) where
  uid : Obj → Option Uid
  labels : Obj → List (String × String)
  project : Obj → Json ν

inductive WatchEvent (Obj : Type) where
  | init
  | initApply (obj : Obj)
  | initDone
  | apply (obj : Obj)
  | delete (obj : Obj)
  | err

/-- A call the task makes on the dirty channel. -/
inductive ChannelCall (ν : Type) where
  | write (w : Write Uid (Row ν))
  | markInitDone

def ChannelCall.perform (s : DirtyState (Row ν)) : ChannelCall ν → DirtyState (Row ν)
  | .write w => DirtyChannel.record s w
  | .markInitDone => DirtyChannel.markInitDone s

/-- The task's state; `preview` says that the preview list is still awaited. -/
structure WatcherTask (ν : Type) where
  cache : Table Uid (RowJson ν)
  initSeen : Option (Finset Uid)
  initDone : Bool
  preview : Bool

namespace WatcherTask

variable {Obj : Type} [DecidableEq ν]

def start : WatcherTask ν := ⟨∅, none, false, true⟩

/-- The rows of the preview list: objects with a uid whose row could be built. -/
def previewRows (K : KindSpec Obj ν) (objs : List Obj) : List (Uid × Row ν) :=
  objs.filterMap fun obj => (K.uid obj).bind fun uid =>
    match Row.build uid (K.project obj) (some (K.labels obj)) with
    | .ok row => some (uid, row)
    | .error _ => none

/-- The body of the preview loop: a row the cache does not have yet. -/
def seedRow (acc : WatcherTask ν × List (ChannelCall ν)) (e : Uid × Row ν) :
    WatcherTask ν × List (ChannelCall ν) :=
  if e.1 ∈ acc.1.cache then acc
  else ({ acc.1 with cache := acc.1.cache.insert e.1 e.2.json },
    acc.2 ++ [.write (.put e.1 e.2)])

/-- `apply_preview`: fill the gaps of the cache, unless the initial list is complete. -/
def applyPreview (t : WatcherTask ν) (rows : List (Uid × Row ν)) :
    WatcherTask ν × List (ChannelCall ν) :=
  if t.initDone then (t, []) else rows.foldl seedRow (t, [])

/-- `reconcile_init_seen`, with the iteration order of the cache: the uids it drops. -/
def reconcileInitSeen (t : WatcherTask ν) (iter : List Uid) : WatcherTask ν × List Uid :=
  match t.initSeen with
  | none => (t, [])
  | some seen =>
      let stale := iter.filter fun uid => uid ∉ seen
      ({ t with initSeen := none, cache := stale.foldl (fun c uid => c.erase uid) t.cache }, stale)

/-- The `Apply` and `InitApply` arms and the code after the match. -/
def applyObject (K : KindSpec Obj ν) (t : WatcherTask ν) (obj : Obj) (isInitApply : Bool) :
    WatcherTask ν × List (ChannelCall ν) :=
  match K.uid obj with
  | none => (t, [])
  | some uid =>
      let t := { t with
        preview := false
        initSeen := if isInitApply then t.initSeen.map (insert uid) else t.initSeen }
      match Row.build uid (K.project obj) (some (K.labels obj)) with
      | .error _ => (t, [])
      | .ok row =>
          if t.cache.lookup uid = some row.json then (t, [])
          else ({ t with cache := t.cache.insert uid row.json }, [.write (.put uid row)])

/-- One event of the stream; `iter` is the iteration order of the cache at `InitDone`. -/
def handleEvent (K : KindSpec Obj ν) (t : WatcherTask ν) (iter : List Uid) :
    WatchEvent Obj → WatcherTask ν × List (ChannelCall ν)
  | .apply obj => applyObject K t obj false
  | .initApply obj => applyObject K t obj true
  | .delete obj => match K.uid obj with
      | none => (t, [])
      | some uid => ({ t with cache := t.cache.erase uid }, [.write (.del uid)])
  | .init => ({ t with initSeen := some ∅ }, [])
  | .initDone =>
      let r := reconcileInitSeen { t with preview := false, initDone := true } iter
      (r.1, r.2.map (fun uid => .write (.del uid)) ++ [.markInitDone])
  | .err => (t, [])

/-- What the select of the task can deliver. -/
inductive Input (Obj : Type) where
  | event (e : WatchEvent Obj) (iter : List Uid)
  | preview (objs : List Obj)

def step (K : KindSpec Obj ν) (t : WatcherTask ν) :
    Input Obj → Option (WatcherTask ν × List (ChannelCall ν))
  | .event .initDone iter =>
      if Enumerates iter t.cache.keys then some (handleEvent K t iter .initDone) else none
  | .event e _ => some (handleEvent K t [] e)
  | .preview objs =>
      if t.preview then some (applyPreview { t with preview := false } (previewRows K objs))
      else none

/-- The encoded row the task projects from an object. -/
def rowFor (K : KindSpec Obj ν) (obj : Obj) (uid : Uid) : RowJson ν :=
  ⟨withLabels (withUid uid (K.project obj)) (some (K.labels obj))⟩

omit [DecidableEq ν] in
theorem rowFor_uid (K : KindSpec Obj ν) (obj : Obj) (uid : Uid) : (rowFor K obj uid).uid = uid := by
  simp [RowJson.uid, rowFor, uid_withLabels, uid_withUid, Json.asStr]

theorem applyObject_none {K : KindSpec Obj ν} {obj : Obj} (h : K.uid obj = none)
    (t : WatcherTask ν) (isInitApply : Bool) : applyObject K t obj isInitApply = (t, []) := by
  simp [applyObject, h]

/-- With a uid, the arm leaves the projected row in the cache, whether or not it was
suppressed, and issues the upsert unless the cached row is the same. -/
theorem applyObject_some {K : KindSpec Obj ν} {obj : Obj} {uid : Uid} (h : K.uid obj = some uid)
    (t : WatcherTask ν) (isInitApply : Bool) :
    ∃ row : Row ν, row.json = rowFor K obj uid ∧ applyObject K t obj isInitApply =
      ({ cache := t.cache.insert uid (rowFor K obj uid)
         initSeen := if isInitApply then t.initSeen.map (insert uid) else t.initSeen
         initDone := t.initDone
         preview := false },
        if t.cache.lookup uid = some (rowFor K obj uid) then [] else [.write (.put uid row)]) := by
  obtain ⟨row, hb, hj⟩ := Row.build_eq_ok uid (K.project obj) (some (K.labels obj))
  refine ⟨row, hj, ?_⟩
  have hrow : row.json = rowFor K obj uid := hj
  by_cases hsame : t.cache.lookup uid = some (rowFor K obj uid)
  · have hins : t.cache.insert uid (rowFor K obj uid) = t.cache := by
      apply table_ext
      funext u
      by_cases hu : u = uid
      · subst hu
        rw [Finmap.lookup_insert, hsame]
      · rw [Finmap.lookup_insert_of_ne _ hu]
    simp [applyObject, h, hb, hrow, hsame, hins]
  · simp [applyObject, h, hb, hrow, hsame]

omit [DecidableEq ν] in
private theorem foldl_seedRow_frame (rows : List (Uid × Row ν))
    (acc : WatcherTask ν × List (ChannelCall ν)) :
    (rows.foldl seedRow acc).1 = { acc.1 with cache := (rows.foldl seedRow acc).1.cache } := by
  induction rows generalizing acc with
  | nil => rfl
  | cons e rows ih =>
    rw [List.foldl_cons, ih]
    unfold seedRow
    split_ifs <;> rfl

omit [DecidableEq ν] in
/-- The preview writes to the cache only. -/
theorem applyPreview_frame (t : WatcherTask ν) (rows : List (Uid × Row ν)) :
    (applyPreview t rows).1 = { t with cache := (applyPreview t rows).1.cache } := by
  unfold applyPreview
  split_ifs
  · rfl
  · exact foldl_seedRow_frame rows (t, [])

omit [DecidableEq ν] in
theorem mem_previewRows {K : KindSpec Obj ν} {objs : List Obj} {uid : Uid} {row : Row ν}
    (h : (uid, row) ∈ previewRows K objs) : row.json.uid = uid := by
  simp only [previewRows, List.mem_filterMap, Option.bind_eq_some_iff] at h
  obtain ⟨obj, -, u, -, hr⟩ := h
  obtain ⟨row', hb, hj⟩ := Row.build_eq_ok u (K.project obj) (some (K.labels obj))
  simp only [hb, Option.some.injEq, Prod.mk.injEq] at hr
  obtain ⟨rfl, rfl⟩ := hr
  exact Row.build_uid hb

/-- Objects named by their uid, projected to one number. -/
def sampleKind : KindSpec (String × ℕ) ℕ where
  uid obj := some obj.1
  labels _ := []
  project obj := .obj [("phase", .num obj.2)]

end WatcherTask
end FerrisScope
