import FerrisScope.WatcherConvergence

/-!
# Snapshot and deltas at the table

The table's subscribe effect keeps one map of rows under scoped ids. Delta batches arrive on an
event channel, the snapshot on the reply of the subscribe command, and the reply may come
between any two batches. Handling the reply puts the snapshot under the rows already in the
map. The map keeps no trace of a deletion, so a deletion handled before the reply is undone by
it unless a later batch speaks of the row again.
-/

namespace FerrisScope
open KeyedWrites LabelledRuns DirtyChannel

variable {ν : Type}

namespace ScopedTable

structure ScopedRow (ν : Type) where
  row : RowJson ν
  clusterId : String
  sid : String
  deriving DecidableEq

def scopedUid (clusterId : String) (uid : Uid) : String := clusterId ++ "::" ++ uid

def scopeRow (clusterId : String) (row : RowJson ν) : ScopedRow ν :=
  ⟨row, clusterId, scopedUid clusterId row.uid⟩

def applyScopedDelta (clusterId : String) (map : Table String (ScopedRow ν)) :
    ResourceDelta ν → Table String (ScopedRow ν)
  | .upsert row => map.insert (scopeRow clusterId row).sid (scopeRow clusterId row)
  | .delete uid => map.erase (scopedUid clusterId uid)
  | .initDone => map

def setScoped (clusterId : String) (merged : Table String (ScopedRow ν)) (row : RowJson ν) :
    Table String (ScopedRow ν) :=
  merged.insert (scopeRow clusterId row).sid (scopeRow clusterId row)

/-- The rows of `existing` are set last and win. -/
def mergeScopedSnapshots (results : List (String × List (RowJson ν)))
    (existing : Table String (ScopedRow ν)) : Table String (ScopedRow ν) :=
  existing ∪ results.foldl (fun merged result => result.2.foldl (setScoped result.1) merged) ∅

/-- What reaches the effect of one subscription. -/
inductive Arrival (ν : Type) where
  | batch (deltas : List (ResourceDelta ν))
  | reply (rows : List (RowJson ν))

/-- `onDelta` on each delta of a batch, and the code after the subscribe call. -/
def handle (clusterId : String) (localMap : Table String (ScopedRow ν)) :
    Arrival ν → Table String (ScopedRow ν)
  | .batch deltas => deltas.foldl (applyScopedDelta clusterId) localMap
  | .reply rows => mergeScopedSnapshots [(clusterId, rows)] localMap

/-- The batches with the reply somewhere among them. -/
def arrivals (early : List (List (ResourceDelta ν))) (rows : List (RowJson ν))
    (late : List (List (ResourceDelta ν))) : List (Arrival ν) :=
  early.map .batch ++ .reply rows :: late.map .batch

/-- The map holds exactly the given rows, each scoped to the cluster. -/
structure Shows (clusterId : String) (m : Table String (ScopedRow ν))
    (rows : Uid → Option (RowJson ν)) : Prop where
  lookup : ∀ uid, m.lookup (scopedUid clusterId uid) = (rows uid).map (scopeRow clusterId)
  ofCluster : ∀ sid row, m.lookup sid = some row → ∃ uid, sid = scopedUid clusterId uid

/-- The writes of a list of batches. -/
def batchWrites (batches : List (List (ResourceDelta ν))) : List (Write Uid (RowJson ν)) :=
  batches.flatten.flatMap ResourceDelta.writes

/-- The last write of the batches to the uid is a deletion. -/
def DeletedBy (batches : List (List (ResourceDelta ν))) (uid : Uid) : Prop :=
  effect (batchWrites batches) uid = some none

/-- The batches write to the uid. -/
def TouchedBy (batches : List (List (ResourceDelta ν))) (uid : Uid) : Prop :=
  effect (batchWrites batches) uid ≠ none

theorem scopedUid_inj {clusterId : String} {uid uid' : Uid} :
    scopedUid clusterId uid = scopedUid clusterId uid' ↔ uid = uid' := by
  constructor
  · intro h
    have hl := congrArg String.toList h
    simp only [scopedUid, String.toList_append] at hl
    exact String.toList_inj.mp (List.append_cancel_left hl)
  · exact congrArg _

theorem scopeRow_injective (clusterId : String) :
    Function.Injective (scopeRow clusterId : RowJson ν → ScopedRow ν) :=
  fun _ _ h => congrArg ScopedRow.row h

theorem Shows.unique {clusterId : String} {m : Table String (ScopedRow ν)}
    {f g : Uid → Option (RowJson ν)} (hf : Shows clusterId m f) (hg : Shows clusterId m g) :
    f = g := by
  funext uid
  have h := (hf.lookup uid).symm.trans (hg.lookup uid)
  exact Option.map_injective (scopeRow_injective clusterId) h

theorem shows_empty (clusterId : String) :
    Shows clusterId (∅ : Table String (ScopedRow ν)) fun _ => none :=
  ⟨fun _ => by simp, fun _ _ h => by simp at h⟩

theorem Shows.set {clusterId : String} {m : Table String (ScopedRow ν)}
    {f : Uid → Option (RowJson ν)} (h : Shows clusterId m f) (row : RowJson ν) :
    Shows clusterId (setScoped clusterId m row) (overlay (effectAt (.put row.uid row)) f) := by
  constructor
  · intro uid
    by_cases hu : uid = row.uid
    · subst hu
      simp [setScoped, scopeRow, overlay, effectAt]
    · have hne : scopedUid clusterId uid ≠ scopedUid clusterId row.uid := by
        simpa [scopedUid_inj] using hu
      simp [setScoped, scopeRow, overlay, effectAt, hu, hne, h.lookup uid]
  · intro sid r hr
    by_cases hs : sid = scopedUid clusterId row.uid
    · exact ⟨row.uid, hs⟩
    · have hold : m.lookup sid = some r := by
        rw [← hr, setScoped]
        exact (Finmap.lookup_insert_of_ne m hs).symm
      exact h.ofCluster sid r hold

theorem Shows.erase {clusterId : String} {m : Table String (ScopedRow ν)}
    {f : Uid → Option (RowJson ν)} (h : Shows clusterId m f) (uid : Uid) :
    Shows clusterId (m.erase (scopedUid clusterId uid)) (overlay (effectAt (.del uid)) f) := by
  constructor
  · intro u
    by_cases hu : u = uid
    · subst hu
      simp [overlay, effectAt]
    · have hne : scopedUid clusterId u ≠ scopedUid clusterId uid := by
        simpa [scopedUid_inj] using hu
      simp [overlay, effectAt, hu, Finmap.lookup_erase_ne hne, h.lookup u]
  · intro sid r hr
    by_cases hs : sid = scopedUid clusterId uid
    · exact ⟨uid, hs⟩
    · rw [Finmap.lookup_erase_ne hs] at hr
      exact h.ofCluster sid r hr

theorem Shows.delta {clusterId : String} {m : Table String (ScopedRow ν)}
    {f : Uid → Option (RowJson ν)} (h : Shows clusterId m f) (d : ResourceDelta ν) :
    Shows clusterId (applyScopedDelta clusterId m d) (overlay (effect d.writes) f) := by
  cases d with
  | upsert row =>
    rw [ResourceDelta.writes, effect_singleton]
    exact h.set row
  | delete uid =>
    rw [ResourceDelta.writes, effect_singleton]
    exact h.erase uid
  | initDone => exact h

theorem Shows.deltas {clusterId : String} {m : Table String (ScopedRow ν)}
    {f : Uid → Option (RowJson ν)} (h : Shows clusterId m f) (ds : List (ResourceDelta ν)) :
    Shows clusterId (ds.foldl (applyScopedDelta clusterId) m)
      (overlay (effect (ds.flatMap ResourceDelta.writes)) f) := by
  induction ds generalizing m f with
  | nil => exact h
  | cons d ds ih =>
    rw [List.foldl_cons, List.flatMap_cons, effect_append, overlay_andThen]
    exact ih (h.delta d)

theorem Shows.batches {clusterId : String} {m : Table String (ScopedRow ν)}
    {f : Uid → Option (RowJson ν)} (h : Shows clusterId m f)
    (batches : List (List (ResourceDelta ν))) :
    Shows clusterId ((batches.map Arrival.batch).foldl (handle clusterId) m)
      (overlay (effect (batchWrites batches)) f) := by
  induction batches generalizing m f with
  | nil => exact h
  | cons b bs ih =>
    rw [batchWrites, List.flatten_cons, List.flatMap_append, effect_append, overlay_andThen]
    exact ih (h.deltas b)

theorem shows_snapshot {clusterId : String} {m : Table String (ScopedRow ν)}
    {s : Table Uid (RowJson ν)} (h : Shows clusterId m s.lookup) (rows : List (RowJson ν)) :
    Shows clusterId (rows.foldl (setScoped clusterId) m)
      (rows.foldl (fun s row => s.insert row.uid row) s).lookup := by
  induction rows generalizing m s with
  | nil => exact h
  | cons row rows ih =>
    refine ih ?_
    have hset := h.set row
    rwa [← lookup_applyWrite s (.put row.uid row)] at hset

theorem Shows.reply {clusterId : String} {m : Table String (ScopedRow ν)}
    {f : Uid → Option (RowJson ν)} (h : Shows clusterId m f) (rows : List (RowJson ν)) :
    Shows clusterId (handle clusterId m (.reply rows))
      (fun uid => (f uid).or ((seed rows).lookup uid)) := by
  have hsnap : Shows clusterId (rows.foldl (setScoped clusterId) ∅) (seed rows).lookup := by
    refine shows_snapshot ?_ rows
    simpa using shows_empty clusterId
  have hunion : handle clusterId m (.reply rows) = m ∪ rows.foldl (setScoped clusterId) ∅ := rfl
  have hlook : ∀ sid, (handle clusterId m (.reply rows)).lookup sid =
      (m.lookup sid).or ((rows.foldl (setScoped clusterId) ∅).lookup sid) := by
    intro sid
    rw [hunion]
    by_cases hm : sid ∈ m
    · obtain ⟨v, hv⟩ := Finmap.mem_iff.mp hm
      rw [Finmap.lookup_union_left hm, hv, Option.some_or]
    · rw [Finmap.lookup_union_right hm, Finmap.lookup_eq_none.mpr hm, Option.none_or]
  constructor
  · intro uid
    rw [hlook, h.lookup, hsnap.lookup]
    cases f uid <;> simp
  · intro sid r hr
    rw [hlook, Option.or_eq_some_iff] at hr
    rcases hr with hr | ⟨-, hr⟩
    · exact h.ofCluster sid r hr
    · exact hsnap.ofCluster sid r hr

/-- The map once everything has arrived. -/
theorem shows_arrivals (clusterId : String) (early late : List (List (ResourceDelta ν)))
    (rows : List (RowJson ν)) :
    Shows clusterId ((arrivals early rows late).foldl (handle clusterId) ∅)
      (overlay (effect (batchWrites late)) fun uid =>
        (overlay (effect (batchWrites early)) (fun _ => none) uid).or ((seed rows).lookup uid)) := by
  have hearly := (shows_empty clusterId (ν := ν)).batches early
  have hreply := hearly.reply rows
  rw [arrivals, List.foldl_append, List.foldl_cons]
  exact hreply.batches late

/-- Putting a map under the values early writes left differs from writing over the map only
where an early deletion is not followed by a late write. -/
theorem merge_eq_iff {e l : Effect Uid (RowJson ν)} {s : Uid → Option (RowJson ν)} :
    overlay l (fun u => (overlay e (fun _ => none) u).or (s u)) = overlay (andThen e l) s ↔
      ∀ u, e u = some none → l u = none → s u = none := by
  constructor
  · intro h u he hl
    have hu := congrFun h u
    simpa [overlay, andThen, he, hl] using hu
  · intro h
    funext u
    cases hl : l u with
    | some w => simp [overlay, andThen, hl]
    | none =>
      cases he : e u with
      | none => simp [overlay, andThen, hl, he]
      | some w =>
        cases w with
        | some row => simp [overlay, andThen, hl, he]
        | none => simp [overlay, andThen, hl, he, h u he hl]

theorem mem_snapshot_iff {t : WatcherTask ν}
    (ht : ∀ u row, t.cache.lookup u = some row → row.uid = u) {iter : List Uid}
    (hi : Enumerates iter t.cache.keys) (row : RowJson ν) :
    row ∈ t.snapshot iter ↔ t.cache.lookup row.uid = some row := by
  rw [WatcherTask.snapshot, List.mem_filterMap]
  constructor
  · rintro ⟨u, -, hu⟩
    rwa [ht u row hu]
  · intro h
    refine ⟨row.uid, hi.mem_iff.mpr ?_, h⟩
    rw [Finmap.mem_keys, Finmap.mem_iff]
    exact ⟨row, h⟩

variable {Obj : Type} [DecidableEq ν]

/-- A subscription takes its snapshot at any point `p` of a run of the watcher, its listener
hears the batches from the `j`-th on, and the reply comes after the batches `early`. Once all
has arrived the table shows the watcher's cache exactly when no row of the snapshot was last
deleted in the early batches and is not written again by the late ones. -/
theorem table_converges_iff {K : KindSpec Obj ν} {before after : List (Pipeline.Action Obj)}
    {p q : Pipeline ν} (hp : run (Pipeline.step K) Pipeline.start before = some p)
    (hq : run (Pipeline.step K) p after = some q) (hidle : q.todo = []) {j : ℕ}
    (hj : j ≤ p.emitted.length) {snap ui di : List Uid}
    (hsnap : Enumerates snap p.task.cache.keys) (hui : Enumerates ui q.dirty.changed.keys)
    (hdi : Enumerates di q.dirty.deleted) {early late : List (List (ResourceDelta ν))}
    (hsplit : early ++ late = q.emitted.drop j ++ [emitBatch (drain q.dirty).1 ui di])
    (clusterId : String) :
    Shows clusterId
        ((arrivals early (p.task.snapshot snap) late).foldl (handle clusterId) ∅)
        q.task.cache.lookup ↔
      ∀ row ∈ p.task.snapshot snap, DeletedBy early row.uid → TouchedBy late row.uid := by
  have hsound := (Pipeline.settled_run hp).sound
  have hshown := shows_arrivals clusterId early late (p.task.snapshot snap)
  rw [Pipeline.seed_snapshot hsound.cache hsnap] at hshown
  have hcache : q.task.cache.lookup =
      overlay (andThen (effect (batchWrites early)) (effect (batchWrites late)))
        p.task.cache.lookup := by
    rw [← Pipeline.consumer_converges hp hq hidle hj hsnap hui hdi, lookup_foldl_applyDelta,
      Pipeline.seed_snapshot hsound.cache hsnap, ← effect_append, batchWrites, batchWrites,
      ← List.flatMap_append, ← List.flatten_append, hsplit]
    simp
  have hiff := merge_eq_iff (e := effect (batchWrites early)) (l := effect (batchWrites late))
    (s := p.task.cache.lookup)
  rw [← hcache] at hiff
  constructor
  · intro hs row hrow hdel htouched
    have hnone := hiff.mp (hshown.unique hs) row.uid hdel htouched
    rw [(mem_snapshot_iff hsound.cache hsnap row).mp hrow] at hnone
    cases hnone
  · intro h
    rw [← hiff.mpr ?_]
    · exact hshown
    · intro u hdel hl
      by_contra hsome
      obtain ⟨row, hrow⟩ := Option.ne_none_iff_exists'.mp hsome
      have huid : row.uid = u := hsound.cache u row hrow
      subst huid
      exact h row ((mem_snapshot_iff hsound.cache hsnap row).mpr hrow) hdel hl

/-- One row is listed and emitted. -/
def listed : List (Pipeline.Action (String × ℕ)) :=
  [.input (.event .init []), .input (.event (.initApply ("a", 1)) []), .call,
    .drain 0 [] ["a"] ["a"] []]

/-- The row is deleted, and the deletion is emitted. -/
def removed : List (Pipeline.Action (String × ℕ)) :=
  [.input (.event (.delete ("a", 1)) []), .call, .drain 0 ["a"] [] [] ["a"]]

theorem table_converges_reply_first :
    ∃ p q : Pipeline ℕ, run (Pipeline.step WatcherTask.sampleKind) Pipeline.start listed = some p ∧
      run (Pipeline.step WatcherTask.sampleKind) p removed = some q ∧
      Shows "ctx" ((arrivals [] (p.task.snapshot ["a"]) (q.emitted.drop 1 ++
        [emitBatch (drain q.dirty).1 [] []])).foldl (handle "ctx") ∅) q.task.cache.lookup := by
  obtain ⟨p, q, hp, hq, hidle, hj, hsnap, hui, hdi⟩ : ∃ p q : Pipeline ℕ,
      run (Pipeline.step WatcherTask.sampleKind) Pipeline.start listed = some p ∧
      run (Pipeline.step WatcherTask.sampleKind) p removed = some q ∧ q.todo = [] ∧
      1 ≤ p.emitted.length ∧ Enumerates ["a"] p.task.cache.keys ∧
      Enumerates [] q.dirty.changed.keys ∧ Enumerates [] q.dirty.deleted :=
    ⟨_, _, rfl, rfl, rfl, by decide, by decide, by decide, by decide⟩
  refine ⟨p, q, hp, hq, ?_⟩
  rw [table_converges_iff hp hq hidle hj hsnap hui hdi (List.nil_append _) "ctx"]
  intro row _ hdel
  simp [DeletedBy, batchWrites] at hdel

/-- The deletion is handled before the reply of the subscribe call, which then shows the row
again. -/
theorem deletion_undone_by_reply :
    ∃ p q : Pipeline ℕ, run (Pipeline.step WatcherTask.sampleKind) Pipeline.start listed = some p ∧
      run (Pipeline.step WatcherTask.sampleKind) p removed = some q ∧ q.todo = [] ∧
      q.emitted.drop 1 = [[.delete "a"]] ∧ emitBatch (drain q.dirty).1 [] [] = [] ∧
      q.task.cache.lookup "a" = none ∧
      ((arrivals [[.delete "a"]] (p.task.snapshot ["a"]) [[]]).foldl (handle "ctx") ∅).lookup
        "ctx::a" = some (scopeRow "ctx" ⟨.obj [("phase", .num 1), ("uid", .str "a")]⟩) := by
  refine ⟨_, _, rfl, rfl, rfl, ?_, ?_, ?_, ?_⟩
  · decide
  · decide
  · decide
  · decide

end ScopedTable

end FerrisScope
