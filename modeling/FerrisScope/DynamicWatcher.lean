import FerrisScope.WatcherLoop

/-!
# The dynamic watcher task and the typed one

Kinds without a compile-time type are watched by a second copy of the event loop, over a
projection function that it is given. Here it is set beside the typed loop: both hear the same
events, each iterates its own cache in its own order, and their channels are drained at the same
points. They stay in step.
-/

namespace FerrisScope
open KeyedWrites LabelledRuns

variable {ν : Type}

structure DynamicTask (ν : Type) where
  cache : Table Uid (RowJson ν)
  initSeen : Option (Finset Uid)
  initDone : Bool

namespace DynamicTask

variable {Obj : Type} [DecidableEq ν]

def start : DynamicTask ν := ⟨∅, none, false⟩

/-- `reconcile_init_seen`, with the iteration order of the cache: the uids it drops. -/
def reconcileInitSeen (t : DynamicTask ν) (iter : List Uid) : DynamicTask ν × List Uid :=
  match t.initSeen with
  | none => (t, [])
  | some seen =>
      let stale := iter.filter fun uid => uid ∉ seen
      ({ t with initSeen := none, cache := stale.foldl (fun c uid => c.erase uid) t.cache }, stale)

/-- The `Apply` and `InitApply` arms and the code after the match. -/
def applyObject (K : KindSpec Obj ν) (t : DynamicTask ν) (obj : Obj) (isInitApply : Bool) :
    DynamicTask ν × List (ChannelCall ν) :=
  match K.uid obj with
  | none => (t, [])
  | some uid =>
      let t := { t with initSeen := if isInitApply then t.initSeen.map (insert uid) else t.initSeen }
      match Row.build uid (K.project obj) (some (K.labels obj)) with
      | .error _ => (t, [])
      | .ok row =>
          if t.cache.lookup uid = some row.json then (t, [])
          else ({ t with cache := t.cache.insert uid row.json }, [.write (.put uid row)])

/-- One event of the stream. The list is reconciled before the `init_done` flag is stored. -/
def handleEvent (K : KindSpec Obj ν) (t : DynamicTask ν) (iter : List Uid) :
    WatchEvent Obj → DynamicTask ν × List (ChannelCall ν)
  | .apply obj => applyObject K t obj false
  | .initApply obj => applyObject K t obj true
  | .delete obj => match K.uid obj with
      | none => (t, [])
      | some uid => ({ t with cache := t.cache.erase uid }, [.write (.del uid)])
  | .init => ({ t with initSeen := some ∅ }, [])
  | .initDone =>
      let r := reconcileInitSeen t iter
      ({ r.1 with initDone := true }, r.2.map (fun uid => .write (.del uid)) ++ [.markInitDone])
  | .err => (t, [])

end DynamicTask

/-- A watcher: its task, its dirty channel, and what was drained from it. -/
structure Watched (τ ν : Type) where
  task : τ
  channel : DirtyState (Row ν)
  drained : List (DrainedBatch (Row ν))

namespace Watched

variable {Obj : Type}

inductive Input (Obj : Type) where
  | event (e : WatchEvent Obj) (iter : List Uid)
  | drain

/-- The same event, each watcher with an iteration order of its own, or a drain of both. -/
inductive SameInput : Input Obj → Input Obj → Prop
  | event (e : WatchEvent Obj) (iter iter' : List Uid) : SameInput (.event e iter) (.event e iter')
  | drain : SameInput .drain .drain

/-- An input to a watcher whose task handles events by `handle`; an iteration order must be one
of its cache. -/
def step {τ : Type} (cache : τ → Table Uid (RowJson ν))
    (handle : τ → List Uid → WatchEvent Obj → τ × List (ChannelCall ν)) (w : Watched τ ν) :
    Input Obj → Option (Watched τ ν)
  | .event e iter =>
    if Enumerates iter (cache w.task).keys then
      let r := handle w.task iter e
      some { w with
        task := r.1
        channel := r.2.foldl ChannelCall.perform w.channel }
    else none
  | .drain =>
    let r := DirtyChannel.drain w.channel
    some { w with
      channel := r.2
      drained := w.drained ++ [r.1] }

variable [DecidableEq ν]

def stepTyped (K : KindSpec Obj ν) : Watched (WatcherTask ν) ν → Input Obj → Option (Watched (WatcherTask ν) ν) :=
  step WatcherTask.cache (WatcherTask.handleEvent K)

def stepDynamic (K : KindSpec Obj ν) :
    Watched (DynamicTask ν) ν → Input Obj → Option (Watched (DynamicTask ν) ν) :=
  step DynamicTask.cache (DynamicTask.handleEvent K)

def startTyped : Watched (WatcherTask ν) ν := ⟨.start, DirtyChannel.new, []⟩

def startDynamic : Watched (DynamicTask ν) ν := ⟨.start, DirtyChannel.new, []⟩

/-- The two tasks hold the same cache, the same seen set and the same flag. -/
structure SameTask (t : WatcherTask ν) (d : DynamicTask ν) : Prop where
  cache : t.cache = d.cache
  initSeen : t.initSeen = d.initSeen
  initDone : t.initDone = d.initDone

/-- The two watchers agree, up to the order in which nothing depends. -/
structure InStep (w : Watched (WatcherTask ν) ν) (v : Watched (DynamicTask ν) ν) : Prop where
  task : SameTask w.task v.task
  channel : w.channel = v.channel
  drained : w.drained = v.drained

theorem sameTask_applyObject {K : KindSpec Obj ν} {t : WatcherTask ν} {d : DynamicTask ν}
    (h : SameTask t d) (obj : Obj) (isInitApply : Bool) :
    SameTask (WatcherTask.applyObject K t obj isInitApply).1 (DynamicTask.applyObject K d obj isInitApply).1 ∧
      (WatcherTask.applyObject K t obj isInitApply).2 = (DynamicTask.applyObject K d obj isInitApply).2 := by
  obtain ⟨cache, seen, done, preview⟩ := t
  obtain ⟨_, _, _⟩ := d
  obtain ⟨rfl, rfl, rfl⟩ := h
  unfold WatcherTask.applyObject DynamicTask.applyObject
  cases K.uid obj with
  | none => exact ⟨⟨rfl, rfl, rfl⟩, rfl⟩
  | some uid =>
    dsimp only
    cases Row.build uid (K.project obj) (some (K.labels obj)) with
    | error e => exact ⟨⟨rfl, rfl, rfl⟩, rfl⟩
    | ok row =>
      dsimp only
      split
      · exact ⟨⟨rfl, rfl, rfl⟩, rfl⟩
      · exact ⟨⟨rfl, rfl, rfl⟩, rfl⟩

omit [DecidableEq ν] in
/-- Recording deletes: only the set of uids matters. -/
theorem foldl_deletes (uids : List Uid) (s : DirtyState (Row ν)) :
    ((uids.map fun uid => ChannelCall.write (.del uid)).foldl ChannelCall.perform s) =
      if s.closed then s
      else { s with
        changed := uids.foldl (fun c uid => c.erase uid) s.changed
        deleted := s.deleted ∪ uids.toFinset } := by
  induction uids generalizing s with
  | nil => simp
  | cons uid uids ih =>
    rw [List.map_cons, List.foldl_cons, ih]
    simp only [ChannelCall.perform, DirtyChannel.record, DirtyChannel.recordDelete]
    by_cases hc : s.closed
    · simp [hc]
    · simp [hc, Finset.insert_union]

/-- Two orders of the same cache drop the same uids. -/
theorem mem_stale_iff {keys : Finset Uid} (seen : Finset Uid) {iter iter' : List Uid} (h : Enumerates iter keys)
    (h' : Enumerates iter' keys) (u : Uid) :
    u ∈ iter.filter (fun uid => uid ∉ seen) ↔ u ∈ iter'.filter (fun uid => uid ∉ seen) := by
  simp only [List.mem_filter, h.mem_iff, h'.mem_iff]

/-- One event keeps the two watchers in step. -/
theorem inStep_event {K : KindSpec Obj ν} {w : Watched (WatcherTask ν) ν} {v : Watched (DynamicTask ν) ν}
    (h : InStep w v) (e : WatchEvent Obj) {iter iter' : List Uid}
    (hi : Enumerates iter w.task.cache.keys) (hi' : Enumerates iter' v.task.cache.keys) :
    SameTask (WatcherTask.handleEvent K w.task iter e).1 (DynamicTask.handleEvent K v.task iter' e).1 ∧
      (WatcherTask.handleEvent K w.task iter e).2.foldl ChannelCall.perform w.channel =
        (DynamicTask.handleEvent K v.task iter' e).2.foldl ChannelCall.perform v.channel := by
  obtain ⟨⟨cache, seen, done, preview⟩, channel, drained⟩ := w
  obtain ⟨⟨_, _, _⟩, _, _⟩ := v
  obtain ⟨⟨rfl, rfl, rfl⟩, rfl, rfl⟩ := h
  cases e with
  | apply obj =>
    obtain ⟨ht, hc⟩ := sameTask_applyObject (K := K) (t := ⟨cache, seen, done, preview⟩)
      (d := ⟨cache, seen, done⟩) ⟨rfl, rfl, rfl⟩ obj false
    exact ⟨ht, congrArg (List.foldl ChannelCall.perform channel) hc⟩
  | initApply obj =>
    obtain ⟨ht, hc⟩ := sameTask_applyObject (K := K) (t := ⟨cache, seen, done, preview⟩)
      (d := ⟨cache, seen, done⟩) ⟨rfl, rfl, rfl⟩ obj true
    exact ⟨ht, congrArg (List.foldl ChannelCall.perform channel) hc⟩
  | delete obj =>
    simp only [WatcherTask.handleEvent, DynamicTask.handleEvent]
    cases K.uid obj with
    | none => exact ⟨⟨rfl, rfl, rfl⟩, rfl⟩
    | some uid => exact ⟨⟨rfl, rfl, rfl⟩, rfl⟩
  | init => exact ⟨⟨rfl, rfl, rfl⟩, rfl⟩
  | err => exact ⟨⟨rfl, rfl, rfl⟩, rfl⟩
  | initDone =>
    simp only [WatcherTask.handleEvent, DynamicTask.handleEvent, WatcherTask.reconcileInitSeen,
      DynamicTask.reconcileInitSeen]
    cases seen with
    | none => exact ⟨⟨rfl, rfl, rfl⟩, rfl⟩
    | some seen =>
      have hmem := mem_stale_iff seen hi hi'
      have hset : (iter.filter fun uid => uid ∉ seen).toFinset =
          (iter'.filter fun uid => uid ∉ seen).toFinset := by
        ext u
        simpa only [List.mem_toFinset] using hmem u
      refine ⟨⟨foldl_erase_congr hmem _, rfl, rfl⟩, ?_⟩
      simp only [List.foldl_append, foldl_deletes, hset, foldl_erase_congr hmem]

theorem inStep_step {K : KindSpec Obj ν} (w : Watched (WatcherTask ν) ν) (v : Watched (DynamicTask ν) ν)
    (i j : Input Obj) (w' : Watched (WatcherTask ν) ν) (v' : Watched (DynamicTask ν) ν) (h : InStep w v)
    (hij : SameInput i j) (hw : stepTyped K w i = some w') (hv : stepDynamic K v j = some v') :
    InStep w' v' := by
  cases hij with
  | event e iter iter' =>
    simp only [stepTyped, step] at hw
    simp only [stepDynamic, step] at hv
    split at hw
    · rename_i hi
      split at hv
      · rename_i hi'
        cases hw
        cases hv
        obtain ⟨ht, hc⟩ := inStep_event h e hi hi'
        exact ⟨ht, hc, h.drained⟩
      · cases hv
    · cases hw
  | drain =>
    cases hw
    cases hv
    exact ⟨h.task, by rw [h.channel], by rw [h.drained, h.channel]⟩

/-- Over every sequence of events, with no preview list, the typed and the dynamic watcher with the
same projection end with the same cache and flag, and their channels hold and were drained of
the same deltas and `init_done` marks. -/
theorem typed_and_dynamic_agree (K : KindSpec Obj ν) (is js : List (Input Obj))
    (w : Watched (WatcherTask ν) ν) (v : Watched (DynamicTask ν) ν)
    (hsame : List.Forall₂ SameInput is js) (hw : run (stepTyped K) startTyped is = some w)
    (hv : run (stepDynamic K) startDynamic js = some v) :
    w.task.cache = v.task.cache ∧ w.task.initDone = v.task.initDone ∧
      (DirtyChannel.drain w.channel).1 = (DirtyChannel.drain v.channel).1 ∧ w.drained = v.drained := by
  have h : InStep w v := run_lockstep inStep_step hsame ⟨⟨rfl, rfl, rfl⟩, rfl, rfl⟩ hw hv
  exact ⟨h.task.cache, h.task.initDone, by rw [h.channel], h.drained⟩

/-- Two objects are listed, then relisted without the second one; the caches are iterated in
opposite orders. -/
def relisted (iter : List Uid) : List (Input (String × ℕ)) :=
  [.event .init [], .event (.initApply ("a", 1)) [], .event (.initApply ("b", 1)) ["a"], .event .initDone iter,
    .drain, .event .init iter, .event (.initApply ("a", 2)) iter, .event .initDone iter]

theorem typed_and_dynamic_agree_relisted :
    ∃ w v, run (stepTyped WatcherTask.sampleKind) startTyped (relisted ["a", "b"]) = some w ∧
      run (stepDynamic WatcherTask.sampleKind) startDynamic (relisted ["b", "a"]) = some v ∧
      w.task.cache = v.task.cache ∧ w.drained = v.drained := by
  obtain ⟨w, hw⟩ : ∃ w, run (stepTyped WatcherTask.sampleKind) startTyped (relisted ["a", "b"]) = some w :=
    Option.isSome_iff_exists.mp (by decide)
  obtain ⟨v, hv⟩ : ∃ v, run (stepDynamic WatcherTask.sampleKind) startDynamic (relisted ["b", "a"]) = some v :=
    Option.isSome_iff_exists.mp (by decide)
  have hsame : List.Forall₂ SameInput (relisted ["a", "b"]) (relisted ["b", "a"]) := by
    simp only [relisted, List.forall₂_cons, SameInput.event, SameInput.drain, List.Forall₂.nil, and_true]
  obtain ⟨hcache, -, -, hdrained⟩ := typed_and_dynamic_agree WatcherTask.sampleKind _ _ w v hsame hw hv
  exact ⟨w, v, hw, hv, hcache, hdrained⟩

end Watched
end FerrisScope
