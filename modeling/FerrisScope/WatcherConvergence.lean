import FerrisScope.LabelledRuns
import FerrisScope.WatcherLoop

/-!
# The consumer converges to the watcher cache

The pipeline interleaves the watcher task, its calls on the dirty channel and the drains of
the forwarder, whose batches are emitted as lists of deltas. What is in flight for a uid is
the last write that has been emitted, is pending in the channel, or is about to be recorded.
Every step adds to what is in flight exactly what it does to the cache.
-/

namespace FerrisScope
open KeyedWrites LabelledRuns DirtyChannel

variable {ν : Type}

inductive ResourceDelta (ν : Type) where
  | upsert (row : RowJson ν)
  | delete (uid : Uid)
  | initDone
  deriving DecidableEq

/-- The batch the forwarder emits, with the iteration orders of the drained collections. -/
def emitBatch (drained : DrainedBatch (Row ν)) (upsertIter deleteIter : List Uid) :
    List (ResourceDelta ν) :=
  upsertIter.filterMap (fun uid => (drained.upserts.lookup uid).map fun row => .upsert row.json) ++
    deleteIter.map .delete ++ if drained.initDone then [.initDone] else []

/-- The consumer keys a row by the uid inside it. -/
def applyDelta (rows : Table Uid (RowJson ν)) : ResourceDelta ν → Table Uid (RowJson ν)
  | .upsert row => rows.insert row.uid row
  | .delete uid => rows.erase uid
  | .initDone => rows

/-- The rows of the cache, in its iteration order. -/
def WatcherTask.snapshot (t : WatcherTask ν) (iter : List Uid) : List (RowJson ν) :=
  iter.filterMap t.cache.lookup

def seed (rows : List (RowJson ν)) : Table Uid (RowJson ν) :=
  rows.foldl (fun m row => m.insert row.uid row) ∅

/-- The task, the calls of its current event still to be made, the channel and the emitted
batches. -/
structure Pipeline (ν : Type) where
  task : WatcherTask ν
  todo : List (ChannelCall ν)
  dirty : DirtyState (Row ν)
  emitted : List (List (ResourceDelta ν))

namespace Pipeline

variable {Obj : Type} [DecidableEq ν]

inductive Action (Obj : Type) where
  | input (i : WatcherTask.Input Obj)
  | call
  | drain (max : ℕ) (deletedIter changedIter upsertIter deleteIter : List Uid)

def start : Pipeline ν := ⟨WatcherTask.start, [], DirtyChannel.new, []⟩

def step (K : KindSpec Obj ν) (p : Pipeline ν) : Action Obj → Option (Pipeline ν)
  | .input i => if p.todo.isEmpty then
      (WatcherTask.step K p.task i).map fun r => { p with task := r.1, todo := r.2 }
      else none
  | .call => match p.todo with
      | [] => none
      | c :: cs => some { p with todo := cs, dirty := c.perform p.dirty }
  | .drain max di ci ui ei =>
      let r := drainCapped p.dirty max di ci
      if Enumerates di p.dirty.deleted ∧ Enumerates ci p.dirty.changed.keys ∧
          Enumerates ui r.1.upserts.keys ∧ Enumerates ei r.1.deletes then
        some { p with
          dirty := r.2
          emitted := if r.1.isEmpty then p.emitted else p.emitted ++ [emitBatch r.1 ui ei] }
      else none

end Pipeline

def ResourceDelta.writes : ResourceDelta ν → List (Write Uid (RowJson ν))
  | .upsert row => [.put row.uid row]
  | .delete uid => [.del uid]
  | .initDone => []

def ChannelCall.writes : ChannelCall ν → List (Write Uid (RowJson ν))
  | .write w => [w.map Row.json]
  | .markInitDone => []

theorem lookup_foldl_applyDelta (ds : List (ResourceDelta ν)) (m : Table Uid (RowJson ν)) :
    (ds.foldl applyDelta m).lookup = overlay (effect (ds.flatMap ResourceDelta.writes)) m.lookup := by
  refine lookup_foldl_of_writes (fun m d => ?_) ds m
  cases d <;> rfl

/-- Values stand under the uid they carry. -/
def Keyed (e : Effect Uid (RowJson ν)) : Prop := ∀ u row, e u = some (some row) → row.uid = u

theorem Keyed.andThen {f g : Effect Uid (RowJson ν)} (hf : Keyed f) (hg : Keyed g) :
    Keyed (andThen f g) := by
  intro u row h
  cases hu : g u with
  | some x => exact hg u row (by simpa [KeyedWrites.andThen, hu] using h)
  | none => exact hf u row (by simpa [KeyedWrites.andThen, hu] using h)

theorem Keyed.overlay {e : Effect Uid (RowJson ν)} {m : Uid → Option (RowJson ν)} (he : Keyed e)
    (hm : ∀ u row, m u = some row → row.uid = u) (u : Uid) (row : RowJson ν)
    (h : overlay e m u = some row) : row.uid = u := by
  cases hu : e u with
  | some x => exact he u row (by rw [hu]; simpa [KeyedWrites.overlay, hu] using h)
  | none => exact hm u row (by simpa [KeyedWrites.overlay, hu] using h)

/-- What the calls leave at each uid. -/
def callsEffect (calls : List (ChannelCall ν)) : Effect Uid (RowJson ν) :=
  effect (calls.flatMap ChannelCall.writes)

theorem callsEffect_append (cs ds : List (ChannelCall ν)) :
    callsEffect (cs ++ ds) = andThen (callsEffect cs) (callsEffect ds) := by
  rw [callsEffect, List.flatMap_append, effect_append]
  rfl

theorem callsEffect_put (uid : Uid) (row : Row ν) :
    callsEffect [.write (.put uid row)] = effectAt (.put uid row.json) := by
  simp [callsEffect, ChannelCall.writes, Write.map]

theorem callsEffect_dels (uids : List Uid) (u : Uid) :
    callsEffect (uids.map (fun uid => .write (.del uid)) ++ [.markInitDone] : List (ChannelCall ν)) u =
      if u ∈ uids then some none else none := by
  have hdels : (uids.map fun uid => (.write (.del uid) : ChannelCall ν)).flatMap ChannelCall.writes =
      uids.map Write.del := by
    induction uids with
    | nil => rfl
    | cons a l ih => simpa [ChannelCall.writes, Write.map] using ih
  rw [callsEffect, List.flatMap_append, hdels]
  simp [ChannelCall.writes, effect_dels]

/-- Every row of the calls is recorded under the uid it carries. -/
def CallsKeyed (calls : List (ChannelCall ν)) : Prop :=
  ∀ u row, .write (.put u row) ∈ calls → row.json.uid = u

theorem CallsKeyed.effect {calls : List (ChannelCall ν)} (h : CallsKeyed calls) :
    Keyed (callsEffect calls) := by
  intro u row hu
  have hmem := put_mem_of_effect hu
  obtain ⟨c, hc, hw⟩ := List.mem_flatMap.mp hmem
  cases c with
  | markInitDone => simp [ChannelCall.writes] at hw
  | write w =>
    cases w with
    | del uid => simp [ChannelCall.writes, Write.map] at hw
    | put uid r =>
      simp only [ChannelCall.writes, Write.map, List.mem_singleton, Write.put.injEq] at hw
      obtain ⟨rfl, rfl⟩ := hw
      exact h u r hc

/-- What one input does: the cache changes exactly as its channel calls say. -/
structure Reported (t t' : WatcherTask ν) (calls : List (ChannelCall ν)) : Prop where
  cache : t'.cache.lookup = overlay (callsEffect calls) t.cache.lookup
  keyed : CallsKeyed calls

theorem Reported.trans {t t' t'' : WatcherTask ν} {cs ds : List (ChannelCall ν)}
    (h : Reported t t' cs) (h' : Reported t' t'' ds) : Reported t t'' (cs ++ ds) := by
  constructor
  · rw [callsEffect_append, overlay_andThen, ← h.cache, h'.cache]
  · intro u row hm
    exact (List.mem_append.mp hm).elim (h.keyed u row) (h'.keyed u row)

namespace WatcherTask

variable {Obj : Type} [DecidableEq ν]

omit [DecidableEq ν] in
theorem reported_nil (t t' : WatcherTask ν) (h : t'.cache = t.cache) : Reported t t' [] := by
  refine ⟨?_, by simp [CallsKeyed]⟩
  funext u
  simp [h, overlay, callsEffect]

omit [DecidableEq ν] in
theorem reported_put {t t' : WatcherTask ν} {uid : Uid} {row : Row ν} (hrow : row.json.uid = uid)
    (h : t'.cache = t.cache.insert uid row.json) : Reported t t' [.write (.put uid row)] := by
  constructor
  · rw [callsEffect_put, h]
    exact lookup_applyWrite t.cache (.put uid row.json)
  · intro u r hu
    simp only [List.mem_singleton, ChannelCall.write.injEq, Write.put.injEq] at hu
    obtain ⟨rfl, rfl⟩ := hu
    exact hrow

omit [DecidableEq ν] in
theorem reported_del (t : WatcherTask ν) (uid : Uid) :
    Reported t { t with cache := t.cache.erase uid } [.write (.del uid)] := by
  have hdel : callsEffect ([.write (.del uid)] : List (ChannelCall ν)) = effectAt (.del uid) := by
    simp [callsEffect, ChannelCall.writes, Write.map]
  constructor
  · rw [hdel]
    exact lookup_applyWrite t.cache (.del uid)
  · simp [CallsKeyed]

theorem reported_applyObject (K : KindSpec Obj ν) (t : WatcherTask ν) (obj : Obj)
    (isInitApply : Bool) :
    Reported t (applyObject K t obj isInitApply).1 (applyObject K t obj isInitApply).2 := by
  cases ho : K.uid obj with
  | none =>
    rw [applyObject_none ho]
    exact reported_nil t t rfl
  | some uid =>
    obtain ⟨row, hrow, heq⟩ := applyObject_some ho t isInitApply
    rw [heq]
    by_cases hsame : t.cache.lookup uid = some (rowFor K obj uid)
    · rw [if_pos hsame]
      apply reported_nil
      apply table_ext
      funext u
      by_cases hu : u = uid
      · subst hu
        simpa using hsame.symm
      · simp [hu]
    · rw [if_neg hsame]
      refine reported_put ?_ (by rw [hrow])
      rw [hrow, rowFor_uid]

omit [DecidableEq ν] in
private theorem reported_foldl_seedRow {t : WatcherTask ν} {rows : List (Uid × Row ν)}
    (hrows : ∀ e ∈ rows, e.2.json.uid = e.1) {acc : WatcherTask ν × List (ChannelCall ν)}
    (h : Reported t acc.1 acc.2) :
    Reported t (rows.foldl seedRow acc).1 (rows.foldl seedRow acc).2 := by
  induction rows generalizing acc with
  | nil => exact h
  | cons e rows ih =>
    refine ih (fun e' he' => hrows e' (by simp [he'])) ?_
    unfold seedRow
    split_ifs
    · exact h
    · exact h.trans (reported_put (hrows e (by simp)) rfl)

omit [DecidableEq ν] in
theorem reported_applyPreview (t : WatcherTask ν) {rows : List (Uid × Row ν)}
    (hrows : ∀ e ∈ rows, e.2.json.uid = e.1) :
    Reported t (applyPreview t rows).1 (applyPreview t rows).2 := by
  unfold applyPreview
  split_ifs
  · exact reported_nil t t rfl
  · exact reported_foldl_seedRow hrows (reported_nil t t rfl)

theorem reported_initDone (K : KindSpec Obj ν) (t : WatcherTask ν) (iter : List Uid) :
    Reported t (handleEvent K t iter .initDone).1 (handleEvent K t iter .initDone).2 := by
  cases hseen : t.initSeen with
  | none =>
    have hr := reported_nil t (handleEvent K t iter .initDone).1
      (by simp [handleEvent, reconcileInitSeen, hseen])
    refine ⟨hr.cache.trans ?_, ?_⟩
    · simp [handleEvent, reconcileInitSeen, hseen, callsEffect, ChannelCall.writes]
    · simp [handleEvent, reconcileInitSeen, hseen, CallsKeyed]
  | some seen =>
    simp only [handleEvent, reconcileInitSeen, hseen]
    constructor
    · funext u
      rw [lookup_foldl_erase, overlay, callsEffect_dels]
      split_ifs <;> rfl
    · simp [CallsKeyed]

theorem reported_step {K : KindSpec Obj ν} {t : WatcherTask ν} {i : Input Obj}
    {r : WatcherTask ν × List (ChannelCall ν)} (hs : step K t i = some r) :
    Reported t r.1 r.2 := by
  cases i with
  | preview objs =>
    simp only [step, Option.ite_none_right_eq_some, Option.some.injEq] at hs
    obtain ⟨-, rfl⟩ := hs
    have hrows : ∀ e ∈ previewRows K objs, e.2.json.uid = e.1 := fun e he => mem_previewRows he
    have hp := reported_applyPreview { t with preview := false } hrows
    exact ⟨hp.cache, hp.keyed⟩
  | event e iter =>
    cases e with
    | apply obj =>
      cases hs
      exact reported_applyObject K t obj false
    | initApply obj =>
      cases hs
      exact reported_applyObject K t obj true
    | init =>
      cases hs
      exact reported_nil t _ rfl
    | err =>
      cases hs
      exact reported_nil t t rfl
    | initDone =>
      simp only [step, Option.ite_none_right_eq_some, Option.some.injEq] at hs
      obtain ⟨-, rfl⟩ := hs
      exact reported_initDone K t iter
    | delete obj =>
      cases hs
      cases ho : K.uid obj with
      | none => simpa [handleEvent, ho] using reported_nil t t rfl
      | some uid => simpa [handleEvent, ho] using reported_del t uid

end WatcherTask

namespace Pipeline

variable {Obj : Type} [DecidableEq ν]

/-- The writes emitted since batch `j`. -/
def emittedSince (j : ℕ) (p : Pipeline ν) : List (Write Uid (RowJson ν)) :=
  (p.emitted.drop j).flatten.flatMap ResourceDelta.writes

/-- What is between the cache and a consumer that has applied the first `j` batches. -/
def flight (j : ℕ) (p : Pipeline ν) : Effect Uid (RowJson ν) :=
  andThen (effect (p.emittedSince j))
    (andThen (mapEffect Row.json (pending p.dirty)) (callsEffect p.todo))

structure Sound (p : Pipeline ν) : Prop where
  isOpen : p.dirty.closed = false
  separate : Separate p.dirty
  pending : Keyed (mapEffect Row.json (pending p.dirty))
  todo : CallsKeyed p.todo
  cache : ∀ u row, p.task.cache.lookup u = some row → row.uid = u

omit [DecidableEq ν] in
theorem sound_start : Sound (start : Pipeline ν) where
  isOpen := rfl
  separate := by simp [start, new, Separate]
  pending := by
    intro u row h
    simp [start, new, mapEffect, DirtyChannel.pending, deltaAt] at h
  todo := by simp [start, CallsKeyed]
  cache u row h := by simp [start, WatcherTask.start] at h

omit [DecidableEq ν] in
theorem pending_perform {s : DirtyState (Row ν)} (ho : s.closed = false) (c : ChannelCall ν) :
    mapEffect Row.json (DirtyChannel.pending (c.perform s)) =
      andThen (mapEffect Row.json (DirtyChannel.pending s)) (callsEffect [c]) := by
  cases c with
  | write w =>
    simp [ChannelCall.perform, pending_record s w ho, mapEffect_andThen, callsEffect,
      ChannelCall.writes, effectAt_map]
  | markInitDone => simp [ChannelCall.perform, callsEffect, ChannelCall.writes]

omit [DecidableEq ν] in
theorem perform_closed (s : DirtyState (Row ν)) (c : ChannelCall ν) :
    (c.perform s).closed = s.closed := by
  cases c <;> simp [ChannelCall.perform]

omit [DecidableEq ν] in
theorem separate_perform {s : DirtyState (Row ν)} (h : Separate s) (c : ChannelCall ν) :
    Separate (c.perform s) := by
  cases c with
  | write w => exact separate_record h w
  | markInitDone => exact separate_markInitDone h

omit [DecidableEq ν] in
private theorem writes_upserts {m : Table Uid (Row ν)}
    (hm : ∀ u row, m.lookup u = some row → row.json.uid = u) (l : List Uid) :
    (l.filterMap fun uid => (m.lookup uid).map fun row => ResourceDelta.upsert row.json).flatMap
      ResourceDelta.writes = (puts m l).map (Write.map Row.json) := by
  induction l with
  | nil => rfl
  | cons u l ih =>
    cases hu : m.lookup u with
    | none => simpa [puts, hu] using ih
    | some row =>
      simp only [puts, List.filterMap_cons, hu, Option.map_some, List.flatMap_cons, List.map_cons,
        ResourceDelta.writes, Write.map, hm u row hu, List.singleton_append]
      exact congrArg _ ih

omit [DecidableEq ν] in
/-- An emitted batch does what the drained batch says. -/
theorem effect_emitBatch {b : DrainedBatch (Row ν)} (hb : Keyed (mapEffect Row.json b.effect))
    (hd : ∀ u ∈ b.deletes, u ∉ b.upserts) {ui ei : List Uid}
    (hui : Enumerates ui b.upserts.keys) (hei : Enumerates ei b.deletes) :
    effect ((emitBatch b ui ei).flatMap ResourceDelta.writes) = mapEffect Row.json b.effect := by
  have hkey : ∀ u row, b.upserts.lookup u = some row → row.json.uid = u := by
    intro u row hu
    have hn : u ∉ b.deletes := by
      intro hdel
      rw [Finmap.lookup_eq_none.mpr (hd u hdel)] at hu
      cases hu
    exact hb u row.json (by simp [mapEffect, DrainedBatch.effect, deltaAt, hn, hu])
  have hdels : (ei.map ResourceDelta.delete).flatMap ResourceDelta.writes =
      (ei.map Write.del : List (Write Uid (RowJson ν))) := by
    rw [List.flatMap_map]
    simp only [ResourceDelta.writes, ← List.map_eq_flatMap]
  have hinit : (if b.initDone then [ResourceDelta.initDone] else [] : List (ResourceDelta ν)).flatMap
      ResourceDelta.writes = [] := by
    cases b.initDone <;> rfl
  rw [emitBatch, List.flatMap_append, List.flatMap_append, hinit, List.append_nil, hdels,
    writes_upserts hkey, effect_append, effect_map]
  funext u
  simp only [andThen, effect_dels, hei.mem_iff, mapEffect, effect_puts_keys _ hui]
  by_cases hu : u ∈ b.deletes <;> simp [DrainedBatch.effect, deltaAt, hu]

omit [DecidableEq ν] in
theorem keyed_of_splits {f given kept : Effect Uid (Row ν)} (hf : Keyed (mapEffect Row.json f))
    (h : Splits f given kept) : Keyed (mapEffect Row.json given) ∧ Keyed (mapEffect Row.json kept) := by
  constructor
  · intro u row hu
    rcases h u with ⟨hg, -⟩ | ⟨hg, -⟩
    · exact hf u row (by simpa only [mapEffect, hg] using hu)
    · simp [mapEffect, hg] at hu
  · intro u row hu
    rcases h u with ⟨-, hk⟩ | ⟨-, hk⟩
    · simp [mapEffect, hk] at hu
    · exact hf u row (by simpa only [mapEffect, hk] using hu)

omit [DecidableEq ν] in
theorem effect_of_isEmpty {b : DrainedBatch (Row ν)} (h : b.isEmpty = true) :
    b.effect = fun _ => none := by
  simp only [DrainedBatch.isEmpty, Bool.and_eq_true, decide_eq_true_eq] at h
  obtain ⟨⟨hups, hdels⟩, -⟩ := h
  funext u
  have hn : b.upserts.lookup u = none := by
    rw [Finmap.lookup_eq_none, ← Finmap.mem_keys, hups]
    simp
  simp [DrainedBatch.effect, deltaAt, hdels, hn]

/-- Everything a step does: it moves the cache by `g` and adds `g` to what is in flight. -/
structure Moves (p p' : Pipeline ν) (g : Effect Uid (RowJson ν)) : Prop where
  sound : Sound p'
  emitted : p.emitted.length ≤ p'.emitted.length
  cache : p'.task.cache.lookup = overlay g p.task.cache.lookup
  flight : ∀ j ≤ p.emitted.length, flight j p' = andThen (flight j p) g

theorem moves_input {K : KindSpec Obj ν} {p p' : Pipeline ν} {i : WatcherTask.Input Obj}
    (h : Sound p) (hs : step K p (.input i) = some p') :
    Moves p p' (callsEffect p'.todo) := by
  simp only [step, Option.ite_none_right_eq_some, Option.map_eq_some_iff] at hs
  obtain ⟨hidle, r, hr, rfl⟩ := hs
  have hnil : p.todo = [] := List.isEmpty_iff.mp hidle
  have hrep := WatcherTask.reported_step hr
  refine ⟨⟨h.isOpen, h.separate, h.pending, hrep.keyed, ?_⟩, le_rfl, hrep.cache, fun j _ => ?_⟩
  · intro u row hu
    exact hrep.keyed.effect.overlay h.cache u row (by rw [← hrep.cache]; exact hu)
  · have hflight : flight j p =
        andThen (effect (p.emittedSince j)) (mapEffect Row.json (DirtyChannel.pending p.dirty)) := by
      rw [flight, hnil]
      simp [callsEffect]
    rw [hflight, andThen_assoc]
    rfl

theorem moves_call {K : KindSpec Obj ν} {p p' : Pipeline ν} (h : Sound p)
    (hs : step K p (.call : Action Obj) = some p') : Moves p p' fun _ => none := by
  cases htodo : p.todo with
  | nil => simp [step, htodo] at hs
  | cons c cs =>
    simp only [step, htodo, Option.some.injEq] at hs
    subst hs
    have hcons : callsEffect p.todo = andThen (callsEffect [c]) (callsEffect cs) := by
      rw [htodo, ← callsEffect_append]
      rfl
    have hc : CallsKeyed [c] := fun u row hm => h.todo u row (by simp_all)
    have hcs : CallsKeyed cs := fun u row hm => h.todo u row (by simp [htodo, hm])
    have hpend := pending_perform h.isOpen c
    refine ⟨⟨?_, separate_perform h.separate c, ?_, hcs, h.cache⟩, le_rfl, ?_, fun j _ => ?_⟩
    · rw [perform_closed]
      exact h.isOpen
    · rw [hpend]
      exact h.pending.andThen hc.effect
    · funext u
      simp [overlay]
    · rw [andThen_none, flight, flight, hcons, hpend, andThen_assoc]
      rfl

omit [DecidableEq ν] in
theorem emittedSince_concat {p p' : Pipeline ν} {batch : List (ResourceDelta ν)}
    (h : p'.emitted = p.emitted ++ [batch]) {j : ℕ} (hj : j ≤ p.emitted.length) :
    p'.emittedSince j = p.emittedSince j ++ batch.flatMap ResourceDelta.writes := by
  simp [emittedSince, h, List.drop_append_of_le_length hj]

theorem moves_drain {K : KindSpec Obj ν} {p p' : Pipeline ν} {max : ℕ} {di ci ui ei : List Uid}
    (h : Sound p) (hs : step K p (.drain max di ci ui ei : Action Obj) = some p') :
    Moves p p' fun _ => none := by
  simp only [step, Option.ite_none_right_eq_some, Option.some.injEq] at hs
  obtain ⟨⟨hdi, -, hui, hei⟩, rfl⟩ := hs
  have hd : Drained p.dirty max (drainCapped p.dirty max di ci) :=
    drainCapped_drained h.separate hdi max
  generalize drainCapped p.dirty max di ci = r at hd hui hei
  have hgiven : Keyed (mapEffect Row.json r.1.effect) := (keyed_of_splits h.pending hd.splits).1
  have hkept : Keyed (mapEffect Row.json (DirtyChannel.pending r.2)) :=
    (keyed_of_splits h.pending hd.splits).2
  have hsplit : mapEffect Row.json (DirtyChannel.pending p.dirty) =
      andThen (mapEffect Row.json r.1.effect) (mapEffect Row.json (DirtyChannel.pending r.2)) := by
    rw [← mapEffect_andThen, hd.splits.andThen_eq]
  have hnone : overlay (fun _ => none) p.task.cache.lookup = p.task.cache.lookup := by
    funext u
    simp [overlay]
  refine ⟨⟨hd.closed.trans h.isOpen, hd.separate, hkept, h.todo, h.cache⟩, ?_, hnone.symm, ?_⟩
  · dsimp only
    split_ifs <;> simp
  · intro j hj
    rw [andThen_none, flight, flight, hsplit, andThen_assoc, ← andThen_assoc (effect (p.emittedSince j))]
    congr 1
    cases hempty : r.1.isEmpty with
    | true =>
      rw [effect_of_isEmpty hempty]
      simp [emittedSince]
    | false =>
      rw [emittedSince_concat rfl hj, effect_append, effect_emitBatch hgiven hd.disjoint hui hei]

theorem moves_step {K : KindSpec Obj ν} {p p' : Pipeline ν} {a : Action Obj} (h : Sound p)
    (hs : step K p a = some p') : ∃ g, Moves p p' g := by
  cases a with
  | input i => exact ⟨_, moves_input h hs⟩
  | call => exact ⟨_, moves_call h hs⟩
  | drain max di ci ui ei => exact ⟨_, moves_drain h hs⟩

/-- All that is in flight is already in the cache. -/
structure Settled (p : Pipeline ν) : Prop where
  sound : Sound p
  fixed : overlay (flight 0 p) p.task.cache.lookup = p.task.cache.lookup

theorem settled_run {K : KindSpec Obj ν} {p : Pipeline ν} {as : List (Action Obj)}
    (h : run (step K) start as = some p) : Settled p := by
  have hstart : Settled (start : Pipeline ν) := by
    refine ⟨sound_start, ?_⟩
    funext u
    simp [start, flight, emittedSince, callsEffect, overlay, mapEffect, new, DirtyChannel.pending,
      deltaAt, WatcherTask.start]
  refine run_invariant (fun s a t hs hst => ?_) hstart h
  obtain ⟨g, hg⟩ := moves_step hs.sound hst
  refine ⟨hg.sound, ?_⟩
  rw [hg.flight 0 (Nat.zero_le _), hg.cache]
  exact overlay_andThen_fixed hs.fixed

omit [DecidableEq ν] in
theorem Settled.fixed_since {p : Pipeline ν} (h : Settled p) (j : ℕ) :
    overlay (flight j p) p.task.cache.lookup = p.task.cache.lookup := by
  have hsplit : p.emittedSince 0 =
      (p.emitted.take j).flatten.flatMap ResourceDelta.writes ++ p.emittedSince j := by
    rw [emittedSince, emittedSince, ← List.flatMap_append, ← List.flatten_append,
      List.take_append_drop, List.drop_zero]
  have hfixed := h.fixed
  rw [flight, hsplit, effect_append, andThen_assoc] at hfixed
  exact overlay_eq_of_andThen hfixed

/-- A consumer seeded with the cache at one point catches up with every later cache. -/
structure CatchesUp (j : ℕ) (m : Uid → Option (RowJson ν)) (q : Pipeline ν) : Prop where
  sound : Sound q
  since : j ≤ q.emitted.length
  reached : overlay (flight j q) m = q.task.cache.lookup

theorem catchesUp_run {K : KindSpec Obj ν} {p q : Pipeline ν} {as : List (Action Obj)} {j : ℕ}
    (hp : Settled p) (hj : j ≤ p.emitted.length) (h : run (step K) p as = some q) :
    CatchesUp j p.task.cache.lookup q := by
  refine run_invariant (fun s a t hs hst => ?_) ⟨hp.sound, hj, hp.fixed_since j⟩ h
  obtain ⟨g, hg⟩ := moves_step hs.sound hst
  refine ⟨hg.sound, hs.since.trans hg.emitted, ?_⟩
  rw [hg.flight j hs.since, overlay_andThen, hs.reached, hg.cache]

omit [DecidableEq ν] in
theorem seed_snapshot {t : WatcherTask ν} (ht : ∀ u row, t.cache.lookup u = some row → row.uid = u)
    {iter : List Uid} (hi : Enumerates iter t.cache.keys) : seed (t.snapshot iter) = t.cache := by
  have hfold : ∀ (l : List Uid) (m : Table Uid (RowJson ν)),
      (l.filterMap t.cache.lookup).foldl (fun m row => m.insert row.uid row) m =
        (puts t.cache l).foldl applyWrite m := by
    intro l
    induction l with
    | nil => exact fun m => rfl
    | cons u l ih =>
      intro m
      cases hu : t.cache.lookup u with
      | none => simpa [puts, hu] using ih m
      | some row => simpa [puts, hu, applyWrite, ht u row hu] using ih (m.insert u row)
  exact (hfold iter ∅).trans (foldl_puts_empty t.cache hi)

/-- Convergence. A consumer takes a snapshot at any point `p` of a run, applies the batches
from the `j`-th on, which may start before the snapshot, and then what is still pending once
the task is between two events: its rows are the cache. -/
theorem consumer_converges {K : KindSpec Obj ν} {before after : List (Action Obj)}
    {p q : Pipeline ν} (hp : run (step K) start before = some p)
    (hq : run (step K) p after = some q) (hidle : q.todo = []) {j : ℕ}
    (hj : j ≤ p.emitted.length) {snap ui di : List Uid}
    (hsnap : Enumerates snap p.task.cache.keys) (hui : Enumerates ui q.dirty.changed.keys)
    (hdi : Enumerates di q.dirty.deleted) :
    ((q.emitted.drop j).flatten ++ emitBatch (drain q.dirty).1 ui di).foldl applyDelta
      (seed (p.task.snapshot snap)) = q.task.cache := by
  have hset := settled_run hp
  have hup := catchesUp_run hset hj hq
  rw [seed_snapshot hset.sound.cache hsnap]
  apply table_ext
  have hdrained := drain_drained hup.sound.separate (.inl rfl : (0 : ℕ) = 0 ∨ _)
  have hlast : effect ((emitBatch (drain q.dirty).1 ui di).flatMap ResourceDelta.writes) =
      mapEffect Row.json (DirtyChannel.pending q.dirty) :=
    effect_emitBatch hup.sound.pending hdrained.disjoint hui hdi
  have hflight : flight j q =
      andThen (effect (q.emittedSince j)) (mapEffect Row.json (DirtyChannel.pending q.dirty)) := by
    rw [flight, hidle]
    simp [callsEffect]
  rw [lookup_foldl_applyDelta, List.flatMap_append, effect_append, hlast, ← hup.reached, hflight]
  rfl

/-- Up to a point between the cache write and the record of `b`. -/
def sampleBefore : List (Action (String × ℕ)) :=
  [.input (.event .init []), .input (.event (.initApply ("a", 1)) []), .call,
    .drain 1 [] ["a"] ["a"] [], .input (.event (.initApply ("b", 2)) [])]

/-- A drain, a suppressed apply and a relist that drops `a`. -/
def sampleAfter : List (Action (String × ℕ)) :=
  [.call, .drain 1 [] ["b"] ["b"] [], .input (.event .init []),
    .input (.event (.apply ("b", 2)) []), .input (.event (.initApply ("b", 2)) []),
    .input (.event .initDone ["b", "a"]), .call, .call]

theorem consumer_converges_sample :
    ∃ p q : Pipeline ℕ, run (step WatcherTask.sampleKind) start sampleBefore = some p ∧
      run (step WatcherTask.sampleKind) p sampleAfter = some q ∧
      (q.emitted.flatten ++ emitBatch (drain q.dirty).1 [] ["a"]).foldl applyDelta
        (seed (p.task.snapshot ["a", "b"])) = q.task.cache := by
  obtain ⟨p, q, hp, hq, hidle, hsnap, hui, hdi⟩ : ∃ p q : Pipeline ℕ,
      run (step WatcherTask.sampleKind) start sampleBefore = some p ∧
      run (step WatcherTask.sampleKind) p sampleAfter = some q ∧ q.todo = [] ∧
      Enumerates ["a", "b"] p.task.cache.keys ∧ Enumerates [] q.dirty.changed.keys ∧
      Enumerates ["a"] q.dirty.deleted :=
    ⟨_, _, rfl, rfl, rfl, by decide, by decide, by decide⟩
  exact ⟨p, q, hp, hq, consumer_converges hp hq hidle (Nat.zero_le _) hsnap hui hdi⟩

end Pipeline

end FerrisScope
