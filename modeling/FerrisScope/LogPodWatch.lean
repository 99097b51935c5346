import FerrisScope.LabelledRuns
import FerrisScope.WatcherLoop

/-!
# The pod set behind a log panel

The watch of a workload's pods remembers the containers it last announced for each pod and
announces only changes to that memory. Its events go through a broadcast ring: a receiver that
falls more than the ring behind loses the oldest ones. A relist compares the listed pods with
the memory, not with what was received, so it repairs only what the memory itself has wrong.
-/

namespace FerrisScope.LogPodWatch
open KeyedWrites LabelledRuns

inductive LogContainerKind where
  | init
  | sidecar
  | main
  deriving DecidableEq, Repr

structure LogContainer where
  name : String
  kind : LogContainerKind
  deriving DecidableEq, Repr

structure Container where
  name : String
  restartPolicy : Option String

structure PodSpec where
  initContainers : Option (List Container)
  containers : List Container

structure Pod where
  ns : Option String
  name : Option String
  spec : Option PodSpec

structure ResolvedLogPod where
  ns : String
  name : String
  containers : List LogContainer
  deriving DecidableEq, Repr

def logContainers (pod : Pod) : List LogContainer :=
  match pod.spec with
  | none => []
  | some spec =>
      (spec.initContainers.getD []).map (fun c =>
        ⟨c.name, if c.restartPolicy = some "Always" then .sidecar else .init⟩) ++
      spec.containers.map fun c => ⟨c.name, .main⟩

def resolvedFromPod (pod : Pod) : ResolvedLogPod :=
  ⟨pod.ns.getD "", pod.name.getD "", logContainers pod⟩

/-- Namespace and name. -/
abbrev PodKey := String × String

abbrev ContainerSet := List LogContainer

def ResolvedLogPod.key (pod : ResolvedLogPod) : PodKey := (pod.ns, pod.name)

inductive LogPodEvent where
  | added (pod : ResolvedLogPod)
  | removed (ns name : String)
  | initDone
  deriving DecidableEq, Repr

def upsertPod (seen : Table PodKey ContainerSet) (pod : ResolvedLogPod) :
    Table PodKey ContainerSet × List LogPodEvent :=
  if seen.lookup pod.key = some pod.containers then (seen, [])
  else (seen.insert pod.key pod.containers, [.added pod])

def removePod (seen : Table PodKey ContainerSet) (ns name : String) :
    Table PodKey ContainerSet × List LogPodEvent :=
  if (ns, name) ∈ seen then (seen.erase (ns, name), [.removed ns name]) else (seen, [])

structure WatchTask where
  seen : Table PodKey ContainerSet
  initKeys : Option (Finset PodKey)

def WatchTask.start : WatchTask := ⟨∅, none⟩

/-- The removals of a relist, one after the other. -/
def removeStale (seen : Table PodKey ContainerSet) :
    List PodKey → Table PodKey ContainerSet × List LogPodEvent
  | [] => (seen, [])
  | key :: stale =>
      let r := removePod seen key.1 key.2
      let u := removeStale r.1 stale
      (u.1, r.2 ++ u.2)

/-- One event of the stream, with the iteration order of `seen`: the events sent. -/
def handleEvent (t : WatchTask) (iter : List PodKey) : WatchEvent Pod → WatchTask × List LogPodEvent
  | .init => ({ t with initKeys := some ∅ }, [])
  | .initApply pod =>
      let r := resolvedFromPod pod
      let u := upsertPod t.seen r
      (⟨u.1, t.initKeys.map (insert r.key)⟩, u.2)
  | .apply pod =>
      let u := upsertPod t.seen (resolvedFromPod pod)
      ({ t with seen := u.1 }, u.2)
  | .delete pod =>
      let u := removePod t.seen (pod.ns.getD "") (pod.name.getD "")
      ({ t with seen := u.1 }, u.2)
  | .initDone => match t.initKeys with
      | none => (t, [.initDone])
      | some keys =>
          let u := removeStale t.seen (iter.filter (· ∉ keys))
          (⟨u.1, none⟩, u.2 ++ [.initDone])
  | .err => (t, [])

def eventBuffer : ℕ := 256

/-- The watch task with the events it has still to send, all events sent to the ring, the next
one the receiver reads, and what it has forwarded. -/
structure Bridge where
  task : WatchTask
  todo : List LogPodEvent
  sent : List LogPodEvent
  cursor : ℕ
  received : List LogPodEvent

def Bridge.start : Bridge := ⟨.start, [], [], 0, []⟩

inductive Action where
  | event (e : WatchEvent Pod) (iter : List PodKey)
  | send
  | recv

/-- The receiver has fallen out of the ring. -/
def Bridge.Lagged (b : Bridge) : Prop := b.cursor + eventBuffer < b.sent.length

instance (b : Bridge) : Decidable b.Lagged := inferInstanceAs (Decidable (_ < _))

/-- A lagged receiver is moved to the oldest event still in the ring. -/
def step (b : Bridge) : Action → Option Bridge
  | .event e iter => if b.todo.isEmpty ∧ Enumerates iter b.task.seen.keys then
      let r := handleEvent b.task iter e
      some { b with task := r.1, todo := r.2 }
      else none
  | .send => match b.todo with
      | [] => none
      | e :: es => some { b with todo := es, sent := b.sent ++ [e] }
  | .recv => if b.Lagged then some { b with cursor := b.sent.length - eventBuffer }
      else match b.sent[b.cursor]? with
        | none => none
        | some e => some { b with cursor := b.cursor + 1, received := b.received ++ [e] }

/-- The fold of the consumer. -/
def applyEvent (pods : Table PodKey ContainerSet) : LogPodEvent → Table PodKey ContainerSet
  | .added pod => pods.insert pod.key pod.containers
  | .removed ns name => pods.erase (ns, name)
  | .initDone => pods

def frontend (events : List LogPodEvent) : Table PodKey ContainerSet :=
  events.foldl applyEvent ∅

/-- The events of the stream among the actions of a run. -/
def watchEvents (as : List Action) : List (WatchEvent Pod) :=
  as.filterMap fun
    | .event e _ => some e
    | _ => none

/-- The pods of a list, among its events. -/
def listing (es : List (WatchEvent Pod)) : List ResolvedLogPod :=
  es.filterMap fun
    | .initApply pod => some (resolvedFromPod pod)
    | _ => none

/-- What follows the `Init` of a complete list: its pages, errors of the stream, `InitDone`. -/
def CompletesList (es : List (WatchEvent Pod)) : Prop :=
  ∃ body, es = body ++ [.initDone] ∧ ∀ e ∈ body, e = .err ∨ ∃ pod, e = .initApply pod

/-- The listed pods with their containers. -/
def listed (pods : List ResolvedLogPod) : Table PodKey ContainerSet :=
  pods.foldl (fun m pod => m.insert pod.key pod.containers) ∅

/-- What a relist can repair. A pod listed only with the containers the watch has announced last
has been received so, and a pod that is neither listed nor remembered is not shown. -/
structure Repairable (shown seen : Table PodKey ContainerSet) (pods : List ResolvedLogPod) : Prop where
  announced : ∀ pod ∈ pods,
    (∀ other ∈ pods, other.key = pod.key → seen.lookup pod.key = some other.containers) →
      shown.lookup pod.key = seen.lookup pod.key
  gone : ∀ key, (∀ pod ∈ pods, pod.key ≠ key) → seen.lookup key = none → shown.lookup key = none

def LogPodEvent.writes : LogPodEvent → List (Write PodKey ContainerSet)
  | .added pod => [.put pod.key pod.containers]
  | .removed ns name => [.del (ns, name)]
  | .initDone => []

/-- What the events leave at each pod. -/
def eventsEffect (es : List LogPodEvent) : Effect PodKey ContainerSet :=
  effect (es.flatMap LogPodEvent.writes)

@[simp] theorem eventsEffect_nil : eventsEffect [] = fun _ => none := rfl

theorem eventsEffect_append (es ds : List LogPodEvent) :
    eventsEffect (es ++ ds) = andThen (eventsEffect es) (eventsEffect ds) := by
  rw [eventsEffect, List.flatMap_append, effect_append]
  rfl

@[simp] theorem eventsEffect_added (pod : ResolvedLogPod) :
    eventsEffect [.added pod] = effectAt (.put pod.key pod.containers) := by
  simp [eventsEffect, LogPodEvent.writes]

@[simp] theorem eventsEffect_removed (ns name : String) :
    eventsEffect [.removed ns name] = effectAt (.del (ns, name)) := by
  simp [eventsEffect, LogPodEvent.writes]

@[simp] theorem eventsEffect_initDone : eventsEffect [.initDone] = fun _ => none := by
  simp [eventsEffect, LogPodEvent.writes]

theorem lookup_frontend (es : List LogPodEvent) :
    (frontend es).lookup = overlay (eventsEffect es) fun _ => none := by
  have hfold : (es.foldl applyEvent ∅).lookup =
      overlay (effect (es.flatMap LogPodEvent.writes)) (∅ : Table PodKey ContainerSet).lookup :=
    lookup_foldl_of_writes (fun m e => by cases e <;> rfl) es ∅
  rw [frontend, hfold]
  funext key
  simp [overlay, eventsEffect]

/-- The memory changes exactly as the events sent say. -/
def Announced (seen seen' : Table PodKey ContainerSet) (es : List LogPodEvent) : Prop :=
  seen'.lookup = overlay (eventsEffect es) seen.lookup

theorem announced_nil (seen : Table PodKey ContainerSet) : Announced seen seen [] := by
  funext key
  simp [overlay]

theorem Announced.trans {s s' s'' : Table PodKey ContainerSet} {es ds : List LogPodEvent}
    (h : Announced s s' es) (h' : Announced s' s'' ds) : Announced s s'' (es ++ ds) := by
  rw [Announced, eventsEffect_append, overlay_andThen, ← show s'.lookup = _ from h]
  exact h'

theorem announced_upsertPod (seen : Table PodKey ContainerSet) (pod : ResolvedLogPod) :
    Announced seen (upsertPod seen pod).1 (upsertPod seen pod).2 := by
  unfold upsertPod
  split_ifs
  · exact announced_nil seen
  · rw [Announced, eventsEffect_added]
    exact lookup_applyWrite seen (.put pod.key pod.containers)

theorem announced_removePod (seen : Table PodKey ContainerSet) (ns name : String) :
    Announced seen (removePod seen ns name).1 (removePod seen ns name).2 := by
  unfold removePod
  split_ifs
  · rw [Announced, eventsEffect_removed]
    exact lookup_applyWrite seen (.del (ns, name))
  · exact announced_nil seen

theorem announced_removeStale (stale : List PodKey) (seen : Table PodKey ContainerSet) :
    Announced seen (removeStale seen stale).1 (removeStale seen stale).2 := by
  induction stale generalizing seen with
  | nil => exact announced_nil seen
  | cons key stale ih => exact (announced_removePod seen key.1 key.2).trans (ih _)

theorem announced_handleEvent (t : WatchTask) (iter : List PodKey) (e : WatchEvent Pod) :
    Announced t.seen (handleEvent t iter e).1.seen (handleEvent t iter e).2 := by
  cases e with
  | init => exact announced_nil t.seen
  | initApply pod => exact announced_upsertPod t.seen (resolvedFromPod pod)
  | apply pod => exact announced_upsertPod t.seen (resolvedFromPod pod)
  | delete pod => exact announced_removePod t.seen _ _
  | err => exact announced_nil t.seen
  | initDone =>
    have hdone : Announced t.seen t.seen [.initDone] := by
      rw [Announced, eventsEffect_initDone]
      funext key
      simp [overlay]
    cases hk : t.initKeys with
    | none => simpa [handleEvent, hk] using hdone
    | some keys =>
      have hstale := announced_removeStale (iter.filter (· ∉ keys)) t.seen
      simp only [handleEvent, hk]
      rw [Announced, eventsEffect_append, eventsEffect_initDone, andThen_none]
      exact hstale

/-- The relist announces the removal of the remembered pods among the stale ones. -/
theorem eventsEffect_removeStale (stale : List PodKey) (seen : Table PodKey ContainerSet)
    (key : PodKey) :
    eventsEffect (removeStale seen stale).2 key = if key ∈ stale ∧ key ∈ seen then some none else none := by
  induction stale generalizing seen with
  | nil => simp [removeStale]
  | cons k stale ih =>
    simp only [removeStale, eventsEffect_append, andThen, ih]
    unfold removePod
    by_cases hk : (k.1, k.2) ∈ seen
    · rw [if_pos hk]
      by_cases hkey : key = k
      · subst hkey
        simp [effectAt, hk]
      · simp [effectAt, hkey]
    · rw [if_neg hk]
      by_cases hkey : key = k
      · subst hkey
        simp [hk]
      · simp [hkey]

theorem lookup_listed_concat (pods : List ResolvedLogPod) (pod : ResolvedLogPod) (key : PodKey) :
    (listed (pods ++ [pod])).lookup key =
      if key = pod.key then some pod.containers else (listed pods).lookup key := by
  rw [listed, List.foldl_append, List.foldl_cons, List.foldl_nil]
  by_cases hk : key = pod.key
  · subst hk
    simp
  · rw [if_neg hk, Finmap.lookup_insert_of_ne _ hk]
    rfl

theorem lookup_listed_eq_none {pods : List ResolvedLogPod} {key : PodKey} :
    (listed pods).lookup key = none ↔ ∀ pod ∈ pods, pod.key ≠ key := by
  induction pods using List.reverseRecOn with
  | nil => simp [listed]
  | append_singleton pods pod ih =>
    rw [lookup_listed_concat]
    by_cases hk : key = pod.key
    · subst hk
      simp
    · have hne : pod.key ≠ key := fun h => hk h.symm
      simp [hk, hne, ih, or_imp, forall_and]

/-- The task in the middle of a list: `seen₀` at its start, the pods listed so far, the events
sent since. -/
structure Listing (seen₀ : Table PodKey ContainerSet) (pods : List ResolvedLogPod) (t : WatchTask)
    (out : List LogPodEvent) : Prop where
  initKeys : t.initKeys = some (pods.map ResolvedLogPod.key).toFinset
  announced : Announced seen₀ t.seen out
  current : ∀ key, t.seen.lookup key = ((listed pods).lookup key).or (seen₀.lookup key)
  silent : ∀ key, eventsEffect out key = none ↔
    ∀ pod ∈ pods, pod.key = key → seen₀.lookup key = some pod.containers

theorem listing_init (t : WatchTask) (iter : List PodKey) :
    Listing t.seen [] (handleEvent t iter .init).1 (handleEvent t iter .init).2 where
  initKeys := rfl
  announced := announced_nil t.seen
  current key := by simp [handleEvent, listed]
  silent key := by simp [handleEvent]

theorem Listing.initApply {seen₀ : Table PodKey ContainerSet} {pods : List ResolvedLogPod}
    {t : WatchTask} {out : List LogPodEvent} (h : Listing seen₀ pods t out) (iter : List PodKey)
    (obj : Pod) :
    Listing seen₀ (pods ++ [resolvedFromPod obj]) (handleEvent t iter (.initApply obj)).1
      (out ++ (handleEvent t iter (.initApply obj)).2) := by
  have hann := h.announced.trans (announced_handleEvent t iter (.initApply obj))
  simp only [handleEvent] at hann ⊢
  generalize resolvedFromPod obj = pod at hann ⊢
  have hinit : Option.map (insert pod.key) t.initKeys =
      some ((pods ++ [pod]).map ResolvedLogPod.key).toFinset := by
    rw [h.initKeys]
    ext key
    simp
  by_cases hsame : t.seen.lookup pod.key = some pod.containers
  · have hup : upsertPod t.seen pod = (t.seen, []) := if_pos hsame
    rw [hup] at hann ⊢
    refine ⟨hinit, hann, fun key => ?_, fun key => ?_⟩
    · rw [lookup_listed_concat]
      by_cases hk : key = pod.key
      · subst hk
        simpa using hsame
      · rw [if_neg hk, h.current]
    · rw [List.append_nil, h.silent key]
      constructor
      · intro hall other hother hkey
        rcases List.mem_append.mp hother with hmem | hmem
        · exact hall other hmem hkey
        · obtain rfl := List.mem_singleton.mp hmem
          subst hkey
          have hsilent := (h.silent other.key).mpr hall
          have hseen := congrFun h.announced other.key
          simpa [overlay, hsilent, hsame] using hseen.symm
      · exact fun hall other hother => hall other (List.mem_append_left _ hother)
  · have hup : upsertPod t.seen pod = (t.seen.insert pod.key pod.containers, [.added pod]) :=
      if_neg hsame
    rw [hup] at hann ⊢
    refine ⟨hinit, hann, fun key => ?_, fun key => ?_⟩
    · rw [lookup_listed_concat]
      by_cases hk : key = pod.key
      · subst hk
        simp
      · rw [if_neg hk, Finmap.lookup_insert_of_ne _ hk, h.current]
    · rw [eventsEffect_append, eventsEffect_added]
      by_cases hk : key = pod.key
      · subst hk
        have hnot : ¬ ∀ other ∈ pods ++ [pod], other.key = pod.key →
            seen₀.lookup pod.key = some other.containers := by
          intro hall
          have hold : eventsEffect out pod.key = none :=
            (h.silent pod.key).mpr fun other hother =>
              hall other (List.mem_append_left _ hother)
          have hseen := congrFun h.announced pod.key
          apply hsame
          rw [hseen, overlay, hold, Option.getD_none]
          exact hall pod (by simp) rfl
        refine iff_of_false ?_ hnot
        simp [andThen, effectAt]
      · have hne : pod.key ≠ key := fun h => hk h.symm
        have heff : andThen (eventsEffect out) (effectAt (.put pod.key pod.containers)) key =
            eventsEffect out key := by
          simp [andThen, effectAt, hk]
        rw [heff, h.silent key]
        simp [or_imp, forall_and, hne]

/-- One event of the stream while the task is idle, with the events sent so far. -/
def taskStep (acc : WatchTask × List LogPodEvent) (i : WatchEvent Pod × List PodKey) :
    Option (WatchTask × List LogPodEvent) :=
  if Enumerates i.2 acc.1.seen.keys then
    some ((handleEvent acc.1 i.2 i.1).1, acc.2 ++ (handleEvent acc.1 i.2 i.1).2)
  else none

/-- The events of a run with their iteration orders. -/
def inputs (as : List Action) : List (WatchEvent Pod × List PodKey) :=
  as.filterMap fun
    | .event e iter => some (e, iter)
    | _ => none

theorem watchEvents_eq (as : List Action) : watchEvents as = (inputs as).map Prod.fst := by
  rw [watchEvents, inputs, List.map_filterMap]
  congr 1
  funext a
  cases a <;> rfl

/-- Sending and receiving change neither the task nor what it sends in all. -/
theorem run_taskStep {b b' : Bridge} {as : List Action} (h : run step b as = some b') :
    run taskStep (b.task, b.sent ++ b.todo) (inputs as) = some (b'.task, b'.sent ++ b'.todo) := by
  induction as generalizing b with
  | nil =>
    cases h
    rfl
  | cons a as ih =>
    obtain ⟨c, hc, hr⟩ := run_cons_eq_some.mp h
    have hrest := ih hr
    cases a with
    | event e iter =>
      simp only [step, Option.ite_none_right_eq_some, Option.some.injEq] at hc
      obtain ⟨⟨hidle, hiter⟩, rfl⟩ := hc
      have htodo : b.todo = [] := List.isEmpty_iff.mp hidle
      have hinputs : inputs (.event e iter :: as) = (e, iter) :: inputs as := rfl
      rw [hinputs, run_cons_eq_some]
      exact ⟨_, if_pos hiter, by simpa [htodo] using hrest⟩
    | send =>
      cases htodo : b.todo with
      | nil => simp [step, htodo] at hc
      | cons e es =>
        simp only [step, htodo, Option.some.injEq] at hc
        subst hc
        simpa [inputs] using hrest
    | recv =>
      simp only [step] at hc
      split_ifs at hc
      · cases hc
        exact hrest
      · split at hc
        · cases hc
        · cases hc
          exact hrest

theorem Listing.run {seen₀ : Table PodKey ContainerSet} {pods : List ResolvedLogPod}
    {t : WatchTask} (pre : List LogPodEvent) {out : List LogPodEvent} (h : Listing seen₀ pods t out)
    {is : List (WatchEvent Pod × List PodKey)}
    (his : ∀ i ∈ is, i.1 = .err ∨ ∃ pod, i.1 = .initApply pod) {acc : WatchTask × List LogPodEvent}
    (hr : LabelledRuns.run taskStep (t, pre ++ out) is = some acc) :
    ∃ out', acc.2 = pre ++ out' ∧ Listing seen₀ (pods ++ listing (is.map Prod.fst)) acc.1 out' := by
  induction is generalizing pods t out with
  | nil =>
    cases hr
    exact ⟨out, rfl, by simpa [listing] using h⟩
  | cons i is ih =>
    obtain ⟨u, hu, hrest⟩ := run_cons_eq_some.mp hr
    obtain ⟨e, iter⟩ := i
    simp only [taskStep, Option.ite_none_right_eq_some, Option.some.injEq] at hu
    obtain ⟨-, rfl⟩ := hu
    have htail : ∀ i ∈ is, i.1 = .err ∨ ∃ pod, i.1 = .initApply pod :=
      fun i hi => his i (List.mem_cons_of_mem _ hi)
    rw [List.append_assoc] at hrest
    rcases his (e, iter) List.mem_cons_self with rfl | ⟨pod, rfl⟩
    · have hsame : Listing seen₀ pods (handleEvent t iter .err).1
          (out ++ (handleEvent t iter .err).2) := by
        simpa [handleEvent] using h
      simpa [listing] using ih hsame htail hrest
    · simpa [listing] using ih (h.initApply iter pod) htail hrest

/-- A complete list, as the events it sends: what they leave at a pod. -/
theorem Listing.initDone {seen₀ : Table PodKey ContainerSet} {pods : List ResolvedLogPod}
    {t : WatchTask} {out : List LogPodEvent} (h : Listing seen₀ pods t out) {iter : List PodKey}
    (hiter : Enumerates iter t.seen.keys) (key : PodKey) :
    eventsEffect (out ++ (handleEvent t iter .initDone).2) key =
      if (∀ pod ∈ pods, pod.key ≠ key) ∧ seen₀.lookup key ≠ none then some none
      else eventsEffect out key := by
  have hmem : key ∈ iter.filter (· ∉ (pods.map ResolvedLogPod.key).toFinset) ∧ key ∈ t.seen ↔
      (∀ pod ∈ pods, pod.key ≠ key) ∧ seen₀.lookup key ≠ none := by
    have hin : key ∈ t.seen ↔ t.seen.lookup key ≠ none := by
      rw [Ne, Finmap.lookup_eq_none, not_not]
    rw [List.mem_filter, hiter.mem_iff, Finmap.mem_keys, hin, h.current]
    have hkeys : decide (key ∉ (pods.map ResolvedLogPod.key).toFinset) = true ↔
        ∀ pod ∈ pods, pod.key ≠ key := by
      simp
    rw [hkeys]
    constructor
    · rintro ⟨⟨-, hnot⟩, hseen⟩
      rw [lookup_listed_eq_none.mpr hnot, Option.none_or] at hseen
      exact ⟨hnot, hseen⟩
    · rintro ⟨hnot, hseen⟩
      rw [lookup_listed_eq_none.mpr hnot, Option.none_or]
      exact ⟨⟨hseen, hnot⟩, hseen⟩
  simp only [handleEvent, h.initKeys]
  rw [eventsEffect_append, eventsEffect_append, eventsEffect_initDone, andThen_none, andThen,
    eventsEffect_removeStale]
  by_cases hstale : (∀ pod ∈ pods, pod.key ≠ key) ∧ seen₀.lookup key ≠ none
  · rw [if_pos (hmem.mpr hstale), if_pos hstale, Option.some_or]
  · rw [if_neg (fun hm => hstale (hmem.mp hm)), if_neg hstale, Option.none_or]

/-- What a complete list leaves of the pods shown before it. -/
theorem Listing.shown_iff {seen₀ : Table PodKey ContainerSet} {pods : List ResolvedLogPod}
    {t : WatchTask} {out : List LogPodEvent} (h : Listing seen₀ pods t out) {iter : List PodKey}
    (hiter : Enumerates iter t.seen.keys) (shown : Table PodKey ContainerSet) :
    overlay (eventsEffect (out ++ (handleEvent t iter .initDone).2)) shown.lookup =
      (listed pods).lookup ↔ Repairable shown seen₀ pods := by
  constructor
  · intro heq
    constructor
    · intro pod hpod hall
      have hkey := congrFun heq pod.key
      have hlisted : ¬ ∀ other ∈ pods, other.key ≠ pod.key := fun hn => hn pod hpod rfl
      have hsilent := (h.silent pod.key).mpr hall
      rw [overlay, h.initDone hiter, if_neg (fun hs => hlisted hs.1), hsilent, Option.getD_none] at hkey
      obtain ⟨c, hc⟩ := Option.ne_none_iff_exists'.mp (mt lookup_listed_eq_none.mp hlisted)
      have hseen := congrFun h.announced pod.key
      rw [h.current, hc, Option.some_or, overlay, hsilent, Option.getD_none] at hseen
      rw [hkey, hc, hseen]
    · intro key hnot hseen
      have hkey := congrFun heq key
      have hsilent : eventsEffect out key = none :=
        (h.silent key).mpr fun pod hpod hk => absurd hk (hnot pod hpod)
      rw [overlay, h.initDone hiter, if_neg (fun hs => hs.2 hseen), hsilent, Option.getD_none,
        lookup_listed_eq_none.mpr hnot] at hkey
      exact hkey
  · intro hrep
    funext key
    rw [overlay, h.initDone hiter]
    by_cases hnot : ∀ pod ∈ pods, pod.key ≠ key
    · have hsilent : eventsEffect out key = none :=
        (h.silent key).mpr fun pod hpod hk => absurd hk (hnot pod hpod)
      rw [lookup_listed_eq_none.mpr hnot]
      by_cases hseen : seen₀.lookup key = none
      · rw [if_neg (fun hs => hs.2 hseen), hsilent, Option.getD_none]
        exact hrep.gone key hnot hseen
      · rw [if_pos ⟨hnot, hseen⟩, Option.getD_some]
    · rw [if_neg (fun hs => hnot hs.1)]
      obtain ⟨c, hc⟩ := Option.ne_none_iff_exists'.mp (mt lookup_listed_eq_none.mp hnot)
      have hseen := congrFun h.announced key
      rw [h.current, hc, Option.some_or, overlay] at hseen
      cases hout : eventsEffect out key with
      | some left =>
        rw [hout, Option.getD_some] at hseen
        rw [hc, Option.getD_some, hseen]
      | none =>
        obtain ⟨pod, hpod, rfl⟩ : ∃ pod ∈ pods, pod.key = key := by
          simpa only [not_forall, not_not, exists_prop] using hnot
        rw [hout, Option.getD_none] at hseen
        rw [hc, Option.getD_none, hrep.announced pod hpod ((h.silent pod.key).mp hout), hseen]

/-- Resynchronisation. From any state of the bridge, a complete list is processed and all events
sent from its `Init` on are received; `early` is what was received of the events before it,
with any number of them lost. The pods shown then are the listed ones exactly when the list
could repair what was shown before. -/
theorem shown_eq_listed_iff {s t : Bridge} {iter : List PodKey} {as : List Action}
    (hr : run step s (.event .init iter :: as) = some t) (hlist : CompletesList (watchEvents as))
    (hidle : t.todo = []) {early : List LogPodEvent}
    (hreceived : t.received = early ++ t.sent.drop s.sent.length) :
    frontend t.received = listed (listing (watchEvents as)) ↔
      Repairable (frontend early) s.task.seen (listing (watchEvents as)) := by
  have htask := run_taskStep hr
  obtain ⟨b, hb, -⟩ := run_cons_eq_some.mp hr
  simp only [step, Option.ite_none_right_eq_some] at hb
  have htodo : s.todo = [] := List.isEmpty_iff.mp hb.1.1
  rw [hidle, htodo, List.append_nil, List.append_nil] at htask
  obtain ⟨acc, hacc, hrest⟩ := run_cons_eq_some.mp htask
  simp only [taskStep, Option.ite_none_right_eq_some, Option.some.injEq] at hacc
  obtain ⟨-, rfl⟩ := hacc
  obtain ⟨body, hbody, hevents⟩ := hlist
  rw [watchEvents_eq] at hbody
  obtain ⟨is, last, hinputs, his, hlast⟩ := List.map_eq_append_iff.mp hbody
  obtain ⟨⟨_, doneIter⟩, rfl, rfl⟩ := List.map_eq_singleton_iff.mp hlast
  change run taskStep _ (inputs as) = _ at hrest
  rw [hinputs] at hrest
  obtain ⟨mid, hmid, hdone⟩ := run_append_eq_some.mp hrest
  obtain ⟨out, hout, hl⟩ := (listing_init s.task iter).run s.sent
    (fun i hi => hevents i.1 (by rw [← his]; exact List.mem_map_of_mem hi)) hmid
  obtain ⟨u, hu, hend⟩ := run_cons_eq_some.mp hdone
  simp only [taskStep, Option.ite_none_right_eq_some, Option.some.injEq] at hu
  obtain ⟨hiter, rfl⟩ := hu
  simp only [run_nil, Option.some.injEq, Prod.mk.injEq] at hend
  have hsent : t.sent = s.sent ++ (out ++ (handleEvent mid.1 doneIter .initDone).2) := by
    rw [← hend.2, hout, List.append_assoc]
  have hlisting : listing (watchEvents as) = [] ++ listing (is.map Prod.fst) := by
    rw [watchEvents_eq, hinputs]
    simp [listing]
  have hshown : (frontend t.received).lookup = overlay
      (eventsEffect (out ++ (handleEvent mid.1 doneIter .initDone).2)) (frontend early).lookup := by
    rw [hreceived, hsent, List.drop_left, lookup_frontend, eventsEffect_append, overlay_andThen,
      ← lookup_frontend]
  rw [hlisting, ← hl.shown_iff hiter (frontend early), ← hshown]
  exact ⟨fun h => by rw [h], table_ext⟩

/-- Nothing has been lost: the receiver has forwarded all events up to its cursor, and the memory
is what the events announced in all leave. -/
structure Lossless (b : Bridge) : Prop where
  received : b.received = b.sent.take b.cursor
  cursor : b.cursor ≤ b.sent.length
  announced : b.task.seen.lookup = overlay (eventsEffect (b.sent ++ b.todo)) fun _ => none

theorem lossless_start : Lossless Bridge.start where
  received := rfl
  cursor := le_rfl
  announced := by
    funext key
    simp [Bridge.start, WatchTask.start, overlay]

theorem lossless_step {b c : Bridge} {a : Action} (hlag : a = .recv → ¬ b.Lagged) (h : Lossless b)
    (hs : step b a = some c) : Lossless c := by
  cases a with
  | event e iter =>
    simp only [step, Option.ite_none_right_eq_some, Option.some.injEq] at hs
    obtain ⟨⟨hidle, -⟩, rfl⟩ := hs
    refine ⟨h.received, h.cursor, ?_⟩
    have hold := h.announced
    rw [List.isEmpty_iff.mp hidle, List.append_nil] at hold
    rw [eventsEffect_append, overlay_andThen, ← hold]
    exact announced_handleEvent b.task iter e
  | send =>
    cases htodo : b.todo with
    | nil => simp [step, htodo] at hs
    | cons e es =>
      simp only [step, htodo, Option.some.injEq] at hs
      subst hs
      refine ⟨?_, ?_, ?_⟩
      · rw [List.take_append_of_le_length h.cursor]
        exact h.received
      · have hcursor := h.cursor
        simp only [List.length_append, List.length_singleton]
        omega
      · have hold := h.announced
        rw [htodo] at hold
        simpa using hold
  | recv =>
    simp only [step, if_neg (hlag rfl)] at hs
    split at hs
    · cases hs
    · next e he =>
      cases hs
      obtain ⟨hlt, hget⟩ := List.getElem?_eq_some_iff.mp he
      refine ⟨?_, hlt, h.announced⟩
      rw [h.received, List.take_succ_eq_append_getElem hlt, hget]

/-- Without lag the pods shown are the remembered ones each time the receiver has caught up. -/
theorem frontend_eq_seen {t : Bridge} {as : List Action}
    (hlag : Meets step (fun b a => a = .recv → ¬ b.Lagged) Bridge.start as)
    (hr : run step Bridge.start as = some t) (hidle : t.todo = []) (hall : t.cursor = t.sent.length) :
    frontend t.received = t.task.seen := by
  have h : Lossless t := run_invariant_meets
    (fun _ _ _ hc hinv hst => lossless_step hc hinv hst) hlag lossless_start hr
  apply table_ext
  have hann := h.announced
  rw [hidle, List.append_nil] at hann
  rw [lookup_frontend, hann, h.received, hall, List.take_length]

def samplePod (name : String) : Pod := ⟨some "default", some name, some ⟨none, [⟨"app", none⟩]⟩⟩

/-- A pod is announced, then another comes and goes often enough to push it out of the ring, and
the receiver catches up. -/
def overrun : List Action :=
  [.event (.apply (samplePod "a")) [], .send] ++
  (List.replicate 128 [.event (.apply (samplePod "b")) [("default", "a")], .send,
    .event (.delete (samplePod "b")) [("default", "a"), ("default", "b")], .send]).flatten ++
  List.replicate 257 .recv

/-- The relist finds the first pod as it was announced. -/
def relist : List Action :=
  [.event (.initApply (samplePod "a")) [("default", "a")],
    .event .initDone [("default", "a")], .send, .recv]

/-- The announcement of the first pod is pushed out of the ring, and the relist does not repeat it. -/
theorem overrun_relist : ∃ s t : Bridge, run step Bridge.start overrun = some s ∧
    run step s (.event .init [("default", "a")] :: relist) = some t ∧ t.todo = [] ∧
      t.received = s.received ++ t.sent.drop s.sent.length ∧ frontend t.received = ∅ := by
  have hends : ((run step Bridge.start overrun).bind fun s =>
      (run step s (.event .init [("default", "a")] :: relist)).map fun t =>
        decide (t.todo = [] ∧ t.received = s.received ++ t.sent.drop s.sent.length ∧ frontend t.received = ∅)) =
      some true := by decide +kernel
  obtain ⟨s, hs, hrest⟩ := Option.bind_eq_some_iff.mp hends
  obtain ⟨t, ht, hdone⟩ := Option.map_eq_some_iff.mp hrest
  exact ⟨s, t, hs, ht, of_decide_eq_true hdone⟩

theorem shown_eq_listed_iff_overrun :
    ∃ s t : Bridge, run step Bridge.start overrun = some s ∧
      run step s (.event .init [("default", "a")] :: relist) = some t ∧
      (frontend t.received = listed (listing (watchEvents relist)) ↔
        Repairable (frontend s.received) s.task.seen (listing (watchEvents relist))) := by
  obtain ⟨s, t, hs, ht, hidle, hreceived, -⟩ := overrun_relist
  exact ⟨s, t, hs, ht, shown_eq_listed_iff ht
    ⟨[.initApply (samplePod "a")], rfl, by simp⟩ hidle hreceived⟩

/-- The announcement of the pod was lost, and the relist does not repeat it. -/
theorem relist_skips_lost_pod :
    ∃ s t : Bridge, run step Bridge.start overrun = some s ∧
      run step s (.event .init [("default", "a")] :: relist) = some t ∧
      CompletesList (watchEvents relist) ∧ t.todo = [] ∧
      t.received = s.received ++ t.sent.drop s.sent.length ∧ frontend t.received = ∅ ∧
      (listed (listing (watchEvents relist))).lookup ("default", "a") = some [⟨"app", .main⟩] := by
  obtain ⟨s, t, hs, ht, hidle, hreceived, hlost⟩ := overrun_relist
  exact ⟨s, t, hs, ht, ⟨[.initApply (samplePod "a")], rfl, by simp⟩, hidle, hreceived, hlost, by decide⟩

end FerrisScope.LogPodWatch
