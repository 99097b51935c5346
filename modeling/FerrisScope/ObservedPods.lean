import FerrisScope.LogPodWatch

/-!
# The pods a log panel observes

A panel resolves its targets once, and watches the pods of its workloads as far as a cap goes.
All watches write one map, keyed by cluster, namespace and name. When a watch has listed its pods,
the pods of its namespace that no watch has confirmed are dropped. A reconnect closes the open
watches of a cluster and arms that cluster's workloads again. What a watch holds itself is
recorded beside it.
-/

namespace FerrisScope.ObservedPods
open LogPodWatch LabelledRuns

def maxPodWatches : ℕ := 12

def maxObserveTargets : ℕ := 50

structure ObserveTarget where
  clusterId : String
  kindId : String
  ns : String
  name : String
  containers : Option (List LogContainer)
  deriving DecidableEq, Repr

structure ObservedPod where
  clusterId : String
  ns : String
  name : String
  containers : List LogContainer
  deriving DecidableEq, Repr

abbrev TargetKey := String × String × String × String

def ObserveTarget.key (t : ObserveTarget) : TargetKey := (t.clusterId, t.kindId, t.ns, t.name)

abbrev MapKey := String × String × String

def podKey (clusterId ns name : String) : MapKey := (clusterId, ns, name)

def ObservedPod.key (p : ObservedPod) : MapKey := podKey p.clusterId p.ns p.name

/-- A map keyed by the pods' keys, in the order of insertion. -/
abbrev PodMap := List ObservedPod

def setPod (m : PodMap) (p : ObservedPod) : PodMap :=
  if m.any fun q => q.key = p.key then m.map fun q => if q.key = p.key then p else q else m ++ [p]

def deletePod (m : PodMap) (k : MapKey) : PodMap := m.filter fun q => q.key ≠ k

def observed (clusterId : String) (pod : ResolvedLogPod) : ObservedPod :=
  ⟨clusterId, pod.ns, pod.name, pod.containers⟩

/-- The map after an event, and whether it has changed. -/
def applyPodDelta (m : PodMap) (clusterId : String) : LogPodEvent → PodMap × Bool
  | .added pod => (setPod m (observed clusterId pod), true)
  | .removed ns name =>
      (deletePod m (podKey clusterId ns name), m.any fun q => q.key = podKey clusterId ns name)
  | .initDone => (m, false)

/-- A pod of the namespace that no watch has confirmed. -/
def isStray (clusterId ns : String) (confirmed : Finset MapKey) (p : ObservedPod) : Bool :=
  p.clusterId = clusterId && p.ns = ns && p.key ∉ confirmed

def pruneAfterInit (m : PodMap) (clusterId ns : String) (confirmed : Finset MapKey) : PodMap × Bool :=
  (m.filter fun p => !isStray clusterId ns confirmed p, m.any (isStray clusterId ns confirmed))

/-- The workloads, each once. -/
def dedupeFrom (seen : List TargetKey) : List ObserveTarget → List ObserveTarget
  | [] => []
  | t :: ts =>
      if t.kindId = "pods" then dedupeFrom seen ts
      else if t.key ∈ seen then dedupeFrom seen ts
      else t :: dedupeFrom (t.key :: seen) ts

def dedupeWatchTargets (targets : List ObserveTarget) : List ObserveTarget := dedupeFrom [] targets

inductive WatchPhase where
  | opening
  | running
  | failed
  | closed
  deriving DecidableEq, Repr

/-- `isDone` after the watch's `init_done`; `own` is what its events have left of its own pods. -/
structure Watch where
  target : ObserveTarget
  isFirst : Bool
  phase : WatchPhase
  isDone : Bool
  own : PodMap
  deriving DecidableEq, Repr

def Watch.new (isFirst : Bool) (target : ObserveTarget) : Watch := ⟨target, isFirst, .opening, false, []⟩

/-- The watch's events still reach the panel. -/
def Watch.Live (w : Watch) : Prop := w.phase = .opening ∨ w.phase = .running

instance (w : Watch) : Decidable w.Live := inferInstanceAs (Decidable (_ ∨ _))

/-- What the one-shot resolve finds for a target, and the clusters whose call succeeds. -/
structure Backend where
  resolve : ObserveTarget → List ResolvedLogPod
  answers : String → Bool

structure Panel where
  reqs : List ObserveTarget
  armed : List ObserveTarget
  podMap : PodMap
  confirmed : Finset MapKey
  watches : List Watch

/-- Only pods, with their containers known: nothing is asked of the backend. -/
def isFastPath (reqs : List ObserveTarget) : Bool :=
  reqs.all fun t => t.kindId = "pods" && t.containers.isSome

def targetPod (t : ObserveTarget) : ObservedPod := ⟨t.clusterId, t.ns, t.name, t.containers.getD []⟩

/-- The resolved pods of a target. -/
def resolvedPods (b : Backend) (reqs : List ObserveTarget) (t : ObserveTarget) : List ObservedPod :=
  if isFastPath reqs then [targetPod t]
  else if b.answers t.clusterId then (b.resolve t).map (observed t.clusterId)
  else []

def clustersOf (reqs : List ObserveTarget) : List String := (reqs.map ObserveTarget.clusterId).eraseDups

/-- The map seeded cluster by cluster. -/
def seeds (b : Backend) (reqs : List ObserveTarget) : PodMap :=
  ((clustersOf reqs).flatMap fun c =>
    (reqs.filter fun t => t.clusterId = c).flatMap (resolvedPods b reqs)).foldl setPod []

def Panel.start (b : Backend) (targets : List ObserveTarget) : Panel :=
  let reqs := targets.take maxObserveTargets
  if isFastPath reqs then ⟨reqs, [], reqs.map targetPod, ∅, []⟩
  else if (seeds b reqs).isEmpty && (clustersOf reqs).all fun c => !b.answers c then ⟨reqs, [], [], ∅, []⟩
  else
    let armed := (dedupeWatchTargets reqs).take maxPodWatches
    ⟨reqs, armed, seeds b reqs, ∅, armed.map (Watch.new true)⟩

inductive Action where
  | opened (i : ℕ)
  | failed (i : ℕ)
  | event (i : ℕ) (e : LogPodEvent)
  | rearm (clusterId : String)

/-- The confirmed keys after an event of a watch of the cluster. -/
def confirm (confirmed : Finset MapKey) (clusterId : String) : LogPodEvent → Finset MapKey
  | .added pod => insert (podKey clusterId pod.ns pod.name) confirmed
  | .removed ns name => confirmed.erase (podKey clusterId ns name)
  | .initDone => confirmed

def onEvent (p : Panel) (i : ℕ) (w : Watch) : LogPodEvent → Panel
  | .initDone => { p with
      podMap := (pruneAfterInit p.podMap w.target.clusterId w.target.ns p.confirmed).1
      watches := p.watches.set i { w with isDone := true } }
  | e => { p with
      podMap := (applyPodDelta p.podMap w.target.clusterId e).1
      confirmed := confirm p.confirmed w.target.clusterId e
      watches := p.watches.set i { w with own := (applyPodDelta w.own w.target.clusterId e).1 } }

/-- A watch closed by the reconnect of a cluster. -/
def closeFor (clusterId : String) (w : Watch) : Watch :=
  if w.target.clusterId = clusterId ∧ w.phase = .running then { w with phase := .closed } else w

/-- The reconnect is heard once the first watches have been opened or have failed. -/
def onRearm (p : Panel) (clusterId : String) : Panel :=
  if p.watches.any fun w => w.isFirst && w.phase = .opening then p
  else { p with
    watches := p.watches.map (closeFor clusterId) ++
      (p.armed.filter fun t => t.clusterId = clusterId).map (Watch.new false) }

/-- A watch fails before it has announced anything. -/
def step (p : Panel) : Action → Option Panel
  | .opened i => match p.watches[i]? with
      | some w => if w.phase = .opening then
          some { p with watches := p.watches.set i { w with phase := .running } } else none
      | none => none
  | .failed i => match p.watches[i]? with
      | some w => if w.phase = .opening ∧ w.own = [] ∧ w.isDone = false then
          some { p with watches := p.watches.set i { w with phase := .failed } } else none
      | none => none
  | .event i e => match p.watches[i]? with
      | some w => if w.Live then some (onEvent p i w e) else none
      | none => none
  | .rearm clusterId => some (onRearm p clusterId)

end FerrisScope.ObservedPods
