import FerrisScope.HealthProbe
import FerrisScope.KeyedWrites
import FerrisScope.LaggingReceivers
import Mathlib.Algebra.Group.Nat.Even
import Mathlib.Algebra.Order.Ring.Nat

/-!
# Polling the metrics of a cluster

A poll reads the pods, the nodes, what the nodes can hold and what the volumes use, each on its own, and the last two not
every time: the nodes are listed again after five minutes or when one is reported that is not known, the volumes every
second time somebody wants them. A snapshot with the readings of the one before is kept but not broadcast. What is left out
is never missed: a snapshot has no readings older than that, and who receives the broadcasts sees what was polled last.
-/

namespace FerrisScope.MetricsPolls
open HealthProbe (KubeError isForbidden)
open KeyedWrites (Table)
open LabelledRuns

/-! ## One poll -/

/-- By the name of the node, its CPU and its memory. -/
abbrev NodeCaps := Table String (ℕ × ℕ)

structure ClusterMetrics where
  cpuUsedMilli : ℕ
  cpuCapacityMilli : ℕ
  memUsedMib : ℕ
  memCapacityMib : ℕ
  deriving DecidableEq, Repr

/-- Sums of 64-bit numbers. -/
def total (caps : NodeCaps) (part : ℕ × ℕ → ℕ) : ℕ := (caps.entries.map fun e => part e.2).sum % 2 ^ 64

def aggregate (used caps : NodeCaps) : ClusterMetrics where
  cpuUsedMilli := total used Prod.fst
  cpuCapacityMilli := total caps Prod.fst
  memUsedMib := total used Prod.snd
  memCapacityMib := total caps Prod.snd

def clusterAggregate : Option NodeCaps → Option NodeCaps → Option ClusterMetrics
  | some nodes, some caps => some (aggregate nodes caps)
  | _, _ => none

def hasUnknownNode (used caps : NodeCaps) : Bool := decide (∃ n ∈ used.keys, n ∉ caps.keys)

/-- Milliseconds. -/
def capacityTtl : ℕ := 300000

def volumeEveryTicks : ℕ := 2

structure VolumeStats (Vol : Type) where
  podVolumes : Table String (List Vol) := ∅
  pvcs : Table String Vol := ∅

structure Snapshot (Pod Vol : Type) where
  pods : Table String Pod
  cluster : Option ClusterMetrics
  podVolumes : Table String (List Vol)
  pvcs : Table String Vol
  available : Bool
  forbidden : Option String
  volumesAvailable : Option Bool
  fetchedAtUnixMs : Int64

structure Wants where
  pods : Bool
  volumes : Bool
  deriving DecidableEq, Repr

/-- What is wanted, the clock when the poll starts and when it keeps a list of the nodes, and what the cluster answers: to
the first list of the nodes, to a second one, and for the volumes of the nodes that are asked. -/
structure Poll (Pod Vol : Type) where
  wants : Wants
  start : ℕ
  stored : ℕ
  nowMs : Int64
  pods : Except KubeError (Table String Pod)
  nodes : Except KubeError NodeCaps
  caps : Except KubeError NodeCaps
  capsAgain : Except KubeError NodeCaps
  volumes : Finset String → VolumeStats Vol

structure PollCache (Vol : Type) where
  caps : Option (ℕ × NodeCaps) := none
  volumes : Option (VolumeStats Vol) := none
  tick : ℕ := 0

variable {Pod Vol : Type}

def PollCache.freshCaps (cache : PollCache Vol) (now : ℕ) : Option NodeCaps :=
  (cache.caps.filter fun c => decide (now < c.1 + capacityTtl)).map Prod.snd

/-- Stats that nobody wants are let go. -/
def PollCache.volumesDue (cache : PollCache Vol) (wanted : Bool) : Bool × PollCache Vol :=
  if wanted then
    let due := cache.volumes.isNone || decide (volumeEveryTicks ≤ cache.tick)
    (due, { cache with tick := (if due then 0 else cache.tick) + 1 })
  else (false, { cache with volumes := none })

/-- What the nodes can hold, and whether it was listed just now. -/
def capsRes (cache : PollCache Vol) (p : Poll Pod Vol) : Except KubeError (NodeCaps × Bool) :=
  match cache.freshCaps p.start with
  | some caps =>
    match p.nodes with
    | .ok nodes => if hasUnknownNode nodes caps then p.capsAgain.map (·, true) else .ok (caps, false)
    | .error _ => .ok (caps, false)
  | none => p.caps.map (·, true)

/-- The refusal of the reading that `available` follows. -/
def forbiddenReading (p : Poll Pod Vol) : Option String :=
  match (if p.wants.pods then p.pods.map fun _ => () else p.nodes.map fun _ => ()) with
  | .error (.api code reason message text) => if isForbidden (.api code reason message text) then some message else none
  | _ => none

/-- The stats of a poll whose turn it is. -/
def fetchVolumes (cache : PollCache Vol) (p : Poll Pod Vol) : VolumeStats Vol :=
  match capsRes cache p with
  | .ok (caps, _) => p.volumes caps.keys
  | .error _ => {}

def keepCaps (cache : PollCache Vol) (p : Poll Pod Vol) : PollCache Vol :=
  match capsRes cache p with
  | .ok (caps, true) => { cache with caps := some (p.stored, caps) }
  | _ => cache

def keepVolumes (cache : PollCache Vol) (p : Poll Pod Vol) : PollCache Vol :=
  let next := (keepCaps cache p).volumesDue p.wants.volumes
  if next.1 then { next.2 with volumes := some (fetchVolumes cache p) } else next.2

def availability (p : Poll Pod Vol) : Bool × Table String Pod :=
  if p.wants.pods then
    match p.pods with
    | .ok pods => (true, pods)
    | .error _ => (false, ∅)
  else (p.nodes.toOption.isSome, ∅)

def poll (cache : PollCache Vol) (p : Poll Pod Vol) : Snapshot Pod Vol × PollCache Vol :=
  let next := keepVolumes cache p
  let stats := next.volumes.getD {}
  ({ pods := (availability p).2
     cluster := clusterAggregate p.nodes.toOption ((capsRes cache p).toOption.map Prod.fst)
     podVolumes := stats.podVolumes
     pvcs := stats.pvcs
     available := (availability p).1
     forbidden := forbiddenReading p
     volumesAvailable := next.volumes.map fun v => decide (v.podVolumes.keys ≠ ∅ ∨ v.pvcs.keys ≠ ∅)
     fetchedAtUnixMs := p.nowMs }, next)

/-! ## How old the readings are -/

def cacheAfter (ps : List (Poll Pod Vol)) : PollCache Vol := ps.foldl (fun cache p => (poll cache p).2) {}

/-- How many of the last polls in a row wanted volumes. -/
def stretch (ps : List (Poll Pod Vol)) : ℕ := (ps.reverse.takeWhile fun p => p.wants.volumes).length

theorem cacheAfter_concat (ps : List (Poll Pod Vol)) (p : Poll Pod Vol) :
    cacheAfter (ps ++ [p]) = keepVolumes (cacheAfter ps) p := by
  rw [cacheAfter, List.foldl_append]
  rfl

theorem stretch_concat (ps : List (Poll Pod Vol)) (p : Poll Pod Vol) :
    stretch (ps ++ [p]) = if p.wants.volumes then stretch ps + 1 else 0 := by
  rw [stretch, List.reverse_append, List.reverse_singleton, List.singleton_append, List.takeWhile_cons]
  split_ifs <;> rfl

/-- An answer to a list of the nodes. -/
def Listed (p : Poll Pod Vol) (caps : NodeCaps) : Prop := p.caps = .ok caps ∨ p.capsAgain = .ok caps

/-- What is kept between the polls. The stats are those of the last poll when the stretch is odd. -/
structure Kept (ps : List (Poll Pod Vol)) (cache : PollCache Vol) : Prop where
  caps : ∀ at' caps, cache.caps = some (at', caps) → ∃ q ∈ ps, q.stored = at' ∧ Listed q caps
  unwanted : stretch ps = 0 → cache.volumes = none
  odd : ¬ Even (stretch ps) → cache.tick = 1 ∧ ∃ before q, before ++ [q] = ps ∧ q.wants.volumes = true ∧
    cache.volumes = some (fetchVolumes (cacheAfter before) q)
  even : Even (stretch ps) → stretch ps ≠ 0 → cache.tick = 2 ∧ cache.volumes ≠ none

variable {ps : List (Poll Pod Vol)} {p : Poll Pod Vol} {cache : PollCache Vol}

theorem map_eq_ok {ε α β : Type} {r : Except ε α} {f : α → β} {b : β} (h : r.map f = .ok b) : ∃ a, r = .ok a ∧ f a = b := by
  cases r with
  | error e => cases h
  | ok a =>
    cases h
    exact ⟨a, rfl, rfl⟩

/-- Capacities that were listed just now are an answer of this poll. -/
theorem listed_of_capsRes {caps : NodeCaps} (h : capsRes cache p = .ok (caps, true)) : Listed p caps := by
  rw [capsRes] at h
  split at h
  · split at h
    · split_ifs at h
      · obtain ⟨c, hc, heq⟩ := map_eq_ok h
        cases heq
        exact .inr hc
      · cases h
    · cases h
  · obtain ⟨c, hc, heq⟩ := map_eq_ok h
    cases heq
    exact .inl hc

/-- Capacities that were not listed just now are kept ones that know every node. -/
theorem kept_of_capsRes {caps : NodeCaps} (h : capsRes cache p = .ok (caps, false)) :
    (∃ at', cache.caps = some (at', caps) ∧ p.start < at' + capacityTtl) ∧
      ∀ nodes, p.nodes = .ok nodes → ∀ n ∈ nodes.keys, n ∈ caps.keys := by
  have hfresh : ∀ c, cache.freshCaps p.start = some c → ∃ at', cache.caps = some (at', c) ∧ p.start < at' + capacityTtl := by
    intro c hc
    obtain ⟨⟨at', c'⟩, hfilter, heq⟩ := Option.map_eq_some_iff.mp hc
    cases heq
    obtain ⟨hsome, hold⟩ := Option.filter_eq_some_iff.mp hfilter
    exact ⟨at', hsome, of_decide_eq_true hold⟩
  rw [capsRes] at h
  split at h
  · rename_i c hc
    split at h
    · rename_i nodes hnodes
      split_ifs at h with hunknown
      · obtain ⟨c', -, heq⟩ := map_eq_ok h
        cases heq
      · cases h
        refine ⟨hfresh _ hc, fun nodes' hnodes' n hn => ?_⟩
        rw [hnodes] at hnodes'
        cases hnodes'
        by_contra hmem
        exact hunknown (decide_eq_true ⟨n, hn, hmem⟩)
    · rename_i e hnodes
      cases h
      refine ⟨hfresh _ hc, fun nodes' hnodes' => ?_⟩
      rw [hnodes] at hnodes'
      cases hnodes'
  · obtain ⟨c', -, heq⟩ := map_eq_ok h
    cases heq

theorem keepCaps_volumes (cache : PollCache Vol) (p : Poll Pod Vol) :
    (keepCaps cache p).volumes = cache.volumes ∧ (keepCaps cache p).tick = cache.tick := by
  rw [keepCaps]
  split <;> exact ⟨rfl, rfl⟩

theorem keepVolumes_caps (cache : PollCache Vol) (p : Poll Pod Vol) : (keepVolumes cache p).caps = (keepCaps cache p).caps := by
  simp only [keepVolumes, PollCache.volumesDue]
  split_ifs <;> rfl

theorem keepVolumes_unwanted (h : p.wants.volumes = false) : (keepVolumes cache p).volumes = none := by
  simp [keepVolumes, PollCache.volumesDue, h]

/-- The stats are fetched when there are none, or when those there are have been used twice. -/
theorem keepVolumes_due (h : p.wants.volumes = true) (hdue : cache.volumes = none ∨ volumeEveryTicks ≤ cache.tick) :
    (keepVolumes cache p).volumes = some (fetchVolumes cache p) ∧ (keepVolumes cache p).tick = 1 := by
  obtain ⟨hvolumes, htick⟩ := keepCaps_volumes cache p
  have hdue : ((keepCaps cache p).volumes.isNone || decide (volumeEveryTicks ≤ (keepCaps cache p).tick)) = true := by
    rw [hvolumes, htick]
    rcases hdue with hnone | htwice
    · rw [hnone]
      rfl
    · rw [decide_eq_true htwice, Bool.or_true]
  simp [keepVolumes, PollCache.volumesDue, h, hdue]

theorem keepVolumes_reused (h : p.wants.volumes = true) (hsome : cache.volumes ≠ none) (htick : cache.tick < volumeEveryTicks) :
    (keepVolumes cache p).volumes = cache.volumes ∧ (keepVolumes cache p).tick = cache.tick + 1 := by
  obtain ⟨hvolumes, hsame⟩ := keepCaps_volumes cache p
  have hdue : ((keepCaps cache p).volumes.isNone || decide (volumeEveryTicks ≤ (keepCaps cache p).tick)) = false := by
    rw [hvolumes, hsame, decide_eq_false (by omega), Bool.or_false]
    cases hv : cache.volumes with
    | none => exact absurd hv hsome
    | some v => rfl
  simp only [keepVolumes, PollCache.volumesDue, h, hdue, if_true]
  exact ⟨hvolumes, congrArg (· + 1) hsame⟩

theorem kept_after (ps : List (Poll Pod Vol)) : Kept ps (cacheAfter ps) := by
  induction ps using List.reverseRecOn with
  | nil => exact ⟨fun _ _ h => absurd h.symm (Option.some_ne_none _), fun _ => rfl, fun h => absurd ⟨0, rfl⟩ h, fun _ h => absurd rfl h⟩
  | append_singleton ps p ih =>
    rw [cacheAfter_concat]
    have hcaps : ∀ at' caps, (keepVolumes (cacheAfter ps) p).caps = some (at', caps) →
        ∃ q ∈ ps ++ [p], q.stored = at' ∧ Listed q caps := by
      intro at' caps h
      rw [keepVolumes_caps, keepCaps] at h
      split at h
      · rename_i c hc
        cases h
        exact ⟨p, List.mem_append_right _ List.mem_cons_self, rfl, listed_of_capsRes hc⟩
      · obtain ⟨q, hq, hlisted⟩ := ih.caps at' caps h
        exact ⟨q, List.mem_append_left _ hq, hlisted⟩
    cases hwanted : p.wants.volumes with
    | false =>
      have hzero : stretch (ps ++ [p]) = 0 := by rw [stretch_concat, hwanted]; rfl
      refine ⟨hcaps, fun _ => keepVolumes_unwanted hwanted, fun h => ?_, fun _ h => absurd hzero h⟩
      rw [hzero] at h
      exact absurd (by decide) h
    | true =>
      have hsucc : stretch (ps ++ [p]) = stretch ps + 1 := by rw [stretch_concat, hwanted]; rfl
      rw [← cacheAfter_concat] at hcaps ⊢
      by_cases heven : Even (stretch ps)
      · -- It is this poll's turn.
        have hdue : (cacheAfter ps).volumes = none ∨ volumeEveryTicks ≤ (cacheAfter ps).tick := by
          by_cases hzero : stretch ps = 0
          · exact .inl (ih.unwanted hzero)
          · exact .inr (ih.even heven hzero).1.ge
        have hfetched := keepVolumes_due hwanted hdue
        rw [← cacheAfter_concat] at hfetched
        refine ⟨hcaps, fun h => by omega, fun _ => ⟨hfetched.2, ps, p, rfl, hwanted, hfetched.1⟩, fun h => ?_⟩
        rw [hsucc, Nat.even_add_one] at h
        exact absurd heven h
      · obtain ⟨htick, before, q, -, -, hvolumes⟩ := ih.odd heven
        have hsome : (cacheAfter ps).volumes ≠ none := by rw [hvolumes]; exact Option.some_ne_none _
        have hreused := keepVolumes_reused hwanted hsome (by rw [htick]; decide)
        rw [← cacheAfter_concat] at hreused
        refine ⟨hcaps, fun h => by omega, fun h => ?_, fun _ _ => ⟨by rw [hreused.2, htick], by rw [hreused.1]; exact hsome⟩⟩
        rw [hsucc, Nat.even_add_one, not_not] at h
        exact absurd h heven

/-- The stats of a snapshot were fetched by its own poll when the stretch before it is even, else by the poll before it. -/
theorem volumes_fresh (ps : List (Poll Pod Vol)) (hwanted : p.wants.volumes = true) :
    ∃ before q, (before ++ [q] = if Even (stretch ps) then ps ++ [p] else ps) ∧ q.wants.volumes = true ∧
      (keepVolumes (cacheAfter ps) p).volumes = some (fetchVolumes (cacheAfter before) q) := by
  have hkept := kept_after ps
  by_cases heven : Even (stretch ps)
  · have hdue : (cacheAfter ps).volumes = none ∨ volumeEveryTicks ≤ (cacheAfter ps).tick := by
      by_cases hzero : stretch ps = 0
      · exact .inl (hkept.unwanted hzero)
      · exact .inr (hkept.even heven hzero).1.ge
    exact ⟨ps, p, by rw [if_pos heven], hwanted, (keepVolumes_due hwanted hdue).1⟩
  · obtain ⟨htick, before, q, hlast, hq, hvolumes⟩ := hkept.odd heven
    have hsome : (cacheAfter ps).volumes ≠ none := by rw [hvolumes]; exact Option.some_ne_none _
    have hreused := keepVolumes_reused hwanted hsome (by rw [htick]; decide)
    exact ⟨before, q, by rw [if_neg heven, hlast], hq, hreused.1.trans hvolumes⟩

/-- Whatever was polled before and however it was answered: the volumes of a snapshot are those of its own poll or, every
second time, of the poll before, and without demand there are none. Its totals are over the nodes reported now, and over
capacities that were listed now, or in the last five minutes and then for every node that is reported. -/
theorem readings_fresh (ps : List (Poll Pod Vol)) (p : Poll Pod Vol) :
    let snap := (poll (cacheAfter ps) p).1
    (p.wants.volumes = false → snap.volumesAvailable = none ∧ snap.podVolumes = ∅ ∧ snap.pvcs = ∅) ∧
    (p.wants.volumes = true → ∃ before q, (before ++ [q] = if Even (stretch ps) then ps ++ [p] else ps) ∧
      q.wants.volumes = true ∧ snap.podVolumes = (fetchVolumes (cacheAfter before) q).podVolumes ∧
      snap.pvcs = (fetchVolumes (cacheAfter before) q).pvcs) ∧
    ∀ m, snap.cluster = some m → ∃ nodes caps, p.nodes = .ok nodes ∧ m = aggregate nodes caps ∧
      (Listed p caps ∨ (∃ q ∈ ps, Listed q caps ∧ p.start < q.stored + capacityTtl) ∧ ∀ n ∈ nodes.keys, n ∈ caps.keys) := by
  intro snap
  refine ⟨fun hwanted => ?_, fun hwanted => ?_, fun m hm => ?_⟩
  · have hnone : (keepVolumes (cacheAfter ps) p).volumes = none := keepVolumes_unwanted hwanted
    simp only [snap, poll, hnone]
    exact ⟨rfl, rfl, rfl⟩
  · obtain ⟨before, q, hturn, hq, hvolumes⟩ := volumes_fresh ps hwanted
    refine ⟨before, q, hturn, hq, ?_⟩
    simp only [snap, poll, hvolumes]
    exact ⟨rfl, rfl⟩
  · have hm : clusterAggregate p.nodes.toOption ((capsRes (cacheAfter ps) p).toOption.map Prod.fst) = some m := hm
    cases hnodes : p.nodes with
    | error e =>
      rw [hnodes] at hm
      cases hm
    | ok nodes =>
      cases hcaps : capsRes (cacheAfter ps) p with
      | error e =>
        rw [hnodes, hcaps] at hm
        cases hm
      | ok r =>
        obtain ⟨caps, listed⟩ := r
        rw [hnodes, hcaps] at hm
        cases hm
        refine ⟨nodes, caps, rfl, rfl, ?_⟩
        cases listed with
        | true => exact .inl (listed_of_capsRes hcaps)
        | false =>
          obtain ⟨⟨at', hkept, hage⟩, hknown⟩ := kept_of_capsRes hcaps
          obtain ⟨q, hq, hstored, hlisted⟩ := (kept_after ps).caps at' caps hkept
          exact .inr ⟨⟨q, hq, hlisted, hstored ▸ hage⟩, hknown nodes hnodes⟩

/-! ## What is broadcast -/

section
variable [DecidableEq Pod] [DecidableEq Vol]

def sameReadings (a b : Snapshot Pod Vol) : Bool :=
  a.available == b.available && a.volumesAvailable == b.volumesAvailable && decide (a.cluster = b.cluster) &&
    decide (a.pods = b.pods) && decide (a.podVolumes = b.podVolumes) && decide (a.pvcs = b.pvcs) &&
    decide (a.forbidden = b.forbidden)

end

/-- A snapshot, whenever it was fetched. -/
def Snapshot.readings (snap : Snapshot Pod Vol) : Snapshot Pod Vol := { snap with fetchedAtUnixMs := 0 }

def broadcastCap : ℕ := 16

/-- The polling task, and the forwarder that hands its broadcasts on. -/
structure Service (Pod Vol : Type) where
  cache : PollCache Vol := {}
  last : Option (Snapshot Pod Vol) := none
  sent : List (Snapshot Pod Vol) := []
  forwarder : LaggingReceivers.Receiver (Snapshot Pod Vol) := ⟨0, []⟩

inductive Event (Pod Vol : Type) where
  | poll (p : Poll Pod Vol)
  | recv

section
variable [DecidableEq Pod] [DecidableEq Vol]

def step (s : Service Pod Vol) : Event Pod Vol → Option (Service Pod Vol)
  | .poll p =>
    let next := poll s.cache p
    let unchanged := s.last.any (sameReadings · next.1)
    some { s with cache := next.2, last := some next.1, sent := if unchanged then s.sent else s.sent ++ [next.1] }
  | .recv => (LaggingReceivers.recv broadcastCap s.sent s.forwarder).map fun r => { s with forwarder := r }

theorem sameReadings_iff {a b : Snapshot Pod Vol} : sameReadings a b = true ↔ a.readings = b.readings := by
  obtain ⟨pods, cluster, podVolumes, pvcs, available, forbidden, volumesAvailable, fetchedAt⟩ := a
  obtain ⟨pods', cluster', podVolumes', pvcs', available', forbidden', volumesAvailable', fetchedAt'⟩ := b
  simp only [sameReadings, Snapshot.readings, Bool.and_eq_true, beq_iff_eq, decide_eq_true_eq, Snapshot.mk.injEq]
  tauto

/-- What was broadcast last has the readings of the last poll, and no two broadcasts in a row have the same. -/
structure Mirrors (s : Service Pod Vol) : Prop where
  last : s.sent.getLast?.map Snapshot.readings = s.last.map Snapshot.readings
  changes : s.sent.IsChain fun a b => a.readings ≠ b.readings
  follows : LaggingReceivers.Follows s.sent s.forwarder

theorem mirrors_step (s : Service Pod Vol) (e : Event Pod Vol) (t : Service Pod Vol) (h : Mirrors s)
    (hstep : step s e = some t) : Mirrors t := by
  cases e with
  | poll p =>
    simp only [step] at hstep
    cases hstep
    by_cases hsame : s.last.any (sameReadings · (poll s.cache p).1) = true
    · rw [if_pos hsame]
      refine ⟨?_, h.changes, h.follows⟩
      rw [h.last]
      cases hprev : s.last with
      | none =>
        rw [hprev] at hsame
        cases hsame
      | some prev =>
        rw [hprev] at hsame
        exact congrArg some (sameReadings_iff.mp hsame)
    · rw [if_neg hsame]
      refine ⟨?_, ?_, h.follows.append _⟩
      · rw [List.getLast?_concat]
      · refine List.IsChain.append h.changes (List.isChain_singleton _) ?_
        intro a ha b hb
        have hlast := h.last
        rw [ha] at hlast
        cases hb
        cases hprev : s.last with
        | none =>
          rw [hprev] at hlast
          cases hlast
        | some prev =>
          rw [hprev] at hlast hsame
          intro heq
          refine hsame (sameReadings_iff.mpr ?_)
          exact (Option.some.inj hlast).symm.trans heq
  | recv =>
    obtain ⟨r, hr, rfl⟩ := Option.map_eq_some_iff.mp hstep
    exact ⟨h.last, h.changes, h.follows.recv (by decide) hr⟩

/-- In every interleaving of polls and deliveries, and however far the forwarder falls behind: it hands on broadcasts in
their order, no two broadcasts in a row say the same, and once it has caught up, which takes it a bounded number of steps,
what it handed on last has the readings of the last poll. -/
theorem viewer_current (es : List (Event Pod Vol)) (s : Service Pod Vol) (hrun : run step {} es = some s) :
    s.forwarder.got.Sublist s.sent ∧ s.sent.IsChain (fun a b => a.readings ≠ b.readings) ∧
      (s.forwarder.pos = s.sent.length →
        s.forwarder.got.getLast?.map Snapshot.readings = s.last.map Snapshot.readings) ∧
      ∃ n, n ≤ broadcastCap + 1 ∧ ∃ t, run step s (List.replicate n .recv) = some t ∧ t.last = s.last ∧
        t.forwarder.pos = t.sent.length ∧
        t.forwarder.got.getLast?.map Snapshot.readings = s.last.map Snapshot.readings := by
  have hinit : Mirrors ({} : Service Pod Vol) := ⟨rfl, List.isChain_nil, LaggingReceivers.follows_nil⟩
  have h : Mirrors s := run_invariant mirrors_step hinit hrun
  have hcurrent : ∀ t : Service Pod Vol, Mirrors t → t.forwarder.pos = t.sent.length →
      t.forwarder.got.getLast?.map Snapshot.readings = t.last.map Snapshot.readings := by
    intro t ht hpos
    rw [ht.follows.last hpos, ht.last]
  refine ⟨h.follows.sub.trans (List.take_sublist _ _), h.changes, hcurrent s h, ?_⟩
  obtain ⟨n, hn, r, hdrain, hpos⟩ := LaggingReceivers.exists_drain broadcastCap h.follows.le
  have hrecvs : ∀ (n : ℕ) (u : Service Pod Vol), LaggingReceivers.drain broadcastCap u.sent n u.forwarder = some r →
      run step u (List.replicate n .recv) = some { u with forwarder := r } := by
    intro n
    induction n with
    | zero =>
      intro u hu
      cases hu
      rfl
    | succ n ih =>
      intro u hu
      obtain ⟨r₁, hr₁, hrest⟩ := Option.bind_eq_some_iff.mp hu
      refine run_cons_eq_some.mpr ⟨{ u with forwarder := r₁ }, ?_, ih { u with forwarder := r₁ } hrest⟩
      rw [step, hr₁]
      rfl
  have hrun' := hrecvs n s hdrain
  refine ⟨n, hn, { s with forwarder := r }, hrun', rfl, hpos, ?_⟩
  exact hcurrent _ (run_invariant mirrors_step h hrun') hpos

end

/-- Nothing answers. -/
def unanswered (now : ℕ) : Poll Unit Unit where
  wants := ⟨false, false⟩
  start := now
  stored := now
  nowMs := 0
  pods := .error (.other "no route")
  nodes := .error (.other "no route")
  caps := .error (.other "no route")
  capsAgain := .error (.other "no route")
  volumes _ := {}

/-- The second poll reads the same and is not broadcast. -/
theorem viewer_current_unanswered : ∃ s : Service Unit Unit,
    run step {} [.poll (unanswered 0), .poll (unanswered 30000), .recv] = some s ∧ s.sent.length = 1 ∧
      s.forwarder.got.getLast?.map Snapshot.readings = s.last.map Snapshot.readings := by
  have hcaught := fun s hs => (viewer_current [.poll (unanswered 0), .poll (unanswered 30000), .recv] s hs).2.2.1
  exact ⟨_, rfl, rfl, hcaught _ rfl rfl⟩

end FerrisScope.MetricsPolls
