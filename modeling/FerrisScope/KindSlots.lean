import FerrisScope.KeyedWrites
import FerrisScope.LabelledRuns

/-!
# Refcounted watcher slots of a cluster

A cluster entry keeps one slot for each resource kind and scope. A slot counts its
subscribers and holds the running watcher, which stops when the slot lets it go. Commands
interleave at their lock acquisitions and at their reads and writes of the `unavailable`
flag, and each of these is one action. Only the entries of one cluster are modelled: the
cached one and those that were evicted while some command still held them.
-/

namespace FerrisScope.KindSlots
open KeyedWrites

inductive NsScope where
  | all
  | one (ns : String)
  deriving DecidableEq, Repr

def NsScope.fromSelection : List String → NsScope
  | [] => .all
  | [ns] => .one ns
  | _ => .all

abbrev SlotKey := String × NsScope

structure KindSlot where
  watcher : Option ℕ
  subscribers : ℕ
  shutdownHandle : Option ℕ
  deriving DecidableEq, Repr

def KindSlot.empty : KindSlot := ⟨none, 0, none⟩

abbrev Slots := Table SlotKey KindSlot

structure ClusterEntry where
  unavailable : Bool
  kinds : Slots

def ClusterEntry.new : ClusterEntry := ⟨false, ∅⟩

/-- The cluster's id, and which kinds the registry knows to be namespaced or not. -/
structure Site where
  clusterId : String
  lookup : String → Option Bool

def scopeFor (namespaced : Bool) : Option (List String) → NsScope
  | some list => if namespaced then .fromSelection list else .all
  | none => .all

/-- What `subscribe_resource` does to the slots under their lock. -/
structure Subscribed where
  slots : Slots
  watcher : ℕ
  started : Bool
  aborted : Option ℕ

def subscribeSlot (slots : Slots) (key : SlotKey) (fresh : ℕ) : Subscribed :=
  let slot := (slots.lookup key).getD .empty
  let watcher := slot.watcher.getD fresh
  { slots := slots.insert key ⟨some watcher, slot.subscribers + 1, none⟩
    watcher := watcher
    started := slot.watcher.isNone
    aborted := slot.shutdownHandle }

/-- What `unsubscribe_resource` does to the slots under their lock. -/
structure Unsubscribed where
  slots : Slots
  armed : Bool
  aborted : Option ℕ

def unsubscribeSlot (slots : Slots) (key : SlotKey) (timer : ℕ) : Unsubscribed :=
  match slots.lookup key with
  | none => ⟨slots, false, none⟩
  | some slot =>
    let subscribers := slot.subscribers - 1
    if subscribers = 0 then
      ⟨slots.insert key ⟨slot.watcher, subscribers, some timer⟩, true, slot.shutdownHandle⟩
    else
      ⟨slots.insert key ⟨slot.watcher, subscribers, slot.shutdownHandle⟩, false, none⟩

/-- The body of the linger task, once its sleep is over. -/
def lingerSlot (slots : Slots) (key : SlotKey) : Slots :=
  match slots.lookup key with
  | none => slots
  | some slot => if slot.subscribers ≠ 0 then slots else slots.erase key

theorem lookup_insert_ite (slots : Slots) (key k : SlotKey) (slot : KindSlot) :
    (slots.insert key slot).lookup k = if k = key then some slot else slots.lookup k := by
  split_ifs with h
  · rw [h, Finmap.lookup_insert]
  · exact Finmap.lookup_insert_of_ne _ h

theorem lookup_subscribeSlot (slots : Slots) (key k : SlotKey) (fresh : ℕ) :
    (subscribeSlot slots key fresh).slots.lookup k =
      if k = key then
        some ⟨some (subscribeSlot slots key fresh).watcher,
          ((slots.lookup key).getD .empty).subscribers + 1, none⟩
      else slots.lookup k :=
  lookup_insert_ite slots key k _

theorem unsubscribeSlot_found {slots : Slots} {key : SlotKey} {old : KindSlot}
    (h : slots.lookup key = some old) (timer : ℕ) :
    ∃ handle, (unsubscribeSlot slots key timer).slots =
      slots.insert key ⟨old.watcher, old.subscribers - 1, handle⟩ := by
  simp only [unsubscribeSlot, h]
  split_ifs
  · exact ⟨_, rfl⟩
  · exact ⟨_, rfl⟩

theorem unsubscribeSlot_missed {slots : Slots} {key : SlotKey} (h : slots.lookup key = none)
    (timer : ℕ) : (unsubscribeSlot slots key timer).slots = slots := by
  simp only [unsubscribeSlot, h]

/-- An unsubscribe lowers the count of the slot it finds and keeps its watcher. -/
theorem lookup_unsubscribeSlot (slots : Slots) (key k : SlotKey) (timer : ℕ) {slot : KindSlot}
    (h : (unsubscribeSlot slots key timer).slots.lookup k = some slot) :
    ∃ old, slots.lookup k = some old ∧ slot.watcher = old.watcher ∧
      slot.subscribers = if k = key then old.subscribers - 1 else old.subscribers := by
  cases hfound : slots.lookup key with
  | none =>
    rw [unsubscribeSlot_missed hfound] at h
    have hk : k ≠ key := by
      rintro rfl
      cases hfound.symm.trans h
    exact ⟨slot, h, rfl, (if_neg hk).symm⟩
  | some old =>
    obtain ⟨handle, heq⟩ := unsubscribeSlot_found hfound timer
    rw [heq, lookup_insert_ite] at h
    split_ifs at h with hk
    · cases h
      exact ⟨old, hk ▸ hfound, rfl, (if_pos hk).symm⟩
    · exact ⟨slot, h, rfl, (if_neg hk).symm⟩

theorem watcher_unsubscribeSlot (slots : Slots) (key k : SlotKey) (timer : ℕ) :
    ((unsubscribeSlot slots key timer).slots.lookup k).bind (·.watcher) =
      (slots.lookup k).bind (·.watcher) := by
  cases hfound : slots.lookup key with
  | none => rw [unsubscribeSlot_missed hfound]
  | some old =>
    obtain ⟨handle, heq⟩ := unsubscribeSlot_found hfound timer
    rw [heq, lookup_insert_ite]
    split_ifs with hk
    · rw [hk, hfound]
      rfl
    · rfl

theorem lookup_lingerSlot (slots : Slots) (key k : SlotKey) {slot : KindSlot}
    (h : (lingerSlot slots key).lookup k = some slot) : slots.lookup k = some slot := by
  unfold lingerSlot at h
  split at h
  next => exact h
  next old hold =>
    split_ifs at h
    · exact h
    · by_cases hk : k = key
      · rw [hk, Finmap.lookup_erase] at h
        cases h
      · rwa [Finmap.lookup_erase_ne hk] at h

/-- The linger task leaves a slot with subscribers alone. -/
theorem lingerSlot_keeps (slots : Slots) (key k : SlotKey) {slot : KindSlot}
    (h : slots.lookup k = some slot) (hpos : 0 < slot.subscribers) :
    (lingerSlot slots key).lookup k = some slot := by
  unfold lingerSlot
  split
  next => exact h
  next old hold =>
    split_ifs with h0
    · exact h
    · have hk : k ≠ key := by
        rintro rfl
        cases hold.symm.trans h
        omega
      rw [Finmap.lookup_erase_ne hk, h]

structure Subscription where
  entry : ℕ
  kind : String
  namespaces : Option (List String)
  watcher : ℕ
  deriving DecidableEq, Repr

/-- A subscriber, from the resolution of its entry to the return of its unsubscribe. -/
inductive Call where
  | idle
  | resolved (entry : ℕ) (kind : String) (namespaces : Option (List String))
  | refused (error : String)
  | admitted (entry : ℕ) (kind : String) (namespaces : Option (List String)) (scope : NsScope)
  | subscribed (sub : Subscription)
  | leaving (found : ℕ) (sub : Subscription)
  | gone
  deriving DecidableEq, Repr

/-- The watcher a subscriber got, until it has unsubscribed. -/
def Call.watcher? : Call → Option ℕ
  | .subscribed sub => some sub.watcher
  | .leaving _ sub => some sub.watcher
  | _ => none

/-- A run of `tear_down_unhealthy`, which looks the entry up by id twice. -/
inductive Teardown where
  | idle
  | absent
  | resolved (entry : ℕ)
  | flagged (entry : ℕ)
  | clearing (entry found : ℕ)
  | done (entry : ℕ)
  deriving DecidableEq, Repr

structure Timer where
  entry : ℕ
  key : SlotKey
  aborted : Bool
  deriving DecidableEq, Repr

/-- `watchers` records for which entry and slot each watcher was started. -/
structure World where
  cached : Option ℕ
  entries : ℕ → ClusterEntry
  nextEntry : ℕ
  watchers : ℕ → Option (ℕ × SlotKey)
  nextWatcher : ℕ
  timers : ℕ → Option Timer
  nextTimer : ℕ
  calls : ℕ → Call
  teardowns : ℕ → Teardown

def init : World where
  cached := none
  entries := fun _ => .new
  nextEntry := 0
  watchers := fun _ => none
  nextWatcher := 0
  timers := fun _ => none
  nextTimer := 0
  calls := fun _ => .idle
  teardowns := fun _ => .idle

inductive Action where
  | cacheLazy
  | insertConnected
  | removeCluster
  | removeClusterIfSame (e : ℕ)
  | dropEntryWatchers (e : ℕ)
  | resolve (c : ℕ) (kind : String) (namespaces : Option (List String))
  | checkFlag (c : ℕ)
  | subscribe (c : ℕ)
  | leave (c : ℕ)
  | unsubscribe (c : ℕ)
  | linger (t : ℕ)
  | reap (t : ℕ)
  | teardownResolve (d : ℕ)
  | teardownFlag (d : ℕ)
  | teardownLookup (d : ℕ)
  | teardownClear (d : ℕ)
  deriving DecidableEq, Repr

def World.slot (s : World) (e : ℕ) (key : SlotKey) : Option KindSlot := (s.entries e).kinds.lookup key

/-- The running watcher in a slot. -/
def World.watcherAt (s : World) (e : ℕ) (key : SlotKey) : Option ℕ := (s.slot e key).bind (·.watcher)

def World.setKinds (s : World) (e : ℕ) (kinds : Slots) : World :=
  { s with entries := Function.update s.entries e { s.entries e with kinds := kinds } }

@[simp] theorem unavailable_setKinds (s : World) (e e' : ℕ) (kinds : Slots) :
    ((s.setKinds e kinds).entries e').unavailable = (s.entries e').unavailable := by
  by_cases h : e' = e
  · subst h
    simp [World.setKinds]
  · simp [World.setKinds, h]

theorem slot_setKinds (s : World) (e e' : ℕ) (kinds : Slots) (key : SlotKey) :
    (s.setKinds e kinds).slot e' key = if e' = e then kinds.lookup key else s.slot e' key := by
  by_cases h : e' = e
  · subst h
    simp [World.slot, World.setKinds]
  · simp [World.slot, World.setKinds, h]

def World.setUnavailable (s : World) (e : ℕ) : World :=
  { s with entries := Function.update s.entries e { s.entries e with unavailable := true } }

theorem unavailable_setUnavailable (s : World) (e e' : ℕ) :
    ((s.setUnavailable e).entries e').unavailable = (decide (e' = e) || (s.entries e').unavailable) := by
  by_cases h : e' = e
  · subst h
    simp [World.setUnavailable]
  · simp [World.setUnavailable, h]

@[simp] theorem slot_setUnavailable (s : World) (e e' : ℕ) (key : SlotKey) :
    (s.setUnavailable e).slot e' key = s.slot e' key := by
  by_cases h : e' = e
  · subst h
    simp [World.slot, World.setUnavailable]
  · simp [World.slot, World.setUnavailable, h]

def World.setCall (s : World) (c : ℕ) (x : Call) : World :=
  { s with calls := Function.update s.calls c x }

def World.setTeardown (s : World) (d : ℕ) (x : Teardown) : World :=
  { s with teardowns := Function.update s.teardowns d x }

def World.abort (s : World) (handle : Option ℕ) : World :=
  { s with
    timers := fun t =>
      if handle = some t then (s.timers t).map ({ · with aborted := true }) else s.timers t }

/-- Cache a fresh entry under the cluster's id. -/
def World.install (s : World) : World :=
  { s with
    cached := some s.nextEntry
    entries := Function.update s.entries s.nextEntry .new
    nextEntry := s.nextEntry + 1 }

theorem slot_install {s : World} {e : ℕ} {key : SlotKey} {slot : KindSlot}
    (h : s.install.slot e key = some slot) : s.slot e key = some slot := by
  by_cases he : e = s.nextEntry
  · subst he
    simp [World.slot, World.install, ClusterEntry.new] at h
  · simpa [World.slot, World.install, he] using h

def cacheLazy (s : World) : World :=
  match s.cached with
  | some _ => s
  | none => s.install

def insertConnected (s : World) : World :=
  match s.cached with
  | some e => if (s.entries e).unavailable then s.install else s
  | none => s.install

/-- Let go of every slot of an entry, and abort the pending linger tasks. -/
def dropEntryWatchers (s : World) (e : ℕ) : World :=
  let slots := (s.entries e).kinds
  { s.setKinds e ∅ with
    timers := fun t =>
      if slots.any fun _ slot => decide (slot.shutdownHandle = some t) then
        (s.timers t).map ({ · with aborted := true })
      else s.timers t }

theorem slot_dropEntryWatchers (s : World) (e e' : ℕ) (key : SlotKey) :
    (dropEntryWatchers s e).slot e' key = if e' = e then none else s.slot e' key := by
  have h := slot_setKinds s e e' ∅ key
  rwa [Finmap.lookup_empty] at h

/-- `subscribe_resource_with_entry` up to the lock. -/
def admitCall (site : Site) (s : World) (c e : ℕ) (kind : String) (namespaces : Option (List String)) :
    World :=
  match site.lookup kind with
  | none => s.setCall c (.refused s!"unknown kind: {kind}")
  | some namespaced =>
    if (s.entries e).unavailable then
      let id := site.clusterId
      s.setCall c (.refused s!"cluster {id} is unavailable — reconnect first")
    else s.setCall c (.admitted e kind namespaces (scopeFor namespaced namespaces))

/-- `subscribe_resource_with_entry` from the lock on. -/
def subscribeResource (s : World) (c e : ℕ) (kind : String) (namespaces : Option (List String))
    (scope : NsScope) : World :=
  let r := subscribeSlot (s.entries e).kinds (kind, scope) s.nextWatcher
  { ((s.abort r.aborted).setKinds e r.slots).setCall c
      (.subscribed ⟨e, kind, namespaces, r.watcher⟩) with
    watchers :=
      if r.started then Function.update s.watchers r.watcher (some (e, (kind, scope)))
      else s.watchers
    nextWatcher := if r.started then s.nextWatcher + 1 else s.nextWatcher }

section Subscribe

variable (s : World) (c e : ℕ) (kind : String) (namespaces : Option (List String)) (scope : NsScope)

/-- The watcher a subscriber gets. -/
def subscribeWatcher (e : ℕ) (key : SlotKey) : ℕ :=
  (((s.slot e key).getD .empty).watcher).getD s.nextWatcher

theorem slot_subscribeResource (e' : ℕ) (key : SlotKey) :
    (subscribeResource s c e kind namespaces scope).slot e' key =
      if e' = e ∧ key = (kind, scope) then
        some ⟨some (subscribeWatcher s e (kind, scope)),
          ((s.slot e (kind, scope)).getD .empty).subscribers + 1, none⟩
      else s.slot e' key := by
  have h : (subscribeResource s c e kind namespaces scope).slot e' key =
      (s.setKinds e (subscribeSlot (s.entries e).kinds (kind, scope) s.nextWatcher).slots).slot
        e' key := rfl
  rw [h, slot_setKinds]
  by_cases he : e' = e
  · rw [if_pos he, lookup_subscribeSlot, he]
    by_cases hk : key = (kind, scope)
    · rw [if_pos hk, if_pos ⟨rfl, hk⟩]
      rfl
    · rw [if_neg hk, if_neg (fun h => hk h.2)]
      rfl
  · rw [if_neg he, if_neg (fun h => he h.1)]

theorem calls_subscribeResource :
    (subscribeResource s c e kind namespaces scope).calls = Function.update s.calls c
      (.subscribed ⟨e, kind, namespaces, subscribeWatcher s e (kind, scope)⟩) := rfl

/-- A slot with a watcher hands it out, an empty one starts a fresh watcher. -/
theorem watchers_subscribeResource :
    ((s.watcherAt e (kind, scope) = some (subscribeWatcher s e (kind, scope)) ∧
      (subscribeResource s c e kind namespaces scope).watchers = s.watchers ∧
      (subscribeResource s c e kind namespaces scope).nextWatcher = s.nextWatcher) ∨
    (subscribeWatcher s e (kind, scope) = s.nextWatcher ∧
      (subscribeResource s c e kind namespaces scope).watchers =
        Function.update s.watchers s.nextWatcher (some (e, (kind, scope))) ∧
      (subscribeResource s c e kind namespaces scope).nextWatcher = s.nextWatcher + 1)) := by
  have hstarted : (subscribeSlot (s.entries e).kinds (kind, scope) s.nextWatcher).started =
      ((s.slot e (kind, scope)).getD .empty).watcher.isNone := rfl
  have hwatcher : (subscribeSlot (s.entries e).kinds (kind, scope) s.nextWatcher).watcher =
      subscribeWatcher s e (kind, scope) := rfl
  cases hw : ((s.slot e (kind, scope)).getD .empty).watcher with
  | some w =>
    refine .inl ⟨?_, by simp [subscribeResource, hstarted, hw], by
      simp [subscribeResource, hstarted, hw]⟩
    cases hslot : s.slot e (kind, scope) with
    | none => simp [hslot, KindSlot.empty] at hw
    | some slot =>
      rw [hslot, Option.getD_some] at hw
      simp [World.watcherAt, subscribeWatcher, hslot, hw]
  | none =>
    have hfresh : subscribeWatcher s e (kind, scope) = s.nextWatcher := by
      rw [subscribeWatcher, hw]
      rfl
    refine .inr ⟨hfresh, ?_, ?_⟩
    · simp [subscribeResource, hstarted, hwatcher, hw, hfresh]
    · simp [subscribeResource, hstarted, hw]

end Subscribe

/-- The slot an unsubscribe looks for. -/
def unsubscribeKey (site : Site) (sub : Subscription) : SlotKey :=
  (sub.kind, scopeFor ((site.lookup sub.kind).getD false) sub.namespaces)

/-- `unsubscribe_resource` from the lock on. -/
def unsubscribeResource (site : Site) (s : World) (c found : ℕ) (sub : Subscription) : World :=
  let key := unsubscribeKey site sub
  let r := unsubscribeSlot (s.entries found).kinds key s.nextTimer
  let timers := (s.abort r.aborted).timers
  { (s.setKinds found r.slots).setCall c .gone with
    timers :=
      if r.armed then Function.update timers s.nextTimer (some ⟨found, key, false⟩) else timers
    nextTimer := if r.armed then s.nextTimer + 1 else s.nextTimer }

/-- One atomic step of a command. A linger task that was past its sleep when it was aborted
still runs, so an aborted timer can expire or be reaped. -/
def step (site : Site) (s : World) : Action → Option World
  | .cacheLazy => some (cacheLazy s)
  | .insertConnected => some (insertConnected s)
  | .removeCluster => some { s with cached := none }
  | .removeClusterIfSame e => some (if s.cached = some e then { s with cached := none } else s)
  | .dropEntryWatchers e => some (dropEntryWatchers s e)
  | .resolve c kind namespaces =>
    match s.calls c, s.cached with
    | .idle, some e => some (s.setCall c (.resolved e kind namespaces))
    | _, _ => none
  | .checkFlag c =>
    match s.calls c with
    | .resolved e kind namespaces => some (admitCall site s c e kind namespaces)
    | _ => none
  | .subscribe c =>
    match s.calls c with
    | .admitted e kind namespaces scope => some (subscribeResource s c e kind namespaces scope)
    | _ => none
  | .leave c =>
    match s.calls c with
    | .subscribed sub => some (match s.cached with
      | some found => s.setCall c (.leaving found sub)
      | none => s.setCall c .gone)
    | _ => none
  | .unsubscribe c =>
    match s.calls c with
    | .leaving found sub => some (unsubscribeResource site s c found sub)
    | _ => none
  | .linger t => (s.timers t).map fun timer =>
      { s.setKinds timer.entry (lingerSlot (s.entries timer.entry).kinds timer.key) with
        timers := Function.update s.timers t none }
  | .reap t =>
    match s.timers t with
    | some timer =>
      if timer.aborted then some { s with timers := Function.update s.timers t none } else none
    | none => none
  | .teardownResolve d =>
    match s.teardowns d with
    | .idle => some (s.setTeardown d (match s.cached with
      | some e => .resolved e
      | none => .absent))
    | _ => none
  | .teardownFlag d =>
    match s.teardowns d with
    | .resolved e => some ((s.setUnavailable e).setTeardown d (.flagged e))
    | _ => none
  | .teardownLookup d =>
    match s.teardowns d with
    | .flagged e => some (s.setTeardown d (match s.cached with
      | some found => .clearing e found
      | none => .done e))
    | _ => none
  | .teardownClear d =>
    match s.teardowns d with
    | .clearing e found => some ((dropEntryWatchers s found).setTeardown d (.done e))
    | _ => none

/-- The steps as a relation, one rule for each way an action can go. -/
inductive Step (site : Site) (s : World) : Action → World → Prop where
  | kept {a} (ha : a = .cacheLazy ∨ a = .insertConnected ∨ ∃ e, a = .removeClusterIfSame e) :
      Step site s a s
  | cacheLazy (hc : s.cached = none) : Step site s .cacheLazy s.install
  | insertConnected (hc : ∀ e, s.cached = some e → (s.entries e).unavailable = true) :
      Step site s .insertConnected s.install
  | removeCluster : Step site s .removeCluster { s with cached := none }
  | removeClusterIfSame {e} (hc : s.cached = some e) :
      Step site s (.removeClusterIfSame e) { s with cached := none }
  | dropEntryWatchers (e : ℕ) : Step site s (.dropEntryWatchers e) (dropEntryWatchers s e)
  | resolve {c e kind namespaces} (hc : s.calls c = .idle) (he : s.cached = some e) :
      Step site s (.resolve c kind namespaces) (s.setCall c (.resolved e kind namespaces))
  | checkFlag {c e kind namespaces} {x : Call} (hc : s.calls c = .resolved e kind namespaces)
      (hx : (∃ error, x = .refused error) ∨ ∃ scope, x = .admitted e kind namespaces scope ∧
        (s.entries e).unavailable = false) : Step site s (.checkFlag c) (s.setCall c x)
  | subscribe {c e kind namespaces scope} (hc : s.calls c = .admitted e kind namespaces scope) :
      Step site s (.subscribe c) (subscribeResource s c e kind namespaces scope)
  | leave {c sub} {x : Call} (hc : s.calls c = .subscribed sub)
      (hx : x = .gone ∨ ∃ found, s.cached = some found ∧ x = .leaving found sub) :
      Step site s (.leave c) (s.setCall c x)
  | unsubscribe {c found sub} (hc : s.calls c = .leaving found sub) :
      Step site s (.unsubscribe c) (unsubscribeResource site s c found sub)
  | linger {t timer} (ht : s.timers t = some timer) : Step site s (.linger t)
      { s.setKinds timer.entry (lingerSlot (s.entries timer.entry).kinds timer.key) with
        timers := Function.update s.timers t none }
  | reap {t timer} (ht : s.timers t = some timer) (ha : timer.aborted = true) :
      Step site s (.reap t) { s with timers := Function.update s.timers t none }
  | teardownAbsent {d} (hd : s.teardowns d = .idle) (hc : s.cached = none) :
      Step site s (.teardownResolve d) (s.setTeardown d .absent)
  | teardownResolve {d e} (hd : s.teardowns d = .idle) (hc : s.cached = some e) :
      Step site s (.teardownResolve d) (s.setTeardown d (.resolved e))
  | teardownFlag {d e} (hd : s.teardowns d = .resolved e) :
      Step site s (.teardownFlag d) ((s.setUnavailable e).setTeardown d (.flagged e))
  | teardownMissed {d e} (hd : s.teardowns d = .flagged e) (hc : s.cached = none) :
      Step site s (.teardownLookup d) (s.setTeardown d (.done e))
  | teardownLookup {d e found} (hd : s.teardowns d = .flagged e) (hc : s.cached = some found) :
      Step site s (.teardownLookup d) (s.setTeardown d (.clearing e found))
  | teardownClear {d e found} (hd : s.teardowns d = .clearing e found) :
      Step site s (.teardownClear d) ((dropEntryWatchers s found).setTeardown d (.done e))

theorem step_inv {site : Site} {s t : World} {a : Action} (h : step site s a = some t) :
    Step site s a t := by
  cases a with
  | cacheLazy =>
    cases h
    unfold cacheLazy
    split
    next => exact .kept (.inl rfl)
    next hc => exact .cacheLazy hc
  | insertConnected =>
    cases h
    unfold insertConnected
    split
    next e hc =>
      split_ifs with hflag
      · exact .insertConnected fun e' he => by
          cases hc.symm.trans he
          exact hflag
      · exact .kept (.inr (.inl rfl))
    next hc =>
      exact .insertConnected fun e' he => by cases hc.symm.trans he
  | removeCluster =>
    cases h
    exact .removeCluster
  | removeClusterIfSame e =>
    cases h
    split_ifs with hc
    · exact .removeClusterIfSame hc
    · exact .kept (.inr (.inr ⟨e, rfl⟩))
  | dropEntryWatchers e =>
    cases h
    exact .dropEntryWatchers e
  | resolve c kind namespaces =>
    simp only [step] at h
    split at h
    next e hc he =>
      cases h
      exact .resolve hc he
    next => cases h
  | checkFlag c =>
    simp only [step] at h
    split at h
    next e kind namespaces hc =>
      cases h
      unfold admitCall
      split
      next => exact .checkFlag hc (.inl ⟨_, rfl⟩)
      next =>
        split_ifs with hflag
        · exact .checkFlag hc (.inl ⟨_, rfl⟩)
        · exact .checkFlag hc (.inr ⟨_, rfl, Bool.eq_false_iff.mpr hflag⟩)
    next => cases h
  | subscribe c =>
    simp only [step] at h
    split at h
    next e kind namespaces scope hc =>
      cases h
      exact .subscribe hc
    next => cases h
  | leave c =>
    simp only [step] at h
    split at h
    next sub hc =>
      split at h
      next found hf =>
        cases h
        exact .leave hc (.inr ⟨found, hf, rfl⟩)
      next =>
        cases h
        exact .leave hc (.inl rfl)
    next => cases h
  | unsubscribe c =>
    simp only [step] at h
    split at h
    next found sub hc =>
      cases h
      exact .unsubscribe hc
    next => cases h
  | linger t =>
    obtain ⟨timer, ht, rfl⟩ := Option.map_eq_some_iff.mp h
    exact .linger ht
  | reap t =>
    simp only [step] at h
    split at h
    next timer ht =>
      split_ifs at h with ha
      cases h
      exact .reap ht ha
    next => cases h
  | teardownResolve d =>
    simp only [step] at h
    split at h
    next hd =>
      cases h
      cases hc : s.cached with
      | none => exact .teardownAbsent hd hc
      | some e => exact .teardownResolve hd hc
    next => cases h
  | teardownFlag d =>
    simp only [step] at h
    split at h
    next e hd =>
      cases h
      exact .teardownFlag hd
    next => cases h
  | teardownLookup d =>
    simp only [step] at h
    split at h
    next e hd =>
      cases h
      cases hc : s.cached with
      | none => exact .teardownMissed hd hc
      | some found => exact .teardownLookup hd hc
    next => cases h
  | teardownClear d =>
    simp only [step] at h
    split at h
    next e found hd =>
      cases h
      exact .teardownClear hd
    next => cases h

theorem slot_unsubscribeResource (site : Site) (s : World) (c found : ℕ) (sub : Subscription)
    (e : ℕ) (key : SlotKey) :
    (unsubscribeResource site s c found sub).slot e key =
      if e = found then
        (unsubscribeSlot (s.entries found).kinds (unsubscribeKey site sub) s.nextTimer).slots.lookup key
      else s.slot e key :=
  slot_setKinds s found e _ key

abbrev Reaches (site : Site) (as : List Action) (s : World) : Prop :=
  LabelledRuns.run (step site) init as = some s

/-- The world after a list of actions, when all of them are enabled. -/
def after (site : Site) (as : List Action) : World := (LabelledRuns.run (step site) init as).getD init

theorem after_eq {site : Site} {as : List Action} {s : World} (h : Reaches site as s) :
    after site as = s := by
  rw [after, h, Option.getD_some]

theorem reaches_after {site : Site} {as : List Action}
    (h : (LabelledRuns.run (step site) init as).isSome = true) : Reaches site as (after site as) := by
  obtain ⟨s, hs⟩ := Option.isSome_iff_exists.mp h
  rwa [after_eq hs]

end FerrisScope.KindSlots
