import Mathlib.Data.Finmap
import Mathlib.Data.Nat.ModEq
import Mathlib.Logic.Function.Basic
import FerrisScope.LabelledRuns

/-!
# The process-wide caches of Helm repositories

The search of the configured repositories and the identity of each chart are memoised. A search
is filled under a lock and stored only when no invalidation has advanced the generation since the
fill read it; an identity is inserted into a plain map when its helm run is over. Calls interleave
wherever they wait, for the lock or for helm, and every critical section is a step of its own.

Four fields record history: the invalidations of each cache, the invalidations that had come
before the helm run of each cached value, and what the caches have served.
-/

namespace FerrisScope.RepositoryCaches
open LabelledRuns

structure HelmRepoChart where
  repo : String
  name : String
  version : String
  appVersion : Option String
  description : Option String
  deriving DecidableEq, Repr

structure ChartIdentity where
  home : Option String
  sources : List String
  deriving DecidableEq, Repr

/-- What a helm run gave, and how many invalidations of its cache came before the run. -/
structure Obtained (α : Type) where
  value : α
  cleared : ℕ
  deriving DecidableEq, Repr

/-- `generation` is a 64-bit counter, and the slot is stamped with the time of its fill. -/
structure TtlCache (α : Type) where
  generation : ℕ
  slot : Option (ℕ × α)

namespace TtlCache

variable {α : Type}

def new : TtlCache α := ⟨0, none⟩

/-- The value on a fresh hit, else the generation to pass to `put`. -/
def get (cache : TtlCache α) (now ttl : ℕ) : Except ℕ α :=
  match cache.slot with
  | some (stored, v) => if now - stored < ttl then .ok v else .error cache.generation
  | none => .error cache.generation

def put (cache : TtlCache α) (generation now : ℕ) (value : α) : Bool × TtlCache α :=
  if cache.generation ≠ generation then (false, cache)
  else (true, { cache with slot := some (now, value) })

def invalidate (cache : TtlCache α) : TtlCache α where
  generation := (cache.generation + 1) % 2 ^ 64
  slot := none

theorem get_ok {cache : TtlCache α} {now ttl : ℕ} {v : α} (h : cache.get now ttl = .ok v) :
    ∃ stored, cache.slot = some (stored, v) := by
  unfold get at h
  split at h
  next stored w hslot =>
    split_ifs at h
    cases h
    exact ⟨stored, hslot⟩
  next => cases h

theorem get_error {cache : TtlCache α} {now ttl g : ℕ} (h : cache.get now ttl = .error g) :
    g = cache.generation := by
  unfold get at h
  split at h
  next =>
    split_ifs at h
    cases h
    rfl
  next =>
    cases h
    rfl

@[simp] theorem generation_put (cache : TtlCache α) (g now : ℕ) (v : α) :
    (cache.put g now v).2.generation = cache.generation := by
  unfold put
  split_ifs <;> rfl

end TtlCache

/-- Nanoseconds. -/
def searchTtl : ℕ := 10 * 60 * 10 ^ 9

abbrev IdentityKey := String × String × String

abbrev Identities := Finmap fun _ : IdentityKey => Obtained (Option ChartIdentity)

def identityCacheCap : ℕ := 512

/-- The map after an insertion, emptied before it when it is full. -/
def insertIdentity (map : Option Identities) (key : IdentityKey) (ident : Obtained (Option ChartIdentity)) :
    Identities :=
  let map := map.getD ∅
  (if map.keys.card ≥ identityCacheCap then ∅ else map).insert key ident

/-- A call of `search_repo_cached`, of `repo_chart_identity` or of `invalidate_repo_caches`. The
generation of a fill is kept beside the number of invalidations at which it was read. -/
inductive Call where
  | idle
  | waiting
  | locked
  | missed (generation readAt : ℕ)
  | searching (generation readAt cleared : ℕ)
  | fetched (generation readAt : ℕ) (fresh : Obtained (List HelmRepoChart))
  | filled
  | absent (key : IdentityKey)
  | showing (key : IdentityKey) (cleared : ℕ)
  | shown (key : IdentityKey) (ident : Obtained (Option ChartIdentity))
  | invalidating
  | returned
  deriving DecidableEq, Repr

namespace Call

/-- The call runs `helm search`. -/
def searches : Call → Prop
  | .searching _ _ _ => True
  | _ => False

/-- The call holds the lock of the fill. -/
def fills : Call → Prop
  | .locked | .missed _ _ | .searching _ _ _ | .fetched _ _ _ | .filled => True
  | _ => False

/-- The generation a fill has read, the invalidations before the read, and those before its helm run. -/
def read : Call → Option (ℕ × ℕ × Option ℕ)
  | .missed g r => some (g, r, none)
  | .searching g r n => some (g, r, some n)
  | .fetched g r fresh => some (g, r, some fresh.cleared)
  | _ => none

end Call

structure State where
  search : TtlCache (Obtained (List HelmRepoChart))
  fill : Option ℕ
  identities : Option Identities
  now : ℕ
  call : ℕ → Call
  searchCleared : ℕ
  identitiesCleared : ℕ
  served : List (ℕ × ℕ)

def init : State where
  search := .new
  fill := none
  identities := none
  now := 0
  call := fun _ => .idle
  searchCleared := 0
  identitiesCleared := 0
  served := []

inductive Action where
  | searchRepoCached (c : ℕ) (helmAvailable : Bool)
  | lock (c : ℕ)
  | recheck (c : ℕ)
  | startSearch (c : ℕ)
  | finishSearch (c : ℕ) (charts : List HelmRepoChart)
  | put (c : ℕ)
  | unlock (c : ℕ)
  | repoChartIdentity (c : ℕ) (key : IdentityKey)
  | startShow (c : ℕ)
  | finishShow (c : ℕ) (ident : Option ChartIdentity)
  | insert (c : ℕ)
  | invalidateSearch (c : ℕ)
  | invalidateIdentities (c : ℕ)
  | drop (c : ℕ)
  | tick (d : ℕ)
  deriving DecidableEq, Repr

namespace State

variable (s : State)

def setCall (c : ℕ) (x : Call) : State := { s with call := Function.update s.call c x }

/-- A hit of the search cache. -/
def serveSearch (v : Obtained (List HelmRepoChart)) : State :=
  { s with served := (v.cleared, s.searchCleared) :: s.served }

/-- A hit of the identity cache. -/
def serveIdentity (v : Obtained (Option ChartIdentity)) : State :=
  { s with served := (v.cleared, s.identitiesCleared) :: s.served }

end State

/-- One critical section of a call. A call can be dropped where it waits, and helm dies with it. -/
def step (s : State) : Action → Option State
  | .searchRepoCached c helmAvailable =>
    match s.call c with
    | .idle =>
      if !helmAvailable then some (s.setCall c .returned)
      else match s.search.get s.now searchTtl with
        | .ok v => some ((s.serveSearch v).setCall c .returned)
        | .error _ => some (s.setCall c .waiting)
    | _ => none
  | .lock c =>
    match s.call c with
    | .waiting => if s.fill.isNone then some ({ s with fill := some c }.setCall c .locked) else none
    | _ => none
  | .recheck c =>
    match s.call c with
    | .locked => match s.search.get s.now searchTtl with
      | .ok v => some ((s.serveSearch v).setCall c .filled)
      | .error g => some (s.setCall c (.missed g s.searchCleared))
    | _ => none
  | .startSearch c =>
    match s.call c with
    | .missed g r => some (s.setCall c (.searching g r s.searchCleared))
    | _ => none
  | .finishSearch c charts =>
    match s.call c with
    | .searching g r n => some (s.setCall c (.fetched g r ⟨charts, n⟩))
    | _ => none
  | .put c =>
    match s.call c with
    | .fetched g _ fresh => some ({ s with search := (s.search.put g s.now fresh).2 }.setCall c .filled)
    | _ => none
  | .unlock c =>
    match s.call c with
    | .filled => some ({ s with fill := none }.setCall c .returned)
    | _ => none
  | .repoChartIdentity c key =>
    match s.call c with
    | .idle => match s.identities.bind (·.lookup key) with
      | some hit => some ((s.serveIdentity hit).setCall c .returned)
      | none => some (s.setCall c (.absent key))
    | _ => none
  | .startShow c =>
    match s.call c with
    | .absent key => some (s.setCall c (.showing key s.identitiesCleared))
    | _ => none
  | .finishShow c ident =>
    match s.call c with
    | .showing key n => some (s.setCall c (.shown key ⟨ident, n⟩))
    | _ => none
  | .insert c =>
    match s.call c with
    | .shown key ident =>
      some ({ s with identities := some (insertIdentity s.identities key ident) }.setCall c .returned)
    | _ => none
  | .invalidateSearch c =>
    match s.call c with
    | .idle => some ({ s with
        search := s.search.invalidate
        searchCleared := s.searchCleared + 1 }.setCall c .invalidating)
    | _ => none
  | .invalidateIdentities c =>
    match s.call c with
    | .invalidating => some ({ s with
        identities := none
        identitiesCleared := s.identitiesCleared + 1 }.setCall c .returned)
    | _ => none
  | .drop c =>
    match s.call c with
    | .waiting | .showing _ _ => some (s.setCall c .returned)
    | .searching _ _ _ => some ({ s with fill := none }.setCall c .returned)
    | _ => none
  | .tick d => some { s with now := s.now + d }

/-- Nothing a helm run gave before an invalidation of its cache is stored or has been served
after it, and one search runs at a time. -/
structure Complete (s : State) : Prop where
  search : ∀ stored v, s.search.slot = some (stored, v) → v.cleared = s.searchCleared
  identities : ∀ map, s.identities = some map → ∀ key v, map.lookup key = some v → v.cleared = s.identitiesCleared
  served : ∀ p ∈ s.served, p.1 = p.2
  single : ∀ c d, (s.call c).searches → (s.call d).searches → c = d

/-- No invalidation has come since the helm run of an identity about to be inserted. For a search
about to be stored the generation tells, unless a multiple of `2 ^ 64` invalidations have come
since it was read. -/
def Undisturbed (s : State) : Action → Prop
  | .insert c => match s.call c with
    | .shown _ ident => ident.cleared = s.identitiesCleared
    | _ => True
  | .put c => match s.call c with
    | .fetched _ r fresh => 2 ^ 64 ∣ s.searchCleared - r → fresh.cleared = s.searchCleared
    | _ => True
  | _ => True

instance (s : State) (a : Action) : Decidable (Undisturbed s a) := by
  unfold Undisturbed
  split
  · split <;> infer_instance
  · split <;> infer_instance
  · infer_instance

/-- What the lock and the generation keep in every run. -/
structure Inv (s : State) : Prop where
  generation : s.search.generation = s.searchCleared % 2 ^ 64
  lock : ∀ c, (s.call c).fills → s.fill = some c
  read : ∀ c g r n, (s.call c).read = some (g, r, n) →
    g = r % 2 ^ 64 ∧ r ≤ s.searchCleared

theorem inv_init : Inv init where
  generation := rfl
  lock := fun _ h => h.elim
  read := fun _ _ _ _ h => by cases h

theorem complete_init : Complete init where
  search := fun _ _ h => by cases h
  identities := fun _ h => by cases h
  served := fun _ h => by cases h
  single := fun _ _ h => h.elim

/-- The actions that store what a helm run gave. -/
def Action.stores : Action → Bool
  | .put _ | .insert _ => true
  | _ => false

theorem undisturbed_of_not_stores {s : State} {a : Action} (ha : a.stores = false) : Undisturbed s a := by
  unfold Undisturbed
  cases a <;> trivial

/-- The steps as a relation, one rule for each kind of change. -/
inductive Step (s : State) : Action → State → Prop where
  | move {a c x} (ha : a.stores = false) (hfills : x.fills → (s.call c).fills)
      (hread : ∀ g r n, x.read = some (g, r, n) →
        g = s.search.generation ∧ r = s.searchCleared ∨ ∃ n', (s.call c).read = some (g, r, n')) :
      Step s a (s.setCall c x)
  | serveSearch {a c x stored v} (ha : a.stores = false) (hslot : s.search.slot = some (stored, v))
      (hfills : x.fills → (s.call c).fills) (hread : x.read = none) :
      Step s a ((s.serveSearch v).setCall c x)
  | serveIdentity {a c map key v} (ha : a.stores = false) (hmap : s.identities = some map)
      (hkey : map.lookup key = some v) : Step s a ((s.serveIdentity v).setCall c .returned)
  | lock {c} (hfree : s.fill = none) : Step s (.lock c) ({ s with fill := some c }.setCall c .locked)
  | put {c g r fresh} (hc : s.call c = .fetched g r fresh) :
      Step s (.put c) ({ s with search := (s.search.put g s.now fresh).2 }.setCall c .filled)
  | release {a c} (ha : a.stores = false) (hc : (s.call c).fills) :
      Step s a ({ s with fill := none }.setCall c .returned)
  | insert {c key ident} (hc : s.call c = .shown key ident) : Step s (.insert c)
      ({ s with identities := some (insertIdentity s.identities key ident) }.setCall c .returned)
  | invalidateSearch {c} : Step s (.invalidateSearch c) ({ s with
      search := s.search.invalidate
      searchCleared := s.searchCleared + 1 }.setCall c .invalidating)
  | invalidateIdentities {c} : Step s (.invalidateIdentities c) ({ s with
      identities := none
      identitiesCleared := s.identitiesCleared + 1 }.setCall c .returned)
  | tick (d : ℕ) : Step s (.tick d) { s with now := s.now + d }

theorem step_inv {s t : State} {a : Action} (h : step s a = some t) : Step s a t := by
  cases a with
  | searchRepoCached c helmAvailable =>
    simp only [step] at h
    split at h
    next =>
      split_ifs at h
      · cases h
        exact .move rfl (fun hf => hf.elim) nofun
      · split at h
        next v hget =>
          cases h
          obtain ⟨stored, hslot⟩ := TtlCache.get_ok hget
          exact .serveSearch rfl hslot (fun hf => hf.elim) rfl
        next =>
          cases h
          exact .move rfl (fun hf => hf.elim) nofun
    next => cases h
  | lock c =>
    simp only [step] at h
    split at h
    next =>
      split_ifs at h with hfree
      cases h
      exact .lock (Option.isNone_iff_eq_none.mp hfree)
    next => cases h
  | recheck c =>
    simp only [step] at h
    split at h
    next hc =>
      have hfills : (s.call c).fills := by rw [hc]; trivial
      split at h
      next v hget =>
        cases h
        obtain ⟨stored, hslot⟩ := TtlCache.get_ok hget
        exact .serveSearch rfl hslot (fun _ => hfills) rfl
      next g hget =>
        cases h
        refine .move rfl (fun _ => hfills) fun g' r n hread => ?_
        cases hread
        exact .inl ⟨TtlCache.get_error hget, rfl⟩
    next => cases h
  | startSearch c =>
    simp only [step] at h
    split at h
    next g r hc =>
      cases h
      refine .move rfl (fun _ => by rw [hc]; trivial) fun g' r' n hread => ?_
      cases hread
      exact .inr ⟨none, by rw [hc]; rfl⟩
    next => cases h
  | finishSearch c charts =>
    simp only [step] at h
    split at h
    next g r n hc =>
      cases h
      refine .move rfl (fun _ => by rw [hc]; trivial) fun g' r' n' hread => ?_
      cases hread
      exact .inr ⟨some n, by rw [hc]; rfl⟩
    next => cases h
  | put c =>
    simp only [step] at h
    split at h
    next g r fresh hc =>
      cases h
      exact .put hc
    next => cases h
  | unlock c =>
    simp only [step] at h
    split at h
    next hc =>
      cases h
      exact .release rfl (by rw [hc]; trivial)
    next => cases h
  | repoChartIdentity c key =>
    simp only [step] at h
    split at h
    next =>
      split at h
      next hit hlookup =>
        cases h
        obtain ⟨map, hmap, hkey⟩ := Option.bind_eq_some_iff.mp hlookup
        exact .serveIdentity rfl hmap hkey
      next =>
        cases h
        exact .move rfl (fun hf => hf.elim) nofun
    next => cases h
  | startShow c =>
    simp only [step] at h
    split at h
    next =>
      cases h
      exact .move rfl (fun hf => hf.elim) nofun
    next => cases h
  | finishShow c ident =>
    simp only [step] at h
    split at h
    next =>
      cases h
      exact .move rfl (fun hf => hf.elim) nofun
    next => cases h
  | insert c =>
    simp only [step] at h
    split at h
    next key ident hc =>
      cases h
      exact .insert hc
    next => cases h
  | invalidateSearch c =>
    simp only [step] at h
    split at h
    next =>
      cases h
      exact .invalidateSearch
    next => cases h
  | invalidateIdentities c =>
    simp only [step] at h
    split at h
    next =>
      cases h
      exact .invalidateIdentities
    next => cases h
  | drop c =>
    simp only [step] at h
    split at h
    next =>
      cases h
      exact .move rfl (fun hf => hf.elim) nofun
    next =>
      cases h
      exact .move rfl (fun hf => hf.elim) nofun
    next hc =>
      cases h
      exact .release rfl (by rw [hc]; trivial)
    next => cases h
  | tick d =>
    simp only [step] at h
    cases h
    exact .tick d

/-- What the calls after a step hold, when one call has moved and the search cache has not. -/
theorem Inv.setCall {s t : State} {c : ℕ} {x : Call} (hs : Inv s) (hcall : t.call = Function.update s.call c x)
    (hgen : t.search.generation = s.search.generation) (hcleared : t.searchCleared = s.searchCleared)
    (hlock : ∀ d, d ≠ c → (s.call d).fills → t.fill = some d) (hfills : x.fills → t.fill = some c)
    (hread : ∀ g r n, x.read = some (g, r, n) →
      g = s.search.generation ∧ r = s.searchCleared ∨ ∃ n', (s.call c).read = some (g, r, n')) : Inv t where
  generation := by rw [hgen, hcleared, hs.generation]
  lock d hd := by
    rw [hcall] at hd
    obtain rfl | hne := eq_or_ne d c
    · exact hfills (by simpa using hd)
    · exact hlock d hne (by simpa [hne] using hd)
  read d g r n hd := by
    rw [hcleared]
    rw [hcall] at hd
    obtain rfl | hne := eq_or_ne d c
    · obtain ⟨rfl, rfl⟩ | ⟨n', hold⟩ := hread g r n (by simpa using hd)
      · exact ⟨hs.generation, le_rfl⟩
      · exact hs.read d g r n' hold
    · exact hs.read d g r n (by simpa [hne] using hd)

theorem inv_step {s t : State} {a : Action} (hs : Inv s) (h : step s a = some t) : Inv t := by
  cases step_inv h with
  | move _ hfills hread => exact hs.setCall rfl rfl rfl (fun d _ => hs.lock d) (fun hx => hs.lock _ (hfills hx)) hread
  | serveSearch _ _ hfills hread =>
    exact hs.setCall rfl rfl rfl (fun d _ => hs.lock d) (fun hx => hs.lock _ (hfills hx)) (by simp [hread])
  | serveIdentity => exact hs.setCall rfl rfl rfl (fun d _ => hs.lock d) (fun hx => hx.elim) nofun
  | lock hfree =>
    refine hs.setCall rfl rfl rfl (fun d _ hd => ?_) (fun _ => rfl) nofun
    have hheld := hs.lock d hd
    rw [hfree] at hheld
    cases hheld
  | put hc =>
    refine hs.setCall rfl (TtlCache.generation_put ..) rfl (fun d _ => hs.lock d) (fun _ => hs.lock _ ?_) nofun
    rw [hc]
    trivial
  | @release a c _ hc =>
    refine hs.setCall rfl rfl rfl (fun d hne hd => ?_) (fun hx => hx.elim) nofun
    exact absurd (Option.some.inj ((hs.lock d hd).symm.trans (hs.lock c hc))) hne
  | insert => exact hs.setCall rfl rfl rfl (fun d _ => hs.lock d) (fun hx => hx.elim) nofun
  | @invalidateSearch c =>
    have hold : Inv (s.setCall c .invalidating) :=
      hs.setCall rfl rfl rfl (fun d _ => hs.lock d) (fun hx => hx.elim) nofun
    exact
      { generation := by simp [State.setCall, TtlCache.invalidate, hs.generation]
        lock := hold.lock
        read := fun d g r n hd => ⟨(hold.read d g r n hd).1, Nat.le_succ_of_le (hold.read d g r n hd).2⟩ }
  | invalidateIdentities => exact hs.setCall rfl rfl rfl (fun d _ => hs.lock d) (fun hx => hx.elim) nofun
  | tick d => exact ⟨hs.generation, hs.lock, hs.read⟩

theorem Call.fills_of_searches {x : Call} (h : x.searches) : x.fills := by
  cases x <;> trivial

/-- One search runs at a time, because the caller that runs it holds the lock. -/
theorem Inv.single {s : State} (hs : Inv s) {c d : ℕ} (hc : (s.call c).searches) (hd : (s.call d).searches) :
    c = d :=
  Option.some.inj ((hs.lock c (Call.fills_of_searches hc)).symm.trans (hs.lock d (Call.fills_of_searches hd)))

/-- A fill finds its generation unchanged exactly when a multiple of `2 ^ 64` invalidations came since. -/
theorem Inv.generation_eq_iff {s : State} (hs : Inv s) {c g r : ℕ} {n : Option ℕ}
    (hread : (s.call c).read = some (g, r, n)) : s.search.generation = g ↔ 2 ^ 64 ∣ s.searchCleared - r := by
  obtain ⟨rfl, hle⟩ := hs.read c g r n hread
  rw [hs.generation, eq_comm]
  exact Nat.modEq_iff_dvd' hle

theorem lookup_insertIdentity {map : Option Identities} {key k : IdentityKey}
    {ident v : Obtained (Option ChartIdentity)} (h : (insertIdentity map key ident).lookup k = some v) :
    v = ident ∨ ∃ m, map = some m ∧ m.lookup k = some v := by
  unfold insertIdentity at h
  obtain rfl | hne := eq_or_ne k key
  · rw [Finmap.lookup_insert] at h
    exact .inl (Option.some.inj h).symm
  · rw [Finmap.lookup_insert_of_ne _ hne] at h
    split_ifs at h
    · cases h
    · cases map with
      | none => cases h
      | some m => exact .inr ⟨m, rfl, h⟩

/-- A step keeps the caches complete exactly when no invalidation has overtaken what it stores. -/
theorem complete_step_iff {s t : State} {a : Action} (hs : Inv s) (hp : Complete s) (h : step s a = some t) :
    Complete t ↔ Undisturbed s a := by
  have hsingle : ∀ c d, (t.call c).searches → (t.call d).searches → c = d := fun c d => (inv_step hs h).single
  cases step_inv h with
  | move ha => exact iff_of_true ⟨hp.search, hp.identities, hp.served, hsingle⟩ (undisturbed_of_not_stores ha)
  | @serveSearch _ _ _ stored v ha hslot =>
    refine iff_of_true ⟨hp.search, hp.identities, fun p hmem => ?_, hsingle⟩ (undisturbed_of_not_stores ha)
    obtain rfl | hmem := List.mem_cons.mp hmem
    · exact hp.search stored v hslot
    · exact hp.served p hmem
  | @serveIdentity _ _ map key v ha hmap hkey =>
    refine iff_of_true ⟨hp.search, hp.identities, fun p hmem => ?_, hsingle⟩ (undisturbed_of_not_stores ha)
    obtain rfl | hmem := List.mem_cons.mp hmem
    · exact hp.identities map hmap key v hkey
    · exact hp.served p hmem
  | lock => exact iff_of_true ⟨hp.search, hp.identities, hp.served, hsingle⟩ trivial
  | @put c g r fresh hc =>
    have hgen : s.search.generation = g ↔ 2 ^ 64 ∣ s.searchCleared - r :=
      hs.generation_eq_iff (n := some fresh.cleared) (by rw [hc]; rfl)
    simp only [Undisturbed, hc, ← hgen]
    constructor
    · rintro ht rfl
      exact ht.search s.now fresh (by simp [State.setCall, TtlCache.put])
    · refine fun hstored => ⟨fun stored v hv => ?_, hp.identities, hp.served, hsingle⟩
      simp only [State.setCall, TtlCache.put] at hv
      split_ifs at hv with hne
      · exact hp.search stored v hv
      · cases hv
        exact hstored (not_not.mp hne)
  | release ha => exact iff_of_true ⟨hp.search, hp.identities, hp.served, hsingle⟩ (undisturbed_of_not_stores ha)
  | @insert c key ident hc =>
    simp only [Undisturbed, hc]
    constructor
    · exact fun ht => ht.identities _ rfl key ident (Finmap.lookup_insert _)
    · refine fun hfresh => ⟨hp.search, fun map hmap k v hv => ?_, hp.served, hsingle⟩
      cases hmap
      obtain rfl | ⟨m, hm, hold⟩ := lookup_insertIdentity hv
      · exact hfresh
      · exact hp.identities m hm k v hold
  | invalidateSearch => exact iff_of_true ⟨nofun, hp.identities, hp.served, hsingle⟩ trivial
  | invalidateIdentities => exact iff_of_true ⟨hp.search, nofun, hp.served, hsingle⟩ trivial
  | tick => exact iff_of_true ⟨hp.search, hp.identities, hp.served, hsingle⟩ trivial

/-- Invalidation is complete throughout a run exactly when no step of it stores what a helm run
gave before an invalidation. -/
theorem complete_throughout_iff {as : List Action} {s : State} (h : run step init as = some s) :
    (∀ pre post t, as = pre ++ post → run step init pre = some t → Complete t) ↔ Meets step Undisturbed init as :=
  forall_prefix_iff_meets (fun _ _ _ => inv_step) (fun _ _ _ => complete_step_iff) inv_init complete_init h

/-- A search that an invalidation overtakes is not stored, and the next call searches again. -/
theorem complete_throughout_iff_refill :
    ∃ s, run step init [.searchRepoCached 0 true, .lock 0, .recheck 0, .startSearch 0, .invalidateSearch 1,
        .invalidateIdentities 1, .finishSearch 0 [], .put 0, .unlock 0, .searchRepoCached 2 true] = some s ∧
      s.call 2 = .waiting ∧
      ∀ pre post t, [.searchRepoCached 0 true, .lock 0, .recheck 0, .startSearch 0, .invalidateSearch 1,
        .invalidateIdentities 1, .finishSearch 0 [], .put 0, .unlock 0, .searchRepoCached 2 true] = pre ++ post →
        run step init pre = some t → Complete t :=
  ⟨_, rfl, rfl, (complete_throughout_iff rfl).mpr (by decide)⟩

/-- An identity whose helm run began before an invalidation is inserted after it. -/
theorem overtaken_identity_inserted :
    ∃ s, run step init [.repoChartIdentity 0 ("r", "c", "1.0.0"), .startShow 0, .invalidateSearch 1,
        .invalidateIdentities 1, .finishShow 0 none, .insert 0] = some s ∧ ¬ Complete s := by
  refine ⟨_, rfl, fun hs => ?_⟩
  have hstale := hs.identities _ rfl ("r", "c", "1.0.0") ⟨none, 0⟩ (Finmap.lookup_insert _)
  cases hstale

end FerrisScope.RepositoryCaches
