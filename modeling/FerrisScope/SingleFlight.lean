import Mathlib.Data.Nat.Notation
import Mathlib.Logic.Function.Basic
import FerrisScope.LabelledRuns

/-!
# Single-flight connects of one cluster

Callers that miss the cached entry join the flight registered for the cluster's id, or
register one. A flight holds a write-once cell, whose single permit decides who computes,
and a cancellation flag. Its value is the outcome of a connect, cached on the way unless an
entry is there already or the flight was cancelled. The map of entries, the map of flights
and the cell are guarded separately, so every critical section is an action of its own.
-/

namespace FerrisScope.SingleFlight

/-- `permit` is the caller that computes the value of the cell. -/
structure Flight (V : Type) where
  cell : Option V
  cancelled : Bool
  permit : Option ℕ

def Flight.new {V : Type} : Flight V := ⟨none, false, none⟩

/-- The flights of one key, numbered in the order of their registration. -/
structure Flights (V : Type) where
  registered : Option ℕ
  flight : ℕ → Flight V
  next : ℕ

namespace Flights

variable {V : Type} (fl : Flights V)

def set (f : ℕ) (x : Flight V) : Flights V := { fl with flight := Function.update fl.flight f x }

/-- The registered flight, or a new one that is registered now. -/
def join : ℕ × Flights V :=
  match fl.registered with
  | some f => (f, fl)
  | none => (fl.next,
      { registered := some fl.next
        flight := Function.update fl.flight fl.next .new
        next := fl.next + 1 })

def acquire (f c : ℕ) : Flights V := fl.set f { fl.flight f with permit := some c }

/-- The permit goes back when the computing future is dropped. -/
def release (f : ℕ) : Flights V := fl.set f { fl.flight f with permit := none }

def publish (f : ℕ) (v : V) : Flights V :=
  fl.set f { fl.flight f with cell := some v, permit := none }

/-- A settled flight removes its registration, if it is still its own. -/
def settle (f : ℕ) : Flights V :=
  if fl.registered = some f then { fl with registered := none } else fl

def cancel : Flights V :=
  match fl.registered with
  | some f => { fl.set f { fl.flight f with cancelled := true } with registered := none }
  | none => fl

end Flights

structure Cluster where
  tunnelLocalPort : Option ℕ
  deriving DecidableEq, Repr

/-- What a flight hands to its callers: an entry or an error. -/
abbrev Value := Except String ℕ

/-- A call of `entry`, from its lookup of the cached entry to its return. -/
inductive Caller where
  | idle
  | found (e : ℕ)
  | missed
  | joined (f : ℕ)
  | computing (f : ℕ)
  | connected (f : ℕ) (cluster : Cluster)
  | computed (f : ℕ) (v : Value)
  | got (f : ℕ) (v : Value)
  | returned (f : ℕ) (v : Value)
  | dropped

/-- The flight for which a caller holds the permit. -/
def Caller.computes : Caller → Option ℕ
  | .computing f | .connected f _ | .computed f _ => some f
  | _ => none

/-- The value a caller took from the cell of its flight. -/
def Caller.took : Caller → Option (ℕ × Value)
  | .got f v | .returned f v => some (f, v)
  | _ => none

/-- The flight a caller joined. -/
def Caller.flight : Caller → Option ℕ
  | .joined f | .computing f | .connected f _ | .computed f _ | .got f _ | .returned f _ => some f
  | _ => none

/-- `removing` is a `remove_cluster` that has cancelled the flight and still holds the lock on
the map of entries. -/
structure AppState where
  inner : Option ℕ
  removing : Bool
  unavailable : ℕ → Bool
  nextEntry : ℕ
  tunnelPort : Option ℕ
  connecting : Flights Value
  callers : ℕ → Caller

def init : AppState where
  inner := none
  removing := false
  unavailable := fun _ => false
  nextEntry := 0
  tunnelPort := none
  connecting := ⟨none, fun _ => .new, 0⟩
  callers := fun _ => .idle

inductive Action where
  | lookup (c : ℕ)
  | join (c : ℕ)
  | acquire (c : ℕ)
  | read (c : ℕ)
  | connect (c : ℕ) (result : Except String Cluster)
  | cacheLazy (c : ℕ)
  | publish (c : ℕ)
  | settle (c : ℕ)
  | drop (c : ℕ)
  | cancel
  | removeCancel
  | removeEntry
  | removeIfSame (e : ℕ)
  | insertConnected (cluster : Cluster)
  | markUnavailable (e : ℕ)

namespace AppState

variable (s : AppState)

def setCaller (c : ℕ) (x : Caller) : AppState := { s with callers := Function.update s.callers c x }

def setFlights (fl : Flights Value) : AppState := { s with connecting := fl }

/-- Put a fresh entry into the map. -/
def insert (cluster : Cluster) : AppState :=
  { s with
    inner := some s.nextEntry
    unavailable := Function.update s.unavailable s.nextEntry false
    nextEntry := s.nextEntry + 1
    tunnelPort := cluster.tunnelLocalPort.or s.tunnelPort }

@[simp] theorem callers_setFlights (fl : Flights Value) : (s.setFlights fl).callers = s.callers := rfl

@[simp] theorem callers_insert (cluster : Cluster) : (s.insert cluster).callers = s.callers := rfl

end AppState

def cacheLazy (id : String) (s : AppState) (cluster : Cluster) (cancelled : Bool) : Value × AppState :=
  match s.inner with
  | some e => (.ok e, s)
  | none =>
    if cancelled then (.error s!"{id}: disconnected while connecting", s)
    else (.ok s.nextEntry, s.insert cluster)

/-- The entry under the id after the call, the displaced one, and the new state. -/
def insertConnected (s : AppState) (cluster : Cluster) : ℕ × Option ℕ × AppState :=
  match s.inner with
  | some e =>
    if s.unavailable e then (s.nextEntry, some e, s.insert cluster) else (e, none, s)
  | none => (s.nextEntry, none, s.insert cluster)

/-- The outcome of `connect_cluster`: a cluster still to be cached, or an error to publish. -/
def afterConnect (f : ℕ) : Except String Cluster → Caller
  | .ok cluster => .connected f cluster
  | .error e => .computed f (.error e)

/-- One critical section of a command. A future can be dropped where it waits: for the flight,
for the connect, or for the lock on the map. -/
def step (id : String) (s : AppState) : Action → Option AppState
  | .lookup c =>
    match s.callers c with
    | .idle => if s.removing then none else
        some (s.setCaller c (match s.inner with
          | some e => .found e
          | none => .missed))
    | _ => none
  | .join c =>
    match s.callers c with
    | .missed => some ((s.setFlights s.connecting.join.2).setCaller c (.joined s.connecting.join.1))
    | _ => none
  | .acquire c =>
    match s.callers c with
    | .joined f =>
      if (s.connecting.flight f).cell.isNone ∧ (s.connecting.flight f).permit.isNone then
        some ((s.setFlights (s.connecting.acquire f c)).setCaller c (.computing f))
      else none
    | _ => none
  | .read c =>
    match s.callers c with
    | .joined f => (s.connecting.flight f).cell.map fun v => s.setCaller c (.got f v)
    | _ => none
  | .connect c result =>
    match s.callers c with
    | .computing f => some (s.setCaller c (afterConnect f result))
    | _ => none
  | .cacheLazy c =>
    match s.callers c with
    | .connected f cluster => if s.removing then none else
        let r := cacheLazy id s cluster (s.connecting.flight f).cancelled
        some (r.2.setCaller c (.computed f r.1))
    | _ => none
  | .publish c =>
    match s.callers c with
    | .computed f v => some ((s.setFlights (s.connecting.publish f v)).setCaller c (.got f v))
    | _ => none
  | .settle c =>
    match s.callers c with
    | .got f v => some ((s.setFlights (s.connecting.settle f)).setCaller c (.returned f v))
    | _ => none
  | .drop c =>
    match s.callers c with
    | .missed | .joined _ => some (s.setCaller c .dropped)
    | .computing f | .connected f _ =>
      some ((s.setFlights (s.connecting.release f)).setCaller c .dropped)
    | _ => none
  | .cancel => some (s.setFlights s.connecting.cancel)
  | .removeCancel =>
    if s.removing then none else some { s.setFlights s.connecting.cancel with removing := true }
  | .removeEntry => if s.removing then some { s with inner := none, removing := false } else none
  | .removeIfSame e =>
    if s.removing then none
    else some (if s.inner = some e then { s with inner := none } else s)
  | .insertConnected cluster => if s.removing then none else some (insertConnected s cluster).2.2
  | .markUnavailable e => some { s with unavailable := Function.update s.unavailable e true }

abbrev Reaches (id : String) (as : List Action) (s : AppState) : Prop :=
  LabelledRuns.run (step id) init as = some s

/-- The steps as a relation, one rule for each way an action can go. -/
inductive Step (id : String) (s : AppState) : Action → AppState → Prop where
  | lookup {c} {x : Caller} (hc : s.callers c = .idle)
      (hx : x = .missed ∨ ∃ e, s.inner = some e ∧ x = .found e) :
      Step id s (.lookup c) (s.setCaller c x)
  | join {c} (hc : s.callers c = .missed) : Step id s (.join c)
      ((s.setFlights s.connecting.join.2).setCaller c (.joined s.connecting.join.1))
  | acquire {c f} (hc : s.callers c = .joined f) (hcell : (s.connecting.flight f).cell = none)
      (hpermit : (s.connecting.flight f).permit = none) : Step id s (.acquire c)
      ((s.setFlights (s.connecting.acquire f c)).setCaller c (.computing f))
  | read {c f v} (hc : s.callers c = .joined f) (hcell : (s.connecting.flight f).cell = some v) :
      Step id s (.read c) (s.setCaller c (.got f v))
  | connect {c f result} (hc : s.callers c = .computing f) :
      Step id s (.connect c result) (s.setCaller c (afterConnect f result))
  | cacheKept {c f cluster v} (hc : s.callers c = .connected f cluster)
      (hkept : s.inner ≠ none ∨ (s.connecting.flight f).cancelled = true) :
      Step id s (.cacheLazy c) (s.setCaller c (.computed f v))
  | cacheInsert {c f cluster} (hc : s.callers c = .connected f cluster) (hinner : s.inner = none)
      (hcancelled : (s.connecting.flight f).cancelled = false) : Step id s (.cacheLazy c)
      ((s.insert cluster).setCaller c (.computed f (.ok s.nextEntry)))
  | publish {c f v} (hc : s.callers c = .computed f v) : Step id s (.publish c)
      ((s.setFlights (s.connecting.publish f v)).setCaller c (.got f v))
  | settle {c f v} (hc : s.callers c = .got f v) : Step id s (.settle c)
      ((s.setFlights (s.connecting.settle f)).setCaller c (.returned f v))
  | dropWaiting {c} (hc : (s.callers c).computes = none) (hc' : (s.callers c).took = none) :
      Step id s (.drop c) (s.setCaller c .dropped)
  | dropComputing {c f} (hc : (s.callers c).computes = some f) : Step id s (.drop c)
      ((s.setFlights (s.connecting.release f)).setCaller c .dropped)
  | cancel : Step id s .cancel (s.setFlights s.connecting.cancel)
  | removeCancel (hr : s.removing = false) :
      Step id s .removeCancel { s.setFlights s.connecting.cancel with removing := true }
  | removeEntry : Step id s .removeEntry { s with inner := none, removing := false }
  | removeIfSame {e} (he : s.inner = some e) : Step id s (.removeIfSame e) { s with inner := none }
  | insertConnected {cluster} (hinner : ∀ e, s.inner = some e → s.unavailable e = true) :
      Step id s (.insertConnected cluster) (s.insert cluster)
  | kept {a} (ha : (∃ e, a = .removeIfSame e) ∨ ∃ cluster, a = .insertConnected cluster) :
      Step id s a s
  | markUnavailable (e : ℕ) : Step id s (.markUnavailable e)
      { s with unavailable := Function.update s.unavailable e true }

theorem step_inv {id : String} {s t : AppState} {a : Action} (h : step id s a = some t) :
    Step id s a t := by
  cases a with
  | lookup c =>
    simp only [step] at h
    split at h
    next hc =>
      split_ifs at h
      cases h
      refine .lookup hc ?_
      cases hi : s.inner with
      | none => exact .inl rfl
      | some e => exact .inr ⟨e, rfl, rfl⟩
    next => cases h
  | join c =>
    simp only [step] at h
    split at h
    next hc =>
      cases h
      exact .join hc
    next => cases h
  | acquire c =>
    simp only [step] at h
    split at h
    next f hc =>
      split_ifs at h with hfree
      cases h
      exact .acquire hc (Option.isNone_iff_eq_none.mp hfree.1) (Option.isNone_iff_eq_none.mp hfree.2)
    next => cases h
  | read c =>
    simp only [step] at h
    split at h
    next f hc =>
      obtain ⟨v, hv, rfl⟩ := Option.map_eq_some_iff.mp h
      exact .read hc hv
    next => cases h
  | connect c result =>
    simp only [step] at h
    split at h
    next f hc =>
      cases h
      exact .connect hc
    next => cases h
  | cacheLazy c =>
    simp only [step] at h
    split at h
    next f cluster hc =>
      split_ifs at h
      cases h
      unfold cacheLazy
      split
      next e he => exact .cacheKept hc (.inl (by simp [he]))
      next hinner =>
        split_ifs with hcancelled
        · exact .cacheKept hc (.inr hcancelled)
        · exact .cacheInsert hc hinner (Bool.eq_false_iff.mpr hcancelled)
    next => cases h
  | publish c =>
    simp only [step] at h
    split at h
    next f v hc =>
      cases h
      exact .publish hc
    next => cases h
  | settle c =>
    simp only [step] at h
    split at h
    next f v hc =>
      cases h
      exact .settle hc
    next => cases h
  | drop c =>
    simp only [step] at h
    split at h
    next hc =>
      cases h
      exact .dropWaiting (by rw [hc]; rfl) (by rw [hc]; rfl)
    next f hc =>
      cases h
      exact .dropWaiting (by rw [hc]; rfl) (by rw [hc]; rfl)
    next f hc =>
      cases h
      exact .dropComputing (by rw [hc]; rfl)
    next f cluster hc =>
      cases h
      exact .dropComputing (by rw [hc]; rfl)
    next => cases h
  | cancel =>
    cases h
    exact .cancel
  | removeCancel =>
    simp only [step] at h
    split_ifs at h with hr
    cases h
    exact .removeCancel (Bool.eq_false_iff.mpr hr)
  | removeEntry =>
    simp only [step] at h
    split_ifs at h
    cases h
    exact .removeEntry
  | removeIfSame e =>
    simp only [step] at h
    split_ifs at h with hr he
    · cases h
      exact .removeIfSame he
    · cases h
      exact .kept (.inl ⟨e, rfl⟩)
  | insertConnected cluster =>
    simp only [step] at h
    split_ifs at h
    cases h
    unfold insertConnected
    split
    next e he =>
      split_ifs with hflag
      · exact .insertConnected fun e' he' => by
          cases he.symm.trans he'
          exact hflag
      · exact .kept (.inr ⟨cluster, rfl⟩)
    next hinner => exact .insertConnected fun e he => by cases hinner.symm.trans he
  | markUnavailable e =>
    cases h
    exact .markUnavailable e

end FerrisScope.SingleFlight
