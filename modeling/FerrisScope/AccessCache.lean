import Mathlib.Logic.Function.Basic
import FerrisScope.LabelledRuns

/-!
# The access-decision cache

Hooks ask whether a cluster would permit an action. Checks that are missing or stale are marked
in flight and grouped into one batch for each call and cluster; a microtask sends the batches, and
each reply is stored at the keys of its batch. Invalidating a cluster forgets its entries,
drops its queued batches and starts an epoch, so that replies to older batches are ignored.
Revalidating starts a round, whose older replies are stored already stale and asked again.

Three fields record history: the ids of the batches, the next of them, and the replies stored.
-/

namespace FerrisScope.AccessCache
open LabelledRuns

inductive AccessAction where
  | get | list | watch | create | update | patch | delete | logs | exec | attach | portForward
  | evict | restart | cordon | drain | nodeShell | nodeProxy | trigger | rerun | suspend
  | helmInstall | helmUpgrade | helmRollback | helmUninstall
  deriving DecidableEq, Repr

def AccessAction.text : AccessAction → String
  | .get => "get"
  | .list => "list"
  | .watch => "watch"
  | .create => "create"
  | .update => "update"
  | .patch => "patch"
  | .delete => "delete"
  | .logs => "logs"
  | .exec => "exec"
  | .attach => "attach"
  | .portForward => "portForward"
  | .evict => "evict"
  | .restart => "restart"
  | .cordon => "cordon"
  | .drain => "drain"
  | .nodeShell => "nodeShell"
  | .nodeProxy => "nodeProxy"
  | .trigger => "trigger"
  | .rerun => "rerun"
  | .suspend => "suspend"
  | .helmInstall => "helmInstall"
  | .helmUpgrade => "helmUpgrade"
  | .helmRollback => "helmRollback"
  | .helmUninstall => "helmUninstall"

structure AccessRequest where
  kindId : String
  action : AccessAction
  ns : Option String
  name : Option String
  deriving DecidableEq, Repr

structure ScopedAccessRequest extends AccessRequest where
  clusterId : String
  deriving DecidableEq, Repr

/-- `unknown` means that the check itself failed. -/
inductive AccessDecision where
  | allowed
  | denied (reason : String)
  | unknown (error : String)
  deriving DecidableEq, Repr

structure Entry where
  decision : Option AccessDecision
  storedAt : Int
  inflight : Bool
  deriving DecidableEq, Repr

structure Batch where
  clusterId : String
  keys : List String
  requests : List AccessRequest
  deriving DecidableEq, Repr

/-- The counters when a batch was sent. -/
structure Asked where
  reset : Nat
  epoch : Nat
  round : Nat
  deriving DecidableEq, Repr

/-- A batch without its reply. It is issued to the backend once the invalidation that was
pending when it was sent is over. -/
structure Sent where
  id : Nat
  batch : Batch
  asked : Asked
  waitsFor : Option Nat
  issued : Bool
  deriving DecidableEq, Repr

/-- What the backend call resolves to: a list, nothing, or a rejection. -/
inductive Reply where
  | ok (decisions : Option (List AccessDecision))
  | failed (error : String)
  deriving DecidableEq, Repr

/-- A reply that was stored. -/
structure Settled where
  sent : Sent
  reply : Reply
  deriving DecidableEq, Repr

/-- Counters are zero where the source's maps have no entry. `invalidates` holds the
backend invalidations that are not over, with their clusters. -/
structure State where
  entries : String → Option Entry
  listeners : List (List ScopedAccessRequest)
  batches : List Batch
  scheduled : Bool
  microtasks : Nat
  epochs : String → Nat
  rounds : String → Nat
  resets : Nat
  invalidating : String → Option Nat
  invalidates : List (Nat × String)
  invalidations : Nat
  sent : List Sent
  nextId : Nat
  settled : List Settled

def initialState : State where
  entries := fun _ => none
  listeners := []
  batches := []
  scheduled := false
  microtasks := 0
  epochs := fun _ => 0
  rounds := fun _ => 0
  resets := 0
  invalidating := fun _ => none
  invalidates := []
  invalidations := 0
  sent := []
  nextId := 0
  settled := []

def ttlMs : Int := 120000

def unknownTtlMs : Int := 10000

def accessKey (r : ScopedAccessRequest) : String :=
  String.intercalate "\x00" [r.clusterId, r.kindId, r.action.text, r.ns.getD "", r.name.getD ""]

/-- `r` asked of a cluster. -/
def AccessRequest.scoped (r : AccessRequest) (clusterId : String) : ScopedAccessRequest :=
  { r with clusterId := clusterId }

def ttlOf : Option AccessDecision → Int
  | some (.unknown _) => unknownTtlMs
  | _ => ttlMs

def stale (e : Option Entry) (now : Int) : Bool :=
  match e with
  | none => true
  | some e => !e.inflight && decide (now - e.storedAt ≥ ttlOf e.decision)

/-- The batch of the check's cluster, among those of one call, takes one more request. -/
def addRequest (c : ScopedAccessRequest) (key : String) : List Batch → List Batch
  | [] => [⟨c.clusterId, [key], [c.toAccessRequest]⟩]
  | b :: mine =>
    if b.clusterId = c.clusterId then
      { b with keys := b.keys ++ [key], requests := b.requests ++ [c.toAccessRequest] } :: mine
    else b :: addRequest c key mine

/-- One check of a call: entries so far, and the call's own batches. -/
def askOne (now : Int) (acc : (String → Option Entry) × List Batch) (check : ScopedAccessRequest × String) :
    (String → Option Entry) × List Batch :=
  let e := acc.1 check.2
  if stale e now then
    let entry : Entry :=
      { decision := e.bind (·.decision), storedAt := (e.map (·.storedAt)).getD 0, inflight := true }
    (Function.update acc.1 check.2 (some entry), addRequest check.1 check.2 acc.2)
  else acc

def schedule (s : State) : State :=
  if s.batches ≠ [] ∧ s.scheduled = false then
    { s with scheduled := true, microtasks := s.microtasks + 1 }
  else s

def ask (s : State) (checks : List ScopedAccessRequest) (keys : List String) (now : Int) : State :=
  let acc := (checks.zip keys).foldl (askOne now) (s.entries, [])
  schedule { s with entries := acc.1, batches := s.batches ++ acc.2 }

def requestAccess (s : State) (checks : List ScopedAccessRequest) (now : Int) : State :=
  ask s checks (checks.map accessKey) now

/-- Re-ask every mounted hook's stale checks; the clock is read once more by `ask`. -/
def revalidateStale (s : State) (now later : Int) : State :=
  let checks := s.listeners.flatten.filter fun c => stale (s.entries (accessKey c)) now
  ask s checks (checks.map accessKey) later

def stamped (s : State) (b : Batch) : Sent where
  id := s.nextId
  batch := b
  asked := ⟨s.resets, s.epochs b.clusterId, s.rounds b.clusterId⟩
  waitsFor := s.invalidating b.clusterId
  issued := false

def sendBatch (s : State) (b : Batch) : State := { s with
  sent := s.sent ++ [stamped s b]
  nextId := s.nextId + 1 }

def flush (s : State) : State :=
  s.batches.foldl sendBatch { s with
    scheduled := false
    batches := []
    microtasks := s.microtasks - 1 }

/-- What is handed to `settle`. -/
def decisionsOf (keys : List String) : Reply → Option (List AccessDecision)
  | .ok decisions => decisions
  | .failed error => some (keys.map fun _ => .unknown error)

def answer (decisions : Option (List AccessDecision)) (i : Nat) : AccessDecision :=
  (decisions.bind (·[i]?)).getD (.unknown "no answer")

/-- The answers are stored from position `i` on. -/
def storeAnswers (decisions : Option (List AccessDecision)) (storedAt : Int) :
    Nat → List String → (String → Option Entry) → String → Option Entry
  | _, [], entries => entries
  | i, k :: keys, entries =>
    let entry : Entry := { decision := some (answer decisions i), storedAt := storedAt, inflight := false }
    storeAnswers decisions storedAt (i + 1) keys (Function.update entries k (some entry))

def storeReply (s : State) (x : Sent) (reply : Reply) (storedAt : Int) : State := { s with
  entries := storeAnswers (decisionsOf x.batch.keys reply) storedAt 0 x.batch.keys s.entries
  settled := s.settled ++ [⟨x, reply⟩] }

/-- A batch whose reply would be kept: no reset and no invalidation of its cluster since. -/
def Current (s : State) (x : Sent) : Prop :=
  x.asked.reset = s.resets ∧ x.asked.epoch = s.epochs x.batch.clusterId

instance (s : State) (x : Sent) : Decidable (Current s x) := inferInstanceAs (Decidable (_ ∧ _))

def settle (s : State) (x : Sent) (reply : Reply) (now : Int) : State :=
  if ¬Current s x then s
  else if x.asked.round ≠ s.rounds x.batch.clusterId then
    ask (storeReply s x reply 0) (x.batch.requests.map (·.scoped x.batch.clusterId)) x.batch.keys now
  else storeReply s x reply now

def hasClusterPrefix (clusterId key : String) : Bool :=
  (clusterId ++ "\x00").toList.isPrefixOf key.toList

def forget (s : State) (clusterId : String) : State := { s with
  entries := fun k => if hasClusterPrefix clusterId k then none else s.entries k
  epochs := Function.update s.epochs clusterId (s.epochs clusterId + 1)
  batches := s.batches.filter fun b => b.clusterId ≠ clusterId
  invalidating := Function.update s.invalidating clusterId (some s.invalidations)
  invalidates := s.invalidates ++ [(s.invalidations, clusterId)]
  invalidations := s.invalidations + 1 }

def invalidateAccess (s : State) (clusterId : String) (now later : Int) : State :=
  revalidateStale (forget s clusterId) now later

/-- Answers that are not in flight become stale. -/
def age (s : State) (clusterId : String) : State := { s with
  rounds := Function.update s.rounds clusterId (s.rounds clusterId + 1)
  entries := fun k =>
    if hasClusterPrefix clusterId k then
      (s.entries k).map fun e => if e.inflight then e else { e with storedAt := 0 }
    else s.entries k }

def revalidateAccess (s : State) (clusterId : String) (now later : Int) : State :=
  revalidateStale (age s clusterId) now later

def resetAccessCache (s : State) : State := { s with
  entries := fun _ => none
  epochs := fun _ => 0
  rounds := fun _ => 0
  resets := s.resets + 1
  invalidating := fun _ => none
  batches := []
  scheduled := false }

/-- A backend invalidation is over. -/
def invalidated (s : State) (p : Nat) (clusterId : String) : State := { s with
  invalidates := s.invalidates.erase (p, clusterId)
  invalidating :=
    if s.invalidating clusterId = some p then Function.update s.invalidating clusterId none
    else s.invalidating }

def Sent.ready (s : State) (x : Sent) : Bool :=
  !x.issued && x.waitsFor.all fun p => p ∉ s.invalidates.map (·.1)

def Sent.answers (id : Nat) (x : Sent) : Bool := x.id == id && x.issued

inductive Action where
  | requestAccess (checks : List ScopedAccessRequest) (now : Int)
  | listen (checks : List ScopedAccessRequest)
  | unlisten (i : Nat)
  | sweep (now later : Int)
  | flush
  | issue (id : Nat)
  | reply (id : Nat) (reply : Reply) (now : Int)
  | invalidateAccess (clusterId : String) (now later : Int)
  | invalidated (p : Nat) (clusterId : String)
  | revalidateAccess (clusterId : String) (now later : Int)
  | resetAccessCache
  deriving DecidableEq, Repr

def issue (s : State) (id : Nat) : State := { s with
  sent := s.sent.map fun x => if x.id = id ∧ x.ready s then { x with issued := true } else x }

def step (s : State) : Action → Option State
  | .requestAccess checks now => some (requestAccess s checks now)
  | .listen checks => some { s with listeners := s.listeners ++ [checks] }
  | .unlisten i => some { s with listeners := s.listeners.eraseIdx i }
  | .sweep now later => some (revalidateStale s now later)
  | .flush => if s.microtasks = 0 then none else some (flush s)
  | .issue id => some (issue s id)
  | .reply id reply now =>
    match s.sent.find? (Sent.answers id) with
    | none => none
    | some x => some (settle { s with sent := s.sent.eraseP (Sent.answers id) } x reply now)
  | .invalidateAccess clusterId now later => some (invalidateAccess s clusterId now later)
  | .invalidated p clusterId =>
    if (p, clusterId) ∈ s.invalidates then some (invalidated s p clusterId) else none
  | .revalidateAccess clusterId now later => some (revalidateAccess s clusterId now later)
  | .resetAccessCache => some (resetAccessCache s)

end FerrisScope.AccessCache
