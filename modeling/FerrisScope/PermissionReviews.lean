import Mathlib.Algebra.Order.Ring.Nat
import Mathlib.Data.Finmap
import Mathlib.Data.List.MinMax
import FerrisScope.KeyedWrites
import FerrisScope.LabelledRuns

/-!
# Permission reviews and their cache

A check looks its attributes up in the cache and resolves the misses side by side, each from the
widest scope to the attribute itself. Reviews run on tasks of their own that all callers share
while they are out. Every critical section is one action: the lookup of a check, a step of one
of its resolvers, the commit of an answered review and an invalidation. Times are nanoseconds.
An answer carries the number of the review that gave it, and each resolver collects the reviews
it has used; the cache acts on neither.
-/

namespace FerrisScope.PermissionReviews
open KeyedWrites

structure Attr where
  verb : String
  group : String
  resource : String
  subresource : String
  ns : String
  name : String
  deriving DecidableEq, Repr

def Attr.describe (a : Attr) : String :=
  let what := a.resource ++ (if a.subresource.isEmpty then "" else "/" ++ a.subresource) ++
    (if a.group.isEmpty then "" else "." ++ a.group)
  let name := if a.name.isEmpty then "" else " \"" ++ a.name ++ "\""
  let scope := if a.ns.isEmpty then " (cluster-wide)" else " in " ++ a.ns
  a.verb ++ " " ++ what ++ name ++ scope

def Attr.broadening (a : Attr) : List Attr :=
  (if a.ns = "" then [] else [{ a with ns := "", name := "" }]) ++
    (if a.name = "" then [] else [{ a with name := "" }]) ++ [a]

inductive Access where
  | allowed
  | denied (reason : String)
  | unknown (error : String)
  deriving DecidableEq, Repr

inductive Reviewed where
  | allowed
  | denied
  | inconclusive
  | unsupported (e : String)
  | failed (e : String)
  deriving DecidableEq, Repr

/-- Whether an attribute is allowed, until when, and the review that said so. -/
structure Hit where
  allowed : Bool
  expires : ℕ
  review : ℕ
  deriving DecidableEq, Repr

abbrev Answer := Except String Hit

def ttl : ℕ := 300 * 10 ^ 9

def inconclusiveTtl : ℕ := 30 * 10 ^ 9

def pruneFloor : ℕ := 4096

def answerOf (id : ℕ) (reviewed : Reviewed) (now : ℕ) : Answer :=
  match reviewed with
  | .allowed => .ok ⟨true, now + ttl, id⟩
  | .denied => .ok ⟨false, now + ttl, id⟩
  | .inconclusive => .ok ⟨false, now + inconclusiveTtl, id⟩
  | .unsupported e => .error e
  | .failed e => .error e

/-- `answered` is past the last await: an abort no longer stops it. -/
inductive ReviewPhase where
  | running
  | answered (reviewed : Reviewed) (now : ℕ)
  | finished (reviewed : Reviewed) (now : ℕ)
  | aborted
  deriving DecidableEq, Repr

structure Review where
  attr : Attr
  generation : ℕ
  phase : ReviewPhase
  deriving DecidableEq, Repr

/-- What the flight of a review yields, once it yields. -/
def Review.output (r : Review) (id : ℕ) : Option Answer :=
  match r.phase with
  | .finished reviewed now => some (answerOf id reviewed now)
  | .aborted => some (.error ("access review aborted: task " ++ toString id ++ " was cancelled"))
  | _ => none

inductive Verdict where
  | allowed
  | denied
  | unknown (error : String)
  deriving DecidableEq, Repr

def Verdict.of (allowed : Bool) : Verdict := if allowed then .allowed else .denied

/-- Where `resolve` stands. `generation` is the one it read first, `rest` the candidates left. -/
inductive ResolvePhase where
  | start
  | walking (generation : ℕ) (rest : List Attr)
  | awaiting (generation : ℕ) (candidate : Attr) (rest : List Attr) (id : ℕ)
  | granted (generation : ℕ) (candidate : Attr) (hit : Hit)
  | done (verdict : Verdict)
  deriving DecidableEq, Repr

/-- One attribute of a check, with the reviews its verdict rests on. -/
structure Slot where
  attr : Attr
  phase : ResolvePhase
  basis : List ℕ
  deriving DecidableEq, Repr

structure Plan where
  all : List Attr
  any : List (List Attr)
  deriving DecidableEq, Repr

/-- A call of `check`, with the generation at its lookup. -/
structure Check where
  generation : ℕ
  plans : List (Except String Plan)
  slots : List Slot

structure State where
  now : ℕ
  entries : List (Attr × Hit)
  flights : Table Attr ℕ
  unsupported : Option (String × ℕ)
  generation : ℕ
  pruneAt : ℕ
  reviews : List Review
  checks : List Check

def State.start : State := ⟨0, [], ∅, none, 0, pruneFloor, [], []⟩

namespace State

variable (s : State)

def entry (attr : Attr) : Option Hit := (s.entries.find? (·.1 = attr)).map Prod.snd

def fresh (attr : Attr) : Option Hit :=
  if s.unsupported.isSome then none else (s.entry attr).filter fun h => s.now < h.expires

def prune : State :=
  if s.pruneAt ≤ s.entries.length then
    let kept := s.entries.filter fun e => s.now < e.2.expires
    { s with entries := kept, pruneAt := max (kept.length * 2) pruneFloor }
  else s

def remember (attr : Attr) (hit : Hit) : State :=
  { s.prune with entries := (attr, hit) :: s.prune.entries.filter (·.1 ≠ attr) }

def setPhase (id : ℕ) (phase : ReviewPhase) : State :=
  { s with reviews := s.reviews.modify id fun r => { r with phase := phase } }

/-- Registered reviews that still wait for something are aborted. -/
def drainFlights : List Review :=
  s.reviews.mapIdx fun id r =>
    if s.flights.lookup r.attr = some id ∧ r.phase = .running then { r with phase := .aborted } else r

def invalidate : State :=
  { s with
    entries := []
    flights := ∅
    reviews := s.drainFlights
    unsupported := none
    generation := s.generation + 1 }

def launch (attr : Attr) : State :=
  { s with
    flights := s.flights.insert attr s.reviews.length
    reviews := s.reviews ++ [⟨attr, s.generation, .running⟩] }

/-- The end of the task of an answered review. -/
def commit (id : ℕ) (r : Review) (reviewed : Reviewed) (now : ℕ) : State :=
  let s' := s.setPhase id (.finished reviewed now)
  if s.generation = r.generation then
    let s' := { s' with flights := s'.flights.erase r.attr }
    match reviewed, answerOf id reviewed now with
    | .unsupported e, _ => { s' with unsupported := some (e, id) }
    | _, .ok hit => s'.remember r.attr hit
    | _, .error _ => s'
  else s'

end State

/-- What `resolve` does with the answer for a candidate. -/
def onAnswer (generation : ℕ) (candidate : Attr) (rest : List Attr) : Answer → ResolvePhase
  | .ok hit =>
      if hit.allowed then .granted generation candidate hit
      else match rest with
        | [] => .done .denied
        | _ => .walking generation rest
  | .error e => .done (.unknown e)

/-- The next critical section of a resolver. -/
def advance (s : State) (slot : Slot) : Option (State × Slot) :=
  match slot.phase with
  | .start => match s.fresh slot.attr with
      | some hit => some (s, { slot with
          phase := .done (.of hit.allowed), basis := slot.basis ++ [hit.review] })
      | none => some (s, { slot with phase := .walking s.generation slot.attr.broadening })
  | .walking _ [] => some (s, { slot with phase := .done .denied })
  | .walking generation (candidate :: rest) => match s.unsupported with
      | some (e, id) => some (s, { slot with
          phase := .done (.unknown e), basis := slot.basis ++ [id] })
      | none => match s.fresh candidate with
          | some hit => some (s, { slot with
              phase := onAnswer generation candidate rest (.ok hit), basis := slot.basis ++ [hit.review] })
          | none => match s.flights.lookup candidate with
              | some id => some (s, { slot with phase := .awaiting generation candidate rest id })
              | none => some (s.launch candidate,
                  { slot with phase := .awaiting generation candidate rest s.reviews.length })
  | .awaiting generation candidate rest id =>
      ((s.reviews[id]?).bind (·.output id)).map fun answer =>
        (s, { slot with
          phase := onAnswer generation candidate rest answer, basis := slot.basis ++ [id] })
  | .granted generation candidate hit =>
      some (if s.generation = generation ∧ candidate ≠ slot.attr then s.remember slot.attr hit else s,
        { slot with phase := .done .allowed })
  | .done _ => none

/-- The attributes of the plans, each once, in order of their first use. -/
def uniqAttrs (plans : List (Except String Plan)) : List Attr :=
  (plans.flatMap fun
    | .ok p => p.all ++ p.any.flatten
    | .error _ => []).foldl (fun uniq a => if a ∈ uniq then uniq else uniq ++ [a]) []

/-- The lookup under the lock; misses are left to resolvers. -/
def lookupSlot (s : State) (attr : Attr) : Slot :=
  match s.fresh attr with
  | some hit => ⟨attr, .done (.of hit.allowed), [hit.review]⟩
  | none => ⟨attr, .start, []⟩

inductive Action (Req : Type) where
  | tick (elapsed : ℕ)
  | check (requests : List Req)
  | advance (check slot : ℕ)
  | answer (id : ℕ) (reviewed : Reviewed)
  | commit (id : ℕ)
  | abort (id : ℕ)
  | invalidate

variable {Req : Type}

def step (plan : Req → Except String Plan) (s : State) : Action Req → Option State
  | .tick elapsed => some { s with now := s.now + elapsed }
  | .check requests => some { s with
      checks := s.checks ++ [⟨s.generation, requests.map plan,
        (uniqAttrs (requests.map plan)).map (lookupSlot s)⟩] }
  | .advance i j =>
      match s.checks[i]? with
      | none => none
      | some c => match c.slots[j]? with
          | none => none
          | some slot => (advance s slot).map fun r =>
              { r.1 with checks := s.checks.set i { c with slots := c.slots.set j r.2 } }
  | .answer id reviewed =>
      match s.reviews[id]? with
      | some ⟨_, _, .running⟩ => some (s.setPhase id (.answered reviewed s.now))
      | _ => none
  | .commit id =>
      match s.reviews[id]? with
      | some ⟨attr, generation, .answered reviewed now⟩ =>
          some (s.commit id ⟨attr, generation, .answered reviewed now⟩ reviewed now)
      | _ => none
  | .abort id =>
      match s.reviews[id]? with
      | some ⟨_, _, .running⟩ => some (s.setPhase id .aborted)
      | _ => none
  | .invalidate => some s.invalidate

def deniedAccess (a : Attr) : Access := .denied ("cannot " ++ a.describe)

def blockerStep (verdict : Attr → Verdict) (acc : Except Attr (Option String)) (a : Attr) :
    Except Attr (Option String) :=
  match acc, verdict a with
  | .error b, _ => .error b
  | .ok _, .denied => .error a
  | .ok unknown, .unknown e => .ok (unknown.or (some e))
  | .ok unknown, .allowed => .ok unknown

/-- The first denied attribute, else the first unknown error. -/
def firstBlocker (attrs : List Attr) (verdict : Attr → Verdict) : Except Attr (Option String) :=
  attrs.foldl (blockerStep verdict) (.ok none)

/-- The groups up to the first allowed one: whether there is one, the first denial and the first
unknown error before it. -/
def scanGroups (verdict : Attr → Verdict) :
    List (List Attr) → Option Attr → Option String → Bool × Option Attr × Option String
  | [], firstDenial, anyUnknown => (false, firstDenial, anyUnknown)
  | group :: groups, firstDenial, anyUnknown => match firstBlocker group verdict with
      | .ok none => (true, firstDenial, anyUnknown)
      | .ok (some e) => scanGroups verdict groups firstDenial (anyUnknown.or (some e))
      | .error a => scanGroups verdict groups (firstDenial.or (some a)) anyUnknown

def accessOf : Option String → Access
  | some e => .unknown e
  | none => .allowed

def combine (p : Plan) (verdict : Attr → Verdict) : Access :=
  match firstBlocker p.all verdict with
  | .error a => deniedAccess a
  | .ok unknown =>
      if p.any.isEmpty then accessOf unknown
      else match scanGroups verdict p.any none none with
        | (true, _, _) => accessOf unknown
        | (false, _, some e) => accessOf (unknown.or (some e))
        | (false, some a, none) => deniedAccess a
        | (false, none, none) => accessOf unknown

def Slot.verdict? (slot : Slot) : Option Verdict :=
  match slot.phase with
  | .done v => some v
  | _ => none

/-- The verdict a plan reads for an attribute. -/
def Check.verdict (c : Check) (a : Attr) : Verdict :=
  ((c.slots.find? (·.attr = a)).bind Slot.verdict?).getD .allowed

def answerPlan (verdict : Attr → Verdict) : Except String Plan → Access
  | .ok p => combine p verdict
  | .error e => .unknown e

/-- The return value, once every resolver is through. -/
def Check.result (c : Check) : Option (List Access) :=
  if c.slots.all fun slot => slot.verdict?.isSome then some (c.plans.map (answerPlan c.verdict)) else none

end FerrisScope.PermissionReviews
