import FerrisScope.HostNames
import FerrisScope.LabelledRuns
import FerrisScope.LoopbackAddresses
import Mathlib.Data.List.Sort

/-!
# Global forwards

The manager gives each forwarded service an address of its own, an alias for it and one
listener for each of its ports, and keeps the services in sessions. A session belongs to a
query or to a single service. Operations run one after the other and the privileged helper
always succeeds. Which listeners come up is left open: it is an argument of the operation.
-/

namespace FerrisScope.GlobalForwards
open KeyedWrites LabelledRuns LoopbackAddresses HostNames

structure ForwardTarget where
  kind : String
  ns : String
  name : String
  deriving DecidableEq, Repr

def makeGlobalId (clusterId : String) (target : ForwardTarget) (remotePort : ℕ) : String :=
  clusterId ++ "::global::" ++ target.kind ++ "/" ++ target.ns ++ "/" ++ target.name ++ ":" ++
    toString remotePort

structure ForwardSpec where
  id : String
  target : ForwardTarget
  remotePort : ℕ
  deriving DecidableEq, Repr

structure ServiceForward where
  name : String
  ns : String
  localIp : Ipv4Addr
  hostnames : List String
  ports : List ℕ
  forwardIds : List String
  deriving DecidableEq, Repr

def ServiceForward.isNamed (ns name : String) (s : ServiceForward) : Bool := s.name == name && s.ns == ns

structure GlobalSession where
  id : String
  clusterId : String
  ns : String
  services : List ServiceForward
  deriving DecidableEq, Repr

/-- A `Service` as the apiserver returns it. -/
structure Service where
  name : Option String
  ns : Option String
  ports : Option (List ℤ)
  deriving DecidableEq, Repr

def servicePorts (svc : Service) : List ℕ :=
  (svc.ports.getD []).filterMap fun p => if 0 ≤ p ∧ p < 65536 then some p.toNat else none

def samePortSet (a b : List ℕ) : Bool :=
  a.length == b.length && a.insertionSort (· ≤ ·) == b.insertionSort (· ≤ ·)

def querySessionId (clusterId : String) (ns labelSelector : Option String) : String :=
  clusterId ++ "::q::" ++ ns.getD "*" ++ "::" ++ labelSelector.getD ""

def serviceSessionId (clusterId ns svcName : String) : String :=
  clusterId ++ "::svc::" ++ ns ++ "/" ++ svcName

def serviceSpecs (clusterId ns svcName : String) (ports : List ℕ) : List ForwardSpec :=
  ports.map fun port =>
    let target : ForwardTarget := ⟨"Service", ns, svcName⟩
    ⟨makeGlobalId clusterId target port, target, port⟩

/-- Whether the listener of an id, at its place among the service's ports, comes up. -/
abbrev Outcome := String → ℕ → Bool

def startedIds (up : Outcome) (clusterId ns svcName : String) (ports : List ℕ) : List String :=
  ((serviceSpecs clusterId ns svcName ports).zipIdx.filter fun p => up p.1.id p.2).map (·.1.id)

/-- What forwards take up: addresses, their aliases, and listeners with the address each is bound to. -/
structure Resources where
  allocator : IpAllocator
  aliases : Finset Ipv4Addr
  registry : Table String Ipv4Addr

structure Manager where
  resources : Resources
  sessions : Table String GlobalSession

def Manager.new : Manager := ⟨⟨LoopbackAddresses.new, ∅, ∅⟩, ∅⟩

def startService (r : Resources) (up : Outcome) (clusterId ns svcName : String) (ports : List ℕ) :
    Option ServiceForward × Resources :=
  match allocate r.allocator clusterId ns svcName with
  | (.error _, alloc) => (none, { r with allocator := alloc })
  | (.ok ip, alloc) =>
    let aliases := insert ip r.aliases
    let ids := startedIds up clusterId ns svcName ports
    if ids = [] then (none, ⟨release alloc ip, aliases.erase ip, r.registry⟩)
    else
      (some ⟨svcName, ns, ip, variants svcName ns, ports, ids⟩,
        ⟨alloc, aliases, ids.foldl (fun reg id => reg.insert id ip) r.registry⟩)

def discardService (r : Resources) (sf : ServiceForward) : Resources where
  allocator := release r.allocator sf.localIp
  aliases := r.aliases.erase sf.localIp
  registry := sf.forwardIds.foldl (fun reg id => reg.erase id) r.registry

def disable (m : Manager) (id : String) : Manager :=
  match m.sessions.lookup id with
  | none => m
  | some session => ⟨session.services.foldl discardService m.resources, m.sessions.erase id⟩

def teardownService (m : Manager) (sessionId ns name : String) : Manager :=
  match m.sessions.lookup sessionId with
  | none => m
  | some sess =>
    match sess.services.find? (·.isNamed ns name) with
    | none => m
    | some sf =>
      ⟨discardService m.resources sf, m.sessions.insert sessionId { sess with
        services := sess.services.eraseP (·.isNamed ns name) }⟩

/-- One listed service of `enable_query`. -/
def forwardListed (up : Outcome) (clusterId : String) (ns : Option String)
    (acc : List ServiceForward × Resources) (svc : Service) : List ServiceForward × Resources :=
  match svc.name with
  | none => acc
  | some name =>
    let ns := (svc.ns.or ns).getD ""
    if ns = "" then acc
    else if servicePorts svc = [] then acc
    else
      match startService acc.2 up clusterId ns name (servicePorts svc) with
      | (none, r) => (acc.1, r)
      | (some sf, r) => (acc.1 ++ [sf], r)

def enableQuery (m : Manager) (up : Outcome) (clusterId : String) (ns labelSelector : Option String)
    (listed : Option (List Service)) : Manager :=
  let id := querySessionId clusterId ns labelSelector
  let m := disable m id
  match listed with
  | none => m
  | some svcs =>
    let r := svcs.foldl (forwardListed up clusterId ns) ([], m.resources)
    ⟨r.2, m.sessions.insert id ⟨id, clusterId, ns.getD "(all namespaces)", r.1⟩⟩

def enableService (m : Manager) (up : Outcome) (clusterId ns svcName : String) (got : Option Service) :
    Manager :=
  match got with
  | none => m
  | some svc =>
    if servicePorts svc = [] then m
    else
      match startService m.resources up clusterId ns svcName (servicePorts svc) with
      | (none, r) => { m with resources := r }
      | (some sf, r) =>
        let id := serviceSessionId clusterId ns svcName
        ⟨r, m.sessions.insert id ⟨id, clusterId, ns, [sf]⟩⟩

/-- The end of `watch_apply`: start the service and register it, or discard it again. -/
def forwardInto (m : Manager) (up : Outcome) (clusterId sessionId ns name : String) (ports : List ℕ) :
    Manager :=
  match startService m.resources up clusterId ns name ports with
  | (none, r) => { m with resources := r }
  | (some sf, r) =>
    match m.sessions.lookup sessionId with
    | none => { m with resources := discardService r sf }
    | some sess =>
      if sess.services.any (·.isNamed ns name) then { m with resources := discardService r sf }
      else ⟨r, m.sessions.insert sessionId { sess with services := sess.services ++ [sf] }⟩

def watchApply (m : Manager) (up : Outcome) (clusterId sessionId : String) (svc : Service) : Manager :=
  match svc.name with
  | none => m
  | some name =>
    let ns := svc.ns.getD ""
    if ns = "" then m
    else if servicePorts svc = [] then teardownService m sessionId ns name
    else
      match m.sessions.lookup sessionId with
      | none => m
      | some sess =>
        match sess.services.find? (·.isNamed ns name) with
        | some existing =>
          if samePortSet existing.ports (servicePorts svc) then m
          else
            forwardInto (teardownService m sessionId ns name) up clusterId sessionId ns name
              (servicePorts svc)
        | none => forwardInto m up clusterId sessionId ns name (servicePorts svc)

def watchDelete (m : Manager) (sessionId : String) (svc : Service) : Manager :=
  teardownService m sessionId (svc.ns.getD "") (svc.name.getD "")

def watchReconcileInit (m : Manager) (sessionId : String) (seen : List (String × String)) : Manager :=
  match m.sessions.lookup sessionId with
  | none => m
  | some sess =>
    (sess.services.filter fun s => !seen.contains (s.ns, s.name)).foldl
      (fun m s => teardownService m sessionId s.ns s.name) m

inductive Op where
  | enableQuery (up : Outcome) (clusterId : String) (ns labelSelector : Option String)
      (listed : Option (List Service))
  | enableService (up : Outcome) (clusterId ns svcName : String) (got : Option Service)
  | watchApply (up : Outcome) (clusterId sessionId : String) (svc : Service)
  | watchDelete (sessionId : String) (svc : Service)
  | watchReconcileInit (sessionId : String) (seen : List (String × String))
  | disable (id : String)

def perform (m : Manager) : Op → Manager
  | .enableQuery up clusterId ns labelSelector listed => enableQuery m up clusterId ns labelSelector listed
  | .enableService up clusterId ns svcName got => enableService m up clusterId ns svcName got
  | .watchApply up clusterId sessionId svc => watchApply m up clusterId sessionId svc
  | .watchDelete sessionId svc => watchDelete m sessionId svc
  | .watchReconcileInit sessionId seen => watchReconcileInit m sessionId seen
  | .disable id => disable m id

def step (m : Manager) (op : Op) : Option Manager := some (perform m op)

end FerrisScope.GlobalForwards
