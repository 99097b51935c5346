import FerrisScope.GlobalForwards
import FerrisScope.HostsFile

/-!
# Enabling a service when the helper fails

Enabling a single service takes an address, an alias for it and listeners, registers a session and
rewrites the hosts file. Each call to the helper, each listener and the lookup of the service may
fail. What was taken is given back up to the point where the session is registered. A failure of
the hosts file after that leaves everything in place.
-/

namespace FerrisScope.ServiceEnabling
open KeyedWrites LoopbackAddresses HostNames GlobalForwards

/-- The outcomes of what is called; `none` is success. -/
structure Calls where
  ensureHelper : Option String
  got : Except String Service
  addLoopback : Option String
  up : Outcome
  delLoopback : Option String
  hostsApply : Option String

def allocErrorText : AllocError → String
  | .exhausted space => "loopback address space exhausted for this " ++ space
  | .alreadyUsed ip => "address " ++ String.ofList (HostsFile.ipText ip) ++ " is already in use"
  | .notLoopback ip => "address " ++ String.ofList (HostsFile.ipText ip) ++ " is not a loopback address"

/-- The alias stays when its removal fails. -/
def helperDelLoopback (calls : Calls) (aliases : Finset Ipv4Addr) (ip : Ipv4Addr) : Finset Ipv4Addr :=
  match calls.delLoopback with
  | none => aliases.erase ip
  | some _ => aliases

def startService (r : Resources) (calls : Calls) (clusterId ns svcName : String) (ports : List ℕ) :
    Except String ServiceForward × Resources :=
  match allocate r.allocator clusterId ns svcName with
  | (.error e, alloc) => (.error (allocErrorText e), { r with allocator := alloc })
  | (.ok ip, alloc) =>
    match calls.addLoopback with
    | some e => (.error e, { r with allocator := release alloc ip })
    | none =>
      let aliases := insert ip r.aliases
      let ids := startedIds calls.up clusterId ns svcName ports
      if ids = [] then
        (.error ("no listeners could be started for " ++ ns ++ "/" ++ svcName ++ " (all " ++
            toString ports.length ++ " port(s) failed)"),
          ⟨release alloc ip, helperDelLoopback calls aliases ip, r.registry⟩)
      else
        (.ok ⟨svcName, ns, ip, variants svcName ns, ports, ids⟩,
          ⟨alloc, aliases, ids.foldl (fun reg id => reg.insert id ip) r.registry⟩)

def enableService (m : Manager) (calls : Calls) (clusterId ns svcName : String) :
    Except String GlobalSession × Manager :=
  match calls.ensureHelper, calls.got with
  | some e, _ => (.error e, m)
  | none, .error e => (.error ("getting service " ++ svcName ++ ": " ++ e), m)
  | none, .ok svc =>
    if servicePorts svc = [] then (.error ("service " ++ svcName ++ " exposes no ports"), m)
    else
      match startService m.resources calls clusterId ns svcName (servicePorts svc) with
      | (.error e, r) => (.error e, { m with resources := r })
      | (.ok sf, r) =>
        let id := serviceSessionId clusterId ns svcName
        let m : Manager := ⟨r, m.sessions.insert id ⟨id, clusterId, ns, [sf]⟩⟩
        match calls.hostsApply with
        | some e => (.error e, m)
        | none =>
          match m.sessions.lookup id with
          | none => (.error "session vanished after insert", m)
          | some session => (.ok session, m)

/-- The sessions, the addresses given out and the aliases are the same. -/
structure Restored (m m' : Manager) : Prop where
  sessions : m'.sessions = m.sessions
  used : m'.resources.allocator.used = m.resources.allocator.used
  aliases : m'.resources.aliases = m.resources.aliases

/-- The address and the ports with which the run gets as far as the listeners. -/
def Reaches (m : Manager) (calls : Calls) (clusterId ns svcName : String) (ip : Ipv4Addr) (ports : List ℕ) : Prop :=
  calls.ensureHelper = none ∧ (∃ svc, calls.got = .ok svc ∧ servicePorts svc = ports) ∧ ports ≠ [] ∧
    (allocate m.resources.allocator clusterId ns svcName).1 = .ok ip ∧ calls.addLoopback = none

/-- When a listener comes up, so does the hosts file; when none does, the alias is removed exactly if it was not
there before. -/
def Undone (m : Manager) (calls : Calls) (clusterId ns svcName : String) : Prop :=
  ∀ ip ports, Reaches m calls clusterId ns svcName ip ports →
    (startedIds calls.up clusterId ns svcName ports ≠ [] → calls.hostsApply = none) ∧
      (startedIds calls.up clusterId ns svcName ports = [] →
        (calls.delLoopback = none ↔ ip ∉ m.resources.aliases))

/-! ### The allocator -/

theorem clusterOctetFor_used (s : IpAllocator) (cluster : String) : (clusterOctetFor s cluster).2.used = s.used := by
  unfold clusterOctetFor
  split
  · rfl
  · split <;> rfl

theorem nsOctetFor_used (s : IpAllocator) (cluster ns : String) : (nsOctetFor s cluster ns).2.used = s.used := by
  unfold nsOctetFor
  split
  · rfl
  · dsimp only
    split <;> rfl

/-- A free address is given out, or nothing. -/
inductive Granted (s : IpAllocator) : Except AllocError Ipv4Addr × IpAllocator → Prop
  | address (ip : Ipv4Addr) (t : IpAllocator) (hfree : ip ∉ s.used) (hused : t.used = insert ip s.used) :
      Granted s (.ok ip, t)
  | nothing (e : AllocError) (t : IpAllocator) (hused : t.used = s.used) : Granted s (.error e, t)

theorem granted_scanRow (s : IpAllocator) (cluster ns service : String) (c n : UInt8) :
    Granted s (scanRow s cluster ns service c n) := by
  unfold scanRow
  dsimp only
  split
  · rename_i d hd
    have hfree : ⟨127, c, n, d⟩ ∉ s.used := by simpa using List.find?_some hd
    exact .address _ _ hfree rfl
  · exact .nothing _ _ rfl

theorem granted_allocateFresh (s : IpAllocator) (cluster ns service : String) :
    Granted s (allocateFresh s cluster ns service) := by
  unfold allocateFresh
  split
  · rename_i e s₁ hc
    have hused := clusterOctetFor_used s cluster
    rw [hc] at hused
    exact .nothing e s₁ hused
  · rename_i c s₁ hc
    have hused₁ := clusterOctetFor_used s cluster
    rw [hc] at hused₁
    split
    · rename_i e s₂ hn
      have hused₂ := nsOctetFor_used s₁ cluster ns
      rw [hn] at hused₂
      exact .nothing e s₂ (hused₂.trans hused₁)
    · rename_i n s₂ hn
      have hused₂ := nsOctetFor_used s₁ cluster ns
      rw [hn] at hused₂
      have hused : s₂.used = s.used := hused₂.trans hused₁
      cases hscan : scanRow s₂ cluster ns service c n with
      | mk result t =>
        have hgranted := granted_scanRow s₂ cluster ns service c n
        rw [hscan] at hgranted
        cases hgranted with
        | address ip t hfree hins => exact .address ip t (hused ▸ hfree) (hused ▸ hins)
        | nothing e t hsame => exact .nothing e t (hsame.trans hused)

theorem granted_allocate (s : IpAllocator) (cluster ns service : String) :
    Granted s (allocate s cluster ns service) := by
  unfold allocate
  split
  · rename_i ip hip
    split
    · rename_i hfree
      exact .address ip _ hfree rfl
    · exact granted_allocateFresh s cluster ns service
  · exact granted_allocateFresh s cluster ns service

/-! ### The run -/

variable {m : Manager} {r : Resources} {calls : Calls} {clusterId ns svcName : String} {ports : List ℕ}

/-- Everything the start of a service can do. -/
inductive Started (r : Resources) (calls : Calls) (clusterId ns svcName : String) (ports : List ℕ) :
    Except String ServiceForward × Resources → Prop
  | refused (e : String) (r' : Resources)
      (hnone : ∀ ip, (allocate r.allocator clusterId ns svcName).1 = .ok ip → calls.addLoopback ≠ none)
      (hused : r'.allocator.used = r.allocator.used) (haliases : r'.aliases = r.aliases) :
      Started r calls clusterId ns svcName ports (.error e, r')
  | silent (e : String) (ip : Ipv4Addr) (r' : Resources)
      (hip : (allocate r.allocator clusterId ns svcName).1 = .ok ip) (hadd : calls.addLoopback = none)
      (hids : startedIds calls.up clusterId ns svcName ports = [])
      (hused : r'.allocator.used = r.allocator.used)
      (haliases : r'.aliases = helperDelLoopback calls (insert ip r.aliases) ip) :
      Started r calls clusterId ns svcName ports (.error e, r')
  | listening (sf : ServiceForward) (ip : Ipv4Addr) (r' : Resources)
      (hip : (allocate r.allocator clusterId ns svcName).1 = .ok ip) (hadd : calls.addLoopback = none)
      (hids : startedIds calls.up clusterId ns svcName ports ≠ [])
      (hused : r'.allocator.used ≠ r.allocator.used) :
      Started r calls clusterId ns svcName ports (.ok sf, r')

theorem release_used {s t : IpAllocator} {ip : Ipv4Addr} (hfree : ip ∉ s.used) (hused : t.used = insert ip s.used) :
    (release t ip).used = s.used := by
  rw [release, hused, Finset.erase_insert hfree]

theorem startService_cases (r : Resources) (calls : Calls) (clusterId ns svcName : String) (ports : List ℕ) :
    Started r calls clusterId ns svcName ports (startService r calls clusterId ns svcName ports) := by
  have hgranted := granted_allocate r.allocator clusterId ns svcName
  unfold startService
  cases halloc : allocate r.allocator clusterId ns svcName with
  | mk result alloc =>
    rw [halloc] at hgranted
    cases hgranted with
    | nothing e t hused =>
      refine .refused _ _ (fun ip hip => ?_) hused rfl
      rw [halloc] at hip
      cases hip
    | address ip t hfree hused =>
      have hip : (allocate r.allocator clusterId ns svcName).1 = .ok ip := by rw [halloc]
      cases hadd : calls.addLoopback with
      | some e => exact .refused e _ (fun _ _ => by simp [hadd]) (release_used hfree hused) rfl
      | none =>
        dsimp only
        split
        · rename_i hids
          exact .silent _ ip _ hip hadd hids (release_used hfree hused) rfl
        · rename_i hids
          refine .listening _ ip _ hip hadd hids fun hsame => ?_
          rw [hused] at hsame
          exact hfree (hsame ▸ Finset.mem_insert_self ip _)

/-- Removing the alias brings the old ones back exactly when the address was not among them. -/
theorem helperDelLoopback_insert_iff {aliases : Finset Ipv4Addr} {ip : Ipv4Addr} :
    helperDelLoopback calls (insert ip aliases) ip = aliases ↔ (calls.delLoopback = none ↔ ip ∉ aliases) := by
  unfold helperDelLoopback
  cases hdel : calls.delLoopback with
  | none =>
    dsimp only
    rw [Finset.erase_insert_eq_erase, Finset.erase_eq_self]
    simp
  | some e =>
    dsimp only
    rw [Finset.insert_eq_self]
    simp

/-- The listeners are reached with one address at most. -/
theorem undone_of_not_reaches (h : ∀ ip ports, ¬Reaches m calls clusterId ns svcName ip ports) :
    Undone m calls clusterId ns svcName := fun ip ports hreach => absurd hreach (h ip ports)

theorem reaches_iff {svc : Service} (hhelper : calls.ensureHelper = none) (hgot : calls.got = .ok svc)
    (hports : servicePorts svc ≠ []) (ip : Ipv4Addr) (ports : List ℕ) :
    Reaches m calls clusterId ns svcName ip ports ↔
      ports = servicePorts svc ∧ (allocate m.resources.allocator clusterId ns svcName).1 = .ok ip ∧
        calls.addLoopback = none := by
  constructor
  · rintro ⟨-, ⟨svc', hsvc', rfl⟩, -, hip, hadd⟩
    rw [hgot] at hsvc'
    obtain rfl := Except.ok.inj hsvc'
    exact ⟨rfl, hip, hadd⟩
  · rintro ⟨rfl, hip, hadd⟩
    exact ⟨hhelper, ⟨svc, hgot, rfl⟩, hports, hip, hadd⟩

/-- Once the listeners are reached, what follows is settled by their number. -/
theorem undone_iff {svc : Service} {ip : Ipv4Addr} (hhelper : calls.ensureHelper = none) (hgot : calls.got = .ok svc)
    (hports : servicePorts svc ≠ []) (hip : (allocate m.resources.allocator clusterId ns svcName).1 = .ok ip)
    (hadd : calls.addLoopback = none) :
    Undone m calls clusterId ns svcName ↔
      (startedIds calls.up clusterId ns svcName (servicePorts svc) ≠ [] → calls.hostsApply = none) ∧
        (startedIds calls.up clusterId ns svcName (servicePorts svc) = [] →
          (calls.delLoopback = none ↔ ip ∉ m.resources.aliases)) := by
  constructor
  · intro h
    exact h ip _ ((reaches_iff hhelper hgot hports ip _).mpr ⟨rfl, hip, hadd⟩)
  · intro h ip' ports hreach
    obtain ⟨rfl, hip', -⟩ := (reaches_iff hhelper hgot hports ip' ports).mp hreach
    rw [hip] at hip'
    obtain rfl := Except.ok.inj hip'
    exact h

theorem enableService_atomic_iff (m : Manager) (calls : Calls) (clusterId ns svcName : String) :
    (∀ e, (enableService m calls clusterId ns svcName).1 = .error e →
      Restored m (enableService m calls clusterId ns svcName).2) ↔ Undone m calls clusterId ns svcName := by
  have hunchanged : Restored m m := ⟨rfl, rfl, rfl⟩
  cases hhelper : calls.ensureHelper with
  | some e =>
    rw [enableService, hhelper]
    refine iff_of_true (fun _ _ => hunchanged) (undone_of_not_reaches fun ip ports hreach => ?_)
    cases hhelper.symm.trans hreach.1
  | none =>
    cases hgot : calls.got with
    | error e =>
      rw [enableService, hhelper, hgot]
      refine iff_of_true (fun _ _ => hunchanged) (undone_of_not_reaches ?_)
      rintro ip ports ⟨-, ⟨svc, hsvc, -⟩, -⟩
      rw [hgot] at hsvc
      cases hsvc
    | ok svc =>
      by_cases hports : servicePorts svc = []
      · simp only [enableService, hhelper, hgot, if_pos hports]
        refine iff_of_true (fun _ _ => hunchanged) (undone_of_not_reaches ?_)
        rintro ip ports ⟨-, ⟨svc', hsvc', hne⟩, hsome, -⟩
        rw [hgot] at hsvc'
        obtain rfl := Except.ok.inj hsvc'
        exact hsome (hne ▸ hports)
      · have hstart := startService_cases m.resources calls clusterId ns svcName (servicePorts svc)
        simp only [enableService, hhelper, hgot, if_neg hports]
        generalize startService m.resources calls clusterId ns svcName (servicePorts svc) = result at hstart
        cases hstart with
        | refused e r' hnone hused haliases =>
          refine iff_of_true (fun _ _ => ⟨rfl, hused, haliases⟩) (undone_of_not_reaches fun ip ports hreach => ?_)
          obtain ⟨-, hip, hadd⟩ := (reaches_iff hhelper hgot hports ip ports).mp hreach
          exact hnone ip hip hadd
        | silent e ip r' hip hadd hids hused haliases =>
          rw [undone_iff hhelper hgot hports hip hadd, ← helperDelLoopback_insert_iff]
          constructor
          · intro h
            exact ⟨fun hne => absurd hids hne, fun _ => haliases ▸ (h e rfl).aliases⟩
          · intro h e' _
            exact ⟨rfl, hused, haliases.trans (h.2 hids)⟩
        | listening sf ip r' hip hadd hids hused =>
          rw [undone_iff hhelper hgot hports hip hadd]
          cases hhosts : calls.hostsApply with
          | some e =>
            refine iff_of_false (fun h => hused (h e rfl).used) fun h => ?_
            cases h.1 hids
          | none =>
            refine iff_of_true (fun e he => ?_) ⟨fun _ => rfl, fun hnone => absurd hnone hids⟩
            simp [Finmap.lookup_insert] at he

/-- The start of a service with a helper that never fails. -/
theorem startService_of_success (r : Resources) (up : Outcome) (got : Except String Service)
    (clusterId ns svcName : String) (ports : List ℕ) :
    ((startService r ⟨none, got, none, up, none, none⟩ clusterId ns svcName ports).1.toOption,
        (startService r ⟨none, got, none, up, none, none⟩ clusterId ns svcName ports).2) =
      GlobalForwards.startService r up clusterId ns svcName ports := by
  unfold startService GlobalForwards.startService
  cases allocate r.allocator clusterId ns svcName with
  | mk result alloc =>
    cases result with
    | error e => rfl
    | ok ip =>
      dsimp only
      split <;> rfl

/-- With a helper that never fails the run is the one without failures. -/
theorem enableService_of_success (m : Manager) (up : Outcome) (clusterId ns svcName : String) (svc : Service) :
    (enableService m ⟨none, .ok svc, none, up, none, none⟩ clusterId ns svcName).2 =
      GlobalForwards.enableService m up clusterId ns svcName (some svc) := by
  have hstart := startService_of_success m.resources up (.ok svc) clusterId ns svcName (servicePorts svc)
  unfold enableService GlobalForwards.enableService
  dsimp only
  rw [← hstart]
  split
  · rfl
  · cases startService m.resources ⟨none, .ok svc, none, up, none, none⟩ clusterId ns svcName (servicePorts svc) with
    | mk result r =>
      cases result with
      | error e => rfl
      | ok sf =>
        dsimp only [Except.toOption]
        rw [Finmap.lookup_insert]

/-- A service with one port. -/
def api : Service := ⟨some "api", some "default", some [80]⟩

/-- The listener comes up and the hosts file cannot be written. -/
def hostsFail : Calls := ⟨none, .ok api, none, fun _ _ => true, none, some "helper error"⟩

theorem enableService_keeps_session :
    ¬∀ (m : Manager) (calls : Calls) (clusterId ns svcName : String) (e : String),
      (enableService m calls clusterId ns svcName).1 = .error e →
        Restored m (enableService m calls clusterId ns svcName).2 := by
  intro hclaim
  have hrestored := hclaim .new hostsFail "prod" "default" "api" "helper error" rfl
  exact absurd hrestored.used (by decide)

end FerrisScope.ServiceEnabling
