import FerrisScope.FixedWidthText
import FerrisScope.GlobalForwards

/-!
# Who owns the resources of global forwards

The ledger says that every used address, alias and listener belongs to exactly one held
service. Starting a service under listener ids that nobody holds, and discarding a held service,
keep it. Operations that start a listener under an id another held service has, or that overwrite
a session which still holds a service, do not.
-/

namespace FerrisScope.GlobalForwards
open KeyedWrites LabelledRuns LoopbackAddresses HostNames

/-- The services of a session, none when it does not exist. -/
def held (m : Manager) (sessionId : String) : List ServiceForward :=
  match m.sessions.lookup sessionId with
  | none => []
  | some sess => sess.services

/-- Every address, alias and listener belongs to exactly one service of `h`. -/
structure Ledger (r : Resources) (h : String → List ServiceForward) : Prop where
  memory : Memory r.allocator
  used : ∀ ip, ip ∈ r.allocator.used ↔ ∃ k, ∃ sf ∈ h k, sf.localIp = ip
  aliases : r.aliases = r.allocator.used
  registry : ∀ id ip, r.registry.lookup id = some ip ↔
    ∃ k, ∃ sf ∈ h k, id ∈ sf.forwardIds ∧ sf.localIp = ip
  distinct : ∀ k k' sf sf', sf ∈ h k → sf' ∈ h k' → sf.localIp = sf'.localIp → k = k' ∧ sf = sf'
  nodup : ∀ k, (h k).Nodup
  ids : ∀ k, ∀ sf ∈ h k, ∀ id ∈ sf.forwardIds, ∃ clusterId, ∃ port ∈ sf.ports,
    id = makeGlobalId clusterId ⟨"Service", sf.ns, sf.name⟩ port

variable {r : Resources} {h : String → List ServiceForward}

/-- No service of `h` has one of these listener ids. -/
def Unheld (h : String → List ServiceForward) (ids : List String) : Prop :=
  ∀ k, ∀ sf ∈ h k, ∀ id ∈ ids, id ∉ sf.forwardIds

theorem mem_startedIds {up : Outcome} {clusterId ns name id : String} {ports : List ℕ}
    (hid : id ∈ startedIds up clusterId ns name ports) :
    ∃ port ∈ ports, id = makeGlobalId clusterId ⟨"Service", ns, name⟩ port := by
  simp only [startedIds, List.mem_map, List.mem_filter] at hid
  obtain ⟨⟨spec, i⟩, ⟨hmem, -⟩, rfl⟩ := hid
  obtain ⟨port, hport, rfl⟩ := List.mem_map.mp (List.fst_mem_of_mem_zipIdx hmem)
  exact ⟨port, hport, rfl⟩

/-- Everything `start_service` can do. -/
theorem startService_cases (hm : Memory r.allocator) (up : Outcome) (clusterId ns name : String)
    (ports : List ℕ) :
    (∃ ip alloc, ip ∉ r.allocator.used ∧ Memory alloc ∧ alloc.used = insert ip r.allocator.used ∧
      startedIds up clusterId ns name ports ≠ [] ∧
      startService r up clusterId ns name ports =
        (some ⟨name, ns, ip, variants name ns, ports, startedIds up clusterId ns name ports⟩,
          ⟨alloc, insert ip r.aliases,
            (startedIds up clusterId ns name ports).foldl (fun reg id => reg.insert id ip) r.registry⟩)) ∨
    (∃ r', Memory r'.allocator ∧ r'.allocator.used = r.allocator.used ∧
      (r.aliases = r.allocator.used → r'.aliases = r.aliases) ∧ r'.registry = r.registry ∧
      startService r up clusterId ns name ports = (none, r')) := by
  have ha := allocate_cases hm clusterId ns name
  have hmem := ha.memory hm
  have hcases := ha.used
  unfold startService
  cases hal : allocate r.allocator clusterId ns name with
  | mk res alloc =>
  rw [hal] at hmem hcases
  rcases hcases with ⟨ip, rfl, hfree, hused⟩ | ⟨e, rfl, hused⟩
  · dsimp only at hmem hused ⊢
    by_cases hids : startedIds up clusterId ns name ports = []
    · right
      refine ⟨⟨release alloc ip, (insert ip r.aliases).erase ip, r.registry⟩, hmem.of_used _, ?_, ?_, rfl,
        if_pos hids⟩
      · simp [release, hused, hfree]
      · intro heq
        rw [← heq] at hfree
        simp [hfree]
    · left
      exact ⟨ip, alloc, hfree, hmem, hused, hids, if_neg hids⟩
  · exact .inr ⟨{ r with allocator := alloc }, hmem, hused, fun _ => rfl, rfl, rfl⟩

theorem Ledger.of_eq {r' : Resources} (hl : Ledger r h) (hmem : Memory r'.allocator)
    (hused : r'.allocator.used = r.allocator.used) (hal : r'.aliases = r.aliases)
    (hreg : r'.registry = r.registry) : Ledger r' h :=
  ⟨hmem, hused ▸ hl.used, hal ▸ hused ▸ hl.aliases, hreg ▸ hl.registry, hl.distinct, hl.nodup, hl.ids⟩

theorem mem_update_append {k k' : String} {sf sf' : ServiceForward} :
    sf' ∈ Function.update h k (h k ++ [sf]) k' ↔ sf' ∈ h k' ∨ k' = k ∧ sf' = sf := by
  by_cases hk : k' = k
  · subst hk
    simp
  · simp [hk]

/-- The listeners of a service that joins, under ids that nobody holds. -/
theorem Ledger.registry_add (hl : Ledger r h) (k : String) (sf : ServiceForward)
    (hfree : Unheld h sf.forwardIds) (id : String) (ip : Ipv4Addr) :
    (sf.forwardIds.foldl (fun reg id => reg.insert id sf.localIp) r.registry).lookup id = some ip ↔
      ∃ k', ∃ sf' ∈ Function.update h k (h k ++ [sf]) k', id ∈ sf'.forwardIds ∧ sf'.localIp = ip := by
  rw [lookup_foldl_insert]
  simp only [mem_update_append]
  by_cases hid : id ∈ sf.forwardIds
  · rw [if_pos hid]
    constructor
    · intro he
      exact ⟨k, sf, .inr ⟨rfl, rfl⟩, hid, Option.some.inj he⟩
    · rintro ⟨k', sf', hsf | ⟨-, rfl⟩, hid', rfl⟩
      · exact absurd hid' (hfree k' sf' hsf id hid)
      · rfl
  · rw [if_neg hid, hl.registry]
    constructor
    · rintro ⟨k', sf', hsf, hid', rfl⟩
      exact ⟨k', sf', .inl hsf, hid', rfl⟩
    · rintro ⟨k', sf', hsf | ⟨-, rfl⟩, hid', rfl⟩
      · exact ⟨k', sf', hsf, hid', rfl⟩
      · exact absurd hid' hid

/-- A service with an address and listener ids of its own joins the ledger. -/
theorem Ledger.add (hl : Ledger r h) (k : String) (sf : ServiceForward) {alloc : IpAllocator}
    (hip : sf.localIp ∉ r.allocator.used) (hmem : Memory alloc)
    (hused : alloc.used = insert sf.localIp r.allocator.used) (hfree : Unheld h sf.forwardIds)
    (hids : ∀ id ∈ sf.forwardIds, ∃ clusterId, ∃ port ∈ sf.ports,
      id = makeGlobalId clusterId ⟨"Service", sf.ns, sf.name⟩ port) :
    Ledger ⟨alloc, insert sf.localIp r.aliases,
        sf.forwardIds.foldl (fun reg id => reg.insert id sf.localIp) r.registry⟩
      (Function.update h k (h k ++ [sf])) := by
  have hnew : ∀ k', ∀ sf' ∈ h k', sf'.localIp ≠ sf.localIp := by
    intro k' sf' hsf he
    exact hip ((hl.used _).mpr ⟨k', sf', hsf, he⟩)
  refine ⟨hmem, ?_, ?_, ?_, ?_, ?_, ?_⟩
  · intro ip
    simp only [hused, Finset.mem_insert, hl.used, mem_update_append]
    constructor
    · rintro (rfl | ⟨k', sf', hsf, rfl⟩)
      · exact ⟨k, sf, .inr ⟨rfl, rfl⟩, rfl⟩
      · exact ⟨k', sf', .inl hsf, rfl⟩
    · rintro ⟨k', sf', hsf | ⟨-, rfl⟩, rfl⟩
      · exact .inr ⟨k', sf', hsf, rfl⟩
      · exact .inl rfl
  · rw [hused, hl.aliases]
  · exact hl.registry_add k sf hfree
  · intro k₁ k₂ sf₁ sf₂ h₁ h₂ he
    rcases mem_update_append.mp h₁ with hold₁ | ⟨rfl, rfl⟩
    · rcases mem_update_append.mp h₂ with hold₂ | ⟨rfl, rfl⟩
      · exact hl.distinct k₁ k₂ sf₁ sf₂ hold₁ hold₂ he
      · exact absurd he (hnew k₁ sf₁ hold₁)
    · rcases mem_update_append.mp h₂ with hold₂ | ⟨rfl, rfl⟩
      · exact absurd he.symm (hnew k₂ sf₂ hold₂)
      · exact ⟨rfl, rfl⟩
  · intro k'
    by_cases hk : k' = k
    · subst hk
      rw [Function.update_self]
      refine List.Nodup.append (hl.nodup k') (List.nodup_singleton sf) ?_
      intro sf' hsf' hmem'
      cases List.mem_singleton.mp hmem'
      exact hnew k' sf hsf' rfl
    · rw [Function.update_of_ne hk]
      exact hl.nodup k'
  · intro k' sf' hsf' id hid
    rcases mem_update_append.mp hsf' with hsf' | ⟨-, rfl⟩
    · exact hl.ids k' sf' hsf' id hid
    · exact hids id hid

/-- Starting a service under ids that nobody holds adds it to the ledger, or changes nothing. -/
theorem Ledger.start (hl : Ledger r h) {up : Outcome} {clusterId ns name : String} {ports : List ℕ}
    (hfreeIds : Unheld h (startedIds up clusterId ns name ports)) (k : String) :
    (∃ sf r', startService r up clusterId ns name ports = (some sf, r') ∧
      sf.forwardIds = startedIds up clusterId ns name ports ∧
      Ledger r' (Function.update h k (h k ++ [sf]))) ∨
    (∃ r', startService r up clusterId ns name ports = (none, r') ∧ Ledger r' h) := by
  rcases startService_cases hl.memory up clusterId ns name ports with
    ⟨ip, alloc, hip, hmem, hused, -, heq⟩ | ⟨r', hmem, hused, hal, hreg, heq⟩
  · left
    refine ⟨_, _, heq, rfl, hl.add k ⟨name, ns, ip, variants name ns, ports,
      startedIds up clusterId ns name ports⟩ hip hmem hused hfreeIds fun id hid => ?_⟩
    obtain ⟨port, hport, he⟩ := mem_startedIds hid
    exact ⟨clusterId, port, hport, he⟩
  · exact .inr ⟨r', heq, hl.of_eq hmem hused (hal hl.aliases) hreg⟩

theorem mem_update_split {k k' : String} {sf sf' : ServiceForward} {l₁ l₂ : List ServiceForward}
    (hk : h k = l₁ ++ sf :: l₂) (hn : (h k).Nodup) :
    sf' ∈ Function.update h k (l₁ ++ l₂) k' ↔ sf' ∈ h k' ∧ ¬ (k' = k ∧ sf' = sf) := by
  by_cases hkk : k' = k
  · subst hkk
    rw [Function.update_self, hk]
    rw [hk, List.nodup_middle, List.nodup_cons] at hn
    constructor
    · intro hm
      refine ⟨?_, fun he => hn.1 (he.2 ▸ hm)⟩
      rcases List.mem_append.mp hm with hm | hm <;> simp [hm]
    · rintro ⟨hm, hne⟩
      simp only [List.mem_append, List.mem_cons] at hm ⊢
      rcases hm with hm | rfl | hm
      · exact .inl hm
      · exact absurd ⟨rfl, rfl⟩ hne
      · exact .inr hm
  · simp [hkk]

/-- Discarding a held service takes it off the ledger. -/
theorem Ledger.discard (hl : Ledger r h) {k : String} {sf : ServiceForward}
    {l₁ l₂ : List ServiceForward} (hk : h k = l₁ ++ sf :: l₂) :
    Ledger (discardService r sf) (Function.update h k (l₁ ++ l₂)) := by
  have hsf : sf ∈ h k := by simp [hk]
  have hmem : ∀ {k' sf'}, sf' ∈ Function.update h k (l₁ ++ l₂) k' ↔
      sf' ∈ h k' ∧ ¬ (k' = k ∧ sf' = sf) := mem_update_split hk (hl.nodup k)
  refine ⟨hl.memory.of_used _, ?_, ?_, ?_, ?_, ?_, ?_⟩
  · intro ip
    simp only [discardService, release, Finset.mem_erase, hl.used, hmem]
    constructor
    · rintro ⟨hne, k', sf', hsf', rfl⟩
      exact ⟨k', sf', ⟨hsf', fun he => hne (congrArg _ he.2)⟩, rfl⟩
    · rintro ⟨k', sf', ⟨hsf', hne⟩, rfl⟩
      exact ⟨fun he => hne (hl.distinct k' k sf' sf hsf' hsf he), k', sf', hsf', rfl⟩
  · simp [discardService, release, hl.aliases]
  · intro id ip
    simp only [discardService, lookup_foldl_erase, hmem]
    by_cases hid : id ∈ sf.forwardIds
    · simp only [hid, if_true, reduceCtorEq, false_iff]
      rintro ⟨k', sf', ⟨hsf', hne⟩, hid', rfl⟩
      have h₁ := (hl.registry id _).mpr ⟨k, sf, hsf, hid, rfl⟩
      have h₂ := (hl.registry id _).mpr ⟨k', sf', hsf', hid', rfl⟩
      exact hne (hl.distinct k' k sf' sf hsf' hsf (Option.some.inj (h₂.symm.trans h₁)))
    · simp only [hid, if_false, hl.registry]
      constructor
      · rintro ⟨k', sf', hsf', hid', rfl⟩
        exact ⟨k', sf', ⟨hsf', fun he => hid (he.2 ▸ hid')⟩, hid', rfl⟩
      · rintro ⟨k', sf', ⟨hsf', -⟩, hid', rfl⟩
        exact ⟨k', sf', hsf', hid', rfl⟩
  · intro k₁ k₂ sf₁ sf₂ h₁ h₂ he
    exact hl.distinct k₁ k₂ sf₁ sf₂ (hmem.mp h₁).1 (hmem.mp h₂).1 he
  · intro k'
    by_cases hkk : k' = k
    · subst hkk
      have hn := hl.nodup k'
      rw [hk, List.nodup_middle, List.nodup_cons] at hn
      rw [Function.update_self]
      exact hn.2
    · rw [Function.update_of_ne hkk]
      exact hl.nodup k'
  · intro k' sf' hsf' id hid
    exact hl.ids k' sf' (hmem.mp hsf').1 id hid

/-- Discarding all services of a session. -/
theorem Ledger.discard_all (hl : Ledger r h) {k : String} {services : List ServiceForward}
    (hk : h k = services) :
    Ledger (services.foldl discardService r) (Function.update h k []) := by
  induction services generalizing r h with
  | nil =>
    have hsame : Function.update h k [] = h := by rw [← hk, Function.update_eq_self]
    rw [hsame]
    exact hl
  | cons sf services ih =>
    have hd := hl.discard (show h k = [] ++ sf :: services from hk)
    have hrest := ih hd (by simp)
    rwa [Function.update_idem] at hrest

section Sessions

variable {m : Manager}

/-- The manager's resources are those of the services in its sessions. -/
def Balanced (m : Manager) : Prop := Ledger m.resources (held m)

theorem held_insert (r : Resources) (id : String) (sess : GlobalSession) :
    held ⟨r, m.sessions.insert id sess⟩ = Function.update (held m) id sess.services := by
  funext k
  by_cases hk : k = id
  · subst hk
    simp [held]
  · simp [held, Finmap.lookup_insert_of_ne _ hk, hk]

theorem held_erase (r : Resources) (id : String) :
    held ⟨r, m.sessions.erase id⟩ = Function.update (held m) id [] := by
  funext k
  by_cases hk : k = id
  · subst hk
    simp [held]
  · simp [held, Finmap.lookup_erase_ne hk, hk]

theorem held_of_lookup {id : String} {sess : GlobalSession} (hs : m.sessions.lookup id = some sess) :
    held m id = sess.services := by
  simp [held, hs]

theorem held_of_none {id : String} (hs : m.sessions.lookup id = none) : held m id = [] := by
  simp [held, hs]

theorem held_disable (m : Manager) (id : String) :
    held (disable m id) = Function.update (held m) id [] := by
  unfold disable
  split
  · rename_i hs
    rw [← held_of_none hs, Function.update_eq_self]
  · exact held_erase _ id

theorem balanced_disable (hb : Balanced m) (id : String) : Balanced (disable m id) := by
  unfold Balanced
  rw [held_disable]
  unfold disable
  split
  · rename_i hs
    rw [← held_of_none hs, Function.update_eq_self]
    exact hb
  · rename_i sess hs
    exact Ledger.discard_all hb (held_of_lookup hs)

theorem eraseP_of_split {p : ServiceForward → Bool} {sf : ServiceForward} {l₁ l₂ : List ServiceForward}
    (hsf : p sf) (h₁ : ∀ a ∈ l₁, (!p a) = true) : (l₁ ++ sf :: l₂).eraseP p = l₁ ++ l₂ := by
  rw [List.eraseP_append_right _ (by simpa using h₁), List.eraseP_cons_of_pos hsf]

theorem held_teardownService (m : Manager) (sessionId ns name : String) :
    held (teardownService m sessionId ns name) =
      Function.update (held m) sessionId ((held m sessionId).eraseP (·.isNamed ns name)) := by
  unfold teardownService
  split
  · rename_i hs
    rw [held_of_none hs, List.eraseP_nil, ← held_of_none hs, Function.update_eq_self]
  · rename_i sess hs
    rw [held_of_lookup hs]
    split
    · rename_i hnone
      rw [List.eraseP_of_forall_not (by simpa using hnone), ← held_of_lookup hs, Function.update_eq_self]
    · exact held_insert _ sessionId _

theorem balanced_teardownService (hb : Balanced m) (sessionId ns name : String) :
    Balanced (teardownService m sessionId ns name) := by
  unfold Balanced
  rw [held_teardownService]
  unfold teardownService
  split
  · rename_i hs
    rw [held_of_none hs, List.eraseP_nil, ← held_of_none hs, Function.update_eq_self]
    exact hb
  · rename_i sess hs
    rw [held_of_lookup hs]
    split
    · rename_i hnone
      rw [List.eraseP_of_forall_not (by simpa using hnone), ← held_of_lookup hs, Function.update_eq_self]
      exact hb
    · rename_i sf hsf
      obtain ⟨hp, l₁, l₂, hsplit, h₁⟩ := List.find?_eq_some_iff_append.mp hsf
      rw [hsplit, eraseP_of_split hp h₁]
      exact Ledger.discard hb ((held_of_lookup hs).trans hsplit)

theorem balanced_watchReconcileInit (hb : Balanced m) (sessionId : String)
    (seen : List (String × String)) : Balanced (watchReconcileInit m sessionId seen) := by
  unfold watchReconcileInit
  split
  · exact hb
  · rename_i sess hs
    clear hs
    generalize sess.services.filter (fun s => !seen.contains (s.ns, s.name)) = stale
    induction stale generalizing m with
    | nil => exact hb
    | cons s stale ih => exact ih (balanced_teardownService hb sessionId s.ns s.name)

/-- A service that was started and not registered gives everything back. -/
theorem Ledger.undo {r : Resources} {h : String → List ServiceForward} {k : String} {sf : ServiceForward}
    (hl : Ledger r (Function.update h k (h k ++ [sf]))) : Ledger (discardService r sf) h := by
  have hd := hl.discard (show Function.update h k (h k ++ [sf]) k = h k ++ sf :: [] by simp)
  rwa [Function.update_idem, List.append_nil, Function.update_eq_self] at hd

theorem balanced_forwardInto (hb : Balanced m) {up : Outcome} {clusterId sessionId ns name : String}
    {ports : List ℕ} (hfree : Unheld (held m) (startedIds up clusterId ns name ports)) :
    Balanced (forwardInto m up clusterId sessionId ns name ports) := by
  unfold forwardInto
  rcases Ledger.start hb hfree sessionId with ⟨sf, r', heq, -, hl⟩ | ⟨r', heq, hl⟩
  · rw [heq]
    dsimp only
    split
    · exact hl.undo
    · rename_i sess hs
      split
      · exact hl.undo
      · unfold Balanced
        rw [held_insert, ← held_of_lookup hs]
        exact hl
  · rw [heq]
    exact hl

end Sessions

/-- The listener ids that come up for one listed service of a query. -/
def listedIds (up : Outcome) (clusterId : String) (ns : Option String) (svc : Service) : List String :=
  match svc.name with
  | none => []
  | some name =>
    let ns := (svc.ns.or ns).getD ""
    if ns = "" then [] else startedIds up clusterId ns name (servicePorts svc)

/-- One listed service: it joins the services found so far, or nothing changes. -/
theorem Ledger.forwardListed {up : Outcome} {clusterId id : String} {ns : Option String}
    {acc : List ServiceForward} {svc : Service} (hl : Ledger r (Function.update h id acc))
    (hfree : Unheld (Function.update h id acc) (listedIds up clusterId ns svc)) :
    Ledger (GlobalForwards.forwardListed up clusterId ns (acc, r) svc).2
        (Function.update h id (GlobalForwards.forwardListed up clusterId ns (acc, r) svc).1) ∧
      ∀ sf ∈ (GlobalForwards.forwardListed up clusterId ns (acc, r) svc).1,
        sf ∈ acc ∨ sf.forwardIds = listedIds up clusterId ns svc := by
  have hsame : Ledger r (Function.update h id acc) ∧
      ∀ sf ∈ acc, sf ∈ acc ∨ sf.forwardIds = listedIds up clusterId ns svc :=
    ⟨hl, fun _ hsf => .inl hsf⟩
  unfold GlobalForwards.forwardListed
  unfold listedIds at hfree hsame ⊢
  split
  · rename_i hname
    simpa [hname] using hsame
  · rename_i name hname
    simp only [hname] at hfree hsame ⊢
    split
    · rename_i hns
      simpa [hns] using hsame
    · rename_i hns
      simp only [hns, if_false] at hfree hsame ⊢
      split
      · exact hsame
      · rcases hl.start hfree id with ⟨sf, r', heq, hids, hl'⟩ | ⟨r', heq, hl'⟩
        · rw [heq]
          rw [Function.update_idem, Function.update_self] at hl'
          refine ⟨hl', fun sf' hsf' => ?_⟩
          rcases List.mem_append.mp hsf' with hsf' | hsf'
          · exact .inl hsf'
          · rw [List.mem_singleton.mp hsf']
            exact .inr hids
        · rw [heq]
          exact ⟨hl', hsame.2⟩

/-- The listed services of a query, started one after the other. -/
theorem Ledger.forwardAll {up : Outcome} {clusterId id : String} {ns : Option String}
    {svcs : List Service} {acc : List ServiceForward} (hl : Ledger r (Function.update h id acc))
    (hpair : (svcs.map (listedIds up clusterId ns)).Pairwise fun a b => ∀ x ∈ b, x ∉ a)
    (hother : ∀ svc ∈ svcs, ∀ k, k ≠ id → ∀ sf ∈ h k, ∀ x ∈ listedIds up clusterId ns svc,
      x ∉ sf.forwardIds)
    (hacc : ∀ svc ∈ svcs, ∀ sf ∈ acc, ∀ x ∈ listedIds up clusterId ns svc, x ∉ sf.forwardIds) :
    Ledger (svcs.foldl (GlobalForwards.forwardListed up clusterId ns) (acc, r)).2
      (Function.update h id (svcs.foldl (GlobalForwards.forwardListed up clusterId ns) (acc, r)).1) := by
  induction svcs generalizing acc r with
  | nil => exact hl
  | cons svc svcs ih =>
    rw [List.map_cons, List.pairwise_cons] at hpair
    have hfree : Unheld (Function.update h id acc) (listedIds up clusterId ns svc) := by
      intro k sf hsf x hx
      by_cases hk : k = id
      · subst hk
        rw [Function.update_self] at hsf
        exact hacc svc List.mem_cons_self sf hsf x hx
      · rw [Function.update_of_ne hk] at hsf
        exact hother svc List.mem_cons_self k hk sf hsf x hx
    obtain ⟨hl', hnew⟩ := hl.forwardListed hfree
    refine ih hl' hpair.2 (fun svc' hsvc' => hother svc' (List.mem_cons_of_mem _ hsvc')) ?_
    intro svc' hsvc' sf hsf x hx
    rcases hnew sf hsf with hold | hids
    · exact hacc svc' (List.mem_cons_of_mem _ hsvc') sf hold x hx
    · rw [hids]
      exact hpair.1 _ (List.mem_map_of_mem hsvc') x hx

/-- Whether `watch_apply` goes on to start the service. -/
def willForward (m : Manager) (sessionId ns name : String) (ports : List ℕ) : Bool :=
  match m.sessions.lookup sessionId with
  | none => false
  | some sess =>
    match sess.services.find? (·.isNamed ns name) with
    | some existing => !samePortSet existing.ports ports
    | none => true

/-- No listener comes up under an id that a service still holds, and no session that still holds a
service is overwritten. -/
def Clear (m : Manager) : Op → Prop
  | .enableQuery up clusterId ns labelSelector listed => ∀ svcs ∈ listed,
      ((svcs.map (listedIds up clusterId ns)).Pairwise fun a b => ∀ x ∈ b, x ∉ a) ∧
      ∀ svc ∈ svcs, ∀ k ∈ m.sessions.keys, k ≠ querySessionId clusterId ns labelSelector →
        ∀ sf ∈ held m k, ∀ x ∈ listedIds up clusterId ns svc, x ∉ sf.forwardIds
  | .enableService up clusterId ns svcName got => ∀ svc ∈ got,
      startedIds up clusterId ns svcName (servicePorts svc) ≠ [] →
        held m (serviceSessionId clusterId ns svcName) = [] ∧
        ∀ k ∈ m.sessions.keys, ∀ sf ∈ held m k,
          ∀ x ∈ startedIds up clusterId ns svcName (servicePorts svc), x ∉ sf.forwardIds
  | .watchApply up clusterId sessionId svc => ∀ name ∈ svc.name,
      willForward m sessionId (svc.ns.getD "") name (servicePorts svc) →
        ∀ k ∈ m.sessions.keys, ∀ sf ∈ held m k,
          (k = sessionId ∧ (held m k).find? (·.isNamed (svc.ns.getD "") name) = some sf) ∨
          ∀ x ∈ startedIds up clusterId (svc.ns.getD "") name (servicePorts svc), x ∉ sf.forwardIds
  | .watchDelete _ _ => True
  | .watchReconcileInit _ _ => True
  | .disable _ => True

theorem mem_keys_of_held {m : Manager} {k : String} {sf : ServiceForward} (hsf : sf ∈ held m k) :
    k ∈ m.sessions.keys := by
  rw [Finmap.mem_keys, ← Finmap.lookup_isSome]
  cases hs : m.sessions.lookup k with
  | none => simp [held_of_none hs] at hsf
  | some sess => rfl

variable {m : Manager}

theorem balanced_enableQuery (hb : Balanced m) {up : Outcome} {clusterId : String}
    {ns labelSelector : Option String} {listed : Option (List Service)}
    (hc : Clear m (.enableQuery up clusterId ns labelSelector listed)) :
    Balanced (enableQuery m up clusterId ns labelSelector listed) := by
  have hd := balanced_disable hb (querySessionId clusterId ns labelSelector)
  unfold enableQuery
  dsimp only
  split
  · exact hd
  · rename_i svcs
    obtain ⟨hpair, hother⟩ := hc svcs rfl
    unfold Balanced at hd
    rw [held_disable] at hd
    have hall := hd.forwardAll hpair (fun svc hsvc k hk sf hsf =>
      hother svc hsvc k (mem_keys_of_held hsf) hk sf hsf) (by simp)
    unfold Balanced
    rw [held_insert, held_disable, Function.update_idem]
    exact hall

theorem balanced_enableService (hb : Balanced m) {up : Outcome} {clusterId ns svcName : String}
    {got : Option Service} (hc : Clear m (.enableService up clusterId ns svcName got)) :
    Balanced (enableService m up clusterId ns svcName got) := by
  unfold enableService
  split
  · exact hb
  · rename_i svc
    split
    · exact hb
    · have hc' := hc svc rfl
      have hfree : Unheld (held m) (startedIds up clusterId ns svcName (servicePorts svc)) := by
        intro k sf hsf x hx
        exact (hc' (List.ne_nil_of_mem hx)).2 k (mem_keys_of_held hsf) sf hsf x hx
      rcases startService_cases hb.memory up clusterId ns svcName (servicePorts svc) with
        ⟨_, _, _, _, _, hne, _⟩ | ⟨r', hmem, hused, hal, hreg, heq⟩
      · have hempty := (hc' hne).1
        rcases hb.start hfree (serviceSessionId clusterId ns svcName) with
          ⟨sf, r', heq, -, hl⟩ | ⟨r', heq, hl⟩
        · rw [heq]
          unfold Balanced
          dsimp only
          rw [held_insert]
          simpa [hempty] using hl
        · rw [heq]
          exact hl
      · rw [heq]
        exact Ledger.of_eq hb hmem hused (hal hb.aliases) hreg

theorem balanced_watchApply (hb : Balanced m) {up : Outcome} {clusterId sessionId : String}
    {svc : Service} (hc : Clear m (.watchApply up clusterId sessionId svc)) :
    Balanced (watchApply m up clusterId sessionId svc) := by
  unfold watchApply
  split
  · exact hb
  · rename_i name hname
    have hc' := hc name hname
    dsimp only
    split
    · exact hb
    split
    · exact balanced_teardownService hb _ _ _
    cases hs : m.sessions.lookup sessionId with
    | none => exact hb
    | some sess =>
    dsimp only
    rw [willForward, hs] at hc'
    cases hf : sess.services.find? (·.isNamed (svc.ns.getD "") name) with
    | none =>
      dsimp only
      refine balanced_forwardInto hb fun k sf hsf x hx => ?_
      rcases hc' (by simp [hf]) k (mem_keys_of_held hsf) sf hsf with ⟨rfl, hfound⟩ | hfree
      · rw [held_of_lookup hs, hf] at hfound
        cases hfound
      · exact hfree x hx
    | some existing =>
      dsimp only
      split
      · exact hb
      · rename_i hports
        refine balanced_forwardInto (balanced_teardownService hb _ _ _) fun k sf hsf x hx => ?_
        rw [held_teardownService] at hsf
        obtain ⟨hp, l₁, l₂, hsplit, h₁⟩ := List.find?_eq_some_iff_append.mp hf
        have hheld := (held_of_lookup hs).trans hsplit
        rw [hheld, eraseP_of_split hp h₁, mem_update_split hheld (hb.nodup sessionId)] at hsf
        rcases hc' (by simp [hf, hports]) k (mem_keys_of_held hsf.1) sf hsf.1 with ⟨rfl, hfound⟩ | hfree
        · rw [held_of_lookup hs, hf] at hfound
          exact absurd ⟨rfl, (Option.some.inj hfound).symm⟩ hsf.2
        · exact hfree x hx

theorem balanced_step (m : Manager) (op : Op) (m' : Manager) (hc : Clear m op) (hb : Balanced m)
    (hs : step m op = some m') : Balanced m' := by
  cases hs
  cases op with
  | enableQuery up clusterId ns labelSelector listed => exact balanced_enableQuery hb hc
  | enableService up clusterId ns svcName got => exact balanced_enableService hb hc
  | watchApply up clusterId sessionId svc => exact balanced_watchApply hb hc
  | watchDelete sessionId svc => exact balanced_teardownService hb _ _ _
  | watchReconcileInit sessionId seen => exact balanced_watchReconcileInit hb sessionId seen
  | disable id => exact balanced_disable hb id

theorem balanced_new : Balanced .new where
  memory := ⟨by simp [Manager.new, LoopbackAddresses.new], by simp [Manager.new, LoopbackAddresses.new]⟩
  used := by simp [Manager.new, LoopbackAddresses.new, held]
  aliases := rfl
  registry := by simp [Manager.new, held]
  distinct := by simp [Manager.new, held]
  nodup := by simp [Manager.new, held]
  ids := by simp [Manager.new, held]

theorem colon_notMem_toString (n : ℕ) : ':' ∉ (toString n).toList := by
  intro hc
  rw [Nat.toString_eq_repr, Nat.toList_repr] at hc
  exact FixedWidthText.notMem_toDigits rfl n hc

/-- The port of a listener stands after the last colon of its id. -/
theorem port_of_makeGlobalId {c c' : String} {t t' : ForwardTarget} {p p' : ℕ}
    (he : makeGlobalId c t p = makeGlobalId c' t' p') : p = p' := by
  have hrev := congrArg (fun s => s.toList.reverse.takeWhile (· ≠ ':')) he
  simp only [makeGlobalId, String.toList_append, List.append_assoc, List.reverse_append] at hrev
  have hport : ∀ (q : ℕ) (rest : List Char),
      ((toString q).toList.reverse ++ (":".toList.reverse ++ rest)).takeWhile (· ≠ ':') =
        (toString q).toList.reverse := fun q rest =>
    takeWhile_append_tail (by simpa using colon_notMem_toString q) (.inr rfl)
  rw [hport, hport, List.reverse_inj, Nat.toString_eq_repr, Nat.toString_eq_repr, Nat.toList_repr,
    Nat.toList_repr] at hrev
  exact FixedWidthText.toDigits_inj hrev

/-- The listener `id` is the one of a port of a service of a session. -/
def Owns (m : Manager) (id : String) (o : String × ServiceForward × ℕ) : Prop :=
  o.2.1 ∈ held m o.1 ∧ id ∈ o.2.1.forwardIds ∧ o.2.2 ∈ o.2.1.ports ∧
    ∃ clusterId, id = makeGlobalId clusterId ⟨"Service", o.2.1.ns, o.2.1.name⟩ o.2.2

/-- The used addresses are those of the held services, each has its alias, and every listener
belongs to one port of one service of one session. -/
structure Accounted (m : Manager) : Prop where
  used : ∀ ip, ip ∈ m.resources.allocator.used ↔ ∃ sessionId, ∃ sf ∈ held m sessionId, sf.localIp = ip
  aliased : ∀ ip ∈ m.resources.allocator.used, ip ∈ m.resources.aliases
  owner : ∀ id, id ∈ m.resources.registry → ∃! o, Owns m id o

theorem Balanced.accounted (hb : Balanced m) : Accounted m where
  used := hb.used
  aliased ip hip := by
    rw [hb.aliases]
    exact hip
  owner id hid := by
    obtain ⟨ip, hip⟩ := Option.isSome_iff_exists.mp (Finmap.lookup_isSome.mpr hid)
    obtain ⟨k, sf, hsf, hmem, rfl⟩ := (hb.registry id ip).mp hip
    obtain ⟨clusterId, port, hport, he⟩ := hb.ids k sf hsf id hmem
    refine ⟨(k, sf, port), ⟨hsf, hmem, hport, clusterId, he⟩, ?_⟩
    rintro ⟨k', sf', port'⟩ ⟨hsf', hmem', -, clusterId', he'⟩
    have hsame := (hb.registry id _).mpr ⟨k', sf', hsf', hmem', rfl⟩
    obtain ⟨rfl, rfl⟩ := hb.distinct k' k sf' sf hsf' hsf (Option.some.inj (hsame.symm.trans hip))
    have hport : port' = port := port_of_makeGlobalId (he'.symm.trans he)
    rw [hport]

theorem balanced_disableAll (hb : Balanced m) (ids : List String) : Balanced (ids.foldl disable m) := by
  induction ids generalizing m with
  | nil => exact hb
  | cons id ids ih => exact ih (balanced_disable hb id)

theorem held_disableAll (m : Manager) (ids : List String) (k : String) :
    held (ids.foldl disable m) k = if k ∈ ids then [] else held m k := by
  induction ids generalizing m with
  | nil => simp
  | cons id ids ih =>
    rw [List.foldl_cons, ih, held_disable]
    by_cases hk : k = id
    · subst hk
      simp
    · simp [hk]

/-- Nothing is left once no session holds a service. -/
theorem Balanced.empty (hb : Balanced m) (hnone : ∀ k, held m k = []) :
    m.resources.allocator.used = ∅ ∧ m.resources.aliases = ∅ ∧ m.resources.registry = ∅ := by
  have hused : m.resources.allocator.used = ∅ := by
    refine Finset.eq_empty_of_forall_notMem fun ip hip => ?_
    obtain ⟨k, sf, hsf, -⟩ := (hb.used ip).mp hip
    simp [hnone] at hsf
  refine ⟨hused, hb.aliases.trans hused, Finmap.ext_lookup fun id => ?_⟩
  rw [Finmap.lookup_empty, Option.eq_none_iff_forall_not_mem]
  intro ip hip
  obtain ⟨k, sf, hsf, -⟩ := (hb.registry id ip).mp hip
  simp [hnone] at hsf

/-- In every run that keeps clear of held listener ids and sessions, all resources are accounted
for, and disabling every session gives everything back. -/
theorem resources_accounted (ops : List Op) (m : Manager) (hclear : Meets step Clear .new ops)
    (hrun : run step .new ops = some m) :
    Accounted m ∧ ∀ ids : List String, (∀ k ∈ m.sessions, k ∈ ids) →
      (ids.foldl disable m).resources.allocator.used = ∅ ∧
      (ids.foldl disable m).resources.aliases = ∅ ∧ (ids.foldl disable m).resources.registry = ∅ := by
  have hb : Balanced m := run_invariant_meets balanced_step hclear balanced_new hrun
  refine ⟨hb.accounted, fun ids hids => (balanced_disableAll hb ids).empty fun k => ?_⟩
  rw [held_disableAll]
  split
  · rfl
  · rename_i hk
    exact held_of_none (Finmap.lookup_eq_none.mpr fun hmem => hk (hids k hmem))

section Cases

/-- Enable one service of one cluster, every listener coming up. -/
def enableApi : Op :=
  .enableService (fun _ _ => true) "prod" "default" "api" (some ⟨some "api", some "default", some [80]⟩)

/-- Enable a namespace in which one service with two ports is found. -/
def enableDefault : Op :=
  .enableQuery (fun _ _ => true) "prod" (some "default") none
    (some [⟨some "db", some "default", some [5432, 5433]⟩])

theorem resources_accounted_query_and_service :
    Meets step Clear .new [enableDefault, enableApi] ∧
      Accounted (perform (perform .new enableDefault) enableApi) := by
  have hclear : Meets step Clear .new [enableDefault, enableApi] := by
    refine ⟨?_, fun m hm => ?_⟩
    · simp only [Clear, enableDefault]
      decide
    · cases hm
      refine ⟨?_, fun m hm => trivial⟩
      simp only [Clear, enableApi]
      decide
  exact ⟨hclear, (resources_accounted _ _ hclear rfl).1⟩

/-- Enabling a service again gives it a second address and forgets the first one. -/
theorem enableService_twice_leaks :
    run step .new [enableApi, enableApi] = some (perform (perform .new enableApi) enableApi) ∧
      ¬ Accounted (perform (perform .new enableApi) enableApi) ∧
      (disable (perform (perform .new enableApi) enableApi)
        (serviceSessionId "prod" "default" "api")).resources.allocator.used = {⟨127, 1, 0, 1⟩} := by
  refine ⟨rfl, fun ha => ?_, by decide⟩
  obtain ⟨k, sf, hsf, he⟩ := (ha.used ⟨127, 1, 0, 1⟩).mp (by decide)
  have hall : ∀ k ∈ (perform (perform .new enableApi) enableApi).sessions.keys,
      ∀ sf ∈ held (perform (perform .new enableApi) enableApi) k, sf.localIp ≠ ⟨127, 1, 0, 1⟩ := by
    decide
  exact hall k (mem_keys_of_held hsf) sf hsf he

end Cases

end FerrisScope.GlobalForwards
