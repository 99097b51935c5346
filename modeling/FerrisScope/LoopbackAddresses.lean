import FerrisScope.KeyedWrites
import Mathlib.Data.Finset.Card

/-!
# Loopback addresses of global forwards

Each cluster owns a second octet, each of its namespaces a third one, and the services of a
namespace take last octets of that row. The allocator remembers the address it last gave a
service. Its bookkeeping is compared with the history of what it answered: the addresses it
regards as used are those granted and not released since.
-/

namespace FerrisScope.LoopbackAddresses
open KeyedWrites

structure Ipv4Addr where
  a : UInt8
  b : UInt8
  c : UInt8
  d : UInt8
  deriving DecidableEq, Repr

def isLoopbackV4 (ip : Ipv4Addr) : Bool := ip.a == 127

def Ipv4Addr.localhost : Ipv4Addr := ⟨127, 0, 0, 1⟩

inductive AllocError where
  | exhausted (space : String)
  | alreadyUsed (ip : Ipv4Addr)
  | notLoopback (ip : Ipv4Addr)
  deriving DecidableEq, Repr

abbrev ServiceKey := String × String × String

structure IpAllocator where
  used : Finset Ipv4Addr
  clusterOctet : Table String UInt8
  nextCluster : UInt16
  nsOctet : Table (String × String) UInt8
  nextNs : Table String UInt16
  nextSvc : Table (String × String) UInt8
  assigned : Table ServiceKey Ipv4Addr

def new : IpAllocator := ⟨∅, ∅, 1, ∅, ∅, ∅, ∅⟩

def clusterOctetFor (s : IpAllocator) (cluster : String) : Except AllocError UInt8 × IpAllocator :=
  match s.clusterOctet.lookup cluster with
  | some o => (.ok o, s)
  | none =>
    if s.nextCluster > 255 then (.error (.exhausted "cluster"), s)
    else
      let o := s.nextCluster.toUInt8
      (.ok o, { s with
        clusterOctet := s.clusterOctet.insert cluster o
        nextCluster := s.nextCluster + 1 })

/-- The counter of the cluster is created even when the lookup then finds it exhausted. -/
def nsOctetFor (s : IpAllocator) (cluster ns : String) : Except AllocError UInt8 × IpAllocator :=
  match s.nsOctet.lookup (cluster, ns) with
  | some o => (.ok o, s)
  | none =>
    let next := (s.nextNs.lookup cluster).getD 0
    if next > 255 then
      (.error (.exhausted "namespace"), { s with nextNs := s.nextNs.insert cluster next })
    else
      let o := next.toUInt8
      (.ok o, { s with
        nextNs := s.nextNs.insert cluster (next + 1)
        nsOctet := s.nsOctet.insert (cluster, ns) o })

/-- The octets `start..=255` followed by `1..start`. -/
def candidates (start : UInt8) : List UInt8 :=
  (List.range' start.toNat (256 - start.toNat) ++ List.range' 1 (start.toNat - 1)).map UInt8.ofNat

def saturatingSucc (d : UInt8) : UInt8 := if d = 255 then 255 else d + 1

/-- The scan of a row whose octets are known. -/
def scanRow (s : IpAllocator) (cluster ns service : String) (c n : UInt8) :
    Except AllocError Ipv4Addr × IpAllocator :=
  let start := (s.nextSvc.lookup (cluster, ns)).getD 1
  match (candidates start).find? fun d => ⟨127, c, n, d⟩ ∉ s.used with
  | some d =>
    let ip : Ipv4Addr := ⟨127, c, n, d⟩
    (.ok ip, { s with
      used := insert ip s.used
      nextSvc := s.nextSvc.insert (cluster, ns) (saturatingSucc d)
      assigned := s.assigned.insert (cluster, ns, service) ip })
  | none => (.error (.exhausted "service"), s)

/-- An address outside the service's memory: octets for the row, then the scan. -/
def allocateFresh (s : IpAllocator) (cluster ns service : String) :
    Except AllocError Ipv4Addr × IpAllocator :=
  match clusterOctetFor s cluster with
  | (.error e, s₁) => (.error e, s₁)
  | (.ok c, s₁) =>
    match nsOctetFor s₁ cluster ns with
    | (.error e, s₂) => (.error e, s₂)
    | (.ok n, s₂) => scanRow s₂ cluster ns service c n

def allocate (s : IpAllocator) (cluster ns service : String) :
    Except AllocError Ipv4Addr × IpAllocator :=
  match s.assigned.lookup (cluster, ns, service) with
  | some ip =>
    if ip ∉ s.used then (.ok ip, { s with used := insert ip s.used })
    else allocateFresh s cluster ns service
  | none => allocateFresh s cluster ns service

def reserve (s : IpAllocator) (ip : Ipv4Addr) : Except AllocError Unit × IpAllocator :=
  if ¬ isLoopbackV4 ip then (.error (.notLoopback ip), s)
  else if ip ∈ s.used then (.error (.alreadyUsed ip), s)
  else (.ok (), { s with used := insert ip s.used })

def release (s : IpAllocator) (ip : Ipv4Addr) : IpAllocator := { s with used := s.used.erase ip }

/-- The octets that the row of a namespace has, or would be given next. -/
def rowOf (s : IpAllocator) (cluster ns : String) : Option (UInt8 × UInt8) :=
  match clusterOctetFor s cluster with
  | (.error _, _) => none
  | (.ok c, s₁) =>
    match (nsOctetFor s₁ cluster ns).1 with
    | .error _ => none
    | .ok n => some (c, n)

inductive Op where
  | allocate (cluster ns service : String)
  | reserve (ip : Ipv4Addr)
  | release (ip : Ipv4Addr)
  deriving DecidableEq, Repr

inductive Answer where
  | allocated (key : ServiceKey) (r : Except AllocError Ipv4Addr)
  | reserved (ip : Ipv4Addr) (r : Except AllocError Unit)
  | released (ip : Ipv4Addr)

def answer (s : IpAllocator) : Op → Answer × IpAllocator
  | .allocate cluster ns service =>
    let r := allocate s cluster ns service
    (.allocated (cluster, ns, service) r.1, r.2)
  | .reserve ip =>
    let r := reserve s ip
    (.reserved ip r.1, r.2)
  | .release ip => (.released ip, release s ip)

/-- The allocator with everything it answered, the latest answer first. -/
structure History where
  alloc : IpAllocator
  log : List Answer

def History.exec (h : History) (op : Op) : History :=
  ⟨(answer h.alloc op).2, (answer h.alloc op).1 :: h.log⟩

def History.after (ops : List Op) : History := ops.foldl History.exec ⟨new, []⟩

/-- The addresses granted and not released since, read off the answers. -/
def outstanding : List Answer → List Ipv4Addr
  | [] => []
  | .allocated _ (.ok ip) :: log => ip :: outstanding log
  | .allocated _ (.error _) :: log => outstanding log
  | .reserved ip (.ok _) :: log => ip :: outstanding log
  | .reserved _ (.error _) :: log => outstanding log
  | .released ip :: log => (outstanding log).filter (· ≠ ip)

/-- The address a service was given last. -/
def lastGrant (key : ServiceKey) : List Answer → Option Ipv4Addr
  | [] => none
  | .allocated k (.ok ip) :: log => if k = key then some ip else lastGrant key log
  | _ :: log => lastGrant key log

/-- The row counters hold exact counts, so no octet was truncated and no counter wrapped. -/
structure ExactRows (s : IpAllocator) : Prop where
  clusters : s.nextCluster.toNat = s.clusterOctet.keys.card + 1
  clusters_le : s.nextCluster.toNat ≤ 256
  cluster_octet : ∀ c o, s.clusterOctet.lookup c = some o →
    1 ≤ o.toNat ∧ o.toNat < s.nextCluster.toNat
  cluster_inj : ∀ c c' o, s.clusterOctet.lookup c = some o → s.clusterOctet.lookup c' = some o → c = c'
  namespaces : ∀ c, ((s.nextNs.lookup c).getD 0).toNat = {k ∈ s.nsOctet.keys | k.1 = c}.card
  namespaces_le : ∀ c, ((s.nextNs.lookup c).getD 0).toNat ≤ 256
  ns_octet : ∀ c n o, s.nsOctet.lookup (c, n) = some o →
    o.toNat < ((s.nextNs.lookup c).getD 0).toNat
  ns_inj : ∀ c n n' o, s.nsOctet.lookup (c, n) = some o → s.nsOctet.lookup (c, n') = some o → n = n'

/-- The cursors and the remembered addresses stay inside the rows, off the `.0` address. -/
structure Memory (s : IpAllocator) : Prop where
  cursor : ∀ k d, s.nextSvc.lookup k = some d → d ≠ 0
  assigned : ∀ c n v ip, s.assigned.lookup (c, n, v) = some ip →
    ∃ co no d, s.clusterOctet.lookup c = some co ∧ s.nsOctet.lookup (c, n) = some no ∧ d ≠ 0 ∧
      ip = ⟨127, co, no, d⟩

/-- What finding the octets of a row leaves alone. -/
structure Extends (s t : IpAllocator) : Prop where
  used : t.used = s.used
  nextSvc : t.nextSvc = s.nextSvc
  assigned : t.assigned = s.assigned
  cluster : ∀ c o, s.clusterOctet.lookup c = some o → t.clusterOctet.lookup c = some o
  ns : ∀ k o, s.nsOctet.lookup k = some o → t.nsOctet.lookup k = some o

theorem Extends.refl (s : IpAllocator) : Extends s s := ⟨rfl, rfl, rfl, fun _ _ h => h, fun _ _ h => h⟩

theorem Extends.trans {s t u : IpAllocator} (h : Extends s t) (h' : Extends t u) : Extends s u :=
  ⟨h'.used.trans h.used, h'.nextSvc.trans h.nextSvc, h'.assigned.trans h.assigned,
    fun c o hc => h'.cluster c o (h.cluster c o hc), fun k o hk => h'.ns k o (h.ns k o hk)⟩

theorem Memory.mono {s t : IpAllocator} (hm : Memory s) (h : Extends s t) : Memory t where
  cursor k d hk := hm.cursor k d (h.nextSvc ▸ hk)
  assigned c n v ip hip := by
    obtain ⟨co, no, d, hc, hn, hd, rfl⟩ := hm.assigned c n v ip (h.assigned ▸ hip)
    exact ⟨co, no, d, h.cluster c co hc, h.ns _ no hn, hd, rfl⟩

section Counters

theorem gt_iff_toNat (x : UInt16) : x > 255 ↔ 255 < x.toNat := UInt16.lt_iff_toNat_lt

theorem toUInt8_exact {x : UInt16} (h : ¬ x > 255) : x.toUInt8.toNat = x.toNat := by
  rw [gt_iff_toNat] at h
  rw [UInt16.toNat_toUInt8]
  omega

theorem succ_exact {x : UInt16} (h : ¬ x > 255) : (x + 1).toNat = x.toNat + 1 := by
  rw [gt_iff_toNat] at h
  rw [UInt16.toNat_add]
  simp only [UInt16.toNat_one]
  omega

theorem saturatingSucc_ne_zero (d : UInt8) : saturatingSucc d ≠ 0 := by
  unfold saturatingSucc
  split
  · decide
  · rename_i h
    intro h0
    have h1 := congrArg UInt8.toNat h0
    have h2 : d.toNat ≠ 255 := fun he => h (UInt8.toNat_inj.mp he)
    have h3 := d.toNat_lt
    rw [UInt8.toNat_add] at h1
    simp at h1
    omega

end Counters

theorem clusterOctetFor_extends (s : IpAllocator) (cluster : String) :
    Extends s (clusterOctetFor s cluster).2 := by
  unfold clusterOctetFor
  split
  · exact .refl s
  · rename_i hnone
    split
    · exact .refl s
    · refine ⟨rfl, rfl, rfl, fun c o hc => ?_, fun _ _ h => h⟩
      have hne : c ≠ cluster := by
        rintro rfl
        simp [hnone] at hc
      simpa [Finmap.lookup_insert_of_ne _ hne] using hc

theorem nsOctetFor_extends (s : IpAllocator) (cluster ns : String) :
    Extends s (nsOctetFor s cluster ns).2 := by
  unfold nsOctetFor
  split
  · exact .refl s
  · rename_i hnone
    dsimp only
    split
    · exact ⟨rfl, rfl, rfl, fun _ _ h => h, fun _ _ h => h⟩
    · refine ⟨rfl, rfl, rfl, fun _ _ h => h, fun k o hk => ?_⟩
      have hne : k ≠ (cluster, ns) := by
        rintro rfl
        simp [hnone] at hk
      simpa [Finmap.lookup_insert_of_ne _ hne] using hk

theorem clusterOctetFor_lookup {s s₁ : IpAllocator} {cluster : String} {o : UInt8}
    (h : clusterOctetFor s cluster = (.ok o, s₁)) : s₁.clusterOctet.lookup cluster = some o := by
  unfold clusterOctetFor at h
  split at h
  · rename_i o' ho
    cases h
    exact ho
  · split at h
    · cases h
    · cases h
      exact Finmap.lookup_insert _

theorem nsOctetFor_lookup {s s₁ : IpAllocator} {cluster ns : String} {o : UInt8}
    (h : nsOctetFor s cluster ns = (.ok o, s₁)) : s₁.nsOctet.lookup (cluster, ns) = some o := by
  unfold nsOctetFor at h
  split at h
  · rename_i o' ho
    cases h
    exact ho
  · dsimp only at h
    split at h
    · cases h
    · cases h
      exact Finmap.lookup_insert _

theorem clusterOctetFor_rows {s : IpAllocator} (hr : ExactRows s) (cluster : String) :
    ExactRows (clusterOctetFor s cluster).2 := by
  unfold clusterOctetFor
  split
  · exact hr
  · rename_i hnone
    split
    · exact hr
    · rename_i hle
      have hsucc := succ_exact hle
      have hcast := toUInt8_exact hle
      rw [gt_iff_toNat] at hle
      have hcount := hr.clusters
      refine ⟨?_, ?_, fun c o hc => ?_, fun c c' o hc hc' => ?_, hr.namespaces, hr.namespaces_le,
        hr.ns_octet, hr.ns_inj⟩
      · have hnew : cluster ∉ s.clusterOctet.keys := by
          simpa [Finmap.mem_keys] using Finmap.lookup_eq_none.mp hnone
        rw [keys_insert, Finset.card_insert_of_notMem hnew, hsucc, hcount]
      · change (s.nextCluster + 1).toNat ≤ 256
        omega
      · by_cases hcc : c = cluster
        · subst hcc
          have ho : s.nextCluster.toUInt8 = o := by simpa using hc
          subst ho
          change 1 ≤ s.nextCluster.toUInt8.toNat ∧ s.nextCluster.toUInt8.toNat < (s.nextCluster + 1).toNat
          omega
        · obtain ⟨h1, h2⟩ := hr.cluster_octet c o (by simpa [Finmap.lookup_insert_of_ne _ hcc] using hc)
          change 1 ≤ o.toNat ∧ o.toNat < (s.nextCluster + 1).toNat
          omega
      · exact insert_inj_on hr.cluster_inj (fun c o hco h => by
          have := (hr.cluster_octet c o hco).2
          rw [h, hcast] at this
          omega) hc hc'

theorem counter_insert (m : Table String UInt16) (cluster c : String) (x : UInt16) :
    ((m.insert cluster x).lookup c).getD 0 = if c = cluster then x else (m.lookup c).getD 0 := by
  split
  · rename_i h
    subst h
    simp
  · rename_i h
    rw [Finmap.lookup_insert_of_ne _ h]

theorem namespaces_insert (s : IpAllocator) {cluster ns : String} (o : UInt8)
    (hnew : s.nsOctet.lookup (cluster, ns) = none) (c : String) :
    {k ∈ (s.nsOctet.insert (cluster, ns) o).keys | k.1 = c}.card =
      {k ∈ s.nsOctet.keys | k.1 = c}.card + if c = cluster then 1 else 0 := by
  rw [keys_insert, Finset.filter_insert]
  by_cases h : c = cluster
  · subst h
    have hk : (c, ns) ∉ s.nsOctet.keys := by
      simpa [Finmap.mem_keys] using Finmap.lookup_eq_none.mp hnew
    simp [hk]
  · simp [h, Ne.symm h]

/-- Writing a counter back as it was. -/
theorem ExactRows.same_counter {s : IpAllocator} (hr : ExactRows s) (cluster : String) :
    ExactRows { s with nextNs := s.nextNs.insert cluster ((s.nextNs.lookup cluster).getD 0) } := by
  have hsame : ∀ c, ((s.nextNs.insert cluster ((s.nextNs.lookup cluster).getD 0)).lookup c).getD 0 =
      (s.nextNs.lookup c).getD 0 := by
    intro c
    rw [counter_insert]
    split
    · rename_i h
      rw [h]
    · rfl
  refine ⟨hr.clusters, hr.clusters_le, hr.cluster_octet, hr.cluster_inj, ?_, ?_, ?_, hr.ns_inj⟩
  · intro c
    rw [hsame, hr.namespaces]
  · intro c
    rw [hsame]
    exact hr.namespaces_le c
  · intro c n o hn
    rw [hsame]
    exact hr.ns_octet c n o hn

/-- An octet that no namespace of the cluster has keeps the octets of each cluster distinct. -/
theorem ExactRows.ns_inj_insert {s : IpAllocator} (hr : ExactRows s) {cluster ns : String} {o₀ : UInt8}
    (hfresh : ∀ m, s.nsOctet.lookup (cluster, m) ≠ some o₀) {c n n' : String} {o : UInt8}
    (hn : (s.nsOctet.insert (cluster, ns) o₀).lookup (c, n) = some o)
    (hn' : (s.nsOctet.insert (cluster, ns) o₀).lookup (c, n') = some o) : n = n' := by
  by_cases hc : c = cluster
  · subst hc
    by_cases h : n = ns <;> by_cases h' : n' = ns
    · rw [h, h']
    · subst h
      rw [Finmap.lookup_insert] at hn
      rw [Finmap.lookup_insert_of_ne _ (by simpa using h'), ← hn] at hn'
      exact absurd hn' (hfresh n')
    · subst h'
      rw [Finmap.lookup_insert] at hn'
      rw [Finmap.lookup_insert_of_ne _ (by simpa using h), ← hn'] at hn
      exact absurd hn (hfresh n)
    · rw [Finmap.lookup_insert_of_ne _ (by simpa using h)] at hn
      rw [Finmap.lookup_insert_of_ne _ (by simpa using h')] at hn'
      exact hr.ns_inj c n n' o hn hn'
  · rw [Finmap.lookup_insert_of_ne _ (by simp [hc])] at hn hn'
    exact hr.ns_inj c n n' o hn hn'

theorem nsOctetFor_rows {s : IpAllocator} (hr : ExactRows s) (cluster ns : String) :
    ExactRows (nsOctetFor s cluster ns).2 := by
  unfold nsOctetFor
  split
  · exact hr
  · rename_i hnone
    dsimp only
    split
    · exact hr.same_counter cluster
    · rename_i hle
      have hsucc := succ_exact hle
      have hcast := toUInt8_exact hle
      rw [gt_iff_toNat] at hle
      have hfresh : ∀ m, s.nsOctet.lookup (cluster, m) ≠ some ((s.nextNs.lookup cluster).getD 0).toUInt8 := by
        intro m hm
        have := hr.ns_octet cluster m _ hm
        omega
      refine ⟨hr.clusters, hr.clusters_le, hr.cluster_octet, hr.cluster_inj, fun c => ?_, fun c => ?_,
        fun c n o hn => ?_, fun c n n' o hn hn' => hr.ns_inj_insert hfresh hn hn'⟩
      · rw [counter_insert, namespaces_insert s _ hnone, ← hr.namespaces c]
        split
        · rename_i h
          rw [hsucc, h]
        · rfl
      · rw [counter_insert]
        split
        · omega
        · exact hr.namespaces_le c
      · rw [counter_insert]
        by_cases hk : (c, n) = (cluster, ns)
        · obtain ⟨rfl, rfl⟩ := Prod.mk.inj hk
          have ho : ((s.nextNs.lookup c).getD 0).toUInt8 = o := by simpa using hn
          subst ho
          rw [if_pos rfl]
          omega
        · have hlt := hr.ns_octet c n o (by simpa [Finmap.lookup_insert_of_ne _ hk] using hn)
          split
          · rename_i h
            subst h
            omega
          · exact hlt

theorem mem_candidates {start : UInt8} (h : start ≠ 0) (d : UInt8) : d ∈ candidates start ↔ d ≠ 0 := by
  have hs : start.toNat ≠ 0 := fun he => h (UInt8.toNat_inj.mp he)
  have hd := d.toNat_lt
  simp only [candidates, List.mem_map, List.mem_append, List.mem_range'_1]
  constructor
  · rintro ⟨m, hm, rfl⟩ h0
    have hz := congrArg UInt8.toNat h0
    simp only [UInt8.toNat_ofNat', UInt8.toNat_zero] at hz
    have := start.toNat_lt
    omega
  · intro hne
    have hz : d.toNat ≠ 0 := fun he => hne (UInt8.toNat_inj.mp he)
    refine ⟨d.toNat, ?_, UInt8.ofNat_toNat⟩
    omega

/-- The row is settled, keeping what the allocator already handed out. -/
structure Settled (s t : IpAllocator) (cluster ns : String) (c n : UInt8) : Prop where
  ext : Extends s t
  rows : ExactRows s → ExactRows t
  row : rowOf s cluster ns = some (c, n)
  hasCluster : t.clusterOctet.lookup cluster = some c
  hasNs : t.nsOctet.lookup (cluster, ns) = some n

/-- Everything `allocate` can do. -/
inductive Allocation (s : IpAllocator) (cluster ns service : String) :
    Except AllocError Ipv4Addr × IpAllocator → Prop
  | remembered (ip : Ipv4Addr) (h : s.assigned.lookup (cluster, ns, service) = some ip)
      (hfree : ip ∉ s.used) :
      Allocation s cluster ns service (.ok ip, { s with used := insert ip s.used })
  | noRow (e : AllocError) (t : IpAllocator) (he : e ≠ .exhausted "service") (hext : Extends s t)
      (hrows : ExactRows s → ExactRows t) (hrow : rowOf s cluster ns = none) :
      Allocation s cluster ns service (.error e, t)
  | fresh (t : IpAllocator) (c n d : UInt8) (hrow : Settled s t cluster ns c n) (hd : d ≠ 0)
      (hfree : ⟨127, c, n, d⟩ ∉ s.used)
      (htaken : ∀ ip, s.assigned.lookup (cluster, ns, service) = some ip → ip ∈ s.used) :
      Allocation s cluster ns service (.ok ⟨127, c, n, d⟩, { t with
        used := insert ⟨127, c, n, d⟩ t.used
        nextSvc := t.nextSvc.insert (cluster, ns) (saturatingSucc d)
        assigned := t.assigned.insert (cluster, ns, service) ⟨127, c, n, d⟩ })
  | full (t : IpAllocator) (c n : UInt8) (hrow : Settled s t cluster ns c n)
      (hfull : ∀ d, d ≠ 0 → ⟨127, c, n, d⟩ ∈ s.used)
      (htaken : ∀ ip, s.assigned.lookup (cluster, ns, service) = some ip → ip ∈ s.used) :
      Allocation s cluster ns service (.error (.exhausted "service"), t)

theorem clusterOctetFor_error {s t : IpAllocator} {cluster : String} {e : AllocError}
    (h : clusterOctetFor s cluster = (.error e, t)) : e = .exhausted "cluster" := by
  unfold clusterOctetFor at h
  split at h
  · cases h
  · split at h
    · cases h
      rfl
    · cases h

theorem nsOctetFor_error {s t : IpAllocator} {cluster ns : String} {e : AllocError}
    (h : nsOctetFor s cluster ns = (.error e, t)) : e = .exhausted "namespace" := by
  unfold nsOctetFor at h
  split at h
  · cases h
  · dsimp only at h
    split at h
    · cases h
      rfl
    · cases h

theorem scanRow_cases {s : IpAllocator} (hm : Memory s) (cluster ns service : String) (c n : UInt8) :
    (∃ d, d ≠ 0 ∧ ⟨127, c, n, d⟩ ∉ s.used ∧
      scanRow s cluster ns service c n = (.ok ⟨127, c, n, d⟩, { s with
        used := insert ⟨127, c, n, d⟩ s.used
        nextSvc := s.nextSvc.insert (cluster, ns) (saturatingSucc d)
        assigned := s.assigned.insert (cluster, ns, service) ⟨127, c, n, d⟩ })) ∨
    ((∀ d, d ≠ 0 → ⟨127, c, n, d⟩ ∈ s.used) ∧
      scanRow s cluster ns service c n = (.error (.exhausted "service"), s)) := by
  have hstart : (s.nextSvc.lookup (cluster, ns)).getD 1 ≠ 0 := by
    cases hc : s.nextSvc.lookup (cluster, ns) with
    | none => simp
    | some d => simpa using hm.cursor _ d hc
  unfold scanRow
  dsimp only
  split
  · rename_i d hd
    have hfree : ⟨127, c, n, d⟩ ∉ s.used := by simpa using List.find?_some hd
    have hmem := (mem_candidates hstart d).mp (List.mem_of_find?_eq_some hd)
    exact .inl ⟨d, hmem, hfree, rfl⟩
  · rename_i hnone
    refine .inr ⟨fun d hd => ?_, rfl⟩
    simpa using List.find?_eq_none.mp hnone d ((mem_candidates hstart d).mpr hd)

theorem allocateFresh_cases {s : IpAllocator} (hm : Memory s) {cluster ns service : String}
    (htaken : ∀ ip, s.assigned.lookup (cluster, ns, service) = some ip → ip ∈ s.used) :
    Allocation s cluster ns service (allocateFresh s cluster ns service) := by
  unfold allocateFresh
  have hext := clusterOctetFor_extends s cluster
  have hrows : ExactRows s → ExactRows (clusterOctetFor s cluster).2 :=
    fun hr => clusterOctetFor_rows hr cluster
  cases hc : clusterOctetFor s cluster with
  | mk r s₁ =>
  rw [hc] at hext hrows
  cases r with
  | error e =>
    refine .noRow e s₁ ?_ hext hrows (by simp [rowOf, hc])
    rw [clusterOctetFor_error hc]
    decide
  | ok c =>
  have hext' := hext.trans (nsOctetFor_extends s₁ cluster ns)
  have hrows' : ExactRows s → ExactRows (nsOctetFor s₁ cluster ns).2 :=
    fun hr => nsOctetFor_rows (hrows hr) cluster ns
  have hcluster := (nsOctetFor_extends s₁ cluster ns).cluster cluster c (clusterOctetFor_lookup hc)
  dsimp only
  cases hn : nsOctetFor s₁ cluster ns with
  | mk r s₂ =>
  rw [hn] at hext' hrows' hcluster
  cases r with
  | error e =>
    refine .noRow e s₂ ?_ hext' hrows' (by simp [rowOf, hc, hn])
    rw [nsOctetFor_error hn]
    decide
  | ok n =>
  have hrow : Settled s s₂ cluster ns c n :=
    ⟨hext', hrows', by simp [rowOf, hc, hn], hcluster, nsOctetFor_lookup hn⟩
  dsimp only
  rcases scanRow_cases (hm.mono hext') cluster ns service c n with ⟨d, hd, hfree, h⟩ | ⟨hfull, h⟩
  · rw [h]
    exact .fresh s₂ c n d hrow hd (hext'.used ▸ hfree) htaken
  · rw [h]
    exact .full s₂ c n hrow (hext'.used ▸ hfull) htaken

theorem allocate_cases {s : IpAllocator} (hm : Memory s) (cluster ns service : String) :
    Allocation s cluster ns service (allocate s cluster ns service) := by
  unfold allocate
  split
  · rename_i ip hip
    split
    · rename_i hfree
      exact .remembered ip hip hfree
    · rename_i hused
      refine allocateFresh_cases hm fun ip' hip' => ?_
      cases hip.symm.trans hip'
      simpa using hused
  · rename_i hnone
    exact allocateFresh_cases hm fun ip hip => absurd hip (by simp [hnone])

theorem rowOf_of_lookup {s : IpAllocator} {cluster ns : String} {c n : UInt8}
    (hc : s.clusterOctet.lookup cluster = some c) (hn : s.nsOctet.lookup (cluster, ns) = some n) :
    rowOf s cluster ns = some (c, n) := by
  simp [rowOf, clusterOctetFor, nsOctetFor, hc, hn]

variable {s : IpAllocator} {cluster ns service : String} {r : Except AllocError Ipv4Addr × IpAllocator}

theorem Allocation.memory (ha : Allocation s cluster ns service r) (hm : Memory s) : Memory r.2 := by
  cases ha with
  | remembered ip h hfree => exact ⟨hm.cursor, hm.assigned⟩
  | noRow e t he hext hrows hrow => exact hm.mono hext
  | full t c n hrow hfull htaken => exact hm.mono hrow.ext
  | fresh t c n d hrow hd hfree htaken =>
    have hm' := hm.mono hrow.ext
    refine ⟨fun k d' hk => ?_, fun c' n' v ip hip => ?_⟩
    · by_cases h : k = (cluster, ns)
      · subst h
        cases (Finmap.lookup_insert _).symm.trans hk
        exact saturatingSucc_ne_zero d
      · exact hm'.cursor k d' (by simpa [Finmap.lookup_insert_of_ne _ h] using hk)
    · by_cases h : (c', n', v) = (cluster, ns, service)
      · cases h
        cases (Finmap.lookup_insert _).symm.trans hip
        exact ⟨c, n, d, hrow.hasCluster, hrow.hasNs, hd, rfl⟩
      · exact hm'.assigned c' n' v ip (by simpa [Finmap.lookup_insert_of_ne _ h] using hip)

theorem Allocation.rows (ha : Allocation s cluster ns service r) (hr : ExactRows s) : ExactRows r.2 := by
  cases ha with
  | remembered ip h hfree =>
    exact ⟨hr.clusters, hr.clusters_le, hr.cluster_octet, hr.cluster_inj, hr.namespaces,
      hr.namespaces_le, hr.ns_octet, hr.ns_inj⟩
  | noRow e t he hext hrows hrow => exact hrows hr
  | full t c n hrow hfull htaken => exact hrow.rows hr
  | fresh t c n d hrow hd hfree htaken =>
    have hr' := hrow.rows hr
    exact ⟨hr'.clusters, hr'.clusters_le, hr'.cluster_octet, hr'.cluster_inj, hr'.namespaces,
      hr'.namespaces_le, hr'.ns_octet, hr'.ns_inj⟩

/-- What `allocate` does to the used addresses. -/
theorem Allocation.used (ha : Allocation s cluster ns service r) :
    (∃ ip, r.1 = .ok ip ∧ ip ∉ s.used ∧ r.2.used = insert ip s.used) ∨
    (∃ e, r.1 = .error e ∧ r.2.used = s.used) := by
  cases ha with
  | remembered ip h hfree => exact .inl ⟨ip, rfl, hfree, rfl⟩
  | noRow e t he hext hrows hrow => exact .inr ⟨e, rfl, hext.used⟩
  | full t c n hrow hfull htaken => exact .inr ⟨_, rfl, hrow.ext.used⟩
  | fresh t c n d hrow hd hfree htaken =>
    refine .inl ⟨_, rfl, hfree, ?_⟩
    change insert _ t.used = _
    rw [hrow.ext.used]

/-- What a granted address looks like. -/
def Usable (ip : Ipv4Addr) : Prop := ip.a = 127 ∧ ip.b ≠ 0 ∧ ip.d ≠ 0

theorem octet_ne_zero (hr : ExactRows s) {o : UInt8}
    (h : s.clusterOctet.lookup cluster = some o) : o ≠ 0 := by
  rintro rfl
  have := (hr.cluster_octet cluster 0 h).1
  simp at this

/-- After a successful `allocate` the service's memory holds the address. -/
theorem Allocation.assigned (ha : Allocation s cluster ns service r) (key : ServiceKey) :
    r.2.assigned.lookup key =
      match r.1 with
      | .ok ip => if (cluster, ns, service) = key then some ip else s.assigned.lookup key
      | .error _ => s.assigned.lookup key := by
  cases ha with
  | remembered ip h hfree =>
    change s.assigned.lookup key = if (cluster, ns, service) = key then some ip else s.assigned.lookup key
    split
    · rename_i hk
      rw [← hk, h]
    · rfl
  | noRow e t he hext hrows hrow => exact congrArg _ hext.assigned
  | full t c n hrow hfull htaken => exact congrArg _ hrow.ext.assigned
  | fresh t c n d hrow hd hfree htaken =>
    change (t.assigned.insert (cluster, ns, service) _).lookup key =
      if (cluster, ns, service) = key then some _ else s.assigned.lookup key
    split
    · rename_i hk
      rw [hk, Finmap.lookup_insert]
    · rename_i hk
      rw [Finmap.lookup_insert_of_ne _ (Ne.symm hk), hrow.ext.assigned]

theorem Allocation.usable (ha : Allocation s cluster ns service r) (hm : Memory s) (hr : ExactRows s)
    {ip : Ipv4Addr} (h : r.1 = .ok ip) : Usable ip := by
  have hlast := ha.assigned (cluster, ns, service)
  rw [h] at hlast
  obtain ⟨co, no, d, hc, -, hd, rfl⟩ := (ha.memory hm).assigned cluster ns service ip (by simpa using hlast)
  exact ⟨rfl, octet_ne_zero (ha.rows hr) hc, hd⟩

/-- The allocator agrees with its history. -/
structure Agrees (h : History) : Prop where
  rows : ExactRows h.alloc
  memory : Memory h.alloc
  used : h.alloc.used = (outstanding h.log).toFinset
  nodup : (outstanding h.log).Nodup
  loopback : ∀ ip ∈ outstanding h.log, isLoopbackV4 ip
  granted : ∀ key ip, .allocated key (.ok ip) ∈ h.log → Usable ip
  last : ∀ key, lastGrant key h.log = h.alloc.assigned.lookup key

theorem agrees_new : Agrees ⟨new, []⟩ where
  rows := by
    refine ⟨rfl, by decide, ?_, ?_, ?_, ?_, ?_, ?_⟩ <;> simp [new]
  memory := ⟨by simp [new], by simp [new]⟩
  used := rfl
  nodup := List.nodup_nil
  loopback := by simp [outstanding]
  granted := by simp
  last := by simp [lastGrant, new]

/-- Dropping to a smaller set of used addresses keeps rows and memory. -/
theorem ExactRows.of_used (hr : ExactRows s) (u : Finset Ipv4Addr) : ExactRows { s with used := u } :=
  ⟨hr.clusters, hr.clusters_le, hr.cluster_octet, hr.cluster_inj, hr.namespaces, hr.namespaces_le,
    hr.ns_octet, hr.ns_inj⟩

theorem Memory.of_used (hm : Memory s) (u : Finset Ipv4Addr) : Memory { s with used := u } :=
  ⟨hm.cursor, hm.assigned⟩

theorem agrees_allocate {h : History} (ha : Agrees h) (cluster ns service : String) :
    Agrees (h.exec (.allocate cluster ns service)) := by
  have hall := allocate_cases ha.memory cluster ns service
  have hrows := hall.rows ha.rows
  have hmem := hall.memory ha.memory
  have hlast := hall.assigned
  rcases hall.used with ⟨ip, hok, hfree, hused⟩ | ⟨e, herr, hused⟩
  · have hus := hall.usable ha.memory ha.rows hok
    rw [ha.used, List.mem_toFinset] at hfree
    refine ⟨hrows, hmem, ?_, ?_, ?_, ?_, ?_⟩
    · simp [History.exec, answer, hok, outstanding, hused, ha.used]
    · simpa [History.exec, answer, hok, outstanding] using ⟨hfree, ha.nodup⟩
    · have hip : isLoopbackV4 ip := by simp [isLoopbackV4, hus.1]
      simpa [History.exec, answer, hok, outstanding, hip] using ha.loopback
    · intro key ip' hmem'
      rcases List.mem_cons.mp hmem' with hnew | hold
      · simp only [answer, hok, Answer.allocated.injEq, Except.ok.injEq] at hnew
        exact hnew.2 ▸ hus
      · exact ha.granted key ip' hold
    · intro key
      rw [show (h.exec (.allocate cluster ns service)).alloc =
        (allocate h.alloc cluster ns service).2 from rfl, hlast, hok]
      simp [History.exec, answer, hok, lastGrant, ha.last]
  · refine ⟨hrows, hmem, ?_, ?_, ?_, ?_, ?_⟩
    · simp [History.exec, answer, herr, outstanding, hused, ha.used]
    · simpa [History.exec, answer, herr, outstanding] using ha.nodup
    · simpa [History.exec, answer, herr, outstanding] using ha.loopback
    · intro key ip' hmem'
      rcases List.mem_cons.mp hmem' with hnew | hold
      · simp [answer, herr] at hnew
      · exact ha.granted key ip' hold
    · intro key
      rw [show (h.exec (.allocate cluster ns service)).alloc =
        (allocate h.alloc cluster ns service).2 from rfl, hlast, herr]
      simp [History.exec, answer, herr, lastGrant, ha.last]

theorem agrees_reserve {h : History} (ha : Agrees h) (ip : Ipv4Addr) : Agrees (h.exec (.reserve ip)) := by
  have hcases : (isLoopbackV4 ip ∧ ip ∉ h.alloc.used ∧
      reserve h.alloc ip = (.ok (), { h.alloc with used := insert ip h.alloc.used })) ∨
      ∃ e, reserve h.alloc ip = (.error e, h.alloc) := by
    unfold reserve
    by_cases hl : isLoopbackV4 ip <;> by_cases hu : ip ∈ h.alloc.used <;> simp [hl, hu]
  rcases hcases with ⟨hip, hfree, hok⟩ | ⟨e, herr⟩
  · rw [ha.used, List.mem_toFinset] at hfree
    have hexec : h.exec (.reserve ip) =
        ⟨{ h.alloc with used := insert ip h.alloc.used }, .reserved ip (.ok ()) :: h.log⟩ := by
      simp [History.exec, answer, hok]
    rw [hexec]
    refine ⟨ha.rows.of_used _, ha.memory.of_used _, ?_, ?_, ?_, ?_, ?_⟩
    · simp [outstanding, ha.used]
    · simpa [outstanding] using ⟨hfree, ha.nodup⟩
    · simpa [outstanding, hip] using ha.loopback
    · simpa using ha.granted
    · exact ha.last
  · have hexec : h.exec (.reserve ip) = ⟨h.alloc, .reserved ip (.error e) :: h.log⟩ := by
      simp [History.exec, answer, herr]
    rw [hexec]
    refine ⟨ha.rows, ha.memory, ha.used, ha.nodup, ha.loopback, ?_, ha.last⟩
    simpa using ha.granted

theorem agrees_release {h : History} (ha : Agrees h) (ip : Ipv4Addr) : Agrees (h.exec (.release ip)) := by
  refine ⟨ha.rows.of_used _, ha.memory.of_used _, ?_, ?_, ?_, ?_, ha.last⟩
  · change h.alloc.used.erase ip = ((outstanding h.log).filter (· ≠ ip)).toFinset
    rw [ha.used]
    ext x
    simp [and_comm]
  · exact ha.nodup.filter _
  · intro x hx
    exact ha.loopback x (List.mem_filter.mp hx).1
  · simpa [History.exec, answer] using ha.granted

theorem agrees_exec {h : History} (ha : Agrees h) (op : Op) : Agrees (h.exec op) := by
  cases op with
  | allocate cluster ns service => exact agrees_allocate ha cluster ns service
  | reserve ip => exact agrees_reserve ha ip
  | release ip => exact agrees_release ha ip

theorem agrees_foldl {h : History} (ha : Agrees h) (ops : List Op) :
    Agrees (ops.foldl History.exec h) := by
  induction ops generalizing h with
  | nil => exact ha
  | cons op ops ih => exact ih (agrees_exec ha op)

theorem agrees_after (ops : List Op) : Agrees (History.after ops) := agrees_foldl agrees_new ops

/-- The scan fails exactly when the row is known and full. -/
theorem allocate_exhausted_iff (hm : Memory s) (cluster ns service : String) :
    (allocate s cluster ns service).1 = .error (.exhausted "service") ↔
      ∃ row, rowOf s cluster ns = some row ∧ ∀ d, d ≠ 0 → ⟨127, row.1, row.2, d⟩ ∈ s.used := by
  have ha := allocate_cases hm cluster ns service
  generalize allocate s cluster ns service = r at ha
  cases ha with
  | remembered ip h hfree =>
    obtain ⟨c, n, d, hc, hn, hd, rfl⟩ := hm.assigned cluster ns service ip h
    constructor
    · intro herr
      cases herr
    · rintro ⟨row, hrow, hfull⟩
      cases (rowOf_of_lookup hc hn).symm.trans hrow
      exact absurd (hfull d hd) hfree
  | noRow e t he hext hrows hrow =>
    constructor
    · intro herr
      cases herr
      exact absurd rfl he
    · rintro ⟨row, hsome, -⟩
      exact absurd (hrow.symm.trans hsome) (by simp)
  | fresh t c n d hrow hd hfree htaken =>
    constructor
    · intro herr
      cases herr
    · rintro ⟨row, hsome, hfull⟩
      cases hrow.row.symm.trans hsome
      exact absurd (hfull d hd) hfree
  | full t c n hrow hfull htaken => exact ⟨fun _ => ⟨(c, n), hrow.row, hfull⟩, fun _ => rfl⟩

theorem allocate_remembers {ip : Ipv4Addr}
    (h : s.assigned.lookup (cluster, ns, service) = some ip) (hfree : ip ∉ s.used) :
    (allocate s cluster ns service).1 = .ok ip := by
  simp [allocate, h, hfree]

/-- Along every sequence of operations the outstanding addresses are distinct loopback
addresses and the row counters stay exact. A grant is never `127.0.0.1` nor a `.0` address, a row
is exhausted exactly when all its usable addresses are outstanding, and a service gets the
address it had whenever that one is free. -/
theorem allocator_contract (ops : List Op) :
    (outstanding (History.after ops).log).Nodup ∧
    (∀ ip ∈ outstanding (History.after ops).log, isLoopbackV4 ip) ∧
    (∀ key ip, .allocated key (.ok ip) ∈ (History.after ops).log → ip ≠ .localhost ∧ ip.d ≠ 0) ∧
    ExactRows (History.after ops).alloc ∧
    (∀ k d, (History.after ops).alloc.nextSvc.lookup k = some d → d ≠ 0) ∧
    (∀ cluster ns service,
      (allocate (History.after ops).alloc cluster ns service).1 = .error (.exhausted "service") ↔
        ∃ row, rowOf (History.after ops).alloc cluster ns = some row ∧
          ∀ d, d ≠ 0 → ⟨127, row.1, row.2, d⟩ ∈ outstanding (History.after ops).log) ∧
    (∀ cluster ns service ip, lastGrant (cluster, ns, service) (History.after ops).log = some ip →
      ip ∉ outstanding (History.after ops).log →
        (allocate (History.after ops).alloc cluster ns service).1 = .ok ip) := by
  have ha := agrees_after ops
  have hmem : ∀ ip, ip ∈ (History.after ops).alloc.used ↔ ip ∈ outstanding (History.after ops).log := by
    intro ip
    rw [ha.used, List.mem_toFinset]
  refine ⟨ha.nodup, ha.loopback, ?_, ha.rows, ha.memory.cursor, ?_, ?_⟩
  · intro key ip hip
    obtain ⟨-, hb, hd⟩ := ha.granted key ip hip
    refine ⟨?_, hd⟩
    rintro rfl
    exact hb rfl
  · intro cluster ns service
    rw [allocate_exhausted_iff ha.memory]
    simp only [hmem]
  · intro cluster ns service ip hlast hfree
    rw [ha.last] at hlast
    exact allocate_remembers hlast (mt (hmem ip).mp hfree)

end FerrisScope.LoopbackAddresses
