import FerrisScope.GlobalForwards
import FerrisScope.HelperProtocol

/-!
# The hosts entries of all sessions

After a change of the sessions the whole set of hosts entries is computed again. A bare label that
two entries claim is dropped from all of them, dotted names are always kept. The entries name
one address for each host exactly when services with the same label and namespace share theirs.
-/

namespace FerrisScope.HostEntries
open LoopbackAddresses HostNames GlobalForwards HelperProtocol

def hostEntry (localIp : Ipv4Addr) (svcName ns : String) : HostEntry := ⟨localIp, variants svcName ns⟩

/-- The services that get an entry, in the order in which the sessions are visited. -/
def listedServices (sessions : List GlobalSession) : List ServiceForward :=
  sessions.flatMap fun session => session.services.filter fun svc => !svc.hostnames.isEmpty

def allHostEntries (sessions : List GlobalSession) : List HostEntry :=
  let entries := (listedServices sessions).map fun svc => hostEntry svc.localIp svc.name svc.ns
  List.zipWith (fun e hostnames => { e with hostnames := hostnames }) entries
    (dropAmbiguousBareNames (entries.map (·.hostnames)))

/-- No host is given two addresses. -/
def IsFunction (entries : List HostEntry) : Prop :=
  ∀ e ∈ entries, ∀ e' ∈ entries, ∀ h ∈ e.hostnames, h ∈ e'.hostnames → e.ip = e'.ip

/-- Two services that are given the same names. -/
def SameNames (s s' : ServiceForward) : Prop :=
  Named s.name s.ns ∧ sanitizeLabel s.name = sanitizeLabel s'.name ∧ sanitizeLabel s.ns = sanitizeLabel s'.ns

variable {sessions : List GlobalSession}

/-- The names an entry keeps. -/
def keptNames (sessions : List GlobalSession) (svc : ServiceForward) : List String :=
  (variants svc.name svc.ns).filter fun h =>
    !isBare h || !isAmbiguous ((listedServices sessions).map fun svc => variants svc.name svc.ns) h

theorem allHostEntries_eq (sessions : List GlobalSession) :
    allHostEntries sessions =
      (listedServices sessions).map fun svc => ⟨svc.localIp, keptNames sessions svc⟩ := by
  simp only [allHostEntries, dropAmbiguousBareNames, List.map_map, List.zipWith_map_right,
    List.zipWith_map_left, List.zipWith_self, Function.comp_def, hostEntry, keptNames]

theorem SameNames.variants {s s' : ServiceForward} (h : SameNames s s') :
    variants s.name s.ns = variants s'.name s'.ns := by
  simp only [HostNames.variants, h.2.1, h.2.2]

/-- A dotted name that two services share makes all their names the same. -/
theorem sameNames_of_dotted {s s' : ServiceForward} {h : String} (hb : ¬ isBare h)
    (hm : h ∈ variants s.name s.ns) (hm' : h ∈ variants s'.name s'.ns) : SameNames s s' := by
  obtain ⟨hn, hq⟩ := mem_variants hm
  obtain ⟨-, hq'⟩ := mem_variants hm'
  have hd := dot_notMem_sanitizeLabel
  obtain ⟨hsvc, hns⟩ := (hq.resolve_left hb).unique (hq'.resolve_left hb) (hd _) (hd _) (hd _) (hd _)
  exact ⟨hn, hsvc, hns⟩

/-- The hosts entries are a function of the host exactly when the listed services with the same
label and namespace all have the same address. -/
theorem isFunction_allHostEntries_iff (sessions : List GlobalSession) :
    IsFunction (allHostEntries sessions) ↔
      ∀ s ∈ listedServices sessions, ∀ s' ∈ listedServices sessions, SameNames s s' →
        s.localIp = s'.localIp := by
  rw [allHostEntries_eq]
  simp only [IsFunction, List.forall_mem_map]
  constructor
  · intro hf s hs s' hs' hsame
    have hq := qualified_mem_variants hsame.1
    have hdot : isBare (sanitizeLabel s.name ++ "." ++ sanitizeLabel s.ns) = false := by
      simp [isBare, String.toList_append]
    refine hf s hs s' hs' _ (List.mem_filter.mpr ⟨hq, by simp [hdot]⟩)
      (List.mem_filter.mpr ⟨hsame.variants ▸ hq, by simp [hdot]⟩)
  · intro hsame s hs s' hs' h hh hh'
    obtain ⟨hm, hkeep⟩ := List.mem_filter.mp hh
    obtain ⟨hm', -⟩ := List.mem_filter.mp hh'
    by_cases hb : isBare h
    · by_contra hne
      have hdiff : s ≠ s' := by
        rintro rfl
        exact hne rfl
      have hamb := isAmbiguous_of_two (fun svc : ServiceForward => variants svc.name svc.ns) hs hs' hdiff hb hm hm'
      simp [hb, hamb] at hkeep
    · exact hsame s hs s' hs' (sameNames_of_dotted hb hm hm')

/-- One service of the same name and namespace in each of two clusters. -/
def twoClusters : List GlobalSession :=
  [⟨"prod::q::default::", "prod", "default",
      [⟨"api", "default", ⟨127, 1, 0, 1⟩, variants "api" "default", [80],
        ["prod::global::Service/default/api:80"]⟩]⟩,
    ⟨"dev::q::default::", "dev", "default",
      [⟨"api", "default", ⟨127, 2, 0, 1⟩, variants "api" "default", [80],
        ["dev::global::Service/default/api:80"]⟩]⟩]

theorem twoClusters_not_function : ¬ IsFunction (allHostEntries twoClusters) := by
  intro hf
  have := hf ⟨⟨127, 1, 0, 1⟩, ["api.default", "api.default.svc", "api.default.svc.cluster.local"]⟩ (by decide)
    ⟨⟨127, 2, 0, 1⟩, ["api.default", "api.default.svc", "api.default.svc.cluster.local"]⟩ (by decide)
    "api.default" (by decide) (by decide)
  exact absurd this (by decide)

end FerrisScope.HostEntries
