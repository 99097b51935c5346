import FerrisScope.HelperServer
import FerrisScope.HostsLaws

/-!
# Purging what a crash left behind

The helper strips every managed block, and returns the addresses whose aliases are to be dropped: those
at the start of a line of the first block. An address that stands only in a later block, or only
behind the first field of a line, loses its last record.
-/

namespace FerrisScope.HostsPurge
open LoopbackAddresses HelperProtocol HostsFile HelperServer HostsLaws MarkedBlocks

/-- The addresses among the fields of a line. -/
def addressesOn (line : Text) : List Ipv4Addr := (line.splitOnP isWhitespace).filterMap parseIpv4

def firstBlock (t : Text) : List Text := (managedBlocks t).head?.getD []

/-- An address starts a line of the first block. -/
def StartsLine (t : Text) (ip : Ipv4Addr) : Prop := ∃ line ∈ firstBlock t, firstAddress line = some ip

instance (t : Text) (ip : Ipv4Addr) : Decidable (StartsLine t ip) :=
  inferInstanceAs (Decidable (∃ line ∈ firstBlock t, firstAddress line = some ip))

/-- Every address of a later block, and every one behind the first field in the first block, also starts a line
of the first block. -/
structure Recorded (t : Text) : Prop where
  later : ∀ block ∈ (managedBlocks t).tail, ∀ line ∈ block, ∀ ip ∈ addressesOn line, StartsLine t ip
  behind : ∀ line ∈ firstBlock t, ∀ ip ∈ addressesOn line, firstAddress line ≠ some ip → StartsLine t ip

variable {env : Env} {s : State} {ips : List Ipv4Addr}

theorem hasBlock_eq_false_iff (t : Text) : hasBlock t = false ↔ managedBlocks t = [] := by
  rw [managedBlocks, blocks_eq_nil_iff, hasBlock, List.any_eq_false]
  simp only [opensBlock, Bool.not_eq_true]

theorem managedBlocks_strip (h : (strip env s).1 = none) : managedBlocks (content (strip env s).2) = [] := by
  by_cases hblock : hasBlock (content s)
  · cases hwrite : env.writeError with
    | none =>
      rw [strip, if_pos hblock, hwrite]
      exact managedBlocks_stripBlock (content s)
    | some e =>
      rw [strip, if_pos hblock, hwrite] at h
      cases h
  · rw [strip, if_neg hblock]
    exact (hasBlock_eq_false_iff _).mp (by simpa using hblock)

/-- What a purge returns and what it leaves. -/
theorem purgeStale_ok (h : (purgeStale env s).1 = .ok ips) :
    ips = blockIps (content s) ∧ managedBlocks (content (purgeStale env s).2) = [] := by
  cases hread : env.readError with
  | some e =>
    rw [purgeStale, hread] at h
    cases h
  | none =>
    cases hstrip : strip env s with
    | mk error s' =>
      simp only [purgeStale, hread, hstrip] at h ⊢
      cases error with
      | some e => cases h
      | none =>
        have hgone : managedBlocks (content (strip env s).2) = [] := managedBlocks_strip (by rw [hstrip])
        rw [hstrip] at hgone
        exact ⟨(Except.ok.inj h).symm, hgone⟩

theorem mem_blockIps_iff (t : Text) (ip : Ipv4Addr) : ip ∈ blockIps t ↔ StartsLine t ip := by
  rw [blockIps_eq, List.mem_filterMap, StartsLine, firstBlock]

theorem purgeStale_complete_iff (env : Env) (s : State) (ips : List Ipv4Addr) (h : (purgeStale env s).1 = .ok ips) :
    (∀ block ∈ managedBlocks (content s), ∀ line ∈ block, ∀ ip ∈ addressesOn line, ip ∈ ips) ↔
      Recorded (content s) := by
  obtain ⟨rfl, -⟩ := purgeStale_ok h
  simp only [mem_blockIps_iff]
  constructor
  · intro hall
    refine ⟨fun block hblock => hall block (List.mem_of_mem_tail hblock), fun line hline ip hip _ => ?_⟩
    unfold firstBlock at hline
    cases hblocks : managedBlocks (content s) with
    | nil =>
      rw [hblocks] at hline
      cases hline
    | cons block rest =>
      rw [hblocks, List.head?_cons, Option.getD_some] at hline
      exact hall block (hblocks ▸ List.mem_cons_self) line hline ip hip
  · rintro ⟨hlater, hbehind⟩ block hblock line hline ip hip
    cases hblocks : managedBlocks (content s) with
    | nil =>
      rw [hblocks] at hblock
      cases hblock
    | cons first rest =>
      rw [hblocks] at hblock hlater
      rcases List.mem_cons.mp hblock with rfl | hrest
      · have hfirst : line ∈ firstBlock (content s) := by
          rw [firstBlock, hblocks]
          exact hline
        by_cases hstart : firstAddress line = some ip
        · exact ⟨line, hfirst, hstart⟩
        · exact hbehind line hfirst ip hip hstart
      · exact hlater block hrest line hline ip hip

/-- No call fails. -/
def calm : Env := ⟨none, none, none, none, true, true⟩

def staleFile (blocks : List (List HostEntry)) : Text :=
  "10.0.0.5 a\n".toList ++ (blocks.map renderBlock).flatten

def leftBehind (blocks : List (List HostEntry)) : State := start .unix "t" (some (staleFile blocks)) none

def oneBlock : List (List HostEntry) := [[⟨⟨127, 1, 0, 1⟩, ["api"]⟩, ⟨⟨127, 1, 0, 2⟩, ["db"]⟩]]

theorem purgeStale_complete_oneBlock :
    (purgeStale calm (leftBehind oneBlock)).1 = .ok [⟨127, 1, 0, 1⟩, ⟨127, 1, 0, 2⟩] ∧
    ∀ block ∈ managedBlocks (staleFile oneBlock), ∀ line ∈ block, ∀ ip ∈ addressesOn line,
      ip ∈ [⟨127, 1, 0, 1⟩, (⟨127, 1, 0, 2⟩ : Ipv4Addr)] := by
  have hreturned : (purgeStale calm (leftBehind oneBlock)).1 =
      .ok [⟨127, 1, 0, 1⟩, ⟨127, 1, 0, 2⟩] := by decide +kernel
  exact ⟨hreturned, (purgeStale_complete_iff calm (leftBehind oneBlock) _ hreturned).mpr
    ⟨by decide +kernel, by decide +kernel⟩⟩

def twoBlocks : List (List HostEntry) := [[⟨⟨127, 1, 0, 1⟩, ["api"]⟩], [⟨⟨127, 1, 0, 2⟩, ["db"]⟩]]

theorem purgeStale_misses_later_block :
    ¬∀ (env : Env) (s : State) (ips : List Ipv4Addr), (purgeStale env s).1 = .ok ips →
      ∀ block ∈ managedBlocks (content s), ∀ line ∈ block, ∀ ip ∈ addressesOn line, ip ∈ ips := by
  intro hclaim
  have hreturned : (purgeStale calm (leftBehind twoBlocks)).1 = .ok [⟨127, 1, 0, 1⟩] := by decide +kernel
  have hall := hclaim calm (leftBehind twoBlocks) _ hreturned
  revert hall
  decide +kernel

end FerrisScope.HostsPurge
