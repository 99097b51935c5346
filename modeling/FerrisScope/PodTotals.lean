import FerrisScope.EntryLists
import FerrisScope.FixedWidthText
import FerrisScope.KeyedAccumulators
import FerrisScope.Quantities
import FerrisScope.RoundedSums
import Mathlib.Algebra.BigOperators.Ring.List
import Mathlib.Data.String.Basic

/-!
# Totals of a pod's resources

The details of a pod list what its long-running containers request and are limited to, and its row in the table has the
sums for cpu and memory. The details round each value and the row rounds the sum. A value set for the whole pod takes
the place of the containers' values.
-/

namespace FerrisScope.PodTotals
open HostsFile (Text trim)
open CronFields (isDigit ofDigits)
open Quantities RoundedSums KeyedAccumulators

/-- Each resource is named once. -/
structure ResourceMap where
  entries : List (String × Text)
  nodup : (entries.map Prod.fst).Nodup

def ResourceMap.get (m : ResourceMap) (key : String) : Option Text := m.entries.lookup key

structure ResourceRequirements where
  requests : Option ResourceMap
  limits : Option ResourceMap

structure Container where
  resources : Option ResourceRequirements
  restartPolicy : Option String

structure PodSpec where
  containers : List Container
  initContainers : Option (List Container)
  resources : Option ResourceRequirements

structure Pod where
  spec : Option PodSpec

/-- The containers that keep running, the native sidecars among them. -/
def longRunningContainers (pod : Pod) : List Container :=
  match pod.spec with
  | none => []
  | some s => s.containers ++ (s.initContainers.getD []).filter fun c => c.restartPolicy = some "Always"

/-! ## The row of the table -/

def podLevelRequests (pod : Pod) : Option ResourceMap := (pod.spec.bind (·.resources)).bind (·.requests)

def containerRequest (key : String) (c : Container) : Option Text :=
  (c.resources.bind (·.requests)).bind fun m => m.get key

def usageTotal (pod : Pod) (key : String) : ℚ :=
  match (podLevelRequests pod).bind fun m => m.get key with
  | some q => (parseQuantity q).getD 0
  | none => (((longRunningContainers pod).filterMap (containerRequest key)).filterMap parseQuantity).sum

def positive (n : ℤ) : Option ℤ := if 0 < n then some n else none

def usageRequests (pod : Pod) : Option ℤ × Option ℤ :=
  if pod.spec.isNone then (none, none)
  else (positive (toI64 (usageTotal pod "cpu" * 1000)), positive (toI64 (usageTotal pod "memory" / (1024 * 1024))))

/-! ## The details -/

def parseCpuMilli (raw : Text) : Option ℤ := (parseQuantity raw).map fun cores => toI64 (cores * 1000)

def parseMemoryMib (raw : Text) : Option ℤ := (parseQuantity raw).map fun bytes => toI64 (bytes / (1024 * 1024))

/-- An integer of 64 bits, in decimal with an optional sign. -/
def parsePlainInt (raw : Text) : Option ℤ :=
  let (negative, digits) := splitSign (trim raw)
  let n := signed negative (ofDigits digits)
  if allDigits digits ∧ minI64 ≤ n ∧ n ≤ maxI64 then some n else none

def lowercase (key : String) : Text := key.toList.map Char.toLower

/-- The amounts by name, each with its unit. -/
abbrev Amounts := List (String × (ℤ × String))

def addAmount (acc : Amounts) (key unit : String) (n : ℤ) : Amounts :=
  modify key (0, unit) (fun entry => (wrap (entry.1 + n), entry.2)) acc

def accumulate (acc : Amounts) (key : String) (raw : Text) : Amounts :=
  let lower := lowercase key
  if lower = "cpu".toList then
    match parseCpuMilli raw with
    | some milli => addAmount acc key "m" milli
    | none => acc
  else if lower = "memory".toList ∨ "memory".toList <:+ lower then
    match parseMemoryMib raw with
    | some mib => addAmount acc key "Mi" mib
    | none => acc
  else
    match parsePlainInt raw with
    | some n => addAmount acc key "" n
    | none => acc

def accumulateAll (acc : Amounts) (m : Option ResourceMap) : Amounts :=
  (m.elim [] (·.entries)).foldl (fun acc e => accumulate acc e.1 e.2) acc

/-- Values of the whole pod replace the sums. -/
def replaceAll (acc : Amounts) (m : Option ResourceMap) : Amounts :=
  (m.elim [] (·.entries)).foldl (fun acc e => accumulate (acc.filter fun a => a.1 ≠ e.1) e.1 e.2) acc

/-- The requests and the limits. -/
def addContainer (acc : Amounts × Amounts) (c : Container) : Amounts × Amounts :=
  match c.resources with
  | none => acc
  | some r => (accumulateAll acc.1 r.requests, accumulateAll acc.2 r.limits)

def decimal (n : ℤ) : Text := if n < 0 then '-' :: Nat.toDigits 10 n.natAbs else Nat.toDigits 10 n.natAbs

def formatAmount (a : ℤ × String) : Text := if a.2 = "" then decimal a.1 else decimal a.1 ++ a.2.toList

def formatTotals (m : Amounts) : List (String × Text) := m.map fun e => (e.1, formatAmount e.2)

structure ResourceTotals where
  requests : List (String × Text)
  limits : List (String × Text)

def buildAmounts (pod : Pod) : Amounts × Amounts :=
  let sums := (longRunningContainers pod).foldl addContainer ([], [])
  match pod.spec.bind (·.resources) with
  | none => sums
  | some r => (replaceAll sums.1 r.requests, replaceAll sums.2 r.limits)

def buildResourceTotals (pod : Pod) : ResourceTotals :=
  ⟨formatTotals (buildAmounts pod).1, formatTotals (buildAmounts pod).2⟩

/-! ## What the totals say -/

/-- Requests or limits, by container and for the whole pod. -/
abbrev Side := ResourceRequirements → Option ResourceMap

def podLevel (side : Side) (pod : Pod) (key : String) : Option Text :=
  ((pod.spec.bind (·.resources)).bind side).bind fun m => m.get key

def ofContainer (side : Side) (key : String) (c : Container) : Option Text :=
  (c.resources.bind side).bind fun m => m.get key

/-- The values that count for a resource: that of the whole pod, or those of the containers. -/
def declared (side : Side) (pod : Pod) (key : String) : List Text :=
  match podLevel side pod key with
  | some v => [v]
  | none => (longRunningContainers pod).filterMap (ofContainer side key)

/-- The pod or a long-running container names the resource. -/
def Names (side : Side) (pod : Pod) (key : String) : Prop :=
  (podLevel side pod key).isSome = true ∨ ∃ c ∈ longRunningContainers pod, (ofContainer side key c).isSome = true

/-- A text shows an amount in a unit, and no text shows zero. -/
def Shows (shown : Option Text) (unit : String) (amount : ℤ) : Prop :=
  shown.elim (amount = 0) fun t => t = decimal amount ++ unit.toList

/-- Every resource has an entry, and cpu and memory are those of the table's row. -/
structure TotalsAgree (pod : Pod) : Prop where
  requests : ∀ key, Names (·.requests) pod key → ((buildResourceTotals pod).requests.lookup key).isSome = true
  limits : ∀ key, Names (·.limits) pod key → ((buildResourceTotals pod).limits.lookup key).isSome = true
  cpu : Shows ((buildResourceTotals pod).requests.lookup "cpu") "m" ((usageRequests pod).1.getD 0)
  memory : Shows ((buildResourceTotals pod).requests.lookup "memory") "Mi" ((usageRequests pod).2.getD 0)

/-- How a value is read under a name. -/
def reading (key : String) (raw : Text) : Option ℤ :=
  if lowercase key = "cpu".toList then parseCpuMilli raw
  else if lowercase key = "memory".toList ∨ "memory".toList <:+ lowercase key then parseMemoryMib raw
  else parsePlainInt raw

def unitOf (key : String) : String :=
  if lowercase key = "cpu".toList then "m"
  else if lowercase key = "memory".toList ∨ "memory".toList <:+ lowercase key then "Mi"
  else ""

def milliCores (pod : Pod) : List ℚ := ((declared (·.requests) pod "cpu").filterMap parseQuantity).map (· * 1000)

def mebibytes (pod : Pod) : List ℚ :=
  ((declared (·.requests) pod "memory").filterMap parseQuantity).map (· / (1024 * 1024))

/-- Of what counts for a resource something can be read, and the roundings lose little. -/
structure TotalsRead (pod : Pod) : Prop where
  requests : ∀ key, Names (·.requests) pod key → ∃ v ∈ declared (·.requests) pod key, (reading key v).isSome = true
  limits : ∀ key, Names (·.limits) pod key → ∃ v ∈ declared (·.limits) pod key, (reading key v).isSome = true
  cpu : SumsEvenly (milliCores pod)
  memory : SumsEvenly (mebibytes pod)

/-! ## The amounts are the sums of what is read -/

section Amounts

variable {acc : Amounts} {ns : String → List ℤ}

def entryOf (key : String) (ns : List ℤ) : Option (ℤ × String) :=
  if ns = [] then none else some (wrap ns.sum, unitOf key)

/-- The amounts of these numbers by name. -/
structure Tracks (acc : Amounts) (ns : String → List ℤ) : Prop where
  sorted : Sorted acc
  entries : ∀ key, acc.lookup key = entryOf key (ns key)

theorem Tracks.congr {ns' : String → List ℤ} (h : Tracks acc ns) (heq : ∀ key, ns key = ns' key) : Tracks acc ns' :=
  ⟨h.sorted, fun key => by rw [h.entries, heq]⟩

theorem tracks_nil : Tracks [] fun _ => [] := ⟨List.Pairwise.nil, fun _ => rfl⟩

theorem accumulate_eq (acc : Amounts) (key : String) (raw : Text) :
    accumulate acc key raw = (reading key raw).elim acc (addAmount acc key (unitOf key)) := by
  rw [accumulate, reading, unitOf]
  split
  · cases parseCpuMilli raw <;> rfl
  · split
    · cases parseMemoryMib raw <;> rfl
    · cases parsePlainInt raw <;> rfl

theorem entryOf_concat (key : String) (ns : List ℤ) (n : ℤ) : entryOf key (ns ++ [n]) =
    some (wrap (((entryOf key ns).getD (0, unitOf key)).1 + n), ((entryOf key ns).getD (0, unitOf key)).2) := by
  have hne : ns ++ [n] ≠ [] := by simp
  rw [entryOf, if_neg hne, List.sum_append, List.sum_singleton, entryOf]
  split
  · next hnil => rw [hnil, List.sum_nil, Option.getD_none]
  · rw [Option.getD_some, wrap_add]

theorem Tracks.addAmount (h : Tracks acc ns) (key : String) (n : ℤ) :
    Tracks (addAmount acc key (unitOf key) n) fun k => if k = key then ns k ++ [n] else ns k := by
  refine ⟨h.sorted.modify, fun k => ?_⟩
  rw [PodTotals.addAmount, lookup_modify h.sorted]
  split
  · next hk => rw [hk, entryOf_concat, h.entries]
  · exact h.entries k

theorem Tracks.accumulate (h : Tracks acc ns) (key : String) (raw : Text) :
    Tracks (accumulate acc key raw) fun k => if k = key then ns k ++ (reading k raw).toList else ns k := by
  rw [accumulate_eq]
  cases hread : reading key raw with
  | none =>
    refine h.congr fun k => ?_
    split
    · next hk => rw [hk, hread, Option.toList_none, List.append_nil]
    · rfl
  | some n =>
    refine (h.addAmount key n).congr fun k => ?_
    split
    · next hk => rw [hk, hread, Option.toList_some]
    · rfl

/-- What a map gives to the numbers of a name. -/
def readIn (m : Option ResourceMap) (key : String) : List ℤ := ((m.bind fun m => m.get key).bind (reading key)).toList

theorem Tracks.foldl {es : List (String × Text)} (hnodup : (es.map Prod.fst).Nodup) (h : Tracks acc ns) :
    Tracks (es.foldl (fun acc e => PodTotals.accumulate acc e.1 e.2) acc)
      fun k => ns k ++ ((es.lookup k).bind (reading k)).toList := by
  induction es generalizing acc ns with
  | nil => exact h.congr fun k => (List.append_nil _).symm
  | cons e es ih =>
    obtain ⟨key, raw⟩ := e
    obtain ⟨hnotMem, hnodup⟩ := List.nodup_cons.mp hnodup
    refine (ih hnodup (h.accumulate key raw)).congr fun k => ?_
    rw [lookup_cons_ite]
    split
    · next hk =>
      rw [hk, EntryLists.lookup_of_notMem hnotMem]
      simp
    · rfl

theorem Tracks.accumulateAll (h : Tracks acc ns) (m : Option ResourceMap) :
    Tracks (accumulateAll acc m) fun k => ns k ++ readIn m k := by
  cases m with
  | none => exact h.congr fun k => (List.append_nil _).symm
  | some m => exact h.foldl m.nodup

theorem Tracks.remove (h : Tracks acc ns) (key : String) :
    Tracks (acc.filter fun a => a.1 ≠ key) fun k => if k = key then [] else ns k := by
  refine ⟨h.sorted.filter _, fun k => ?_⟩
  refine (EntryLists.lookup_filter (fun l => decide (l ≠ key)) k).trans ?_
  by_cases hk : k = key
  · rw [if_neg (by simpa using hk), if_pos hk]
    rfl
  · rw [if_pos (by simpa using hk), if_neg hk, h.entries]

theorem Tracks.replace {es : List (String × Text)} (hnodup : (es.map Prod.fst).Nodup) (h : Tracks acc ns) :
    Tracks (es.foldl (fun acc e => PodTotals.accumulate (acc.filter fun a => a.1 ≠ e.1) e.1 e.2) acc)
      fun k => (es.lookup k).elim (ns k) fun raw => (reading k raw).toList := by
  induction es generalizing acc ns with
  | nil => exact h.congr fun k => rfl
  | cons e es ih =>
    obtain ⟨key, raw⟩ := e
    obtain ⟨hnotMem, hnodup⟩ := List.nodup_cons.mp hnodup
    refine (ih hnodup ((h.remove key).accumulate key raw)).congr fun k => ?_
    rw [lookup_cons_ite]
    split
    · next hk =>
      rw [hk, EntryLists.lookup_of_notMem hnotMem]
      simp
    · rfl

theorem Tracks.replaceAll (h : Tracks acc ns) (m : Option ResourceMap) :
    Tracks (replaceAll acc m) fun k => (m.bind fun m => m.get k).elim (ns k) fun raw => (reading k raw).toList := by
  cases m with
  | none => exact h.congr fun k => rfl
  | some m => exact h.replace m.nodup

/-- The numbers of the containers' values. -/
def numbers (side : Side) (cs : List Container) (key : String) : List ℤ :=
  (cs.filterMap (ofContainer side key)).filterMap (reading key)

theorem numbers_cons (side : Side) (c : Container) (cs : List Container) (key : String) :
    numbers side (c :: cs) key = readIn (c.resources.bind side) key ++ numbers side cs key := by
  rw [numbers, List.filterMap_cons, readIn, numbers, ofContainer]
  cases hvalue : (c.resources.bind side).bind fun m => m.get key with
  | none => rfl
  | some v =>
    rw [List.filterMap_cons, Option.bind_some]
    cases reading key v <;> rfl

theorem tracks_containers {acc' : Amounts} {ns' : String → List ℤ} (h : Tracks acc ns) (h' : Tracks acc' ns')
    (cs : List Container) :
    Tracks (cs.foldl addContainer (acc, acc')).1 (fun k => ns k ++ numbers (·.requests) cs k) ∧
      Tracks (cs.foldl addContainer (acc, acc')).2 (fun k => ns' k ++ numbers (·.limits) cs k) := by
  induction cs generalizing acc acc' ns ns' with
  | nil => exact ⟨h.congr fun k => (List.append_nil _).symm, h'.congr fun k => (List.append_nil _).symm⟩
  | cons c cs ih =>
    have hone : Tracks (addContainer (acc, acc') c).1 (fun k => ns k ++ readIn (c.resources.bind (·.requests)) k) ∧
        Tracks (addContainer (acc, acc') c).2 (fun k => ns' k ++ readIn (c.resources.bind (·.limits)) k) := by
      rw [addContainer]
      cases c.resources with
      | none => exact ⟨h.congr fun k => (List.append_nil _).symm, h'.congr fun k => (List.append_nil _).symm⟩
      | some r => exact ⟨h.accumulateAll r.requests, h'.accumulateAll r.limits⟩
    obtain ⟨hrequests, hlimits⟩ := ih hone.1 hone.2
    exact ⟨hrequests.congr fun k => by rw [numbers_cons, List.append_assoc],
      hlimits.congr fun k => by rw [numbers_cons, List.append_assoc]⟩

/-- The amounts are the sums of what can be read of the values that count. -/
theorem tracks_build (pod : Pod) :
    Tracks (buildAmounts pod).1 (fun k => (declared (·.requests) pod k).filterMap (reading k)) ∧
      Tracks (buildAmounts pod).2 (fun k => (declared (·.limits) pod k).filterMap (reading k)) := by
  obtain ⟨hrequests, hlimits⟩ := tracks_containers tracks_nil tracks_nil (longRunningContainers pod)
  have hlevel : ∀ (side : Side) (m : Option ResourceMap) (k : String), podLevel side pod k = m.bind (fun m => m.get k) →
      ((m.bind fun m => m.get k).elim ([] ++ numbers side (longRunningContainers pod) k) fun raw =>
        (reading k raw).toList) = (declared side pod k).filterMap (reading k) := by
    intro side m k hpod
    rw [declared, hpod]
    cases m.bind fun m => m.get k with
    | none => rfl
    | some v =>
      rw [Option.elim_some, List.filterMap_cons]
      cases reading k v <;> rfl
  rw [buildAmounts]
  cases hres : pod.spec.bind (·.resources) with
  | none =>
    have hnone : ∀ (side : Side) (k : String), podLevel side pod k = (none : Option ResourceMap).bind (fun m => m.get k) :=
      fun side k => by rw [podLevel, hres]; rfl
    exact ⟨hrequests.congr fun k => hlevel _ none k (hnone _ k), hlimits.congr fun k => hlevel _ none k (hnone _ k)⟩
  | some r =>
    have hsome : ∀ (side : Side) (k : String), podLevel side pod k = (side r).bind fun m => m.get k :=
      fun side k => by rw [podLevel, hres]; rfl
    exact ⟨(hrequests.replaceAll r.requests).congr fun k => hlevel _ r.requests k (hsome _ k),
      (hlimits.replaceAll r.limits).congr fun k => hlevel _ r.limits k (hsome _ k)⟩

theorem lookup_format {ns : String → List ℤ} (h : Tracks acc ns) (key : String) :
    (formatTotals acc).lookup key = (entryOf key (ns key)).map formatAmount := by
  rw [formatTotals, lookup_map, h.entries]

theorem isSome_format_iff {side : Side} {pod : Pod}
    (h : Tracks acc fun k => (declared side pod k).filterMap (reading k)) (key : String) :
    ((formatTotals acc).lookup key).isSome = true ↔ ∃ v ∈ declared side pod key, (reading key v).isSome = true := by
  rw [lookup_format h, Option.isSome_map, entryOf]
  split
  · next hnil =>
    rw [List.filterMap_eq_nil_iff] at hnil
    refine iff_of_false (by simp) ?_
    rintro ⟨v, hv, hsome⟩
    rw [hnil v hv] at hsome
    cases hsome
  · next hne =>
    refine iff_of_true rfl ?_
    obtain ⟨n, hn⟩ := List.exists_mem_of_ne_nil _ hne
    obtain ⟨v, hv, hread⟩ := List.mem_filterMap.mp hn
    exact ⟨v, hv, by rw [hread]; rfl⟩

end Amounts

/-! ## The row and the details -/

section Rows

variable {pod : Pod}

theorem decimal_inj {m n : ℤ} (h : decimal m = decimal n) : m = n := by
  have hminus : ∀ (a : ℕ) (t : Text), Nat.toDigits 10 a ≠ '-' :: t := fun a t hab =>
    FixedWidthText.notMem_toDigits rfl a (hab ▸ List.mem_cons_self)
  rw [decimal, decimal] at h
  split at h <;> split at h
  · have habs := FixedWidthText.toDigits_inj (List.cons.inj h).2
    omega
  · exact absurd h.symm (hminus _ _)
  · exact absurd h (hminus _ _)
  · have habs := FixedWidthText.toDigits_inj h
    omega

/-- A sum is shown as the amount that it is. -/
theorem shows_iff {key unit : String} (hunit : unitOf key = unit) (hne : unit ≠ "") (ns : List ℤ) (amount : ℤ) :
    Shows ((entryOf key ns).map formatAmount) unit amount ↔ wrap ns.sum = amount := by
  rw [entryOf]
  split
  · next hnil =>
    rw [hnil, List.sum_nil]
    exact eq_comm
  · rw [Option.map_some, Shows, Option.elim_some, formatAmount, hunit, if_neg hne, List.append_left_inj]
    exact ⟨decimal_inj, congrArg _⟩

theorem positive_getD (n : ℤ) : (positive n).getD 0 = max 0 n := by
  rw [positive]
  split
  · rw [Option.getD_some]
    omega
  · rw [Option.getD_none]
    omega

/-- The total of the row is the sum of what counts. -/
theorem usageTotal_eq (pod : Pod) (key : String) :
    usageTotal pod key = ((declared (·.requests) pod key).filterMap parseQuantity).sum := by
  have hlevel : (podLevelRequests pod).bind (fun m => m.get key) = podLevel (·.requests) pod key := rfl
  rw [usageTotal, hlevel, declared]
  cases podLevel (·.requests) pod key with
  | none => rfl
  | some v => cases hv : parseQuantity v <;> simp [hv]

theorem filterMap_read {read : Text → Option ℤ} {f : ℚ → ℚ} (h : ∀ v, read v = (parseQuantity v).map fun q => toI64 (f q))
    (vs : List Text) : (vs.filterMap read).sum = roundedSum ((vs.filterMap parseQuantity).map f) := by
  have hread : read = fun v => (parseQuantity v).map fun q => toI64 (f q) := funext h
  rw [roundedSum, List.map_map, hread, List.map_filterMap]
  rfl

theorem reading_cpu (v : Text) : reading "cpu" v = (parseQuantity v).map fun q => toI64 (q * 1000) := by
  rw [reading, if_pos (by decide), parseCpuMilli]

theorem reading_memory (v : Text) : reading "memory" v = (parseQuantity v).map fun q => toI64 (q / (1024 * 1024)) := by
  rw [reading, if_neg (by decide), if_pos (Or.inl (by decide)), parseMemoryMib]

/-- Without a spec nothing is requested. -/
theorem usageRequests_eq (pod : Pod) : (usageRequests pod).1.getD 0 = max 0 (toI64 (milliCores pod).sum) ∧
    (usageRequests pod).2.getD 0 = max 0 (toI64 (mebibytes pod).sum) := by
  have hcores : (milliCores pod).sum = usageTotal pod "cpu" * 1000 := by
    rw [milliCores, usageTotal_eq, List.sum_map_mul_right, List.map_id']
  have hbytes : (mebibytes pod).sum = usageTotal pod "memory" / (1024 * 1024) := by
    simp only [mebibytes, div_eq_mul_inv]
    rw [usageTotal_eq, List.sum_map_mul_right, List.map_id']
  rw [hcores, hbytes, usageRequests]
  split
  · next hnone =>
    have hzero : ∀ key, usageTotal pod key = 0 := by
      intro key
      rw [Option.isNone_iff_eq_none] at hnone
      rw [usageTotal, podLevelRequests, longRunningContainers, hnone]
      rfl
    rw [hzero, hzero, zero_mul, zero_div]
    exact ⟨by decide +kernel, by decide +kernel⟩
  · exact ⟨positive_getD _, positive_getD _⟩

/-- The totals are complete and those of the row exactly when all can be read and the roundings lose little. -/
theorem totalsAgree_iff (pod : Pod) : TotalsAgree pod ↔ TotalsRead pod := by
  obtain ⟨hrequests, hlimits⟩ := tracks_build pod
  obtain ⟨hcores, hbytes⟩ := usageRequests_eq pod
  have hcpu : Shows ((buildResourceTotals pod).requests.lookup "cpu") "m" ((usageRequests pod).1.getD 0) ↔
      SumsEvenly (milliCores pod) := by
    rw [buildResourceTotals, lookup_format hrequests, shows_iff (by decide) (by decide), filterMap_read reading_cpu, hcores]
    exact wrap_roundedSum_iff _
  have hmemory : Shows ((buildResourceTotals pod).requests.lookup "memory") "Mi" ((usageRequests pod).2.getD 0) ↔
      SumsEvenly (mebibytes pod) := by
    rw [buildResourceTotals, lookup_format hrequests, shows_iff (by decide) (by decide), filterMap_read reading_memory,
      hbytes]
    exact wrap_roundedSum_iff _
  constructor
  · intro h
    exact ⟨fun key hkey => (isSome_format_iff hrequests key).mp (h.requests key hkey),
      fun key hkey => (isSome_format_iff hlimits key).mp (h.limits key hkey), hcpu.mp h.cpu, hmemory.mp h.memory⟩
  · intro h
    exact ⟨fun key hkey => (isSome_format_iff hrequests key).mpr (h.requests key hkey),
      fun key hkey => (isSome_format_iff hlimits key).mpr (h.limits key hkey), hcpu.mpr h.cpu, hmemory.mpr h.memory⟩

def storagePod : Pod :=
  ⟨some ⟨[⟨some ⟨some ⟨[("ephemeral-storage", "1Gi".toList)], by decide⟩, none⟩, none⟩], none, none⟩⟩

def tinyPod : Pod :=
  ⟨some ⟨[⟨some ⟨some ⟨[("cpu", "500u".toList)], by decide⟩, none⟩, none⟩,
    ⟨some ⟨some ⟨[("cpu", "500u".toList)], by decide⟩, none⟩, none⟩], none, none⟩⟩

/-- Requested storage is missing, and two halves of a millicore are two millicores in the details and one in the row. -/
theorem not_totalsAgree : ¬ TotalsAgree storagePod ∧ ¬ TotalsAgree tinyPod := by
  constructor
  · intro h
    have hnames : Names (·.requests) storagePod "ephemeral-storage" := Or.inr ⟨_, List.mem_cons_self, rfl⟩
    have hmissing : (buildResourceTotals storagePod).requests.lookup "ephemeral-storage" = none := by decide +kernel
    have hentry := h.requests _ hnames
    rw [hmissing] at hentry
    cases hentry
  · intro h
    have hdetails : (buildResourceTotals tinyPod).requests.lookup "cpu" = some "2m".toList := by decide +kernel
    have hrow : (usageRequests tinyPod).1.getD 0 = 1 := by decide +kernel
    have hshows := h.cpu
    rw [hdetails, hrow] at hshows
    exact absurd hshows (show "2m".toList ≠ decimal 1 ++ "m".toList by decide +kernel)

end Rows

end FerrisScope.PodTotals
