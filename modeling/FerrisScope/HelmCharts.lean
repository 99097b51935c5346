import FerrisScope.ReleaseIndex
import FerrisScope.WatcherLoop

/-!
# Charts in use

The chart catalogue counts, for each chart and version, the releases whose latest revision
uses it. The counts are driven by the changes of a release index: each change decrements the
chart it leaves and increments the chart it enters. Every touched chart is recorded on the
dirty channel as a row under a synthetic uid, or deleted there.
-/

namespace FerrisScope
open KeyedWrites TableViews

abbrev ChartKey := String × String

structure ChartRef where
  name : String
  version : String
  appVersion : Option String
  description : Option String
  deriving DecidableEq

def ChartRef.key (c : ChartRef) : ChartKey := (c.name, c.version)

structure ChartUsage where
  charts : Table ChartKey (ChartRef × ℕ)

/-- The charts a change leaves and enters. -/
def LatestChange.charts : LatestChange (Option ChartRef) → Option ChartRef × Option ChartRef
  | .upsert _ prev latest => (prev.join, latest)
  | .delete _ prev => (prev, none)

namespace ChartUsage

/-- The part of `apply` for the chart left, with the saturating subtraction of the code. -/
def decrement (u : ChartUsage) (key : ChartKey) : ChartUsage :=
  match u.charts.lookup key with
  | none => u
  | some (chart, n) =>
      if n - 1 = 0 then ⟨u.charts.erase key⟩ else ⟨u.charts.insert key (chart, n - 1)⟩

/-- The part of `apply` for the chart entered: the first reference to a chart is kept. -/
def increment (u : ChartUsage) (chart : ChartRef) : ChartUsage :=
  let entry := (u.charts.lookup chart.key).getD (chart, 0)
  ⟨u.charts.insert chart.key (entry.1, entry.2 + 1)⟩

def apply (u : ChartUsage) (change : LatestChange (Option ChartRef)) :
    ChartUsage × List ChartKey :=
  let left : ChartUsage × List ChartKey := match change.charts.1 with
    | none => (u, [])
    | some p => (u.decrement p.key, [p.key])
  match change.charts.2 with
  | none => left
  | some n => (left.1.increment n, if n.key ∈ left.2 then left.2 else left.2 ++ [n.key])

def get (u : ChartUsage) (key : ChartKey) : Option (ChartRef × ℕ) := u.charts.lookup key

def count (u : ChartUsage) (key : ChartKey) : ℕ := ((u.charts.lookup key).map Prod.snd).getD 0

/-- A chart that is present is in use. -/
def Positive (u : ChartUsage) : Prop := ∀ key e, u.charts.lookup key = some e → 0 < e.2

theorem Positive.lookup_eq_none {u : ChartUsage} (h : Positive u) {key : ChartKey} :
    u.charts.lookup key = none ↔ u.count key = 0 := by
  cases he : u.charts.lookup key with
  | none => simp [count, he]
  | some e => simpa [count, he] using (h key e he).ne'

theorem Positive.exists_of_count {u : ChartUsage} {key : ChartKey} (h : 0 < u.count key) :
    ∃ e, u.charts.lookup key = some e ∧ e.2 = u.count key := by
  cases he : u.charts.lookup key with
  | none => simp [count, he] at h
  | some e => exact ⟨e, rfl, by simp [count, he]⟩

theorem lookup_decrement_of_ne (u : ChartUsage) {key k : ChartKey} (hk : k ≠ key) :
    (u.decrement key).charts.lookup k = u.charts.lookup k := by
  unfold decrement
  split
  · rfl
  · split_ifs
    · exact Finmap.lookup_erase_ne hk
    · exact Finmap.lookup_insert_of_ne _ hk

theorem lookup_increment_of_ne (u : ChartUsage) {chart : ChartRef} {k : ChartKey}
    (hk : k ≠ chart.key) : (u.increment chart).charts.lookup k = u.charts.lookup k :=
  Finmap.lookup_insert_of_ne _ hk

theorem count_decrement (u : ChartUsage) (key k : ChartKey) :
    (u.decrement key).count k = u.count k - (decide (k = key)).toNat := by
  by_cases hk : k = key
  · subst hk
    cases he : u.charts.lookup k with
    | none => simp [count, decrement, he]
    | some e =>
      by_cases hz : e.2 - 1 = 0
      · simp [count, decrement, he, hz]
      · simp [count, decrement, he, hz]
  · simp [count, lookup_decrement_of_ne u hk, hk]

theorem count_increment (u : ChartUsage) (chart : ChartRef) (k : ChartKey) :
    (u.increment chart).count k = u.count k + (decide (k = chart.key)).toNat := by
  by_cases hk : k = chart.key
  · subst hk
    cases he : u.charts.lookup chart.key <;> simp [count, increment, he]
  · simp [count, lookup_increment_of_ne u hk, hk]

theorem positive_decrement {u : ChartUsage} (h : Positive u) (key : ChartKey) :
    Positive (u.decrement key) := by
  intro k e he
  by_cases hk : k = key
  · subst hk
    cases hu : u.charts.lookup k with
    | none => simp [decrement, hu] at he
    | some e' =>
      by_cases hz : e'.2 - 1 = 0
      · simp [decrement, hu, hz] at he
      · simp only [decrement, hu, hz, if_false, Finmap.lookup_insert, Option.some.injEq] at he
        rw [← he]
        omega
  · rw [lookup_decrement_of_ne u hk] at he
    exact h k e he

theorem positive_increment {u : ChartUsage} (h : Positive u) (chart : ChartRef) :
    Positive (u.increment chart) := by
  intro k e he
  by_cases hk : k = chart.key
  · subst hk
    simp only [increment, Finmap.lookup_insert, Option.some.injEq] at he
    rw [← he]
    exact Nat.succ_pos _
  · rw [lookup_increment_of_ne u hk] at he
    exact h k e he

end ChartUsage

/-- The release's latest revision uses the chart. -/
def usesChart (key : ChartKey) (payload : Option ChartRef) : Bool :=
  payload.any fun chart => decide (key = chart.key)

/-- The usage counts are those of the releases in `m`. -/
structure Counts (u : ChartUsage) (m : Table ReleaseKey (Option ChartRef)) : Prop where
  positive : u.Positive
  count : ∀ key, u.count key = tally (usesChart key) m

theorem usesChart_prev (c : LatestChange (Option ChartRef)) (key : ChartKey) :
    c.toChange.prev.any (usesChart key) = usesChart key c.charts.1 := by
  cases c with
  | upsert k prev latest =>
    cases prev with
    | none => rfl
    | some p => rfl
  | delete k prev => rfl

theorem usesChart_next (c : LatestChange (Option ChartRef)) (key : ChartKey) :
    c.toChange.next.any (usesChart key) = usesChart key c.charts.2 := by
  cases c <;> rfl

namespace ChartUsage

theorem count_apply (u : ChartUsage) (c : LatestChange (Option ChartRef)) (key : ChartKey) :
    (u.apply c).1.count key = u.count key - (usesChart key c.charts.1).toNat +
      (usesChart key c.charts.2).toNat := by
  unfold apply
  cases hp : c.charts.1 with
  | none => cases hn : c.charts.2 <;> simp [usesChart, count_increment]
  | some p => cases hn : c.charts.2 <;> simp [usesChart, count_increment, count_decrement]

theorem positive_apply {u : ChartUsage} (h : Positive u) (c : LatestChange (Option ChartRef)) :
    Positive (u.apply c).1 := by
  unfold apply
  cases hp : c.charts.1 with
  | none =>
    cases hn : c.charts.2 with
    | none => exact h
    | some n => exact positive_increment h n
  | some p =>
    cases hn : c.charts.2 with
    | none => exact positive_decrement h p.key
    | some n => exact positive_increment (positive_decrement h p.key) n

end ChartUsage

/-- A change that starts from the latest revision of its release keeps the counts, and the
chart it leaves has a count to decrement. -/
theorem counts_apply {u : ChartUsage} {m : Table ReleaseKey (Option ChartRef)} (h : Counts u m)
    {c : LatestChange (Option ChartRef)} (hc : m.lookup c.toChange.key = c.toChange.prev) :
    Counts (u.apply c).1 (applyWrite m c.toChange.write) ∧
      ∀ p, c.charts.1 = some p → 0 < u.count p.key := by
  have hpos : ∀ key, usesChart key c.charts.1 = true → 0 < tally (usesChart key) m := by
    intro key huse
    apply tally_pos
    rw [hc, usesChart_prev, huse]
  refine ⟨⟨ChartUsage.positive_apply h.positive c, fun key => ?_⟩, fun p hp => ?_⟩
  · have hmove := tally_applyWrite (usesChart key) m hc
    rw [usesChart_prev, usesChart_next] at hmove
    rw [ChartUsage.count_apply, h.count]
    cases huse : usesChart key c.charts.1 with
    | false =>
      simp only [huse, Bool.toNat_false] at hmove ⊢
      omega
    | true =>
      have := hpos key huse
      simp only [huse, Bool.toNat_true] at hmove ⊢
      omega
  · rw [h.count]
    exact hpos p.key (by simp [hp, usesChart])

/-- The uid of a chart row. -/
def syntheticUid (source chartName chartVersion : String) : Uid :=
  "helm:chart:" ++ source ++ ":" ++ chartName ++ ":" ++ chartVersion

def helmClusterSource : String := "cluster"

def optStr : Option String → Json ℕ
  | none => .null
  | some s => .str s

/-- The row of a chart in use, its fields in key order. -/
def projectClusterRow (chart : ChartRef) (usedBy : ℕ) : Json ℕ :=
  .obj [("app_version", optStr chart.appVersion), ("description", optStr chart.description),
    ("name", .str chart.name), ("repo", .str "in-cluster"), ("used_by", .num usedBy),
    ("version", .str chart.version)]

def synthRow (uid : Uid) (projected : Json ℕ) : Option (RowJson ℕ) :=
  match Row.build uid projected none with
  | .ok row => some row.json
  | .error _ => none

def recordSynth (uid : Uid) (projected : Json ℕ) : List (ChannelCall ℕ) :=
  match Row.build uid projected none with
  | .ok row => [.write (.put uid row)]
  | .error _ => []

structure ClusterCharts where
  index : ReleaseIndex (Option ChartRef)
  usage : ChartUsage

namespace ClusterCharts

def chartUid (key : ChartKey) : Uid := syntheticUid helmClusterSource key.1 key.2

/-- What the loop of `apply` records for a touched chart. -/
def recordKey (u : ChartUsage) (key : ChartKey) : List (ChannelCall ℕ) :=
  match u.get key with
  | some (chart, n) => recordSynth (chartUid key) (projectClusterRow chart n)
  | none => [.write (.del (chartUid key))]

/-- `ClusterCharts::apply`: the usage after the changes and the calls it made. -/
def apply (u : ChartUsage) (changes : List (LatestChange (Option ChartRef))) :
    ChartUsage × List (ChannelCall ℕ) :=
  changes.foldl (fun acc change =>
    let r := acc.1.apply change
    (r.1, acc.2 ++ r.2.flatMap (recordKey r.1))) (u, [])

/-- The cluster part of the snapshot, in the order of `keys`. -/
def snapshot (g : ClusterCharts) (keys : List ChartKey) : List (RowJson ℕ) :=
  keys.filterMap fun key => (g.usage.get key).bind fun e =>
    synthRow (chartUid key) (projectClusterRow e.1 e.2)

end ClusterCharts

end FerrisScope
