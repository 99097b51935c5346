import FerrisScope.HelmCharts
import FerrisScope.WatcherConvergence

/-!
# Every run of the chart catalogue

The watch loop decodes release secrets, moves the index and hands its changes to the usage
counts. The counts are exact in every run. The rows recorded for the charts, folded by uid,
are those of the snapshot as long as no two charts in use have one synthetic uid between
them, which the format of the uid does not rule out.
-/

namespace FerrisScope
open KeyedWrites TableViews LabelledRuns

/-- What the loop reads of a decoded release. -/
structure ReleaseSummary where
  name : String
  ns : Option String
  version : ℤ
  chartRef : Option ChartRef

def ReleaseSummary.key (rel : ReleaseSummary) : ReleaseKey := (rel.ns.getD "", rel.name)

/-- A release secret: its identity and its payload, when it decodes. -/
structure ReleaseSecret (Obj : Type) where
  uid : Obj → Option Uid
  resourceVersion : Obj → Option String
  decode : Obj → Option ReleaseSummary

namespace ClusterCharts

variable {Obj : Type}

/-- The row of a chart in use. -/
def rowOf (key : ChartKey) (e : ChartRef × ℕ) : RowJson ℕ :=
  ⟨withUid (chartUid key) (projectClusterRow e.1 e.2)⟩

theorem rowOf_uid (key : ChartKey) (e : ChartRef × ℕ) : (rowOf key e).uid = chartUid key := by
  simp [RowJson.uid, rowOf, uid_withUid, Json.asStr]

theorem synthRow_eq (key : ChartKey) (e : ChartRef × ℕ) :
    synthRow (chartUid key) (projectClusterRow e.1 e.2) = some (rowOf key e) := rfl

/-- The rows a consumer holds after applying the calls. -/
def foldRows (R : Table Uid (RowJson ℕ)) (calls : List (ChannelCall ℕ)) : Table Uid (RowJson ℕ) :=
  (calls.flatMap ChannelCall.writes).foldl applyWrite R

theorem foldRows_append (R : Table Uid (RowJson ℕ)) (cs ds : List (ChannelCall ℕ)) :
    foldRows R (cs ++ ds) = foldRows (foldRows R cs) ds := by
  rw [foldRows, List.flatMap_append, List.foldl_append]
  rfl

theorem lookup_foldRows_recordKey (R : Table Uid (RowJson ℕ)) (u : ChartUsage) (key : ChartKey)
    (uid : Uid) : (foldRows R (recordKey u key)).lookup uid =
      if uid = chartUid key then (u.charts.lookup key).map (rowOf key) else R.lookup uid := by
  have hwrites : (recordKey u key).flatMap ChannelCall.writes = [match u.charts.lookup key with
      | none => .del (chartUid key)
      | some e => .put (chartUid key) (rowOf key e)] := by
    cases he : u.charts.lookup key <;> simp only [recordKey, ChartUsage.get, he] <;> rfl
  rw [foldRows, hwrites]
  simp only [List.foldl_cons, List.foldl_nil]
  rw [congrFun (lookup_applyWrite _ _) uid]
  by_cases hu : uid = chartUid key
  · cases he : u.charts.lookup key <;> simp [overlay, effectAt, hu]
  · cases he : u.charts.lookup key <;> simp [overlay, effectAt, hu]

/-- The folded rows are those of the charts in use. -/
def RowsOf (u : ChartUsage) (R : Table Uid (RowJson ℕ)) : Prop := ∀ uid row,
  R.lookup uid = some row ↔ ∃ key e, u.charts.lookup key = some e ∧ chartUid key = uid ∧
    rowOf key e = row

/-- No two charts in use have the same uid. -/
def Distinct (u : ChartUsage) : Prop := ∀ k k' e e', u.charts.lookup k = some e →
  u.charts.lookup k' = some e' → chartUid k = chartUid k' → k = k'

/-- Recording one chart brings the rows up to date when nothing else has changed. -/
theorem rowsOf_recordKey {u u' : ChartUsage} {R : Table Uid (RowJson ℕ)} (h : RowsOf u R)
    (hd : Distinct u) (hd' : Distinct u') {key : ChartKey}
    (hoff : ∀ k, k ≠ key → u'.charts.lookup k = u.charts.lookup k)
    (hin : (u.charts.lookup key).isSome ∨ (u'.charts.lookup key).isSome) :
    RowsOf u' (foldRows R (recordKey u' key)) := by
  intro uid row
  rw [lookup_foldRows_recordKey]
  by_cases hu : uid = chartUid key
  · subst hu
    rw [if_pos rfl]
    constructor
    · intro hrow
      obtain ⟨e, he, rfl⟩ := Option.map_eq_some_iff.mp hrow
      exact ⟨key, e, he, rfl, rfl⟩
    · rintro ⟨k, e, he, hk, rfl⟩
      by_cases hkk : k = key
      · subst hkk
        simp [he]
      · exfalso
        rcases hin with hin | hin
        · obtain ⟨e', he'⟩ := Option.isSome_iff_exists.mp hin
          exact hkk (hd k key e e' (hoff k hkk ▸ he) he' hk)
        · obtain ⟨e', he'⟩ := Option.isSome_iff_exists.mp hin
          exact hkk (hd' k key e e' he he' hk)
  · rw [if_neg hu, h uid row]
    constructor
    · rintro ⟨k, e, he, rfl, rfl⟩
      have hk : k ≠ key := fun hk => hu (by rw [hk])
      exact ⟨k, e, by rw [hoff k hk, he], rfl, rfl⟩
    · rintro ⟨k, e, he, rfl, rfl⟩
      have hk : k ≠ key := fun hk => hu (by rw [hk])
      exact ⟨k, e, by rw [← hoff k hk, he], rfl, rfl⟩

theorem distinct_decrement {u : ChartUsage} (h : Distinct u) (key : ChartKey) :
    Distinct (u.decrement key) := by
  have hsub : ∀ k e, (u.decrement key).charts.lookup k = some e →
      ∃ e', u.charts.lookup k = some e' := by
    intro k e he
    by_cases hk : k = key
    · subst hk
      cases hu : u.charts.lookup k with
      | none => simp [ChartUsage.decrement, hu] at he
      | some e' => exact ⟨e', rfl⟩
    · exact ⟨e, by rwa [ChartUsage.lookup_decrement_of_ne u hk] at he⟩
  intro k k' e e' he he' huid
  obtain ⟨f, hf⟩ := hsub k e he
  obtain ⟨f', hf'⟩ := hsub k' e' he'
  exact h k k' f f' hf hf' huid

private theorem isSome_increment (u : ChartUsage) (n : ChartRef) :
    ((u.increment n).charts.lookup n.key).isSome := by
  simp [ChartUsage.increment]

/-- One change, with the charts distinct before and after it, keeps the rows up to date. -/
theorem rowsOf_apply {u : ChartUsage} {R : Table Uid (RowJson ℕ)} (h : RowsOf u R)
    {c : LatestChange (Option ChartRef)} (hp : ∀ p, c.charts.1 = some p → 0 < u.count p.key)
    (hd : Distinct u) (hd' : Distinct (u.apply c).1) :
    RowsOf (u.apply c).1 (foldRows R ((u.apply c).2.flatMap (recordKey (u.apply c).1))) := by
  cases hleft : c.charts.1 with
  | none =>
    cases hnext : c.charts.2 with
    | none => simpa [ChartUsage.apply, hleft, hnext, foldRows] using h
    | some n =>
      have heq : u.apply c = (u.increment n, [n.key]) := by simp [ChartUsage.apply, hleft, hnext]
      rw [heq] at hd' ⊢
      simpa using rowsOf_recordKey h hd hd' (fun k hk => ChartUsage.lookup_increment_of_ne u hk)
        (.inr (isSome_increment u n))
  | some p =>
    have hpin : (u.charts.lookup p.key).isSome := by
      obtain ⟨e, he, -⟩ := ChartUsage.Positive.exists_of_count (hp p hleft)
      simp [he]
    cases hnext : c.charts.2 with
    | none =>
      have heq : u.apply c = (u.decrement p.key, [p.key]) := by
        simp [ChartUsage.apply, hleft, hnext]
      rw [heq] at hd' ⊢
      simpa using rowsOf_recordKey h hd hd' (fun k hk => ChartUsage.lookup_decrement_of_ne u hk)
        (.inl hpin)
    | some n =>
      by_cases hsame : n.key = p.key
      · have heq : u.apply c = ((u.decrement p.key).increment n, [p.key]) := by
          simp [ChartUsage.apply, hleft, hnext, hsame]
        rw [heq] at hd' ⊢
        simpa using rowsOf_recordKey h hd hd'
          (fun k hk => (ChartUsage.lookup_increment_of_ne _ (hsame ▸ hk)).trans
            (ChartUsage.lookup_decrement_of_ne u hk)) (.inl hpin)
      · have heq : u.apply c = ((u.decrement p.key).increment n, [p.key, n.key]) := by
          simp [ChartUsage.apply, hleft, hnext, hsame]
        rw [heq] at hd' ⊢
        have hd₁ := distinct_decrement hd p.key
        have hrows := rowsOf_recordKey h hd hd₁
          (fun k hk => ChartUsage.lookup_decrement_of_ne u hk) (.inl hpin)
        have hrec : recordKey ((u.decrement p.key).increment n) p.key =
            recordKey (u.decrement p.key) p.key := by
          simp [recordKey, ChartUsage.get, ChartUsage.lookup_increment_of_ne _ (Ne.symm hsame)]
        have hnrows := rowsOf_recordKey hrows hd₁ hd'
          (fun k hk => ChartUsage.lookup_increment_of_ne _ hk) (.inr (isSome_increment _ n))
        simpa [foldRows_append, hrec] using hnrows

theorem apply_cons (u : ChartUsage) (c : LatestChange (Option ChartRef))
    (cs : List (LatestChange (Option ChartRef))) :
    apply u (c :: cs) = ((apply (u.apply c).1 cs).1,
      (u.apply c).2.flatMap (recordKey (u.apply c).1) ++ (apply (u.apply c).1 cs).2) := by
  have hacc : ∀ (cs : List (LatestChange (Option ChartRef))) (u : ChartUsage)
      (calls : List (ChannelCall ℕ)),
      cs.foldl (fun acc change => let r := acc.1.apply change
        (r.1, acc.2 ++ r.2.flatMap (recordKey r.1))) (u, calls) =
      ((apply u cs).1, calls ++ (apply u cs).2) := by
    intro cs
    induction cs with
    | nil => simp [apply]
    | cons d cs ih =>
      intro u calls
      rw [List.foldl_cons, apply, List.foldl_cons, ih, ih]
      simp
  rw [apply, List.foldl_cons, hacc]
  simp

/-- No two releases have latest charts that differ and yet have the same uid. -/
def DistinctLatest (f : ReleaseKey → Option (Option ChartRef)) : Prop :=
  ∀ k k' c c', f k = some (some c) → f k' = some (some c') →
    chartUid c.key = chartUid c'.key → c.key = c'.key

/-- A chart is in use exactly when it is the chart of some latest revision. -/
theorem mem_charts_iff {u : ChartUsage} {m : Table ReleaseKey (Option ChartRef)} (h : Counts u m)
    (key : ChartKey) : (∃ e, u.charts.lookup key = some e) ↔
      ∃ k c, m.lookup k = some (some c) ∧ c.key = key := by
  have hpos : (∃ e, u.charts.lookup key = some e) ↔ 0 < u.count key := by
    rw [← Option.isSome_iff_exists, Nat.pos_iff_ne_zero, ne_eq, ← h.positive.lookup_eq_none,
      ← Option.ne_none_iff_isSome]
  rw [hpos, h.count]
  constructor
  · intro ht
    obtain ⟨k, hk⟩ := exists_of_tally_pos ht
    cases hm : m.lookup k with
    | none => simp [hm] at hk
    | some payload =>
      cases payload with
      | none => simp [hm, usesChart] at hk
      | some c =>
        have huse : key = c.key := by simpa [hm, usesChart] using hk
        exact ⟨k, c, hm, huse.symm⟩
  · rintro ⟨k, c, hm, rfl⟩
    exact tally_pos (k := k) (by simp [hm, usesChart])

theorem distinct_iff {u : ChartUsage} {m : Table ReleaseKey (Option ChartRef)} (h : Counts u m) :
    Distinct u ↔ DistinctLatest m.lookup := by
  constructor
  · intro hd k k' c c' hk hk' huid
    obtain ⟨e, he⟩ := (mem_charts_iff h c.key).mpr ⟨k, c, hk, rfl⟩
    obtain ⟨e', he'⟩ := (mem_charts_iff h c'.key).mpr ⟨k', c', hk', rfl⟩
    exact hd _ _ e e' he he' huid
  · intro hd key key' e e' he he' huid
    obtain ⟨k, c, hk, rfl⟩ := (mem_charts_iff h key).mp ⟨e, he⟩
    obtain ⟨k', c', hk', rfl⟩ := (mem_charts_iff h key').mp ⟨e', he'⟩
    exact hd k k' c c' hk hk' huid

/-- What the changes do to the map of latest revisions. -/
def after (f : ReleaseKey → Option (Option ChartRef))
    (cs : List (LatestChange (Option ChartRef))) : ReleaseKey → Option (Option ChartRef) :=
  overlay (effect (cs.map fun c => c.toChange.write)) f

theorem after_cons (m : Table ReleaseKey (Option ChartRef)) (c : LatestChange (Option ChartRef))
    (cs : List (LatestChange (Option ChartRef))) :
    after m.lookup (c :: cs) = after (applyWrite m c.toChange.write).lookup cs := by
  rw [after, List.map_cons, effect_cons, overlay_andThen, ← lookup_applyWrite]
  rfl

theorem after_nil (f : ReleaseKey → Option (Option ChartRef)) : after f [] = f := by
  funext k
  simp [after, overlay]

/-- Counts follow an exact stream of changes. -/
theorem counts_changes {u : ChartUsage} {m : Table ReleaseKey (Option ChartRef)} (h : Counts u m)
    {cs : List (LatestChange (Option ChartRef))} {f : ReleaseKey → Option (Option ChartRef)}
    (he : Exact m.lookup (cs.map LatestChange.toChange) f) :
    ∃ m', m'.lookup = f ∧ Counts (apply u cs).1 m' := by
  induction cs generalizing u m with
  | nil => exact ⟨m, he.symm, h⟩
  | cons c cs ih =>
    rw [apply_cons]
    refine ih (counts_apply h he.1).1 ?_
    rw [lookup_applyWrite, overlay_write]
    exact he.2

/-- The rows follow an exact stream of changes along which the charts stay distinct. -/
theorem rowsOf_changes {u : ChartUsage} {m : Table ReleaseKey (Option ChartRef)} (h : Counts u m)
    {R : Table Uid (RowJson ℕ)} (hR : RowsOf u R) {cs : List (LatestChange (Option ChartRef))}
    {f : ReleaseKey → Option (Option ChartRef)}
    (he : Exact m.lookup (cs.map LatestChange.toChange) f)
    (hd : ∀ pre, pre <+: cs → DistinctLatest (after m.lookup pre)) :
    RowsOf (apply u cs).1 (foldRows R (apply u cs).2) := by
  induction cs generalizing u m R with
  | nil => exact hR
  | cons c cs ih =>
    obtain ⟨hcounts, hleft⟩ := counts_apply h he.1
    have hbefore : Distinct u := by
      rw [distinct_iff h, ← after_nil m.lookup]
      exact hd [] List.nil_prefix
    have hafter : Distinct (u.apply c).1 := by
      rw [distinct_iff hcounts, ← after_nil (applyWrite _ _).lookup, ← after_cons]
      exact hd [c] (by simp)
    rw [apply_cons, foldRows_append]
    refine ih hcounts (rowsOf_apply hR hleft hbefore hafter) ?_ fun pre hpre => ?_
    · rw [lookup_applyWrite, overlay_write]
      exact he.2
    · rw [← after_cons]
      exact hd (c :: pre) (List.cons_prefix_cons.mpr ⟨rfl, hpre⟩)

end ClusterCharts

/-- The state of the watch loop and the calls it has made. -/
structure ChartsTask where
  cluster : ClusterCharts
  initSeen : Option (Finset Uid)
  calls : List (ChannelCall ℕ)

namespace ChartsTask

variable {Obj : Type}

def start : ChartsTask := ⟨⟨ReleaseIndex.default, ⟨∅⟩⟩, none, []⟩

/-- The index after an event and the changes it reported; `iter` is the iteration order of
`owner` at an `InitDone`. -/
def indexEvent (S : ReleaseSecret Obj) (t : ChartsTask) (iter : List Uid) :
    WatchEvent Obj → ReleaseIndex (Option ChartRef) × List (LatestChange (Option ChartRef))
  | .apply obj | .initApply obj => match S.uid obj with
      | none => (t.cluster.index, [])
      | some uid =>
          let rv := S.resourceVersion obj
          if t.cluster.index.isCurrent uid rv then (t.cluster.index, [])
          else match S.decode obj with
            | some rel => t.cluster.index.upsert uid rel.key ⟨rel.version, rv, rel.chartRef⟩
            | none =>
                let r := t.cluster.index.remove uid
                (r.1, r.2.toList)
  | .delete obj => match S.uid obj with
      | none => (t.cluster.index, [])
      | some uid =>
          let r := t.cluster.index.remove uid
          (r.1, r.2.toList)
  | .initDone => match t.initSeen with
      | none => (t.cluster.index, [])
      | some seen => t.cluster.index.retainSeen seen iter
  | .init | .err => (t.cluster.index, [])

def seenAfter (S : ReleaseSecret Obj) (t : ChartsTask) : WatchEvent Obj → Option (Finset Uid)
  | .init => some ∅
  | .initDone => none
  | .initApply obj => match S.uid obj with
      | none => t.initSeen
      | some uid => t.initSeen.map (insert uid)
  | _ => t.initSeen

/-- One event: the index moves and its changes go through `ClusterCharts::apply`. -/
def step (S : ReleaseSecret Obj) (t : ChartsTask) (i : WatchEvent Obj × List Uid) :
    Option ChartsTask :=
  if Enumerates i.2 t.cluster.index.owner.keys then
    let r := t.indexEvent S i.2 i.1
    let a := ClusterCharts.apply t.cluster.usage r.2
    some ⟨⟨r.1, a.1⟩, t.seenAfter S i.1, t.calls ++ a.2 ++ match i.1 with
      | .initDone => [.markInitDone]
      | _ => []⟩
  else none

/-- The number of releases whose latest revision uses the chart. -/
def releasesUsing (idx : ReleaseIndex (Option ChartRef)) (key : ChartKey) : ℕ :=
  (idx.releases.keys.filter fun k => (idx.latest k).any (usesChart key)).card

theorem tally_eq_releasesUsing {idx : ReleaseIndex (Option ChartRef)}
    {m : Table ReleaseKey (Option ChartRef)} (hm : m.lookup = idx.latest) (key : ChartKey) :
    tally (usesChart key) m = releasesUsing idx key := by
  rw [tally, releasesUsing]
  congr 1
  ext k
  rw [mem_tallied, Finset.mem_filter, Finmap.mem_keys, congrFun hm k]
  refine ⟨fun huse => ⟨?_, huse⟩, And.right⟩
  by_contra hn
  simp [ReleaseIndex.latest, Finmap.lookup_eq_none.mpr hn] at huse

theorem indexEvent_updates (S : ReleaseSecret Obj) {t : ChartsTask}
    (h : ReleaseIndex.Consistent t.cluster.index) (iter : List Uid) (e : WatchEvent Obj) :
    ReleaseIndex.Updates t.cluster.index (t.indexEvent S iter e) := by
  have hsame : ReleaseIndex.Updates t.cluster.index (t.cluster.index, []) := ⟨h, rfl⟩
  have hobj : ∀ obj, ReleaseIndex.Updates t.cluster.index (t.indexEvent S iter (.apply obj)) := by
    intro obj
    simp only [indexEvent]
    cases S.uid obj with
    | none => exact hsame
    | some uid =>
      dsimp only
      split_ifs
      · exact hsame
      · cases S.decode obj with
        | none => exact (ReleaseIndex.remove_removes h uid).updates
        | some rel => exact ReleaseIndex.upsert_updates h uid rel.key _
  cases e with
  | apply obj => exact hobj obj
  | initApply obj => exact hobj obj
  | init => exact hsame
  | err => exact hsame
  | delete obj =>
    simp only [indexEvent]
    cases S.uid obj with
    | none => exact hsame
    | some uid => exact (ReleaseIndex.remove_removes h uid).updates
  | initDone =>
    simp only [indexEvent]
    cases t.initSeen with
    | none => exact hsame
    | some seen => exact (ReleaseIndex.retainSeen_retains h seen iter).updates

structure Sound (t : ChartsTask) : Prop where
  consistent : ReleaseIndex.Consistent t.cluster.index
  counts : ∃ m, m.lookup = t.cluster.index.latest ∧ Counts t.cluster.usage m

theorem sound_start : Sound start where
  consistent := ReleaseIndex.consistent_default
  counts := by
    refine ⟨∅, ?_, ⟨by simp [start, ChartUsage.Positive], ?_⟩⟩
    · funext k
      simp [start, ReleaseIndex.default, ReleaseIndex.latest]
    · intro key
      simp [start, ChartUsage.count, tally]

theorem step_eq_some {S : ReleaseSecret Obj} {t t' : ChartsTask} {i : WatchEvent Obj × List Uid}
    (hs : step S t i = some t') :
    t'.cluster = ⟨(t.indexEvent S i.2 i.1).1,
      (ClusterCharts.apply t.cluster.usage (t.indexEvent S i.2 i.1).2).1⟩ ∧
    ∀ R, ClusterCharts.foldRows R t'.calls = ClusterCharts.foldRows (ClusterCharts.foldRows R t.calls)
      (ClusterCharts.apply t.cluster.usage (t.indexEvent S i.2 i.1).2).2 := by
  simp only [step, Option.ite_none_right_eq_some, Option.some.injEq] at hs
  obtain ⟨-, rfl⟩ := hs
  refine ⟨rfl, fun R => ?_⟩
  rw [ClusterCharts.foldRows_append, ClusterCharts.foldRows_append]
  cases i.1 <;> rfl

theorem sound_step {S : ReleaseSecret Obj} {t t' : ChartsTask} {i : WatchEvent Obj × List Uid}
    (h : Sound t) (hs : step S t i = some t') : Sound t' := by
  obtain ⟨hcluster, -⟩ := step_eq_some hs
  have hup := indexEvent_updates S h.consistent i.2 i.1
  obtain ⟨m, hm, hcounts⟩ := h.counts
  have hexact := hup.exact
  rw [← hm] at hexact
  refine ⟨?_, ?_⟩
  · rw [hcluster]
    exact hup.consistent
  · rw [hcluster]
    exact ClusterCharts.counts_changes hcounts hexact

theorem sound_run {S : ReleaseSecret Obj} {inputs : List (WatchEvent Obj × List Uid)}
    {t : ChartsTask} (h : run (step S) start inputs = some t) : Sound t :=
  run_invariant (fun _ _ _ => sound_step) sound_start h

/-- At every moment of the event, also between two of its changes, no two releases have
latest charts that differ and yet have the same uid. -/
def DistinctStep (S : ReleaseSecret Obj) (t : ChartsTask) (i : WatchEvent Obj × List Uid) : Prop :=
  ∀ pre, pre <+: (t.indexEvent S i.2 i.1).2 →
    ClusterCharts.DistinctLatest (ClusterCharts.after t.cluster.index.latest pre)

/-- The rows a consumer of the calls holds. -/
def rows (t : ChartsTask) : Table Uid (RowJson ℕ) := ClusterCharts.foldRows ∅ t.calls

structure Recorded (t : ChartsTask) : Prop where
  sound : Sound t
  rows : ClusterCharts.RowsOf t.cluster.usage t.rows
  distinct : ClusterCharts.DistinctLatest t.cluster.index.latest

/-- After a step that met the condition the latest charts are distinct. -/
theorem distinct_after_step {S : ReleaseSecret Obj} {t t' : ChartsTask}
    {i : WatchEvent Obj × List Uid} (hd : DistinctStep S t i) (h : Sound t)
    (hs : step S t i = some t') : ClusterCharts.DistinctLatest t'.cluster.index.latest := by
  have hup := indexEvent_updates S h.consistent i.2 i.1
  have hafter : ClusterCharts.after t.cluster.index.latest (t.indexEvent S i.2 i.1).2 =
      t'.cluster.index.latest := by
    rw [(step_eq_some hs).1, ← hup.exact.overlay_eq, List.map_map]
    rfl
  rw [← hafter]
  exact hd _ (List.prefix_refl _)

theorem recorded_step {S : ReleaseSecret Obj} {t t' : ChartsTask} {i : WatchEvent Obj × List Uid}
    (hd : DistinctStep S t i) (h : Recorded t) (hs : step S t i = some t') : Recorded t' := by
  refine ⟨sound_step h.sound hs, ?_, distinct_after_step hd h.sound hs⟩
  obtain ⟨hcluster, hcalls⟩ := step_eq_some hs
  have hup := indexEvent_updates S h.sound.consistent i.2 i.1
  obtain ⟨m, hm, hcounts⟩ := h.sound.counts
  have hexact := hup.exact
  rw [← hm] at hexact
  rw [hcluster, ChartsTask.rows, hcalls]
  exact ClusterCharts.rowsOf_changes hcounts h.rows hexact fun pre hpre => hm ▸ hd pre hpre

/-- A list of rows holds exactly the folded rows, one for each uid. -/
def Mirrors (R : Table Uid (RowJson ℕ)) (rows : List (RowJson ℕ)) : Prop :=
  (rows.map RowJson.uid).Nodup ∧ ∀ uid row, R.lookup uid = some row ↔ row ∈ rows ∧ row.uid = uid

theorem mem_snapshot {g : ClusterCharts} {keys : List ChartKey}
    (hk : Enumerates keys g.usage.charts.keys) {row : RowJson ℕ} :
    row ∈ g.snapshot keys ↔
      ∃ key e, g.usage.charts.lookup key = some e ∧ ClusterCharts.rowOf key e = row := by
  simp only [ClusterCharts.snapshot, List.mem_filterMap, Option.bind_eq_some_iff, ChartUsage.get]
  constructor
  · rintro ⟨key, -, e, he, hrow⟩
    exact ⟨key, e, he, Option.some.inj hrow⟩
  · rintro ⟨key, e, he, rfl⟩
    have hmem : key ∈ g.usage.charts := Finmap.lookup_isSome.mp (by simp [he])
    exact ⟨key, hk.mem_iff.mpr (Finmap.mem_keys.mpr hmem), e, he, rfl⟩

theorem snapshot_uids {g : ClusterCharts} {keys : List ChartKey}
    (hk : ∀ key ∈ keys, key ∈ g.usage.charts) :
    (g.snapshot keys).map RowJson.uid = keys.map ClusterCharts.chartUid := by
  induction keys with
  | nil => rfl
  | cons key keys ih =>
    obtain ⟨e, he⟩ := Option.isSome_iff_exists.mp
      (Finmap.lookup_isSome.mpr (hk key (by simp)))
    have hcons : g.snapshot (key :: keys) = ClusterCharts.rowOf key e :: g.snapshot keys := by
      simp [ClusterCharts.snapshot, ChartUsage.get, he, ClusterCharts.synthRow_eq]
    rw [hcons, List.map_cons, List.map_cons, ClusterCharts.rowOf_uid,
      ih fun k hm => hk k (by simp [hm])]

/-- The uids of the snapshot are distinct exactly when those of the charts in use are. -/
theorem nodup_snapshot_iff {g : ClusterCharts} {keys : List ChartKey}
    (hk : Enumerates keys g.usage.charts.keys) :
    ((g.snapshot keys).map RowJson.uid).Nodup ↔ ClusterCharts.Distinct g.usage := by
  have hin : ∀ key, key ∈ keys ↔ ∃ e, g.usage.charts.lookup key = some e := by
    intro key
    rw [hk.mem_iff, Finmap.mem_keys, ← Finmap.lookup_isSome, Option.isSome_iff_exists]
  rw [snapshot_uids fun key hm => Finmap.mem_keys.mp (hk.mem_iff.mp hm),
    List.nodup_map_iff_inj_on hk.1]
  constructor
  · intro hinj k k' e e' he he' huid
    exact hinj k ((hin k).mpr ⟨e, he⟩) k' ((hin k').mpr ⟨e', he'⟩) huid
  · intro hd k hmem k' hmem' huid
    obtain ⟨e, he⟩ := (hin k).mp hmem
    obtain ⟨e', he'⟩ := (hin k').mp hmem'
    exact hd k k' e e' he he' huid

theorem mirrors_of_recorded {t : ChartsTask} (h : Recorded t) {keys : List ChartKey}
    (hk : Enumerates keys t.cluster.usage.charts.keys) :
    Mirrors t.rows (t.cluster.snapshot keys) := by
  obtain ⟨m, hm, hcounts⟩ := h.sound.counts
  have hd : ClusterCharts.Distinct t.cluster.usage := by
    rw [ClusterCharts.distinct_iff hcounts, hm]
    exact h.distinct
  refine ⟨(nodup_snapshot_iff hk).mpr hd, ?_⟩
  intro uid row
  rw [h.rows uid row, mem_snapshot hk]
  constructor
  · rintro ⟨key, e, he, rfl, rfl⟩
    exact ⟨⟨key, e, he, rfl⟩, ClusterCharts.rowOf_uid key e⟩
  · rintro ⟨⟨key, e, he, rfl⟩, huid⟩
    exact ⟨key, e, he, (ClusterCharts.rowOf_uid key e).symm.trans huid, rfl⟩

theorem recorded_start : Recorded start where
  sound := sound_start
  rows uid row := by simp [rows, start, ClusterCharts.foldRows]
  distinct k k' c c' hk := by simp [start, ReleaseIndex.default, ReleaseIndex.latest] at hk

/-- In every run the count stored for a chart is the number of releases whose latest revision
uses it, a chart is present exactly when that number is positive, and a decrement always
finds a positive count. The recorded rows, folded by uid, are the snapshot in every run at
every moment of which the latest charts have distinct uids; and where they are the snapshot,
the latest charts have distinct uids. -/
theorem charts_counted {S : ReleaseSecret Obj} {inputs : List (WatchEvent Obj × List Uid)}
    {t : ChartsTask} (h : run (step S) start inputs = some t) :
    (∀ key, (∀ e, t.cluster.usage.get key = some e → e.2 = releasesUsing t.cluster.index key) ∧
      ((∃ e, t.cluster.usage.get key = some e) ↔ 0 < releasesUsing t.cluster.index key)) ∧
    (∀ (i : WatchEvent Obj × List Uid) pre c post p, (t.indexEvent S i.2 i.1).2 = pre ++ c :: post → c.charts.1 = some p →
      0 < (ClusterCharts.apply t.cluster.usage pre).1.count p.key) ∧
    (Meets (step S) (DistinctStep S) start inputs → ∀ keys,
      Enumerates keys t.cluster.usage.charts.keys → Mirrors t.rows (t.cluster.snapshot keys)) ∧
    ∀ keys, Enumerates keys t.cluster.usage.charts.keys →
      Mirrors t.rows (t.cluster.snapshot keys) →
        ClusterCharts.DistinctLatest t.cluster.index.latest := by
  have hs := sound_run h
  obtain ⟨m, hm, hcounts⟩ := hs.counts
  refine ⟨fun key => ⟨fun e he => ?_, ?_⟩, ?_, fun hmeets keys hk => ?_, fun keys hk hmir => ?_⟩
  · rw [← tally_eq_releasesUsing hm, ← hcounts.count]
    simp [ChartUsage.count, show t.cluster.usage.charts.lookup key = some e from he]
  · rw [← tally_eq_releasesUsing hm, ← hcounts.count, Nat.pos_iff_ne_zero, ne_eq,
      ← hcounts.positive.lookup_eq_none, ← ne_eq, Option.ne_none_iff_exists']
    rfl
  · intro i pre c post p hcs hp
    have hexact := (indexEvent_updates S hs.consistent i.2 i.1).exact
    rw [← hm, hcs, List.map_append, List.map_cons] at hexact
    obtain ⟨f, hf, hprev⟩ := hexact.prev_eq
    obtain ⟨m', hm', hcounts'⟩ := ClusterCharts.counts_changes hcounts hf
    exact (counts_apply hcounts' ((congrFun hm' _).trans hprev)).2 p hp
  · exact mirrors_of_recorded
      (run_invariant_meets (fun _ _ _ => recorded_step) hmeets recorded_start h) hk
  · have hd := (nodup_snapshot_iff hk).mp hmir.1
    rw [← hm]
    exact (ClusterCharts.distinct_iff hcounts).mp hd

/-- Secrets given by their uid and the release they decode to. -/
def sampleSecrets : ReleaseSecret (Uid × ReleaseSummary) where
  uid obj := some obj.1
  resourceVersion _ := none
  decode obj := some obj.2

def sampleRelease (name chart version : String) : ReleaseSummary :=
  ⟨name, some "ns", 1, some ⟨chart, version, none, none⟩⟩

theorem charts_counted_single : ∃ t : ChartsTask,
    run (step sampleSecrets) start [(.apply ("u1", sampleRelease "web" "nginx" "1.0"), [])] = some t ∧
    (∃ e, t.cluster.usage.get ("nginx", "1.0") = some e) ∧
    Mirrors t.rows (t.cluster.snapshot [("nginx", "1.0")]) := by
  obtain ⟨t, ht, hpos, hk⟩ : ∃ t : ChartsTask,
      run (step sampleSecrets) start [(.apply ("u1", sampleRelease "web" "nginx" "1.0"), [])] =
        some t ∧ 0 < releasesUsing t.cluster.index ("nginx", "1.0") ∧
      Enumerates [("nginx", "1.0")] t.cluster.usage.charts.keys :=
    ⟨_, rfl, by decide, by decide⟩
  obtain ⟨hcount, -, hrows, -⟩ := charts_counted ht
  refine ⟨t, ht, (hcount _).2.mpr hpos, hrows ⟨?_, fun _ _ => trivial⟩ _ hk⟩
  let chart : ChartRef := ⟨"nginx", "1.0", none, none⟩
  have hcs : (start.indexEvent sampleSecrets [] (.apply ("u1", sampleRelease "web" "nginx" "1.0"))).2
      = [.upsert ("ns", "web") none (some chart)] := by decide
  have hnone : start.cluster.index.latest = fun _ => none := by
    funext k
    simp [start, ReleaseIndex.default, ReleaseIndex.latest]
  have hone : ∀ pre, pre <+: [LatestChange.upsert ("ns", "web") none (some chart)] → ∀ k c,
      ClusterCharts.after start.cluster.index.latest pre k = some (some c) → c = chart := by
    intro pre hpre k c hc
    rw [hnone] at hc
    rcases List.prefix_cons_iff.mp hpre with rfl | ⟨l, rfl, hl⟩
    · simp [ClusterCharts.after, overlay] at hc
    · rw [List.prefix_nil.mp hl] at hc
      by_cases hk : k = ("ns", "web")
      · simpa [ClusterCharts.after, overlay, effectAt, Change.write, LatestChange.toChange, hk]
          using hc.symm
      · simp [ClusterCharts.after, overlay, effectAt, Change.write, LatestChange.toChange, hk] at hc
  intro pre hpre k k' c c' hc hc' _
  have hpre' : pre <+: [LatestChange.upsert ("ns", "web") none (some chart)] := hcs ▸ hpre
  rw [hone pre hpre' k c hc, hone pre hpre' k' c' hc']

/-- Two charts with one uid: the snapshot has two rows under it and the fold has one. -/
theorem charts_share_uid : ∃ t : ChartsTask,
    run (step sampleSecrets) start [(.apply ("u1", sampleRelease "web" "a:b" "c"), []),
      (.apply ("u2", sampleRelease "api" "a" "b:c"), ["u1"])] = some t ∧
    Enumerates [("a", "b:c"), ("a:b", "c")] t.cluster.usage.charts.keys ∧
    t.rows.keys.card = 1 ∧ (t.cluster.snapshot [("a", "b:c"), ("a:b", "c")]).length = 2 ∧
    ¬ Mirrors t.rows (t.cluster.snapshot [("a", "b:c"), ("a:b", "c")]) := by
  refine ⟨_, rfl, by decide, by decide, by decide, fun h => ?_⟩
  exact absurd h.1 (by decide)

end ChartsTask
end FerrisScope
