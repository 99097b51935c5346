import FerrisScope.HelmChartsRuns

/-!
# The metadata of a chart in use

A chart in use is kept with the reference of the release that brought it in, and with a count. While
other releases use the same chart and version the reference stays, also when the release it came
from leaves.
-/

namespace FerrisScope.ChartMetadata
open KeyedWrites TableViews LabelledRuns

/-- The usage beside the latest chart of each release. -/
structure State where
  usage : ChartUsage
  latest : Table ReleaseKey (Option ChartRef)

def init : State := ⟨⟨∅⟩, ∅⟩

/-- A change starts from the latest chart of its release. -/
def step (s : State) (c : LatestChange (Option ChartRef)) : Option State :=
  if s.latest.lookup c.toChange.key = c.toChange.prev then
    some ⟨(s.usage.apply c).1, applyWrite s.latest c.toChange.write⟩
  else none

/-- A release whose latest revision has this very reference. -/
def Backed (s : State) (chart : ChartRef) : Prop := ∃ k, s.latest.lookup k = some (some chart)

/-- Every reference held is that of a release that uses the chart. -/
def Current (s : State) : Prop := ∀ key e, s.usage.get key = some e → Backed s e.1

/-- Where a release leaves a chart that others use, one of the others has the reference held, or it enters the
chart again with that reference. -/
def HandsOver (s : State) (c : LatestChange (Option ChartRef)) : Prop :=
  ∀ p e, c.charts.1 = some p → s.usage.get p.key = some e → 1 < e.2 →
    c.charts.2 = some e.1 ∨ ∃ k, k ≠ c.toChange.key ∧ s.latest.lookup k = some (some e.1)

/-- A reference is held under its own key. -/
def Keyed (s : State) : Prop := ∀ key e, s.usage.get key = some e → e.1.key = key

variable {s s' : State} {c : LatestChange (Option ChartRef)} {key : ChartKey}

theorem step_eq_some :
    step s c = some s' ↔ s.latest.lookup c.toChange.key = c.toChange.prev ∧
      s' = ⟨(s.usage.apply c).1, applyWrite s.latest c.toChange.write⟩ := by
  unfold step
  split
  · rename_i h
    simp [h, eq_comm]
  · rename_i h
    simp [h]

/-- What a chart's entry becomes when a release leaves the chart. -/
def afterLeaving (left : Option ChartRef) (key : ChartKey) (entry : Option (ChartRef × ℕ)) :
    Option (ChartRef × ℕ) :=
  if usesChart key left then entry.bind fun e => if e.2 - 1 = 0 then none else some (e.1, e.2 - 1) else entry

/-- What it becomes when a release enters the chart. -/
def afterEntering (entered : Option ChartRef) (key : ChartKey) (entry : Option (ChartRef × ℕ)) :
    Option (ChartRef × ℕ) :=
  match entered with
  | none => entry
  | some n => if key = n.key then some ((entry.getD (n, 0)).1, (entry.getD (n, 0)).2 + 1) else entry

theorem get_decrement (u : ChartUsage) (p : ChartRef) (key : ChartKey) :
    (u.decrement p.key).get key = afterLeaving (some p) key (u.get key) := by
  by_cases hkey : key = p.key
  · subst hkey
    have huse : usesChart p.key (some p) = true := by simp [usesChart]
    rw [afterLeaving, if_pos huse]
    unfold ChartUsage.decrement ChartUsage.get
    cases he : u.charts.lookup p.key with
    | none => simpa using he
    | some e =>
      dsimp only [Option.bind_some]
      split
      · exact Finmap.lookup_erase _ _
      · exact Finmap.lookup_insert _
  · have huse : usesChart key (some p) = false := by simp [usesChart, hkey]
    rw [afterLeaving, huse, if_neg Bool.false_ne_true]
    exact ChartUsage.lookup_decrement_of_ne u hkey

theorem get_increment (u : ChartUsage) (n : ChartRef) (key : ChartKey) :
    (u.increment n).get key = afterEntering (some n) key (u.get key) := by
  rw [afterEntering]
  split
  · rename_i hkey
    subst hkey
    exact Finmap.lookup_insert _
  · rename_i hkey
    exact ChartUsage.lookup_increment_of_ne u hkey

theorem get_apply (u : ChartUsage) (c : LatestChange (Option ChartRef)) (key : ChartKey) :
    (u.apply c).1.get key = afterEntering c.charts.2 key (afterLeaving c.charts.1 key (u.get key)) := by
  unfold ChartUsage.apply
  cases hp : c.charts.1 with
  | none =>
    have hstay : afterLeaving none key (u.get key) = u.get key := rfl
    rw [hstay]
    cases hn : c.charts.2 with
    | none => rfl
    | some n => exact get_increment u n key
  | some p =>
    rw [← get_decrement]
    cases hn : c.charts.2 with
    | none => rfl
    | some n => exact get_increment _ n key

/-- Where an entry comes from: it was there and stays, or it was made for the chart entered. -/
theorem entry_cases {e : ChartRef × ℕ} (h : (s.usage.apply c).1.get key = some e) :
    (∃ f, s.usage.get key = some f ∧ e.1 = f.1 ∧ (usesChart key c.charts.1 = true → 1 < f.2)) ∨
      (c.charts.2 = some e.1 ∧ e.1.key = key) := by
  rw [get_apply] at h
  cases hleft : afterLeaving c.charts.1 key (s.usage.get key) with
  | none =>
    rw [hleft] at h
    cases hn : c.charts.2 with
    | none =>
      rw [hn] at h
      cases h
    | some n =>
      rw [hn, afterEntering] at h
      split at h
      · rename_i hkey
        cases h
        exact Or.inr ⟨rfl, hkey.symm⟩
      · cases h
  | some f =>
    rw [hleft] at h
    left
    have hkeep : e.1 = f.1 := by
      cases hn : c.charts.2 with
      | none =>
        rw [hn] at h
        cases h
        rfl
      | some n =>
        rw [hn, afterEntering] at h
        split at h <;> cases h <;> rfl
    rw [afterLeaving] at hleft
    split at hleft
    · obtain ⟨g, hg, hcount⟩ := Option.bind_eq_some_iff.mp hleft
      split at hcount
      · cases hcount
      · rename_i hne
        cases hcount
        exact ⟨g, hg, hkeep, fun _ => by omega⟩
    · rename_i hnot
      exact ⟨f, hleft, hkeep, fun huse => absurd huse hnot⟩

/-- The entry of a chart that others still use stays. -/
theorem entry_stays {p : ChartRef} {e : ChartRef × ℕ} (hp : c.charts.1 = some p)
    (he : s.usage.get p.key = some e) (hcount : 1 < e.2) :
    ∃ f, (s.usage.apply c).1.get p.key = some f ∧ f.1 = e.1 := by
  have huse : usesChart p.key (some p) = true := by simp [usesChart]
  have hne : e.2 - 1 ≠ 0 := by omega
  rw [get_apply, hp, afterLeaving, if_pos huse, he, Option.bind_some, if_neg hne]
  cases c.charts.2 with
  | none => exact ⟨_, rfl, rfl⟩
  | some n =>
    rw [afterEntering]
    split
    · exact ⟨_, rfl, rfl⟩
    · exact ⟨_, rfl, rfl⟩

theorem keyed_step (hs : Keyed s) (h : step s c = some s') : Keyed s' := by
  obtain ⟨-, rfl⟩ := step_eq_some.mp h
  intro key e he
  rcases entry_cases he with ⟨f, hf, heq, -⟩ | ⟨-, hkey⟩
  · rw [heq]
    exact hs key f hf
  · exact hkey

/-! ### Who has a reference -/

theorem lookup_latest (h : step s c = some s') (k : ReleaseKey) :
    s'.latest.lookup k = if k = c.toChange.key then c.toChange.next else s.latest.lookup k := by
  obtain ⟨-, rfl⟩ := step_eq_some.mp h
  have hwrite := congrFun (lookup_applyWrite s.latest c.toChange.write) k
  rw [overlay_write, Function.update_apply] at hwrite
  exact hwrite

/-- After the change the release has the chart entered. -/
theorem backed_step_iff (h : step s c = some s') (chart : ChartRef) :
    Backed s' chart ↔
      c.charts.2 = some chart ∨ ∃ k, k ≠ c.toChange.key ∧ s.latest.lookup k = some (some chart) := by
  have hnext : c.toChange.next = some (some chart) ↔ c.charts.2 = some chart := by
    cases c <;> simp [LatestChange.toChange, LatestChange.charts]
  constructor
  · rintro ⟨k, hk⟩
    rw [lookup_latest h] at hk
    split at hk
    · exact Or.inl (hnext.mp hk)
    · rename_i hne
      exact Or.inr ⟨k, hne, hk⟩
  · rintro (hchart | ⟨k, hne, hk⟩)
    · exact ⟨c.toChange.key, by rw [lookup_latest h, if_pos rfl, hnext.mpr hchart]⟩
    · exact ⟨k, by rw [lookup_latest h, if_neg hne, hk]⟩

/-- Before the change the release has the chart left. -/
theorem backed_before (h : step s c = some s') {chart : ChartRef} (hb : Backed s chart) :
    c.charts.1 = some chart ∨ ∃ k, k ≠ c.toChange.key ∧ s.latest.lookup k = some (some chart) := by
  obtain ⟨k, hk⟩ := hb
  by_cases hkey : k = c.toChange.key
  · left
    rw [hkey, (step_eq_some.mp h).1] at hk
    cases c with
    | upsert key prev latest =>
      obtain rfl : prev = some (some chart) := hk
      rfl
    | delete key prev =>
      obtain rfl : prev = some chart := Option.some.inj hk
      rfl
  · exact Or.inr ⟨k, hkey, hk⟩

theorem current_step_iff (hs : Keyed s) (hcur : Current s) (h : step s c = some s') :
    Current s' ↔ HandsOver s c := by
  have husage : s'.usage = (s.usage.apply c).1 := by rw [(step_eq_some.mp h).2]
  constructor
  · intro hcur' p e hp he hcount
    obtain ⟨f, hf, heq⟩ := entry_stays hp he hcount
    rw [← backed_step_iff h, ← heq]
    exact hcur' p.key f (husage ▸ hf)
  · intro hover key e he
    rw [husage] at he
    rw [backed_step_iff h]
    rcases entry_cases he with ⟨f, hf, heq, hothers⟩ | ⟨hentered, -⟩
    · rcases backed_before h (hcur key f hf) with hleft | hother
      · have hkey : f.1.key = key := hs key f hf
        have hcount : 1 < f.2 := hothers (by rw [hleft, ← hkey]; simp [usesChart])
        rw [heq]
        exact hover f.1 f hleft (hkey ▸ hf) hcount
      · rw [heq]
        exact Or.inr hother
    · exact Or.inl hentered

/-! ### Runs -/

/-- The changes an index reports are a run. -/
theorem run_of_exact {s : State} {changes : List (LatestChange (Option ChartRef))}
    {f : ReleaseKey → Option (Option ChartRef)}
    (h : Exact s.latest.lookup (changes.map LatestChange.toChange) f) :
    ∃ t, run step s changes = some t ∧ t.usage = (ClusterCharts.apply s.usage changes).1 ∧ t.latest.lookup = f := by
  induction changes generalizing s with
  | nil => exact ⟨s, rfl, rfl, h.symm⟩
  | cons c changes ih =>
    obtain ⟨hprev, hrest⟩ := h
    have hstep := step_eq_some.mpr ⟨hprev, rfl⟩
    obtain ⟨t, ht, husage, hlatest⟩ := ih (s := ⟨(s.usage.apply c).1, applyWrite s.latest c.toChange.write⟩)
      (by rw [lookup_applyWrite, overlay_write]; exact hrest)
    refine ⟨t, run_cons_eq_some.mpr ⟨_, hstep, ht⟩, ?_, hlatest⟩
    rw [husage, ClusterCharts.apply_cons]

theorem keyed_init : Keyed init := fun key e he => by
  rw [ChartUsage.get, show init.usage.charts.lookup key = none from Finmap.lookup_empty key] at he
  cases he

theorem current_init : Current init := fun key e he => by
  rw [ChartUsage.get, show init.usage.charts.lookup key = none from Finmap.lookup_empty key] at he
  cases he

theorem metadata_current_iff {changes : List (LatestChange (Option ChartRef))} {s : State}
    (h : run step init changes = some s) :
    (∀ pre post u, changes = pre ++ post → run step init pre = some u → Current u) ↔
      Meets step HandsOver init changes :=
  forall_prefix_iff_meets (fun _ _ _ => keyed_step) (fun _ _ _ => current_step_iff) keyed_init current_init h

/-- One chart and version with two descriptions. -/
def described (description : String) : ChartRef := ⟨"nginx", "1.0", none, some description⟩

def twoReleases : List (LatestChange (Option ChartRef)) :=
  [.upsert ("ns", "web") none (some (described "a")), .upsert ("ns", "api") none (some (described "b"))]

theorem metadata_current_twoReleases : ∃ s, run step init twoReleases = some s ∧ Current s := by
  obtain ⟨s, hs⟩ : ∃ s, run step init twoReleases = some s := Option.isSome_iff_exists.mp (by decide)
  have henters : ∀ s, ∀ c ∈ twoReleases, HandsOver s c := by
    intro s c hc p e hp
    simp only [twoReleases, List.mem_cons, List.not_mem_nil, or_false] at hc
    rcases hc with rfl | rfl <;> cases hp
  have hmeets : Meets step HandsOver init twoReleases := meets_of_forall henters _
  exact ⟨s, hs, (metadata_current_iff hs).mpr hmeets twoReleases [] s (List.append_nil _).symm hs⟩

/-- The release that brought the chart in leaves. -/
theorem metadata_outlives_release :
    ¬∀ (changes : List (LatestChange (Option ChartRef))) (s : State), run step init changes = some s → Current s := by
  intro hclaim
  obtain ⟨s, hs⟩ : ∃ s, run step init (twoReleases ++ [.delete ("ns", "web") (some (described "a"))]) = some s :=
    Option.isSome_iff_exists.mp (by decide)
  have hheld : (run step init (twoReleases ++ [.delete ("ns", "web") (some (described "a"))])).map
      (fun s => s.usage.get ("nginx", "1.0")) = some (some (described "a", 1)) := by decide
  have husers : (run step init (twoReleases ++ [.delete ("ns", "web") (some (described "a"))])).map
      (fun s => s.latest.keys.filter fun k => s.latest.lookup k = some (some (described "a"))) = some ∅ := by decide
  rw [hs] at hheld husers
  obtain ⟨k, hk⟩ := hclaim _ s hs _ _ (Option.some.inj hheld)
  have hmem : k ∈ s.latest.keys.filter fun k => s.latest.lookup k = some (some (described "a")) := by
    refine Finset.mem_filter.mpr ⟨Finmap.mem_keys.mpr (Finmap.lookup_isSome.mp ?_), hk⟩
    rw [hk]
    rfl
  have hnone : (s.latest.keys.filter fun k => s.latest.lookup k = some (some (described "a"))) = ∅ :=
    Option.some.inj husers
  rw [hnone] at hmem
  exact absurd hmem (Finset.notMem_empty k)

end FerrisScope.ChartMetadata
