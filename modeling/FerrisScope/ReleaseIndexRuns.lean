import FerrisScope.LabelledRuns
import FerrisScope.ReleaseIndex

/-!
# Every run of the release index

The changes a run has emitted, folded into a map keyed by release, are the latest revisions
of the index the run has built.
-/

namespace FerrisScope.ReleaseIndex
open KeyedWrites TableViews LabelledRuns

variable {τ : Type} [DecidableEq τ]

inductive Op (τ : Type) where
  | upsert (uid : Uid) (key : ReleaseKey) (rev : Revision τ)
  | remove (uid : Uid)
  | retainSeen (seen : Finset Uid) (iter : List Uid)

/-- The index and the changes emitted so far. -/
structure Indexed (τ : Type) where
  index : ReleaseIndex τ
  emitted : List (LatestChange τ)

def start : Indexed τ := ⟨default, []⟩

def step (s : Indexed τ) : Op τ → Option (Indexed τ)
  | .upsert uid key rev =>
      let r := s.index.upsert uid key rev
      some ⟨r.1, s.emitted ++ r.2⟩
  | .remove uid =>
      let r := s.index.remove uid
      some ⟨r.1, s.emitted ++ r.2.toList⟩
  | .retainSeen seen iter =>
      if Enumerates iter s.index.owner.keys then
        let r := s.index.retainSeen seen iter
        some ⟨r.1, s.emitted ++ r.2⟩
      else none

/-- The fold of a consumer of the changes. -/
def applyChange (m : Table ReleaseKey τ) : LatestChange τ → Table ReleaseKey τ
  | .upsert key _ latest => m.insert key latest
  | .delete key _ => m.erase key

omit [DecidableEq τ] in
theorem lookup_foldl_applyChange {cs : List (LatestChange τ)} {m : Table ReleaseKey τ}
    {f : ReleaseKey → Option τ} (h : Exact m.lookup (cs.map LatestChange.toChange) f) :
    (cs.foldl applyChange m).lookup = f := by
  have hwrite : ∀ (m : Table ReleaseKey τ) c, applyChange m c = applyWrite m c.toChange.write := by
    intro m c
    cases c <;> rfl
  have hfold : cs.foldl applyChange m =
      ((cs.map LatestChange.toChange).map Change.write).foldl applyWrite m := by
    simp only [List.foldl_map]
    congr 1
    funext m c
    exact hwrite m c
  rw [hfold, lookup_foldl_applyWrite]
  exact h.overlay_eq

structure Faithful (s : Indexed τ) : Prop where
  consistent : Consistent s.index
  exact : Exact (fun _ => none) (s.emitted.map LatestChange.toChange) s.index.latest

omit [DecidableEq τ] in
theorem faithful_updates {s : Indexed τ} (h : Faithful s)
    {r : ReleaseIndex τ × List (LatestChange τ)} (hr : Updates s.index r) :
    Faithful ⟨r.1, s.emitted ++ r.2⟩ := by
  refine ⟨hr.consistent, ?_⟩
  rw [List.map_append]
  exact exact_append h.exact hr.exact

theorem faithful_step {s t : Indexed τ} (op : Op τ) (h : Faithful s) (hs : step s op = some t) :
    Faithful t := by
  cases op with
  | upsert uid key rev =>
    cases hs
    exact faithful_updates h (upsert_updates h.consistent uid key rev)
  | remove uid =>
    cases hs
    exact faithful_updates h (remove_removes h.consistent uid).updates
  | retainSeen seen iter =>
    simp only [step, Option.ite_none_right_eq_some, Option.some.injEq] at hs
    obtain ⟨-, rfl⟩ := hs
    exact faithful_updates h (retainSeen_retains h.consistent seen iter).updates

omit [DecidableEq τ] in
theorem faithful_start : Faithful (start : Indexed τ) where
  consistent := consistent_default
  exact := by
    funext k
    simp [start, default, latest]

theorem faithful_run {s : Indexed τ} {ops : List (Op τ)} (h : run step start ops = some s) :
    Faithful s :=
  run_invariant (fun _ op _ => faithful_step op) faithful_start h

omit [DecidableEq τ] in
theorem Faithful.fold {s : Indexed τ} (h : Faithful s) :
    (s.emitted.foldl applyChange ∅).lookup = s.index.latest := by
  apply lookup_foldl_applyChange
  have hempty : (∅ : Table ReleaseKey τ).lookup = fun _ => none := by
    funext k
    exact Finmap.lookup_empty k
  rw [hempty]
  exact h.exact

omit [DecidableEq τ] in
/-- Collecting `iter_latest` into a map gives the latest payloads, in any order of the keys. -/
theorem lookup_iterLatest (idx : ReleaseIndex τ) {keys : List ReleaseKey}
    (hk : Enumerates keys idx.releases.keys) :
    ((idx.iterLatest keys).foldl (fun m e => m.insert e.1 e.2) ∅ : Table ReleaseKey τ).lookup =
      idx.latest := by
  have hfold : ∀ (l : List ReleaseKey) (m : Table ReleaseKey τ) (k : ReleaseKey),
      ((idx.iterLatest l).foldl (fun m e => m.insert e.1 e.2) m).lookup k =
        if k ∈ l then (idx.latest k).or (m.lookup k) else m.lookup k := by
    intro l
    induction l with
    | nil => simp [iterLatest]
    | cons a l ih =>
      intro m k
      cases ha : idx.latest a with
      | none =>
        have hcons : idx.iterLatest (a :: l) = idx.iterLatest l := by simp [iterLatest, ha]
        rw [hcons, ih]
        by_cases hka : k = a
        · subst hka
          simp [ha]
        · simp [hka]
      | some v =>
        have hcons : idx.iterLatest (a :: l) = (a, v) :: idx.iterLatest l := by
          simp [iterLatest, ha]
        rw [hcons, List.foldl_cons, ih]
        by_cases hka : k = a
        · subst hka
          simp [ha]
        · simp [hka]
  funext k
  rw [hfold]
  split_ifs with hm
  · simp
  · have hn : k ∉ idx.releases := fun hin => hm (hk.mem_iff.mpr (Finmap.mem_keys.mpr hin))
    simp [latest, Finmap.lookup_eq_none.mpr hn]

omit [DecidableEq τ] in
theorem Consistent.latest_greatest {idx : ReleaseIndex τ} (h : Consistent idx) {key : ReleaseKey}
    {revs : Table Uid (Revision τ)} (hr : idx.releases.lookup key = some revs) :
    ∃ u r, revs.lookup u = some r ∧ idx.latest key = some r.payload ∧
      ∀ u' r', revs.lookup u' = some r' → rank u' r' ≤ rank u r := by
  obtain ⟨u₀, r₀, hr₀⟩ := h.exists_mem hr
  obtain ⟨r, hl⟩ := latestOf_isSome hr₀
  obtain ⟨u, hu, hmax⟩ := latestOf_greatest hl
  exact ⟨u, r, hu, by simp [latest, hr, hl], hmax⟩

/-- In every run: the two maps agree and no release is empty; the emitted changes fold to
`iter_latest`; the latest revision of a release is the one of greatest version and then uid;
and the index `retain_seen` leaves, with the map its changes fold to, is the same for every
iteration order. -/
theorem index_faithful {s : Indexed τ} {ops : List (Op τ)} (h : run step start ops = some s) :
    Consistent s.index ∧
    (∀ keys, Enumerates keys s.index.releases.keys → s.emitted.foldl applyChange ∅ =
      (s.index.iterLatest keys).foldl (fun m e => m.insert e.1 e.2) ∅) ∧
    (∀ key revs, s.index.releases.lookup key = some revs → ∃ u r, revs.lookup u = some r ∧
      s.index.latest key = some r.payload ∧
      ∀ u' r', revs.lookup u' = some r' → rank u' r' ≤ rank u r) ∧
    ∀ seen iter iter', Enumerates iter s.index.owner.keys → Enumerates iter' s.index.owner.keys →
      (s.index.retainSeen seen iter).1 = (s.index.retainSeen seen iter').1 ∧
      (s.emitted ++ (s.index.retainSeen seen iter).2).foldl applyChange ∅ =
        (s.emitted ++ (s.index.retainSeen seen iter').2).foldl applyChange ∅ := by
  have hf := faithful_run h
  refine ⟨hf.consistent, fun keys hk => ?_, fun key revs => hf.consistent.latest_greatest, ?_⟩
  · apply table_ext
    rw [hf.fold, lookup_iterLatest s.index hk]
  · intro seen iter iter' hi hi'
    have hsame := retainSeen_comm hf.consistent seen hi hi'
    refine ⟨hsame, ?_⟩
    have hr := faithful_updates hf (retainSeen_retains hf.consistent seen iter).updates
    have hr' := faithful_updates hf (retainSeen_retains hf.consistent seen iter').updates
    apply table_ext
    exact hr.fold.trans ((congrArg latest hsame).trans hr'.fold.symm)

def sampleOps : List (Op ℕ) :=
  [.upsert "a1" ("ns", "a") ⟨1, none, 1⟩, .upsert "a2" ("ns", "a") ⟨2, none, 2⟩,
    .upsert "a1" ("ns", "b") ⟨3, none, 3⟩, .upsert "b1" ("ns", "b") ⟨3, none, 4⟩]

/-- A secret that moves to another release and loses the tie there. -/
theorem index_faithful_sampleOps : ∃ s : Indexed ℕ, run step start sampleOps = some s ∧
    Consistent s.index ∧ s.emitted.foldl applyChange ∅ =
      ([(("ns", "a"), 2), (("ns", "b"), 4)].foldl (fun m e => m.insert e.1 e.2) ∅) := by
  obtain ⟨s, hs, hk, hi⟩ : ∃ s : Indexed ℕ, run step start sampleOps = some s ∧
      Enumerates [("ns", "a"), ("ns", "b")] s.index.releases.keys ∧
      s.index.iterLatest [("ns", "a"), ("ns", "b")] = [(("ns", "a"), 2), (("ns", "b"), 4)] :=
    ⟨_, rfl, by decide, by decide⟩
  obtain ⟨hc, hfold, -⟩ := index_faithful hs
  exact ⟨s, hs, hc, hi ▸ hfold _ hk⟩

/-- The changes `retain_seen` returns do depend on the iteration order. -/
theorem retainSeen_changes_differ : ∃ s : Indexed ℕ,
    run step start [.upsert "a1" ("ns", "a") ⟨1, none, 1⟩,
      .upsert "a2" ("ns", "a") ⟨2, none, 2⟩] = some s ∧
    Enumerates ["a2", "a1"] s.index.owner.keys ∧ Enumerates ["a1", "a2"] s.index.owner.keys ∧
    (s.index.retainSeen ∅ ["a2", "a1"]).2 =
      [.upsert ("ns", "a") (some 2) 1, .delete ("ns", "a") 1] ∧
    (s.index.retainSeen ∅ ["a1", "a2"]).2 = [.delete ("ns", "a") 2] :=
  ⟨_, rfl, by decide, by decide, by decide, by decide⟩

end FerrisScope.ReleaseIndex
