import FerrisScope.DirtyChannel
import FerrisScope.TableViews
import Mathlib.Data.String.Basic

/-!
# The index of helm release revisions

Every release secret is a revision of one release. The index keeps, for each secret, the
release it belongs to, and for each release its revisions; the latest revision is the one of
greatest version, ties going to the greater uid. Mutations return how the latest revisions
moved. `content` is what an index says about a release and a secret: a consistent index is
determined by it.
-/

namespace FerrisScope
open KeyedWrites TableViews

abbrev ReleaseKey := String × String

inductive LatestChange (τ : Type) where
  | upsert (key : ReleaseKey) (prev : Option τ) (latest : τ)
  | delete (key : ReleaseKey) (prev : τ)
  deriving DecidableEq

/-- A change of the latest revision as a change of the map from releases to payloads. -/
def LatestChange.toChange {τ : Type} : LatestChange τ → Change ReleaseKey τ
  | .upsert key prev latest => ⟨key, prev, some latest⟩
  | .delete key prev => ⟨key, some prev, none⟩

structure Revision (τ : Type) where
  version : ℤ
  resourceVersion : Option String
  payload : τ

structure ReleaseIndex (τ : Type) where
  owner : Table Uid ReleaseKey
  releases : Table ReleaseKey (Table Uid (Revision τ))

namespace ReleaseIndex

variable {τ : Type}

/-- The comparator of `latest_of`: by version, then by uid. -/
def revOrder (a b : Σ _ : Uid, Revision τ) : Ordering :=
  (compare a.2.version b.2.version).then (compare a.1 b.1)

def rank (uid : Uid) (rev : Revision τ) : ℤ ×ₗ Uid := toLex (rev.version, uid)

theorem revOrder_eq_gt (a b : Σ _ : Uid, Revision τ) :
    revOrder a b = .gt ↔ rank b.1 b.2 < rank a.1 a.2 := by
  rw [revOrder, Ordering.then_eq_gt, compare_gt_iff_gt, compare_gt_iff_gt, compare_eq_iff_eq, rank,
    rank, Prod.Lex.toLex_lt_toLex, eq_comm]

theorem maxBy_revOrder_perm (l l' : AList fun _ : Uid => Revision τ)
    (hp : l.entries.Perm l'.entries) : maxBy revOrder l.entries = maxBy revOrder l'.entries := by
  refine maxBy_perm revOrder_eq_gt (fun a ha b hb hab => ?_) hp
  have hkey : a.1 = b.1 := congrArg (fun r => (ofLex r).2) hab
  exact List.NodupKeys.eq_of_fst_eq l.nodupKeys ha hb hkey

/-- `latest_of`: the same whatever the iteration order of the revisions. -/
def latestOf (revs : Table Uid (Revision τ)) : Option (Revision τ) :=
  revs.liftOn (fun l => (maxBy revOrder l.entries).map Sigma.snd)
    fun l l' hp => congrArg (Option.map Sigma.snd) (maxBy_revOrder_perm l l' hp)

def default : ReleaseIndex τ := ⟨∅, ∅⟩

def isCurrent (idx : ReleaseIndex τ) (uid : Uid) (resourceVersion : Option String) : Bool :=
  resourceVersion.isSome &&
    (((idx.owner.lookup uid).bind idx.releases.lookup).bind fun revs => revs.lookup uid).any
      fun r => r.resourceVersion == resourceVersion

def latest (idx : ReleaseIndex τ) (key : ReleaseKey) : Option τ :=
  ((idx.releases.lookup key).bind latestOf).map Revision.payload

/-- `iter_latest`, in the order of `keys`. -/
def iterLatest (idx : ReleaseIndex τ) (keys : List ReleaseKey) : List (ReleaseKey × τ) :=
  keys.filterMap fun key => (idx.latest key).map fun payload => (key, payload)

variable [DecidableEq τ]

def remove (idx : ReleaseIndex τ) (uid : Uid) : ReleaseIndex τ × Option (LatestChange τ) :=
  match idx.owner.lookup uid with
  | none => (idx, none)
  | some key =>
      let owner := idx.owner.erase uid
      match idx.releases.lookup key with
      | none => (⟨owner, idx.releases⟩, none)
      | some revs => match latestOf revs with
          | none => (⟨owner, idx.releases⟩, none)
          | some prev =>
              let revs := revs.erase uid
              match latestOf revs with
              | none => (⟨owner, idx.releases.erase key⟩, some (.delete key prev.payload))
              | some latest => (⟨owner, idx.releases.insert key revs⟩,
                  if latest.payload ≠ prev.payload then
                    some (.upsert key (some prev.payload) latest.payload)
                  else none)

def upsert (idx : ReleaseIndex τ) (uid : Uid) (key : ReleaseKey) (rev : Revision τ) :
    ReleaseIndex τ × List (LatestChange τ) :=
  let moved := (idx.owner.lookup uid).any fun k => decide (k ≠ key)
  let out := if moved then (idx.remove uid).2.toList else []
  let idx := if moved then (idx.remove uid).1 else idx
  let prev := idx.latest key
  let revs := ((idx.releases.lookup key).getD ∅).insert uid rev
  let idx' : ReleaseIndex τ := ⟨idx.owner.insert uid key, idx.releases.insert key revs⟩
  (idx', out ++ match idx'.latest key with
    | none => []
    | some latest => if prev ≠ some latest then [.upsert key prev latest] else [])

/-- `retain_seen`, with the iteration order of `owner`. -/
def retainSeen (idx : ReleaseIndex τ) (seen : Finset Uid) (iter : List Uid) :
    ReleaseIndex τ × List (LatestChange τ) :=
  (iter.filter fun uid => uid ∉ seen).foldl
    (fun acc uid => ((acc.1.remove uid).1, acc.2 ++ (acc.1.remove uid).2.toList)) (idx, [])

omit [DecidableEq τ] in
/-- The latest revision has the greatest version, ties going to the greatest uid. -/
theorem latestOf_greatest {revs : Table Uid (Revision τ)} {r : Revision τ}
    (h : latestOf revs = some r) :
    ∃ u, revs.lookup u = some r ∧ ∀ u' r', revs.lookup u' = some r' → rank u' r' ≤ rank u r := by
  induction revs using Finmap.induction_on with
  | H l =>
    simp only [latestOf, Finmap.liftOn_toFinmap, Option.map_eq_some_iff] at h
    obtain ⟨⟨u, r'⟩, hmax, rfl⟩ := h
    obtain ⟨hmem, hge⟩ := maxBy_greatest (f := fun a => rank a.1 a.2) revOrder_eq_gt hmax
    refine ⟨u, AList.mem_lookup_iff.mpr hmem, fun u' r' hr' => ?_⟩
    exact hge ⟨u', r'⟩ (AList.mem_lookup_iff.mp hr')

omit [DecidableEq τ] in
theorem latestOf_eq_none {revs : Table Uid (Revision τ)} :
    latestOf revs = none ↔ ∀ u, revs.lookup u = none := by
  induction revs using Finmap.induction_on with
  | H l =>
    simp only [latestOf, Finmap.liftOn_toFinmap, Option.map_eq_none_iff, maxBy_eq_none]
    constructor
    · intro hnil u
      rw [Finmap.lookup_toFinmap, AList.lookup_eq_none, AList.mem_keys, AList.keys, hnil]
      simp
    · intro hnone
      refine List.eq_nil_iff_forall_not_mem.mpr fun e he => ?_
      have hs : e.2 ∈ l.lookup e.1 := AList.mem_lookup_iff.mpr he
      rw [← Finmap.lookup_toFinmap, hnone e.1] at hs
      cases hs

omit [DecidableEq τ] in
theorem latestOf_isSome {revs : Table Uid (Revision τ)} {u : Uid} {r : Revision τ}
    (h : revs.lookup u = some r) : ∃ r', latestOf revs = some r' := by
  cases hl : latestOf revs with
  | some r' => exact ⟨r', rfl⟩
  | none =>
    rw [latestOf_eq_none.mp hl u] at h
    cases h

/-- The revision the index has for a release and a secret. -/
def content (idx : ReleaseIndex τ) (key : ReleaseKey) (uid : Uid) : Option (Revision τ) :=
  (idx.releases.lookup key).bind fun revs => revs.lookup uid

/-- The two maps describe the same pairs and no release is without revisions. -/
structure Consistent (idx : ReleaseIndex τ) : Prop where
  agree : ∀ uid key, idx.owner.lookup uid = some key ↔ (idx.content key uid).isSome = true
  nonempty : ∀ key revs, idx.releases.lookup key = some revs → revs ≠ ∅

omit [DecidableEq τ] in
theorem consistent_default : Consistent (default : ReleaseIndex τ) :=
  ⟨by simp [default, content], by simp [default]⟩

omit [DecidableEq τ] in
theorem Consistent.exists_mem {idx : ReleaseIndex τ} (h : Consistent idx) {key : ReleaseKey}
    {revs : Table Uid (Revision τ)} (hr : idx.releases.lookup key = some revs) :
    ∃ u r, revs.lookup u = some r := by
  by_contra hn
  push Not at hn
  refine h.nonempty key revs hr (table_ext ?_)
  funext u
  cases hu : revs.lookup u with
  | none => rfl
  | some r => exact absurd hu (hn u r)

omit [DecidableEq τ] in
/-- A consistent index is determined by its content. -/
theorem Consistent.ext {i i' : ReleaseIndex τ} (h : Consistent i) (h' : Consistent i')
    (hc : i.content = i'.content) : i = i' := by
  have howner : i.owner = i'.owner := by
    apply table_ext
    funext u
    apply Option.ext
    intro k
    rw [h.agree, h'.agree, hc]
  have hreleases : i.releases = i'.releases := by
    apply table_ext
    funext k
    have hk : ∀ u, i.content k u = i'.content k u := fun u => by rw [hc]
    simp only [content] at hk
    cases hi : i.releases.lookup k with
    | none =>
      cases hi' : i'.releases.lookup k with
      | none => rfl
      | some revs =>
        obtain ⟨u, r, hu⟩ := h'.exists_mem hi'
        simpa [hi, hi', hu] using hk u
    | some revs =>
      cases hi' : i'.releases.lookup k with
      | none =>
        obtain ⟨u, r, hu⟩ := h.exists_mem hi
        simpa [hi, hi', hu] using hk u
      | some revs' =>
        have : revs = revs' := by
          apply table_ext
          funext u
          simpa [hi, hi'] using hk u
        rw [this]
  cases i
  cases i'
  simp_all

omit [DecidableEq τ] in
theorem latest_insert (owner : Table Uid ReleaseKey) (idx : ReleaseIndex τ) (key : ReleaseKey)
    (revs : Table Uid (Revision τ)) :
    latest ⟨owner, idx.releases.insert key revs⟩ =
      Function.update idx.latest key ((latestOf revs).map Revision.payload) := by
  funext k
  by_cases hk : k = key
  · subst hk
    simp [latest]
  · simp [latest, hk]

omit [DecidableEq τ] in
theorem latest_erase (owner : Table Uid ReleaseKey) (idx : ReleaseIndex τ) (key : ReleaseKey) :
    latest ⟨owner, idx.releases.erase key⟩ = Function.update idx.latest key none := by
  funext k
  by_cases hk : k = key
  · subst hk
    simp [latest]
  · simp [latest, hk, Finmap.lookup_erase_ne hk]

/-- What every mutation does: it keeps the index consistent and its changes lead, exactly,
from the old latest revisions to the new ones. -/
structure Updates (idx : ReleaseIndex τ) (r : ReleaseIndex τ × List (LatestChange τ)) : Prop where
  consistent : Consistent r.1
  exact : Exact idx.latest (r.2.map LatestChange.toChange) r.1.latest

/-- The facts about `remove`: the secret is gone and nothing else moved. -/
structure Removes (idx : ReleaseIndex τ) (uid : Uid) (r : ReleaseIndex τ × Option (LatestChange τ)) :
    Prop where
  updates : Updates idx (r.1, r.2.toList)
  content : ∀ key u, r.1.content key u = if u = uid then none else idx.content key u

omit [DecidableEq τ] in
private theorem consistent_of_erased {idx idx' : ReleaseIndex τ} (h : Consistent idx) {uid : Uid}
    (howner : idx'.owner = idx.owner.erase uid)
    (hcontent : ∀ key u, idx'.content key u = if u = uid then none else idx.content key u)
    (hne : ∀ key revs, idx'.releases.lookup key = some revs → revs ≠ ∅) : Consistent idx' := by
  refine ⟨fun u k => ?_, hne⟩
  rw [howner, hcontent]
  by_cases hu : u = uid
  · subst hu
    simp
  · rw [Finmap.lookup_erase_ne hu, if_neg hu]
    exact h.agree u k

omit [DecidableEq τ] in
private theorem content_erased {idx : ReleaseIndex τ} (h : Consistent idx) {uid : Uid}
    {key : ReleaseKey} {revs : Table Uid (Revision τ)} (hown : idx.owner.lookup uid = some key)
    (hrev : idx.releases.lookup key = some revs) (k : ReleaseKey) (u : Uid) :
    (if k = key then (revs.erase uid).lookup u else idx.content k u) =
      if u = uid then none else idx.content k u := by
  by_cases hk : k = key
  · subst hk
    by_cases hu : u = uid
    · subst hu
      simp
    · simp [hu, content, hrev, Finmap.lookup_erase_ne hu]
  · rw [if_neg hk]
    split_ifs with hu
    · subst hu
      cases hc : idx.content k u with
      | none => rfl
      | some r =>
        have hown' := (h.agree u k).mpr (by simp [hc])
        rw [hown] at hown'
        exact absurd (Option.some.inj hown').symm hk
    · rfl

omit [DecidableEq τ] in
/-- The secret was the only revision of its release. -/
private theorem removes_last {idx : ReleaseIndex τ} (h : Consistent idx) {uid : Uid}
    {key : ReleaseKey} {revs : Table Uid (Revision τ)} (hown : idx.owner.lookup uid = some key)
    (hrev : idx.releases.lookup key = some revs) {prev : Revision τ}
    (hprev : latestOf revs = some prev) (hnext : latestOf (revs.erase uid) = none) :
    Removes idx uid (⟨idx.owner.erase uid, idx.releases.erase key⟩,
      some (.delete key prev.payload)) := by
  have hc : ∀ k u, content (⟨idx.owner.erase uid, idx.releases.erase key⟩ : ReleaseIndex τ) k u =
      if u = uid then none else idx.content k u := by
    intro k u
    rw [← content_erased h hown hrev]
    by_cases hk : k = key
    · subst hk
      simp [content, latestOf_eq_none.mp hnext u]
    · simp [content, hk, Finmap.lookup_erase_ne hk]
  refine ⟨⟨consistent_of_erased h rfl hc ?_, ?_⟩, hc⟩
  · intro k rs hk
    by_cases hkk : k = key
    · subst hkk
      simp at hk
    · rw [Finmap.lookup_erase_ne hkk] at hk
      exact h.nonempty k rs hk
  · rw [latest_erase]
    exact ⟨by simp [latest, hrev, hprev, LatestChange.toChange], rfl⟩

/-- A change is reported unless the payload stays the same. -/
private theorem exact_reported {m : ReleaseKey → Option τ} {key : ReleaseKey} {prev : Option τ}
    (h : m key = prev) (next : τ) :
    Exact m ((if prev ≠ some next then [LatestChange.upsert key prev next] else []).map
      LatestChange.toChange) (Function.update m key (some next)) := by
  by_cases hne : prev = some next
  · simp only [hne, ne_eq, not_true_eq_false, if_false, List.map_nil]
    rw [← hne, ← h]
    exact Function.update_eq_self key m
  · simp only [hne, ne_eq, not_false_eq_true, if_true, List.map_cons, List.map_nil]
    exact ⟨h, rfl⟩

/-- Other revisions of the release remain. -/
private theorem removes_demoted {idx : ReleaseIndex τ} (h : Consistent idx) {uid : Uid}
    {key : ReleaseKey} {revs : Table Uid (Revision τ)} (hown : idx.owner.lookup uid = some key)
    (hrev : idx.releases.lookup key = some revs) {prev next : Revision τ}
    (hprev : latestOf revs = some prev) (hnext : latestOf (revs.erase uid) = some next) :
    Removes idx uid (⟨idx.owner.erase uid, idx.releases.insert key (revs.erase uid)⟩,
      if next.payload ≠ prev.payload then
        some (.upsert key (some prev.payload) next.payload) else none) := by
  have hc : ∀ k u, content
      (⟨idx.owner.erase uid, idx.releases.insert key (revs.erase uid)⟩ : ReleaseIndex τ) k u =
      if u = uid then none else idx.content k u := by
    intro k u
    rw [← content_erased h hown hrev]
    by_cases hk : k = key
    · subst hk
      simp [content]
    · simp [content, hk]
  refine ⟨⟨consistent_of_erased h rfl hc ?_, ?_⟩, hc⟩
  · intro k rs hk
    by_cases hkk : k = key
    · subst hkk
      simp only [Finmap.lookup_insert, Option.some.injEq] at hk
      subst hk
      intro hempty
      rw [latestOf_eq_none.mpr (by simp [hempty])] at hnext
      cases hnext
    · rw [Finmap.lookup_insert_of_ne _ hkk] at hk
      exact h.nonempty k rs hk
  · have hlatest : idx.latest key = some prev.payload := by simp [latest, hrev, hprev]
    rw [latest_insert, hnext]
    have hreported := exact_reported hlatest next.payload
    by_cases hne : next.payload = prev.payload
    · simpa [hne] using hreported
    · simpa [hne, Ne.symm hne] using hreported

theorem remove_removes {idx : ReleaseIndex τ} (h : Consistent idx) (uid : Uid) :
    Removes idx uid (idx.remove uid) := by
  cases hown : idx.owner.lookup uid with
  | none =>
    have heq : idx.remove uid = (idx, none) := by simp [remove, hown]
    rw [heq]
    refine ⟨⟨h, rfl⟩, fun k u => ?_⟩
    split_ifs with hu
    · subst hu
      cases hc : idx.content k u with
      | none => rfl
      | some r =>
        have hown' := (h.agree u k).mpr (by simp [hc])
        rw [hown] at hown'
        cases hown'
    · rfl
  | some key =>
    have hcontent := (h.agree uid key).mp hown
    cases hrev : idx.releases.lookup key with
    | none => simp [content, hrev] at hcontent
    | some revs =>
      obtain ⟨u₀, r₀, hr₀⟩ := h.exists_mem hrev
      obtain ⟨prev, hprev⟩ := latestOf_isSome hr₀
      cases hnext : latestOf (revs.erase uid) with
      | none => simpa [remove, hown, hrev, hprev, hnext] using removes_last h hown hrev hprev hnext
      | some next =>
        simpa [remove, hown, hrev, hprev, hnext] using removes_demoted h hown hrev hprev hnext

omit [DecidableEq τ] in
private theorem content_insert {idx : ReleaseIndex τ} (h : Consistent idx) {uid : Uid}
    {key : ReleaseKey} (hown : ∀ k, idx.owner.lookup uid = some k → k = key) (rev : Revision τ)
    (k : ReleaseKey) (u : Uid) :
    content (⟨idx.owner.insert uid key,
      idx.releases.insert key (((idx.releases.lookup key).getD ∅).insert uid rev)⟩ :
        ReleaseIndex τ) k u =
      if u = uid then (if k = key then some rev else none) else idx.content k u := by
  by_cases hk : k = key
  · subst hk
    by_cases hu : u = uid
    · subst hu
      simp [content]
    · cases hrev : idx.releases.lookup k <;> simp [content, hu, hrev]
  · by_cases hu : u = uid
    · subst hu
      simp only [content, hk, if_false, if_true, ne_eq, not_false_eq_true, Finmap.lookup_insert_of_ne]
      cases hc : idx.content k u with
      | none => exact hc
      | some r => exact absurd (hown k ((h.agree u k).mpr (by simp [hc]))) hk
    · simp [content, hk, hu]

/-- The insertion of `upsert`, for a secret that belongs to no other release. -/
private theorem updates_insert {idx : ReleaseIndex τ} (h : Consistent idx) {uid : Uid}
    {key : ReleaseKey} (hown : ∀ k, idx.owner.lookup uid = some k → k = key) (rev : Revision τ) :
    let idx' : ReleaseIndex τ := ⟨idx.owner.insert uid key,
      idx.releases.insert key (((idx.releases.lookup key).getD ∅).insert uid rev)⟩
    Updates idx (idx', match idx'.latest key with
      | none => []
      | some latest => if idx.latest key ≠ some latest then
          [.upsert key (idx.latest key) latest] else []) := by
  intro idx'
  have hc : ∀ k u, idx'.content k u =
      if u = uid then (if k = key then some rev else none) else idx.content k u :=
    content_insert h hown rev
  obtain ⟨latest, hlatest⟩ :
      ∃ latest, latestOf (((idx.releases.lookup key).getD ∅).insert uid rev) = some latest :=
    latestOf_isSome (Finmap.lookup_insert _)
  have hnew : idx'.latest = Function.update idx.latest key (some latest.payload) := by
    rw [latest_insert, hlatest]
    rfl
  refine ⟨⟨fun u k => ?_, fun k rs hk => ?_⟩, ?_⟩
  · rw [hc]
    by_cases hu : u = uid
    · subst hu
      rw [Finmap.lookup_insert, if_pos rfl, Option.some.injEq, eq_comm]
      by_cases hk : k = key <;> simp [hk]
    · rw [Finmap.lookup_insert_of_ne _ hu, if_neg hu]
      exact h.agree u k
  · intro hempty
    by_cases hkk : k = key
    · subst hkk
      have hl : idx'.content k uid = none := by simp [content, hk, hempty]
      simp [hc] at hl
    · refine h.nonempty k rs ?_ hempty
      rwa [← Finmap.lookup_insert_of_ne _ hkk]
  · have hkey : idx'.latest key = some latest.payload := by simp [hnew]
    simp only [hkey]
    rw [hnew]
    exact exact_reported rfl latest.payload

theorem upsert_updates {idx : ReleaseIndex τ} (h : Consistent idx) (uid : Uid) (key : ReleaseKey)
    (rev : Revision τ) : Updates idx (idx.upsert uid key rev) := by
  have hrem := remove_removes h uid
  cases hmoved : (idx.owner.lookup uid).any fun k => decide (k ≠ key) with
  | true =>
    have hfree : ∀ k, (idx.remove uid).1.owner.lookup uid = some k → k = key := by
      intro k hk
      rw [hrem.updates.consistent.agree, hrem.content, if_pos rfl] at hk
      cases hk
    have hins := updates_insert hrem.updates.consistent hfree rev
    simp only [upsert, hmoved, if_true]
    refine ⟨hins.consistent, ?_⟩
    rw [List.map_append]
    exact exact_append hrem.updates.exact hins.exact
  | false =>
    have hfree : ∀ k, idx.owner.lookup uid = some k → k = key := by
      intro k hk
      simpa [hk] using hmoved
    simpa only [upsert, hmoved, Bool.false_eq_true, if_false, List.nil_append] using
      updates_insert h hfree rev

/-- The facts about `retain_seen`: the unseen secrets are gone and nothing else moved. -/
structure Retains (idx : ReleaseIndex τ) (gone : List Uid)
    (r : ReleaseIndex τ × List (LatestChange τ)) : Prop where
  updates : Updates idx r
  content : ∀ key u, r.1.content key u = if u ∈ gone then none else idx.content key u

private theorem foldl_remove {idx : ReleaseIndex τ} (l gone : List Uid)
    {acc : ReleaseIndex τ × List (LatestChange τ)} (h : Retains idx gone acc) :
    Retains idx (gone ++ l) (l.foldl
      (fun acc uid => ((acc.1.remove uid).1, acc.2 ++ (acc.1.remove uid).2.toList)) acc) := by
  induction l generalizing gone acc with
  | nil => simpa using h
  | cons uid l ih =>
    have hrem := remove_removes h.updates.consistent uid
    have hnext : Retains idx (gone ++ [uid])
        ((acc.1.remove uid).1, acc.2 ++ (acc.1.remove uid).2.toList) := by
      refine ⟨⟨hrem.updates.consistent, ?_⟩, fun k u => ?_⟩
      · rw [List.map_append]
        exact exact_append h.updates.exact hrem.updates.exact
      · rw [hrem.content, h.content]
        by_cases hu : u = uid <;> by_cases hg : u ∈ gone <;> simp [hu, hg]
    simpa using ih (gone ++ [uid]) hnext

theorem retainSeen_retains {idx : ReleaseIndex τ} (h : Consistent idx) (seen : Finset Uid)
    (iter : List Uid) :
    Retains idx (iter.filter fun uid => uid ∉ seen) (idx.retainSeen seen iter) := by
  have hstart : Retains idx [] (idx, []) := ⟨⟨h, rfl⟩, by simp⟩
  simpa [retainSeen] using foldl_remove (iter.filter fun uid => uid ∉ seen) [] hstart

/-- The index `retain_seen` leaves does not depend on the iteration order. -/
theorem retainSeen_comm {idx : ReleaseIndex τ} (h : Consistent idx) (seen : Finset Uid)
    {iter iter' : List Uid} (hi : Enumerates iter idx.owner.keys)
    (hi' : Enumerates iter' idx.owner.keys) :
    (idx.retainSeen seen iter).1 = (idx.retainSeen seen iter').1 := by
  have hr := retainSeen_retains h seen iter
  have hr' := retainSeen_retains h seen iter'
  refine hr.updates.consistent.ext hr'.updates.consistent ?_
  funext k u
  rw [hr.content, hr'.content]
  simp only [List.mem_filter, hi.mem_iff, hi'.mem_iff]

end ReleaseIndex
end FerrisScope
