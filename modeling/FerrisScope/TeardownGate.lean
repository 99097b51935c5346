import FerrisScope.WatcherRefcount

/-!
# The gate that keeps a torn-down cluster down

`tear_down_unhealthy` raises the `unavailable` flag and then clears the slots, and a subscribe
reads the flag before it waits for the lock on the slots. As an invariant, an entry whose
teardown is done has its flag up and no watcher. A subscribe breaks it when it was let through
before the flag went up and gets the lock after the slots were cleared.
-/

namespace FerrisScope.KindSlots
open LabelledRuns

/-- The entry a teardown will look up again. -/
def Teardown.pending : Teardown → Option ℕ
  | .resolved e => some e
  | .flagged e => some e
  | _ => none

/-- The entry a teardown has flagged. -/
def Teardown.raised : Teardown → Option ℕ
  | .flagged e => some e
  | .clearing e _ => some e
  | .done e => some e
  | _ => none

/-- An entry that was torn down holds no running watcher. -/
def TornDown (s : World) : Prop := ∀ d e, s.teardowns d = .done e → ∀ key, s.watcherAt e key = none

/-- A subscribe takes the lock while the flag is still down, and the cached entry is neither
evicted nor replaced between the two lookups of a teardown. -/
def HoldsGate (s : World) : Action → Prop
  | .subscribe c => ∀ e kind namespaces scope, s.calls c = .admitted e kind namespaces scope →
      (s.entries e).unavailable = false
  | .removeCluster | .removeClusterIfSame _ | .insertConnected => ∀ d, (s.teardowns d).pending = none
  | _ => True

structure Gated (s : World) : Prop where
  cached : ∀ e, s.cached = some e → e < s.nextEntry
  pending : ∀ d e, (s.teardowns d).pending = some e → s.cached = some e
  clearing : ∀ d e found, s.teardowns d = .clearing e found → found = e
  raised : ∀ d e, (s.teardowns d).raised = some e → e < s.nextEntry ∧ (s.entries e).unavailable = true
  tornDown : TornDown s

variable {site : Site} {s t : World} {a : Action}

/-- Watchers appear only through the lock section of a subscribe. -/
theorem step_watcherAt (h : Step site s a t) (hgate : HoldsGate s a) {e : ℕ}
    (hflag : (s.entries e).unavailable = true) {key : SlotKey} (hnone : s.watcherAt e key = none) :
    t.watcherAt e key = none := by
  rcases step_cases h with h | ⟨c, e', kind, namespaces, scope, rfl, hcall, rfl⟩ |
    ⟨c, found, sub, -, -, rfl⟩
  · by_contra hne
    obtain ⟨w, hw⟩ := Option.ne_none_iff_exists'.mp hne
    cases hnone.symm.trans (h.watcherAt hw)
  · rw [watcherAt_subscribeResource, if_neg, hnone]
    rintro ⟨rfl, -⟩
    cases (hgate _ _ _ _ hcall).symm.trans hflag
  · rw [watcherAt_unsubscribeResource, hnone]

theorem unavailable_install {e : ℕ} (he : e < s.nextEntry) :
    e < s.install.nextEntry ∧ (s.install.entries e).unavailable = (s.entries e).unavailable := by
  refine ⟨he.trans (Nat.lt_succ_self _), ?_⟩
  simp [World.install, he.ne]

/-- The flag of an entry stays up. -/
theorem step_unavailable (h : Step site s a t) {e : ℕ} (he : e < s.nextEntry)
    (hflag : (s.entries e).unavailable = true) :
    e < t.nextEntry ∧ (t.entries e).unavailable = true := by
  have hset : ∀ e' kinds, ((s.setKinds e' kinds).entries e).unavailable = true := by
    intro e' kinds
    rwa [unavailable_setKinds]
  have hinstall : e < s.install.nextEntry ∧ (s.install.entries e).unavailable = true := by
    rwa [(unavailable_install he).2, and_iff_right (unavailable_install he).1]
  cases h with
  | cacheLazy hc => exact hinstall
  | insertConnected hc => exact hinstall
  | dropEntryWatchers e' => exact ⟨he, hset _ _⟩
  | subscribe hc => exact ⟨he, hset _ _⟩
  | unsubscribe hc => exact ⟨he, hset _ _⟩
  | linger ht => exact ⟨he, hset _ _⟩
  | @teardownFlag d e' hd =>
    have hup := unavailable_setUnavailable s e' e
    rw [hflag, Bool.or_true] at hup
    exact ⟨he, hup⟩
  | teardownClear hd => exact ⟨he, hset _ _⟩
  | _ => exact ⟨he, hflag⟩

/-- A step outside the teardowns keeps the gate when it takes no entry from a pending one. -/
theorem Gated.of_teardowns (hg : Gated s) (h : Step site s a t) (hgate : HoldsGate s a)
    (hteardowns : t.teardowns = s.teardowns) (hcached : ∀ e, t.cached = some e → e < t.nextEntry)
    (hpending : ∀ d e, (s.teardowns d).pending = some e → t.cached = some e) : Gated t where
  cached := hcached
  pending d e hd := hpending d e (hteardowns ▸ hd)
  clearing d e found hd := hg.clearing d e found (hteardowns ▸ hd)
  raised d e hd := by
    obtain ⟨hlt, hflag⟩ := hg.raised d e (hteardowns ▸ hd)
    exact step_unavailable h hlt hflag
  tornDown d e hd key := by
    rw [hteardowns] at hd
    have hraised := hg.raised d e (by rw [hd]; rfl)
    exact step_watcherAt h hgate hraised.2 (hg.tornDown d e hd key)

theorem Gated.of_frame (hg : Gated s) (h : Step site s a t) (hgate : HoldsGate s a)
    (hteardowns : t.teardowns = s.teardowns) (hcached : t.cached = s.cached)
    (hnext : t.nextEntry = s.nextEntry) : Gated t := by
  refine hg.of_teardowns h hgate hteardowns (fun e he => ?_) (fun d e hd => ?_)
  · rw [hnext]
    exact hg.cached e (hcached ▸ he)
  · rw [hcached]
    exact hg.pending d e hd

theorem Gated.of_evicted (hg : Gated s) (h : Step site s a t) (hgate : HoldsGate s a)
    (hteardowns : t.teardowns = s.teardowns) (hcached : ∀ e, t.cached = some e → e < t.nextEntry)
    (hnone : ∀ d, (s.teardowns d).pending = none) : Gated t := by
  refine hg.of_teardowns h hgate hteardowns hcached fun d e hd => ?_
  cases (hnone d).symm.trans hd

theorem install_cached (s : World) (e : ℕ) (h : s.install.cached = some e) :
    e < s.install.nextEntry := by
  cases h
  exact Nat.lt_succ_self _

theorem Gated.setUnavailable (hg : Gated s) (e : ℕ) : Gated (s.setUnavailable e) where
  cached := hg.cached
  pending := hg.pending
  clearing := hg.clearing
  raised d e' hd := by
    obtain ⟨hlt, hflag⟩ := hg.raised d e' hd
    refine ⟨hlt, ?_⟩
    rw [unavailable_setUnavailable, hflag, Bool.or_true]
  tornDown d e' hd key := by
    rw [World.watcherAt, slot_setUnavailable]
    exact hg.tornDown d e' hd key

/-- One teardown moves on. -/
theorem Gated.setTeardown (hg : Gated s) (d : ℕ) {x : Teardown}
    (hpending : ∀ e, x.pending = some e → s.cached = some e)
    (hclearing : ∀ e found, x = .clearing e found → found = e)
    (hraised : ∀ e, x.raised = some e → e < s.nextEntry ∧ (s.entries e).unavailable = true)
    (hdone : ∀ e, x = .done e → ∀ key, s.watcherAt e key = none) : Gated (s.setTeardown d x) := by
  have hcases : ∀ d', (s.setTeardown d x).teardowns d' = x ∨
      (s.setTeardown d x).teardowns d' = s.teardowns d' := by
    intro d'
    by_cases hd : d' = d
    · subst hd
      exact .inl (Function.update_self ..)
    · exact .inr (Function.update_of_ne hd ..)
  refine ⟨hg.cached, fun d' e hd => ?_, fun d' e found hd => ?_, fun d' e hd => ?_,
    fun d' e hd key => ?_⟩
  · rcases hcases d' with h | h <;> rw [h] at hd
    · exact hpending e hd
    · exact hg.pending d' e hd
  · rcases hcases d' with h | h <;> rw [h] at hd
    · exact hclearing e found hd
    · exact hg.clearing d' e found hd
  · rcases hcases d' with h | h <;> rw [h] at hd
    · exact hraised e hd
    · exact hg.raised d' e hd
  · rcases hcases d' with h | h <;> rw [h] at hd
    · exact hdone e hd key
    · exact hg.tornDown d' e hd key

theorem gated_step (hgate : HoldsGate s a) (hg : Gated s) (h : Step site s a t) : Gated t := by
  have hstep := h
  cases h with
  | cacheLazy hnone =>
    refine hg.of_teardowns hstep hgate rfl (install_cached s) fun d e hd => ?_
    cases hnone.symm.trans (hg.pending d e hd)
  | insertConnected hc => exact hg.of_evicted hstep hgate rfl (install_cached s) hgate
  | removeCluster => exact hg.of_evicted hstep hgate rfl (by simp) hgate
  | removeClusterIfSame hc => exact hg.of_evicted hstep hgate rfl (by simp) hgate
  | teardownAbsent hd hc =>
    exact hg.setTeardown _ (by simp [Teardown.pending]) (by simp) (by simp [Teardown.raised]) (by simp)
  | teardownResolve hd hc =>
    refine hg.setTeardown _ (fun e he => ?_) (by simp) (by simp [Teardown.raised]) (by simp)
    cases he
    exact hc
  | @teardownFlag d e hd =>
    have hcached : s.cached = some e := hg.pending d e (by rw [hd]; rfl)
    refine (hg.setUnavailable e).setTeardown d (fun e' he => ?_) (by simp) (fun e' he => ?_) (by simp)
    · cases he
      exact hcached
    · cases he
      refine ⟨hg.cached e hcached, ?_⟩
      rw [unavailable_setUnavailable, decide_eq_true rfl, Bool.true_or]
  | @teardownMissed d e hd hc =>
    cases hc.symm.trans (hg.pending d e (by rw [hd]; rfl))
  | @teardownLookup d e found hd hc =>
    have hcached : s.cached = some e := hg.pending d e (by rw [hd]; rfl)
    refine hg.setTeardown d (by simp [Teardown.pending]) (fun e' found' he => ?_) (fun e' he => ?_)
      (by simp)
    · cases he
      exact Option.some.inj (hc.symm.trans hcached)
    · cases he
      exact hg.raised d e (by rw [hd]; rfl)
  | @teardownClear d e found hd =>
    have hdrop : Step site s (.dropEntryWatchers found) (dropEntryWatchers s found) :=
      .dropEntryWatchers found
    have hraised := hg.raised d e (by rw [hd]; rfl)
    obtain rfl : found = e := hg.clearing d e found hd
    refine (hg.of_frame hdrop trivial rfl rfl rfl).setTeardown d (by simp [Teardown.pending]) (by simp)
      (fun e' he => ?_) (fun e' he key => ?_)
    · cases he
      exact step_unavailable hdrop hraised.1 hraised.2
    · cases he
      rw [World.watcherAt, slot_dropEntryWatchers, if_pos rfl]
      rfl
  | _ => exact hg.of_frame hstep hgate rfl rfl rfl

theorem gated_init : Gated init where
  cached e he := by cases he
  pending d e hd := by cases hd
  clearing d e found hd := by cases hd
  raised d e hd := by cases hd
  tornDown d e hd := by cases hd

theorem reaches_gated {as : List Action} (hgate : Meets (step site) HoldsGate init as)
    (h : Reaches site as s) : Gated s := by
  have hkeep : ∀ s a t, HoldsGate s a → Gated s → step site s a = some t → Gated t :=
    fun _ _ _ ha hg hstep => gated_step ha hg (step_inv hstep)
  exact run_invariant_meets hkeep hgate gated_init h

theorem setTeardown_done {d d' e : ℕ} {x : Teardown} (hd : s.teardowns d = .done e)
    (hne : s.teardowns d' ≠ .done e) : (s.setTeardown d' x).teardowns d = .done e := by
  have hdd : d ≠ d' := by
    rintro rfl
    exact hne hd
  exact (Function.update_of_ne hdd ..).trans hd

/-- A teardown that is done stays done. -/
theorem done_step {d e : ℕ} (hd : s.teardowns d = .done e) (h : Step site s a t) :
    t.teardowns d = .done e := by
  cases h with
  | teardownAbsent hd' hc => exact setTeardown_done hd (by simp [hd'])
  | teardownResolve hd' hc => exact setTeardown_done hd (by simp [hd'])
  | @teardownFlag d' e' hd' =>
    exact setTeardown_done (s := s.setUnavailable e') hd (by simp [World.setUnavailable, hd'])
  | teardownMissed hd' hc => exact setTeardown_done hd (by simp [hd'])
  | teardownLookup hd' hc => exact setTeardown_done hd (by simp [hd'])
  | @teardownClear d' e' found hd' =>
    exact setTeardown_done (s := dropEntryWatchers s found) hd
      (by simp [dropEntryWatchers, World.setKinds, hd'])
  | _ => exact hd

/-- In every run whose subscribes hold the gate, an entry that was torn down has no running
watcher, neither at the end of the teardown nor later. -/
theorem teardown_final (site : Site) (as bs : List Action) (s t : World) (hs : Reaches site as s)
    (ht : run (step site) s bs = some t) (hgate : Meets (step site) HoldsGate init (as ++ bs)) :
    ∀ d e, s.teardowns d = .done e → ∀ key, t.watcherAt e key = none := by
  intro d e hd
  have hgated : Gated t := reaches_gated hgate (run_append_eq_some.mpr ⟨s, hs, ht⟩)
  have hkeep : ∀ u a v, u.teardowns d = .done e → step site u a = some v → v.teardowns d = .done e :=
    fun _ _ _ hu hstep => done_step hu (step_inv hstep)
  exact hgated.tornDown d e (run_invariant hkeep hd ht)

/-- A subscriber that was let through, and the teardown of the entry it subscribes to. -/
def letThrough : List Action := [.cacheLazy, .resolve 0 "pods" none, .checkFlag 0]

def teardown : List Action :=
  [.teardownResolve 0, .teardownFlag 0, .teardownLookup 0, .teardownClear 0]

/-- The gate holds where the subscriber gets the lock before the teardown. -/
theorem teardown_final_pods :
    (after podSite (letThrough ++ .subscribe 0 :: teardown)).teardowns 0 = .done 0 ∧
    ∀ key, (after podSite ((letThrough ++ .subscribe 0 :: teardown) ++
      [.resolve 1 "pods" none, .checkFlag 1])).watcherAt 0 key = none := by
  have hdone : (after podSite (letThrough ++ .subscribe 0 :: teardown)).teardowns 0 = .done 0 := by decide
  have hgate : Meets (step podSite) HoldsGate init ((letThrough ++ .subscribe 0 :: teardown) ++
      [.resolve 1 "pods" none, .checkFlag 1]) := by
    rw [List.append_assoc]
    refine meets_append.mpr ⟨meets_of_forall (by simp [letThrough, HoldsGate]) _, fun u hu => ?_⟩
    obtain rfl := after_eq hu
    refine ⟨fun e kind namespaces scope hcall => ?_, fun v _ => meets_of_forall (by
      simp [teardown, HoldsGate]) v⟩
    have hadmitted : (after podSite letThrough).calls 0 = .admitted 0 "pods" none .all := by decide
    cases hadmitted.symm.trans hcall
    decide
  have hrun : Reaches podSite ((letThrough ++ .subscribe 0 :: teardown) ++
      [.resolve 1 "pods" none, .checkFlag 1]) _ := reaches_after (by decide)
  obtain ⟨u, hu, hlast⟩ := run_append_eq_some.mp hrun
  obtain rfl := after_eq hu
  exact ⟨hdone, teardown_final podSite _ _ _ _ hu hlast hgate 0 0 hdone⟩

/-- The subscriber that gets the lock after the teardown starts a watcher on the dead entry. -/
theorem late_subscribe_revives :
    Reaches podSite (letThrough ++ teardown) (after podSite (letThrough ++ teardown)) ∧
    (after podSite (letThrough ++ teardown)).teardowns 0 = .done 0 ∧
    Reaches podSite (letThrough ++ teardown ++ [.subscribe 0])
      (after podSite (letThrough ++ teardown ++ [.subscribe 0])) ∧
    (after podSite (letThrough ++ teardown ++ [.subscribe 0])).watcherAt 0 ("pods", .all) = some 0 ∧
    ¬ TornDown (after podSite (letThrough ++ teardown ++ [.subscribe 0])) :=
  ⟨reaches_after (by decide), by decide, reaches_after (by decide), by decide,
    fun h => absurd (h 0 0 (by decide) ("pods", .all)) (by decide)⟩

end FerrisScope.KindSlots
