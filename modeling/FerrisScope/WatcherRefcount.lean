import FerrisScope.KindSlots

/-!
# Subscriber counts and the watchers they keep running

The count of a slot is a plain number, so it stands for the subscribers of the slot's watcher
only as long as nobody else lowers it. As an invariant, the count is at least the number of
subscribers that got the slot's watcher and have not unsubscribed. An unsubscribe keeps it
when the slot it finds holds the watcher its own subscribe got.
-/

namespace FerrisScope.KindSlots
open LabelledRuns

/-- Some slot holds the watcher, which runs until it is let go. -/
def Running (s : World) (w : ℕ) : Prop := ∃ e key, s.watcherAt e key = some w

/-- No two running watchers were started for the same entry, kind and scope. -/
def AtMostOneRunning (s : World) : Prop :=
  ∀ w w' e key, Running s w → Running s w' → s.watchers w = some (e, key) →
    s.watchers w' = some (e, key) → w = w'

/-- The actions of an unsubscribe call and of its linger task. -/
def Action.isRelease : Action → Bool
  | .leave _ | .unsubscribe _ | .linger _ | .reap _ => true
  | _ => false

/-- No unsubscribe and no linger task stops a watcher that has a subscriber left. -/
def KeepsWatched (site : Site) (s : World) : Prop :=
  ∀ a t, a.isRelease = true → step site s a = some t →
    ∀ e key w c, s.watcherAt e key = some w → (s.calls c).watcher? = some w →
      t.watcherAt e key = some w

/-- An unsubscribe that finds a slot finds the watcher its own subscribe got. -/
def FindsOwn (site : Site) (s : World) : Action → Prop
  | .unsubscribe c => ∀ found sub slot, s.calls c = .leaving found sub →
      s.slot found (unsubscribeKey site sub) = some slot → slot.watcher = some sub.watcher
  | _ => True

/-- Watchers stand where they were started, and subscribers only have started ones. -/
structure Placed (s : World) : Prop where
  slot : ∀ e key w, s.watcherAt e key = some w → s.watchers w = some (e, key)
  started : ∀ w, s.nextWatcher ≤ w → s.watchers w = none
  call : ∀ c w, (s.calls c).watcher? = some w → w < s.nextWatcher

/-- The count of a slot covers the subscribers of its watcher. -/
def Counted (s : World) : Prop :=
  ∀ e key slot w, s.slot e key = some slot → slot.watcher = some w →
    ∀ S : Finset ℕ, (∀ c ∈ S, (s.calls c).watcher? = some w) → S.card ≤ slot.subscribers

/-- A step that starts no watcher, adds no subscriber and changes no slot except by removal. -/
structure Shrinks (s t : World) : Prop where
  slots : ∀ e key slot, t.slot e key = some slot → s.slot e key = some slot
  watchers : t.watchers = s.watchers
  nextWatcher : t.nextWatcher = s.nextWatcher
  calls : ∀ c w, (t.calls c).watcher? = some w → (s.calls c).watcher? = some w

variable {site : Site} {s t : World} {a : Action}

theorem Shrinks.watcherAt (h : Shrinks s t) {e : ℕ} {key : SlotKey} {w : ℕ}
    (hw : t.watcherAt e key = some w) : s.watcherAt e key = some w := by
  obtain ⟨slot, hslot, hw⟩ := Option.bind_eq_some_iff.mp hw
  exact Option.bind_eq_some_iff.mpr ⟨slot, h.slots e key slot hslot, hw⟩

theorem Shrinks.placed (h : Shrinks s t) (hp : Placed s) : Placed t where
  slot e key w hw := h.watchers ▸ hp.slot e key w (h.watcherAt hw)
  started w hw := h.watchers ▸ hp.started w (h.nextWatcher ▸ hw)
  call c w hw := h.nextWatcher ▸ hp.call c w (h.calls c w hw)

theorem Shrinks.counted (h : Shrinks s t) (hc : Counted s) : Counted t := by
  intro e key slot w hslot hw S hS
  exact hc e key slot w (h.slots e key slot hslot) hw S fun c hcS => h.calls c w (hS c hcS)

theorem shrinks_of_slots (hslots : ∀ e key slot, t.slot e key = some slot → s.slot e key = some slot)
    (hwatchers : t.watchers = s.watchers) (hnext : t.nextWatcher = s.nextWatcher)
    (hcalls : t.calls = s.calls) : Shrinks s t :=
  ⟨hslots, hwatchers, hnext, fun c w h => by rwa [hcalls] at h⟩

theorem shrinks_setCall {c : ℕ} {x : Call}
    (hx : ∀ w, x.watcher? = some w → (s.calls c).watcher? = some w) : Shrinks s (s.setCall c x) := by
  refine ⟨fun _ _ _ h => h, rfl, rfl, fun c' w h => ?_⟩
  by_cases hc : c' = c
  · subst hc
    exact hx w (by simpa [World.setCall] using h)
  · simpa [World.setCall, hc] using h

theorem shrinks_dropEntryWatchers (s : World) (e : ℕ) : Shrinks s (dropEntryWatchers s e) := by
  refine shrinks_of_slots (fun e' key slot h => ?_) rfl rfl rfl
  rw [slot_dropEntryWatchers] at h
  split_ifs at h
  exact h

theorem shrinks_install (s : World) : Shrinks s s.install :=
  shrinks_of_slots (fun _ _ _ => slot_install) rfl rfl rfl

theorem shrinks_linger (s : World) (e : ℕ) (key : SlotKey) :
    Shrinks s (s.setKinds e (lingerSlot (s.entries e).kinds key)) := by
  refine shrinks_of_slots (fun e' key' slot h => ?_) rfl rfl rfl
  rw [slot_setKinds] at h
  split_ifs at h with he
  · exact he ▸ lookup_lingerSlot _ _ _ h
  · exact h

theorem shrinks_setUnavailable (s : World) (e : ℕ) : Shrinks s (s.setUnavailable e) :=
  shrinks_of_slots (fun e' key slot h => by rwa [slot_setUnavailable] at h) rfl rfl rfl

/-- Only the lock sections of subscribe and unsubscribe do more than remove. -/
theorem step_cases (h : Step site s a t) :
    Shrinks s t ∨
    (∃ c e kind namespaces scope, a = .subscribe c ∧ s.calls c = .admitted e kind namespaces scope ∧
      t = subscribeResource s c e kind namespaces scope) ∨
    ∃ c found sub, a = .unsubscribe c ∧ s.calls c = .leaving found sub ∧
      t = unsubscribeResource site s c found sub := by
  cases h with
  | cacheLazy hc => exact .inl (shrinks_install s)
  | insertConnected hc => exact .inl (shrinks_install s)
  | dropEntryWatchers e => exact .inl (shrinks_dropEntryWatchers s e)
  | resolve hc he => exact .inl (shrinks_setCall (by simp [Call.watcher?]))
  | checkFlag hc hx =>
    refine .inl (shrinks_setCall ?_)
    rcases hx with ⟨error, rfl⟩ | ⟨scope, rfl, -⟩
    · simp [Call.watcher?]
    · simp [Call.watcher?]
  | subscribe hc => exact .inr (.inl ⟨_, _, _, _, _, rfl, hc, rfl⟩)
  | leave hc hx =>
    refine .inl (shrinks_setCall ?_)
    rcases hx with rfl | ⟨found, -, rfl⟩
    · simp [Call.watcher?]
    · simp [Call.watcher?, hc]
  | unsubscribe hc => exact .inr (.inr ⟨_, _, _, rfl, hc, rfl⟩)
  | @linger t timer ht =>
    exact .inl (shrinks_of_slots (shrinks_linger s timer.entry timer.key).slots rfl rfl rfl)
  | @teardownFlag d e hd => exact .inl (shrinks_of_slots (shrinks_setUnavailable s e).slots rfl rfl rfl)
  | @teardownClear d e found hd =>
    exact .inl (shrinks_of_slots (shrinks_dropEntryWatchers s found).slots rfl rfl rfl)
  | _ => exact .inl (shrinks_of_slots (fun _ _ _ h => h) rfl rfl rfl)

section Subscribe

variable {c e : ℕ} {kind : String} {namespaces : Option (List String)} {scope : NsScope}

theorem watcherAt_subscribeResource (e' : ℕ) (key : SlotKey) :
    (subscribeResource s c e kind namespaces scope).watcherAt e' key =
      if e' = e ∧ key = (kind, scope) then some (subscribeWatcher s e (kind, scope))
      else s.watcherAt e' key := by
  rw [World.watcherAt, slot_subscribeResource]
  split_ifs <;> rfl

theorem watcher_subscribed_call (c' : ℕ) :
    ((subscribeResource s c e kind namespaces scope).calls c').watcher? =
      if c' = c then some (subscribeWatcher s e (kind, scope)) else (s.calls c').watcher? := by
  rw [calls_subscribeResource, Function.update_apply]
  split_ifs <;> rfl

/-- The watcher handed out is started where the subscriber asks for it, and the others are as
they were. -/
theorem started_subscribeResource (hp : Placed s) :
    s.nextWatcher ≤ (subscribeResource s c e kind namespaces scope).nextWatcher ∧
    (∀ w, (subscribeResource s c e kind namespaces scope).nextWatcher ≤ w →
      (subscribeResource s c e kind namespaces scope).watchers w = none) ∧
    (∀ w < s.nextWatcher, (subscribeResource s c e kind namespaces scope).watchers w = s.watchers w) ∧
    (subscribeResource s c e kind namespaces scope).watchers (subscribeWatcher s e (kind, scope)) =
      some (e, (kind, scope)) := by
  rcases watchers_subscribeResource s c e kind namespaces scope with
    ⟨hold, hwatchers, hnext⟩ | ⟨hfresh, hwatchers, hnext⟩
  · rw [hwatchers, hnext]
    exact ⟨le_rfl, hp.started, fun w _ => rfl, hp.slot e (kind, scope) _ hold⟩
  · rw [hwatchers, hnext, hfresh, Function.update_self]
    refine ⟨Nat.le_succ _, fun w hw => ?_, fun w hw => Function.update_of_ne hw.ne .., rfl⟩
    have hlt : s.nextWatcher < w := by omega
    rw [Function.update_of_ne hlt.ne']
    exact hp.started w hlt.le

theorem placed_subscribeResource (hp : Placed s) :
    Placed (subscribeResource s c e kind namespaces scope) := by
  obtain ⟨hnext, hstarted, hkeep, hown⟩ := started_subscribeResource (s := s) (c := c) (e := e) hp
  have hlt : ∀ e key w, s.watcherAt e key = some w → w < s.nextWatcher := by
    intro e key w hw
    by_contra hge
    cases (hp.slot e key w hw).symm.trans (hp.started w (not_lt.mp hge))
  refine ⟨fun e' key w hw => ?_, hstarted, fun c' w hw => ?_⟩
  · rw [watcherAt_subscribeResource] at hw
    split_ifs at hw with hk
    · obtain ⟨rfl, rfl⟩ := hk
      cases hw
      exact hown
    · rw [hkeep w (hlt e' key w hw)]
      exact hp.slot e' key w hw
  · rw [watcher_subscribed_call] at hw
    split_ifs at hw
    · cases hw
      by_contra hge
      cases hown.symm.trans (hstarted _ (not_lt.mp hge))
    · exact (hp.call c' w hw).trans_le hnext

/-- The count of the slot covers the earlier subscribers of the watcher it hands out. -/
theorem count_before_subscribe (hp : Placed s) (hc : Counted s) (S : Finset ℕ)
    (hS : ∀ c ∈ S, (s.calls c).watcher? = some (subscribeWatcher s e (kind, scope))) :
    S.card ≤ ((s.slot e (kind, scope)).getD .empty).subscribers := by
  cases hw : ((s.slot e (kind, scope)).getD .empty).watcher with
  | none =>
    have hempty : S = ∅ := by
      refine Finset.eq_empty_of_forall_notMem fun c hmem => ?_
      have hlt := hp.call c _ (hS c hmem)
      rw [subscribeWatcher, hw] at hlt
      exact lt_irrefl _ hlt
    rw [hempty, Finset.card_empty]
    exact Nat.zero_le _
  | some w =>
    rw [subscribeWatcher, hw, Option.getD_some] at hS
    cases hslot : s.slot e (kind, scope) with
    | none => simp [hslot, KindSlot.empty] at hw
    | some slot =>
      rw [hslot, Option.getD_some] at hw
      exact hc e (kind, scope) slot w hslot hw S hS

theorem counted_subscribeResource (hp : Placed s) (hc : Counted s) :
    Counted (subscribeResource s c e kind namespaces scope) := by
  have hp' : Placed (subscribeResource s c e kind namespaces scope) := placed_subscribeResource hp
  intro e' key slot w hslot hw S hS
  have hother : ∀ c' ∈ S.erase c, (s.calls c').watcher? = some w := by
    intro c' hc'
    obtain ⟨hne, hmem⟩ := Finset.mem_erase.mp hc'
    have h := hS c' hmem
    rwa [watcher_subscribed_call, if_neg hne] at h
  have hslot' := hslot
  rw [slot_subscribeResource] at hslot'
  split_ifs at hslot' with hk
  · cases hslot'
    cases hw
    have hcard := Finset.pred_card_le_card_erase (s := S) (a := c)
    have hbefore := count_before_subscribe hp hc (S.erase c) hother
    simp only
    omega
  · have hne : c ∉ S := by
      intro hmem
      have h := hS c hmem
      rw [watcher_subscribed_call, if_pos rfl] at h
      have hown := hp'.slot e (kind, scope) w
        (by rw [watcherAt_subscribeResource, if_pos ⟨rfl, rfl⟩, h])
      have hthis := hp'.slot e' key w (Option.bind_eq_some_iff.mpr ⟨slot, hslot, hw⟩)
      cases hown.symm.trans hthis
      exact hk ⟨rfl, rfl⟩
    rw [← Finset.erase_eq_of_notMem hne]
    exact hc e' key slot w hslot' hw _ hother

end Subscribe

section Unsubscribe

variable {c found : ℕ} {sub : Subscription}

theorem watcherAt_unsubscribeResource (e : ℕ) (key : SlotKey) :
    (unsubscribeResource site s c found sub).watcherAt e key = s.watcherAt e key := by
  rw [World.watcherAt, slot_unsubscribeResource]
  split_ifs with he
  · rw [watcher_unsubscribeSlot, he]
    rfl
  · rfl

theorem watcher_unsubscribed_call (c' : ℕ) :
    ((unsubscribeResource site s c found sub).calls c').watcher? =
      if c' = c then none else (s.calls c').watcher? := by
  have h : (unsubscribeResource site s c found sub).calls = Function.update s.calls c .gone := rfl
  rw [h, Function.update_apply]
  split_ifs <;> rfl

theorem placed_unsubscribeResource (hp : Placed s) :
    Placed (unsubscribeResource site s c found sub) where
  slot e key w hw := hp.slot e key w (by rwa [watcherAt_unsubscribeResource] at hw)
  started := hp.started
  call c' w hw := by
    rw [watcher_unsubscribed_call] at hw
    split_ifs at hw
    exact hp.call c' w hw

/-- Lowering the count is right for a subscriber of the slot's own watcher. -/
theorem counted_unsubscribeResource (hc : Counted s) (hcall : s.calls c = .leaving found sub)
    (hown : FindsOwn site s (.unsubscribe c)) :
    Counted (unsubscribeResource site s c found sub) := by
  intro e key slot w hslot hw S hS
  have hnot : c ∉ S := by
    intro hmem
    have h := hS c hmem
    rw [watcher_unsubscribed_call, if_pos rfl] at h
    cases h
  have hbefore : ∀ c' ∈ S, (s.calls c').watcher? = some w := by
    intro c' hmem
    have h := hS c' hmem
    rwa [watcher_unsubscribed_call, if_neg (ne_of_mem_of_not_mem hmem hnot)] at h
  rw [slot_unsubscribeResource] at hslot
  split_ifs at hslot with he
  · subst he
    obtain ⟨old, hold, hwatcher, hcount⟩ := lookup_unsubscribeSlot _ _ _ _ hslot
    rw [hwatcher] at hw
    rw [hcount]
    split_ifs with hk
    · subst hk
      have hsub : sub.watcher = w := Option.some.inj ((hown _ sub old hcall hold).symm.trans hw)
      have hwith := hc _ _ old w hold hw (insert c S) fun c' hmem => by
        rcases Finset.mem_insert.mp hmem with rfl | hmem
        · rw [hcall, ← hsub]
          rfl
        · exact hbefore c' hmem
      rw [Finset.card_insert_of_notMem hnot] at hwith
      omega
    · exact hc _ key old w hold hw S hbefore
  · exact hc e key slot w hslot hw S hbefore

end Unsubscribe

theorem placed_step (hp : Placed s) (h : Step site s a t) : Placed t := by
  rcases step_cases h with h | ⟨c, e, kind, namespaces, scope, -, -, rfl⟩ | ⟨c, found, sub, -, -, rfl⟩
  · exact h.placed hp
  · exact placed_subscribeResource hp
  · exact placed_unsubscribeResource hp

theorem counted_step (hown : FindsOwn site s a) (hp : Placed s) (hc : Counted s)
    (h : Step site s a t) : Counted t := by
  rcases step_cases h with h | ⟨c, e, kind, namespaces, scope, -, -, rfl⟩ |
    ⟨c, found, sub, rfl, hcall, rfl⟩
  · exact h.counted hc
  · exact counted_subscribeResource hp hc
  · exact counted_unsubscribeResource hc hcall hown

theorem placed_init : Placed init where
  slot e key w hw := by simp [World.watcherAt, World.slot, init, ClusterEntry.new] at hw
  started _ _ := rfl
  call c w hw := by simp [init, Call.watcher?] at hw

theorem counted_init : Counted init := by
  intro e key slot w hslot
  simp [World.slot, init, ClusterEntry.new] at hslot

theorem reaches_placed {as : List Action} (h : Reaches site as s) : Placed s :=
  run_invariant (fun _ _ _ hp hstep => placed_step hp (step_inv hstep)) placed_init h

theorem reaches_counted {as : List Action} (hown : Meets (step site) (FindsOwn site) init as)
    (h : Reaches site as s) : Counted s := by
  have hkeep : ∀ s a t, FindsOwn site s a → Placed s ∧ Counted s → step site s a = some t →
      Placed t ∧ Counted t := by
    rintro s a t hown ⟨hp, hc⟩ hstep
    exact ⟨placed_step hp (step_inv hstep), counted_step hown hp hc (step_inv hstep)⟩
  exact (run_invariant_meets hkeep hown ⟨placed_init, counted_init⟩ h).2

/-- Slots hold at most one watcher, and a watcher stands in no other slot. -/
theorem Placed.atMostOneRunning (hp : Placed s) : AtMostOneRunning s := by
  rintro w w' e key ⟨e₁, key₁, h₁⟩ ⟨e₂, key₂, h₂⟩ hw hw'
  cases (hp.slot e₁ key₁ w h₁).symm.trans hw
  cases (hp.slot e₂ key₂ w' h₂).symm.trans hw'
  exact Option.some.inj (h₁.symm.trans h₂)

theorem Counted.keepsWatched (hc : Counted s) : KeepsWatched site s := by
  intro a t ha hstep e key w c hw hcall
  cases step_inv hstep with
  | kept _ => exact hw
  | leave _ _ => exact hw
  | unsubscribe _ => rwa [watcherAt_unsubscribeResource]
  | @linger t timer ht =>
    obtain ⟨slot, hslot, hwatcher⟩ := Option.bind_eq_some_iff.mp hw
    have hpos : 0 < slot.subscribers :=
      hc e key slot w hslot hwatcher {c} (by simpa using hcall)
    have hkeep : (s.setKinds timer.entry
        (lingerSlot (s.entries timer.entry).kinds timer.key)).slot e key = some slot := by
      rw [slot_setKinds]
      split_ifs with he
      · exact lingerSlot_keeps _ _ _ (he ▸ hslot) hpos
      · exact hslot
    exact Option.bind_eq_some_iff.mpr ⟨slot, hkeep, hwatcher⟩
  | reap _ _ => exact hw
  | _ => cases ha

/-- In every run there is at most one running watcher for each entry, kind and scope, and as
long as every unsubscribe finds its own watcher, none that has a subscriber is stopped by an
unsubscribe or a linger task. -/
theorem watchers_refcounted (site : Site) (as : List Action) (s : World) (h : Reaches site as s) :
    AtMostOneRunning s ∧ (Meets (step site) (FindsOwn site) init as → KeepsWatched site s) :=
  ⟨(reaches_placed h).atMostOneRunning, fun hown => (reaches_counted hown h).keepsWatched⟩

/-- A cluster whose registry knows pods. -/
def podSite : Site where
  clusterId := "a"
  lookup kind := if kind = "pods" then some true else none

/-- Two subscribers, of which the first is about to unsubscribe. -/
def twoSubscribed : List Action :=
  [.cacheLazy, .resolve 0 "pods" none, .checkFlag 0, .subscribe 0, .resolve 1 "pods" none,
    .checkFlag 1, .subscribe 1, .leave 0]

/-- The condition is met where the first of two subscribers of a watcher leaves. -/
theorem watchers_refcounted_two :
    Reaches podSite (twoSubscribed ++ [.unsubscribe 0])
      (after podSite (twoSubscribed ++ [.unsubscribe 0])) ∧
    AtMostOneRunning (after podSite (twoSubscribed ++ [.unsubscribe 0])) ∧
    KeepsWatched podSite (after podSite (twoSubscribed ++ [.unsubscribe 0])) := by
  have hcall : (after podSite twoSubscribed).calls 0 = .leaving 0 ⟨0, "pods", none, 0⟩ := by decide
  have hslot : (after podSite twoSubscribed).slot 0 ("pods", .all) = some ⟨some 0, 2, none⟩ := by
    decide
  have hmeets : Meets (step podSite) (FindsOwn podSite) init (twoSubscribed ++ [.unsubscribe 0]) := by
    refine meets_append.mpr ⟨meets_of_forall (by simp [twoSubscribed, FindsOwn]) _, ?_⟩
    intro u hu
    obtain rfl := after_eq hu
    refine ⟨fun found sub slot hcall' hslot' => ?_, fun _ _ => trivial⟩
    cases hcall.symm.trans hcall'
    cases hslot.symm.trans hslot'
    rfl
  have hrun : Reaches podSite (twoSubscribed ++ [.unsubscribe 0])
      (after podSite (twoSubscribed ++ [.unsubscribe 0])) := reaches_after (by decide)
  have h := watchers_refcounted podSite _ _ hrun
  exact ⟨hrun, h.1, h.2 hmeets⟩

/-- A subscribe, an eviction and a reconnect, a second subscribe, and only then the
unsubscribe of the first subscriber. -/
def staleUnsubscribe : List Action :=
  [.cacheLazy, .resolve 0 "pods" none, .checkFlag 0, .subscribe 0, .dropEntryWatchers 0,
    .removeCluster, .insertConnected, .resolve 1 "pods" none, .checkFlag 1, .subscribe 1,
    .leave 0, .unsubscribe 0]

/-- The late unsubscribe lowers the count of the second subscriber's slot, and the linger task
it arms stops the watcher under the second subscriber. -/
theorem stale_unsubscribe_stops_watcher :
    Reaches podSite staleUnsubscribe (after podSite staleUnsubscribe) ∧
    ((after podSite staleUnsubscribe).timers 0).map (·.aborted) = some false ∧
    ¬ KeepsWatched podSite (after podSite staleUnsubscribe) := by
  have hstep : step podSite (after podSite staleUnsubscribe) (.linger 0) =
      some (after podSite (staleUnsubscribe ++ [.linger 0])) := by
    have hrun : Reaches podSite (staleUnsubscribe ++ [.linger 0]) _ := reaches_after (by decide)
    obtain ⟨u, hu, hlast⟩ := run_append_eq_some.mp hrun
    obtain rfl := after_eq hu
    obtain ⟨v, hv, hnil⟩ := run_cons_eq_some.mp hlast
    cases hnil
    exact hv
  refine ⟨reaches_after (by decide), by decide, fun hkeep => ?_⟩
  have h := hkeep (.linger 0) _ rfl hstep 1 ("pods", .all) 1 1 (by decide) (by decide)
  exact absurd h (by decide)

end FerrisScope.KindSlots
