import FerrisScope.ObservedPods

/-!
# When the panel shows the union of its pods

The map of a panel should hold the pods of its live watches and the resolved pods of the targets
that no watch serves. The prune and the removals spare those only under a condition on the state
they meet; so does a watch that fails. Under it every run leads to the union.
-/

namespace FerrisScope.ObservedPods
open LogPodWatch LabelledRuns

variable {b : Backend} {reqs : List ObserveTarget} {p p' : Panel} {ws all : List Watch} {w w' : Watch}
  {t : ObserveTarget} {pod q : ObservedPod} {k : MapKey} {m : PodMap}

section Maps

theorem mem_setPod : q ∈ setPod m pod ↔ q = pod ∨ (q ∈ m ∧ q.key ≠ pod.key) := by
  unfold setPod
  split_ifs with hany
  · obtain ⟨r, hr, hkey⟩ : ∃ r ∈ m, r.key = pod.key := by simpa using hany
    rw [List.mem_map]
    constructor
    · rintro ⟨x, hx, rfl⟩
      split_ifs with hk
      · exact .inl rfl
      · exact .inr ⟨hx, hk⟩
    · rintro (rfl | ⟨hq, hk⟩)
      · exact ⟨r, hr, if_pos hkey⟩
      · exact ⟨q, hq, if_neg hk⟩
  · have hne : ∀ r ∈ m, r.key ≠ pod.key := by simpa using hany
    rw [List.mem_append, List.mem_singleton]
    constructor
    · rintro (hq | rfl)
      · exact .inr ⟨hq, hne q hq⟩
      · exact .inl rfl
    · rintro (rfl | ⟨hq, -⟩)
      · exact .inr rfl
      · exact .inl hq

theorem mem_deletePod : q ∈ deletePod m k ↔ q ∈ m ∧ q.key ≠ k := by
  simp [deletePod]

/-- The map has a pod of the key. -/
def Has (m : PodMap) (k : MapKey) : Prop := ∃ q ∈ m, q.key = k

theorem has_setPod : Has (setPod m pod) k ↔ k = pod.key ∨ Has m k := by
  simp only [Has, mem_setPod]
  constructor
  · rintro ⟨q, rfl | ⟨hq, -⟩, rfl⟩
    · exact .inl rfl
    · exact .inr ⟨q, hq, rfl⟩
  · rintro (rfl | ⟨q, hq, rfl⟩)
    · exact ⟨pod, .inl rfl, rfl⟩
    · by_cases hk : q.key = pod.key
      · exact ⟨pod, .inl rfl, hk.symm⟩
      · exact ⟨q, .inr ⟨hq, hk⟩, rfl⟩

theorem mem_foldl_setPod (pods : List ObservedPod) : q ∈ pods.foldl setPod m → q ∈ pods ∨ q ∈ m := by
  induction pods generalizing m with
  | nil => exact .inr
  | cons pod pods ih =>
    intro hq
    rcases ih hq with hq | hq
    · exact .inl (List.mem_cons_of_mem _ hq)
    · rcases mem_setPod.mp hq with rfl | ⟨hq, -⟩
      · exact .inl List.mem_cons_self
      · exact .inr hq

theorem has_foldl_setPod (pods : List ObservedPod) :
    Has (pods.foldl setPod m) k ↔ (∃ pod ∈ pods, pod.key = k) ∨ Has m k := by
  induction pods generalizing m with
  | nil => simp
  | cons pod pods ih =>
    rw [List.foldl_cons, ih, has_setPod, List.exists_mem_cons_iff, eq_comm (a := k), ← or_assoc,
      or_comm (b := pod.key = k)]

end Maps

/-- No live watch serves the target. -/
def UnwatchedBy (ws : List Watch) (t : ObserveTarget) : Prop := ∀ w ∈ ws, w.Live → w.target.key ≠ t.key

/-- A live watch holds the pod, or it was resolved for a target that no watch serves. -/
def Given (b : Backend) (reqs : List ObserveTarget) (ws : List Watch) (pod : ObservedPod) : Prop :=
  (∃ w ∈ ws, w.Live ∧ pod ∈ w.own) ∨ ∃ t ∈ reqs, UnwatchedBy ws t ∧ pod ∈ resolvedPods b reqs t

/-- The map is the union of the pods given. -/
def ShowsUnion (b : Backend) (p : Panel) : Prop :=
  (∀ pod ∈ p.podMap, Given b p.reqs p.watches pod) ∧
    ∀ pod, Given b p.reqs p.watches pod → Has p.podMap pod.key

/-- Every live watch has delivered its `init_done`. -/
def Quiet (p : Panel) : Prop := ∀ w ∈ p.watches, w.Live → w.isDone = true

/-- The pod was resolved for the target, or one of the target's watches has held it last. -/
def Held (b : Backend) (reqs : List ObserveTarget) (all : List Watch) (t : ObserveTarget) (pod : ObservedPod) :
    Prop :=
  (∃ t' ∈ reqs, t'.key = t.key ∧ pod ∈ resolvedPods b reqs t') ∨
    ∃ w ∈ all, w.target.key = t.key ∧ pod ∈ w.own

/-- A live watch that may still announce the pod, or prune it. -/
def Awaited (b : Backend) (reqs : List ObserveTarget) (all ws : List Watch) (pod : ObservedPod) : Prop :=
  ∃ w ∈ ws, w.Live ∧ w.isDone = false ∧ Held b reqs all w.target pod

/-- What a step has to spare. A prune: the resolved pods of targets without a watch; and what it
leaves of its own target's pods is given, or awaited by another watch. A removal: the pods of the
key that others give. A failing watch: its target's resolved pods are shown, and what is shown of
its target's pods is given or awaited without it. -/
def Spares (b : Backend) (p : Panel) : Action → Prop
  | .event i .initDone => ∀ w, p.watches[i]? = some w →
      (∀ t ∈ p.reqs, UnwatchedBy p.watches t → ∀ pod ∈ resolvedPods b p.reqs t,
        isStray w.target.clusterId w.target.ns p.confirmed pod = false) ∧
      ∀ pod ∈ p.podMap, isStray w.target.clusterId w.target.ns p.confirmed pod = false →
        Held b p.reqs p.watches w.target pod →
          Given b p.reqs p.watches pod ∨ Awaited b p.reqs p.watches (p.watches.eraseIdx i) pod
  | .event i (.removed ns name) => ∀ w, p.watches[i]? = some w →
      (∀ w' ∈ p.watches.eraseIdx i, w'.Live → ∀ pod ∈ w'.own, pod.key ≠ podKey w.target.clusterId ns name) ∧
      ∀ t ∈ p.reqs, UnwatchedBy p.watches t → ∀ pod ∈ resolvedPods b p.reqs t,
        pod.key ≠ podKey w.target.clusterId ns name
  | .failed i => ∀ w, p.watches[i]? = some w →
      (∀ t ∈ p.reqs, t.key = w.target.key → UnwatchedBy (p.watches.eraseIdx i) t →
        ∀ pod ∈ resolvedPods b p.reqs t, Has p.podMap pod.key) ∧
      ∀ pod ∈ p.podMap, Held b p.reqs p.watches w.target pod →
        Given b p.reqs (p.watches.eraseIdx i) pod ∨ Awaited b p.reqs p.watches (p.watches.eraseIdx i) pod
  | _ => True

instance : Decidable (Has m k) := inferInstanceAs (Decidable (∃ q ∈ m, q.key = k))

instance : Decidable (UnwatchedBy ws t) :=
  inferInstanceAs (Decidable (∀ w ∈ ws, w.Live → w.target.key ≠ t.key))

instance : Decidable (Given b reqs ws pod) :=
  inferInstanceAs (Decidable ((∃ w ∈ ws, w.Live ∧ pod ∈ w.own) ∨
    ∃ t ∈ reqs, UnwatchedBy ws t ∧ pod ∈ resolvedPods b reqs t))

instance : Decidable (Held b reqs all t pod) :=
  inferInstanceAs (Decidable ((∃ t' ∈ reqs, t'.key = t.key ∧ pod ∈ resolvedPods b reqs t') ∨
    ∃ w ∈ all, w.target.key = t.key ∧ pod ∈ w.own))

instance : Decidable (Awaited b reqs all ws pod) :=
  inferInstanceAs (Decidable (∃ w ∈ ws, w.Live ∧ w.isDone = false ∧ Held b reqs all w.target pod))

instance : Decidable (Quiet p) := inferInstanceAs (Decidable (∀ w ∈ p.watches, w.Live → w.isDone = true))

instance decidableSpares (b : Backend) (p : Panel) : (a : Action) → Decidable (Spares b p a)
  | .event i .initDone => inferInstanceAs (Decidable (∀ w, p.watches[i]? = some w → _ ∧ _))
  | .event i (.removed _ _) => inferInstanceAs (Decidable (∀ w, p.watches[i]? = some w → _ ∧ _))
  | .failed i => inferInstanceAs (Decidable (∀ w, p.watches[i]? = some w → _ ∧ _))
  | .event _ (.added _) | .opened _ | .rearm _ => isTrue trivial

/-- What holds between the steps. -/
structure Inv (b : Backend) (p : Panel) : Prop where
  announced : ∀ w ∈ p.watches, w.Live → ∀ pod ∈ w.own, pod.key ∈ p.confirmed
  shown : ∀ k ∈ p.confirmed, Has p.podMap k
  resolved : ∀ t ∈ p.reqs, UnwatchedBy p.watches t → ∀ pod ∈ resolvedPods b p.reqs t, Has p.podMap pod.key
  accounted : ∀ pod ∈ p.podMap,
    Given b p.reqs p.watches pod ∨ Awaited b p.reqs p.watches p.watches pod
  targets : ∀ w ∈ p.watches, w.target ∈ p.armed

/-- Quiet states under the invariant show the union. -/
theorem Inv.showsUnion (h : Inv b p) (hquiet : Quiet p) : ShowsUnion b p := by
  refine ⟨fun pod hpod => (h.accounted pod hpod).resolve_right ?_, fun pod hgiven => ?_⟩
  · rintro ⟨w, hw, hlive, hdone, -⟩
    rw [hquiet w hw hlive] at hdone
    cases hdone
  · rcases hgiven with ⟨w, hw, hlive, hpod⟩ | ⟨t, ht, hunwatched, hpod⟩
    · exact h.shown _ (h.announced w hw hlive pod hpod)
    · exact h.resolved t ht hunwatched pod hpod

section Start

theorem mem_seeds_iff : (∃ t ∈ reqs, pod ∈ resolvedPods b reqs t) ↔
    pod ∈ (clustersOf reqs).flatMap fun c =>
      (reqs.filter fun t => t.clusterId = c).flatMap (resolvedPods b reqs) := by
  simp only [clustersOf, List.mem_flatMap, List.mem_eraseDups, List.mem_map, List.mem_filter, decide_eq_true_eq]
  constructor
  · rintro ⟨t, ht, hpod⟩
    exact ⟨t.clusterId, ⟨t, ht, rfl⟩, t, ⟨ht, rfl⟩, hpod⟩
  · rintro ⟨c, -, t, ⟨ht, -⟩, hpod⟩
    exact ⟨t, ht, hpod⟩

theorem inv_start (b : Backend) (targets : List ObserveTarget) : Inv b (Panel.start b targets) := by
  unfold Panel.start
  dsimp only
  generalize targets.take maxObserveTargets = reqs
  split_ifs with hfast herror
  · have hpods : ∀ t, resolvedPods b reqs t = [targetPod t] := fun t => by rw [resolvedPods, if_pos hfast]
    refine ⟨by simp, by simp, fun t ht _ pod hpod => ?_, fun pod hpod => ?_, by simp⟩
    · rw [hpods, List.mem_singleton] at hpod
      exact ⟨pod, hpod ▸ List.mem_map_of_mem ht, rfl⟩
    · obtain ⟨t, ht, rfl⟩ := List.mem_map.mp hpod
      exact .inl (.inr ⟨t, ht, by simp [UnwatchedBy], by rw [hpods]; exact List.mem_singleton_self _⟩)
  · obtain ⟨-, hnone⟩ := Bool.and_eq_true_iff.mp herror
    have hpods : ∀ t ∈ reqs, resolvedPods b reqs t = [] := by
      intro t ht
      have hcluster : t.clusterId ∈ clustersOf reqs := by
        rw [clustersOf, List.mem_eraseDups]
        exact List.mem_map_of_mem ht
      have hanswer := List.all_eq_true.mp hnone _ hcluster
      rw [resolvedPods, if_neg hfast, if_neg (by simpa using hanswer)]
    refine ⟨by simp, by simp, fun t ht _ pod hpod => ?_, by simp, by simp⟩
    rw [hpods t ht] at hpod
    simp at hpod
  · have hnew : ∀ w ∈ ((dedupeWatchTargets reqs).take maxPodWatches).map (Watch.new true),
        w.own = [] ∧ w.isDone = false ∧ w.target ∈ (dedupeWatchTargets reqs).take maxPodWatches := by
      intro w hw
      obtain ⟨t, ht, rfl⟩ := List.mem_map.mp hw
      exact ⟨rfl, rfl, ht⟩
    refine ⟨fun w hw _ pod hpod => ?_, by simp, fun t ht _ pod hpod => ?_, fun pod hpod => ?_,
      fun w hw => (hnew w hw).2.2⟩
    · rw [(hnew w hw).1] at hpod
      simp at hpod
    · exact (has_foldl_setPod _).mpr (.inl ⟨pod, mem_seeds_iff.mp ⟨t, ht, hpod⟩, rfl⟩)
    · rcases mem_foldl_setPod _ hpod with hpod | hpod
      · obtain ⟨t, ht, hpod⟩ := mem_seeds_iff.mpr hpod
        by_cases hun : UnwatchedBy (((dedupeWatchTargets reqs).take maxPodWatches).map (Watch.new true)) t
        · exact .inl (.inr ⟨t, ht, hun, hpod⟩)
        · simp only [UnwatchedBy, not_forall, not_not] at hun
          obtain ⟨w, hw, hlive, hkey⟩ := hun
          exact .inr ⟨w, hw, hlive, (hnew w hw).2.1, .inl ⟨t, ht, hkey.symm, hpod⟩⟩
      · simp at hpod

end Start

section Steps

theorem mem_iff_eraseIdx {l : List Watch} {i : ℕ} (h : l[i]? = some w) (x : Watch) :
    x ∈ l ↔ x = w ∨ x ∈ l.eraseIdx i := by
  obtain ⟨hi, rfl⟩ := List.getElem?_eq_some_iff.mp h
  exact ((List.getElem_cons_eraseIdx_perm hi).mem_iff).symm.trans List.mem_cons

theorem mem_set_iff_eraseIdx {l : List Watch} {i : ℕ} (h : l[i]? = some w) (w' x : Watch) :
    x ∈ l.set i w' ↔ x = w' ∨ x ∈ l.eraseIdx i := by
  obtain ⟨hi, -⟩ := List.getElem?_eq_some_iff.mp h
  have hset : (l.set i w')[i]? = some w' := by simp [hi]
  rw [mem_iff_eraseIdx hset, List.eraseIdx_set_eq]

/-- One watch is replaced by another of the same target, the others `os` stay. -/
structure Replaces (ws ws' : List Watch) (w w' : Watch) (os : List Watch) : Prop where
  before : ∀ x, x ∈ ws ↔ x = w ∨ x ∈ os
  after : ∀ x, x ∈ ws' ↔ x = w' ∨ x ∈ os
  target : w'.target = w.target

variable {ws' os : List Watch}

theorem replaces_set {i : ℕ} (h : ws[i]? = some w) (htarget : w'.target = w.target) :
    Replaces ws (ws.set i w') w w' (ws.eraseIdx i) :=
  ⟨mem_iff_eraseIdx h, mem_set_iff_eraseIdx h w', htarget⟩

theorem Replaces.unwatched (h : Replaces ws ws' w w' os) (hlive : w'.Live ↔ w.Live) :
    UnwatchedBy ws' t ↔ UnwatchedBy ws t := by
  simp only [UnwatchedBy, h.before, h.after, forall_eq_or_imp, hlive, h.target]

theorem Replaces.held (h : Replaces ws ws' w w' os) (hown : pod ∈ w.own → pod ∈ w'.own)
    (hheld : Held b reqs ws t pod) : Held b reqs ws' t pod := by
  refine hheld.imp_right ?_
  rintro ⟨x, hx, hkey, hpod⟩
  rcases (h.before x).mp hx with rfl | hx
  · exact ⟨w', (h.after _).mpr (.inl rfl), by rw [h.target, hkey], hown hpod⟩
  · exact ⟨x, (h.after x).mpr (.inr hx), hkey, hpod⟩

theorem Replaces.given (h : Replaces ws ws' w w' os) (hlive : w'.Live ↔ w.Live)
    (hown : pod ∈ w.own → pod ∈ w'.own) (hgiven : Given b reqs ws pod) : Given b reqs ws' pod := by
  rcases hgiven with ⟨x, hx, hx', hpod⟩ | ⟨t, ht, hun, hpod⟩
  · rcases (h.before x).mp hx with rfl | hx
    · exact .inl ⟨w', (h.after _).mpr (.inl rfl), hlive.mpr hx', hown hpod⟩
    · exact .inl ⟨x, (h.after x).mpr (.inr hx), hx', hpod⟩
  · exact .inr ⟨t, ht, (h.unwatched hlive).mpr hun, hpod⟩

/-- Others that await the pod still do. -/
theorem Replaces.awaited_others (h : Replaces ws ws' w w' os) (hown : pod ∈ w.own → pod ∈ w'.own)
    (haw : Awaited b reqs ws os pod) : Awaited b reqs ws' ws' pod := by
  obtain ⟨x, hx, hlive, hdone, hheld⟩ := haw
  exact ⟨x, (h.after x).mpr (.inr hx), hlive, hdone, h.held hown hheld⟩

theorem Replaces.awaited (h : Replaces ws ws' w w' os) (hlive : w'.Live ↔ w.Live)
    (hdone : w'.isDone = w.isDone) (hown : pod ∈ w.own → pod ∈ w'.own)
    (haw : Awaited b reqs ws ws pod) : Awaited b reqs ws' ws' pod := by
  obtain ⟨x, hx, hx', hxdone, hheld⟩ := haw
  rcases (h.before x).mp hx with rfl | hx
  · refine ⟨w', (h.after _).mpr (.inl rfl), hlive.mpr hx', hdone.trans hxdone, ?_⟩
    rw [h.target]
    exact h.held hown hheld
  · exact h.awaited_others hown ⟨x, hx, hx', hxdone, hheld⟩

theorem Replaces.targets (h : Replaces ws ws' w w' os) {armed : List ObserveTarget}
    (hws : ∀ x ∈ ws, x.target ∈ armed) : ∀ x ∈ ws', x.target ∈ armed := by
  intro x hx
  rcases (h.after x).mp hx with rfl | hx
  · exact h.target ▸ hws w ((h.before w).mpr (.inl rfl))
  · exact hws x ((h.before x).mpr (.inr hx))

theorem inv_opened {i : ℕ} (hinv : Inv b p) (hw : p.watches[i]? = some w) (hphase : w.phase = .opening) :
    Inv b { p with watches := p.watches.set i { w with phase := .running } } := by
  have hrep : Replaces p.watches (p.watches.set i { w with phase := .running }) w { w with phase := .running }
      (p.watches.eraseIdx i) := replaces_set hw rfl
  have hlive : ({ w with phase := .running } : Watch).Live ↔ w.Live := by simp [Watch.Live, hphase]
  refine ⟨fun x hx hx' pod hpod => ?_, hinv.shown, fun t ht hun => ?_, fun pod hpod => ?_, hrep.targets hinv.targets⟩
  · rcases (hrep.after x).mp hx with rfl | hx
    · exact hinv.announced w ((hrep.before w).mpr (.inl rfl)) (hlive.mp hx') pod hpod
    · exact hinv.announced x ((hrep.before x).mpr (.inr hx)) hx' pod hpod
  · exact hinv.resolved t ht ((hrep.unwatched hlive).mp hun)
  · exact (hinv.accounted pod hpod).imp (hrep.given hlive id) (hrep.awaited hlive rfl id)

theorem inv_failed {i : ℕ} (hinv : Inv b p) (hw : p.watches[i]? = some w) (hphase : w.phase = .opening)
    (hown : w.own = []) (hspares : Spares b p (.failed i)) :
    Inv b { p with watches := p.watches.set i { w with phase := .failed } } := by
  obtain ⟨hresolved, hheld⟩ := hspares w hw
  have hrep : Replaces p.watches (p.watches.set i { w with phase := .failed }) w { w with phase := .failed }
      (p.watches.eraseIdx i) := replaces_set hw rfl
  have hdead : ¬ ({ w with phase := .failed } : Watch).Live := by simp [Watch.Live]
  have hun : ∀ {t}, UnwatchedBy (p.watches.eraseIdx i) t →
      UnwatchedBy (p.watches.set i { w with phase := .failed }) t := by
    intro t hun x hx hx'
    rcases (hrep.after x).mp hx with rfl | hx
    · exact absurd hx' hdead
    · exact hun x hx hx'
  have hgiven : ∀ {pod}, Given b p.reqs (p.watches.eraseIdx i) pod →
      Given b p.reqs (p.watches.set i { w with phase := .failed }) pod := by
    rintro pod (⟨x, hx, hx', hpod⟩ | ⟨t, ht, hunwatched, hpod⟩)
    · exact .inl ⟨x, (hrep.after x).mpr (.inr hx), hx', hpod⟩
    · exact .inr ⟨t, ht, hun hunwatched, hpod⟩
  refine ⟨fun x hx hx' pod hpod => ?_, hinv.shown, fun t ht hunwatched pod hpod => ?_, fun pod hpod => ?_,
    hrep.targets hinv.targets⟩
  · rcases (hrep.after x).mp hx with rfl | hx
    · exact absurd hx' hdead
    · exact hinv.announced x ((hrep.before x).mpr (.inr hx)) hx' pod hpod
  · have hothers : UnwatchedBy (p.watches.eraseIdx i) t :=
      fun x hx => hunwatched x ((hrep.after x).mpr (.inr hx))
    by_cases hkey : t.key = w.target.key
    · exact hresolved t ht hkey hothers pod hpod
    · refine hinv.resolved t ht (fun x hx hx' => ?_) pod hpod
      rcases (hrep.before x).mp hx with rfl | hx
      · exact Ne.symm hkey
      · exact hothers x hx hx'
  · rcases hinv.accounted pod hpod with (⟨x, hx, hx', hmem⟩ | ⟨t, ht, hunwatched, hmem⟩) |
      ⟨x, hx, hx', hdone, hxheld⟩
    · rcases (hrep.before x).mp hx with rfl | hx
      · rw [hown] at hmem
        simp at hmem
      · exact .inl (hgiven (.inl ⟨x, hx, hx', hmem⟩))
    · exact .inl (hgiven (.inr ⟨t, ht, fun x hx => hunwatched x ((hrep.before x).mpr (.inr hx)), hmem⟩))
    · rcases (hrep.before x).mp hx with rfl | hx
      · exact (hheld pod hpod hxheld).imp hgiven (hrep.awaited_others id)
      · exact .inr (hrep.awaited_others id ⟨x, hx, hx', hdone, hxheld⟩)

theorem inv_added {i : ℕ} (hinv : Inv b p) (hw : p.watches[i]? = some w) (hlive : w.Live) (r : ResolvedLogPod) :
    Inv b (onEvent p i w (.added r)) := by
  have hrep : Replaces p.watches (onEvent p i w (.added r)).watches w
      { w with own := setPod w.own (observed w.target.clusterId r) } (p.watches.eraseIdx i) :=
    replaces_set hw rfl
  have hsame : ({ w with own := setPod w.own (observed w.target.clusterId r) } : Watch).Live ↔ w.Live := Iff.rfl
  refine ⟨fun x hx hx' pod hpod => ?_, fun k hk => ?_, fun t ht hun pod hpod => ?_, fun pod hpod => ?_,
    hrep.targets hinv.targets⟩
  · rcases (hrep.after x).mp hx with rfl | hx
    · rcases mem_setPod.mp hpod with rfl | ⟨hpod, -⟩
      · exact Finset.mem_insert_self _ _
      · exact Finset.mem_insert_of_mem (hinv.announced w ((hrep.before w).mpr (.inl rfl)) hlive pod hpod)
    · exact Finset.mem_insert_of_mem (hinv.announced x ((hrep.before x).mpr (.inr hx)) hx' pod hpod)
  · exact has_setPod.mpr ((Finset.mem_insert.mp hk).imp_right (hinv.shown k))
  · exact has_setPod.mpr (.inr (hinv.resolved t ht ((hrep.unwatched hsame).mp hun) pod hpod))
  · rcases mem_setPod.mp hpod with rfl | ⟨hpod, hne⟩
    · exact .inl (.inl ⟨_, (hrep.after _).mpr (.inl rfl), hlive, mem_setPod.mpr (.inl rfl)⟩)
    · have hkeep : pod ∈ w.own → pod ∈ setPod w.own (observed w.target.clusterId r) :=
        fun h => mem_setPod.mpr (.inr ⟨h, hne⟩)
      exact (hinv.accounted pod hpod).imp (hrep.given hsame hkeep) (hrep.awaited hsame rfl hkeep)

theorem inv_removed {i : ℕ} {ns name : String} (hinv : Inv b p) (hw : p.watches[i]? = some w) (hlive : w.Live)
    (hspares : Spares b p (.event i (.removed ns name))) : Inv b (onEvent p i w (.removed ns name)) := by
  obtain ⟨hothers, hresolved⟩ := hspares w hw
  have hrep : Replaces p.watches (onEvent p i w (.removed ns name)).watches w
      { w with own := deletePod w.own (podKey w.target.clusterId ns name) } (p.watches.eraseIdx i) :=
    replaces_set hw rfl
  have hsame : ({ w with own := deletePod w.own (podKey w.target.clusterId ns name) } : Watch).Live ↔ w.Live :=
    Iff.rfl
  have hhas : ∀ {k}, Has p.podMap k → k ≠ podKey w.target.clusterId ns name →
      Has (deletePod p.podMap (podKey w.target.clusterId ns name)) k := by
    rintro k ⟨q, hq, rfl⟩ hne
    exact ⟨q, mem_deletePod.mpr ⟨hq, hne⟩, rfl⟩
  refine ⟨fun x hx hx' pod hpod => ?_, fun k hk => ?_, fun t ht hun pod hpod => ?_, fun pod hpod => ?_,
    hrep.targets hinv.targets⟩
  · rcases (hrep.after x).mp hx with rfl | hx
    · obtain ⟨hpod, hne⟩ := mem_deletePod.mp hpod
      exact Finset.mem_erase.mpr ⟨hne, hinv.announced w ((hrep.before w).mpr (.inl rfl)) hlive pod hpod⟩
    · exact Finset.mem_erase.mpr ⟨hothers x hx hx' pod hpod,
        hinv.announced x ((hrep.before x).mpr (.inr hx)) hx' pod hpod⟩
  · obtain ⟨hne, hk⟩ := Finset.mem_erase.mp hk
    exact hhas (hinv.shown k hk) hne
  · have hunwatched := (hrep.unwatched hsame).mp hun
    exact hhas (hinv.resolved t ht hunwatched pod hpod) (hresolved t ht hunwatched pod hpod)
  · obtain ⟨hpod, hne⟩ := mem_deletePod.mp hpod
    have hkeep : pod ∈ w.own → pod ∈ deletePod w.own (podKey w.target.clusterId ns name) :=
      fun h => mem_deletePod.mpr ⟨h, hne⟩
    exact (hinv.accounted pod hpod).imp (hrep.given hsame hkeep) (hrep.awaited hsame rfl hkeep)

theorem isStray_congr {clusterId ns : String} {confirmed : Finset MapKey} (h : q.key = pod.key) :
    isStray clusterId ns confirmed q = isStray clusterId ns confirmed pod := by
  have hcluster : q.clusterId = pod.clusterId := congrArg Prod.fst h
  have hns : q.ns = pod.ns := congrArg (fun k => k.2.1) h
  rw [isStray, isStray, hcluster, hns, h]

theorem inv_initDone {i : ℕ} (hinv : Inv b p) (hw : p.watches[i]? = some w) (hlive : w.Live)
    (hspares : Spares b p (.event i .initDone)) : Inv b (onEvent p i w .initDone) := by
  obtain ⟨hresolved, hheld⟩ := hspares w hw
  have hrep : Replaces p.watches (onEvent p i w .initDone).watches w { w with isDone := true }
      (p.watches.eraseIdx i) := replaces_set hw rfl
  have hsame : ({ w with isDone := true } : Watch).Live ↔ w.Live := Iff.rfl
  have hmem : ∀ {q}, q ∈ (onEvent p i w .initDone).podMap ↔
      q ∈ p.podMap ∧ isStray w.target.clusterId w.target.ns p.confirmed q = false := by
    simp [onEvent, pruneAfterInit]
  refine ⟨fun x hx hx' pod hpod => ?_, fun k hk => ?_, fun t ht hun pod hpod => ?_, fun pod hpod => ?_,
    hrep.targets hinv.targets⟩
  · rcases (hrep.after x).mp hx with rfl | hx
    · exact hinv.announced w ((hrep.before w).mpr (.inl rfl)) hlive pod hpod
    · exact hinv.announced x ((hrep.before x).mpr (.inr hx)) hx' pod hpod
  · obtain ⟨q, hq, rfl⟩ := hinv.shown k hk
    have hconfirmed : q.key ∈ p.confirmed := hk
    exact ⟨q, hmem.mpr ⟨hq, by simp [isStray, hconfirmed]⟩, rfl⟩
  · have hunwatched := (hrep.unwatched hsame).mp hun
    obtain ⟨q, hq, hkey⟩ := hinv.resolved t ht hunwatched pod hpod
    exact ⟨q, hmem.mpr ⟨hq, (isStray_congr hkey).trans (hresolved t ht hunwatched pod hpod)⟩, hkey⟩
  · obtain ⟨hold, hstray⟩ := hmem.mp hpod
    rcases hinv.accounted pod hold with hgiven | ⟨x, hx, hx', hdone, hxheld⟩
    · exact .inl (hrep.given hsame id hgiven)
    · rcases (hrep.before x).mp hx with rfl | hx
      · exact (hheld pod hold hstray hxheld).imp (hrep.given hsame id) (hrep.awaited_others id)
      · exact .inr (hrep.awaited_others id ⟨x, hx, hx', hdone, hxheld⟩)

/-- A reconnect leaves a watch as it is, or closes it and arms its target again. -/
theorem closeFor_cases (clusterId : String) (w : Watch) :
    closeFor clusterId w = w ∨
      (w.target.clusterId = clusterId ∧ closeFor clusterId w = { w with phase := .closed }) := by
  unfold closeFor
  split_ifs with h
  · exact .inr ⟨h.1, rfl⟩
  · exact .inl rfl

/-- The watches after a reconnect: what each has held is on record, and each live one stays or is
armed again. -/
structure Rearmed (armed : List ObserveTarget) (ws ws' : List Watch) : Prop where
  recorded : ∀ x ∈ ws, ∃ y ∈ ws', y.target = x.target ∧ y.own = x.own
  renewed : ∀ x ∈ ws, x ∈ ws' ∨ Watch.new false x.target ∈ ws'
  after : ∀ y ∈ ws', (∃ x ∈ ws, y.target = x.target ∧ y.own = x.own ∧ (y.Live → x.Live)) ∨
    ∃ t ∈ armed, y = Watch.new false t

theorem rearmed_onRearm {armed : List ObserveTarget} (htargets : ∀ x ∈ ws, x.target ∈ armed) (clusterId : String) :
    Rearmed armed ws (ws.map (closeFor clusterId) ++
      (armed.filter fun t => t.clusterId = clusterId).map (Watch.new false)) := by
  have hsame : ∀ x : Watch, (closeFor clusterId x).target = x.target ∧ (closeFor clusterId x).own = x.own ∧
      ((closeFor clusterId x).Live → x.Live) := by
    intro x
    rcases closeFor_cases clusterId x with h | ⟨-, h⟩
    · rw [h]
      exact ⟨rfl, rfl, id⟩
    · rw [h]
      exact ⟨rfl, rfl, fun hlive => by simp [Watch.Live] at hlive⟩
  refine ⟨fun x hx => ?_, fun x hx => ?_, fun y hy => ?_⟩
  · exact ⟨_, List.mem_append_left _ (List.mem_map_of_mem hx), (hsame x).1, (hsame x).2.1⟩
  · rcases closeFor_cases clusterId x with h | ⟨hcluster, -⟩
    · have hmem : closeFor clusterId x ∈ ws.map (closeFor clusterId) := List.mem_map_of_mem hx
      rw [h] at hmem
      exact .inl (List.mem_append_left _ hmem)
    · have hmem : x.target ∈ armed.filter fun t => t.clusterId = clusterId :=
        List.mem_filter.mpr ⟨htargets x hx, by simpa using hcluster⟩
      exact .inr (List.mem_append_right _ (List.mem_map_of_mem hmem))
  · rcases List.mem_append.mp hy with hy | hy
    · obtain ⟨x, hx, rfl⟩ := List.mem_map.mp hy
      exact .inl ⟨x, hx, hsame x⟩
    · obtain ⟨t, ht, rfl⟩ := List.mem_map.mp hy
      exact .inr ⟨t, (List.mem_filter.mp ht).1, rfl⟩

theorem Rearmed.held {armed : List ObserveTarget} (h : Rearmed armed ws ws') (hheld : Held b reqs ws t pod) :
    Held b reqs ws' t pod := by
  refine hheld.imp_right ?_
  rintro ⟨x, hx, hkey, hpod⟩
  obtain ⟨y, hy, htarget, hown⟩ := h.recorded x hx
  exact ⟨y, hy, by rw [htarget, hkey], by rw [hown]; exact hpod⟩

theorem live_new (t : ObserveTarget) : (Watch.new false t).Live := .inl rfl

/-- A watch armed again awaits what its target's watches have held. -/
theorem Rearmed.awaited_new {armed : List ObserveTarget} (h : Rearmed armed ws ws')
    (hnew : Watch.new false t ∈ ws') (hheld : Held b reqs ws t pod) : Awaited b reqs ws' ws' pod :=
  ⟨_, hnew, live_new t, rfl, h.held hheld⟩

theorem Rearmed.unwatched {armed : List ObserveTarget} (h : Rearmed armed ws ws') (hun : UnwatchedBy ws' t) :
    UnwatchedBy ws t := by
  intro x hx hlive
  rcases h.renewed x hx with hx' | hnew
  · exact hun x hx' hlive
  · exact hun (Watch.new false x.target) hnew (live_new x.target)

theorem Rearmed.accounted {armed : List ObserveTarget} (h : Rearmed armed ws ws')
    (hacc : Given b reqs ws pod ∨ Awaited b reqs ws ws pod) :
    Given b reqs ws' pod ∨ Awaited b reqs ws' ws' pod := by
  rcases hacc with (⟨x, hx, hlive, hpod⟩ | ⟨t, ht, hun, hpod⟩) | ⟨x, hx, hlive, hdone, hheld⟩
  · rcases h.renewed x hx with hx' | hnew
    · exact .inl (.inl ⟨x, hx', hlive, hpod⟩)
    · exact .inr (h.awaited_new hnew (.inr ⟨x, hx, rfl, hpod⟩))
  · by_cases hun' : UnwatchedBy ws' t
    · exact .inl (.inr ⟨t, ht, hun', hpod⟩)
    · simp only [UnwatchedBy, not_forall, not_not] at hun'
      obtain ⟨y, hy, hlive, hkey⟩ := hun'
      rcases h.after y hy with ⟨x, hx, htarget, -, hback⟩ | ⟨u, -, rfl⟩
      · exact absurd (htarget ▸ hkey) (hun x hx (hback hlive))
      · exact .inr (h.awaited_new hy (.inl ⟨t, ht, hkey.symm, hpod⟩))
  · rcases h.renewed x hx with hx' | hnew
    · exact .inr ⟨x, hx', hlive, hdone, h.held hheld⟩
    · exact .inr (h.awaited_new hnew hheld)

theorem inv_rearm (hinv : Inv b p) (clusterId : String) : Inv b (onRearm p clusterId) := by
  unfold onRearm
  split_ifs
  · exact hinv
  · have h := rearmed_onRearm hinv.targets clusterId
    refine ⟨fun y hy hlive pod hpod => ?_, hinv.shown, fun t ht hun => hinv.resolved t ht (h.unwatched hun),
      fun pod hpod => h.accounted (hinv.accounted pod hpod), fun y hy => ?_⟩
    · rcases h.after y hy with ⟨x, hx, -, hown, hback⟩ | ⟨t, -, rfl⟩
      · exact hinv.announced x hx (hback hlive) pod (hown ▸ hpod)
      · simp [Watch.new] at hpod
    · rcases h.after y hy with ⟨x, hx, htarget, -⟩ | ⟨t, ht, rfl⟩
      · exact htarget ▸ hinv.targets x hx
      · exact ht

theorem inv_step {a : Action} (hspares : Spares b p a) (hinv : Inv b p) (h : step p a = some p') : Inv b p' := by
  cases a with
  | opened i =>
    simp only [step] at h
    split at h
    · next w hw =>
      split_ifs at h with hphase
      cases h
      exact inv_opened hinv hw hphase
    · cases h
  | failed i =>
    simp only [step] at h
    split at h
    · next w hw =>
      split_ifs at h with hphase
      cases h
      exact inv_failed hinv hw hphase.1 hphase.2.1 hspares
    · cases h
  | event i e =>
    simp only [step] at h
    split at h
    · next w hw =>
      split_ifs at h with hlive
      cases h
      cases e with
      | added r => exact inv_added hinv hw hlive r
      | removed ns name => exact inv_removed hinv hw hlive hspares
      | initDone => exact inv_initDone hinv hw hlive hspares
    · cases h
  | rearm clusterId =>
    cases h
    exact inv_rearm hinv clusterId

end Steps

/-- In a run whose steps spare what others give, the panel shows the union whenever its live
watches have all delivered their `init_done`. -/
theorem pods_show_union {targets : List ObserveTarget} {as : List Action}
    (hspares : Meets step (Spares b) (Panel.start b targets) as)
    (hrun : run step (Panel.start b targets) as = some p) (hquiet : Quiet p) : ShowsUnion b p :=
  (run_invariant_meets (fun _ _ _ hs hi h => inv_step hs hi h) hspares (inv_start b targets) hrun).showsUnion hquiet

def podTarget : ObserveTarget := ⟨"c", "pods", "prod", "job-1", none⟩

def webTarget : ObserveTarget := ⟨"c", "deployments", "prod", "web", none⟩

/-- A backend that finds the pod of a pod target, and one pod of any workload. -/
def onePod : Backend :=
  { resolve := fun t => if t.kindId = "pods" then [⟨t.ns, t.name, []⟩] else [⟨t.ns, "web-1", []⟩]
    answers := fun _ => true }

def webPod : ResolvedLogPod := ⟨"prod", "web-1", []⟩

def listWeb (i : ℕ) : List Action := [.opened i, .event i (.added webPod), .event i .initDone]

theorem single_pod_pruned : ¬ ∀ as p, run step (Panel.start onePod [podTarget, webTarget]) as = some p →
    Quiet p → ShowsUnion onePod p := by
  intro h
  have hshown := h (listWeb 0) _ rfl (by decide)
  have hgiven := hshown.2 ⟨"c", "prod", "job-1", []⟩ (by decide)
  exact absurd hgiven (by decide)

theorem pods_show_union_rearmed : ∃ p,
    run step (Panel.start onePod [webTarget]) (listWeb 0 ++ .rearm "c" :: listWeb 1) = some p ∧
      ShowsUnion onePod p := by
  have hspares : Meets step (Spares onePod) (Panel.start onePod [webTarget])
      (listWeb 0 ++ .rearm "c" :: listWeb 1) := by decide
  exact ⟨_, rfl, pods_show_union hspares rfl (by decide)⟩

end FerrisScope.ObservedPods
