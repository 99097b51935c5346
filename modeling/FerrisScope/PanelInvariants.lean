import FerrisScope.LabelledRuns
import FerrisScope.TabPanels

/-!
# What holds of the panels in every tab

An instance id is used once in a tab, a subject is parked once, and each dock shows one of its own
tabs as long as it has any. Every action keeps this of the slice it works on, and switching, opening and closing
tabs only moves slices, so it holds of every tab in every run.
-/

namespace FerrisScope.PanelInvariants
open BrowserHistory ClusterTabs LabelledRuns TabPanels
open SessionRestore (DockPlacement PlacedTab placementOf)

/-! ## Slices -/

/-- The instance ids under which a tab mounts its drawers. -/
def mountedIds (s : Slice) : List String := s.drawerId.toList ++ s.tray.map TrayItem.id

def parkedSubjects (tray : List TrayItem) : List String := tray.map fun i => drawerKey i.drawer

def historySize : Drawer → ℕ
  | .detail d => (d.back.getD []).length + (d.forward.getD []).length
  | _ => 0

structure DrawersOk (s : Slice) : Prop where
  shown : s.drawerId.isSome = s.drawer.isSome
  instances : (mountedIds s).Nodup
  subjects : (parkedSubjects s.tray).Nodup
  capacity : s.tray.length ≤ trayCap
  histories : ∀ d ∈ s.drawer, historySize d ≤ detailHistoryCap
  parkedHistories : ∀ i ∈ s.tray, historySize i.drawer ≤ detailHistoryCap

/-- A placement shows one of its tabs, and none if it has none. -/
def Shows (s : Slice) (p : DockPlacement) : Prop :=
  match entry s.dockActive p with
  | none => ∀ t ∈ s.dockTabs, placementOf t ≠ p
  | some id => ∃ t ∈ s.dockTabs, t.id = id ∧ placementOf t = p

structure DocksOk (s : Slice) : Prop where
  ids : (s.dockTabs.map fun t => t.id).Nodup
  shows : ∀ p, Shows s p

structure PanelsOk (s : Slice) : Prop where
  drawers : DrawersOk s
  docks : DocksOk s

/-- The two slices have the same drawers. -/
structure SameDrawers (s s' : Slice) : Prop where
  drawer : s'.drawer = s.drawer
  drawerId : s'.drawerId = s.drawerId
  tray : s'.tray = s.tray

structure SameDocks (s s' : Slice) : Prop where
  dockTabs : s'.dockTabs = s.dockTabs
  dockActive : s'.dockActive = s.dockActive

variable {s s' : Slice}

theorem DrawersOk.congr (h : DrawersOk s) (hs : SameDrawers s s') : DrawersOk s' where
  shown := by rw [hs.drawerId, hs.drawer, h.shown]
  instances := by
    rw [mountedIds, hs.drawerId, hs.tray]
    exact h.instances
  subjects := by
    rw [hs.tray]
    exact h.subjects
  capacity := by
    rw [hs.tray]
    exact h.capacity
  histories := by
    rw [hs.drawer]
    exact h.histories
  parkedHistories := by
    rw [hs.tray]
    exact h.parkedHistories

theorem DocksOk.congr (h : DocksOk s) (hs : SameDocks s s') : DocksOk s' where
  ids := by
    rw [hs.dockTabs]
    exact h.ids
  shows p := by
    rw [Shows, hs.dockActive, hs.dockTabs]
    exact h.shows p

theorem PanelsOk.of_same (h : PanelsOk s) (hd : SameDrawers s s') (hk : SameDocks s s') : PanelsOk s' :=
  ⟨h.drawers.congr hd, h.docks.congr hk⟩

/-! ## The tray -/

theorem trayWith_sublist (tray : List TrayItem) (d : Drawer) (id : String) :
    (trayWith tray d id).Sublist (tray ++ [⟨id, d⟩]) :=
  (lastN_sublist _ _).trans (List.filter_sublist.append (List.Sublist.refl _))

theorem length_trayWith_le (tray : List TrayItem) (d : Drawer) (id : String) :
    (trayWith tray d id).length ≤ trayCap := by
  rw [trayWith, length_lastN]
  exact Nat.min_le_left _ _

theorem ids_trayWith_sublist (tray : List TrayItem) (d : Drawer) (id : String) :
    ((trayWith tray d id).map TrayItem.id).Sublist (tray.map TrayItem.id ++ [id]) := by
  have h := (trayWith_sublist tray d id).map TrayItem.id
  rwa [List.map_append, List.map_singleton] at h

theorem subjects_trayWith (tray : List TrayItem) (d : Drawer) (id : String) (h : (parkedSubjects tray).Nodup) :
    (parkedSubjects (trayWith tray d id)).Nodup := by
  refine List.Nodup.sublist ((lastN_sublist _ _).map _) ?_
  rw [List.map_append, List.map_singleton]
  refine List.Nodup.append (h.sublist (List.filter_sublist.map _)) (List.nodup_singleton _) ?_
  intro key hkey hsame
  obtain ⟨i, hi, rfl⟩ := List.mem_map.mp hkey
  have hne : drawerKey i.drawer ≠ drawerKey d := by simpa using (List.mem_filter.mp hi).2
  exact hne (List.mem_singleton.mp hsame)

theorem mem_trayWith {tray : List TrayItem} {d : Drawer} {id : String} {i : TrayItem} (h : i ∈ trayWith tray d id) :
    i ∈ tray ∨ i = ⟨id, d⟩ := by
  have hmem := (trayWith_sublist tray d id).subset h
  rw [List.mem_append, List.mem_singleton] at hmem
  exact hmem

/-! ## Drawers -/

theorem historySize_withView (view : DetailView) (d : Drawer) : historySize (withView view d) = historySize d := by
  cases d <;> rfl

theorem drawerKey_withView (view : DetailView) (d : Drawer) : drawerKey (withView view d) = drawerKey d := by
  cases d <;> rfl

theorem reported_eq_some {key : String} {view : DetailView} {d d' : Drawer} (h : reported key view d = some d') :
    d' = withView view d := by
  cases d with
  | detail e =>
    simp only [reported] at h
    split at h
    · exact (Option.some.inj h).symm
    · cases h
  | logs => cases h
  | compare => cases h
  | inspect => cases h

/-- Another drawer in the place of the one that is shown. -/
theorem DrawersOk.swap (h : DrawersOk s) {d e : Drawer} (hshown : s.drawer = some e)
    (hd : historySize d ≤ detailHistoryCap) : DrawersOk { s with drawer := some d } where
  shown := by
    have := h.shown
    rw [hshown] at this
    exact this
  instances := h.instances
  subjects := h.subjects
  capacity := h.capacity
  histories d' hd' := by
    cases hd'
    exact hd
  parkedHistories := h.parkedHistories

/-- A drawer under an id that is not in the tray. -/
theorem DrawersOk.show (h : DrawersOk s) {d : Drawer} (id : String) (hid : id ∉ s.tray.map TrayItem.id)
    (hd : historySize d ≤ detailHistoryCap) : DrawersOk { s with drawer := some d, drawerId := some id } where
  shown := rfl
  instances := List.nodup_cons.mpr ⟨hid, (List.nodup_append.mp h.instances).2.1⟩
  subjects := h.subjects
  capacity := h.capacity
  histories d' hd' := by
    cases hd'
    exact hd
  parkedHistories := h.parkedHistories

theorem DrawersOk.hide (h : DrawersOk s) : DrawersOk (closeDrawer s) where
  shown := rfl
  instances := (List.nodup_append.mp h.instances).2.1
  subjects := h.subjects
  capacity := h.capacity
  histories d hd := by cases hd
  parkedHistories := h.parkedHistories

theorem DrawersOk.shrink (h : DrawersOk s) {tray : List TrayItem} (ht : tray.Sublist s.tray) :
    DrawersOk { s with tray := tray } where
  shown := h.shown
  instances := h.instances.sublist ((List.Sublist.refl _).append (ht.map _))
  subjects := h.subjects.sublist (ht.map _)
  capacity := ht.length_le.trans h.capacity
  histories := h.histories
  parkedHistories i hi := h.parkedHistories i (ht.subset hi)

/-- The shown drawer moves to the tray under its id. -/
theorem DrawersOk.park (h : DrawersOk s) {d e : Drawer} (uuid : String) (hshown : s.drawer = some e)
    (hd : historySize d ≤ detailHistoryCap) :
    DrawersOk { s with drawer := none, drawerId := none, tray := trayWith s.tray d (s.drawerId.getD uuid) } := by
  obtain ⟨id, hid⟩ : ∃ id, s.drawerId = some id := Option.isSome_iff_exists.mp (h.shown.trans (by rw [hshown]; rfl))
  have hn : (id :: s.tray.map TrayItem.id).Nodup := by
    have := h.instances
    rw [mountedIds, hid] at this
    exact this
  rw [hid, Option.getD_some]
  refine ⟨rfl, ?_, subjects_trayWith _ _ _ h.subjects, length_trayWith_le _ _ _, ?_, ?_⟩
  · refine List.Nodup.sublist (ids_trayWith_sublist _ _ _) ?_
    exact (List.perm_append_singleton id _).nodup_iff.mpr hn
  · intro d' hd'
    cases hd'
  · intro i hi
    rcases mem_trayWith hi with hold | rfl
    · exact h.parkedHistories i hold
    · exact hd

theorem DrawersOk.openDrawer (h : DrawersOk s) {d : Drawer} {uuid : String} (hfresh : uuid ∉ mountedIds s)
    (hd : historySize d ≤ detailHistoryCap) : DrawersOk (openDrawer s d uuid) := by
  have huuid : uuid ∉ s.tray.map TrayItem.id := fun hmem => hfresh (List.mem_append_right _ hmem)
  unfold TabPanels.openDrawer
  split
  · rename_i e he
    split
    · exact h.swap he hd
    · exact h.show _ huuid hd
  · exact h.show _ huuid hd

theorem DrawersOk.minimizeDrawer (h : DrawersOk s) (view : Option DetailView) (uuid : String) :
    DrawersOk (minimizeDrawer s view uuid) := by
  unfold TabPanels.minimizeDrawer
  split
  · exact h
  · rename_i e he
    refine h.park _ he ?_
    have hsize := h.histories e he
    cases view with
    | none => exact hsize
    | some v =>
      dsimp only
      rw [historySize_withView]
      exact hsize

theorem subjects_modify (tray : List TrayItem) {i : ℕ} {d : Drawer}
    (h : ∀ t, tray[i]? = some t → drawerKey d = drawerKey t.drawer) :
    parkedSubjects (tray.modify i fun t => { t with drawer := d }) = parkedSubjects tray := by
  refine List.ext_getElem? fun j => ?_
  simp only [parkedSubjects, List.getElem?_map, List.getElem?_modify]
  cases ht : tray[j]? with
  | none => rfl
  | some t =>
    by_cases hij : i = j
    · subst hij
      simp [h t ht]
    · simp [hij]

theorem ids_modify (tray : List TrayItem) (i : ℕ) (d : Drawer) :
    (tray.modify i fun t => { t with drawer := d }).map TrayItem.id = tray.map TrayItem.id := by
  refine List.ext_getElem? fun j => ?_
  simp only [List.getElem?_map, List.getElem?_modify]
  cases tray[j]? with
  | none => rfl
  | some t =>
    by_cases hij : i = j
    · simp [hij]
    · simp [hij]

theorem mem_modify {tray : List TrayItem} {i : ℕ} {d : Drawer} {t : TrayItem}
    (h : t ∈ tray.modify i fun t => { t with drawer := d }) : t ∈ tray ∨ t.drawer = d := by
  obtain ⟨j, hj⟩ := List.mem_iff_getElem?.mp h
  rw [List.getElem?_modify] at hj
  obtain ⟨u, hu, rfl⟩ := Option.map_eq_some_iff.mp hj
  by_cases hij : i = j
  · exact .inr (by simp [hij])
  · exact .inl (by simpa [hij] using List.mem_of_getElem? hu)

theorem DrawersOk.saveParked (h : DrawersOk s) (instanceId key : String) (view : DetailView) :
    DrawersOk (saveDrawerView.saveParked instanceId key view s) := by
  unfold saveDrawerView.saveParked
  split
  · exact h
  · rename_i i hi
    split
    · rename_i d hd
      obtain ⟨t, ht, hrep⟩ := Option.bind_eq_some_iff.mp hd
      obtain rfl := reported_eq_some hrep
      refine ⟨h.shown, ?_, ?_, ?_, h.histories, ?_⟩
      · rw [mountedIds]
        exact (ids_modify s.tray i _).symm ▸ h.instances
      · have hkeys := subjects_modify s.tray (i := i) (d := withView view t.drawer) fun u hu => by
          obtain rfl := Option.some.inj (ht.symm.trans hu)
          exact drawerKey_withView view t.drawer
        exact hkeys.symm ▸ h.subjects
      · exact (List.length_modify _ _ _).le.trans h.capacity
      · intro u hu
        rcases mem_modify hu with hold | hnew
        · exact h.parkedHistories u hold
        · rw [hnew, historySize_withView]
          exact h.parkedHistories t (List.mem_of_getElem? ht)
    · exact h

theorem DrawersOk.saveDrawerView (h : DrawersOk s) (instanceId key : String) (view : DetailView) :
    DrawersOk (saveDrawerView s instanceId key view) := by
  unfold TabPanels.saveDrawerView
  split
  · rename_i e he
    split
    · split
      · rename_i d hd
        refine h.swap he ?_
        rw [reported_eq_some hd, historySize_withView]
        exact h.histories e he
      · exact h
    · exact h.saveParked instanceId key view
  · exact h.saveParked instanceId key view

theorem DrawersOk.restoreTrayItem (h : DrawersOk s) (id uuid : String) : DrawersOk (restoreTrayItem s id uuid) := by
  unfold TabPanels.restoreTrayItem
  split
  · exact h
  · rename_i item hfind
    have hitem : item ∈ s.tray := List.mem_of_find?_eq_some hfind
    have hid : item.id = id := by simpa using List.find?_some hfind
    have hsize := h.parkedHistories item hitem
    have hrest : id ∉ (s.tray.filter fun i => i.id ≠ id).map TrayItem.id := by
      intro hmem
      obtain ⟨i, hi, hsame⟩ := List.mem_map.mp hmem
      have : i.id ≠ id := by simpa using (List.mem_filter.mp hi).2
      exact this hsame
    have hshrunk := h.shrink (List.filter_sublist (p := fun i : TrayItem => i.id ≠ id) (l := s.tray))
    dsimp only
    rw [hid]
    cases hshown : s.drawer with
    | none => exact (hshrunk.show id hrest hsize)
    | some e =>
      have hpark := hshrunk.park (s := { s with tray := s.tray.filter fun i => i.id ≠ id }) uuid hshown
        (h.histories e hshown)
      refine (hpark.show id ?_ hsize)
      -- The instance that was shown has another id, as it is not in the tray.
      intro hmem
      have hsub := (ids_trayWith_sublist _ _ _).subset hmem
      rcases List.mem_append.mp hsub with hold | hnew
      · exact hrest hold
      · obtain ⟨sid, hsid⟩ : ∃ sid, s.drawerId = some sid :=
          Option.isSome_iff_exists.mp (h.shown.trans (by rw [hshown]; rfl))
        have hn := h.instances
        rw [mountedIds, hsid] at hn
        rw [hsid, Option.getD_some, List.mem_singleton] at hnew
        exact (List.nodup_cons.mp hn).1 (hnew ▸ hid ▸ List.mem_map_of_mem hitem)

theorem historySize_navigateDetail (dest : DetailRef) (d : DetailDrawer) :
    historySize (.detail (navigateDetail dest d)) ≤ detailHistoryCap := by
  simp only [historySize, navigateDetail, Option.getD_some, length_lastN, List.length_nil, Nat.add_zero]
  exact Nat.min_le_left _ _

theorem historySize_detailBack (d : DetailDrawer) :
    historySize (.detail (detailBack d)) = historySize (.detail d) := by
  unfold detailBack
  split
  · rfl
  · rename_i prev hprev
    obtain ⟨back, hback, hlast⟩ := Option.bind_eq_some_iff.mp hprev
    have hne : back.length ≠ 0 := fun h => by simp [List.length_eq_zero_iff.mp h] at hlast
    simp only [historySize, hback, Option.map_some, Option.getD_some, List.length_dropLast, List.length_cons]
    omega

theorem historySize_detailForward (d : DetailDrawer) :
    historySize (.detail (detailForward d)) = historySize (.detail d) := by
  unfold detailForward
  split
  · rename_i next rest hforward
    simp only [historySize, hforward, Option.getD_some, List.length_append, List.length_cons, List.length_nil]
    omega
  · rfl

theorem DrawersOk.onDetail (h : DrawersOk s) {f : DetailDrawer → DetailDrawer}
    (hf : ∀ d, historySize (.detail d) ≤ detailHistoryCap → historySize (.detail (f d)) ≤ detailHistoryCap) :
    DrawersOk (onDetail f s) := by
  unfold TabPanels.onDetail
  split
  · rename_i d hd
    exact h.swap hd (hf d (h.histories _ hd))
  · exact h

/-! ## Docks -/

theorem entry_setEntry {α : Type} (r : ByPlacement α) (p q : DockPlacement) (v : α) :
    entry (setEntry r p v) q = if q = p then v else entry r q := by
  cases p <;> cases q <;> rfl

theorem dockTabs_settlePlacement (s : Slice) (p : DockPlacement) : (settlePlacement s p).dockTabs = s.dockTabs := by
  unfold settlePlacement
  dsimp only
  split <;> split <;> rfl

theorem sameDrawers_settlePlacement (s : Slice) (p : DockPlacement) : SameDrawers s (settlePlacement s p) := by
  unfold settlePlacement
  dsimp only
  split <;> split <;> exact ⟨rfl, rfl, rfl⟩

theorem entry_settlePlacement (s : Slice) (p q : DockPlacement) (hpq : q ≠ p) :
    entry (settlePlacement s p).dockActive q = entry s.dockActive q := by
  unfold settlePlacement
  dsimp only
  split <;> split <;> first | rfl | exact (entry_setEntry _ _ _ _).trans (if_neg hpq)

/-- What a placement shows after it is settled. -/
theorem shows_settlePlacement_self (s : Slice) (p : DockPlacement) : Shows (settlePlacement s p) p := by
  have hactive : entry (settlePlacement s p).dockActive p =
      if (s.dockTabs.filter fun t => placementOf t = p).any fun t => some t.id == entry s.dockActive p then
        entry s.dockActive p
      else (s.dockTabs.filter fun t => placementOf t = p).getLast?.map (·.id) := by
    unfold settlePlacement
    dsimp only
    split <;> split <;> first | rfl | exact (entry_setEntry _ _ _ _).trans (if_pos rfl)
  rw [Shows, hactive, dockTabs_settlePlacement]
  split_ifs with hkept
  · obtain ⟨t, ht, hid⟩ := List.any_eq_true.mp hkept
    obtain ⟨hmem, hp⟩ := List.mem_filter.mp ht
    rw [← beq_iff_eq.mp hid]
    exact ⟨t, hmem, rfl, by simpa using hp⟩
  · cases hlast : (s.dockTabs.filter fun t => placementOf t = p).getLast? with
    | none =>
      intro t ht hp
      have hnil := List.getLast?_eq_none_iff.mp hlast
      have : t ∈ s.dockTabs.filter fun t => placementOf t = p := List.mem_filter.mpr ⟨ht, by simpa using hp⟩
      rw [hnil] at this
      cases this
    | some t =>
      obtain ⟨hmem, hp⟩ := List.mem_filter.mp (List.mem_of_getLast? hlast)
      exact ⟨t, hmem, rfl, by simpa using hp⟩

theorem shows_settlePlacement {p q : DockPlacement} (hpq : q ≠ p) (h : Shows s q) : Shows (settlePlacement s p) q := by
  rw [Shows, entry_settlePlacement s p q hpq, dockTabs_settlePlacement]
  exact h

/-- Whatever tabs are removed, both docks show one of those left. -/
theorem DocksOk.removeDockTabs (h : DocksOk s) (ids : List String) : DocksOk (removeDockTabs s ids) where
  ids := by
    rw [TabPanels.removeDockTabs, dockTabs_settlePlacement, dockTabs_settlePlacement]
    exact h.ids.sublist (List.filter_sublist.map _)
  shows p := by
    cases p with
    | bottom => exact shows_settlePlacement (by decide) (shows_settlePlacement_self _ _)
    | right => exact shows_settlePlacement_self _ _

theorem sameDrawers_removeDockTabs (s : Slice) (ids : List String) : SameDrawers s (removeDockTabs s ids) := by
  have h := sameDrawers_settlePlacement { s with dockTabs := s.dockTabs.filter fun t => t.id ∉ ids } .bottom
  have h' := sameDrawers_settlePlacement
    (settlePlacement { s with dockTabs := s.dockTabs.filter fun t => t.id ∉ ids } .bottom) .right
  exact ⟨h'.drawer.trans h.drawer, h'.drawerId.trans h.drawerId, h'.tray.trans h.tray⟩

/-- A placement is set to show one of its tabs. -/
theorem Shows.set {p q : DockPlacement} {t : PlacedTab} (h : Shows s q) (ht : t ∈ s.dockTabs) (hp : placementOf t = p) :
    Shows { s with dockActive := setEntry s.dockActive p (some t.id) } q := by
  simp only [Shows, entry_setEntry]
  split_ifs with hq
  · exact ⟨t, ht, rfl, hp.trans hq.symm⟩
  · exact h

theorem DocksOk.addDockTab (h : DocksOk s) {tab : PlacedTab} (hfresh : tab.id ∉ s.dockTabs.map fun t => t.id) :
    DocksOk (addDockTab s tab) where
  ids := by
    simp only [TabPanels.addDockTab, List.map_append, List.map_singleton]
    exact (List.perm_append_singleton _ _).nodup_iff.mpr (List.nodup_cons.mpr ⟨hfresh, h.ids⟩)
  shows p := by
    simp only [Shows, TabPanels.addDockTab, entry_setEntry]
    split_ifs with hp
    · exact ⟨tab, List.mem_append_right _ (List.mem_singleton_self _), rfl, hp.symm⟩
    · have hold := h.shows p
      rw [Shows] at hold
      split
      · rename_i hnone
        rw [hnone] at hold
        intro t ht
        rcases List.mem_append.mp ht with ht | ht
        · exact hold t ht
        · rw [List.mem_singleton.mp ht]
          exact Ne.symm hp
      · rename_i id hsome
        rw [hsome] at hold
        obtain ⟨t, ht, hrest⟩ := hold
        exact ⟨t, List.mem_append_left _ ht, hrest⟩

theorem DocksOk.setDockActiveId (h : DocksOk s) (id : String) : DocksOk (setDockActiveId s id) := by
  unfold TabPanels.setDockActiveId
  split
  · exact h
  · rename_i tab hfind
    refine ⟨h.ids, fun p => ?_⟩
    have hid : tab.id = id := by simpa using List.find?_some hfind
    have := (h.shows p).set (List.mem_of_find?_eq_some hfind) rfl
    rwa [hid] at this

theorem id_withState (id : String) (patch : Json.Fields String) (t : PlacedTab) : (withState id patch t).id = t.id := by
  unfold withState
  split <;> rfl

theorem placementOf_withState (id : String) (patch : Json.Fields String) (t : PlacedTab) :
    placementOf (withState id patch t) = placementOf t := by
  unfold withState
  split <;> rfl

theorem DocksOk.patchState (h : DocksOk s) (id : String) (patch : Json.Fields String) :
    DocksOk (patchState id patch s) where
  ids := by
    have hids : (s.dockTabs.map (withState id patch)).map (fun t => t.id) = s.dockTabs.map fun t => t.id := by
      rw [List.map_map]
      exact List.map_congr_left fun t _ => id_withState id patch t
    exact hids.symm ▸ h.ids
  shows p := by
    have hold := h.shows p
    rw [Shows] at hold ⊢
    split
    · rename_i hnone
      rw [show entry s.dockActive p = none from hnone] at hold
      intro t ht
      obtain ⟨u, hu, rfl⟩ := List.mem_map.mp ht
      rw [placementOf_withState]
      exact hold u hu
    · rename_i shown hsome
      rw [show entry s.dockActive p = some shown from hsome] at hold
      obtain ⟨u, hu, hid, hp⟩ := hold
      exact ⟨_, List.mem_map_of_mem hu, (id_withState id patch u).trans hid, (placementOf_withState id patch u).trans hp⟩

/-! ## Actions -/

/-- A made id is new, and what a caller opens has no more history than the cap. -/
def PanelPermitted (s : Slice) : PanelAct → Prop
  | .openDrawer d uuid => uuid ∉ mountedIds s ∧ historySize d ≤ detailHistoryCap
  | .addDockTab tab => tab.id ∉ s.dockTabs.map fun t => t.id
  | _ => True

theorem panelsOk_act (h : PanelsOk s) (a : PanelAct) (hp : PanelPermitted s a) : PanelsOk (act s a) := by
  have hsame : SameDrawers s s := ⟨rfl, rfl, rfl⟩
  cases a with
  | openDrawer d uuid =>
    refine ⟨h.drawers.openDrawer hp.1 hp.2, h.docks.congr ?_⟩
    simp only [act, TabPanels.openDrawer]
    split
    · split <;> exact ⟨rfl, rfl⟩
    · exact ⟨rfl, rfl⟩
  | closeDrawer => exact ⟨h.drawers.hide, h.docks.congr ⟨rfl, rfl⟩⟩
  | minimizeDrawer view uuid =>
    refine ⟨h.drawers.minimizeDrawer view uuid, h.docks.congr ?_⟩
    simp only [act, TabPanels.minimizeDrawer]
    split <;> exact ⟨rfl, rfl⟩
  | restoreTrayItem id uuid =>
    refine ⟨h.drawers.restoreTrayItem id uuid, h.docks.congr ?_⟩
    simp only [act, TabPanels.restoreTrayItem]
    split <;> exact ⟨rfl, rfl⟩
  | closeTrayItem id => exact ⟨h.drawers.shrink List.filter_sublist, h.docks.congr ⟨rfl, rfl⟩⟩
  | closeAllTrayItems => exact ⟨h.drawers.shrink (List.nil_sublist _), h.docks.congr ⟨rfl, rfl⟩⟩
  | saveDrawerView instanceId key view =>
    refine ⟨h.drawers.saveDrawerView instanceId key view, h.docks.congr ?_⟩
    simp only [act, TabPanels.saveDrawerView, saveDrawerView.saveParked]
    repeat' split
    all_goals exact ⟨rfl, rfl⟩
  | navigateDrawerDetail dest =>
    refine ⟨h.drawers.onDetail fun d _ => historySize_navigateDetail dest d, h.docks.congr ?_⟩
    simp only [act, TabPanels.navigateDrawerDetail, onDetail]
    split <;> exact ⟨rfl, rfl⟩
  | drawerDetailBack =>
    refine ⟨h.drawers.onDetail fun d hd => (historySize_detailBack d).trans_le hd, h.docks.congr ?_⟩
    simp only [act, TabPanels.drawerDetailBack, onDetail]
    split <;> exact ⟨rfl, rfl⟩
  | drawerDetailForward =>
    refine ⟨h.drawers.onDetail fun d hd => (historySize_detailForward d).trans_le hd, h.docks.congr ?_⟩
    simp only [act, TabPanels.drawerDetailForward, onDetail]
    split <;> exact ⟨rfl, rfl⟩
  | addDockTab tab => exact ⟨h.drawers.congr ⟨rfl, rfl, rfl⟩, h.docks.addDockTab hp⟩
  | removeDockTabs ids => exact ⟨h.drawers.congr (sameDrawers_removeDockTabs s ids), h.docks.removeDockTabs ids⟩
  | closeAllDockTabs =>
    refine ⟨h.drawers.congr ⟨rfl, rfl, rfl⟩, List.nodup_nil, fun p => ?_⟩
    cases p <;> exact fun _ ht => (nomatch ht)
  | closeDockTabsByPlacement p =>
    exact ⟨h.drawers.congr (sameDrawers_removeDockTabs s _), h.docks.removeDockTabs _⟩
  | setDockActiveId id =>
    refine ⟨h.drawers.congr ?_, h.docks.setDockActiveId id⟩
    simp only [act, TabPanels.setDockActiveId]
    split <;> exact ⟨rfl, rfl, rfl⟩
  | setDockMin p min => exact h.of_same ⟨rfl, rfl, rfl⟩ ⟨rfl, rfl⟩
  | patchState id patch => exact ⟨h.drawers.congr ⟨rfl, rfl, rfl⟩, h.docks.patchState id patch⟩

/-! ## Every tab of the store -/

/-- The live slice and those of all tabs. -/
structure EveryTab {P : Payload} (Q : ScopeSlice P → Prop) (s : AppState P) : Prop where
  live : Q (captureScopeSlice s)
  tabs : ∀ t ∈ s.openTabs, Q t.slice

section
variable {P : Payload} {Q : ScopeSlice P → Prop} {s : AppState P}

theorem EveryTab.stashed (h : EveryTab Q s) : ∀ t ∈ stashActive s, Q t.slice := by
  intro t ht
  unfold stashActive at ht
  split at ht
  · exact h.tabs t ht
  · obtain ⟨u, hu, rfl⟩ := List.mem_map.mp ht
    split
    · exact h.live
    · exact h.tabs u hu

theorem everyTab_focusTab {tabs : List (ClusterTab P)} {t : ClusterTab P} (htabs : ∀ t ∈ tabs, Q t.slice)
    (ht : Q t.slice) : EveryTab Q (focusTab s tabs t) := ⟨ht, htabs⟩

theorem EveryTab.switchToTab (h : EveryTab Q s) (id : String) : EveryTab Q (switchToTab s id) := by
  unfold ClusterTabs.switchToTab
  split
  · exact h
  · split
    · exact h
    · rename_i target htarget
      exact everyTab_focusTab h.stashed (h.tabs target (List.mem_of_find?_eq_some htarget))

theorem everyTab_focusAfterClose {before : AppState P} (hempty : Q emptyScopeSlice) (hlive : Q (captureScopeSlice s))
    {stashed : List (ClusterTab P)} (hstashed : ∀ t ∈ stashed, Q t.slice) (closeIds : List String) :
    EveryTab Q (focusAfterClose s before stashed closeIds) := by
  have hrest : ∀ t ∈ stashed.filter fun t => t.id ∉ closeIds, Q t.slice :=
    fun t ht => hstashed t (List.mem_filter.mp ht).1
  unfold focusAfterClose
  dsimp only
  split
  · exact ⟨hlive, hrest⟩
  · split
    · exact ⟨hlive, hrest⟩
    · split
      · exact ⟨hempty, fun _ ht => (nomatch ht)⟩
      · rename_i next hnext
        exact everyTab_focusTab hrest (hrest next (List.mem_of_getElem? hnext))

/-- Opening, switching and closing tabs only moves slices. -/
theorem EveryTab.perform (h : EveryTab Q s) (hempty : ∀ kind, Q { emptyScopeSlice with selectedKindId := kind })
    {op : Op P} (hop : ∀ f, op = .edit f → EveryTab Q (f s)) : EveryTab Q (perform s op) := by
  have hnone : Q emptyScopeSlice := hempty none
  cases op with
  | openTab anchor uuid =>
    simp only [ClusterTabs.perform, openTab]
    split
    · exact h.switchToTab _
    · split
      · refine everyTab_focusTab (fun t ht => ?_) (hempty _)
        rcases List.mem_append.mp ht with ht | ht
        · exact h.stashed t ht
        · rw [List.mem_singleton.mp ht]
          exact hempty _
      · exact h
  | switchTab id => exact h.switchToTab id
  | closeTab id => exact everyTab_focusAfterClose hnone h.live h.stashed _
  | setContexts cs =>
    have hpruned : ∀ t ∈ (stashActive s).map fun tab => { tab with scopeExtras := tab.scopeExtras.filter (· ∈ cs) },
        Q t.slice := by
      intro t ht
      obtain ⟨u, hu, rfl⟩ := List.mem_map.mp ht
      exact h.stashed u hu
    simp only [ClusterTabs.perform, setContexts]
    split
    · exact ⟨h.live, fun t ht => hpruned t (List.mem_filter.mp ht).1⟩
    · refine everyTab_focusAfterClose hnone ?_ hpruned _
      exact h.live
  | deleteVirtualContext id =>
    simp only [ClusterTabs.perform, deleteVirtualContext]
    split
    · exact ⟨h.live, h.tabs⟩
    · refine everyTab_focusAfterClose hnone ?_ h.stashed _
      exact h.live
  | goFleet => exact ⟨hnone, fun _ ht => absurd ht List.not_mem_nil⟩
  | edit f => exact hop f rfl

end

section
variable {s : Store} {Q : Slice → Prop} {f : Slice → Slice}

theorem EveryTab.onLive (h : EveryTab Q s) (hf : Q (captureScopeSlice s) → Q (f (captureScopeSlice s))) :
    EveryTab Q (onLive f s) := ⟨hf h.live, h.tabs⟩

/-- Some of the tabs are rewritten. -/
theorem EveryTab.mapTabs (h : EveryTab Q s) (c : ClusterTab panels → Prop) [DecidablePred c]
    (hf : ∀ t ∈ s.openTabs, Q t.slice → Q (f t.slice)) :
    EveryTab Q { s with openTabs := s.openTabs.map fun t => if c t then { t with slice := f t.slice } else t } := by
  refine ⟨h.live, fun t ht => ?_⟩
  obtain ⟨u, hu, rfl⟩ := List.mem_map.mp ht
  split
  · exact hf u hu (h.tabs u hu)
  · exact h.tabs u hu

theorem EveryTab.patchTab (h : EveryTab Q s) (tabId : Option String)
    (hlive : Q (captureScopeSlice s) → Q (f (captureScopeSlice s)))
    (htabs : ∀ t ∈ s.openTabs, Q t.slice → Q (f t.slice)) : EveryTab Q (patchTab s tabId f) := by
  unfold TabPanels.patchTab
  split
  · exact h.onLive hlive
  · exact h.mapTabs _ htabs

theorem EveryTab.onOwner (h : EveryTab Q s) (id : String) (hf : ∀ sl, Q sl → Q (f sl)) : EveryTab Q (onOwner s id f) := by
  unfold TabPanels.onOwner
  split
  · exact h.onLive (hf _)
  · exact h.mapTabs _ fun t _ => hf _

end

/-- What the other actions of the store leave alone. -/
structure SamePanels (s s' : Store) : Prop where
  drawers : SameDrawers (captureScopeSlice s) (captureScopeSlice s')
  docks : SameDocks (captureScopeSlice s) (captureScopeSlice s')
  openTabs : s'.openTabs = s.openTabs
  activeTabId : s'.activeTabId = s.activeTabId

/-- Ids that are made are new, a stored view is in order, and other actions of the store leave the panels alone. -/
def StorePermitted (s : Store) : StoreAct → Prop
  | .tabs (.edit f) => SamePanels s (f s)
  | .tabs op => Permitted s op
  | .live a => PanelPermitted (captureScopeSlice s) a
  | .openHidden _ d uuid => EveryTab (fun sl => uuid ∉ mountedIds sl) s ∧ historySize d ≤ detailHistoryCap
  | .hydrateSession slices uuid => ∀ id v sl, slices id = some v → PanelsOk (v.over (uuid id) sl)
  | _ => True

theorem panelsOk_empty (kind : Option String) : PanelsOk { emptyScopeSlice with selectedKindId := kind } where
  drawers :=
    ⟨rfl, List.nodup_nil, List.nodup_nil, Nat.zero_le _, fun _ hd => (nomatch hd), fun _ hi => (nomatch hi)⟩
  docks := ⟨List.nodup_nil, fun p => by cases p <;> exact fun _ ht => (nomatch ht)⟩

theorem everyTab_hydrateSession {s : Store} (h : EveryTab PanelsOk s) {slices : String → Option StoredView}
    {uuid : String → String} (hok : ∀ id v sl, slices id = some v → PanelsOk (v.over (uuid id) sl)) :
    EveryTab PanelsOk (hydrateSession s slices uuid) := by
  refine ⟨?_, fun t ht => ?_⟩
  · unfold hydrateSession
    dsimp only
    split
    · rename_i v id hv hid
      rw [hid, Option.bind_some] at hv
      split
      · exact hok id v _ hv
      · exact h.live
    · exact h.live
  · obtain ⟨u, hu, rfl⟩ := List.mem_map.mp ht
    split
    · exact h.tabs u hu
    · rename_i v hv
      split
      · exact h.tabs u hu
      · exact hok _ v _ hv

theorem everyTab_storeStep (s : Store) (a : StoreAct) (s' : Store) (hp : StorePermitted s a) (h : EveryTab PanelsOk s)
    (hstep : storeStep s a = some s') : EveryTab PanelsOk s' := by
  cases hstep
  cases a with
  | tabs op =>
    refine h.perform panelsOk_empty fun f hop => ?_
    subst hop
    have hsame : SamePanels s (f s) := hp
    exact ⟨h.live.of_same hsame.drawers hsame.docks, hsame.openTabs.symm ▸ h.tabs⟩
  | live a => exact h.onLive (f := (act · a)) fun hlive => panelsOk_act hlive a hp
  | openHidden tabId d uuid =>
    have hshow : ∀ sl, uuid ∉ mountedIds sl → PanelsOk sl → PanelsOk { sl with drawer := some d, drawerId := some uuid } :=
      fun sl hfresh hok => ⟨hok.drawers.show _ (fun hmem => hfresh (List.mem_append_right _ hmem)) hp.2,
        hok.docks.congr ⟨rfl, rfl⟩⟩
    exact h.patchTab tabId (hshow _ hp.1.live) fun t ht => hshow _ (hp.1.tabs t ht)
  | saveDrawerView tabId instanceId key view =>
    exact h.patchTab tabId (fun hok => panelsOk_act hok (.saveDrawerView instanceId key view) trivial)
      fun t _ hok => panelsOk_act hok (.saveDrawerView instanceId key view) trivial
  | closeDockTab id => exact h.onOwner id fun sl hok => panelsOk_act hok (.removeDockTabs [id]) trivial
  | patchDockTabState id patch => exact h.onOwner id fun sl hok => panelsOk_act hok (.patchState id patch) trivial
  | hydrateSession slices uuid => exact everyTab_hydrateSession h hp

/-- In every run, in every tab: no instance id is mounted twice, no subject is parked twice, the tray
and the histories stay within their caps, dock tabs have different ids, and each dock shows one of its own tabs or
has none. -/
theorem panels_ok (s₀ s : Store) (as : List StoreAct) (hs₀ : EveryTab PanelsOk s₀)
    (hp : Meets storeStep StorePermitted s₀ as) (hrun : run storeStep s₀ as = some s) : EveryTab PanelsOk s :=
  run_invariant_meets everyTab_storeStep hp hs₀ hrun

theorem everyTab_initialState : EveryTab PanelsOk (initialState panels) :=
  ⟨panelsOk_empty none, fun _ ht => (nomatch ht)⟩

/-- Logs are hidden in one tab, a dock tab is opened in a second and closed from the first. -/
def twoTabs : List StoreAct :=
  [.tabs (.openTab (.context "a") "1"), .live (.openDrawer (.logs [] none none) "i"), .live (.minimizeDrawer none "k"),
   .tabs (.openTab (.context "b") "2"),
   .live (.addDockTab { id := "t", kind := .terminal, title := "sh", state := [], placement := none }),
   .tabs (.switchTab "1"), .closeDockTab "t"]

theorem permitted_twoTabs : Meets storeStep StorePermitted (initialState panels) twoTabs := by
  refine ⟨show "1" ∉ tabIds _ by decide, ?_⟩
  rintro s ⟨⟩
  refine ⟨⟨by decide, by decide⟩, ?_⟩
  rintro s ⟨⟩
  refine ⟨trivial, ?_⟩
  rintro s ⟨⟩
  refine ⟨show "2" ∉ tabIds _ by decide, ?_⟩
  rintro s ⟨⟩
  refine ⟨show "t" ∉ List.map _ _ by decide, ?_⟩
  rintro s ⟨⟩
  refine ⟨trivial, ?_⟩
  rintro s ⟨⟩
  refine ⟨trivial, ?_⟩
  rintro s ⟨⟩
  trivial

theorem panels_ok_twoTabs :
    (twoTabs.foldl storeAct (initialState panels)).tray.map TrayItem.id = ["i"] ∧
      EveryTab PanelsOk (twoTabs.foldl storeAct (initialState panels)) :=
  ⟨rfl, panels_ok _ _ twoTabs everyTab_initialState permitted_twoTabs rfl⟩

end FerrisScope.PanelInvariants
