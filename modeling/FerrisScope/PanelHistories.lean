import FerrisScope.PanelInvariants

/-!
# The history of each panel

A detail panel has its own history, which survives hiding and restoring. What happens to the drawer of
one instance is told by the actions made while it is shown, and its two stacks follow a browser
history with those moves, whatever is done with the other panels in between.
-/

namespace FerrisScope.PanelHistories
open BrowserHistory ClusterTabs LabelledRuns PanelInvariants TabPanels

/-- The drawer of an instance, shown or parked. -/
def drawerOf (s : Slice) (i : String) : Option Drawer :=
  if s.drawerId = some i then s.drawer else (s.tray.find? fun t => t.id == i).map (·.drawer)

def trail (d : DetailDrawer) : Trail DetailRef := ⟨d.back.getD [], detailRef d, d.forward.getD []⟩

/-- The history that the panel shows. -/
def history (d : DetailDrawer) : History DetailRef := (trail d).history

/-- The move that an action makes in the panel that is shown. -/
def moveOf : PanelAct → Option (Move DetailRef)
  | .navigateDrawerDetail dest => some (.visit dest)
  | .drawerDetailBack => some .back
  | .drawerDetailForward => some .forward
  | _ => none

/-- The moves that are made while the instance is shown. -/
def ownMoves (i : String) : Slice → List PanelAct → List (Move DetailRef)
  | _, [] => []
  | s, a :: as => (if s.drawerId = some i then moveOf a else none).toList ++ ownMoves i (act s a) as

def panelStep (s : Slice) (a : PanelAct) : Option Slice := some (act s a)

/-- The instance stays mounted, and the table opens nothing in its place. -/
structure Undisturbed (i : String) (s : Slice) (a : PanelAct) : Prop where
  permitted : PanelPermitted s a
  mounted : i ∈ mountedIds (act s a)
  kept : ∀ d uuid, a = .openDrawer d uuid → s.drawerId ≠ some i

/-! ## The stacks -/

theorem trail_navigateDetail (dest : DetailRef) (d : DetailDrawer) :
    trail (navigateDetail dest d) = (trail d).move detailHistoryCap (.visit dest) := by
  simp only [trail, navigateDetail, Trail.move, Option.getD_some, detailRef]

theorem trail_detailBack (d : DetailDrawer) : trail (detailBack d) = (trail d).move detailHistoryCap .back := by
  unfold detailBack
  cases hb : d.back with
  | none => simp [trail, hb, Trail.move]
  | some back =>
    cases hlast : back.getLast? with
    | none => simp [trail, hb, Trail.move, hlast]
    | some prev => simp [trail, hb, Trail.move, hlast, detailRef]

theorem trail_detailForward (d : DetailDrawer) :
    trail (detailForward d) = (trail d).move detailHistoryCap .forward := by
  unfold detailForward
  cases hf : d.forward with
  | none => simp [trail, hf, Trail.move]
  | some forward =>
    cases forward with
    | nil => simp [trail, hf, Trail.move]
    | cons next rest => simp [trail, hf, Trail.move, detailRef]

/-! ## One step -/

/-- The two drawers are details with the same history. -/
def SameHistory (d d' : Drawer) : Prop :=
  ∀ e, d = .detail e → ∃ e', d' = .detail e' ∧ history e' = history e

theorem SameHistory.refl (d : Drawer) : SameHistory d d := fun e he => ⟨e, he, rfl⟩

theorem sameHistory_withView (view : DetailView) (d : Drawer) : SameHistory d (withView view d) := by
  intro e he
  subst he
  exact ⟨_, rfl, rfl⟩

variable {s : Slice} {i : String} {d : Drawer}

theorem drawerOf_shown (h : s.drawerId = some i) : drawerOf s i = s.drawer := if_pos h

theorem drawerOf_parked (h : s.drawerId ≠ some i) :
    drawerOf s i = (s.tray.find? fun t => t.id == i).map (·.drawer) := if_neg h

/-- Among different ids the entry of an id is the one with it. -/
theorem find_eq_some_of_mem {tray : List TrayItem} (hn : (tray.map TrayItem.id).Nodup) {t : TrayItem} (ht : t ∈ tray) :
    (tray.find? fun u => u.id == t.id) = some t := by
  induction tray with
  | nil => cases ht
  | cons u rest ih =>
    rw [List.map_cons, List.nodup_cons] at hn
    rcases List.mem_cons.mp ht with rfl | ht
    · rw [List.find?_cons_of_pos (by simp)]
    · have hne : u.id ≠ t.id := fun he => hn.1 (he ▸ List.mem_map_of_mem ht)
      rw [List.find?_cons_of_neg (by simpa using hne)]
      exact ih hn.2 ht

theorem parked_of_drawerOf (hid : s.drawerId ≠ some i) (h : drawerOf s i = some d) : ⟨i, d⟩ ∈ s.tray := by
  rw [drawerOf_parked hid] at h
  obtain ⟨t, ht, rfl⟩ := Option.map_eq_some_iff.mp h
  have hti : t.id = i := by simpa using List.find?_some ht
  subst hti
  exact List.mem_of_find?_eq_some ht

theorem drawerOf_of_mem (h : DrawersOk s) (ht : ⟨i, d⟩ ∈ s.tray) : drawerOf s i = some d := by
  have hmem : i ∈ s.tray.map TrayItem.id := List.mem_map_of_mem ht
  have hid : s.drawerId ≠ some i := by
    intro hid
    have hn := h.instances
    rw [mountedIds, hid] at hn
    exact (List.nodup_cons.mp hn).1 hmem
  have hn : (s.tray.map TrayItem.id).Nodup := (List.nodup_append.mp h.instances).2.1
  rw [drawerOf_parked hid, find_eq_some_of_mem hn ht]
  rfl

theorem drawerOf_congr {s' : Slice} (h : SameDrawers s s') : drawerOf s' i = drawerOf s i := by
  rw [drawerOf, drawerOf, h.drawer, h.drawerId, h.tray]

/-- What one action does to the history of the panel: its own move if it is shown, else nothing. -/
def Follows (i : String) (s : Slice) (a : PanelAct) : Prop :=
  ∀ e, drawerOf s i = some (.detail e) → ∃ e', drawerOf (act s a) i = some (.detail e') ∧
    history e' = (if s.drawerId = some i then moveOf a else none).toList.foldl (History.move detailHistoryCap) (history e)

/-- An action that makes no move, after which the instance has the same history. -/
theorem follows_of_still {a : PanelAct} (hmove : moveOf a = none)
    (h : ∀ d, drawerOf s i = some d → ∃ d', drawerOf (act s a) i = some d' ∧ SameHistory d d') : Follows i s a := by
  intro e he
  obtain ⟨d', hd', hsame⟩ := h _ he
  obtain ⟨e', rfl, hh⟩ := hsame e rfl
  refine ⟨e', hd', ?_⟩
  rw [hmove]
  split <;> exact hh

/-- An action on the detail that is shown. -/
theorem follows_onDetail {a : PanelAct} {f : DetailDrawer → DetailDrawer} {m : Move DetailRef} (hact : act s a = onDetail f s)
    (hmove : moveOf a = some m) (hf : ∀ d, trail (f d) = (trail d).move detailHistoryCap m) : Follows i s a := by
  intro e he
  rw [hact]
  by_cases hid : s.drawerId = some i
  · rw [drawerOf_shown hid] at he
    refine ⟨f e, ?_, ?_⟩
    · have hon : onDetail f s = { s with drawer := some (.detail (f e)) } := by
        unfold onDetail
        rw [he]
      rw [hon]
      exact if_pos hid
    · rw [if_pos hid, hmove]
      exact (congrArg Trail.history (hf e)).trans ((trail e).history_move detailHistoryCap m)
  · refine ⟨e, ?_, by rw [if_neg hid]; rfl⟩
    have hon : (onDetail f s).drawerId = s.drawerId ∧ (onDetail f s).tray = s.tray := by
      unfold onDetail
      split <;> exact ⟨rfl, rfl⟩
    rw [drawerOf, hon.1, hon.2, if_neg hid, ← drawerOf_parked hid]
    exact he

theorem parked_of_mem_trayWith {tray : List TrayItem} {d e : Drawer} {id : String}
    (hn : (tray.map TrayItem.id).Nodup) (hid : id ∉ tray.map TrayItem.id) (hi : i ∈ (trayWith tray e id).map TrayItem.id)
    (hd : (⟨i, d⟩ : TrayItem) ∈ tray) : (⟨i, d⟩ : TrayItem) ∈ trayWith tray e id := by
  obtain ⟨t, ht, hti⟩ := List.mem_map.mp hi
  have hmem : i ∈ tray.map TrayItem.id := List.mem_map.mpr ⟨_, hd, rfl⟩
  rcases mem_trayWith ht with hold | rfl
  · have hfound := find_eq_some_of_mem hn hold
    rw [hti] at hfound
    obtain rfl : t = ⟨i, d⟩ := Option.some.inj (hfound.symm.trans (find_eq_some_of_mem hn hd))
    exact ht
  · have hii : id = i := hti
    exact absurd (hii ▸ hmem) hid

/-- Hiding moves the shown drawer to the tray, and leaves those parked that the tray still holds. -/
theorem drawerOf_park (h : DrawersOk s) {e shown : Drawer} (uuid : String) (hshown : s.drawer = some shown)
    (hsame : SameHistory shown e) (hsize : historySize e ≤ detailHistoryCap) {s' : Slice}
    (hs' : s' = { s with drawer := none, drawerId := none, tray := trayWith s.tray e (s.drawerId.getD uuid) })
    (hi : i ∈ mountedIds s') (hd : drawerOf s i = some d) : ∃ d', drawerOf s' i = some d' ∧ SameHistory d d' := by
  subst hs'
  have hok := h.park uuid hshown hsize
  obtain ⟨id, hid⟩ : ∃ id, s.drawerId = some id := Option.isSome_iff_exists.mp (h.shown.trans (by rw [hshown]; rfl))
  have hn : (id :: s.tray.map TrayItem.id).Nodup := by
    have := h.instances
    rw [mountedIds, hid] at this
    exact this
  rw [hid, Option.getD_some] at hok hi ⊢
  have hi : i ∈ (trayWith s.tray e id).map TrayItem.id := hi
  by_cases hii : id = i
  · subst hii
    rw [drawerOf_shown hid, hshown] at hd
    obtain rfl := Option.some.inj hd
    obtain ⟨t, ht, htid⟩ := List.mem_map.mp hi
    rcases mem_trayWith ht with hold | rfl
    · exact absurd (htid ▸ List.mem_map_of_mem hold) (List.nodup_cons.mp hn).1
    · exact ⟨e, drawerOf_of_mem hok ht, hsame⟩
  · have hne : s.drawerId ≠ some i := fun he => hii (Option.some.inj (hid.symm.trans he))
    have hold := parked_of_drawerOf hne hd
    refine ⟨d, drawerOf_of_mem hok ?_, .refl d⟩
    exact parked_of_mem_trayWith (List.nodup_cons.mp hn).2 (List.nodup_cons.mp hn).1 hi hold

theorem follows_minimizeDrawer (h : DrawersOk s) (view : Option DetailView) (uuid : String)
    (hi : i ∈ mountedIds (minimizeDrawer s view uuid)) : Follows i s (.minimizeDrawer view uuid) := by
  refine follows_of_still rfl fun d hd => ?_
  simp only [act]
  cases hshown : s.drawer with
  | none =>
    have hmin : minimizeDrawer s view uuid = s := by rw [minimizeDrawer, hshown]
    rw [hmin]
    exact ⟨d, hd, .refl d⟩
  | some shown =>
    have hsize := h.histories shown hshown
    cases view with
    | none => exact drawerOf_park h _ hshown (.refl shown) hsize (by rw [minimizeDrawer, hshown]) hi hd
    | some v =>
      exact drawerOf_park h _ hshown (sameHistory_withView v shown) ((historySize_withView v shown).trans_le hsize)
        (by rw [minimizeDrawer, hshown]) hi hd

/-- The tray shrinks, and the instance is still mounted. -/
theorem drawerOf_shrink (h : DrawersOk s) {p : TrayItem → Bool} {s' : Slice} (hs' : s' = { s with tray := s.tray.filter p })
    (hi : i ∈ mountedIds s') (hd : drawerOf s i = some d) : drawerOf s' i = some d := by
  subst hs'
  by_cases hid : s.drawerId = some i
  · rw [drawerOf_shown hid] at hd
    exact (if_pos hid).trans hd
  · have hold := parked_of_drawerOf hid hd
    have hparked : i ∈ (s.tray.filter p).map TrayItem.id := by
      rcases List.mem_append.mp hi with hshown | hparked
      · exact absurd (Option.mem_toList.mp hshown) hid
      · exact hparked
    obtain ⟨t, ht, hti⟩ := List.mem_map.mp hparked
    have hn : (s.tray.map TrayItem.id).Nodup := (List.nodup_append.mp h.instances).2.1
    have hfound := find_eq_some_of_mem hn (List.mem_filter.mp ht).1
    rw [hti] at hfound
    obtain rfl : t = ⟨i, d⟩ := Option.some.inj (hfound.symm.trans (find_eq_some_of_mem hn hold))
    exact drawerOf_of_mem (h.shrink List.filter_sublist) ht

theorem drawerOf_saveParked (h : DrawersOk s) (instanceId key : String) (view : DetailView)
    (hd : drawerOf s i = some d) :
    ∃ d', drawerOf (saveDrawerView.saveParked instanceId key view s) i = some d' ∧ SameHistory d d' := by
  have hok := h.saveParked instanceId key view
  unfold saveDrawerView.saveParked at hok ⊢
  split
  · exact ⟨d, hd, .refl d⟩
  · rename_i j hj
    split
    · rename_i e he
      obtain ⟨t, ht, hrep⟩ := Option.bind_eq_some_iff.mp he
      rw [hj] at hok
      dsimp only at hok
      rw [he] at hok
      dsimp only at hok
      by_cases hid : s.drawerId = some i
      · rw [drawerOf_shown hid] at hd
        exact ⟨d, (if_pos hid).trans hd, .refl d⟩
      · have hold := parked_of_drawerOf hid hd
        obtain ⟨k, hk⟩ := List.mem_iff_getElem?.mp hold
        by_cases hjk : j = k
        · subst hjk
          obtain rfl : t = ⟨i, d⟩ := Option.some.inj (ht.symm.trans hk)
          refine ⟨e, drawerOf_of_mem hok (List.mem_of_getElem? (i := j) ?_), ?_⟩
          · simp [hk]
          · rw [reported_eq_some hrep]
            exact sameHistory_withView view d
        · refine ⟨d, drawerOf_of_mem hok (List.mem_of_getElem? (i := k) ?_), .refl d⟩
          simp [hk, hjk]
    · exact ⟨d, hd, .refl d⟩

theorem follows_saveDrawerView (h : DrawersOk s) (instanceId key : String) (view : DetailView) :
    Follows i s (.saveDrawerView instanceId key view) := by
  refine follows_of_still rfl fun d hd => ?_
  simp only [act, saveDrawerView]
  split
  · rename_i shown hshown
    split
    · rename_i hinst
      split
      · rename_i e he
        by_cases hid : s.drawerId = some i
        · rw [drawerOf_shown hid, hshown] at hd
          obtain rfl := Option.some.inj hd
          refine ⟨e, if_pos hid, ?_⟩
          rw [reported_eq_some he]
          exact sameHistory_withView view shown
        · refine ⟨d, ?_, .refl d⟩
          rw [← hd, drawerOf_parked hid]
          exact if_neg hid
      · exact ⟨d, hd, .refl d⟩
    · exact drawerOf_saveParked h instanceId key view hd
  · exact drawerOf_saveParked h instanceId key view hd

theorem follows_restoreTrayItem (h : DrawersOk s) (id uuid : String)
    (hi : i ∈ mountedIds (restoreTrayItem s id uuid)) : Follows i s (.restoreTrayItem id uuid) := by
  refine follows_of_still rfl fun d hd => ?_
  have hok := h.restoreTrayItem id uuid
  simp only [act] at hok ⊢
  unfold restoreTrayItem at hok hi ⊢
  cases hfind : s.tray.find? fun t => t.id == id with
  | none => exact ⟨d, hd, .refl d⟩
  | some item =>
    have hitem : item ∈ s.tray := List.mem_of_find?_eq_some hfind
    have hiid : item.id = id := by simpa using List.find?_some hfind
    rw [hfind] at hok hi
    dsimp only at hok hi ⊢
    have hn : (s.tray.map TrayItem.id).Nodup := (List.nodup_append.mp h.instances).2.1
    by_cases hii : item.id = i
    · -- The instance that is brought back.
      have hid : s.drawerId ≠ some i := by
        intro hid
        have hm := h.instances
        rw [mountedIds, hid] at hm
        exact (List.nodup_cons.mp hm).1 (hii ▸ List.mem_map_of_mem hitem)
      have hold := parked_of_drawerOf hid hd
      have hfound := find_eq_some_of_mem hn hitem
      rw [hii] at hfound
      obtain rfl : item = ⟨i, d⟩ := Option.some.inj (hfound.symm.trans (find_eq_some_of_mem hn hold))
      exact ⟨d, if_pos rfl, .refl d⟩
    · have hne : some item.id ≠ some i := fun he => hii (Option.some.inj he)
      have hrest : ∀ t ∈ s.tray, t.id = i → t ∈ s.tray.filter fun t => t.id ≠ id := fun t ht hti =>
        List.mem_filter.mpr ⟨ht, by simpa [hti, ← hiid] using fun he : i = item.id => hii he.symm⟩
      cases hshown : s.drawer with
      | none =>
        have hid : s.drawerId ≠ some i := fun hid => by
          have := h.shown
          rw [hid, hshown] at this
          cases this
        rw [hshown] at hok
        exact ⟨d, drawerOf_of_mem hok (hrest _ (parked_of_drawerOf hid hd) rfl), .refl d⟩
      | some shown =>
        rw [hshown] at hok hi
        have hshrunk := h.shrink (List.filter_sublist (p := fun t : TrayItem => t.id ≠ id) (l := s.tray))
        obtain ⟨d', hd', hsame⟩ := drawerOf_park (s := { s with tray := s.tray.filter fun t => t.id ≠ id })
          (i := i) (d := d) hshrunk uuid hshown (.refl shown) (h.histories shown hshown) rfl
          (by
            rcases List.mem_append.mp hi with hnew | hparked
            · exact absurd (Option.mem_toList.mp hnew) hne
            · exact List.mem_append_right _ hparked)
          (by
            by_cases hid : s.drawerId = some i
            · rw [drawerOf_shown hid] at hd
              exact (if_pos hid).trans hd
            · exact drawerOf_of_mem hshrunk (hrest _ (parked_of_drawerOf hid hd) rfl))
        refine ⟨d', ?_, hsame⟩
        rw [drawerOf_parked (by simp)] at hd'
        exact (if_neg hne).trans hd'

/-- One action, in a tab whose panels are in order. -/
theorem follows_act (h : PanelsOk s) {a : PanelAct} (hu : Undisturbed i s a) : Follows i s a := by
  have hsame : SameDrawers s (act s a) → moveOf a = none → Follows i s a := by
    intro hs' hmove
    refine follows_of_still hmove fun d hd => ⟨d, ?_, .refl d⟩
    rw [drawerOf_congr hs']
    exact hd
  have hmounted := hu.mounted
  cases a with
  | openDrawer d uuid =>
    refine follows_of_still rfl fun e he => ⟨e, ?_, .refl e⟩
    have hid := hu.kept d uuid rfl
    have hfresh : uuid ≠ i := by
      rintro rfl
      exact hu.permitted.1 (List.mem_append_right _ (List.mem_map_of_mem (parked_of_drawerOf hid he)))
    have hnew : some uuid ≠ some i := fun hs => hfresh (Option.some.inj hs)
    rw [← he, drawerOf_parked hid]
    simp only [act, openDrawer]
    split
    · split
      · exact if_neg hid
      · exact if_neg hnew
    · exact if_neg hnew
  | closeDrawer =>
    refine follows_of_still rfl fun d hd => ⟨d, ?_, .refl d⟩
    have hid : s.drawerId ≠ some i := by
      intro hid
      have hn := h.drawers.instances
      rw [mountedIds, hid] at hn
      exact (List.nodup_cons.mp hn).1 hmounted
    rw [← hd, drawerOf_parked hid]
    exact if_neg (by simp [act, closeDrawer])
  | minimizeDrawer view uuid => exact follows_minimizeDrawer h.drawers view uuid hmounted
  | restoreTrayItem id uuid => exact follows_restoreTrayItem h.drawers id uuid hmounted
  | closeTrayItem id =>
    exact follows_of_still rfl fun d hd => ⟨d, drawerOf_shrink h.drawers rfl hmounted hd, .refl d⟩
  | closeAllTrayItems =>
    refine follows_of_still rfl fun d hd => ⟨d, ?_, .refl d⟩
    exact drawerOf_shrink (p := fun _ => false) h.drawers (by simp [act, closeAllTrayItems]) hmounted hd
  | saveDrawerView instanceId key view => exact follows_saveDrawerView h.drawers instanceId key view
  | navigateDrawerDetail dest => exact follows_onDetail rfl rfl (trail_navigateDetail dest)
  | drawerDetailBack => exact follows_onDetail rfl rfl trail_detailBack
  | drawerDetailForward => exact follows_onDetail rfl rfl trail_detailForward
  | addDockTab tab => exact hsame ⟨rfl, rfl, rfl⟩ rfl
  | removeDockTabs ids => exact hsame (sameDrawers_removeDockTabs s ids) rfl
  | closeAllDockTabs => exact hsame ⟨rfl, rfl, rfl⟩ rfl
  | closeDockTabsByPlacement p => exact hsame (sameDrawers_removeDockTabs s _) rfl
  | setDockActiveId id =>
    refine hsame ?_ rfl
    simp only [act, setDockActiveId]
    split <;> exact ⟨rfl, rfl, rfl⟩
  | setDockMin p min => exact hsame ⟨rfl, rfl, rfl⟩ rfl
  | patchState id patch => exact hsame ⟨rfl, rfl, rfl⟩ rfl

/-! ## Runs -/

theorem history_run (i : String) {s t : Slice} {as : List PanelAct} {d : DetailDrawer} (hs : PanelsOk s)
    (hu : Meets panelStep (Undisturbed i) s as) (hrun : run panelStep s as = some t)
    (hd : drawerOf s i = some (.detail d)) :
    ∃ e, drawerOf t i = some (.detail e) ∧
      history e = (ownMoves i s as).foldl (History.move detailHistoryCap) (history d) := by
  induction as generalizing s d with
  | nil =>
    cases hrun
    exact ⟨d, hd, rfl⟩
  | cons a as ih =>
    obtain ⟨u, hstep, hrest⟩ := run_cons_eq_some.mp hrun
    cases hstep
    obtain ⟨e, he, hh⟩ := follows_act hs hu.1 d hd
    obtain ⟨e', he', hh'⟩ := ih (panelsOk_act hs a hu.1.permitted) (hu.2 _ rfl) hrest he
    refine ⟨e', he', ?_⟩
    rw [ownMoves, List.foldl_append, hh', hh]

theorem length_history (h : DrawersOk s) {d : DetailDrawer} (hd : drawerOf s i = some (.detail d)) :
    (history d).entries.length ≤ detailHistoryCap + 1 := by
  have hsize : historySize (.detail d) ≤ detailHistoryCap := by
    by_cases hid : s.drawerId = some i
    · rw [drawerOf_shown hid] at hd
      exact h.histories _ hd
    · exact h.parkedHistories _ (parked_of_drawerOf hid hd)
  simp only [historySize] at hsize
  simp only [history, trail, Trail.history, List.length_append, List.length_cons]
  omega

/-- A detail with one page behind it is shown, and logs are parked. -/
def twoPanels : Slice := { emptyScopeSlice with
  drawer := some (.detail
    { kindId := "p", clusterId := "c", uid := "2", ns := none, name := "b", view := none
      back := some [⟨"p", "c", "1", none, "a"⟩], forward := none })
  drawerId := some "i"
  tray := [⟨"j", .logs [] none none⟩] }

/-- Back, hidden behind the logs, restored, and forward. -/
def hideAndRestore : List PanelAct :=
  [.drawerDetailBack, .restoreTrayItem "j" "k", .restoreTrayItem "i" "k", .drawerDetailForward]

theorem panelsOk_twoPanels : PanelsOk twoPanels where
  drawers := by
    refine ⟨rfl, by decide, List.nodup_singleton _, by decide, ?_, ?_⟩
    · intro d hd
      cases hd
      decide
    · intro t ht
      rw [List.mem_singleton.mp ht]
      decide
  docks := ⟨List.nodup_nil, fun p => by cases p <;> exact fun _ ht => (nomatch ht)⟩

theorem undisturbed_hideAndRestore : Meets panelStep (Undisturbed "i") twoPanels hideAndRestore := by
  refine ⟨⟨trivial, by decide, fun _ _ h => nomatch h⟩, ?_⟩
  rintro s ⟨⟩
  refine ⟨⟨trivial, by decide, fun _ _ h => nomatch h⟩, ?_⟩
  rintro s ⟨⟩
  refine ⟨⟨trivial, by decide, fun _ _ h => nomatch h⟩, ?_⟩
  rintro s ⟨⟩
  refine ⟨⟨trivial, by decide, fun _ _ h => nomatch h⟩, ?_⟩
  rintro s ⟨⟩
  trivial

end FerrisScope.PanelHistories
