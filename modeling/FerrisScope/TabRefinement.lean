import FerrisScope.ClusterTabs

/-!
# The store as independent tabs

The live fields, the stashed slices and the copying between them stand for something simpler: a list of tabs,
each with its own anchors and its own slice, of which one is active. Every operation of the store is that operation on the
list, so that no operation on one tab is seen in another.
-/

namespace FerrisScope.TabRefinement
open ClusterTabs LabelledRuns

variable {P : Payload}

/-! ## The abstract store -/

/-- Tabs that hold their own state. -/
structure TabList (P : Payload) where
  tabs : List (ClusterTab P)
  active : Option String
  virtualContexts : List VirtualContext
  kinds : List String

/-- What an edit of the active tab can see and change. -/
structure Scope (P : Payload) where
  scopeExtras : List String
  slice : ScopeSlice P

inductive TabOp (P : Payload) where
  | openTab (anchor : Anchor) (uuid : String)
  | switchTab (id : String)
  | closeTab (id : String)
  | setContexts (cs : List String)
  | deleteVirtualContext (id : String)
  | goFleet
  | edit (f : Scope P → Scope P)

namespace TabList
variable (v : TabList P)

/-- The neighbour of a closed active tab becomes active. -/
def close (closeIds : List String) : TabList P :=
  let remaining := v.tabs.filter fun t => t.id ∉ closeIds
  match v.active with
  | none => { v with tabs := remaining }
  | some active =>
    if active ∉ closeIds then { v with tabs := remaining }
    else
      let oldIdx := (v.tabs.findIdx? (·.id == active)).getD 0
      match remaining[min oldIdx (remaining.length - 1)]? with
      | none => { v with tabs := [], active := none }
      | some next => { v with tabs := remaining, active := some next.id }

def resolves : Anchor → Bool
  | .context _ => true
  | .virtual virtualId => v.virtualContexts.any (·.id == virtualId)

def newTab (anchor : Anchor) (uuid : String) : ClusterTab P where
  id := uuid
  selectedContext := match anchor with
    | .context contextId => some contextId
    | .virtual _ => none
  selectedVirtualContextId := match anchor with
    | .context _ => none
    | .virtual virtualId => some virtualId
  scopeExtras := []
  slice := { emptyScopeSlice with selectedKindId := v.kinds.head? }

/-- Whether the anchor of the tab resolves, or it holds dock tabs. -/
def alive (cs : List String) (t : ClusterTab P) : Bool :=
  if cs = [] ∨ t.slice.dockTabs.length > 0 then true
  else
    match t.selectedVirtualContextId.filter (· ≠ "") with
    | some vid =>
      match v.virtualContexts.find? (·.id == vid) with
      | none => false
      | some vc => vc.members.any (· ∈ cs)
    | none =>
      match t.selectedContext with
      | none => true
      | some c => decide (c ∈ cs)

/-- Contexts that are gone widen no scope. -/
def prune (cs : List String) : TabList P :=
  { v with tabs := v.tabs.map fun t => { t with scopeExtras := t.scopeExtras.filter (· ∈ cs) } }

def perform : TabOp P → TabList P
  | .openTab anchor uuid =>
    match v.tabs.find? anchor.matches with
    | some existing => { v with active := some existing.id }
    | none =>
      if v.resolves anchor then { v with tabs := v.tabs ++ [v.newTab anchor uuid], active := some uuid } else v
  | .switchTab id => if v.tabs.any fun t => t.id = id then { v with active := some id } else v
  | .closeTab id => v.close [id]
  | .setContexts cs => (v.prune cs).close (((v.prune cs).tabs.filter fun t => !v.alive cs t).map (·.id))
  | .deleteVirtualContext id =>
    TabList.close { v with virtualContexts := v.virtualContexts.filter (·.id ≠ id) }
      ((v.tabs.filter fun t => t.selectedVirtualContextId = some id).map (·.id))
  | .goFleet => { v with tabs := [], active := none }
  | .edit f => { v with tabs := v.tabs.map fun t =>
      if v.active = some t.id then
        { t with scopeExtras := (f ⟨t.scopeExtras, t.slice⟩).scopeExtras, slice := (f ⟨t.scopeExtras, t.slice⟩).slice }
      else t }

end TabList

/-! ## The store and its tabs -/

/-- The tabs that the store stands for. -/
def view (s : AppState P) : TabList P := ⟨stashActive s, s.activeTabId, s.virtualContexts, s.kinds⟩

/-- An edit of the live fields. -/
def editLive (f : Scope P → Scope P) (s : AppState P) : AppState P :=
  { spreadSlice s (f ⟨s.scopeExtras, captureScopeSlice s⟩).slice with
    scopeExtras := (f ⟨s.scopeExtras, captureScopeSlice s⟩).scopeExtras }

def TabOp.toOp : TabOp P → Op P
  | .openTab anchor uuid => .openTab anchor uuid
  | .switchTab id => .switchTab id
  | .closeTab id => .closeTab id
  | .setContexts cs => .setContexts cs
  | .deleteVirtualContext id => .deleteVirtualContext id
  | .goFleet => .goFleet
  | .edit f => .edit (editLive f)

/-- The anchors kept in the list for the active tab are the live ones. -/
def AnchorsAgree (s : AppState P) : Prop :=
  ∀ t ∈ s.openTabs, s.activeTabId = some t.id →
    t.selectedContext = s.selectedContext ∧ t.selectedVirtualContextId = s.selectedVirtualContextId

structure WellKept (s : AppState P) : Prop where
  coherent : Coherent s
  anchors : AnchorsAgree s

variable {s : AppState P}

theorem stashActive_none (ha : s.activeTabId = none) : stashActive s = s.openTabs := by
  rw [stashActive, ha]

theorem stashActive_some {active : String} (ha : s.activeTabId = some active) :
    stashActive s = s.openTabs.map fun t => if t.id = active then stashTab s t else t := by
  rw [stashActive, ha]

theorem TabList.close_nil (v : TabList P) : v.close [] = v := by
  have hall : (v.tabs.filter fun t => t.id ∉ ([] : List String)) = v.tabs := by simp
  unfold TabList.close
  rw [hall]
  cases v with
  | mk tabs active virtualContexts kinds =>
    cases active with
    | none => rfl
    | some active => exact if_pos List.not_mem_nil

theorem stashTab_stashTab (s : AppState P) (t : ClusterTab P) : stashTab s (stashTab s t) = stashTab s t := rfl

theorem mem_stashActive {t : ClusterTab P} (ht : t ∈ stashActive s) (ha : s.activeTabId = some t.id) :
    stashTab s t = t := by
  rw [stashActive, ha] at ht
  obtain ⟨u, hu, hut⟩ := List.mem_map.mp ht
  split_ifs at hut with hid
  · rw [← hut, stashTab_stashTab]
  · exact absurd (congrArg ClusterTab.id hut) hid

theorem stashActive_of_fixed (h : ∀ t ∈ s.openTabs, s.activeTabId = some t.id → stashTab s t = t) :
    stashActive s = s.openTabs := by
  unfold stashActive
  split
  · rfl
  · rename_i active hactive
    refine (List.map_congr_left fun t ht => ?_).trans (List.map_id _)
    split
    · rename_i hid
      exact h t ht (hid ▸ hactive)
    · rfl

theorem stashActive_focusTab {tabs : List (ClusterTab P)} {t : ClusterTab P} (hn : (tabs.map (·.id)).Nodup)
    (ht : t ∈ tabs) : stashActive (focusTab s tabs t) = tabs := by
  refine stashActive_of_fixed fun u hu hid => ?_
  have hsame : t.id = u.id := Option.some.inj hid
  obtain rfl := List.inj_on_of_nodup_map hn ht hu hsame
  rfl

theorem nodup_stashActive (h : Coherent s) : ((stashActive s).map (·.id)).Nodup := by
  rw [ids_stashActive]
  exact h.nodup

theorem nodup_filter {tabs : List (ClusterTab P)} (hn : (tabs.map (·.id)).Nodup) (p : ClusterTab P → Bool) :
    ((tabs.filter p).map (·.id)).Nodup := hn.sublist (List.filter_sublist.map _)

/-- The active tab is found in the list with its live anchors. -/
theorem anchors_stashActive (h : AnchorsAgree s) :
    List.Forall₂ (fun t u => t.id = u.id ∧ t.selectedContext = u.selectedContext ∧
      t.selectedVirtualContextId = u.selectedVirtualContextId) s.openTabs (stashActive s) := by
  unfold stashActive
  split
  · exact List.forall₂_same.mpr fun t _ => ⟨rfl, rfl, rfl⟩
  · rename_i active hactive
    refine List.forall₂_map_right_iff.mpr (List.forall₂_same.mpr fun t ht => ?_)
    split
    · rename_i hid
      obtain ⟨hc, hv⟩ := h t ht (hid ▸ hactive)
      exact ⟨rfl, hc, hv⟩
    · exact ⟨rfl, rfl, rfl⟩

theorem find_congr {p : ClusterTab P → Bool} {tabs tabs' : List (ClusterTab P)}
    (h : List.Forall₂ (fun t u => t.id = u.id ∧ p t = p u) tabs tabs') :
    (tabs.find? p).map (·.id) = (tabs'.find? p).map (·.id) := by
  induction h with
  | nil => rfl
  | cons hab _ ih =>
    rw [List.find?_cons, List.find?_cons, hab.2]
    split
    · exact congrArg some hab.1
    · exact ih

theorem anchorsAgree_of_fixed (h : ∀ t ∈ s.openTabs, s.activeTabId = some t.id → stashTab s t = t) : AnchorsAgree s := by
  intro t ht ha
  have hfix := h t ht ha
  exact ⟨(congrArg ClusterTab.selectedContext hfix).symm, (congrArg ClusterTab.selectedVirtualContextId hfix).symm⟩

theorem fixed_focusTab {tabs : List (ClusterTab P)} {t : ClusterTab P} (hn : (tabs.map (·.id)).Nodup) (ht : t ∈ tabs) :
    ∀ u ∈ (focusTab s tabs t).openTabs, (focusTab s tabs t).activeTabId = some u.id → stashTab (focusTab s tabs t) u = u := by
  intro u hu hid
  obtain rfl := List.inj_on_of_nodup_map hn ht hu (Option.some.inj hid)
  rfl

/-- Closing tabs, from a list in which the live state is stashed. -/
theorem focusAfterClose_refines (before : AppState P) {stashed : List (ClusterTab P)} (closeIds : List String)
    (hn : (stashed.map (·.id)).Nodup) (hactive : s.activeTabId = before.activeTabId)
    (hlive : ∀ t ∈ stashed, s.activeTabId = some t.id → t.id ∉ closeIds → stashTab s t = t) :
    view (focusAfterClose s before stashed closeIds) =
        (TabList.close ⟨stashed, before.activeTabId, s.virtualContexts, s.kinds⟩ closeIds) ∧
      AnchorsAgree (focusAfterClose s before stashed closeIds) := by
  have hkept : ∀ t ∈ stashed.filter fun t => t.id ∉ closeIds, s.activeTabId = some t.id → stashTab s t = t := by
    intro t ht ha
    obtain ⟨hmem, hopen⟩ := List.mem_filter.mp ht
    exact hlive t hmem ha (by simpa using hopen)
  have hfix : ∀ t ∈ ({ s with openTabs := stashed.filter fun t => t.id ∉ closeIds } : AppState P).openTabs,
      ({ s with openTabs := stashed.filter fun t => t.id ∉ closeIds } : AppState P).activeTabId = some t.id →
      stashTab { s with openTabs := stashed.filter fun t => t.id ∉ closeIds } t = t := hkept
  unfold focusAfterClose TabList.close
  dsimp only
  cases hb : before.activeTabId with
  | none =>
    rw [hb] at hactive
    refine ⟨?_, anchorsAgree_of_fixed hfix⟩
    rw [view, stashActive_of_fixed hfix]
    exact congrArg (TabList.mk _ · _ _) hactive
  | some active =>
    rw [hb] at hactive
    dsimp only
    split_ifs with hclosed
    · cases hnext : (stashed.filter fun t => t.id ∉ closeIds)[min ((stashed.findIdx? (·.id == active)).getD 0)
          ((stashed.filter fun t => t.id ∉ closeIds).length - 1)]? with
      | none => exact ⟨rfl, fun t ht => (nomatch ht)⟩
      | some next =>
        have hmem := List.mem_of_getElem? hnext
        have hns := nodup_filter hn fun t => decide (t.id ∉ closeIds)
        refine ⟨?_, anchorsAgree_of_fixed (fixed_focusTab hns hmem)⟩
        rw [view, stashActive_focusTab hns hmem]
        rfl
    · refine ⟨?_, anchorsAgree_of_fixed hfix⟩
      rw [view, stashActive_of_fixed hfix]
      exact congrArg (TabList.mk _ · _ _) hactive

/-! ## The operations -/

theorem switchToTab_refines (h : WellKept s) (id : String) :
    view (switchToTab s id) = (view s).perform (.switchTab id) ∧ AnchorsAgree (switchToTab s id) := by
  have hany : ((stashActive s).any fun t => t.id = id) = true ↔ id ∈ tabIds s := by
    rw [← ids_stashActive, List.any_eq_true]
    simp
  simp only [TabList.perform, view, hany]
  by_cases hactive : s.activeTabId = some id
  · rw [switchToTab, if_pos hactive, if_pos (h.coherent.active id hactive), hactive]
    exact ⟨rfl, h.anchors⟩
  · cases hfind : s.openTabs.find? (·.id == id) with
    | none =>
      have hclosed : id ∉ tabIds s := by
        intro hmem
        obtain ⟨t, ht, hid⟩ := List.mem_map.mp hmem
        exact absurd hid (by simpa using List.find?_eq_none.mp hfind t ht)
      have hstay : switchToTab s id = s := by simp [switchToTab, hactive, hfind]
      rw [hstay, if_neg hclosed]
      exact ⟨rfl, h.anchors⟩
    | some target =>
      have hid : target.id = id := by simpa using List.find?_some hfind
      have hopen : target ∈ s.openTabs := List.mem_of_find?_eq_some hfind
      have hstashed : target ∈ stashActive s := by
        unfold stashActive
        split
        · exact hopen
        · rename_i active ha
          have hne : target.id ≠ active := fun he => hactive (by rw [ha, ← he, hid])
          exact List.mem_map.mpr ⟨target, hopen, if_neg hne⟩
      have hn := nodup_stashActive h.coherent
      have hfocus : switchToTab s id = focusTab s (stashActive s) target := by simp [switchToTab, hactive, hfind]
      rw [hfocus, if_pos (hid ▸ List.mem_map_of_mem hopen), stashActive_focusTab hn hstashed]
      refine ⟨?_, anchorsAgree_of_fixed (fixed_focusTab hn hstashed)⟩
      rw [active_focusTab, hid]
      rfl

theorem openTab_refines (h : WellKept s) (anchor : Anchor) {uuid : String} (hfresh : uuid ∉ tabIds s) :
    view (openTab s anchor uuid) = (view s).perform (.openTab anchor uuid) ∧ AnchorsAgree (openTab s anchor uuid) := by
  have hsame : (s.openTabs.find? anchor.matches).map (·.id) = ((stashActive s).find? anchor.matches).map (·.id) := by
    refine find_congr ((anchors_stashActive h.anchors).imp fun t u htu => ⟨htu.1, ?_⟩)
    cases anchor <;> simp only [Anchor.matches, htu.2.1, htu.2.2]
  unfold openTab
  rw [TabList.perform]
  cases hfind : s.openTabs.find? anchor.matches with
  | some existing =>
    rw [hfind, Option.map_some] at hsame
    obtain ⟨u, hu, hid⟩ := Option.map_eq_some_iff.mp hsame.symm
    have hmem : existing.id ∈ tabIds s := List.mem_map_of_mem (List.mem_of_find?_eq_some hfind)
    have hswitch := switchToTab_refines h existing.id
    have hany : ((view s).tabs.any fun t => t.id = existing.id) = true := by
      rw [← ids_stashActive] at hmem
      obtain ⟨t, ht, hte⟩ := List.mem_map.mp hmem
      exact List.any_eq_true.mpr ⟨t, ht, by simpa using hte⟩
    rw [TabList.perform, if_pos hany] at hswitch
    rw [show (view s).tabs.find? anchor.matches = some u from hu]
    dsimp only
    rw [hid]
    exact hswitch
  | none =>
    rw [hfind, Option.map_none] at hsame
    have hu : (view s).tabs.find? anchor.matches = none := Option.map_eq_none_iff.mp hsame.symm
    rw [hu]
    dsimp only
    have hres : (view s).resolves anchor = resolves s anchor := by cases anchor <;> rfl
    rw [hres]
    split_ifs with hr
    · have hnew : (view s).newTab anchor uuid = newTab s anchor uuid := by cases anchor <;> rfl
      have hn : ((stashActive s ++ [newTab s anchor uuid]).map (·.id)).Nodup := by
        rw [List.map_append, ids_stashActive]
        exact (List.perm_append_singleton _ _).nodup_iff.mpr (List.nodup_cons.mpr ⟨hfresh, h.coherent.nodup⟩)
      have hmem : newTab s anchor uuid ∈ stashActive s ++ [newTab s anchor uuid] :=
        List.mem_append_right _ (List.mem_singleton_self _)
      refine ⟨?_, anchorsAgree_of_fixed (fixed_focusTab hn hmem)⟩
      rw [view, stashActive_focusTab hn hmem, hnew]
      rfl
    · exact ⟨rfl, h.anchors⟩

/-- The stashed tabs without the contexts that are gone. -/
def prunedTabs (s : AppState P) (cs : List String) : List (ClusterTab P) :=
  (stashActive s).map fun tab => { tab with scopeExtras := tab.scopeExtras.filter (· ∈ cs) }

def deadTabs (s : AppState P) (cs : List String) : List String :=
  ((prunedTabs s cs).filter fun tab =>
    !tabAlive s cs tab.selectedContext tab.selectedVirtualContextId tab.slice.dockTabs).map (·.id)

/-- The store with the new contexts, before tabs are closed. -/
def withContexts (s : AppState P) (cs : List String) : AppState P :=
  let mirrorAlive := tabAlive s cs s.selectedContext s.selectedVirtualContextId s.dockTabs
  { s with
    contexts := cs
    contextsStatus := .ready
    contextsError := none
    selectedContext := if mirrorAlive then s.selectedContext else none
    selectedVirtualContextId := if mirrorAlive then s.selectedVirtualContextId else none
    scopeExtras := if mirrorAlive then s.scopeExtras.filter (· ∈ cs) else [] }

theorem setContexts_eq (s : AppState P) (cs : List String) : setContexts s cs =
    match s.activeTabId with
    | none => { withContexts s cs with openTabs := (prunedTabs s cs).filter fun tab => tab.id ∉ deadTabs s cs }
    | some _ => focusAfterClose (withContexts s cs) s (prunedTabs s cs) (deadTabs s cs) := rfl

theorem ids_prunedTabs (s : AppState P) (cs : List String) : (prunedTabs s cs).map (·.id) = tabIds s := by
  rw [prunedTabs, List.map_map]
  exact ids_stashActive s

/-- The live fields of a tab that stays are those of its pruned entry. -/
theorem stashTab_withContexts {cs : List String} {t : ClusterTab P} (ht : t ∈ prunedTabs s cs)
    (hactive : s.activeTabId = some t.id) (hopen : t.id ∉ deadTabs s cs) : stashTab (withContexts s cs) t = t := by
  have halive : tabAlive s cs t.selectedContext t.selectedVirtualContextId t.slice.dockTabs = true := by
    by_contra hdead
    exact hopen (List.mem_map_of_mem (List.mem_filter.mpr ⟨ht, by simpa using hdead⟩))
  obtain ⟨u, hu, rfl⟩ := List.mem_map.mp ht
  have hstash : stashTab s u = u := mem_stashActive hu hactive
  have hlive : tabAlive s cs s.selectedContext s.selectedVirtualContextId s.dockTabs = true := by
    rw [← hstash] at halive
    exact halive
  rw [← hstash]
  simp only [withContexts, hlive, if_true]
  rfl

theorem setContexts_refines (h : WellKept s) (cs : List String) :
    view (setContexts s cs) = (view s).perform (.setContexts cs) ∧ AnchorsAgree (setContexts s cs) := by
  have hdead : ((view s).prune cs).tabs.filter (fun t => !(view s).alive cs t) =
      (prunedTabs s cs).filter fun tab =>
        !tabAlive s cs tab.selectedContext tab.selectedVirtualContextId tab.slice.dockTabs := rfl
  rw [setContexts_eq, TabList.perform, hdead]
  cases ha : s.activeTabId with
  | none =>
    have hnone : (withContexts s cs).activeTabId = none := ha
    refine ⟨?_, fun t _ hactive => absurd (hnone.symm.trans hactive) (by simp)⟩
    rw [TabList.close, show ((view s).prune cs).active = none from ha]
    simp only [view, stashActive, hnone, TabList.prune]
    rfl
  | some active =>
    obtain ⟨hv, hagree⟩ := focusAfterClose_refines (s := withContexts s cs) s (deadTabs s cs)
      ((ids_prunedTabs s cs).symm ▸ h.coherent.nodup) rfl fun t ht hid hopen => stashTab_withContexts ht hid hopen
    exact ⟨hv, hagree⟩

theorem deleteVirtualContext_refines (h : WellKept s) (id : String) :
    view (deleteVirtualContext s id) = (view s).perform (.deleteVirtualContext id) ∧
      AnchorsAgree (deleteVirtualContext s id) := by
  have hids : ∀ {tabs tabs' : List (ClusterTab P)}, List.Forall₂ (fun t u => t.id = u.id ∧
      t.selectedContext = u.selectedContext ∧ t.selectedVirtualContextId = u.selectedVirtualContextId) tabs tabs' →
      (tabs.filter fun t => t.selectedVirtualContextId = some id).map (·.id) =
        (tabs'.filter fun t => t.selectedVirtualContextId = some id).map (·.id) := by
    intro tabs tabs' hall
    induction hall with
    | nil => rfl
    | cons htu _ ih =>
      rw [List.filter_cons, List.filter_cons, htu.2.2]
      split
      · rw [List.map_cons, List.map_cons, htu.1, ih]
      · exact ih
  have hlive : ∀ t ∈ stashActive s, s.activeTabId = some t.id → stashTab s t = t := fun t ht ha => mem_stashActive ht ha
  obtain ⟨hv, hagree⟩ := focusAfterClose_refines
    (s := { s with virtualContexts := s.virtualContexts.filter (·.id ≠ id) }) s
    ((s.openTabs.filter fun t => t.selectedVirtualContextId = some id).map (·.id)) (nodup_stashActive h.coherent) rfl
    fun t ht ha _ => hlive t ht ha
  have hclose : (view s).perform (.deleteVirtualContext id) = view (focusAfterClose
      { s with virtualContexts := s.virtualContexts.filter (·.id ≠ id) } s (stashActive s)
      ((s.openTabs.filter fun t => t.selectedVirtualContextId = some id).map (·.id))) := by
    rw [hv, TabList.perform, hids (anchors_stashActive h.anchors)]
    rfl
  unfold deleteVirtualContext
  dsimp only
  split_ifs with hnil
  · refine ⟨?_, h.anchors⟩
    rw [TabList.perform, ← show (s.openTabs.filter fun t => t.selectedVirtualContextId = some id).map (·.id) =
      ((view s).tabs.filter fun t => t.selectedVirtualContextId = some id).map (·.id) from
        hids (anchors_stashActive h.anchors), hnil]
    exact (TabList.close_nil _).symm
  · exact ⟨hclose.symm, hagree⟩

theorem edit_refines (h : WellKept s) (f : Scope P → Scope P) :
    view (editLive f s) = (view s).perform (.edit f) ∧ AnchorsAgree (editLive f s) := by
  refine ⟨?_, h.anchors⟩
  have htabs : stashActive (editLive f s) = ((view s).perform (.edit f)).tabs := by
    rcases Option.eq_none_or_eq_some s.activeTabId with ha | ⟨active, ha⟩
    · rw [stashActive_none (show (editLive f s).activeTabId = none from ha)]
      simp only [TabList.perform, view, ha, stashActive_none ha, reduceCtorEq, if_false, List.map_id']
      rfl
    · rw [stashActive_some (show (editLive f s).activeTabId = some active from ha)]
      simp only [TabList.perform, view, ha, stashActive_some ha, List.map_map]
      refine List.map_congr_left fun t _ => ?_
      by_cases hid : t.id = active
      · simp only [Function.comp_apply, if_pos hid]
        rw [if_pos (by rw [← hid]; rfl)]
        rfl
      · simp only [Function.comp_apply, if_neg hid]
        rw [if_neg fun he => hid (Option.some.inj he).symm]
  rw [view, htabs]
  rfl

/-! ## Runs -/

def step (s : AppState P) (op : TabOp P) : Option (AppState P) := ClusterTabs.step s op.toOp

/-- A tab id that is made is not in use. -/
def Fresh (s : AppState P) (op : TabOp P) : Prop := Permitted s op.toOp

theorem perform_refines (h : WellKept s) (op : TabOp P) (hfresh : Fresh s op) :
    view (perform s op.toOp) = (view s).perform op ∧ WellKept (perform s op.toOp) := by
  have hc : Coherent (perform s op.toOp) := coherent_step s op.toOp _ hfresh h.coherent rfl
  have hview : view (perform s op.toOp) = (view s).perform op ∧ AnchorsAgree (perform s op.toOp) := by
    cases op with
    | openTab anchor uuid => exact openTab_refines h anchor hfresh
    | switchTab id => exact switchToTab_refines h id
    | closeTab id =>
      exact focusAfterClose_refines s [id] (nodup_stashActive h.coherent) rfl fun t ht ha _ => mem_stashActive ht ha
    | setContexts cs => exact setContexts_refines h cs
    | deleteVirtualContext id => exact deleteVirtualContext_refines h id
    | goFleet => exact ⟨rfl, fun t ht => (nomatch ht)⟩
    | edit f => exact edit_refines h f
  exact ⟨hview.1, hc, hview.2⟩

/-- In every run the store stands for the tabs that the same operations lead to on the list of independent tabs, and
what is live is what the active tab holds. -/
theorem tabs_refine (s₀ s : AppState P) (ops : List (TabOp P)) (hs₀ : WellKept s₀) (hp : Meets step Fresh s₀ ops)
    (hrun : run step s₀ ops = some s) :
    view s = ops.foldl TabList.perform (view s₀) ∧
      ∀ a, s.activeTabId = some a → ∃ t ∈ (ops.foldl TabList.perform (view s₀)).tabs, t.id = a ∧
        t.selectedContext = s.selectedContext ∧ t.selectedVirtualContextId = s.selectedVirtualContextId ∧
        t.scopeExtras = s.scopeExtras ∧ t.slice = captureScopeSlice s := by
  have hrefine : view s = ops.foldl TabList.perform (view s₀) ∧ WellKept s := by
    induction ops generalizing s₀ with
    | nil =>
      cases hrun
      exact ⟨rfl, hs₀⟩
    | cons op ops ih =>
      obtain ⟨u, hstep, hrest⟩ := run_cons_eq_some.mp hrun
      cases hstep
      obtain ⟨hv, hkept⟩ := perform_refines hs₀ op hp.1
      rw [List.foldl_cons, ← hv]
      exact ih _ hkept (hp.2 _ rfl) hrest
  obtain ⟨hv, hkept⟩ := hrefine
  refine ⟨hv, fun a ha => ?_⟩
  rw [← hv]
  obtain ⟨t, ht, hid⟩ := find_stashActive ha (hkept.coherent.active a ha)
  exact ⟨stashTab s t, List.mem_of_find?_eq_some ht, hid, rfl, rfl, rfl, rfl⟩

theorem wellKept_initialState (P : Payload) : WellKept (initialState P) where
  coherent := coherent_initialState P
  anchors _ ht := nomatch ht

/-- A filter is typed in one tab, a second is opened and closed. -/
def filterKept : List (TabOp unitPayload) :=
  [.openTab (.context "a") "1", .edit fun r => { r with slice := { r.slice with tableFilter := "web" } },
   .openTab (.context "b") "2", .closeTab "2"]

theorem fresh_filterKept : Meets step Fresh (initialState unitPayload) filterKept := by
  refine ⟨show "1" ∉ tabIds _ by decide, ?_⟩
  rintro s ⟨⟩
  refine ⟨⟨rfl, rfl⟩, ?_⟩
  rintro s ⟨⟩
  refine ⟨show "2" ∉ tabIds _ by decide, ?_⟩
  rintro s ⟨⟩
  refine ⟨trivial, ?_⟩
  rintro s ⟨⟩
  trivial

theorem tabs_refine_filterKept :
    ((filterKept.foldl TabList.perform (view (initialState unitPayload))).tabs.map fun t => t.slice.tableFilter) = ["web"] ∧
      view (filterKept.foldl (fun s op => perform s op.toOp) (initialState unitPayload)) =
        filterKept.foldl TabList.perform (view (initialState unitPayload)) :=
  ⟨rfl, (tabs_refine _ _ filterKept (wellKept_initialState unitPayload) fresh_filterKept rfl).1⟩

end FerrisScope.TabRefinement
