import FerrisScope.KeyedWrites
import FerrisScope.LabelledRuns

/-!
# Cluster tabs of the UI store

The state of the active tab lives at the top level of the store, field by field. The other tabs
keep theirs in a slice. Switching writes the top level back into the list of tabs and copies
the target's slice out, closing focuses a neighbour, and contexts that disappear close tabs. What
the tabs hold besides is left open in `Payload`.
-/

namespace FerrisScope.ClusterTabs
open KeyedWrites LabelledRuns

/-- The types of what the store keeps for a tab and never looks into here. -/
structure Payload where
  SelectionMeta : Type
  DetailEntry : Type
  Drawer : Type
  TrayItem : Type
  DockTab : Type
  Offset : Type

structure ByPlacement (α : Type) where
  bottom : α
  right : α

structure ScopeSlice (P : Payload) where
  selectedKindId : Option String
  selectedNamespaces : List String
  selection : List (String × P.SelectionMeta)
  pendingDetail : Option P.DetailEntry
  tableFilter : String
  filterEditing : Bool
  focusedClusterId : Option String
  kindClusters : Table String (List String)
  dockTabs : List P.DockTab
  dockActive : ByPlacement (Option String)
  dockMin : ByPlacement Bool
  drawer : Option P.Drawer
  drawerId : Option String
  tray : List P.TrayItem
  tableScroll : Table String P.Offset

structure ClusterTab (P : Payload) where
  id : String
  selectedContext : Option String
  selectedVirtualContextId : Option String
  scopeExtras : List String
  slice : ScopeSlice P

structure VirtualContext where
  id : String
  name : String
  members : List String
  deriving DecidableEq, Repr

inductive Status where
  | idle | loading | ready | error
  deriving DecidableEq, Repr

/-- The part of the store that tabs are about; `contexts` and `kinds` are kept as their ids. -/
structure AppState (P : Payload) where
  contexts : List String
  contextsStatus : Status
  contextsError : Option String
  selectedContext : Option String
  openTabs : List (ClusterTab P)
  activeTabId : Option String
  virtualContexts : List VirtualContext
  selectedVirtualContextId : Option String
  scopeExtras : List String
  kinds : List String
  selectedKindId : Option String
  selectedNamespaces : List String
  selection : List (String × P.SelectionMeta)
  pendingDetail : Option P.DetailEntry
  tableFilter : String
  filterEditing : Bool
  focusedClusterId : Option String
  kindClusters : Table String (List String)
  dockTabs : List P.DockTab
  dockActive : ByPlacement (Option String)
  dockMin : ByPlacement Bool
  drawer : Option P.Drawer
  drawerId : Option String
  tray : List P.TrayItem
  tableScroll : Table String P.Offset

variable {P : Payload}

def emptyScopeSlice : ScopeSlice P where
  selectedKindId := none
  selectedNamespaces := []
  selection := []
  pendingDetail := none
  tableFilter := ""
  filterEditing := false
  focusedClusterId := none
  kindClusters := ∅
  dockTabs := []
  dockActive := ⟨none, none⟩
  dockMin := ⟨false, false⟩
  drawer := none
  drawerId := none
  tray := []
  tableScroll := ∅

def captureScopeSlice (s : AppState P) : ScopeSlice P where
  selectedKindId := s.selectedKindId
  selectedNamespaces := s.selectedNamespaces
  selection := s.selection
  pendingDetail := s.pendingDetail
  tableFilter := s.tableFilter
  filterEditing := s.filterEditing
  focusedClusterId := s.focusedClusterId
  kindClusters := s.kindClusters
  dockTabs := s.dockTabs
  dockActive := s.dockActive
  dockMin := s.dockMin
  drawer := s.drawer
  drawerId := s.drawerId
  tray := s.tray
  tableScroll := s.tableScroll

/-- Spreading a slice over the top level. -/
def spreadSlice (s : AppState P) (slice : ScopeSlice P) : AppState P := { s with
  selectedKindId := slice.selectedKindId
  selectedNamespaces := slice.selectedNamespaces
  selection := slice.selection
  pendingDetail := slice.pendingDetail
  tableFilter := slice.tableFilter
  filterEditing := slice.filterEditing
  focusedClusterId := slice.focusedClusterId
  kindClusters := slice.kindClusters
  dockTabs := slice.dockTabs
  dockActive := slice.dockActive
  dockMin := slice.dockMin
  drawer := slice.drawer
  drawerId := slice.drawerId
  tray := slice.tray
  tableScroll := slice.tableScroll }

def initialState (P : Payload) : AppState P where
  contexts := []
  contextsStatus := .idle
  contextsError := none
  selectedContext := none
  openTabs := []
  activeTabId := none
  virtualContexts := []
  selectedVirtualContextId := none
  scopeExtras := []
  kinds := []
  selectedKindId := none
  selectedNamespaces := []
  selection := []
  pendingDetail := none
  tableFilter := ""
  filterEditing := false
  focusedClusterId := none
  kindClusters := ∅
  dockTabs := []
  dockActive := ⟨none, none⟩
  dockMin := ⟨false, false⟩
  drawer := none
  drawerId := none
  tray := []
  tableScroll := ∅

/-- Nothing focused: the live fields are emptied, the anchors too. -/
def fleetTopLevel (s : AppState P) : AppState P :=
  spreadSlice { s with
    selectedContext := none
    selectedVirtualContextId := none
    scopeExtras := [] } emptyScopeSlice

def stashTab (s : AppState P) (t : ClusterTab P) : ClusterTab P := { t with
  selectedContext := s.selectedContext
  selectedVirtualContextId := s.selectedVirtualContextId
  scopeExtras := s.scopeExtras
  slice := captureScopeSlice s }

def stashActive (s : AppState P) : List (ClusterTab P) :=
  match s.activeTabId with
  | none => s.openTabs
  | some active => s.openTabs.map fun t => if t.id = active then stashTab s t else t

/-- Make a tab of the list the live one. -/
def focusTab (s : AppState P) (openTabs : List (ClusterTab P)) (t : ClusterTab P) : AppState P :=
  spreadSlice { s with
    openTabs := openTabs
    activeTabId := some t.id
    selectedContext := t.selectedContext
    selectedVirtualContextId := t.selectedVirtualContextId
    scopeExtras := t.scopeExtras } t.slice

def switchToTab (s : AppState P) (id : String) : AppState P :=
  if s.activeTabId = some id then s
  else
    match s.openTabs.find? (·.id == id) with
    | none => s
    | some target => focusTab s (stashActive s) target

def focusFleet (s : AppState P) : AppState P := fleetTopLevel { s with
  openTabs := []
  activeTabId := none }

/-- `s` is the state whose other fields are kept; `before` the one whose tabs are closed. -/
def focusAfterClose (s before : AppState P) (stashed : List (ClusterTab P)) (closeIds : List String) :
    AppState P :=
  let remaining := stashed.filter fun t => t.id ∉ closeIds
  match before.activeTabId with
  | none => { s with openTabs := remaining }
  | some active =>
    if active ∉ closeIds then { s with openTabs := remaining }
    else
      let oldIdx := (stashed.findIdx? (·.id == active)).getD 0
      match remaining[min oldIdx (remaining.length - 1)]? with
      | none => focusFleet s
      | some next => focusTab s remaining next

inductive Anchor where
  | context (contextId : String)
  | virtual (virtualId : String)
  deriving DecidableEq, Repr

def Anchor.matches (anchor : Anchor) (t : ClusterTab P) : Bool :=
  match anchor with
  | .context contextId => t.selectedContext == some contextId && t.selectedVirtualContextId == none
  | .virtual virtualId => t.selectedVirtualContextId == some virtualId

/-- A new tab, on the first kind of the list. -/
def newTab (s : AppState P) (anchor : Anchor) (uuid : String) : ClusterTab P where
  id := uuid
  selectedContext := match anchor with
    | .context contextId => some contextId
    | .virtual _ => none
  selectedVirtualContextId := match anchor with
    | .context _ => none
    | .virtual virtualId => some virtualId
  scopeExtras := []
  slice := { emptyScopeSlice with selectedKindId := s.kinds.head? }

def resolves (s : AppState P) : Anchor → Bool
  | .context _ => true
  | .virtual virtualId => s.virtualContexts.any (·.id == virtualId)

/-- `uuid` is what `crypto.randomUUID` returns, should a tab be made. -/
def openTab (s : AppState P) (anchor : Anchor) (uuid : String) : AppState P :=
  match s.openTabs.find? anchor.matches with
  | some existing => switchToTab s existing.id
  | none =>
    if resolves s anchor then focusTab s (stashActive s ++ [newTab s anchor uuid]) (newTab s anchor uuid)
    else s

def closeTab (s : AppState P) (id : String) : AppState P := focusAfterClose s s (stashActive s) [id]

def goFleet (s : AppState P) : AppState P := focusFleet s

/-- A tab lives while its anchor resolves; the empty virtual id counts as none. -/
def tabAlive (s : AppState P) (cs : List String) (selectedContext selectedVirtualContextId : Option String)
    (dockTabs : List P.DockTab) : Bool :=
  if cs = [] ∨ dockTabs.length > 0 then true
  else
    match selectedVirtualContextId.filter (· ≠ "") with
    | some vid =>
      match s.virtualContexts.find? (·.id == vid) with
      | none => false
      | some v => v.members.any (· ∈ cs)
    | none =>
      match selectedContext with
      | none => true
      | some c => decide (c ∈ cs)

def setContexts (s : AppState P) (cs : List String) : AppState P :=
  let pruneExtras := fun extras : List String => extras.filter (· ∈ cs)
  let stashed := (stashActive s).map fun tab => { tab with scopeExtras := pruneExtras tab.scopeExtras }
  let dead := (stashed.filter fun tab =>
    !tabAlive s cs tab.selectedContext tab.selectedVirtualContextId tab.slice.dockTabs).map (·.id)
  let mirrorAlive := tabAlive s cs s.selectedContext s.selectedVirtualContextId s.dockTabs
  let base := { s with
    contexts := cs
    contextsStatus := .ready
    contextsError := none
    selectedContext := if mirrorAlive then s.selectedContext else none
    selectedVirtualContextId := if mirrorAlive then s.selectedVirtualContextId else none
    scopeExtras := if mirrorAlive then pruneExtras s.scopeExtras else [] }
  match s.activeTabId with
  | none => { base with openTabs := stashed.filter fun tab => tab.id ∉ dead }
  | some _ => focusAfterClose base s stashed dead

def deleteVirtualContext (s : AppState P) (id : String) : AppState P :=
  let s' := { s with virtualContexts := s.virtualContexts.filter (·.id ≠ id) }
  let closeIds := (s.openTabs.filter fun t => t.selectedVirtualContextId = some id).map (·.id)
  if closeIds = [] then s' else focusAfterClose s' s (stashActive s) closeIds

inductive Op (P : Payload) where
  | openTab (anchor : Anchor) (uuid : String)
  | switchTab (id : String)
  | closeTab (id : String)
  | setContexts (cs : List String)
  | deleteVirtualContext (id : String)
  | goFleet
  | edit (f : AppState P → AppState P)

def perform (s : AppState P) : Op P → AppState P
  | .openTab anchor uuid => openTab s anchor uuid
  | .switchTab id => switchToTab s id
  | .closeTab id => closeTab s id
  | .setContexts cs => setContexts s cs
  | .deleteVirtualContext id => deleteVirtualContext s id
  | .goFleet => goFleet s
  | .edit f => f s

def step (s : AppState P) (op : Op P) : Option (AppState P) := some (perform s op)

def tabIds (s : AppState P) : List String := s.openTabs.map (·.id)

/-- Tab ids are unique, and the active one is open. -/
structure Coherent (s : AppState P) : Prop where
  nodup : (tabIds s).Nodup
  active : ∀ id, s.activeTabId = some id → id ∈ tabIds s

/-- The live anchors and every live slice field are the same. -/
structure SameScope (s s' : AppState P) : Prop where
  selectedContext : s'.selectedContext = s.selectedContext
  selectedVirtualContextId : s'.selectedVirtualContextId = s.selectedVirtualContextId
  scopeExtras : s'.scopeExtras = s.scopeExtras
  selectedKindId : s'.selectedKindId = s.selectedKindId
  selectedNamespaces : s'.selectedNamespaces = s.selectedNamespaces
  selection : s'.selection = s.selection
  pendingDetail : s'.pendingDetail = s.pendingDetail
  tableFilter : s'.tableFilter = s.tableFilter
  filterEditing : s'.filterEditing = s.filterEditing
  focusedClusterId : s'.focusedClusterId = s.focusedClusterId
  kindClusters : s'.kindClusters = s.kindClusters
  dockTabs : s'.dockTabs = s.dockTabs
  dockActive : s'.dockActive = s.dockActive
  dockMin : s'.dockMin = s.dockMin
  drawer : s'.drawer = s.drawer
  drawerId : s'.drawerId = s.drawerId
  tray : s'.tray = s.tray
  tableScroll : s'.tableScroll = s.tableScroll

/-- A tab id that is made is not in use; other actions of the store open, close and focus no tab. -/
def Permitted (s : AppState P) : Op P → Prop
  | .openTab _ uuid => uuid ∉ tabIds s
  | .edit f => tabIds (f s) = tabIds s ∧ (f s).activeTabId = s.activeTabId
  | _ => True

variable {s : AppState P}

theorem ids_stashActive (s : AppState P) : (stashActive s).map (·.id) = tabIds s := by
  unfold stashActive tabIds
  split
  · rfl
  · rw [List.map_map]
    refine List.map_congr_left fun t _ => ?_
    simp only [Function.comp_apply]
    split <;> rfl

theorem tabIds_focusTab (s : AppState P) (tabs : List (ClusterTab P)) (t : ClusterTab P) :
    tabIds (focusTab s tabs t) = tabs.map (·.id) := rfl

theorem active_focusTab (s : AppState P) (tabs : List (ClusterTab P)) (t : ClusterTab P) :
    (focusTab s tabs t).activeTabId = some t.id := rfl

theorem coherent_focusTab {tabs : List (ClusterTab P)} {t : ClusterTab P} (hn : (tabs.map (·.id)).Nodup)
    (ht : t.id ∈ tabs.map (·.id)) : Coherent (focusTab s tabs t) where
  nodup := hn
  active id h := by
    cases h
    exact ht

theorem coherent_focusFleet (s : AppState P) : Coherent (focusFleet s) where
  nodup := List.nodup_nil
  active id h := by cases h

theorem coherent_switchToTab (hc : Coherent s) (id : String) : Coherent (switchToTab s id) := by
  unfold switchToTab
  split
  · exact hc
  · split
    · exact hc
    · rename_i target htarget
      refine coherent_focusTab ?_ ?_
      · rw [ids_stashActive]
        exact hc.nodup
      · rw [ids_stashActive]
        exact List.mem_map_of_mem (List.mem_of_find?_eq_some htarget)

theorem coherent_openTab (hc : Coherent s) (anchor : Anchor) {uuid : String} (hfresh : uuid ∉ tabIds s) :
    Coherent (openTab s anchor uuid) := by
  unfold openTab
  split
  · exact coherent_switchToTab hc _
  · split
    · refine coherent_focusTab ?_ ?_
      · rw [List.map_append, ids_stashActive]
        refine List.Nodup.append hc.nodup (List.nodup_singleton _) ?_
        intro id hid hnew
        rw [List.map_singleton, List.mem_singleton] at hnew
        have huuid : id = uuid := hnew
        exact hfresh (huuid ▸ hid)
      · simp
    · exact hc

/-- Closing tabs: the ids that stay are some of the old ones, and a focused tab is among them. -/
theorem coherent_focusAfterClose {s before : AppState P} (hc : Coherent before)
    {stashed : List (ClusterTab P)} (hids : stashed.map (·.id) = tabIds before)
    (hactive : s.activeTabId = before.activeTabId) (closeIds : List String) :
    Coherent (focusAfterClose s before stashed closeIds) := by
  have hsub : ((stashed.filter fun t => t.id ∉ closeIds).map (·.id)).Nodup := by
    have hn : (stashed.map (·.id)).Nodup := hids ▸ hc.nodup
    exact hn.sublist (List.filter_sublist.map _)
  unfold focusAfterClose
  dsimp only
  split
  · rename_i hnone
    refine ⟨hsub, fun id h => ?_⟩
    rw [show s.activeTabId = none from hactive.trans hnone] at h
    cases h
  · rename_i active hsome
    split
    · rename_i hopen
      refine ⟨hsub, fun id h => ?_⟩
      cases (hactive.trans hsome).symm.trans h
      have hmem : active ∈ stashed.map (·.id) := hids ▸ hc.active active hsome
      obtain ⟨t, ht, rfl⟩ := List.mem_map.mp hmem
      exact List.mem_map_of_mem (List.mem_filter.mpr ⟨ht, by simpa using hopen⟩)
    · split
      · exact coherent_focusFleet s
      · rename_i next hnext
        exact coherent_focusTab hsub (List.mem_map_of_mem (List.mem_of_getElem? hnext))

theorem coherent_setContexts (hc : Coherent s) (cs : List String) : Coherent (setContexts s cs) := by
  have hids : ((stashActive s).map fun tab => { tab with scopeExtras := tab.scopeExtras.filter (· ∈ cs) }).map
      (·.id) = tabIds s := by
    rw [List.map_map]
    exact ids_stashActive s
  unfold setContexts
  dsimp only
  split
  · rename_i hnone
    refine ⟨?_, fun id h => by cases h.symm.trans hnone⟩
    have hn := hc.nodup
    rw [← hids] at hn
    exact hn.sublist (List.filter_sublist.map _)
  · refine coherent_focusAfterClose hc hids ?_ _
    rfl

theorem coherent_step (s : AppState P) (op : Op P) (s' : AppState P) (hp : Permitted s op) (hc : Coherent s)
    (h : step s op = some s') : Coherent s' := by
  cases h
  cases op with
  | openTab anchor uuid => exact coherent_openTab hc anchor hp
  | switchTab id => exact coherent_switchToTab hc id
  | closeTab id => exact coherent_focusAfterClose hc (ids_stashActive s) rfl _
  | setContexts cs => exact coherent_setContexts hc cs
  | deleteVirtualContext id =>
    simp only [perform, deleteVirtualContext]
    split
    · exact ⟨hc.nodup, hc.active⟩
    · refine coherent_focusAfterClose hc (ids_stashActive s) ?_ _
      rfl
  | goFleet => exact coherent_focusFleet s
  | edit f =>
    refine ⟨?_, fun id h => ?_⟩
    · exact hp.1.symm ▸ hc.nodup
    · exact hp.1.symm ▸ hc.active id (hp.2 ▸ h)

/-- The tab that was active holds the live state once it is stashed. -/
theorem find_stashActive {a : String} (ha : s.activeTabId = some a) (hopen : a ∈ tabIds s) :
    ∃ t, (stashActive s).find? (·.id == a) = some (stashTab s t) ∧ t.id = a := by
  obtain ⟨t₀, ht₀, hid⟩ := List.mem_map.mp hopen
  have hsome : ((stashActive s).find? (·.id == a)).isSome := by
    rw [List.find?_isSome]
    refine ⟨stashTab s t₀, ?_, by simp [stashTab, hid]⟩
    rw [stashActive, ha]
    exact List.mem_map.mpr ⟨t₀, ht₀, by simp [hid]⟩
  obtain ⟨u, hu⟩ := Option.isSome_iff_exists.mp hsome
  have hua : u.id = a := by simpa using List.find?_some hu
  have hmem := List.mem_of_find?_eq_some hu
  rw [stashActive, ha] at hmem
  obtain ⟨t, -, rfl⟩ := List.mem_map.mp hmem
  by_cases hta : t.id = a
  · rw [if_pos hta] at hu
    exact ⟨t, hu, hta⟩
  · rw [if_neg hta] at hua
    exact absurd hua hta

theorem SameScope.refl (s : AppState P) : SameScope s s :=
  ⟨rfl, rfl, rfl, rfl, rfl, rfl, rfl, rfl, rfl, rfl, rfl, rfl, rfl, rfl, rfl, rfl, rfl, rfl⟩

/-- Focusing a stashed tab brings the stashed state back. -/
theorem sameScope_focusTab_stashTab (s s' : AppState P) (tabs : List (ClusterTab P)) (t : ClusterTab P) :
    SameScope s (focusTab s' tabs (stashTab s t)) :=
  ⟨rfl, rfl, rfl, rfl, rfl, rfl, rfl, rfl, rfl, rfl, rfl, rfl, rfl, rfl, rfl, rfl, rfl, rfl⟩

theorem active_switchToTab {a : String} (hopen : a ∈ tabIds s) : (switchToTab s a).activeTabId = some a := by
  unfold switchToTab
  split
  · assumption
  · split
    · rename_i hnone
      obtain ⟨t, ht, hid⟩ := List.mem_map.mp hopen
      exact absurd hid (by simpa using List.find?_eq_none.mp hnone t ht)
    · rename_i target htarget
      rw [active_focusTab]
      simpa using List.find?_some htarget

/-- From the active tab to another open one and back. -/
theorem sameScope_switch_back {a b : String} (ha : s.activeTabId = some a) (hopen : a ∈ tabIds s)
    (hb : b ∈ tabIds s) : SameScope s (switchToTab (switchToTab s b) a) := by
  by_cases hab : a = b
  · subst hab
    have hself : switchToTab s a = s := by rw [switchToTab, if_pos ha]
    rw [hself, hself]
    exact .refl s
  · have hnot : s.activeTabId ≠ some b := by
      rw [ha]
      exact fun he => hab (Option.some.inj he)
    cases hf : s.openTabs.find? (·.id == b) with
    | none =>
      obtain ⟨t, ht, hid⟩ := List.mem_map.mp hb
      exact absurd hid (by simpa using List.find?_eq_none.mp hf t ht)
    | some target =>
      have hswitch : switchToTab s b = focusTab s (stashActive s) target := by
        simp [switchToTab, hnot, hf]
      have hid : target.id = b := by simpa using List.find?_some hf
      obtain ⟨t, ht, -⟩ := find_stashActive ha hopen
      have hback : switchToTab (focusTab s (stashActive s) target) a =
          focusTab (focusTab s (stashActive s) target)
            (stashActive (focusTab s (stashActive s) target)) (stashTab s t) := by
        have hne : (focusTab s (stashActive s) target).activeTabId ≠ some a := by
          rw [active_focusTab, hid]
          exact fun he => hab (Option.some.inj he).symm
        have hfind : (focusTab s (stashActive s) target).openTabs.find? (·.id == a) = some (stashTab s t) := ht
        rw [switchToTab, if_neg hne, hfind]
      rw [hswitch, hback]
      exact sameScope_focusTab_stashTab s _ _ t

theorem mem_tabIds_switchToTab (s : AppState P) (a b : String) (hb : b ∈ tabIds s) :
    b ∈ tabIds (switchToTab s a) := by
  unfold switchToTab
  split
  · exact hb
  · split
    · exact hb
    · rw [tabIds_focusTab, ids_stashActive]
      exact hb

/-- From every coherent state, over every sequence of operations, tab ids stay unique and the
active one open; and between any two open tabs, going from one to the other and back
restores all that was live. -/
theorem tabs_lossless (s₀ s : AppState P) (ops : List (Op P)) (hs₀ : Coherent s₀)
    (hp : Meets step Permitted s₀ ops) (hrun : run step s₀ ops = some s) :
    (tabIds s).Nodup ∧ (∀ id, s.activeTabId = some id → id ∈ tabIds s) ∧
      ∀ a ∈ tabIds s, ∀ b ∈ tabIds s,
        (switchToTab s a).activeTabId = some a ∧
        (switchToTab (switchToTab (switchToTab s a) b) a).activeTabId = some a ∧
        SameScope (switchToTab s a) (switchToTab (switchToTab (switchToTab s a) b) a) := by
  have hc : Coherent s := run_invariant_meets coherent_step hp hs₀ hrun
  refine ⟨hc.nodup, hc.active, fun a ha b hb => ⟨active_switchToTab ha, ?_, ?_⟩⟩
  · exact active_switchToTab (mem_tabIds_switchToTab _ b a (mem_tabIds_switchToTab s a a ha))
  · exact sameScope_switch_back (active_switchToTab ha) (mem_tabIds_switchToTab s a a ha)
      (mem_tabIds_switchToTab s a b hb)

theorem coherent_initialState (P : Payload) : Coherent (initialState P) where
  nodup := List.nodup_nil
  active id h := by cases h

/-- Payload types with a single value. -/
def unitPayload : Payload := ⟨Unit, Unit, Unit, Unit, Unit, Unit⟩

/-- Two contexts are opened, a kind is picked in the second, and a third tab is opened and closed. -/
def threeTabs : List (Op unitPayload) :=
  [.openTab (.context "a") "1", .openTab (.context "b") "2",
   .edit fun s => { s with selectedKindId := some "pods", tableFilter := "web" },
   .openTab (.context "c") "3", .closeTab "3"]

/-- The state that `threeTabs` ends in. -/
def afterThreeTabs : AppState unitPayload := threeTabs.foldl perform (initialState unitPayload)

theorem meets_threeTabs : Meets step Permitted (initialState unitPayload) threeTabs := by
  refine ⟨by simp only [Permitted]; decide, ?_⟩
  rintro s ⟨⟩
  refine ⟨by simp only [Permitted]; decide, ?_⟩
  rintro s ⟨⟩
  refine ⟨⟨rfl, rfl⟩, ?_⟩
  rintro s ⟨⟩
  refine ⟨by simp only [Permitted]; decide, ?_⟩
  rintro s ⟨⟩
  refine ⟨trivial, ?_⟩
  rintro s ⟨⟩
  trivial

theorem tabs_lossless_threeTabs :
    afterThreeTabs.tableFilter = "web" ∧ afterThreeTabs.activeTabId = some "2" ∧
      SameScope (switchToTab afterThreeTabs "2")
        (switchToTab (switchToTab (switchToTab afterThreeTabs "2") "1") "2") := by
  have h := tabs_lossless _ afterThreeTabs threeTabs (coherent_initialState unitPayload) meets_threeTabs rfl
  exact ⟨rfl, rfl, (h.2.2 "2" (by decide) "1" (by decide)).2.2⟩

end FerrisScope.ClusterTabs
