import FerrisScope.BrowserHistory
import FerrisScope.ClusterTabs
import FerrisScope.SessionRestore

/-!
# The panels of a cluster tab

A cluster tab shows one drawer, parks others in a tray, and has two docks. Every drawer has an instance
id that it keeps while it is parked, because its component stays mounted under it. The actions read and write
the live slice; a few find the tab that they are about among the stashed ones.
-/

namespace FerrisScope.TabPanels
open BrowserHistory ClusterTabs
open SessionRestore (DockPlacement PlacedTab placementOf)

/-! ## Drawers -/

/-- One object a detail drawer can show. -/
structure DetailRef where
  kindId : String
  clusterId : String
  uid : String
  ns : Option String
  name : String
  deriving DecidableEq, Repr

structure DetailView where
  tab : Option String
  scrollTop : Option Rat
  deriving DecidableEq

structure DetailDrawer extends DetailRef where
  view : Option DetailView
  back : Option (List DetailRef)
  forward : Option (List DetailRef)
  deriving DecidableEq

inductive ObserveTab where
  | logs
  | metrics
  deriving DecidableEq, Repr

structure ObserveTarget where
  clusterId : String
  kindId : String
  ns : String
  name : String
  deriving DecidableEq, Repr

structure CompareSide where
  clusterId : String
  clusterName : String
  colorIdx : ℕ
  ns : Option String
  name : String
  deriving DecidableEq, Repr

structure CompareTarget where
  kindId : String
  kindLabel : String
  a : CompareSide
  b : CompareSide
  deriving DecidableEq, Repr

structure InspectSubject where
  sid : String
  uid : String
  clusterId : String
  clusterName : String
  colorIdx : ℕ
  ns : Option String
  name : String
  deriving DecidableEq, Repr

structure InspectTarget where
  kindId : String
  kindLabel : String
  subjects : List InspectSubject
  deriving DecidableEq, Repr

inductive Drawer where
  | detail (d : DetailDrawer)
  | logs (targets : List ObserveTarget) (initialTab : Option ObserveTab) (defaultContainer : Option String)
  | compare (target : CompareTarget)
  | inspect (target : InspectTarget)
  deriving DecidableEq

def detailRef (d : DetailDrawer) : DetailRef := d.toDetailRef

def detailHistoryCap : ℕ := 50

def trayCap : ℕ := 12

structure TrayItem where
  id : String
  drawer : Drawer
  deriving DecidableEq

/-- Identity of a drawer's subject. -/
def drawerKey : Drawer → String
  | .detail d => "detail|" ++ d.clusterId ++ "|" ++ d.kindId ++ "|" ++ d.ns.getD "" ++ "|" ++ d.name
  | .logs targets _ _ =>
    "logs|" ++ ",".intercalate (targets.map fun x => x.clusterId ++ "/" ++ x.kindId ++ "/" ++ x.ns ++ "/" ++ x.name)
  | .compare target =>
    "compare|" ++ target.kindId ++ "|" ++
      ",".intercalate ([target.a, target.b].map fun x => x.clusterId ++ "/" ++ x.ns.getD "" ++ "/" ++ x.name)
  | .inspect target => "inspect|" ++ target.kindId ++ "|" ++ ",".intercalate (target.subjects.map (·.sid))

/-- Park a drawer: it takes the place of one of the same subject, at the end. -/
def trayWith (tray : List TrayItem) (d : Drawer) (id : String) : List TrayItem :=
  lastN trayCap ((tray.filter fun i => drawerKey i.drawer ≠ drawerKey d) ++ [⟨id, d⟩])

/-- What the store keeps in a tab, with the drawers as they are. -/
abbrev panels : Payload where
  SelectionMeta := Unit
  DetailEntry := Unit
  Drawer := Drawer
  TrayItem := TrayItem
  DockTab := PlacedTab
  Offset := Unit

abbrev Slice := ScopeSlice panels

abbrev Store := AppState panels

/-! ## Actions on the drawer and the tray -/

/-- Whether opening `d` keeps the instance that is shown. -/
def keepsInstance (shown d : Drawer) : Bool :=
  drawerKey shown == drawerKey d ||
    match shown, d with
    | .detail a, .detail b => a.kindId == b.kindId
    | _, _ => false

def openDrawer (s : Slice) (d : Drawer) (uuid : String) : Slice :=
  match s.drawer with
  | some shown => if keepsInstance shown d then { s with drawer := some d }
    else { s with drawer := some d, drawerId := some uuid }
  | none => { s with drawer := some d, drawerId := some uuid }

def closeDrawer (s : Slice) : Slice := { s with drawer := none, drawerId := none }

def withView (view : DetailView) : Drawer → Drawer
  | .detail d => .detail { d with view := some view }
  | d => d

/-- `uuid` is the id made for a drawer that has none. -/
def minimizeDrawer (s : Slice) (view : Option DetailView) (uuid : String) : Slice :=
  match s.drawer with
  | none => s
  | some shown =>
    let d := match view with
      | some view => withView view shown
      | none => shown
    { s with drawer := none, drawerId := none, tray := trayWith s.tray d (s.drawerId.getD uuid) }

/-- The report of a detail that has moved to another object is stale. -/
def reported (key : String) (view : DetailView) (d : Drawer) : Option Drawer :=
  match d with
  | .detail _ => if drawerKey d = key then some (withView view d) else none
  | _ => none

/-- Record where an instance was as it unmounts. -/
def saveDrawerView (s : Slice) (instanceId key : String) (view : DetailView) : Slice :=
  match s.drawer with
  | some shown =>
    if s.drawerId = some instanceId then
      match reported key view shown with
      | some d => { s with drawer := some d }
      | none => s
    else saveParked s
  | none => saveParked s
where
  saveParked (s : Slice) : Slice :=
    match s.tray.findIdx? fun t => t.id == instanceId with
    | none => s
    | some i =>
      match (s.tray[i]?).bind fun t => reported key view t.drawer with
      | some d => { s with tray := s.tray.modify i fun t => { t with drawer := d } }
      | none => s

def restoreTrayItem (s : Slice) (id uuid : String) : Slice :=
  match s.tray.find? fun i => i.id == id with
  | none => s
  | some item =>
    let rest := s.tray.filter fun i => i.id ≠ id
    { s with
      tray := match s.drawer with
        | some shown => trayWith rest shown (s.drawerId.getD uuid)
        | none => rest
      drawer := some item.drawer
      drawerId := some item.id }

def closeTrayItem (s : Slice) (id : String) : Slice := { s with tray := s.tray.filter fun i => i.id ≠ id }

def closeAllTrayItems (s : Slice) : Slice := { s with tray := [] }

/-! ## The history of a detail -/

def onDetail (f : DetailDrawer → DetailDrawer) (s : Slice) : Slice :=
  match s.drawer with
  | some (.detail d) => { s with drawer := some (.detail (f d)) }
  | _ => s

/-- Follow a link inside the open detail. -/
def navigateDetail (dest : DetailRef) (d : DetailDrawer) : DetailDrawer where
  toDetailRef := dest
  view := none
  back := some (lastN detailHistoryCap (d.back.getD [] ++ [detailRef d]))
  forward := some []

def detailBack (d : DetailDrawer) : DetailDrawer :=
  match d.back.bind List.getLast? with
  | none => d
  | some prev =>
    { toDetailRef := prev
      view := none
      back := d.back.map List.dropLast
      forward := some (detailRef d :: d.forward.getD []) }

def detailForward (d : DetailDrawer) : DetailDrawer :=
  match d.forward with
  | some (next :: rest) =>
    { toDetailRef := next
      view := none
      back := some (d.back.getD [] ++ [detailRef d])
      forward := some rest }
  | _ => d

def navigateDrawerDetail (s : Slice) (dest : DetailRef) : Slice := onDetail (navigateDetail dest) s

def drawerDetailBack (s : Slice) : Slice := onDetail detailBack s

def drawerDetailForward (s : Slice) : Slice := onDetail detailForward s

/-! ## Docks -/

def entry {α : Type} (r : ByPlacement α) : DockPlacement → α
  | .bottom => r.bottom
  | .right => r.right

def setEntry {α : Type} (r : ByPlacement α) (p : DockPlacement) (v : α) : ByPlacement α :=
  match p with
  | .bottom => { r with bottom := v }
  | .right => { r with right := v }

/-- What one placement falls back to once its tabs are those left. -/
def settlePlacement (s : Slice) (p : DockPlacement) : Slice :=
  let left := s.dockTabs.filter fun t => placementOf t = p
  let s := if left.any fun t => some t.id == entry s.dockActive p then s
    else { s with dockActive := setEntry s.dockActive p (left.getLast?.map (·.id)) }
  if left = [] then { s with dockMin := setEntry s.dockMin p false } else s

def removeDockTabs (s : Slice) (ids : List String) : Slice :=
  settlePlacement (settlePlacement { s with dockTabs := s.dockTabs.filter fun t => t.id ∉ ids } .bottom) .right

def addDockTab (s : Slice) (tab : PlacedTab) : Slice := { s with
  dockTabs := s.dockTabs ++ [tab]
  dockActive := setEntry s.dockActive (placementOf tab) (some tab.id)
  dockMin := setEntry s.dockMin (placementOf tab) false }

def closeAllDockTabs (s : Slice) : Slice := { s with
  dockTabs := []
  dockActive := ⟨none, none⟩
  dockMin := ⟨false, false⟩ }

def closeDockTabsByPlacement (s : Slice) (p : DockPlacement) : Slice :=
  removeDockTabs s ((s.dockTabs.filter fun t => placementOf t = p).map (·.id))

def setDockActiveId (s : Slice) (id : String) : Slice :=
  match s.dockTabs.find? fun t => t.id == id with
  | none => s
  | some tab => { s with dockActive := setEntry s.dockActive (placementOf tab) (some id) }

def setDockMin (s : Slice) (p : DockPlacement) (min : Bool) : Slice := { s with dockMin := setEntry s.dockMin p min }

/-- `{ ...t, state: { ...t.state, ...patch } }` on the tab with this id. -/
def withState (id : String) (patch : Json.Fields String) (t : PlacedTab) : PlacedTab :=
  if t.id = id then { t with state := patch.foldl (fun fs kv => EntryLists.put kv.1 kv.2 fs) t.state } else t

def patchState (id : String) (patch : Json.Fields String) (s : Slice) : Slice := { s with
  dockTabs := s.dockTabs.map (withState id patch) }

def ownsDockTab (s : Slice) (id : String) : Bool := s.dockTabs.any fun t => t.id == id

/-! ## The store -/

/-- An action of the active tab reads and writes the live slice. -/
def onLive (f : Slice → Slice) (s : Store) : Store := spreadSlice s (f (captureScopeSlice s))

/-- The slice of a tab is the live one if the tab is active, or none is named. -/
def patchTab (s : Store) (tabId : Option String) (f : Slice → Slice) : Store :=
  if tabId = none ∨ tabId = s.activeTabId then onLive f s
  else { s with openTabs := s.openTabs.map fun t => if some t.id = tabId then { t with slice := f t.slice } else t }

/-- Dock tabs are found wherever they live, in the active tab first. -/
def onOwner (s : Store) (id : String) (f : Slice → Slice) : Store :=
  if ownsDockTab (captureScopeSlice s) id then onLive f s
  else { s with openTabs := s.openTabs.map fun t => if ownsDockTab t.slice id then { t with slice := f t.slice } else t }

/-- Nothing has been opened in the slice yet. -/
def fresh (s : Slice) : Bool := s.dockTabs.isEmpty && s.drawer.isNone && s.tray.isEmpty

/-- What a session file holds for one tab. -/
structure StoredView where
  dockTabs : List PlacedTab
  dockActive : ByPlacement (Option String)
  dockMin : ByPlacement Bool
  drawer : Option Drawer
  tray : List TrayItem

/-- A drawer is given an instance id, or minimising it would remount it. -/
def StoredView.over (v : StoredView) (uuid : String) (s : Slice) : Slice := { s with
  dockTabs := v.dockTabs
  dockActive := v.dockActive
  dockMin := v.dockMin
  drawer := v.drawer
  drawerId := v.drawer.map fun _ => uuid
  tray := v.tray }

/-- `uuid` gives the id that is made for the drawer of each tab. -/
def hydrateSession (s : Store) (slices : String → Option StoredView) (uuid : String → String) : Store :=
  let live := match s.activeTabId.bind slices, s.activeTabId with
    | some v, some id => if fresh (captureScopeSlice s) then onLive (v.over (uuid id)) s else s
    | _, _ => s
  { live with openTabs := s.openTabs.map fun tab =>
      match slices tab.id with
      | none => tab
      | some v =>
        if some tab.id = s.activeTabId ∨ !fresh tab.slice then tab
        else { tab with slice := v.over (uuid tab.id) tab.slice } }

inductive PanelAct where
  | openDrawer (d : Drawer) (uuid : String)
  | closeDrawer
  | minimizeDrawer (view : Option DetailView) (uuid : String)
  | restoreTrayItem (id uuid : String)
  | closeTrayItem (id : String)
  | closeAllTrayItems
  | saveDrawerView (instanceId key : String) (view : DetailView)
  | navigateDrawerDetail (dest : DetailRef)
  | drawerDetailBack
  | drawerDetailForward
  | addDockTab (tab : PlacedTab)
  | removeDockTabs (ids : List String)
  | closeAllDockTabs
  | closeDockTabsByPlacement (p : DockPlacement)
  | setDockActiveId (id : String)
  | setDockMin (p : DockPlacement) (min : Bool)
  | patchState (id : String) (patch : Json.Fields String)

def act (s : Slice) : PanelAct → Slice
  | .openDrawer d uuid => openDrawer s d uuid
  | .closeDrawer => closeDrawer s
  | .minimizeDrawer view uuid => minimizeDrawer s view uuid
  | .restoreTrayItem id uuid => restoreTrayItem s id uuid
  | .closeTrayItem id => closeTrayItem s id
  | .closeAllTrayItems => closeAllTrayItems s
  | .saveDrawerView instanceId key view => saveDrawerView s instanceId key view
  | .navigateDrawerDetail dest => navigateDrawerDetail s dest
  | .drawerDetailBack => drawerDetailBack s
  | .drawerDetailForward => drawerDetailForward s
  | .addDockTab tab => addDockTab s tab
  | .removeDockTabs ids => removeDockTabs s ids
  | .closeAllDockTabs => closeAllDockTabs s
  | .closeDockTabsByPlacement p => closeDockTabsByPlacement s p
  | .setDockActiveId id => setDockActiveId s id
  | .setDockMin p min => setDockMin s p min
  | .patchState id patch => patchState id patch s

/-- An action of the store. A table that is hidden opens its detail in its own tab, and a
view is saved in the tab that the drawer was in. -/
inductive StoreAct where
  | tabs (op : Op panels)
  | live (a : PanelAct)
  | openHidden (tabId : Option String) (d : Drawer) (uuid : String)
  | saveDrawerView (tabId : Option String) (instanceId key : String) (view : DetailView)
  | closeDockTab (id : String)
  | patchDockTabState (id : String) (patch : Json.Fields String)
  | hydrateSession (slices : String → Option StoredView) (uuid : String → String)

def storeAct (s : Store) : StoreAct → Store
  | .tabs op => perform s op
  | .live a => onLive (act · a) s
  | .openHidden tabId d uuid => patchTab s tabId fun sl => { sl with drawer := some d, drawerId := some uuid }
  | .saveDrawerView tabId instanceId key view => patchTab s tabId fun sl => saveDrawerView sl instanceId key view
  | .closeDockTab id => onOwner s id fun sl => removeDockTabs sl [id]
  | .patchDockTabState id patch => onOwner s id (patchState id patch)
  | .hydrateSession slices uuid => hydrateSession s slices uuid

def storeStep (s : Store) (a : StoreAct) : Option Store := some (storeAct s a)

end FerrisScope.TabPanels
