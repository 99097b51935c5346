import FerrisScope.ClusterShortNames
import FerrisScope.FixedWidthText
import FerrisScope.SessionSnapshot

/-!
# Restoring a session

At launch the stored view of a cluster tab is rebuilt from JSON that nobody has checked. What is malformed
is dropped, the dock tabs get fresh ids, and the active tab of a placement is found by its index among
those stored. A restored view is consistent whatever the file holds, and what a snapshot holds is restored.
-/

namespace FerrisScope.SessionRestore
open Json EntryLists SessionSnapshot
open ClusterShortNames (isSpace)

/-! ## The store -/

inductive DockPlacement where
  | bottom
  | right
  deriving DecidableEq, Repr

def DockPlacement.key : DockPlacement → String
  | .bottom => "bottom"
  | .right => "right"

/-- A dock tab with where it lives. -/
structure PlacedTab extends DockTab where
  placement : Option DockPlacement

def placementOf (t : PlacedTab) : DockPlacement := t.placement.getD .bottom

structure PlacedView where
  dockTabs : List PlacedTab
  dockActive : Placements (Option String)
  dockMin : Placements Bool
  drawer : Option Drawer
  tray : List TrayItem

/-- The view that is stored. No placement is. -/
def PlacedView.toSliceView (v : PlacedView) : SliceView where
  dockTabs := v.dockTabs.map PlacedTab.toDockTab
  dockActive := v.dockActive
  dockMin := v.dockMin
  drawer := v.drawer
  tray := v.tray

/-- The entry of a record by placement. -/
def DockPlacement.entry {α : Type} (r : Placements α) : DockPlacement → α
  | .bottom => r.bottom
  | .right => r.right

structure YamlTemplate where
  id : String
  yaml : String

def defaultYamlTemplateId : String := "deployment"

/-- What the restore finds in place: the templates, and the platform's operations. -/
structure Env where
  yamlTemplates : List YamlTemplate
  defaultTemplate : YamlTemplate
  find_default : (yamlTemplates.find? fun tpl => tpl.id = defaultYamlTemplateId) = some defaultTemplate
  toLowerCase : String → String
  /-- The ids that one restore is given, one after the other. -/
  randomUUID : ℕ → String
  /-- The index that a number is, if it is one. -/
  index : String → Option ℕ
  index_toString : ∀ n < 2 ^ 53, index (toString n) = some n

variable {env : Env}

def getYamlTemplate (env : Env) (id : String) : YamlTemplate :=
  (env.yamlTemplates.find? fun tpl => tpl.id = id).getD env.defaultTemplate

def shortContext (env : Env) (s : String) : String :=
  env.toLowerCase (String.ofList (s.toList.takeWhile fun c => !(isSpace c || c == '.' || c == '/')))

/-! ## Dock tabs -/

/-- A terminal that runs a shell. -/
def makeTerminalTab (env : Env) (seq : ℕ) (clusterId : String) (ns : Option String) (contextLabel : String) : PlacedTab where
  id := "term-" ++ toString seq
  kind := .terminal
  title := "kubectl@" ++ shortContext env contextLabel
  placement := some .bottom
  state := [("spec", .obj [("mode", .str "shell"), ("clusterId", .str clusterId), ("namespace", orNull .str ns)])]

def makeYamlTab (env : Env) (seq : ℕ) (clusterId : Option String) (templateId : Option String) : PlacedTab :=
  let tpl := getYamlTemplate env (templateId.getD defaultYamlTemplateId)
  { id := "yaml-" ++ toString seq
    kind := .yaml
    title := "manifest.yaml"
    placement := some .bottom
    state := [("content", .str tpl.yaml), ("templateId", .str tpl.id), ("pristine", .bool true),
      ("clusterId", orNull .str clusterId), ("results", .null), ("busy", .bool false), ("validateError", .null)] }

def makeChatTab (env : Env) (seq : ℕ) (clusterId contextLabel : String) (sessionId : Option String) : PlacedTab where
  id := "chat-" ++ toString seq
  kind := .chat
  title := "chat@" ++ shortContext env contextLabel
  placement := some .right
  state := [("clusterId", .str clusterId), ("contextLabel", .str contextLabel), ("sessionId", orNull .str sessionId),
    ("chatId", .null)]

/-- The tab that a stored one becomes. The counter of ids moves if there is one. -/
def restoreDock (env : Env) (seq : ℕ) : Json String → Option PlacedTab
  | .obj d =>
    let clusterId := str "clusterId" d
    if str "kind" d = some "terminal" then
      clusterId.map fun clusterId =>
        let tab := makeTerminalTab env seq clusterId (str "namespace" d) clusterId
        { tab with title := (str "title" d).getD tab.title }
    else if str "kind" d = some "yaml" then
      let tab := makeYamlTab env seq clusterId (str "templateId" d)
      some { tab with
        title := (str "title" d).getD tab.title
        state := put "pristine" (.bool (find "pristine" d ≠ some (.bool false)))
          (put "content" (((str "content" d).map .str).getD ((find "content" tab.state).getD .null)) tab.state) }
    else if str "kind" d = some "chat" then
      clusterId.map fun clusterId =>
        makeChatTab env seq clusterId ((str "contextLabel" d).getD clusterId) (str "sessionId" d)
    else none
  | _ => none

/-- The restored tabs, each with the index it was stored at, and the counter. -/
def restoreDocks (env : Env) : List (Json String) → ℕ → ℕ → List (ℕ × PlacedTab) × ℕ
  | [], _, seq => ([], seq)
  | d :: ds, i, seq =>
    match restoreDock env seq d with
    | some tab => ((i, tab) :: (restoreDocks env ds (i + 1) (seq + 1)).1, (restoreDocks env ds (i + 1) (seq + 1)).2)
    | none => restoreDocks env ds (i + 1) seq

/-! ## Drawers -/

def detailHistoryCap : ℕ := 50

def nstr : Option (Json String) → Bool
  | none | some .null | some (.str _) => true
  | _ => false

def isNumber : Option (Json String) → Bool
  | some (.num _) => true
  | _ => false

def detailRefOk : Json String → Bool
  | .obj r =>
    (str "kindId" r).isSome && (str "clusterId" r).isSome && (str "uid" r).isSome && (str "name" r).isSome &&
      nstr (find "namespace" r)
  | _ => false

def sideOk : Json String → Bool
  | .obj x => (str "clusterId" x).isSome && (str "name" x).isSome && nstr (find "namespace" x) && isNumber (find "colorIdx" x)
  | _ => false

def subjectOk (x : Json String) : Bool :=
  sideOk x && ((x.get? "sid").bind asStr).isSome && ((x.get? "uid").bind asStr).isSome

def targetOk : Json String → Bool
  | .obj x =>
    (str "clusterId" x).isSome && (str "kindId" x).isSome && (str "namespace" x).isSome && (str "name" x).isSome
  | _ => false

def detailRef (d : Json String) : Fields String :=
  ["kindId", "clusterId", "uid", "namespace", "name"].filterMap fun k => (d.get? k).map fun v => (k, v)

/-- Back keeps the newest entries, forward the nearest. -/
def history (v : Option (Json String)) (keepTail : Bool) : Option (Json String) :=
  match v with
  | some (.arr rs) =>
    let ok := (rs.filter detailRefOk).map fun r => .obj (detailRef r)
    some (.arr (if keepTail then ok.drop (ok.length - detailHistoryCap) else ok.take detailHistoryCap))
  | _ => none

/-- A field that is not there if it has no value. -/
def optional (k : String) (v : Option (Json String)) : Fields String := (v.map fun v => (k, v)).toList

def restoreView : Option (Json String) → Option (Json String)
  | some (.obj view) =>
    let scrollTop := if isNumber (find "scrollTop" view) then find "scrollTop" view else none
    some (.obj (optional "tab" ((str "tab" view).map .str) ++ optional "scrollTop" scrollTop))
  | _ => none

def restoreDrawer : Json String → Option Drawer
  | .obj d =>
    if str "kind" d = some "detail" then
      if detailRefOk (.obj d) then
        some (.obj (put "namespace" (orNull .str (str "namespace" d)) (("kind", .str "detail") :: detailRef (.obj d)) ++
          optional "view" (restoreView (find "view" d)) ++ optional "back" (history (find "back" d) true) ++
          optional "forward" (history (find "forward" d) false)))
      else none
    else if str "kind" d = some "logs" then
      match find "targets" d with
      | some (.arr targets) => if !targets.isEmpty && targets.all targetOk then some (.obj d) else none
      | _ => none
    else if str "kind" d = some "compare" then
      match find "target" d with
      | some (.obj t) =>
        if (str "kindId" t).isSome && (str "kindLabel" t).isSome && (find "a" t).any sideOk && (find "b" t).any sideOk then
          some (.obj d)
        else none
      | _ => none
    else if str "kind" d = some "inspect" then
      match find "target" d with
      | some (.obj t) =>
        match find "subjects" t with
        | some (.arr subjects) =>
          if (str "kindId" t).isSome && (str "kindLabel" t).isSome && !subjects.isEmpty && subjects.all subjectOk then
            some (.obj d)
          else none
        | _ => none
      | _ => none
    else none
  | _ => none

/-! ## The view -/

def elements : Option (Json String) → List (Json String)
  | some (.arr xs) => xs
  | _ => []

def entries : Option (Json String) → Fields String
  | some (.obj fs) => fs
  | _ => []

/-- The tab a stored index is for, if it is one of the placement, and otherwise the last one there. -/
def pick (env : Env) (docks : List (ℕ × PlacedTab)) (want : Option (Json String)) (p : DockPlacement) : Option String :=
  let id :=
    match want with
    | some (.num n) => (env.index n).bind fun i => (docks.lookup i).map fun t => t.id
    | _ => none
  let inPlacement := (docks.map Prod.snd).filter fun t => placementOf t = p
  ((inPlacement.find? fun t => some t.id = id).or inPlacement.getLast?).map fun t => t.id

/-- Something lives in the placement. -/
def has (dockTabs : List PlacedTab) (p : DockPlacement) : Bool := dockTabs.any fun t => placementOf t = p

/-- A view from any JSON, and what becomes of the counter of ids. -/
def restoreSlice (env : Env) (raw : Json String) (seq : ℕ) : Option PlacedView × ℕ :=
  match raw with
  | .obj raw =>
    let docks := restoreDocks env (elements (find "dock" raw)) 0 seq
    let dockTabs := docks.1.map Prod.snd
    let active := entries (find "active" raw)
    let min := entries (find "dockMin" raw)
    let minimised (p : DockPlacement) : Bool := has dockTabs p && find p.key min = some (.bool true)
    let drawers := (elements (find "tray" raw)).filterMap restoreDrawer
    (some
      { dockTabs := dockTabs
        dockActive := ⟨pick env docks.1 (find "bottom" active) .bottom, pick env docks.1 (find "right" active) .right⟩
        dockMin := ⟨minimised .bottom, minimised .right⟩
        drawer := (find "drawer" raw).bind restoreDrawer
        tray := drawers.zipIdx.map fun (drawer, n) => ⟨env.randomUUID n, drawer⟩ }, docks.2)
  | _ => (none, seq)

/-! ## Well-formed views -/

/-- An object that a detail drawer can show. -/
structure DetailRef where
  kindId : String
  clusterId : String
  uid : String
  ns : Option String
  name : String

structure DetailView where
  tab : Option String
  scrollTop : Option String

inductive LogContainerKind where
  | init
  | sidecar
  | main

structure LogContainer where
  name : String
  kind : LogContainerKind

structure ObserveTarget where
  clusterId : String
  kindId : String
  ns : String
  name : String
  containers : Option (List LogContainer)

inductive ObserveTab where
  | logs
  | metrics

structure CompareSide where
  clusterId : String
  clusterName : String
  colorIdx : ℕ
  ns : Option String
  name : String

structure CompareTarget where
  kindId : String
  kindLabel : String
  a : CompareSide
  b : CompareSide

structure InspectSubject extends CompareSide where
  sid : String
  uid : String

structure InspectTarget where
  kindId : String
  kindLabel : String
  subjects : List InspectSubject
  subjects_ne_nil : subjects ≠ []

/-- What a drawer shows. It is opened for some object, so there is at least one. -/
inductive Panel where
  | detail (shown : DetailRef) (view : Option DetailView) (back forward : Option (List DetailRef))
  | logs (targets : List ObserveTarget) (targets_ne_nil : targets ≠ []) (initialTab : Option ObserveTab)
      (defaultContainer : Option (Option String))
  | compare (target : CompareTarget)
  | inspect (target : InspectTarget)

def DetailRef.fields (r : DetailRef) : Fields String :=
  [("kindId", .str r.kindId), ("clusterId", .str r.clusterId), ("uid", .str r.uid), ("namespace", orNull .str r.ns),
    ("name", .str r.name)]

def DetailView.toJson (v : DetailView) : Json String :=
  .obj (optional "tab" (v.tab.map .str) ++ optional "scrollTop" (v.scrollTop.map .num))

def LogContainerKind.word : LogContainerKind → String
  | .init => "init"
  | .sidecar => "sidecar"
  | .main => "main"

def LogContainer.toJson (c : LogContainer) : Json String := .obj [("name", .str c.name), ("kind", .str c.kind.word)]

def ObserveTarget.toJson (t : ObserveTarget) : Json String :=
  .obj ([("clusterId", .str t.clusterId), ("kindId", .str t.kindId), ("namespace", .str t.ns), ("name", .str t.name)] ++
    optional "containers" (t.containers.map fun cs => .arr (cs.map LogContainer.toJson)))

def ObserveTab.word : ObserveTab → String
  | .logs => "logs"
  | .metrics => "metrics"

def CompareSide.fields (x : CompareSide) : Fields String :=
  [("clusterId", .str x.clusterId), ("clusterName", .str x.clusterName), ("colorIdx", numeral x.colorIdx),
    ("namespace", orNull .str x.ns), ("name", .str x.name)]

def CompareTarget.toJson (t : CompareTarget) : Json String :=
  .obj [("kindId", .str t.kindId), ("kindLabel", .str t.kindLabel), ("a", .obj t.a.fields), ("b", .obj t.b.fields)]

def InspectSubject.toJson (x : InspectSubject) : Json String :=
  .obj ([("sid", .str x.sid), ("uid", .str x.uid)] ++ x.toCompareSide.fields)

def InspectTarget.toJson (t : InspectTarget) : Json String :=
  .obj [("kindId", .str t.kindId), ("kindLabel", .str t.kindLabel), ("subjects", .arr (t.subjects.map InspectSubject.toJson))]

def refsToJson (rs : List DetailRef) : Json String := .arr (rs.map fun r => .obj r.fields)

def Panel.toJson : Panel → Drawer
  | .detail shown view back forward =>
    .obj (("kind", .str "detail") :: shown.fields ++ optional "view" (view.map DetailView.toJson) ++
      optional "back" (back.map refsToJson) ++ optional "forward" (forward.map refsToJson))
  | .logs targets _ initialTab defaultContainer =>
    .obj ([("kind", .str "logs"), ("targets", .arr (targets.map ObserveTarget.toJson))] ++
      optional "initialTab" (initialTab.map fun t => .str t.word) ++
      optional "defaultContainer" (defaultContainer.map (orNull .str)))
  | .compare target => .obj [("kind", .str "compare"), ("target", target.toJson)]
  | .inspect target => .obj [("kind", .str "inspect"), ("target", target.toJson)]

/-- The panel with its history capped. -/
def Panel.capped : Panel → Panel
  | .detail shown view back forward =>
    .detail shown view (back.map fun rs => rs.drop (rs.length - detailHistoryCap))
      (forward.map fun rs => rs.take detailHistoryCap)
  | p => p

def home : DockTabKind → DockPlacement
  | .terminal | .yaml => .bottom
  | .chat => .right

def flag : Option (Json String) → Option Bool
  | some (.bool b) => some b
  | _ => none

/-- What matters of a dock tab across a restart. -/
structure Shown where
  kind : DockTabKind
  placement : DockPlacement
  clusterId : Option String
  ns : Option String
  content : Option String
  pristine : Option Bool
  sessionId : Option String
  deriving DecidableEq

def PlacedTab.shown (t : PlacedTab) : Shown where
  kind := t.kind
  placement := placementOf t
  clusterId := if t.kind = .terminal then str "clusterId" t.spec else str "clusterId" t.state
  ns := if t.kind = .terminal then str "namespace" t.spec else none
  content := if t.kind = .yaml then str "content" t.state else none
  pristine := if t.kind = .yaml then flag (find "pristine" t.state) else none
  sessionId := if t.kind = .chat then str "sessionId" t.state else none

/-- The tabs that are stored while this much of the budget is left. -/
def keptTabs : List PlacedTab → ℕ → List PlacedTab
  | [], _ => []
  | t :: ts, left => if t.Passes left then t :: keptTabs ts (left - t.units) else keptTabs ts left

/-- A tab as the dock makes them: each sort has its home, and a buffer has its text and its flag. -/
structure TabWellFormed (t : PlacedTab) : Prop where
  placement : placementOf t = home t.kind
  content : t.kind = .yaml → (str "content" t.state).isSome
  pristine : t.kind = .yaml → (flag (find "pristine" t.state)).isSome

/-- A view of a drawer and a tray. The active tab of a placement lives there. -/
structure ViewWellFormed (v : PlacedView) (drawer : Option Panel) (tray : List Panel) : Prop where
  tabs : ∀ t ∈ v.dockTabs, TabWellFormed t
  nodup : (v.dockTabs.map fun t => t.id).Nodup
  size : v.dockTabs.length < 2 ^ 32
  active : ∀ p, ∀ t ∈ v.dockTabs, p.entry v.dockActive = some t.id → placementOf t = p
  drawer : v.drawer = drawer.map Panel.toJson
  tray : v.tray.map TrayItem.drawer = tray.map Panel.toJson

/-- The view holds these tabs, what the panels show but for long histories, and the active tabs of the old one. -/
structure Restores (kept : List PlacedTab) (dockActive : Placements (Option String)) (drawer : Option Panel)
    (tray : List Panel) (w : PlacedView) : Prop where
  tabs : w.dockTabs.map PlacedTab.shown = kept.map PlacedTab.shown
  nodup : (w.dockTabs.map fun t => t.id).Nodup
  active : ∀ (p : DockPlacement) (i : ℕ) (t : PlacedTab), kept[i]? = some t → p.entry dockActive = some t.id →
    ∃ t', w.dockTabs[i]? = some t' ∧ p.entry w.dockActive = some t'.id
  drawer : w.drawer = drawer.map fun d => d.capped.toJson
  tray : w.tray.map TrayItem.drawer = tray.map fun d => d.capped.toJson

/-- A placement has an active tab exactly if it has tabs, and only then can it be minimised. -/
structure Consistent (w : PlacedView) : Prop where
  empty : ∀ p, p.entry w.dockActive = none ↔ ∀ t ∈ w.dockTabs, placementOf t ≠ p
  active : ∀ p id, p.entry w.dockActive = some id → ∃ t ∈ w.dockTabs, t.id = id ∧ placementOf t = p
  minimised : ∀ p, (∀ t ∈ w.dockTabs, placementOf t ≠ p) → p.entry w.dockMin = false

/-! ## Tabs across a restart -/

section Tabs

def tabId (kind : DockTabKind) (n : ℕ) : String :=
  match kind with
  | .terminal => "term-" ++ toString n
  | .yaml => "yaml-" ++ toString n
  | .chat => "chat-" ++ toString n

/-- What a stored tab shows. -/
def storedShown : SessionDock → Shown
  | .terminal _ clusterId ns => ⟨.terminal, .bottom, some clusterId, ns, none, none, none⟩
  | .yaml _ content _ pristine clusterId => ⟨.yaml, .bottom, clusterId, none, some content, some pristine, none⟩
  | .chat clusterId _ sessionId => ⟨.chat, .right, some clusterId, none, none, none, sessionId⟩

variable {seq i n m : ℕ} {t : PlacedTab} {ts : List PlacedTab} {docks : List (ℕ × PlacedTab)} {p : DockPlacement}

@[simp] theorem asStr_orNull (s : Option String) : asStr (orNull .str s) = s := by
  cases s <;> rfl

@[simp] theorem asStr_str (s : String) : asStr (.str s : Json String) = some s := rfl

theorem str_cons (k k' : String) (v : Json String) (fs : Fields String) :
    str k ((k', v) :: fs) = if k' = k then asStr v else str k fs := by
  rw [SessionSnapshot.str, find_cons]
  split_ifs
  · rfl
  · rfl

theorem tabId_inj {k k' : DockTabKind} (h : tabId k m = tabId k' n) : m = n := by
  have hsplit (k : DockTabKind) (n : ℕ) : ∃ w : List Char, w.length = 5 ∧ (tabId k n).toList = w ++ (toString n).toList := by
    cases k with
    | terminal => exact ⟨"term-".toList, rfl, String.toList_append⟩
    | yaml => exact ⟨"yaml-".toList, rfl, String.toList_append⟩
    | chat => exact ⟨"chat-".toList, rfl, String.toList_append⟩
  obtain ⟨w, hw, hleft⟩ := hsplit k m
  obtain ⟨w', hw', hright⟩ := hsplit k' n
  have heq : w ++ (toString m).toList = w' ++ (toString n).toList := by rw [← hleft, ← hright, h]
  have hdigits := (List.append_inj heq (hw.trans hw'.symm)).2
  rw [Nat.toString_eq_repr, Nat.toString_eq_repr, Nat.toList_repr, Nat.toList_repr] at hdigits
  exact FixedWidthText.toDigits_inj hdigits

theorem id_restoreDock {d : Json String} (h : restoreDock env seq d = some t) : t.id = tabId t.kind seq := by
  cases d with
  | obj d =>
    simp only [restoreDock] at h
    split_ifs at h with hterminal hyaml hchat
    · obtain ⟨clusterId, -, rfl⟩ := Option.map_eq_some_iff.mp h
      rfl
    · cases h
      rfl
    · obtain ⟨clusterId, -, rfl⟩ := Option.map_eq_some_iff.mp h
      rfl
  | _ => cases h

theorem id_restoreDocks {ds : List (Json String)} {e : ℕ × PlacedTab} (h : e ∈ (restoreDocks env ds i seq).1) :
    ∃ n, seq ≤ n ∧ e.2.id = tabId e.2.kind n := by
  induction ds generalizing i seq with
  | nil => cases h
  | cons d ds ih =>
    simp only [restoreDocks] at h
    cases hd : restoreDock env seq d with
    | none =>
      rw [hd] at h
      exact ih h
    | some t =>
      rw [hd] at h
      rcases List.mem_cons.mp h with rfl | h
      · exact ⟨seq, le_rfl, id_restoreDock hd⟩
      · obtain ⟨n, hn, hid⟩ := ih h
        exact ⟨n, by omega, hid⟩

/-- The restored tabs have ids of their own. -/
theorem nodup_restoreDocks (ds : List (Json String)) (i seq : ℕ) :
    ((restoreDocks env ds i seq).1.map fun e => e.2.id).Nodup := by
  induction ds generalizing i seq with
  | nil => exact List.nodup_nil
  | cons d ds ih =>
    simp only [restoreDocks]
    cases hd : restoreDock env seq d with
    | none => exact ih (i + 1) seq
    | some t =>
      refine List.nodup_cons.mpr ⟨?_, ih (i + 1) (seq + 1)⟩
      intro hmem
      obtain ⟨e, he, hid⟩ := List.mem_map.mp hmem
      obtain ⟨n, hn, hlater⟩ := id_restoreDocks he
      have hsame : tabId e.2.kind n = tabId t.kind seq := by rw [← hlater, ← id_restoreDock hd, hid]
      have heq := tabId_inj hsame
      omega

/-- Every stored tab is restored, and shows the same. -/
theorem restoreDock_toJson (d : SessionDock) (seq : ℕ) :
    ∃ t, restoreDock env seq d.toJson = some t ∧ t.shown = storedShown d := by
  cases d with
  | terminal title clusterId ns =>
    refine ⟨_, by simp only [restoreDock, SessionDock.toJson, str_cons]; rfl, ?_⟩
    simp [PlacedTab.shown, storedShown, makeTerminalTab, placementOf, DockTab.spec, find_cons, str_cons]
  | yaml title content templateId pristine clusterId =>
    refine ⟨_, by simp only [restoreDock, SessionDock.toJson, str_cons]; rfl, ?_⟩
    simp [PlacedTab.shown, storedShown, makeYamlTab, placementOf, put, flag, find_cons, str_cons]
  | chat clusterId contextLabel sessionId =>
    refine ⟨_, by simp only [restoreDock, SessionDock.toJson, str_cons]; rfl, ?_⟩
    simp [PlacedTab.shown, storedShown, makeChatTab, placementOf, str_cons]

theorem restoreDocks_toJson (ds : List SessionDock) (i seq : ℕ) :
    ((restoreDocks env (ds.map SessionDock.toJson) i seq).1.map fun e => e.2.shown) = ds.map storedShown := by
  induction ds generalizing i seq with
  | nil => rfl
  | cons d ds ih =>
    obtain ⟨t, hd, hshown⟩ := @restoreDock_toJson env d seq
    rw [List.map_cons, restoreDocks, hd]
    simp only [List.map_cons, hshown, ih]

/-- Where all stored tabs are restored, one is found at its own index. -/
theorem lookup_restoreDocks (ds : List SessionDock) (i seq k : ℕ) :
    (restoreDocks env (ds.map SessionDock.toJson) i seq).1.lookup (i + k) =
      ((restoreDocks env (ds.map SessionDock.toJson) i seq).1.map Prod.snd)[k]? := by
  induction ds generalizing i seq k with
  | nil => rfl
  | cons d ds ih =>
    obtain ⟨t, hd, -⟩ := @restoreDock_toJson env d seq
    rw [List.map_cons, restoreDocks, hd]
    cases k with
    | zero => simp
    | succ k =>
      have hne : i + (k + 1) ≠ i := by omega
      have hnext : i + (k + 1) = i + 1 + k := by omega
      rw [lookup_cons_of_ne hne, List.map_cons, List.getElem?_cons_succ, hnext]
      exact ih (i + 1) (seq + 1) k

/-! ## The active tab -/

theorem pick_mem {want : Option (Json String)} {id : String} (h : pick env docks want p = some id) :
    ∃ t ∈ docks.map Prod.snd, t.id = id ∧ placementOf t = p := by
  obtain ⟨t, ht, hid⟩ := Option.map_eq_some_iff.mp h
  have hmem : t ∈ (docks.map Prod.snd).filter fun t => placementOf t = p := by
    rcases Option.or_eq_some_iff.mp ht with hfound | ⟨-, hlast⟩
    · exact List.mem_of_find?_eq_some hfound
    · exact List.mem_of_getLast? hlast
  obtain ⟨hdocks, hplace⟩ := List.mem_filter.mp hmem
  exact ⟨t, hdocks, hid, of_decide_eq_true hplace⟩

theorem pick_eq_none_iff {want : Option (Json String)} :
    pick env docks want p = none ↔ ∀ t ∈ docks.map Prod.snd, placementOf t ≠ p := by
  constructor
  · intro h t ht hplace
    have hlast := (Option.or_eq_none_iff.mp (Option.map_eq_none_iff.mp h)).2
    have hempty := List.getLast?_eq_none_iff.mp hlast
    exact List.not_mem_nil (hempty ▸ List.mem_filter.mpr ⟨ht, decide_eq_true hplace⟩)
  · intro h
    rw [Option.eq_none_iff_forall_ne_some]
    intro id hid
    obtain ⟨t, ht, -, hplace⟩ := pick_mem hid
    exact h t ht hplace

/-- A stored index that is for a tab of the placement is followed. -/
theorem pick_eq_some {number : String} (hindex : env.index number = some i) (hlookup : docks.lookup i = some t)
    (hplace : placementOf t = p) : pick env docks (some (.num number)) p = some t.id := by
  obtain ⟨l₁, l₂, heq, -⟩ := List.lookup_eq_some_iff.mp hlookup
  have hmem : t ∈ (docks.map Prod.snd).filter fun t => placementOf t = p := by
    refine List.mem_filter.mpr ⟨List.mem_map.mpr ⟨(i, t), ?_, rfl⟩, decide_eq_true hplace⟩
    exact heq ▸ List.mem_append_right l₁ List.mem_cons_self
  have hfound : (((docks.map Prod.snd).filter fun t => placementOf t = p).find? fun t' => some t'.id = some t.id).isSome :=
    List.find?_isSome.mpr ⟨t, hmem, by simp⟩
  obtain ⟨t', ht'⟩ := Option.isSome_iff_exists.mp hfound
  have hid := List.find?_some ht'
  simp only [pick, hindex, hlookup, Option.bind_some, Option.map_some, ht', Option.some_or]
  simpa using hid

end Tabs

/-! ## Panels across a restart -/

section Panels

theorem find_optional (k k' : String) (v : Option (Json String)) : find k (optional k' v) = if k' = k then v else none := by
  cases v with
  | none => simp [optional]
  | some v => simp [optional, find_cons]

theorem nstr_orNull (s : Option String) : nstr (some (orNull .str s)) = true := by
  cases s <;> rfl

/-- An object that shows what a reference does is accepted as one. -/
theorem detailRefOk_of_fields {r : DetailRef} {d : Fields String} (h : ∀ k v, (k, v) ∈ r.fields → find k d = some v) :
    detailRefOk (.obj d) = true ∧ detailRef (.obj d) = r.fields := by
  have hkindId := h "kindId" (.str r.kindId) (by simp [DetailRef.fields])
  have hclusterId := h "clusterId" (.str r.clusterId) (by simp [DetailRef.fields])
  have huid := h "uid" (.str r.uid) (by simp [DetailRef.fields])
  have hns := h "namespace" (orNull .str r.ns) (by simp [DetailRef.fields])
  have hname := h "name" (.str r.name) (by simp [DetailRef.fields])
  constructor
  · simp [detailRefOk, SessionSnapshot.str, hkindId, hclusterId, huid, hns, hname, nstr_orNull]
  · simp [detailRef, DetailRef.fields, Json.get?, hkindId, hclusterId, huid, hns, hname]

theorem find_fields {r : DetailRef} {k : String} {v : Json String} (h : (k, v) ∈ r.fields) : find k r.fields = some v :=
  find_of_mem (by simp [DetailRef.fields]) h

/-- A history of references is kept as far as the cap. -/
theorem history_map (rs : Option (List DetailRef)) :
    history (rs.map refsToJson) true = (rs.map fun rs => refsToJson (rs.drop (rs.length - detailHistoryCap))) ∧
      history (rs.map refsToJson) false = rs.map fun rs => refsToJson (rs.take detailHistoryCap) := by
  cases rs with
  | none => exact ⟨rfl, rfl⟩
  | some rs =>
    have hok : ((rs.map fun r => Json.obj r.fields).filter detailRefOk).map (fun r => Json.obj (detailRef r)) =
        rs.map fun r => .obj r.fields := by
      induction rs with
      | nil => rfl
      | cons r rs ih =>
        obtain ⟨haccepted, hsame⟩ := @detailRefOk_of_fields r r.fields fun k v => find_fields
        rw [List.map_cons, List.filter_cons_of_pos haccepted, List.map_cons, hsame, ih]
    constructor
    · simp [history, refsToJson, hok]
    · simp [history, refsToJson, hok]

theorem restoreView_map (v : Option DetailView) : restoreView (v.map DetailView.toJson) = v.map DetailView.toJson := by
  cases v with
  | none => rfl
  | some v =>
    obtain ⟨tab, scrollTop⟩ := v
    cases tab <;> cases scrollTop <;> rfl

theorem targetOk_toJson (t : ObserveTarget) : targetOk t.toJson = true := rfl

theorem sideOk_fields (x : CompareSide) : sideOk (.obj x.fields) = true := by
  simp [sideOk, CompareSide.fields, str_cons, find_cons, nstr_orNull, isNumber, numeral]

theorem subjectOk_toJson (x : InspectSubject) : subjectOk x.toJson = true := by
  simp [subjectOk, InspectSubject.toJson, sideOk, CompareSide.fields, str_cons, find_cons, nstr_orNull, isNumber, numeral,
    Json.get?]

theorem restoreDrawer_detail (shown : DetailRef) (view : Option DetailView) (back forward : Option (List DetailRef)) :
    restoreDrawer (Panel.detail shown view back forward).toJson =
      some (Panel.detail shown view back forward).capped.toJson := by
  simp only [Panel.toJson, Panel.capped]
  generalize hd : ("kind", Json.str "detail") :: shown.fields ++ optional "view" (view.map DetailView.toJson) ++
    optional "back" (back.map refsToJson) ++ optional "forward" (forward.map refsToJson) = d
  have hfields : ∀ k v, (k, v) ∈ shown.fields → find k d = some v := by
    intro k v hmem
    have hne : "kind" ≠ k := by
      rintro rfl
      simp [DetailRef.fields] at hmem
    simp [← hd, find_cons, hne, find_fields hmem]
  have hkind : str "kind" d = some "detail" := by
    simp [← hd, str_cons]
  have hview : find "view" d = view.map DetailView.toJson := by
    simp [← hd, find_cons, find_optional, DetailRef.fields]
  have hback : find "back" d = back.map refsToJson := by
    simp [← hd, find_cons, find_optional, DetailRef.fields]
  have hforward : find "forward" d = forward.map refsToJson := by
    simp [← hd, find_cons, find_optional, DetailRef.fields]
  have hns : str "namespace" d = shown.ns := by
    rw [SessionSnapshot.str, hfields "namespace" (orNull .str shown.ns) (by simp [DetailRef.fields])]
    exact asStr_orNull shown.ns
  have hput : put "namespace" (orNull .str shown.ns) (("kind", Json.str "detail") :: shown.fields) =
      ("kind", .str "detail") :: shown.fields := by
    simp [put, DetailRef.fields]
  obtain ⟨hok, hsame⟩ := detailRefOk_of_fields hfields
  simp only [restoreDrawer, hkind, if_pos, hok, hns, hsame, hput, hview, hback, hforward, restoreView_map, history_map,
    Option.map_map, Function.comp_def]

/-- A stored panel is restored, but for what is too far back or ahead in its history. -/
theorem restoreDrawer_toJson (d : Panel) : restoreDrawer d.toJson = some d.capped.toJson := by
  cases d with
  | detail shown view back forward => exact restoreDrawer_detail shown view back forward
  | logs targets htargets initialTab defaultContainer =>
    simp [restoreDrawer, Panel.toJson, Panel.capped, str_cons, find_cons, targetOk_toJson, htargets]
  | compare target =>
    simp [restoreDrawer, Panel.toJson, Panel.capped, CompareTarget.toJson, str_cons, find_cons, sideOk_fields]
  | inspect target =>
    simp [restoreDrawer, Panel.toJson, Panel.capped, InspectTarget.toJson, str_cons, find_cons, subjectOk_toJson,
      target.subjects_ne_nil]

theorem filterMap_restoreDrawer (ds : List Panel) :
    (ds.map Panel.toJson).filterMap restoreDrawer = ds.map fun d => d.capped.toJson := by
  simp [List.filterMap_map, restoreDrawer_toJson]

end Panels

/-! ## The tabs that are kept -/

section Kept

variable {v : PlacedView} {t : PlacedTab} {ts : List PlacedTab} {left : ℕ}

theorem keptTabs_eq (ts : List PlacedTab) (left : ℕ) :
    (keptTabs ts left).map PlacedTab.toDockTab = (passing (ts.map PlacedTab.toDockTab) left).1 := by
  induction ts generalizing left with
  | nil => rfl
  | cons t ts ih =>
    simp only [keptTabs, passing, List.map_cons]
    split_ifs
    · rw [List.map_cons, ih]
    · exact ih left

theorem keptTabs_sublist (ts : List PlacedTab) (left : ℕ) : (keptTabs ts left).Sublist ts := by
  induction ts generalizing left with
  | nil => exact List.Sublist.slnil
  | cons t ts ih =>
    simp only [keptTabs]
    split_ifs
    · exact (ih (left - t.units)).cons_cons t
    · exact (ih left).cons t

theorem restorable_of_mem_keptTabs (h : t ∈ keptTabs ts left) : t.Restorable := by
  induction ts generalizing left with
  | nil => cases h
  | cons t' ts ih =>
    simp only [keptTabs] at h
    split_ifs at h with hpasses
    · rcases List.mem_cons.mp h with rfl | h
      · exact hpasses.1
      · exact ih h
    · exact ih h

theorem eq_of_flag {x : Option (Json String)} {b : Bool} (h : flag x = some b) : x = some (.bool b) := by
  cases x with
  | none => cases h
  | some x =>
    cases x with
    | bool b' => exact congrArg (fun b => some (Json.bool b)) (Option.some_inj.mp h)
    | _ => cases h

/-- What is stored of a well-formed tab shows what the tab does. -/
theorem storedShown_record (hwf : TabWellFormed t) (h : t.Restorable) : storedShown t.record = t.shown := by
  have hplacement := hwf.placement
  have hcontent := hwf.content
  have hpristine := hwf.pristine
  obtain ⟨⟨id, kind, title, state⟩, placement⟩ := t
  cases kind with
  | terminal =>
    obtain ⟨clusterId, hcluster⟩ := Option.isSome_iff_exists.mp h.1
    simp [DockTab.record, DockTab.bare, SessionDock.withText, storedShown, PlacedTab.shown, hplacement, home, hcluster]
  | yaml =>
    obtain ⟨content, hcontent⟩ := Option.isSome_iff_exists.mp (hcontent rfl)
    obtain ⟨pristine, hpristine⟩ := Option.isSome_iff_exists.mp (hpristine rfl)
    have hflag := eq_of_flag hpristine
    simp [DockTab.record, DockTab.bare, DockTab.content, SessionDock.withText, storedShown, PlacedTab.shown, hplacement,
      home, hcontent, hflag, flag]
  | chat =>
    obtain ⟨clusterId, hcluster⟩ := Option.isSome_iff_exists.mp h
    simp [DockTab.record, DockTab.bare, SessionDock.withText, storedShown, PlacedTab.shown, hplacement, home, hcluster]

/-- The stored tabs and the indices of the active ones. -/
theorem snapshotSlice_toSliceView (v : PlacedView) (left : ℕ) :
    (snapshotSlice v.toSliceView left).1 =
      { dock := (keptTabs v.dockTabs left).map fun t => t.record
        active := ⟨indexOf ((keptTabs v.dockTabs left).map PlacedTab.toDockTab) v.dockActive.bottom,
          indexOf ((keptTabs v.dockTabs left).map PlacedTab.toDockTab) v.dockActive.right⟩
        dockMin := v.dockMin
        drawer := v.drawer
        tray := v.tray.map TrayItem.drawer } := by
  rw [snapshotSlice_eq, SliceView.recordBy, SliceView.select, PlacedView.toSliceView, ← keptTabs_eq, List.map_map]
  rfl

/-- Among tabs with ids of their own, the index of one is where it stands. -/
theorem indexOf_of_getElem {i : ℕ} (hnodup : (ts.map fun t => t.id).Nodup) (h : ts[i]? = some t) :
    indexOf (ts.map PlacedTab.toDockTab) (some t.id) = some i := by
  obtain ⟨hi, rfl⟩ := List.getElem?_eq_some_iff.mp h
  rw [indexOf, Option.bind_some, List.findIdx?_map, List.findIdx?_eq_some_iff_getElem]
  refine ⟨hi, by simp, fun j hj => ?_⟩
  have hne : ts[j].id ≠ ts[i].id :=
    List.pairwise_iff_getElem.mp (List.pairwise_map.mp hnodup) j i (by omega) hi hj
  simpa using hne

theorem entry_snapshotSlice (v : PlacedView) (left : ℕ) (p : DockPlacement) :
    p.entry (snapshotSlice v.toSliceView left).1.active =
      indexOf ((keptTabs v.dockTabs left).map PlacedTab.toDockTab) (p.entry v.dockActive) := by
  rw [snapshotSlice_toSliceView]
  cases p <;> rfl

end Kept

/-! ## Views across a restart -/

section Views

variable {v : PlacedView} {raw : Json String} {w : PlacedView} {left seq : ℕ}

theorem has_eq_false {dockTabs : List PlacedTab} {p : DockPlacement} (h : ∀ t ∈ dockTabs, placementOf t ≠ p) :
    has dockTabs p = false := by
  rw [has, List.any_eq_false]
  intro t ht hplace
  exact h t ht (of_decide_eq_true hplace)

/-- Whatever the file holds, a restored view is consistent. -/
theorem consistent_restoreSlice (h : (restoreSlice env raw seq).1 = some w) : Consistent w := by
  cases raw with
  | obj raw =>
    cases h
    refine ⟨fun p => ?_, fun p id hid => ?_, fun p hempty => ?_⟩
    · cases p <;> exact pick_eq_none_iff
    · cases p <;> exact pick_mem hid
    · cases p <;> exact Bool.and_eq_false_imp.mpr fun hhas => absurd hhas (by simp [has_eq_false hempty])
  | _ => cases h

/-- What a stored view becomes. -/
theorem restoreSlice_toJson (s : SessionTab) (seq : ℕ) :
    ∃ w, (restoreSlice env s.toJson seq).1 = some w ∧
      w.dockTabs = (restoreDocks env (s.dock.map SessionDock.toJson) 0 seq).1.map Prod.snd ∧
      (∀ p : DockPlacement, p.entry w.dockActive =
        pick env (restoreDocks env (s.dock.map SessionDock.toJson) 0 seq).1 (some (orNull numeral (p.entry s.active))) p) ∧
      w.drawer = s.drawer.bind restoreDrawer ∧ w.tray.map TrayItem.drawer = s.tray.filterMap restoreDrawer := by
  refine ⟨_, rfl, rfl, fun p => ?_, ?_, ?_⟩
  · cases p <;> rfl
  · cases s.drawer <;> rfl
  · have hdrawers := List.zipIdx_map_fst 0 (s.tray.filterMap restoreDrawer)
    rw [← hdrawers]
    exact List.map_map

/-- A well-formed view is restored from what is stored of it. -/
theorem restores_snapshotSlice {drawer : Option Panel} {tray : List Panel} (hwf : ViewWellFormed v drawer tray)
    (left seq : ℕ) :
    ∃ w, (restoreSlice env (snapshotSlice v.toSliceView left).1.toJson seq).1 = some w ∧
      Restores (keptTabs v.dockTabs left) v.dockActive drawer tray w := by
  have hsub := keptTabs_sublist v.dockTabs left
  have hnodup : ((keptTabs v.dockTabs left).map fun t => t.id).Nodup := hwf.nodup.sublist (hsub.map _)
  obtain ⟨w, hw, htabs, hactive, hdrawer, htray⟩ := @restoreSlice_toJson env (snapshotSlice v.toSliceView left).1 seq
  have hdock : (snapshotSlice v.toSliceView left).1.dock = (keptTabs v.dockTabs left).map fun t => t.record := by
    rw [snapshotSlice_toSliceView]
  rw [hdock] at htabs hactive
  rw [snapshotSlice_toSliceView] at hdrawer htray
  have hshown : w.dockTabs.map PlacedTab.shown = (keptTabs v.dockTabs left).map PlacedTab.shown := by
    have hstored := @restoreDocks_toJson env ((keptTabs v.dockTabs left).map fun t => t.record) 0 seq
    rw [htabs, List.map_map]
    refine hstored.trans ?_
    rw [List.map_map]
    refine List.map_congr_left fun t ht => ?_
    exact storedShown_record (hwf.tabs t (hsub.subset ht)) (restorable_of_mem_keptTabs ht)
  refine ⟨w, hw, ⟨hshown, ?_, ?_, ?_, ?_⟩⟩
  · rw [htabs, List.map_map]
    exact nodup_restoreDocks _ 0 seq
  · intro p i t ht hp
    have hi : i < 2 ^ 53 := by
      have hlt := (List.getElem?_eq_some_iff.mp ht).1
      have hle := hsub.length_le
      have hsize := hwf.size
      omega
    have hmem := List.mem_of_getElem? ht
    have hplace := hwf.active p t (hsub.subset hmem) hp
    have hrow : (w.dockTabs.map PlacedTab.shown)[i]? = some t.shown := by
      rw [hshown, List.getElem?_map, ht, Option.map_some]
    rw [List.getElem?_map] at hrow
    obtain ⟨t', ht', hsame⟩ := Option.map_eq_some_iff.mp hrow
    have hplace' : placementOf t' = p := (congrArg Shown.placement hsame).trans hplace
    have hlookup := @lookup_restoreDocks env ((keptTabs v.dockTabs left).map fun t => t.record) 0 seq i
    rw [Nat.zero_add, ← htabs, ht'] at hlookup
    refine ⟨t', ht', ?_⟩
    rw [hactive, entry_snapshotSlice, hp, indexOf_of_getElem hnodup ht]
    exact pick_eq_some (env.index_toString i hi) hlookup hplace'
  · rw [hdrawer, hwf.drawer]
    cases drawer with
    | none => rfl
    | some d => exact restoreDrawer_toJson d
  · rw [htray, hwf.tray, filterMap_restoreDrawer]

end Views

/-- Restoring undoes the snapshot of a well-formed view, and gives a consistent view of any JSON. -/
theorem restore_undoes_snapshot (env : Env) (seq : ℕ) :
    (∀ (v : PlacedView) (drawer : Option Panel) (tray : List Panel) (left : ℕ), ViewWellFormed v drawer tray →
      ∃ w, (restoreSlice env (snapshotSlice v.toSliceView left).1.toJson seq).1 = some w ∧
        Restores (keptTabs v.dockTabs left) v.dockActive drawer tray w) ∧
      ∀ (raw : Json String) (w : PlacedView), (restoreSlice env raw seq).1 = some w → Consistent w :=
  ⟨fun _ _ _ left hwf => restores_snapshotSlice hwf left seq, fun _ _ h => consistent_restoreSlice h⟩

def deployment : YamlTemplate where
  id := "deployment"
  yaml := "apiVersion: apps/v1\nkind: Deployment\nmetadata:\n  name: hello-world\n  namespace: default\n  labels:\n" ++
    "    app: hello-world\nspec:\n  replicas: 3\n  selector:\n    matchLabels:\n      app: hello-world\n" ++
    "  template:\n    metadata:\n      labels:\n        app: hello-world\n    spec:\n      containers:\n" ++
    "        - name: hello\n          image: nginx:1.27\n          ports:\n            - containerPort: 80\n"

/-- An environment with one template, where a number of digits is the index it is written as. -/
def localEnv : Env where
  yamlTemplates := [deployment]
  defaultTemplate := deployment
  find_default := List.find?_cons_of_pos (decide_eq_true rfl)
  toLowerCase := fun s => s.map Char.toLower
  randomUUID := fun n => "00000000-0000-4000-8000-00000000000" ++ toString n
  index := fun s => if s.toList.all Char.isDigit then some (Nat.ofDigitChars 10 s.toList 0) else none
  index_toString n _ := by
    have hdigits : (toString n).toList = Nat.toDigits 10 n := Nat.toList_repr
    have hall : (Nat.toDigits 10 n).all Char.isDigit = true :=
      List.all_eq_true.mpr fun c hc => Nat.isDigit_of_mem_toDigits (by omega) (by omega) hc
    rw [hdigits, if_pos hall, Nat.ofDigitChars_ten_toDigits]

/-- A shell in a pod, which is not stored, a shell, a buffer that was edited and a chat, with a panel in the tray. -/
def busyView : PlacedView where
  dockTabs :=
    [{ id := "term-1"
       kind := .terminal
       title := "exec web"
       placement := some .bottom
       state := [("spec", .obj [("mode", .str "exec"), ("clusterId", .str "kc::eu"), ("namespace", .str "shop"),
         ("pod", .str "web"), ("container", .null)])] },
      makeTerminalTab localEnv 2 "kc::eu" (some "shop") "eu",
      { makeYamlTab localEnv 3 (some "kc::eu") none with
        state := [("content", .str "kind: Pod\n"), ("templateId", .str "deployment"), ("pristine", .bool false),
          ("clusterId", .str "kc::eu")] },
      makeChatTab localEnv 4 "kc::eu" "eu" (some "s-1")]
  dockActive := ⟨some "yaml-3", some "chat-4"⟩
  dockMin := ⟨false, true⟩
  drawer := none
  tray := [⟨"tray-1", (Panel.logs [⟨"kc::eu", "pods", "shop", "web", none⟩] (by simp) (some .logs) none).toJson⟩]

theorem busyView_wellFormed :
    ViewWellFormed busyView none [.logs [⟨"kc::eu", "pods", "shop", "web", none⟩] (by simp) (some .logs) none] where
  tabs := by
    intro t ht
    simp only [busyView, List.mem_cons, List.not_mem_nil, or_false] at ht
    rcases ht with rfl | rfl | rfl | rfl
    · exact ⟨rfl, nofun, nofun⟩
    · exact ⟨rfl, nofun, nofun⟩
    · exact ⟨rfl, fun _ => rfl, fun _ => rfl⟩
    · exact ⟨rfl, nofun, nofun⟩
  nodup := by decide
  size := by decide
  active := by
    intro p t ht hp
    simp only [busyView, List.mem_cons, List.not_mem_nil, or_false] at ht
    rcases ht with rfl | rfl | rfl | rfl <;> cases p <;> first | rfl | exact absurd hp (by decide)
  drawer := rfl
  tray := rfl

theorem restore_undoes_snapshot_busyView :
    ∃ w, (restoreSlice localEnv (snapshotSlice busyView.toSliceView yamlSessionBudget).1.toJson 1).1 = some w ∧
      Restores (keptTabs busyView.dockTabs yamlSessionBudget) busyView.dockActive none
        [.logs [⟨"kc::eu", "pods", "shop", "web", none⟩] (by simp) (some .logs) none] w :=
  (restore_undoes_snapshot localEnv 1).1 busyView none _ yamlSessionBudget busyView_wellFormed

end FerrisScope.SessionRestore
