import FerrisScope.EntryLists
import FerrisScope.JsonText

/-!
# The session snapshot

What every open cluster tab was showing is stored as one JSON file, whose size the backend bounds. The
text of YAML buffers is on a budget, counted in UTF-16 code units, that the active tab spends first.
Everything else is stored unbudgeted, and the file is measured in bytes.

A drawer is stored as it is, so it is a JSON value here. A number in it is its literal.
-/

namespace FerrisScope.SessionSnapshot
open Json EntryLists

def sessionVersion : ℕ := 1

/-- Larger buffers are not stored. -/
def yamlPersistCap : ℕ := 256 * 1024

/-- The length of all YAML stored. -/
def yamlSessionBudget : ℕ := 3 * 1024 * 1024

def maxBytes : ℕ := 4 * 1024 * 1024

abbrev Drawer := Json String

inductive DockTabKind where
  | terminal
  | yaml
  | chat
  deriving DecidableEq, Repr

structure DockTab where
  id : String
  kind : DockTabKind
  title : String
  state : Fields String

structure Placements (α : Type) where
  bottom : α
  right : α

structure TrayItem where
  id : String
  drawer : Drawer

structure SliceView where
  dockTabs : List DockTab
  dockActive : Placements (Option String)
  dockMin : Placements Bool
  drawer : Option Drawer
  tray : List TrayItem

structure ClusterTab where
  id : String
  slice : SliceView

/-- The store. Its own view is that of the active tab. -/
structure State extends SliceView where
  openTabs : List ClusterTab
  activeTabId : Option String

inductive SessionDock where
  | terminal (title clusterId : String) (ns : Option String)
  | yaml (title content : String) (templateId : Option String) (pristine : Bool) (clusterId : Option String)
  | chat (clusterId contextLabel : String) (sessionId : Option String)

structure SessionTab where
  dock : List SessionDock
  active : Placements (Option ℕ)
  dockMin : Placements Bool
  drawer : Option Drawer
  tray : List Drawer

structure SessionFile where
  version : ℕ
  tabs : List (String × SessionTab)

def str (k : String) (fs : Fields String) : Option String := (find k fs).bind asStr

/-- What is stored of a dock tab, and what remains of the budget. -/
def snapshotDock (tab : DockTab) (left : ℕ) : Option SessionDock × ℕ :=
  let st := tab.state
  match tab.kind with
  | .terminal =>
    match find "spec" st with
    | some (.obj spec) =>
      match str "clusterId" spec with
      | some clusterId =>
        if str "mode" spec = some "shell" then (some (.terminal tab.title clusterId (str "namespace" spec)), left)
        else (none, left)
      | none => (none, left)
    | _ => (none, left)
  | .yaml =>
    let len := ((str "content" st).map utf16Length).getD 0
    if yamlPersistCap < len ∨ left < len then (none, left)
    else
      (some (.yaml tab.title ((str "content" st).getD "") (str "templateId" st) (find "pristine" st ≠ some (.bool false))
        (str "clusterId" st)), left - len)
  | .chat =>
    match str "clusterId" st with
    | some clusterId => (some (.chat clusterId ((str "contextLabel" st).getD clusterId) (str "sessionId" st)), left)
    | none => (none, left)

def snapshotDocks : List DockTab → ℕ → List (DockTab × SessionDock) × ℕ
  | [], left => ([], left)
  | t :: ts, left =>
    match snapshotDock t left with
    | (some snap, left) => ((t, snap) :: (snapshotDocks ts left).1, (snapshotDocks ts left).2)
    | (none, left) => snapshotDocks ts left

def indexOf (kept : List DockTab) (id : Option String) : Option ℕ :=
  id.bind fun id => kept.findIdx? fun t => t.id = id

def snapshotSlice (s : SliceView) (left : ℕ) : SessionTab × ℕ :=
  let r := snapshotDocks s.dockTabs left
  let kept := r.1.map Prod.fst
  ({ dock := r.1.map Prod.snd
     active := ⟨indexOf kept s.dockActive.bottom, indexOf kept s.dockActive.right⟩
     dockMin := s.dockMin
     drawer := s.drawer
     tray := s.tray.map TrayItem.drawer }, r.2)

section Collect

variable {α : Type} (visit : SliceView → ℕ → α × ℕ)

def visitTab (acc : List (String × α) × ℕ) (id : String) (view : SliceView) : List (String × α) × ℕ :=
  let r := visit view acc.2
  (put id r.1 acc.1, r.2)

def visitOpenTab (active : Option String) (acc : List (String × α) × ℕ) (tab : ClusterTab) : List (String × α) × ℕ :=
  if some tab.id = active then acc else visitTab visit acc tab.id tab.slice

/-- The active tab is visited first, from the live view, and every other one from its own slice. -/
def visitTabs (s : State) : List (String × α) × ℕ :=
  let start :=
    match s.activeTabId with
    | some id => visitTab visit ([], yamlSessionBudget) id s.toSliceView
    | none => ([], yamlSessionBudget)
  s.openTabs.foldl (visitOpenTab visit s.activeTabId) start

/-- What the visits give, in the order of the open tabs. -/
def collectTabs (s : State) : List (String × α) :=
  let tabs := (visitTabs visit s).1
  fromEntries (s.openTabs.filterMap fun t => (tabs.lookup t.id).map fun v => (t.id, v))

end Collect

def buildSession (s : State) : SessionFile := ⟨sessionVersion, collectTabs snapshotSlice s⟩

def orNull {α : Type} (f : α → Json String) : Option α → Json String
  | some x => f x
  | none => .null

def Placements.toJson {α : Type} (f : α → Json String) (p : Placements α) : Json String :=
  .obj [("bottom", f p.bottom), ("right", f p.right)]

def SessionDock.toJson : SessionDock → Json String
  | .terminal title clusterId ns =>
    .obj [("kind", .str "terminal"), ("title", .str title), ("clusterId", .str clusterId), ("namespace", orNull .str ns)]
  | .yaml title content templateId pristine clusterId =>
    .obj [("kind", .str "yaml"), ("title", .str title), ("content", .str content), ("templateId", orNull .str templateId),
      ("pristine", .bool pristine), ("clusterId", orNull .str clusterId)]
  | .chat clusterId contextLabel sessionId =>
    .obj [("kind", .str "chat"), ("clusterId", .str clusterId), ("contextLabel", .str contextLabel),
      ("sessionId", orNull .str sessionId)]

def numeral (n : ℕ) : Json String := .num (toString n)

def SessionTab.toJson (t : SessionTab) : Json String :=
  .obj [("dock", .arr (t.dock.map SessionDock.toJson)), ("active", t.active.toJson (orNull numeral)),
    ("dockMin", t.dockMin.toJson .bool), ("drawer", orNull id t.drawer), ("tray", .arr t.tray)]

def SessionFile.toJson (f : SessionFile) : Json String :=
  .obj [("version", numeral f.version), ("tabs", .obj (f.tabs.map (Prod.map id SessionTab.toJson)))]

/-- What is written to the file. -/
def saveTo (session : Json String) : Except String String :=
  let data := stringify session
  if maxBytes < data.utf8ByteSize then
    .error ("session snapshot is " ++ toString data.utf8ByteSize ++ " bytes (limit " ++ toString maxBytes ++ ")")
  else .ok data

/-- The snapshot fits and is accepted, and the active tab is stored as if it were the only one. -/
structure Stored (s : State) : Prop where
  fits : (stringify (buildSession s).toJson).utf8ByteSize ≤ maxBytes
  accepted : saveTo (buildSession s).toJson = .ok (stringify (buildSession s).toJson)
  preferred : ∀ id, s.activeTabId = some id → id ∈ s.openTabs.map ClusterTab.id →
    (buildSession s).tabs.lookup id = some (snapshotSlice s.toSliceView yamlSessionBudget).1

namespace DockTab

def spec (t : DockTab) : Fields String :=
  match find "spec" t.state with
  | some (.obj spec) => spec
  | _ => []

/-- A tab of a sort that is stored. -/
def Restorable (t : DockTab) : Prop :=
  match t.kind with
  | .terminal => (str "clusterId" t.spec).isSome ∧ str "mode" t.spec = some "shell"
  | .yaml => True
  | .chat => (str "clusterId" t.state).isSome

/-- The text of a buffer. -/
def content (t : DockTab) : String :=
  match t.kind with
  | .yaml => (str "content" t.state).getD ""
  | _ => ""

instance (t : DockTab) : Decidable t.Restorable := by
  unfold Restorable
  split <;> infer_instance

/-- What is stored besides the text of a buffer. -/
def bare (t : DockTab) : SessionDock :=
  match t.kind with
  | .terminal => .terminal t.title ((str "clusterId" t.spec).getD "") (str "namespace" t.spec)
  | .yaml =>
    .yaml t.title "" (str "templateId" t.state) (find "pristine" t.state ≠ some (.bool false)) (str "clusterId" t.state)
  | .chat =>
    .chat ((str "clusterId" t.state).getD "") ((str "contextLabel" t.state).or (str "clusterId" t.state) |>.getD "")
      (str "sessionId" t.state)

def units (t : DockTab) : ℕ := utf16Length t.content

/-- A tab that is stored while this much of the budget is left. -/
def Passes (left : ℕ) (t : DockTab) : Prop := t.Restorable ∧ t.units ≤ yamlPersistCap ∧ t.units ≤ left

instance (left : ℕ) (t : DockTab) : Decidable (t.Passes left) := instDecidableAnd

end DockTab

/-- The tabs that are stored, and what they leave of the budget. -/
def passing : List DockTab → ℕ → List DockTab × ℕ
  | [], left => ([], left)
  | t :: ts, left =>
    if t.Passes left then (t :: (passing ts (left - t.units)).1, (passing ts (left - t.units)).2) else passing ts left

namespace SliceView

/-- The view with the dock tabs that are stored. -/
def select (v : SliceView) (left : ℕ) : SliceView × ℕ :=
  ({ v with dockTabs := (passing v.dockTabs left).1 }, (passing v.dockTabs left).2)

def units (v : SliceView) : ℕ := (v.dockTabs.map DockTab.units).sum

def growth (v : SliceView) : ℕ := (v.dockTabs.map fun t => Json.growth t.content).sum

/-- A view stored with a given record of each dock tab. -/
def recordBy (f : DockTab → SessionDock) (v : SliceView) : SessionTab where
  dock := v.dockTabs.map f
  active := ⟨indexOf v.dockTabs v.dockActive.bottom, indexOf v.dockTabs v.dockActive.right⟩
  dockMin := v.dockMin
  drawer := v.drawer
  tray := v.tray.map TrayItem.drawer

end SliceView

/-- The open tabs with what is stored of their docks. -/
def kept (s : State) : List (String × SliceView) := collectTabs SliceView.select s

/-- The length of the stored buffers. -/
def carried (s : State) : ℕ := ((kept s).map fun e => e.2.units).sum

/-- What escaping and encoding add to that length. -/
def expansion (s : State) : ℕ := ((kept s).map fun e => e.2.growth).sum

/-- The bytes of everything but the text of buffers. -/
def unbudgeted (s : State) : ℕ :=
  textSize (SessionFile.toJson ⟨sessionVersion, (kept s).map (Prod.map id (SliceView.recordBy DockTab.bare))⟩)

section Selection

/-- A record with the text of its buffer. -/
def SessionDock.withText (content : String) : SessionDock → SessionDock
  | .yaml title _ templateId pristine clusterId => .yaml title content templateId pristine clusterId
  | d => d

def DockTab.record (t : DockTab) : SessionDock := t.bare.withText t.content

/-- A dock tab is stored exactly if it passes. -/
theorem snapshotDock_eq (t : DockTab) (left : ℕ) :
    snapshotDock t left = if t.Passes left then (some t.record, left - t.units) else (none, left) := by
  obtain ⟨id, kind, title, state⟩ := t
  have hempty : utf16Length "" = 0 := rfl
  cases kind with
  | terminal =>
    simp only [snapshotDock, DockTab.Passes, DockTab.Restorable, DockTab.spec, DockTab.units, DockTab.content,
      DockTab.record, DockTab.bare, SessionDock.withText]
    obtain hspec | ⟨v, hspec⟩ := Option.eq_none_or_eq_some (find "spec" state)
    · simp [hspec, str]
    · cases v with
      | obj spec =>
        obtain hcluster | ⟨clusterId, hcluster⟩ := Option.eq_none_or_eq_some (str "clusterId" spec)
        · simp [hspec, hcluster]
        · simp [hspec, hcluster, hempty]
      | _ => simp [hspec, str]
  | yaml =>
    simp only [snapshotDock, DockTab.Passes, DockTab.Restorable, DockTab.units, DockTab.content, DockTab.record,
      DockTab.bare, SessionDock.withText, true_and]
    have hlen : ((str "content" state).map utf16Length).getD 0 = utf16Length ((str "content" state).getD "") := by
      cases str "content" state <;> rfl
    rw [hlen]
    split_ifs <;> first | rfl | omega
  | chat =>
    simp only [snapshotDock, DockTab.Passes, DockTab.Restorable, DockTab.units, DockTab.content, DockTab.record,
      DockTab.bare, SessionDock.withText]
    obtain hcluster | ⟨clusterId, hcluster⟩ := Option.eq_none_or_eq_some (str "clusterId" state)
    · simp [hcluster]
    · cases hlabel : str "contextLabel" state <;> simp [hcluster, hempty]

theorem snapshotDocks_eq (ts : List DockTab) (left : ℕ) :
    snapshotDocks ts left = ((passing ts left).1.map fun t => (t, t.record), (passing ts left).2) := by
  induction ts generalizing left with
  | nil => rfl
  | cons t ts ih =>
    simp only [snapshotDocks, passing, snapshotDock_eq]
    split_ifs with hp
    · simp [ih]
    · simp [ih]

theorem snapshotSlice_eq (v : SliceView) (left : ℕ) :
    snapshotSlice v left = ((v.select left).1.recordBy DockTab.record, (v.select left).2) := by
  simp [snapshotSlice, snapshotDocks_eq, SliceView.select, SliceView.recordBy, Function.comp_def]

theorem units_passing (ts : List DockTab) (left : ℕ) :
    ((passing ts left).1.map DockTab.units).sum + (passing ts left).2 = left := by
  induction ts generalizing left with
  | nil => simp [passing]
  | cons t ts ih =>
    simp only [passing]
    split_ifs with hp
    · have hrest := ih (left - t.units)
      have hle := hp.2.2
      simp only [List.map_cons, List.sum_cons]
      omega
    · exact ih left

end Selection

section Collected

variable {α β : Type} {visit : SliceView → ℕ → α × ℕ} {s : State}

/-- Visiting tabs commutes with a map of what the visits give. -/
theorem visitTabs_map {visit' : SliceView → ℕ → β × ℕ} (f : α → β)
    (h : ∀ v left, visit' v left = (f (visit v left).1, (visit v left).2)) :
    visitTabs visit' s = ((visitTabs visit s).1.map (Prod.map id f), (visitTabs visit s).2) := by
  have htab (acc : List (String × α) × ℕ) (key : String) (view : SliceView) :
      visitTab visit' (acc.1.map (Prod.map id f), acc.2) key view =
        ((visitTab visit acc key view).1.map (Prod.map id f), (visitTab visit acc key view).2) := by
    simp [visitTab, h, map_put]
  have hfold (active : Option String) (tabs : List ClusterTab) (acc : List (String × α) × ℕ) :
      tabs.foldl (visitOpenTab visit' active) (acc.1.map (Prod.map id f), acc.2) =
        ((tabs.foldl (visitOpenTab visit active) acc).1.map (Prod.map id f),
          (tabs.foldl (visitOpenTab visit active) acc).2) := by
    induction tabs generalizing acc with
    | nil => rfl
    | cons tab tabs ih =>
      have hopen : visitOpenTab visit' active (acc.1.map (Prod.map id f), acc.2) tab =
          ((visitOpenTab visit active acc tab).1.map (Prod.map id f), (visitOpenTab visit active acc tab).2) := by
        unfold visitOpenTab
        split_ifs
        · rfl
        · exact htab acc tab.id tab.slice
      rw [List.foldl_cons, List.foldl_cons, hopen, ih]
  obtain ⟨view, openTabs, activeTabId⟩ := s
  cases activeTabId with
  | none => exact hfold none openTabs ([], yamlSessionBudget)
  | some key =>
    have hstart := htab ([], yamlSessionBudget) key view
    simp only [visitTabs, ← hfold, ← hstart]
    rfl

theorem collectTabs_map {visit' : SliceView → ℕ → β × ℕ} (f : α → β)
    (h : ∀ v left, visit' v left = (f (visit v left).1, (visit v left).2)) :
    collectTabs visit' s = (collectTabs visit s).map (Prod.map id f) := by
  simp only [collectTabs, visitTabs_map f h, map_fromEntries, lookup_map, List.map_filterMap, Option.map_map]
  rfl

/-- If an open tab is active, its value is that of the first visit. -/
theorem lookup_collectTabs {key : String} (hactive : s.activeTabId = some key)
    (hopen : key ∈ s.openTabs.map ClusterTab.id) :
    (collectTabs visit s).lookup key = some (visit s.toSliceView yamlSessionBudget).1 := by
  have hfold (tabs : List ClusterTab) (acc : List (String × α) × ℕ) :
      (tabs.foldl (visitOpenTab visit s.activeTabId) acc).1.lookup key = acc.1.lookup key := by
    induction tabs generalizing acc with
    | nil => rfl
    | cons tab tabs ih =>
      rw [List.foldl_cons, ih, visitOpenTab]
      split_ifs with hsame
      · rfl
      · have hne : key ≠ tab.id := by
          rintro rfl
          exact hsame hactive.symm
        rw [visitTab, lookup_put, if_neg hne]
  have hvisited : (visitTabs visit s).1.lookup key = some (visit s.toSliceView yamlSessionBudget).1 := by
    rw [visitTabs, hfold, hactive]
    simp [visitTab, put]
  obtain ⟨tab, htab, rfl⟩ := List.mem_map.mp hopen
  refine lookup_fromEntries (List.mem_filterMap.mpr ⟨tab, htab, by rw [hvisited]; rfl⟩) fun w hw => ?_
  obtain ⟨tab', -, htab'⟩ := List.mem_filterMap.mp hw
  obtain ⟨v, hv, heq⟩ := Option.map_eq_some_iff.mp htab'
  obtain ⟨hid, rfl⟩ := Prod.ext_iff.mp heq
  rw [show tab'.id = tab.id from hid, hvisited] at hv
  exact (Option.some_inj.mp hv).symm

/-- What the visits give measures no more than the budget, if each gives no more than it takes of it. -/
theorem sum_collectTabs_le {m : α → ℕ} (h : ∀ v left, m (visit v left).1 + (visit v left).2 ≤ left) :
    ((collectTabs visit s).map fun e => m e.2).sum ≤ yamlSessionBudget := by
  have htab (acc : List (String × α) × ℕ) (key : String) (view : SliceView) :
      ((visitTab visit acc key view).1.map fun e => m e.2).sum + (visitTab visit acc key view).2 ≤
        (acc.1.map fun e => m e.2).sum + acc.2 := by
    have hput := @sum_put_le _ _ _ key (visit view acc.2).1 acc.1 m
    have hvisit := h view acc.2
    simp only [visitTab]
    omega
  have hfold (active : Option String) (tabs : List ClusterTab) (acc : List (String × α) × ℕ) :
      ((tabs.foldl (visitOpenTab visit active) acc).1.map fun e => m e.2).sum +
        (tabs.foldl (visitOpenTab visit active) acc).2 ≤ (acc.1.map fun e => m e.2).sum + acc.2 := by
    induction tabs generalizing acc with
    | nil => exact le_rfl
    | cons tab tabs ih =>
      refine (ih _).trans ?_
      unfold visitOpenTab
      split_ifs
      · exact le_rfl
      · exact htab acc tab.id tab.slice
  have hvisited : ((visitTabs visit s).1.map fun e => m e.2).sum + (visitTabs visit s).2 ≤ yamlSessionBudget := by
    obtain ⟨view, openTabs, activeTabId⟩ := s
    cases activeTabId with
    | none => simpa [visitTabs] using hfold none openTabs ([], yamlSessionBudget)
    | some key => simpa [visitTabs] using (hfold (some key) openTabs _).trans (htab ([], yamlSessionBudget) key view)
  have hsub : ∀ e ∈ collectTabs visit s, e ∈ (visitTabs visit s).1 := by
    intro e he
    obtain ⟨tab, -, htab⟩ := List.mem_filterMap.mp (mem_fromEntries he)
    obtain ⟨v, hv, rfl⟩ := Option.map_eq_some_iff.mp htab
    obtain ⟨l₁, l₂, heq, -⟩ := List.lookup_eq_some_iff.mp hv
    exact heq ▸ List.mem_append_right l₁ List.mem_cons_self
  have hle := sum_le_of_subset (fun e => m e.2) nodup_fromEntries hsub
  exact (hle.trans (Nat.le_add_right ..)).trans hvisited

end Collected

/-- The budget holds: the buffers stored are at most 3 MiB long. -/
theorem carried_le (s : State) : carried s ≤ yamlSessionBudget :=
  sum_collectTabs_le fun v left => (units_passing v.dockTabs left).le

theorem buildSession_tabs (s : State) :
    (buildSession s).tabs = (kept s).map (Prod.map id (SliceView.recordBy DockTab.record)) :=
  collectTabs_map (SliceView.recordBy DockTab.record) snapshotSlice_eq

section Sizes

theorem textSize_record (t : DockTab) :
    textSize t.record.toJson = textSize t.bare.toJson + t.units + Json.growth t.content := by
  obtain ⟨id, kind, title, state⟩ := t
  have hempty : utf16Length "" = 0 ∧ Json.growth "" = 0 := ⟨rfl, rfl⟩
  cases kind with
  | terminal | chat =>
    simp [DockTab.record, DockTab.bare, SessionDock.withText, DockTab.units, DockTab.content, hempty]
  | yaml =>
    simp only [DockTab.record, DockTab.bare, SessionDock.withText, DockTab.units, DockTab.content, SessionDock.toJson,
      textSize_obj, List.map_cons, List.map_nil, List.sum_cons, List.length_cons]
    have hstr := textSize_str ((str "content" state).getD "")
    generalize textSize (.str ((str "content" state).getD "")) = size at hstr ⊢
    omega

/-- A stored view takes the length and the growth of its buffers beyond the rest of it. -/
theorem textSize_recordBy (v : SliceView) :
    textSize (v.recordBy DockTab.record).toJson = textSize (v.recordBy DockTab.bare).toJson + v.units + v.growth := by
  have hdock : ((v.dockTabs.map fun t => textSize t.record.toJson)).sum =
      (v.dockTabs.map fun t => textSize t.bare.toJson).sum + v.units + v.growth := by
    simp only [textSize_record, List.sum_map_add]
    rfl
  simp only [SessionTab.toJson, SliceView.recordBy, textSize_obj, textSize_arr, List.map_cons, List.map_nil, List.sum_cons,
    List.map_map, Function.comp_def, List.length_map, List.length_cons, hdock]
  omega

/-- The bytes of the snapshot. -/
theorem textSize_buildSession (s : State) :
    textSize (buildSession s).toJson = unbudgeted s + carried s + expansion s := by
  have htabs : (((kept s).map fun e => utf8Size (quote e.1) + 1 + textSize (e.2.recordBy DockTab.record).toJson)).sum =
      ((kept s).map fun e => utf8Size (quote e.1) + 1 + textSize (e.2.recordBy DockTab.bare).toJson).sum + carried s +
        expansion s := by
    simp only [textSize_recordBy, ← add_assoc, List.sum_map_add]
    rfl
  have hversion : (buildSession s).version = sessionVersion := rfl
  rw [unbudgeted, SessionFile.toJson, SessionFile.toJson, buildSession_tabs, hversion]
  simp only [textSize_obj, List.map_cons, List.map_nil, List.sum_cons, List.map_map, Function.comp_def, Prod.map_fst,
    Prod.map_snd, id_eq, List.length_map, List.length_cons, htabs]
  omega

end Sizes

theorem saveTo_eq_ok {j : Json String} (h : (stringify j).utf8ByteSize ≤ maxBytes) : saveTo j = .ok (stringify j) :=
  if_neg h.not_gt

/-- The snapshot is stored exactly when the bytes that nothing counts, those of everything but the text of
buffers and those that escaping and encoding add to that text, fit in what the buffers' length leaves. -/
theorem stored_iff (s : State) : Stored s ↔ unbudgeted s + expansion s ≤ maxBytes - carried s := by
  have hsize := textSize_buildSession s
  have hcarried := carried_le s
  have hbudget : yamlSessionBudget ≤ maxBytes := by decide
  constructor
  · intro h
    have hfits := h.fits
    rw [utf8ByteSize_stringify] at hfits
    omega
  · intro h
    have hfits : (stringify (buildSession s).toJson).utf8ByteSize ≤ maxBytes := by
      rw [utf8ByteSize_stringify]
      omega
    exact ⟨hfits, saveTo_eq_ok hfits, fun key hactive hopen => lookup_collectTabs hactive hopen⟩

/-- A buffer of characters that take three bytes. -/
def wideBuffer (len n : ℕ) : DockTab where
  id := "yaml-" ++ toString n
  kind := .yaml
  title := "manifest.yaml"
  state := [("content", .str (String.ofList (List.replicate len '中')))]

/-- The active tab shows six such buffers. -/
def wideState (len : ℕ) : State where
  dockTabs := [0, 1, 2, 3, 4, 5].map (wideBuffer len)
  dockActive := ⟨some "yaml-5", none⟩
  dockMin := ⟨false, false⟩
  drawer := none
  tray := []
  openTabs := [⟨"a", ⟨[], ⟨none, none⟩, ⟨false, false⟩, none, []⟩⟩]
  activeTabId := some "a"

section Wide

variable {len : ℕ}

theorem content_wideBuffer (n : ℕ) : (wideBuffer len n).content = String.ofList (List.replicate len '中') := rfl

theorem units_wideBuffer (n : ℕ) : (wideBuffer len n).units = len := by
  rw [DockTab.units, content_wideBuffer, utf16Length]
  simp [utf16Size]

theorem growth_wideBuffer (n : ℕ) : Json.growth (wideBuffer len n).content = 2 * len := by
  have hchar : utf8Size (escape '中') - utf16Size '中' = 2 := by decide
  rw [content_wideBuffer, Json.growth]
  simp [hchar, mul_comm]

theorem kept_wideState (hcap : len ≤ yamlPersistCap) (hbudget : 6 * len ≤ yamlSessionBudget) :
    kept (wideState len) = [("a", (wideState len).toSliceView)] := by
  have hpasses (n left : ℕ) : (wideBuffer len n).Passes left ↔ len ≤ left := by
    rw [DockTab.Passes, units_wideBuffer]
    exact ⟨fun h => h.2.2, fun h => ⟨trivial, hcap, h⟩⟩
  have hpassing : (passing (wideState len).dockTabs yamlSessionBudget).1 = (wideState len).dockTabs := by
    simp only [wideState, List.map_cons, List.map_nil, passing, hpasses, units_wideBuffer]
    simp (disch := omega) only [if_pos]
  have hselect : ((wideState len).toSliceView.select yamlSessionBudget).1 = (wideState len).toSliceView := by
    rw [SliceView.select, hpassing]
  have hvisit : (visitTabs SliceView.select (wideState len)).1 =
      [("a", ((wideState len).toSliceView.select yamlSessionBudget).1)] := rfl
  rw [kept, collectTabs, hvisit, hselect]
  rfl

end Wide

/-- Buffers within the cap and the budget, and the snapshot is too large. -/
theorem wideState_not_stored : ¬ Stored (wideState 262144) := by
  intro h
  have hsize := textSize_buildSession (wideState 262144)
  have hfits := h.fits
  rw [utf8ByteSize_stringify] at hfits
  have hkept := @kept_wideState 262144 (by decide) (by decide)
  have hcarried : carried (wideState 262144) = 6 * 262144 := by
    rw [carried, hkept]
    simp [SliceView.units, wideState, units_wideBuffer]
  have hexpansion : expansion (wideState 262144) = 12 * 262144 := by
    rw [expansion, hkept]
    simp [SliceView.growth, wideState, growth_wideBuffer]
  unfold maxBytes at hfits
  omega

end FerrisScope.SessionSnapshot
