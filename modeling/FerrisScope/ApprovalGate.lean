import FerrisScope.LabelledRuns
import FerrisScope.SessionEvents
import Mathlib.Logic.Function.Basic

/-!
# The approval of tool calls

A call runs at once when its category is a read, when the chat allows all writes or when its tool was
approved for good; otherwise a card is shown and the call waits for the operator. The waiting calls
are kept by the id of the call, which the provider chose, and a decision is handed to whichever call
is kept under the id of its card.

Whether an MCP tool counts as a read is decided over all servers, while the call goes to the first
connected server that has the tool. A call is only ever run with the approval it needs where these
two agree, and where no decision is given while another call waits under the id of its card.
-/

namespace FerrisScope.ApprovalGate
open LabelledRuns ChatMessages SessionEvents

inductive ToolCategory where
  | read
  | write
  | unknown
  deriving DecidableEq, Repr

def writeMarkers : List String :=
  ["create_or_update", "_create", "_update", "_delete", "_patch", "_apply", "_install", "_uninstall", "_upgrade",
    "_rollback", "_exec", "_run", "_scale", "_restart", "_drain", "_cordon", "_uncordon", "_evict"]

def readMarkers : List String :=
  ["_list", "_get", "_describe", "_view", "_top", "_log", "_logs", "_status", "events_", "configuration_",
    "namespaces_", "resources_list", "resources_get"]

def containsText (text marker : List Char) : Bool := text.tails.any marker.isPrefixOf

/-- The category that the name of a tool suggests. -/
def classify (name : String) : ToolCategory :=
  let n := name.toList.map Char.toLower
  if writeMarkers.any fun m => containsText n m.toList then .write
  else if readMarkers.any fun m => containsText n m.toList then .read
  else .unknown

structure NativeTool where
  name : String
  category : ToolCategory
  deriving DecidableEq, Repr

structure McpServer where
  trustAsRead : Bool
  tools : List String
  connected : Bool
  deriving DecidableEq, Repr

structure Chat where
  native : List NativeTool
  servers : List McpServer
  approvalMode : ApprovalMode
  validArgs : String → Bool

/-- Where a call is run. -/
inductive Target where
  | native (tool : NativeTool)
  | server (server : McpServer)
  deriving DecidableEq, Repr

def findNative (chat : Chat) (name : String) : Option NativeTool := chat.native.find? fun t => t.name = name

def mcpToolIsTrusted (chat : Chat) (name : String) : Bool :=
  chat.servers.any fun s => s.trustAsRead && s.tools.contains name

/-- The category the gate goes by. -/
def category (chat : Chat) (name : String) : ToolCategory :=
  match findNative chat name with
  | some t => t.category
  | none => if mcpToolIsTrusted chat name then .read else classify name

def isDestructive (c : ToolCategory) : Bool := c = .write || c = .unknown

/-- The first connected server that has the tool. -/
def owner (chat : Chat) (name : String) : Option McpServer :=
  chat.servers.find? fun s => s.tools.contains name && s.connected

def dispatch (chat : Chat) (name : String) : Option Target :=
  match findNative chat name with
  | some t => some (.native t)
  | none => (owner chat name).map .server

/-- The category of a tool where it is run. -/
def categoryOn (name : String) : Target → ToolCategory
  | .native t => t.category
  | .server s => if s.trustAsRead then .read else classify name

inductive Phase where
  | fresh
  | checking
  | asking
  | awaiting
  | decided (decision : ApprovalDecision)
  | cleared
  | refused
  | executed
  | unavailable
  | dropped
  deriving DecidableEq, Repr

structure Call where
  tc : ToolCall
  phase : Phase
  deriving DecidableEq, Repr

/-- The calls of all batches in the order they were requested. `cards` are the calls that asked, and
`decisions` what the operator answered on which card. -/
structure State where
  calls : List Call
  pending : String → Option Nat
  approvedAlways : List String
  cards : List Nat
  decisions : List (Nat × ApprovalDecision)
  executions : List (Nat × Target)

def chatOpen : State where
  calls := []
  pending := fun _ => none
  approvedAlways := []
  cards := []
  decisions := []
  executions := []

def setPhase (s : State) (i : Nat) (p : Phase) : State :=
  { s with calls := s.calls.modify i fun c => { c with phase := p } }

/-- After the arguments and the category have been looked at. -/
def afterClassify (chat : Chat) (tc : ToolCall) : Phase :=
  if !chat.validArgs tc.arguments then .refused
  else if isDestructive (category chat tc.name) && chat.approvalMode != .allowAllWrites then .checking
  else .cleared

/-- The sender that was kept under an id is gone: the call it belonged to is denied. -/
def dropSender (s : State) (id : String) : State :=
  match s.pending id with
  | none => s
  | some j => setPhase s j (.decided .denied)

def requestApproval (s : State) (i : Nat) (id : String) : State :=
  let s := setPhase (dropSender s id) i .awaiting
  { s with pending := Function.update s.pending id (some i), cards := s.cards ++ [i] }

/-- A decision on the card of call `i`, which has this id. -/
def approveToolCall (s : State) (i : Nat) (id : String) (d : ApprovalDecision) : State :=
  let s := { s with decisions := s.decisions ++ [(i, d)] }
  match s.pending id with
  | none => s
  | some j => setPhase { s with pending := Function.update s.pending id none } j (.decided d)

def resume (s : State) (i : Nat) (name : String) : ApprovalDecision → State
  | .approved => setPhase s i .cleared
  | .approvedAlways => setPhase { s with approvedAlways := name :: s.approvedAlways } i .cleared
  | .denied => setPhase s i .refused

def execute (chat : Chat) (s : State) (i : Nat) (name : String) : State :=
  match dispatch chat name with
  | none => setPhase s i .unavailable
  | some t => setPhase { s with executions := s.executions ++ [(i, t)] } i .executed

/-- The turn is gone, and with it every call that has not been run. -/
def dropCall (c : Call) : Call := if c.phase = .executed then c else { c with phase := .dropped }

inductive Action where
  | issue (tc : ToolCall)
  | classify (i : Nat)
  | check (i : Nat)
  | ask (i : Nat)
  | decide (i : Nat) (decision : ApprovalDecision)
  | resume (i : Nat)
  | execute (i : Nat)
  | cancel
  deriving DecidableEq, Repr

def step (chat : Chat) (s : State) : Action → Option State
  | .issue tc => some { s with calls := s.calls ++ [⟨tc, .fresh⟩] }
  | .classify i =>
    match s.calls[i]? with
    | some ⟨tc, .fresh⟩ => some (setPhase s i (afterClassify chat tc))
    | _ => none
  | .check i =>
    match s.calls[i]? with
    | some ⟨tc, .checking⟩ => some (setPhase s i (if s.approvedAlways.contains tc.name then .cleared else .asking))
    | _ => none
  | .ask i =>
    match s.calls[i]? with
    | some ⟨tc, .asking⟩ => some (requestApproval s i tc.id)
    | _ => none
  | .decide i d =>
    match s.calls[i]? with
    | some c => if s.cards.contains i then some (approveToolCall s i c.tc.id d) else none
    | none => none
  | .resume i =>
    match s.calls[i]? with
    | some ⟨tc, .decided d⟩ => some (resume s i tc.name d)
    | _ => none
  | .execute i =>
    match s.calls[i]? with
    | some ⟨tc, .cleared⟩ => some (execute chat s i tc.name)
    | _ => none
  | .cancel => some { s with calls := s.calls.map dropCall, pending := fun _ => none }

/-- The operator has allowed call `i`, on its own card or its tool for good. -/
def Allowed (s : State) (i : Nat) (name : String) : Prop :=
  (i, .approved) ∈ s.decisions ∨
    ∃ j c, s.calls[j]? = some c ∧ c.tc.name = name ∧ (j, .approvedAlways) ∈ s.decisions

/-- Every call that was run where its tool is no read had been allowed. -/
def Gated (s : State) : Prop :=
  ∀ i t, (i, t) ∈ s.executions → ∃ c, s.calls[i]? = some c ∧
    (isDestructive (categoryOn c.tc.name t) = true → Allowed s i c.tc.name)

/-- What the servers say of a tool agrees with the server it is run on. -/
def TrustAgrees (chat : Chat) (name : String) : Prop :=
  findNative chat name = none → mcpToolIsTrusted chat name = true → classify name = .read ∨
    ∀ s, owner chat name = some s → s.trustAsRead = true

/-- A call is only let through on trust where its server is trusted, and a decision is only given
while no other call waits under the id of its card. -/
def Careful (chat : Chat) (s : State) : Action → Prop
  | .classify i => ∀ c, s.calls[i]? = some c → TrustAgrees chat c.tc.name
  | .decide i _ => ∀ c, s.calls[i]? = some c → s.pending c.tc.id = none ∨ s.pending c.tc.id = some i
  | _ => True

/-- The calls keep their places, and no decision is forgotten. -/
structure Grows (s t : State) : Prop where
  calls : ∀ (i : Nat) (c : Call), s.calls[i]? = some c → ∃ c' : Call, t.calls[i]? = some c' ∧ c'.tc = c.tc
  decisions : s.decisions ⊆ t.decisions

theorem Allowed.mono {s t : State} (h : Grows s t) {i : Nat} {name : String} (ha : Allowed s i name) :
    Allowed t i name := by
  rcases ha with ha | ⟨j, c, hc, hname, hd⟩
  · exact .inl (h.decisions ha)
  · obtain ⟨c', hc', htc⟩ := h.calls j c hc
    exact .inr ⟨j, c', hc', by rw [htc, hname], h.decisions hd⟩

section Phases

variable {s : State} {i : Nat} {p : Phase}

theorem calls_setPhase (s : State) (i : Nat) (p : Phase) (j : Nat) :
    (setPhase s i p).calls[j]? = (s.calls[j]?).map fun c => if i = j then { c with phase := p } else c := by
  rw [setPhase, List.getElem?_modify]
  rfl

/-- A call after one phase was set: it is as it was, or it is the one that was set. -/
theorem of_calls_setPhase {j : Nat} {c' : Call} (h : (setPhase s i p).calls[j]? = some c') :
    ∃ c, s.calls[j]? = some c ∧ c'.tc = c.tc ∧ (i = j ∧ c'.phase = p ∨ c'.phase = c.phase) := by
  rw [calls_setPhase] at h
  obtain ⟨c, hc, rfl⟩ := Option.map_eq_some_iff.mp h
  refine ⟨c, hc, ?_⟩
  by_cases hij : i = j
  · rw [if_pos hij]
    exact ⟨rfl, .inl ⟨hij, rfl⟩⟩
  · rw [if_neg hij]
    exact ⟨rfl, .inr rfl⟩

theorem grows_setPhase (s : State) (i : Nat) (p : Phase) : Grows s (setPhase s i p) := by
  refine ⟨fun j c hc => ?_, List.Subset.refl _⟩
  refine ⟨if i = j then { c with phase := p } else c, ?_, ?_⟩
  · rw [calls_setPhase, hc]
    rfl
  · split <;> rfl

end Phases

/-- A decision that a call was handed was given on its card, and it was only let through with what
it needs. -/
structure CallSound (chat : Chat) (s : State) (i : Nat) (c : Call) : Prop where
  decided : ∀ d, c.phase = .decided d → d = .denied ∨ (i, d) ∈ s.decisions
  cleared : c.phase = .cleared → ∀ t, dispatch chat c.tc.name = some t →
    isDestructive (categoryOn c.tc.name t) = true → Allowed s i c.tc.name

structure Sound (chat : Chat) (s : State) : Prop where
  calls : ∀ i c, s.calls[i]? = some c → CallSound chat s i c
  always : ∀ name ∈ s.approvedAlways,
    ∃ j c, s.calls[j]? = some c ∧ c.tc.name = name ∧ (j, .approvedAlways) ∈ s.decisions
  gated : Gated s

section Soundness

variable {chat : Chat} {s t : State}

theorem CallSound.mono (hgrows : Grows s t) {i : Nat} {c c' : Call} (h : CallSound chat s i c) (htc : c'.tc = c.tc)
    (hphase : c'.phase = c.phase) : CallSound chat t i c' := by
  refine ⟨fun d hd => ?_, fun hcleared target ht hdestructive => ?_⟩
  · exact (h.decided d (hphase.symm.trans hd)).imp_right fun hmem => hgrows.decisions hmem
  · rw [htc] at ht hdestructive ⊢
    exact (h.cleared (hphase.symm.trans hcleared) target ht hdestructive).mono hgrows

/-- A call that is neither decided nor let through owes nothing. -/
theorem CallSound.of_phase {i : Nat} {c : Call} (hdecided : ∀ d, c.phase ≠ .decided d) (hcleared : c.phase ≠ .cleared) :
    CallSound chat s i c :=
  ⟨fun d hd => absurd hd (hdecided d), fun hc => absurd hc hcleared⟩

/-- Nothing is run and nothing approved for good: only the calls have to be looked at. -/
theorem Sound.grow (h : Sound chat s) (hgrows : Grows s t) (halways : t.approvedAlways = s.approvedAlways)
    (hexecutions : t.executions = s.executions) (hcalls : ∀ i c, t.calls[i]? = some c → CallSound chat t i c) :
    Sound chat t := by
  refine ⟨hcalls, fun name hname => ?_, fun i target ht => ?_⟩
  · rw [halways] at hname
    obtain ⟨j, c, hc, hn, hd⟩ := h.always name hname
    obtain ⟨c', hc', htc⟩ := hgrows.calls j c hc
    exact ⟨j, c', hc', by rw [htc, hn], hgrows.decisions hd⟩
  · rw [hexecutions] at ht
    obtain ⟨c, hc, hallowed⟩ := h.gated i target ht
    obtain ⟨c', hc', htc⟩ := hgrows.calls i c hc
    refine ⟨c', hc', ?_⟩
    rw [htc]
    exact fun hdestructive => (hallowed hdestructive).mono hgrows

/-- The phase of one call changes. -/
theorem Sound.setPhase (h : Sound chat s) {i : Nat} {p : Phase}
    (hi : ∀ c, s.calls[i]? = some c → CallSound chat s i { c with phase := p }) : Sound chat (setPhase s i p) := by
  have hgrows := grows_setPhase s i p
  refine h.grow hgrows rfl rfl fun j c' hc' => ?_
  obtain ⟨c, hc, htc, ⟨rfl, hp⟩ | hp⟩ := of_calls_setPhase hc'
  · exact (hi c hc).mono hgrows htc hp
  · exact (h.calls j c hc).mono hgrows htc hp

/-- The bookkeeping of who waits and who has a card says nothing about what is allowed. -/
theorem Sound.of_pending (h : Sound chat s) (pending : String → Option Nat) (cards : List Nat) :
    Sound chat { s with pending := pending, cards := cards } := by
  have hgrows : Grows s { s with pending := pending, cards := cards } :=
    ⟨fun i c hc => ⟨c, hc, rfl⟩, List.Subset.refl _⟩
  exact h.grow hgrows rfl rfl fun i c hc => (h.calls i c hc).mono hgrows rfl rfl

/-- One more decision. -/
theorem Sound.decision (h : Sound chat s) (x : Nat × ApprovalDecision) :
    Sound chat { s with decisions := s.decisions ++ [x] } := by
  have hgrows : Grows s { s with decisions := s.decisions ++ [x] } :=
    ⟨fun i c hc => ⟨c, hc, rfl⟩, List.subset_append_left _ _⟩
  exact h.grow hgrows rfl rfl fun i c hc => (h.calls i c hc).mono hgrows rfl rfl

theorem sound_issue (h : Sound chat s) (tc : ToolCall) : Sound chat { s with calls := s.calls ++ [⟨tc, .fresh⟩] } := by
  have hgrows : Grows s { s with calls := s.calls ++ [⟨tc, .fresh⟩] } :=
    ⟨fun i c hc => ⟨c, by rw [List.getElem?_append_left (List.getElem?_eq_some_iff.mp hc).1, hc], rfl⟩,
      List.Subset.refl _⟩
  refine h.grow hgrows rfl rfl fun i c hc => ?_
  rcases Nat.lt_or_ge i s.calls.length with hlt | hge
  · rw [List.getElem?_append_left hlt] at hc
    exact (h.calls i c hc).mono hgrows rfl rfl
  · rw [List.getElem?_append_right hge] at hc
    have hnew := List.mem_of_getElem? hc
    rw [List.mem_singleton] at hnew
    subst hnew
    exact .of_phase (fun d hd => by cases hd) (fun hd => by cases hd)

theorem sound_cancel (h : Sound chat s) :
    Sound chat { s with calls := s.calls.map dropCall, pending := fun _ => none } := by
  have hdrop (c : Call) : (dropCall c).tc = c.tc := by
    unfold dropCall
    split <;> rfl
  have hgrows : Grows s { s with calls := s.calls.map dropCall, pending := fun _ => none } :=
    ⟨fun i c hc => ⟨dropCall c, by rw [List.getElem?_map, hc]; rfl, hdrop c⟩, List.Subset.refl _⟩
  refine h.grow hgrows rfl rfl fun i c hc => ?_
  rw [List.getElem?_map] at hc
  obtain ⟨c₀, -, rfl⟩ := Option.map_eq_some_iff.mp hc
  have hphase : (dropCall c₀).phase = .executed ∨ (dropCall c₀).phase = .dropped := by
    unfold dropCall
    split
    · rename_i hexecuted
      exact .inl hexecuted
    · exact .inr rfl
  rcases hphase with hphase | hphase
  · exact .of_phase (fun d hd => by rw [hphase] at hd; cases hd) (fun hd => by rw [hphase] at hd; cases hd)
  · exact .of_phase (fun d hd => by rw [hphase] at hd; cases hd) (fun hd => by rw [hphase] at hd; cases hd)

/-- Where trust agrees, a call that the gate takes for a read is one where it is run. -/
theorem read_on_target {name : String} (htrust : TrustAgrees chat name)
    (hgate : isDestructive (category chat name) = false) {t : Target} (ht : dispatch chat name = some t) :
    isDestructive (categoryOn name t) = false := by
  unfold dispatch at ht
  unfold category at hgate
  cases hnative : findNative chat name with
  | some tool =>
    rw [hnative] at ht hgate
    cases ht
    exact hgate
  | none =>
    rw [hnative] at ht hgate
    obtain ⟨server, howner, rfl⟩ := Option.map_eq_some_iff.mp ht
    unfold categoryOn
    cases htrusted : mcpToolIsTrusted chat name with
    | false =>
      dsimp only at hgate ⊢
      rw [htrusted, if_neg Bool.false_ne_true] at hgate
      split
      · rfl
      · exact hgate
    | true =>
      dsimp only
      rcases htrust hnative htrusted with hread | hserver
      · rw [hread]
        split <;> rfl
      · rw [hserver server howner, if_pos rfl]
        rfl

theorem sound_classify (hmode : chat.approvalMode ≠ .allowAllWrites) (h : Sound chat s) {i : Nat} {tc : ToolCall}
    (hi : s.calls[i]? = some ⟨tc, .fresh⟩) (htrust : TrustAgrees chat tc.name) :
    Sound chat (setPhase s i (afterClassify chat tc)) := by
  refine h.setPhase fun c hc => ?_
  obtain rfl : _ = c := Option.some.inj (hi.symm.trans hc)
  unfold afterClassify
  split
  · exact .of_phase (fun d hd => by cases hd) (fun hd => by cases hd)
  · split
    · exact .of_phase (fun d hd => by cases hd) (fun hd => by cases hd)
    · rename_i hgate
      refine ⟨fun d hd => (by cases hd), fun _ t ht hdestructive => ?_⟩
      have hread : isDestructive (category chat tc.name) = false := by
        cases hcat : isDestructive (category chat tc.name) with
        | false => rfl
        | true =>
          rw [hcat] at hgate
          simp [hmode] at hgate
      rw [read_on_target htrust hread ht] at hdestructive
      cases hdestructive

theorem sound_check (h : Sound chat s) {i : Nat} {tc : ToolCall} (hi : s.calls[i]? = some ⟨tc, .checking⟩) :
    Sound chat (setPhase s i (if s.approvedAlways.contains tc.name then .cleared else .asking)) := by
  refine h.setPhase fun c hc => ?_
  obtain rfl : _ = c := Option.some.inj (hi.symm.trans hc)
  split
  · rename_i hmem
    refine ⟨fun d hd => (by cases hd), fun _ t _ _ => .inr ?_⟩
    exact h.always tc.name (List.contains_iff_mem.mp hmem)
  · exact .of_phase (fun d hd => by cases hd) (fun hd => by cases hd)

theorem sound_dropSender (h : Sound chat s) (id : String) : Sound chat (dropSender s id) := by
  unfold dropSender
  split
  · exact h
  · refine h.setPhase fun c _ => ⟨fun d hd => .inl ?_, fun hd => (by cases hd)⟩
    cases hd
    rfl

theorem sound_requestApproval (h : Sound chat s) (i : Nat) (id : String) : Sound chat (requestApproval s i id) := by
  refine Sound.of_pending ?_ _ _
  refine (sound_dropSender h id).setPhase fun c _ => ?_
  exact .of_phase (fun d hd => by cases hd) (fun hd => by cases hd)

theorem sound_approveToolCall (h : Sound chat s) {i : Nat} {id : String} (d : ApprovalDecision)
    (hwho : s.pending id = none ∨ s.pending id = some i) : Sound chat (approveToolCall s i id d) := by
  have hdecision := h.decision (i, d)
  unfold approveToolCall
  rcases hwho with hnone | hself
  · simp only [hnone]
    exact hdecision
  · simp only [hself]
    refine (hdecision.of_pending (Function.update s.pending id none) s.cards).setPhase fun c _ => ?_
    refine ⟨fun d' hd => .inr ?_, fun hd => (by cases hd)⟩
    cases hd
    exact List.mem_append_right _ (List.mem_singleton_self _)

/-- The name of a tool joins those approved for good. -/
theorem Sound.allowAlways (h : Sound chat s) {i : Nat} {c : Call} (hc : s.calls[i]? = some c)
    (hd : (i, .approvedAlways) ∈ s.decisions) : Sound chat { s with approvedAlways := c.tc.name :: s.approvedAlways } := by
  have hgrows : Grows s { s with approvedAlways := c.tc.name :: s.approvedAlways } :=
    ⟨fun i c hc => ⟨c, hc, rfl⟩, List.Subset.refl _⟩
  refine ⟨fun j c' hc' => (h.calls j c' hc').mono hgrows rfl rfl, fun name hname => ?_, h.gated⟩
  rcases List.mem_cons.mp hname with rfl | hname
  · exact ⟨i, c, hc, rfl, hd⟩
  · exact h.always name hname

theorem sound_resume (h : Sound chat s) {i : Nat} {tc : ToolCall} {d : ApprovalDecision}
    (hi : s.calls[i]? = some ⟨tc, .decided d⟩) : Sound chat (resume s i tc.name d) := by
  have hgiven := (h.calls i _ hi).decided d rfl
  unfold resume
  cases d with
  | approved =>
    refine h.setPhase fun c _ => ⟨fun d hd => (by cases hd), fun _ t _ _ => .inl ?_⟩
    exact hgiven.resolve_left (by decide)
  | approvedAlways =>
    have hdecision := hgiven.resolve_left (by decide)
    refine (h.allowAlways hi hdecision).setPhase fun c hc => ⟨fun d hd => (by cases hd), fun _ t _ _ => .inr ?_⟩
    exact ⟨i, c, hc, rfl, hdecision⟩
  | denied =>
    refine h.setPhase fun c _ => ?_
    exact .of_phase (fun d hd => by cases hd) (fun hd => by cases hd)

theorem sound_execute (h : Sound chat s) {i : Nat} {tc : ToolCall} (hi : s.calls[i]? = some ⟨tc, .cleared⟩) :
    Sound chat (execute chat s i tc.name) := by
  unfold execute
  cases ht : dispatch chat tc.name with
  | none =>
    refine h.setPhase fun c _ => ?_
    exact .of_phase (fun d hd => by cases hd) (fun hd => by cases hd)
  | some t =>
    have hgrows : Grows s { s with executions := s.executions ++ [(i, t)] } :=
      ⟨fun i c hc => ⟨c, hc, rfl⟩, List.Subset.refl _⟩
    have hrun : Sound chat { s with executions := s.executions ++ [(i, t)] } := by
      refine ⟨fun j c hc => (h.calls j c hc).mono hgrows rfl rfl, h.always, fun j target hmem => ?_⟩
      rcases List.mem_append.mp hmem with hmem | hmem
      · exact h.gated j target hmem
      · rw [List.mem_singleton] at hmem
        cases hmem
        exact ⟨_, hi, (h.calls i _ hi).cleared rfl t ht⟩
    refine hrun.setPhase fun c _ => ?_
    exact .of_phase (fun d hd => by cases hd) (fun hd => by cases hd)

/-- One step that meets the condition. -/
theorem sound_step (hmode : chat.approvalMode ≠ .allowAllWrites) (s : State) (a : Action) (t : State)
    (hcareful : Careful chat s a) (h : Sound chat s) (hstep : step chat s a = some t) : Sound chat t := by
  cases a with
  | issue tc =>
    cases hstep
    exact sound_issue h tc
  | classify i =>
    simp only [step] at hstep
    split at hstep
    · rename_i tc hi
      cases hstep
      exact sound_classify hmode h hi (hcareful _ hi)
    · cases hstep
  | check i =>
    simp only [step] at hstep
    split at hstep
    · rename_i tc hi
      cases hstep
      exact sound_check h hi
    · cases hstep
  | ask i =>
    simp only [step] at hstep
    split at hstep
    · cases hstep
      exact sound_requestApproval h i _
    · cases hstep
  | decide i d =>
    simp only [step] at hstep
    split at hstep
    · rename_i c hi
      split at hstep
      · cases hstep
        exact sound_approveToolCall h d (hcareful c hi)
      · cases hstep
    · cases hstep
  | resume i =>
    simp only [step] at hstep
    split at hstep
    · rename_i tc d hi
      cases hstep
      exact sound_resume h hi
    · cases hstep
  | execute i =>
    simp only [step] at hstep
    split at hstep
    · rename_i tc hi
      cases hstep
      exact sound_execute h hi
    · cases hstep
  | cancel =>
    cases hstep
    exact sound_cancel h

end Soundness

theorem sound_chatOpen (chat : Chat) : Sound chat chatOpen := by
  refine ⟨fun i c hc => ?_, fun name hname => ?_, fun i t ht => ?_⟩
  · cases hc
  · cases hname
  · cases ht

/-- In every run in which trust agrees with the server a call is run on and no decision is given
while another call waits under the id of its card, every call that was run where its tool is no
read had been approved on its own card, or its tool for good. -/
theorem calls_gated (chat : Chat) (hmode : chat.approvalMode ≠ .allowAllWrites) (acts : List Action)
    (hcareful : Meets (step chat) (Careful chat) chatOpen acts) (s : State)
    (hrun : run (step chat) chatOpen acts = some s) : Gated s :=
  (run_invariant_meets (sound_step hmode) hcareful (sound_chatOpen chat) hrun).gated

def serverWith (trusted : Bool) : McpServer where
  trustAsRead := trusted
  tools := ["pods_delete", "pods_exec"]
  connected := true

def chatWith (servers : List McpServer) : Chat where
  native := []
  servers := servers
  approvalMode := .approvePerWrite
  validArgs := fun _ => true

def callOf (id name : String) : ToolCall where
  id := id
  name := name
  arguments := "\x7b\x7d"
  thoughtSignature := none

/-- A call that asks, is approved and runs. -/
def approvedRun : List Action :=
  [.issue (callOf "a" "pods_delete"), .classify 0, .check 0, .ask 0, .decide 0 .approved, .resume 0, .execute 0]

theorem approvedRun_gated :
    Meets (step (chatWith [serverWith false])) (Careful (chatWith [serverWith false])) chatOpen approvedRun ∧
      ∃ s, run (step (chatWith [serverWith false])) chatOpen approvedRun = some s ∧
        s.executions = [(0, .server (serverWith false))] ∧ Gated s := by
  have hmeets : Meets (step (chatWith [serverWith false])) (Careful (chatWith [serverWith false])) chatOpen approvedRun := by
    refine ⟨trivial, fun s₁ h₁ => ?_⟩
    cases h₁
    refine ⟨fun c _ _ htrusted => ?_, fun s₂ h₂ => ?_⟩
    · cases htrusted
    cases h₂
    refine ⟨trivial, fun s₃ h₃ => ⟨trivial, fun s₄ h₄ => ?_⟩⟩
    cases h₃
    cases h₄
    refine ⟨fun c hc => .inr ?_, fun _ _ => ⟨trivial, fun _ _ => ⟨trivial, fun _ _ => trivial⟩⟩⟩
    cases hc
    rfl
  obtain ⟨s, hs⟩ : ∃ s, run (step (chatWith [serverWith false])) chatOpen approvedRun = some s :=
    Option.isSome_iff_exists.mp (by decide +kernel)
  have hexecutions : (run (step (chatWith [serverWith false])) chatOpen approvedRun).map (·.executions) =
      some [(0, .server (serverWith false))] := by decide +kernel
  rw [hs] at hexecutions
  exact ⟨hmeets, s, hs, Option.some.inj hexecutions, calls_gated _ (by decide) approvedRun hmeets s hs⟩

/-- Two servers with a tool of one name, the second of them trusted: the call goes to the first. -/
def trustedElsewhere : List Action := [.issue (callOf "a" "pods_delete"), .classify 0, .execute 0]

/-- Two calls with one id: the approval on the card of the first is handed to the second. -/
def sharedId : List Action :=
  [.issue (callOf "a" "pods_delete"), .issue (callOf "a" "pods_exec"), .classify 0, .check 0, .ask 0, .classify 1,
    .check 1, .ask 1, .decide 0 .approved, .resume 1, .execute 1]

theorem not_gated {s : State} {i : Nat} {t : Target} {name : String} (hrun : (i, t) ∈ s.executions)
    (hname : (s.calls.map (·.tc.name))[i]? = some name) (hdestructive : isDestructive (categoryOn name t) = true)
    (hcard : (i, .approved) ∉ s.decisions) (halways : ∀ j, (j, .approvedAlways) ∉ s.decisions) : ¬Gated s := by
  intro hgated
  obtain ⟨c, hc, hallowed⟩ := hgated i t hrun
  rw [List.getElem?_map, hc] at hname
  cases hname
  rcases hallowed hdestructive with h | ⟨j, c', -, -, h⟩
  · exact hcard h
  · exact halways j h

/-- Both run without the approval they need. -/
theorem approval_bypassed :
    (∃ s, run (step (chatWith [serverWith false, serverWith true])) chatOpen trustedElsewhere = some s ∧ ¬Gated s) ∧
      ∃ s, run (step (chatWith [serverWith false])) chatOpen sharedId = some s ∧ ¬Gated s := by
  constructor
  · obtain ⟨s, hs⟩ : ∃ s, run (step (chatWith [serverWith false, serverWith true])) chatOpen trustedElsewhere = some s :=
      Option.isSome_iff_exists.mp (by decide +kernel)
    have hend : (run (step (chatWith [serverWith false, serverWith true])) chatOpen trustedElsewhere).map
        (fun s => (s.executions, s.calls.map (·.tc.name), s.decisions)) =
        some ([(0, .server (serverWith false))], ["pods_delete"], []) := by decide +kernel
    rw [hs] at hend
    simp only [Option.map_some, Option.some.injEq, Prod.mk.injEq] at hend
    obtain ⟨hexecutions, hnames, hdecisions⟩ := hend
    refine ⟨s, hs, not_gated (i := 0) (t := .server (serverWith false)) ?_ (by rw [hnames]; rfl) (by decide +kernel) ?_ ?_⟩
    · rw [hexecutions]
      exact List.mem_singleton_self _
    · rw [hdecisions]
      exact List.not_mem_nil
    · rw [hdecisions]
      exact fun j => List.not_mem_nil
  · obtain ⟨s, hs⟩ : ∃ s, run (step (chatWith [serverWith false])) chatOpen sharedId = some s :=
      Option.isSome_iff_exists.mp (by decide +kernel)
    have hend : (run (step (chatWith [serverWith false])) chatOpen sharedId).map
        (fun s => (s.executions, s.calls.map (·.tc.name), s.decisions)) =
        some ([(1, .server (serverWith false))], ["pods_delete", "pods_exec"], [(0, .approved)]) := by decide +kernel
    rw [hs] at hend
    simp only [Option.map_some, Option.some.injEq, Prod.mk.injEq] at hend
    obtain ⟨hexecutions, hnames, hdecisions⟩ := hend
    refine ⟨s, hs, not_gated (i := 1) (t := .server (serverWith false)) ?_ (by rw [hnames]; rfl) (by decide +kernel) ?_ ?_⟩
    · rw [hexecutions]
      exact List.mem_singleton_self _
    · rw [hdecisions]
      decide
    · rw [hdecisions]
      simp

end FerrisScope.ApprovalGate
