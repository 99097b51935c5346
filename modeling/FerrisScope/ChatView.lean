import FerrisScope.LabelledRuns
import Mathlib.Algebra.Order.Ring.Nat
import Mathlib.Data.List.Nodup

/-!
# The view of a chat

What a chat shows is built from the events of its turns as they arrive, and from the operator's own messages, which are
shown before they are sent. Texts are lists of UTF-16 code units. The ids of the messages tell apart who made them: the
history, the backend, a failure, a tool call, or the operator.
-/

namespace FerrisScope.ChatView
open LabelledRuns

abbrev JsText := List UInt16

/-- The code units of a literal. -/
def units (s : String) : JsText := s.toList.flatMap fun c =>
  if c.val < 0x10000 then [c.val.toUInt16]
  else [(0xD800 + (c.val - 0x10000) / 0x400).toUInt16, (0xDC00 + (c.val - 0x10000) % 0x400).toUInt16]

/-- What the language provides. -/
structure Js where
  toLocaleString : ℕ → JsText

inductive Role where
  | user
  | assistant
  | tool
  deriving DecidableEq

inductive WireRole where
  | system
  | user
  | assistant
  | tool
  deriving DecidableEq

structure ChatImage where
  mime : JsText
  data : JsText
  deriving DecidableEq

structure AgentToolCall where
  id : JsText
  name : JsText
  arguments : JsText
  deriving DecidableEq

structure AgentChatMessage where
  role : WireRole
  content : JsText := []
  toolCalls : List AgentToolCall := []
  toolCallId : Option JsText := none
  name : Option JsText := none
  images : List ChatImage := []
  deriving DecidableEq

inductive ViewId where
  | hist (i : ℕ)
  | msg (id : JsText)
  | err (now : ℕ)
  | tool (toolCallId : JsText)
  | mine (now : ℕ)
  deriving DecidableEq

structure ChatViewMessage where
  id : ViewId
  role : Role
  content : JsText
  images : Option (List ChatImage) := none
  streaming : Bool := false
  toolCalls : List AgentToolCall := []
  toolCallId : Option JsText := none
  toolName : Option JsText := none
  toolIsError : Bool := false
  toolPreview : Option JsText := none
  toolLineCount : Option ℕ := none
  deriving DecidableEq

def isSpace (u : UInt16) : Bool :=
  (9 ≤ u && u ≤ 13) || u == 32 || u == 0xA0 || u == 0x1680 || (0x2000 ≤ u && u ≤ 0x200A) || u == 0x2028 || u == 0x2029 ||
    u == 0x202F || u == 0x205F || u == 0x3000 || u == 0xFEFF

/-- Nothing is left after trimming. -/
def blank (t : JsText) : Bool := t.all isSpace

def shouldRenderMessage (m : ChatViewMessage) : Bool := m.role ≠ .assistant || m.streaming || !blank m.content

def newline : UInt16 := 10

/-- The first line, at most 120 units of it, and the number of lines. -/
def summarizeToolContent (content : JsText) : JsText × ℕ :=
  if content = [] then ([], 0)
  else
    let firstLine := content.takeWhile (· ≠ newline)
    (if 120 < firstLine.length then firstLine.take 120 ++ units "…" else firstLine, content.count newline + 1)

def toolContentCap : ℕ := 64 * 1024

def elided (js : Js) (n : ℕ) : JsText :=
  units "\n\n[… " ++ js.toLocaleString n ++ units " more chars elided — reopen chat to view full payload from the session log]"

def capToolContent (js : Js) (content : JsText) : JsText :=
  if content.length ≤ toolContentCap then content
  else content.take toolContentCap ++ elided js (content.length - toolContentCap)

structure PendingApproval where
  toolCallId : JsText
  name : JsText
  arguments : JsText
  deriving DecidableEq

structure ExecutingToolCall where
  toolCallId : JsText
  name : JsText
  startedAt : ℕ
  deriving DecidableEq

structure ToolBuffer where
  name : JsText
  argsJson : JsText

structure McpServerStatusWire where
  id : JsText
  name : JsText
  available : Bool
  toolCount : ℕ
  message : Option JsText

structure McpStatus where
  nativeToolCount : ℕ
  servers : List McpServerStatusWire

def totalToolCount : Option McpStatus → ℕ
  | none => 0
  | some s => s.nativeToolCount + (s.servers.map fun sv => if sv.available then sv.toolCount else 0).sum

structure ChatViewState where
  running : Bool := false
  messages : List ChatViewMessage
  toolBuffers : JsText → Option ToolBuffer
  mcp : Option McpStatus := none
  pendingApprovals : List PendingApproval
  executing : List ExecutingToolCall

def viewRole : WireRole → Option Role
  | .system => none
  | .user => some .user
  | .assistant => some .assistant
  | .tool => some .tool

def viewMessage (js : Js) (m : AgentChatMessage) (i : ℕ) (role : Role) : ChatViewMessage where
  id := .hist i
  role
  content := if role = .tool then capToolContent js m.content else m.content
  images := if role = .user ∧ m.images ≠ [] then some m.images else none
  toolCalls := m.toolCalls
  toolCallId := m.toolCallId
  toolName := m.name
  toolPreview := if role = .tool then some (summarizeToolContent m.content).1 else none
  toolLineCount := if role = .tool then some (summarizeToolContent m.content).2 else none

def viewMessages (js : Js) (msgs : List AgentChatMessage) : List ChatViewMessage :=
  msgs.zipIdx.filterMap fun (m, i) => (viewRole m.role).map (viewMessage js m i)

def chatStateFromMessages (js : Js) (msgs : List AgentChatMessage) : ChatViewState where
  messages := viewMessages js msgs
  toolBuffers := fun _ => none
  pendingApprovals := []
  executing := []

inductive ChatEvent where
  | assistantStart (messageId : JsText)
  | tokenDelta (delta : JsText)
  | toolCallStart (id name : JsText)
  | toolCallArgsDelta (id jsonDelta : JsText)
  | toolCallEnd (id : JsText)
  | assistantEnd (messageId : JsText)
  | error (message : JsText)
  | toolExecutionStart (toolCallId name : JsText)
  | toolResult (toolCallId name content : JsText) (isError : Bool)
  | mcpStatus (nativeToolCount : ℕ) (servers : List McpServerStatusWire)
  | approvalRequest (toolCallId name arguments : JsText)
  | compactionCompleted (summary : JsText) (tail : List AgentChatMessage)
  | turnState (running : Bool)
  /-- Usage, limits, retries, titles and the start of a compaction: no part of the view. -/
  | other

def inFlight (m : ChatViewMessage) : Bool := m.role = .assistant && m.streaming

/-- The last element with `p` is changed. -/
def updateLast {α : Type*} (p : α → Bool) (f : α → α) : List α → List α
  | [] => []
  | x :: xs => if xs.any p then x :: updateLast p f xs else if p x then f x :: xs else x :: xs

def settle (m : ChatViewMessage) : ChatViewMessage := { m with streaming := false }

def checkpoint (summary : JsText) : AgentChatMessage where
  role := .assistant
  content := units "[context checkpoint]\n" ++ summary
  name := some (units "context_checkpoint")

def applyChatEvent (js : Js) (prev : ChatViewState) (now : ℕ) : ChatEvent → ChatViewState
  | .assistantStart messageId => { prev with
      messages := prev.messages ++ [{ id := .msg messageId, role := .assistant, content := [], streaming := true }] }
  | .tokenDelta delta => { prev with
      messages := updateLast inFlight (fun m => { m with content := m.content ++ delta }) prev.messages }
  | .toolCallStart id name => { prev with toolBuffers := Function.update prev.toolBuffers id (some ⟨name, []⟩) }
  | .toolCallArgsDelta id jsonDelta => match prev.toolBuffers id with
      | none => prev
      | some cur => { prev with
          toolBuffers := Function.update prev.toolBuffers id (some { cur with argsJson := cur.argsJson ++ jsonDelta }) }
  | .toolCallEnd id =>
      let promoted := (prev.toolBuffers id).toList.map fun buf => ⟨id, buf.name, buf.argsJson⟩
      { prev with
        messages := updateLast inFlight (fun m => { m with toolCalls := m.toolCalls ++ promoted }) prev.messages
        toolBuffers := Function.update prev.toolBuffers id none }
  | .assistantEnd messageId => { prev with
      messages := prev.messages.map fun m => if m.id = .msg messageId then settle m else m }
  | .error message => { prev with
      messages := updateLast inFlight settle prev.messages ++
        [{ id := .err now, role := .assistant, content := units "error: " ++ message }] }
  | .toolExecutionStart toolCallId name =>
      if prev.executing.any (fun e => e.toolCallId = toolCallId) then prev
      else { prev with
        pendingApprovals := prev.pendingApprovals.filter fun p => p.toolCallId ≠ toolCallId
        executing := prev.executing ++ [⟨toolCallId, name, now⟩] }
  | .toolResult toolCallId name content isError =>
      let summary := summarizeToolContent content
      { prev with
        messages := prev.messages ++ [{
          id := .tool toolCallId
          role := .tool
          content := capToolContent js content
          toolCallId := some toolCallId
          toolName := some name
          toolIsError := isError
          toolPreview := some summary.1
          toolLineCount := some summary.2 }]
        pendingApprovals := prev.pendingApprovals.filter fun p => p.toolCallId ≠ toolCallId
        executing := prev.executing.filter fun e => e.toolCallId ≠ toolCallId }
  | .mcpStatus nativeToolCount servers => { prev with mcp := some ⟨nativeToolCount, servers⟩ }
  | .approvalRequest toolCallId name arguments =>
      if prev.pendingApprovals.any (fun p => p.toolCallId = toolCallId) then prev
      else { prev with pendingApprovals := prev.pendingApprovals ++ [⟨toolCallId, name, arguments⟩] }
  | .compactionCompleted summary tail => { prev with
      messages := viewMessages js (checkpoint summary :: tail) ++ prev.messages.filter (·.streaming) }
  | .turnState true => { prev with running := true }
  | .turnState false => { prev with
      running := false
      executing := []
      pendingApprovals := []
      toolBuffers := fun _ => none
      messages := prev.messages.map fun m => if m.streaming then settle m else m }
  | .other => prev

/-- The operator's message is shown at once, and taken back if it could not be sent. -/
inductive Action where
  | event (e : ChatEvent) (now : ℕ)
  | send (now : ℕ) (text : JsText) (images : List ChatImage)
  | unsend (now : ℕ)

def mine (now : ℕ) (text : JsText) (images : List ChatImage) : ChatViewMessage where
  id := .mine now
  role := .user
  content := text
  images := if images ≠ [] then some images else none

def act (js : Js) (s : ChatViewState) : Action → ChatViewState
  | .event e now => applyChatEvent js s now e
  | .send now text images => { s with messages := s.messages ++ [mine now text images] }
  | .unsend now => { s with messages := s.messages.filter fun m => m.id ≠ .mine now }

def step (js : Js) (s : ChatViewState) (a : Action) : Option ChatViewState := some (act js s a)

/-! ## What a run keeps -/

/-- A message that is settled stays as it is, and one that streams only grows. -/
structure Kept (m m' : ChatViewMessage) : Prop where
  id : m'.id = m.id
  role : m'.role = m.role
  content : m.content <+: m'.content
  settled : m.streaming = false → m' = m

theorem Kept.refl (m : ChatViewMessage) : Kept m m := ⟨rfl, rfl, List.prefix_refl _, fun _ => rfl⟩

theorem Kept.trans {m m' m'' : ChatViewMessage} (h : Kept m m') (h' : Kept m' m'') : Kept m m'' where
  id := h'.id.trans h.id
  role := h'.role.trans h.role
  content := h.content.trans h'.content
  settled hs := by
    have hsame := h.settled hs
    rw [hsame] at h'
    exact h'.settled hs

theorem kept_settle (m : ChatViewMessage) : Kept m (settle m) where
  id := rfl
  role := rfl
  content := List.prefix_refl _
  settled hs := by rw [settle, ← hs]

theorem inFlight_streaming {m : ChatViewMessage} (h : inFlight m = true) : m.streaming = true :=
  (Bool.and_eq_true_iff.mp h).2

section UpdateLast
variable {α : Type*} {p : α → Bool} {f : α → α} {R : α → α → Prop}

theorem forall₂_updateLast (hrefl : ∀ x, R x x) (hf : ∀ x, p x = true → R x (f x)) (xs : List α) :
    List.Forall₂ R xs (updateLast p f xs) := by
  have hsame (l : List α) : List.Forall₂ R l l := List.forall₂_same.mpr fun x _ => hrefl x
  induction xs with
  | nil => exact .nil
  | cons x xs ih =>
    rw [updateLast]
    split
    · exact .cons (hrefl x) ih
    · split
      case isTrue hp => exact .cons (hf x hp) (hsame xs)
      case isFalse => exact hsame _

/-- Of a list with one such element that one is changed. -/
theorem updateLast_append {xs ys : List α} {x : α} (hx : p x = true) (hys : ∀ y ∈ ys, p y = false) :
    updateLast p f (xs ++ x :: ys) = xs ++ f x :: ys := by
  have hnone : ys.any p = false := List.any_eq_false.mpr fun y hy => by simp [hys y hy]
  induction xs with
  | nil => rw [List.nil_append, updateLast, hnone, if_neg Bool.false_ne_true, if_pos hx, List.nil_append]
  | cons z zs ih =>
    have hany : (zs ++ x :: ys).any p = true := List.any_eq_true.mpr ⟨x, by simp, hx⟩
    rw [List.cons_append, updateLast, if_pos hany, ih, List.cons_append]

theorem updateLast_of_none {xs : List α} (h : ∀ x ∈ xs, p x = false) : updateLast p f xs = xs := by
  induction xs with
  | nil => rfl
  | cons x xs ih =>
    have hnone : xs.any p = false := List.any_eq_false.mpr fun y hy => by simp [h y (List.mem_cons_of_mem _ hy)]
    rw [updateLast, hnone, if_neg Bool.false_ne_true, h x List.mem_cons_self, if_neg Bool.false_ne_true]

end UpdateLast

/-- The messages of the second state are those of the first, kept, and more. -/
def Grows (s t : ChatViewState) : Prop := ∃ front rest, List.Forall₂ Kept s.messages front ∧ t.messages = front ++ rest

section Grows
variable {js : Js} {s t u : ChatViewState}

theorem kept_same (ms : List ChatViewMessage) : List.Forall₂ Kept ms ms := List.forall₂_same.mpr fun m _ => Kept.refl m

theorem Grows.refl (s : ChatViewState) : Grows s s := ⟨_, [], kept_same _, (List.append_nil _).symm⟩

theorem kept_trans {xs ys zs : List ChatViewMessage} (h : List.Forall₂ Kept xs ys) (h' : List.Forall₂ Kept ys zs) :
    List.Forall₂ Kept xs zs := by
  induction h generalizing zs with
  | nil => exact h'
  | cons hxy _ ih =>
    cases h' with
    | cons hyz hrest => exact .cons (hxy.trans hyz) (ih hrest)

theorem Grows.trans (h : Grows s t) (h' : Grows t u) : Grows s u := by
  obtain ⟨front, rest, hkept, hmessages⟩ := h
  obtain ⟨front', rest', hkept', hmessages'⟩ := h'
  rw [hmessages] at hkept'
  have hfront := List.forall₂_take front.length hkept'
  rw [List.take_left] at hfront
  refine ⟨front'.take front.length, front'.drop front.length ++ rest', kept_trans hkept hfront, ?_⟩
  rw [hmessages', ← List.append_assoc, List.take_append_drop]

theorem Grows.of_map {f : ChatViewMessage → ChatViewMessage} (h : t.messages = s.messages.map f) (hf : ∀ m, Kept m (f m)) :
    Grows s t := by
  refine ⟨s.messages.map f, [], ?_, by rw [h, List.append_nil]⟩
  rw [List.forall₂_map_right_iff]
  exact List.forall₂_same.mpr fun m _ => hf m

theorem Grows.of_append {more : List ChatViewMessage} (h : t.messages = s.messages ++ more) : Grows s t :=
  ⟨_, more, kept_same _, h⟩

theorem Grows.of_updateLast {f : ChatViewMessage → ChatViewMessage} {more : List ChatViewMessage}
    (h : t.messages = updateLast inFlight f s.messages ++ more) (hf : ∀ m, inFlight m = true → Kept m (f m)) : Grows s t :=
  ⟨_, more, forall₂_updateLast Kept.refl hf _, h⟩

/-- Only a compaction, or a message that could not be sent, takes something back. -/
def TakesBack : Action → Prop
  | .event (.compactionCompleted ..) _ | .unsend _ => True
  | _ => False

theorem grows_act (js : Js) (s : ChatViewState) {a : Action} (ha : ¬TakesBack a) : Grows s (act js s a) := by
  cases a with
  | send now text images => exact .of_append rfl
  | unsend now => exact absurd trivial ha
  | event e now =>
    have hstreams (m : ChatViewMessage) (hm : inFlight m = true) (hs : m.streaming = false) {m' : ChatViewMessage} : m' = m := by
      rw [inFlight_streaming hm] at hs
      cases hs
    cases e with
    | assistantStart id => exact .of_append rfl
    | tokenDelta delta =>
      exact .of_updateLast (List.append_nil _).symm fun m hm => ⟨rfl, rfl, List.prefix_append _ _, fun hs => hstreams m hm hs⟩
    | toolCallStart id name => exact .of_append (List.append_nil _).symm
    | toolCallArgsDelta id json =>
      simp only [act, applyChatEvent]
      split
      · exact .refl s
      · exact .of_append (List.append_nil _).symm
    | toolCallEnd id =>
      exact .of_updateLast (List.append_nil _).symm fun m hm => ⟨rfl, rfl, List.prefix_refl _, fun hs => hstreams m hm hs⟩
    | assistantEnd id =>
      refine .of_map rfl fun m => ?_
      split
      · exact kept_settle m
      · exact Kept.refl m
    | error message => exact .of_updateLast rfl fun m _ => kept_settle m
    | toolExecutionStart id name =>
      simp only [act, applyChatEvent]
      split
      · exact .refl s
      · exact .of_append (List.append_nil _).symm
    | toolResult id name content isError => exact .of_append rfl
    | mcpStatus n servers => exact .of_append (List.append_nil _).symm
    | approvalRequest id name arguments =>
      simp only [act, applyChatEvent]
      split
      · exact .refl s
      · exact .of_append (List.append_nil _).symm
    | compactionCompleted summary tail => exact absurd trivial ha
    | turnState running =>
      cases running with
      | true => exact .of_append (List.append_nil _).symm
      | false =>
        refine .of_map rfl fun m => ?_
        split
        · exact kept_settle m
        · exact Kept.refl m
    | other => exact .refl s

/-- What a tool gave back is shown within the cap, with a note of what is left out. -/
def Capped (js : Js) (m : ChatViewMessage) : Prop := m.role = .tool →
  m.content.length ≤ toolContentCap ∨ ∃ n, m.content.drop toolContentCap = elided js n

/-- No call waits twice for a decision or runs twice, and the answers of the tools are capped. -/
structure Tidy (js : Js) (s : ChatViewState) : Prop where
  pending : (s.pendingApprovals.map (·.toolCallId)).Nodup
  executing : (s.executing.map (·.toolCallId)).Nodup
  capped : ∀ m ∈ s.messages, Capped js m

theorem nodup_concat_of_any {α : Type*} {f : α → JsText} {xs : List α} {x : α} (h : (xs.map f).Nodup)
    (hx : ¬xs.any (fun y => f y = f x) = true) : ((xs ++ [x]).map f).Nodup := by
  rw [List.map_append, List.map_singleton]
  refine (List.perm_append_singleton _ _).nodup_iff.mpr (List.nodup_cons.mpr ⟨fun hin => hx ?_, h⟩)
  obtain ⟨y, hy, heq⟩ := List.mem_map.mp hin
  exact List.any_eq_true.mpr ⟨y, hy, decide_eq_true heq⟩

theorem capped_capToolContent (content : JsText) : (capToolContent js content).length ≤ toolContentCap ∨
    ∃ n, (capToolContent js content).drop toolContentCap = elided js n := by
  rw [capToolContent]
  split
  case isTrue h => exact .inl h
  case isFalse h =>
    refine .inr ⟨content.length - toolContentCap, ?_⟩
    rw [List.drop_append_of_le_length (by rw [List.length_take]; omega)]
    simp

theorem capped_viewMessages (msgs : List AgentChatMessage) : ∀ m ∈ viewMessages js msgs, Capped js m := by
  intro m hm hrole
  obtain ⟨⟨wire, i⟩, -, hview⟩ := List.mem_filterMap.mp hm
  obtain ⟨role, -, rfl⟩ := Option.map_eq_some_iff.mp hview
  simp only [viewMessage, show role = .tool from hrole, if_true]
  exact capped_capToolContent wire.content

theorem mem_updateLast {f : ChatViewMessage → ChatViewMessage} {ms : List ChatViewMessage} {m : ChatViewMessage}
    (h : m ∈ updateLast inFlight f ms) : m ∈ ms ∨ ∃ m₀ ∈ ms, inFlight m₀ = true ∧ m = f m₀ := by
  induction ms with
  | nil => cases h
  | cons x xs ih =>
    rw [updateLast] at h
    split at h
    · rcases List.mem_cons.mp h with rfl | h
      · exact .inl List.mem_cons_self
      · rcases ih h with h | ⟨m₀, hm₀, heq⟩
        · exact .inl (List.mem_cons_of_mem _ h)
        · exact .inr ⟨m₀, List.mem_cons_of_mem _ hm₀, heq⟩
    · split at h
      case isTrue hx =>
        rcases List.mem_cons.mp h with rfl | h
        · exact .inr ⟨x, List.mem_cons_self, hx, rfl⟩
        · exact .inl (List.mem_cons_of_mem _ h)
      case isFalse => exact .inl h

theorem capped_updateLast (f : ChatViewMessage → ChatViewMessage) (hf : ∀ m, (f m).role = m.role) {ms : List ChatViewMessage}
    (h : ∀ m ∈ ms, Capped js m) : ∀ m ∈ updateLast inFlight f ms, Capped js m := by
  intro m hm hrole
  rcases mem_updateLast hm with hm | ⟨m₀, -, hflight, rfl⟩
  · exact h m hm hrole
  · rw [hf, of_decide_eq_true (Bool.and_eq_true_iff.mp hflight).1] at hrole
    cases hrole

theorem capped_append {ms more : List ChatViewMessage} (h : ∀ m ∈ ms, Capped js m) (hmore : ∀ m ∈ more, Capped js m) :
    ∀ m ∈ ms ++ more, Capped js m := fun m hm => (List.mem_append.mp hm).elim (h m) (hmore m)

theorem capped_map_settle {p : ChatViewMessage → Prop} [DecidablePred p] {ms : List ChatViewMessage}
    (h : ∀ m ∈ ms, Capped js m) : ∀ m ∈ ms.map (fun m => if p m then settle m else m), Capped js m := by
  intro m hm hrole
  obtain ⟨m₀, hm₀, rfl⟩ := List.mem_map.mp hm
  by_cases hp : p m₀
  · rw [if_pos hp] at hrole ⊢
    exact h m₀ hm₀ hrole
  · rw [if_neg hp] at hrole ⊢
    exact h m₀ hm₀ hrole

theorem capped_one {m : ChatViewMessage} (h : m.role ≠ .tool) : ∀ m' ∈ [m], Capped js m' := by
  intro m' hm' hrole
  obtain rfl := List.mem_singleton.mp hm'
  exact absurd hrole h

theorem nodup_filter {α : Type*} {f : α → JsText} {xs : List α} {p : α → Bool} (h : (xs.map f).Nodup) :
    ((xs.filter p).map f).Nodup := h.sublist (List.filter_sublist.map f)

theorem tidy_act (h : Tidy js s) (a : Action) : Tidy js (act js s a) := by
  cases a with
  | send now text images => exact ⟨h.pending, h.executing, capped_append h.capped (capped_one (by simp [mine]))⟩
  | unsend now => exact ⟨h.pending, h.executing, fun m hm => h.capped m (List.mem_filter.mp hm).1⟩
  | event e now =>
    cases e with
    | assistantStart id => exact ⟨h.pending, h.executing, capped_append h.capped (capped_one (by simp))⟩
    | tokenDelta delta => exact ⟨h.pending, h.executing, capped_updateLast _ (fun _ => by rfl) h.capped⟩
    | toolCallStart id name => exact ⟨h.pending, h.executing, h.capped⟩
    | toolCallArgsDelta id json =>
      simp only [act, applyChatEvent]
      split
      · exact h
      · exact ⟨h.pending, h.executing, h.capped⟩
    | toolCallEnd id => exact ⟨h.pending, h.executing, capped_updateLast _ (fun _ => by rfl) h.capped⟩
    | assistantEnd id => exact ⟨h.pending, h.executing, capped_map_settle h.capped⟩
    | error message =>
      exact ⟨h.pending, h.executing, capped_append (capped_updateLast settle (fun _ => rfl) h.capped) (capped_one (by simp))⟩
    | toolExecutionStart id name =>
      simp only [act, applyChatEvent]
      split
      case isTrue => exact h
      case isFalse hnew => exact ⟨nodup_filter h.pending, nodup_concat_of_any h.executing hnew, h.capped⟩
    | toolResult id name content isError =>
      refine ⟨nodup_filter h.pending, nodup_filter h.executing, capped_append h.capped fun m hm _ => ?_⟩
      obtain rfl := List.mem_singleton.mp hm
      exact capped_capToolContent content
    | mcpStatus n servers => exact ⟨h.pending, h.executing, h.capped⟩
    | approvalRequest id name arguments =>
      simp only [act, applyChatEvent]
      split
      case isTrue => exact h
      case isFalse hnew => exact ⟨nodup_concat_of_any h.pending hnew, h.executing, h.capped⟩
    | compactionCompleted summary tail =>
      exact ⟨h.pending, h.executing, capped_append (capped_viewMessages _) fun m hm => h.capped m (List.mem_filter.mp hm).1⟩
    | turnState running =>
      cases running with
      | true => exact ⟨h.pending, h.executing, h.capped⟩
      | false => exact ⟨List.nodup_nil, List.nodup_nil, capped_map_settle h.capped⟩
    | other => exact h

theorem tidy_opened (js : Js) (msgs : List AgentChatMessage) : Tidy js (chatStateFromMessages js msgs) :=
  ⟨List.nodup_nil, List.nodup_nil, capped_viewMessages msgs⟩

/-- In every run from a chat that is opened, whatever events come in whatever order: no call waits twice for a decision or
runs twice, the answers of the tools are capped, and from any point on what is settled stays and what streams only
grows, until a compaction or a message that could not be sent. -/
theorem view_only_grows (msgs : List AgentChatMessage) (before as : List Action)
    (hbefore : run (step js) (chatStateFromMessages js msgs) before = some s) (hrun : run (step js) s as = some t) :
    Tidy js t ∧ ((∀ a ∈ as, ¬TakesBack a) → Grows s t) := by
  have htidy : ∀ s a t, Tidy js s → step js s a = some t → Tidy js t := by
    intro s a t hs ht
    obtain rfl := Option.some.inj ht
    exact tidy_act hs a
  refine ⟨run_invariant htidy (run_invariant htidy (tidy_opened js msgs) hbefore) hrun, fun hno => ?_⟩
  have hgrows : ∀ u a t, ¬TakesBack a → Grows s u → step js u a = some t → Grows s t := by
    intro u a t ha hu ht
    obtain rfl := Option.some.inj ht
    exact hu.trans (grows_act js u ha)
  exact run_invariant_meets hgrows (meets_of_forall (fun _ a ha => hno a ha) s) (.refl s) hrun

end Grows

def plainJs : Js := ⟨fun n => units (toString n)⟩

/-- A bubble is opened, a message comes in between, and the turn is cancelled. -/
def cancelled : List Action :=
  [.event (.assistantStart [1]) 0, .event (.tokenDelta [65]) 1, .send 2 [66] [], .event (.tokenDelta [67]) 3,
   .event (.turnState false) 4]

theorem view_only_grows_cancelled : ∃ t, run (step plainJs) (chatStateFromMessages plainJs []) cancelled = some t ∧
    t.messages.map (·.content) = [[65, 67], [66]] ∧ Grows (chatStateFromMessages plainJs []) t := by
  refine ⟨_, rfl, rfl, (view_only_grows [] [] cancelled rfl rfl).2 fun a ha hback => ?_⟩
  simp only [cancelled, List.mem_cons, List.not_mem_nil, or_false] at ha
  rcases ha with rfl | rfl | rfl | rfl | rfl <;> exact hback

end FerrisScope.ChatView
