import FerrisScope.ChatView
import Mathlib.Data.List.Induction

/-!
# The live view and the reopened chat

A round of a turn opens a bubble, streams into it and closes it; then its tool calls are answered, in the order in which
they end. The transcript gets the reply with the answers in the order of the calls, or the text of a failure, or
nothing. A view that followed the rounds shows what a view of the transcript shows, except after rounds whose bubble
has text that the transcript does not have.
-/

namespace FerrisScope.ChatMirror
open ChatView

/-- A call with what its tool gave back. -/
structure Answer where
  call : AgentToolCall
  content : JsText
  isError : Bool

inductive Outcome where
  | replied (answers : List Answer) (arriving : List Action)
  /-- The bubble ends with the text of the failure. -/
  | failed (errText : JsText)
  /-- After the last retry the failure comes as an error of its own. -/
  | gaveUp (errText : JsText)
  | cancelled (notice : JsText)
  /-- Nothing came, or what came is tried again. -/
  | dropped

structure Round where
  before : List Action
  messageId : JsText
  stream : List Action
  outcome : Outcome
  now : ℕ

def Idle : Action → Prop
  | .send .. | .event .other _ | .event (.mcpStatus ..) _ | .event (.turnState _) _ => True
  | _ => False

/-- What happens while a bubble is open. -/
def Streams : Action → Prop
  | .send .. | .event .other _ | .event (.mcpStatus ..) _ | .event (.turnState true) _
  | .event (.tokenDelta _) _ | .event (.toolCallStart ..) _ | .event (.toolCallArgsDelta ..) _ | .event (.toolCallEnd _) _ => True
  | _ => False

/-- What happens while calls are decided and run. -/
def Arrives : Action → Prop
  | .send .. | .event .other _ | .event (.mcpStatus ..) _ | .event (.turnState true) _
  | .event (.approvalRequest ..) _ | .event (.toolExecutionStart ..) _ | .event (.toolResult ..) _ => True
  | _ => False

def deltaOf : Action → Option JsText
  | .event (.tokenDelta delta) _ => some delta
  | _ => none

def deltas (as : List Action) : JsText := (as.filterMap deltaOf).flatten

def Outcome.closing (messageId : JsText) (now : ℕ) : Outcome → List Action
  | .replied _ arriving => .event (.assistantEnd messageId) now :: arriving
  | .failed errText => [.event (.tokenDelta errText) now, .event (.assistantEnd messageId) now]
  | .gaveUp errText => [.event (.assistantEnd messageId) now, .event (.error errText) now]
  | .cancelled notice => [.event (.tokenDelta notice) now, .event (.assistantEnd messageId) now]
  | .dropped => [.event (.assistantEnd messageId) now]

def Round.actions (r : Round) : List Action :=
  r.before ++ (.event (.assistantStart r.messageId) r.now :: (r.stream ++ r.outcome.closing r.messageId r.now))

/-- What the round adds to the transcript. -/
def Round.kept (r : Round) : List AgentChatMessage :=
  match r.outcome with
  | .replied answers _ =>
    { role := .assistant, content := deltas r.stream, toolCalls := answers.map (·.call) } ::
      answers.map fun a => { role := .tool, content := a.content, toolCallId := some a.call.id, name := some a.call.name }
  | .failed errText | .gaveUp errText => [{ role := .assistant, content := errText }]
  | .cancelled _ | .dropped => []

/-- The result an action brings: the id and name of its call, and the text. -/
def resultOf : Action → Option (JsText × JsText × JsText)
  | .event (.toolResult toolCallId name content _) _ => some (toolCallId, name, content)
  | _ => none

/-- The call an action asks about or starts. -/
def asks : Action → Option JsText
  | .event (.approvalRequest toolCallId _ _) _ | .event (.toolExecutionStart toolCallId _) _ => some toolCallId
  | _ => none

def results (as : List Action) : List (JsText × JsText × JsText) := as.filterMap resultOf

def answerResult (a : Answer) : JsText × JsText × JsText := (a.call.id, a.call.name, a.content)

/-- Every call that is asked about or started gets its result later. -/
def Answered (as : List Action) : Prop :=
  ∀ pre a post id, as = pre ++ a :: post → asks a = some id → id ∈ (results post).map Prod.fst

/-- The round is one of the backend. -/
structure Proper (r : Round) : Prop where
  before : ∀ a ∈ r.before, Idle a
  stream : ∀ a ∈ r.stream, Streams a
  arrives : ∀ answers arriving, r.outcome = .replied answers arriving →
    (∀ a ∈ arriving, Arrives a) ∧ Answered arriving ∧ (results arriving).Perm (answers.map answerResult)

/-! ## What is shown of a message -/

structure Entry where
  role : Role
  content : JsText
  toolCallId : Option JsText := none
  toolName : Option JsText := none
  toolPreview : Option JsText := none
  toolLineCount : Option ℕ := none
  deriving DecidableEq

def entry (m : ChatViewMessage) : Entry := ⟨m.role, m.content, m.toolCallId, m.toolName, m.toolPreview, m.toolLineCount⟩

def entries (s : ChatViewState) : List Entry := s.messages.map entry

def bubble (text : JsText) : Entry := { role := .assistant, content := text }

def toolEntry (js : Js) (r : JsText × JsText × JsText) : Entry where
  role := .tool
  content := capToolContent js r.2.2
  toolCallId := some r.1
  toolName := some r.2.1
  toolPreview := some (summarizeToolContent r.2.2).1
  toolLineCount := some (summarizeToolContent r.2.2).2

/-- What an action adds behind what is there. -/
def added (js : Js) : Action → Option Entry
  | .send _ text _ => some { role := .user, content := text }
  | a => (resultOf a).map (toolEntry js)

def Outcome.tail (js : Js) : Outcome → List Entry
  | .replied _ arriving => arriving.filterMap (added js)
  | .gaveUp errText => [bubble (units "error: " ++ errText)]
  | .failed _ | .cancelled _ | .dropped => []

def Outcome.suffix : Outcome → JsText
  | .failed errText => errText
  | .cancelled notice => notice
  | .replied .. | .gaveUp _ | .dropped => []

def Round.shown (js : Js) (r : Round) : List Entry :=
  r.before.filterMap (added js) ++ bubble (deltas r.stream ++ r.outcome.suffix) ::
    (r.stream.filterMap (added js) ++ r.outcome.tail js)

/-! ## Where no bubble is open -/

def Quiet (ms : List ChatViewMessage) : Prop := ∀ m ∈ ms, m.streaming = false

section Runs
variable (js : Js) {s t : ChatViewState} {a : Action} {as : List Action}

theorem quiet_append {ms more : List ChatViewMessage} (h : Quiet ms) (hmore : Quiet more) : Quiet (ms ++ more) :=
  fun m hm => (List.mem_append.mp hm).elim (h m) (hmore m)

theorem quiet_one {m : ChatViewMessage} (h : m.streaming = false) : Quiet [m] := by
  intro m' hm
  rw [List.mem_singleton.mp hm]
  exact h

theorem filterMap_cons_toList {α β : Type*} (f : α → Option β) (a : α) (as : List α) :
    (f a).toList ++ as.filterMap f = (a :: as).filterMap f := by
  cases h : f a with
  | none =>
    rw [List.filterMap_cons_none h]
    rfl
  | some b =>
    rw [List.filterMap_cons_some h]
    rfl

theorem map_settle_quiet {p : ChatViewMessage → Prop} [DecidablePred p] {ms : List ChatViewMessage} (h : Quiet ms) :
    ms.map (fun m => if p m then settle m else m) = ms := by
  refine (List.map_congr_left fun m hm => ?_).trans (List.map_id ms)
  have hsame : settle m = m := by rw [settle, ← h m hm]
  rw [hsame, ite_self]
  rfl

/-- An action between bubbles adds at most one message. -/
theorem act_settled (ha : Idle a ∨ Arrives a) (hs : Quiet s.messages) :
    Quiet (act js s a).messages ∧ entries (act js s a) = entries s ++ (added js a).toList := by
  have hsame {t : ChatViewState} (ht : t.messages = s.messages) : Quiet t.messages ∧ entries t = entries s ++ [] := by
    rw [entries, ht, List.append_nil]
    exact ⟨hs, rfl⟩
  cases a with
  | send now text images =>
    refine ⟨quiet_append hs (quiet_one rfl), ?_⟩
    rw [entries, act, List.map_append]
    rfl
  | unsend now => exact (ha.elim id id).elim
  | event e now =>
    cases e with
    | assistantStart | tokenDelta | toolCallStart | toolCallArgsDelta | toolCallEnd | assistantEnd | error
    | compactionCompleted => exact (ha.elim id id).elim
    | toolExecutionStart id name =>
      refine hsame ?_
      simp only [act, applyChatEvent]
      split <;> rfl
    | toolResult id name content isError =>
      refine ⟨quiet_append hs (quiet_one rfl), ?_⟩
      rw [entries, act, applyChatEvent, List.map_append]
      rfl
    | mcpStatus | other => exact hsame rfl
    | approvalRequest id name arguments =>
      refine hsame ?_
      simp only [act, applyChatEvent]
      split <;> rfl
    | turnState running =>
      cases running with
      | true => exact hsame rfl
      | false => exact hsame (map_settle_quiet hs)

theorem foldl_settled (has : ∀ a ∈ as, Idle a ∨ Arrives a) (hs : Quiet s.messages) :
    Quiet (as.foldl (act js) s).messages ∧ entries (as.foldl (act js) s) = entries s ++ as.filterMap (added js) := by
  induction as generalizing s with
  | nil => exact ⟨hs, (List.append_nil _).symm⟩
  | cons a as ih =>
    obtain ⟨hquiet, hone⟩ := act_settled js (has a List.mem_cons_self) hs
    obtain ⟨hrest, hall⟩ := ih (fun b hb => has b (List.mem_cons_of_mem _ hb)) hquiet
    refine ⟨hrest, ?_⟩
    rw [List.foldl_cons, hall, hone, List.append_assoc, filterMap_cons_toList]

/-! ## While a bubble is open -/

/-- One bubble is open, with this text, behind some messages and before the ones that came in since. -/
structure Opened (s : ChatViewState) (messageId : JsText) (behind : List Entry) (text : JsText) (since : List Entry) : Prop where
  shape : ∃ pre b us, s.messages = pre ++ b :: us ∧ Quiet pre ∧ Quiet us ∧ b.streaming = true ∧ b.id = .msg messageId ∧
    pre.map entry = behind ∧ entry b = bubble text ∧ us.map entry = since

theorem opened_start (hs : Quiet s.messages) (messageId : JsText) (now : ℕ) :
    Opened (act js s (.event (.assistantStart messageId) now)) messageId (entries s) [] [] :=
  ⟨⟨s.messages, _, [], rfl, hs, (fun m hm => by cases hm), rfl, rfl, rfl, rfl, rfl⟩⟩

theorem not_inFlight {ms : List ChatViewMessage} (h : Quiet ms) : ∀ m ∈ ms, inFlight m = false := by
  intro m hm
  rw [inFlight, h m hm, Bool.and_false]

theorem opened_act {messageId text : JsText} {behind since : List Entry} (ha : Streams a)
    (h : Opened s messageId behind text since) :
    Opened (act js s a) messageId behind (text ++ (deltaOf a).getD []) (since ++ (added js a).toList) := by
  obtain ⟨pre, b, us, hmessages, hpre, hus, hb, hid, hbehind, hentry, hsince⟩ := h.shape
  have hrole : b.role = .assistant := congrArg Entry.role hentry
  have hflight : inFlight b = true := by rw [inFlight, hrole, hb]; rfl
  have hsame {t : ChatViewState} (ht : t.messages = s.messages) : Opened t messageId behind (text ++ []) (since ++ []) := by
    rw [List.append_nil, List.append_nil]
    exact ⟨pre, b, us, ht.trans hmessages, hpre, hus, hb, hid, hbehind, hentry, hsince⟩
  have hupdate (f : ChatViewMessage → ChatViewMessage) : updateLast inFlight f s.messages = pre ++ f b :: us := by
    rw [hmessages]
    exact updateLast_append hflight (not_inFlight hus)
  cases a with
  | send now text images =>
    refine ⟨pre, b, us ++ [mine now text images], ?_, hpre, quiet_append hus (quiet_one rfl), hb, hid, hbehind, ?_, ?_⟩
    · rw [act, hmessages, List.append_assoc, List.cons_append]
    · exact hentry.trans (congrArg bubble (List.append_nil _).symm)
    · rw [List.map_append, hsince]
      rfl
  | unsend now => exact ha.elim
  | event e now =>
    cases e with
    | assistantStart | assistantEnd | error | compactionCompleted | toolExecutionStart | toolResult | approvalRequest =>
      exact ha.elim
    | tokenDelta delta =>
      refine ⟨pre, _, us, hupdate _, hpre, hus, hb, hid, hbehind, ?_, hsince.trans (List.append_nil _).symm⟩
      simp only [entry, bubble, Entry.mk.injEq] at hentry ⊢
      obtain ⟨-, hcontent, hrest⟩ := hentry
      exact ⟨hrole, congrArg (· ++ delta) hcontent, hrest⟩
    | toolCallStart | mcpStatus | other => exact hsame rfl
    | toolCallArgsDelta id json =>
      refine hsame ?_
      simp only [act, applyChatEvent]
      split <;> rfl
    | toolCallEnd id =>
      refine ⟨pre, _, us, hupdate _, hpre, hus, hb, hid, hbehind, ?_, hsince.trans (List.append_nil _).symm⟩
      exact hentry.trans (congrArg bubble (List.append_nil _).symm)
    | turnState running =>
      cases running with
      | true => exact hsame rfl
      | false => exact ha.elim

theorem opened_foldl {messageId text : JsText} {behind since : List Entry} (has : ∀ a ∈ as, Streams a)
    (h : Opened s messageId behind text since) :
    Opened (as.foldl (act js) s) messageId behind (text ++ deltas as) (since ++ as.filterMap (added js)) := by
  induction as generalizing s text since with
  | nil =>
    rw [deltas, List.filterMap_nil, List.filterMap_nil, List.flatten_nil, List.append_nil, List.append_nil]
    exact h
  | cons a as ih =>
    have hrest := ih (fun b hb => has b (List.mem_cons_of_mem _ hb)) (opened_act js (has a List.mem_cons_self) h)
    rw [List.append_assoc, List.append_assoc] at hrest
    have htext : (deltaOf a).getD [] ++ deltas as = deltas (a :: as) := by
      rw [deltas, deltas, ← filterMap_cons_toList deltaOf, List.flatten_append]
      cases deltaOf a with
      | none => rfl
      | some d => simp
    rw [htext, filterMap_cons_toList] at hrest
    exact hrest

theorem closed_act {messageId text : JsText} {behind since : List Entry} (h : Opened s messageId behind text since) (now : ℕ) :
    Quiet (act js s (.event (.assistantEnd messageId) now)).messages ∧
      entries (act js s (.event (.assistantEnd messageId) now)) = behind ++ bubble text :: since := by
  obtain ⟨pre, b, us, hmessages, hpre, hus, hb, hid, hbehind, hentry, hsince⟩ := h.shape
  have hclosed : (act js s (.event (.assistantEnd messageId) now)).messages = pre ++ settle b :: us := by
    simp only [act, applyChatEvent, hmessages, List.map_append, List.map_cons, map_settle_quiet hpre, map_settle_quiet hus,
      hid, if_true]
  refine ⟨?_, ?_⟩
  · rw [hclosed]
    intro m hm
    rcases List.mem_append.mp hm with hm | hm
    · exact hpre m hm
    · rcases List.mem_cons.mp hm with rfl | hm
      · rfl
      · exact hus m hm
  · rw [entries, hclosed, List.map_append, List.map_cons, hbehind, hsince]
    exact congrArg (fun e => behind ++ e :: since) hentry

/-! ## A round -/

theorem act_error (hs : Quiet s.messages) (errText : JsText) (now : ℕ) :
    Quiet (act js s (.event (.error errText) now)).messages ∧
      entries (act js s (.event (.error errText) now)) = entries s ++ [bubble (units "error: " ++ errText)] := by
  have hmessages : (act js s (.event (.error errText) now)).messages =
      s.messages ++ [{ id := .err now, role := .assistant, content := units "error: " ++ errText }] := by
    simp only [act, applyChatEvent, updateLast_of_none (not_inFlight hs)]
  rw [entries, hmessages]
  refine ⟨quiet_append hs (quiet_one rfl), ?_⟩
  rw [List.map_append]
  rfl

/-- From a view in which no bubble is open a round leads to one that shows the round behind the rest. -/
theorem round_view (r : Round) (hr : Proper r) (hs : Quiet s.messages) :
    Quiet (r.actions.foldl (act js) s).messages ∧ entries (r.actions.foldl (act js) s) = entries s ++ r.shown js := by
  obtain ⟨hquiet, hbefore⟩ := foldl_settled js (fun a ha => .inl (hr.before a ha)) hs
  have hopened := opened_foldl js hr.stream (opened_start js hquiet r.messageId r.now)
  rw [hbefore, List.nil_append, List.nil_append] at hopened
  rw [Round.actions, Round.shown, List.foldl_append, List.foldl_cons, List.foldl_append]
  generalize r.stream.foldl (act js) _ = open_ at hopened ⊢
  have hclosed := closed_act js hopened r.now
  have hending (text : JsText) := closed_act js
    (opened_act js (a := .event (.tokenDelta text) r.now) trivial hopened) r.now
  cases hout : r.outcome with
  | replied answers arriving =>
    obtain ⟨harrives, -, -⟩ := hr.arrives answers arriving hout
    obtain ⟨hend, hall⟩ := foldl_settled js (fun a ha => .inr (harrives a ha)) hclosed.1
    refine ⟨hend, ?_⟩
    simp only [Outcome.closing, List.foldl_cons]
    rw [hall, hclosed.2, Outcome.suffix, Outcome.tail, List.append_nil]
    simp
  | failed errText =>
    refine ⟨(hending errText).1, (hending errText).2.trans ?_⟩
    simp [Outcome.suffix, Outcome.tail, added, resultOf, deltaOf]
  | gaveUp errText =>
    obtain ⟨hend, hall⟩ := act_error js hclosed.1 errText r.now
    refine ⟨hend, hall.trans ?_⟩
    rw [hclosed.2]
    simp [Outcome.suffix, Outcome.tail]
  | cancelled notice =>
    refine ⟨(hending notice).1, (hending notice).2.trans ?_⟩
    simp [Outcome.suffix, Outcome.tail, added, resultOf, deltaOf]
  | dropped =>
    refine ⟨hclosed.1, hclosed.2.trans ?_⟩
    simp [Outcome.suffix, Outcome.tail]

def allActions (rounds : List Round) : List Action := rounds.flatMap Round.actions

theorem rounds_view {rounds : List Round} (hr : ∀ r ∈ rounds, Proper r) (hs : Quiet s.messages) :
    Quiet ((allActions rounds).foldl (act js) s).messages ∧
      entries ((allActions rounds).foldl (act js) s) = entries s ++ rounds.flatMap (Round.shown js) := by
  induction rounds generalizing s with
  | nil => exact ⟨hs, (List.append_nil _).symm⟩
  | cons r rounds ih =>
    obtain ⟨hquiet, hone⟩ := round_view js r (hr r List.mem_cons_self) hs
    obtain ⟨hrest, hall⟩ := ih (fun q hq => hr q (List.mem_cons_of_mem _ hq)) hquiet
    rw [allActions, List.flatMap_cons, List.foldl_append]
    refine ⟨hrest, hall.trans ?_⟩
    rw [hone, List.flatMap_cons, List.append_assoc]

/-! ## Calls that wait or run -/

def waiting (s : ChatViewState) : List JsText :=
  s.pendingApprovals.map (·.toolCallId) ++ s.executing.map (·.toolCallId)

theorem mem_waiting_filter {id id' : JsText} {s : ChatViewState}
    (h : id ∈ waiting { s with
      pendingApprovals := s.pendingApprovals.filter fun p => p.toolCallId ≠ id'
      executing := s.executing.filter fun e => e.toolCallId ≠ id' }) : id ∈ waiting s ∧ id ≠ id' := by
  rcases List.mem_append.mp h with h | h
  · obtain ⟨p, hp, rfl⟩ := List.mem_map.mp h
    obtain ⟨hp, hne⟩ := List.mem_filter.mp hp
    exact ⟨List.mem_append_left _ (List.mem_map_of_mem hp), of_decide_eq_true hne⟩
  · obtain ⟨p, hp, rfl⟩ := List.mem_map.mp h
    obtain ⟨hp, hne⟩ := List.mem_filter.mp hp
    exact ⟨List.mem_append_right _ (List.mem_map_of_mem hp), of_decide_eq_true hne⟩

/-- A call waits or runs if it did before and the action is not its result, or if the action asks about it. -/
theorem waiting_act {id : JsText} (h : id ∈ waiting (act js s a)) :
    id ∈ waiting s ∧ (∀ r ∈ resultOf a, r.1 ≠ id) ∨ asks a = some id := by
  have hsame (h : id ∈ waiting s) (ha : resultOf a = none) : id ∈ waiting s ∧ ∀ r ∈ resultOf a, r.1 ≠ id :=
    ⟨h, fun r hr => by rw [ha] at hr; cases hr⟩
  cases a with
  | send | unsend => exact .inl (hsame h rfl)
  | event e now =>
    cases e with
    | assistantStart | tokenDelta | toolCallStart | toolCallEnd | assistantEnd | error | mcpStatus | compactionCompleted
    | other => exact .inl (hsame h rfl)
    | toolCallArgsDelta cid json =>
      refine .inl (hsame ?_ rfl)
      simp only [act, applyChatEvent] at h
      split at h <;> exact h
    | toolExecutionStart cid name =>
      simp only [act, applyChatEvent] at h
      split at h
      · exact .inl (hsame h rfl)
      · rcases List.mem_append.mp h with h | h
        · exact .inl (hsame (List.mem_append_left _ ((List.filter_sublist.map _).subset h)) rfl)
        · rw [List.map_append, List.map_singleton, List.mem_append, List.mem_singleton] at h
          rcases h with h | rfl
          · exact .inl (hsame (List.mem_append_right _ h) rfl)
          · exact .inr rfl
    | toolResult cid name content isError =>
      obtain ⟨hold, hne⟩ := mem_waiting_filter (s := { s with messages := _ }) h
      refine .inl ⟨hold, fun r hr => ?_⟩
      obtain rfl := Option.some.inj hr
      exact Ne.symm hne
    | approvalRequest cid name arguments =>
      simp only [act, applyChatEvent] at h
      split at h
      · exact .inl (hsame h rfl)
      · rcases List.mem_append.mp h with h | h
        · rw [List.map_append, List.map_singleton, List.mem_append, List.mem_singleton] at h
          rcases h with h | rfl
          · exact .inl (hsame (List.mem_append_left _ h) rfl)
          · exact .inr rfl
        · exact .inl (hsame (List.mem_append_right _ h) rfl)
    | turnState running =>
      cases running with
      | true => exact .inl (hsame h rfl)
      | false => cases h

theorem results_concat (as : List Action) (a : Action) : results (as ++ [a]) = results as ++ (resultOf a).toList := by
  rw [results, List.filterMap_append, ← filterMap_cons_toList, List.filterMap_nil, List.append_nil]
  rfl

theorem waiting_foldl {id : JsText} (h : id ∈ waiting (as.foldl (act js) s)) :
    id ∈ waiting s ∨ ∃ pre a post, as = pre ++ a :: post ∧ asks a = some id ∧ id ∉ (results post).map Prod.fst := by
  induction as using List.reverseRecOn with
  | nil => exact .inl h
  | append_singleton as a ih =>
    rw [List.foldl_append, List.foldl_cons, List.foldl_nil] at h
    rcases waiting_act js h with ⟨hold, hno⟩ | hasks
    · refine (ih hold).imp_right fun ⟨pre, b, post, hsplit, hb, hpost⟩ => ⟨pre, b, post ++ [a], ?_, hb, ?_⟩
      · rw [hsplit, List.append_assoc, List.cons_append]
      · rw [results_concat, List.map_append, List.mem_append, not_or]
        refine ⟨hpost, fun hin => ?_⟩
        obtain ⟨r, hr, heq⟩ := List.mem_map.mp hin
        exact hno r (Option.mem_toList.mp hr) heq
    · exact .inr ⟨as, a, [], rfl, hasks, List.not_mem_nil⟩

end Runs

theorem answered_append {xs ys : List Action} (hx : Answered xs) (hy : Answered ys) : Answered (xs ++ ys) := by
  intro pre a post id hsplit hasks
  rcases List.append_eq_append_iff.mp hsplit with ⟨cs, rfl, hcs⟩ | ⟨cs, rfl, hcs⟩
  · exact hy cs a post id hcs hasks
  · cases cs with
    | nil => exact hy [] a post id (by simpa using hcs.symm) hasks
    | cons c cs =>
      obtain ⟨rfl, hpost⟩ := List.cons.inj hcs
      have hpost : post = cs ++ ys := hpost
      rw [hpost, results, List.filterMap_append, List.map_append]
      exact List.mem_append_left _ (hx pre a cs id rfl hasks)

theorem answered_of_asks_none {xs : List Action} (h : ∀ a ∈ xs, asks a = none) : Answered xs := by
  intro pre a post id hsplit hasks
  rw [h a (hsplit ▸ by simp)] at hasks
  cases hasks

theorem asks_idle {a : Action} (h : Idle a) : asks a = none := by
  cases a with
  | send | unsend => rfl
  | event e now => cases e <;> first | rfl | exact h.elim

theorem asks_streams {a : Action} (h : Streams a) : asks a = none := by
  cases a with
  | send | unsend => rfl
  | event e now => cases e <;> first | rfl | exact h.elim

theorem answered_round {r : Round} (hr : Proper r) : Answered r.actions := by
  have hstart : Answered [.event (.assistantStart r.messageId) r.now] :=
    answered_of_asks_none fun a ha => List.mem_singleton.mp ha ▸ rfl
  have hclosing : Answered (r.outcome.closing r.messageId r.now) := by
    cases hout : r.outcome with
    | replied answers arriving =>
      have hend : Answered [.event (.assistantEnd r.messageId) r.now] :=
        answered_of_asks_none fun a ha => List.mem_singleton.mp ha ▸ rfl
      exact answered_append hend (hr.arrives answers arriving hout).2.1
    | failed | gaveUp | cancelled =>
      refine answered_of_asks_none fun a ha => ?_
      simp only [Outcome.closing, List.mem_cons, List.not_mem_nil, or_false] at ha
      rcases ha with rfl | rfl <;> rfl
    | dropped => exact answered_of_asks_none fun a ha => List.mem_singleton.mp ha ▸ rfl
  have hbefore := answered_of_asks_none fun a ha => asks_idle (hr.before a ha)
  have hstream := answered_of_asks_none fun a ha => asks_streams (hr.stream a ha)
  exact answered_append hbefore (answered_append hstart (answered_append hstream hclosing))

theorem answered_rounds {rounds : List Round} (hr : ∀ r ∈ rounds, Proper r) : Answered (allActions rounds) := by
  induction rounds with
  | nil => exact answered_of_asks_none fun a ha => by cases ha
  | cons r rounds ih =>
    exact answered_append (answered_round (hr r List.mem_cons_self)) (ih fun q hq => hr q (List.mem_cons_of_mem _ hq))

/-! ## The reopened chat -/

def viewEntry (js : Js) (m : AgentChatMessage) : Option Entry :=
  (viewRole m.role).map fun role => entry (viewMessage js m 0 role)

theorem entries_reopened (js : Js) (msgs : List AgentChatMessage) :
    entries (chatStateFromMessages js msgs) = msgs.filterMap (viewEntry js) := by
  have hall (k : ℕ) : ((msgs.zipIdx k).filterMap fun m => (viewRole m.1.role).map (viewMessage js m.1 m.2)).map entry =
      msgs.filterMap (viewEntry js) := by
    induction msgs generalizing k with
    | nil => rfl
    | cons m msgs ih =>
      rw [List.zipIdx_cons]
      cases hrole : viewRole m.role with
      | none =>
        have hone : viewEntry js m = none := by
          rw [viewEntry, hrole]
          rfl
        rw [List.filterMap_cons_none hone, ← ih (k + 1), List.filterMap_cons]
        simp only [hrole, Option.map_none]
      | some role =>
        have hone : viewEntry js m = some (entry (viewMessage js m k role)) := by
          rw [viewEntry, hrole]
          rfl
        rw [List.filterMap_cons_some hone, ← ih (k + 1), List.filterMap_cons]
        simp only [hrole, Option.map_some, List.map_cons]
  exact hall 0

/-- What is not the operator's. -/
def spoken (es : List Entry) : List Entry := es.filter fun e => e.role ≠ .user

/-- What is rendered of it. -/
def rendered (es : List Entry) : List Entry := (spoken es).filter fun e => e.role ≠ .assistant || !blank e.content

def spokenWire (msgs : List AgentChatMessage) : List AgentChatMessage :=
  msgs.filter fun m => m.role ≠ .user ∧ m.role ≠ .system

theorem rendered_append (es fs : List Entry) : rendered (es ++ fs) = rendered es ++ rendered fs := by
  rw [rendered, spoken, List.filter_append, List.filter_append]
  rfl

/-- The bubble has no text that the transcript does not have. -/
def Mirrored (r : Round) : Prop :=
  match r.outcome with
  | .replied .. => True
  | .failed _ => deltas r.stream = []
  | .dropped => blank (deltas r.stream) = true
  | .gaveUp _ | .cancelled _ => False

/-- The answers came in the order of the calls. -/
def InOrder (r : Round) : Prop :=
  ∀ answers arriving, r.outcome = .replied answers arriving → results arriving = answers.map answerResult

section Reopen
variable (js : Js) {r : Round}

theorem spoken_added (as : List Action) : spoken (as.filterMap (added js)) = (results as).map (toolEntry js) := by
  induction as with
  | nil => rfl
  | cons a as ih =>
    rw [← filterMap_cons_toList (added js), spoken, List.filter_append, results, ← filterMap_cons_toList resultOf,
      List.map_append]
    refine congrArg₂ (· ++ ·) ?_ ih
    cases a with
    | send | unsend => rfl
    | event e now => cases e <;> rfl

theorem rendered_tools (rs : List (JsText × JsText × JsText)) :
    rendered (rs.map (toolEntry js)) = rs.map (toolEntry js) := by
  have hrole : ∀ e ∈ rs.map (toolEntry js), e.role = .tool := by
    intro e he
    obtain ⟨r, -, rfl⟩ := List.mem_map.mp he
    rfl
  have hspoken : spoken (rs.map (toolEntry js)) = rs.map (toolEntry js) :=
    List.filter_eq_self.mpr fun e he => by rw [hrole e he]; rfl
  rw [rendered, hspoken]
  exact List.filter_eq_self.mpr fun e he => by rw [hrole e he]; rfl

theorem rendered_added (as : List Action) : rendered (as.filterMap (added js)) = (results as).map (toolEntry js) := by
  rw [← rendered_tools js, rendered, rendered, spoken_added]
  congr 1
  exact (List.filter_eq_self.mpr fun e he => by
    obtain ⟨r, -, rfl⟩ := List.mem_map.mp he
    rfl).symm

theorem results_of_none {as : List Action} (h : ∀ a ∈ as, resultOf a = none) : results as = [] :=
  List.filterMap_eq_nil_iff.mpr h

theorem resultOf_idle {a : Action} (h : Idle a) : resultOf a = none := by
  cases a with
  | send | unsend => rfl
  | event e now => cases e <;> first | rfl | exact h.elim

theorem resultOf_streams {a : Action} (h : Streams a) : resultOf a = none := by
  cases a with
  | send | unsend => rfl
  | event e now => cases e <;> first | rfl | exact h.elim

/-- What is rendered of a round: its bubble if it has text, and the answers as they came. -/
theorem rendered_shown (hr : Proper r) : rendered (r.shown js) =
    rendered [bubble (deltas r.stream ++ r.outcome.suffix)] ++ rendered (r.outcome.tail js) := by
  rw [Round.shown, rendered_append, rendered_added, results_of_none fun a ha => resultOf_idle (hr.before a ha),
    List.map_nil, List.nil_append, ← List.singleton_append, rendered_append, rendered_append, rendered_added,
    results_of_none fun a ha => resultOf_streams (hr.stream a ha), List.map_nil, List.nil_append]

theorem kept_entries_replied {answers : List Answer} {arriving : List Action} (hout : r.outcome = .replied answers arriving) :
    r.kept.filterMap (viewEntry js) = bubble (deltas r.stream) :: (answers.map answerResult).map (toolEntry js) := by
  rw [Round.kept, hout]
  dsimp only
  rw [List.filterMap_cons, List.filterMap_map, List.map_map]
  exact congrArg _ (congrFun List.filterMap_eq_map answers)

def isAssistant (e : Entry) : Bool := e.role = .assistant

theorem assistants_tools (rs : List (JsText × JsText × JsText)) : (rs.map (toolEntry js)).filter isAssistant = [] := by
  refine List.filter_eq_nil_iff.mpr fun e he => ?_
  obtain ⟨r, -, rfl⟩ := List.mem_map.mp he
  exact Bool.false_ne_true

/-- The two views of one round. -/
structure SameRound (live again : List Entry) (inOrder : Prop) : Prop where
  perm : live.Perm again
  assistants : live.filter isAssistant = again.filter isAssistant
  same : inOrder → live = again

theorem SameRound.of_eq {live again : List Entry} {p : Prop} (h : live = again) : SameRound live again p :=
  ⟨h ▸ List.Perm.refl _, h ▸ rfl, fun _ => h⟩

theorem same_round (hr : Proper r) (hm : Mirrored r) :
    SameRound (rendered (r.shown js)) (rendered (r.kept.filterMap (viewEntry js))) (InOrder r) := by
  rw [rendered_shown js hr]
  cases hout : r.outcome with
  | replied answers arriving =>
    obtain ⟨-, -, hperm⟩ := hr.arrives answers arriving hout
    have hkept : rendered (r.kept.filterMap (viewEntry js)) =
        rendered [bubble (deltas r.stream)] ++ (answers.map answerResult).map (toolEntry js) := by
      rw [kept_entries_replied js hout, ← List.singleton_append, rendered_append, rendered_tools]
    rw [hkept, Outcome.suffix, Outcome.tail, rendered_added, List.append_nil]
    refine ⟨(hperm.map _).append_left _, ?_, fun hin => ?_⟩
    · rw [List.filter_append, List.filter_append, assistants_tools, assistants_tools]
    · rw [hin answers arriving hout]
  | failed errText =>
    rw [Mirrored, hout] at hm
    refine .of_eq ?_
    rw [Round.kept, hout, show deltas r.stream = [] from hm]
    exact List.append_nil _
  | gaveUp errText =>
    rw [Mirrored, hout] at hm
    exact hm.elim
  | cancelled notice =>
    rw [Mirrored, hout] at hm
    exact hm.elim
  | dropped =>
    rw [Mirrored, hout] at hm
    have hblank : blank (deltas r.stream) = true := hm
    refine .of_eq ?_
    rw [Round.kept, hout, Outcome.suffix, Outcome.tail, List.append_nil]
    simp [rendered, spoken, bubble, hblank]

theorem SameRound.append {live again live' again' : List Entry} {p q : Prop} (h : SameRound live again p)
    (h' : SameRound live' again' q) : SameRound (live ++ live') (again ++ again') (p ∧ q) where
  perm := h.perm.append h'.perm
  assistants := by rw [List.filter_append, List.filter_append, h.assistants, h'.assistants]
  same hpq := by rw [h.same hpq.1, h'.same hpq.2]

theorem same_rounds {rounds : List Round} (hr : ∀ r ∈ rounds, Proper r) (hm : ∀ r ∈ rounds, Mirrored r) :
    SameRound (rendered (rounds.flatMap (Round.shown js)))
      (rendered ((rounds.flatMap Round.kept).filterMap (viewEntry js))) (∀ r ∈ rounds, InOrder r) := by
  induction rounds with
  | nil => exact .of_eq rfl
  | cons r rounds ih =>
    have hone := same_round js (hr r List.mem_cons_self) (hm r List.mem_cons_self)
    have hrest := ih (fun q hq => hr q (List.mem_cons_of_mem _ hq)) fun q hq => hm q (List.mem_cons_of_mem _ hq)
    rw [List.flatMap_cons, List.flatMap_cons, List.filterMap_append, rendered_append, rendered_append]
    have hboth := hone.append hrest
    exact ⟨hboth.perm, hboth.assistants, fun hin => hboth.same
      ⟨hin r List.mem_cons_self, fun q hq => hin q (List.mem_cons_of_mem _ hq)⟩⟩

theorem spoken_viewEntry (msgs : List AgentChatMessage) :
    spoken (msgs.filterMap (viewEntry js)) = spoken ((spokenWire msgs).filterMap (viewEntry js)) := by
  have happend (es fs : List Entry) : spoken (es ++ fs) = spoken es ++ spoken fs := List.filter_append ..
  have hone (m : AgentChatMessage) :
      spoken (viewEntry js m).toList = spoken ((spokenWire [m]).filterMap (viewEntry js)) := by
    obtain ⟨role, content, toolCalls, toolCallId, name, images⟩ := m
    cases role <;> rfl
  induction msgs with
  | nil => rfl
  | cons m msgs ih =>
    have hsplit : spokenWire (m :: msgs) = spokenWire [m] ++ spokenWire msgs := List.filter_append [m] msgs
    rw [← filterMap_cons_toList, happend, hone, ih, hsplit, List.filterMap_append, happend]

/-- What is rendered of a transcript depends on what is spoken in it. -/
theorem rendered_reopened (msgs : List AgentChatMessage) :
    rendered (entries (chatStateFromMessages js msgs)) = rendered ((spokenWire msgs).filterMap (viewEntry js)) := by
  rw [entries_reopened, rendered, rendered, spoken_viewEntry]

end Reopen

/-! ## The operator's messages -/

def sentOf : Action → Option Entry
  | .send _ text _ => some { role := .user, content := text }
  | _ => none

def own (es : List Entry) : List Entry := es.filter fun e => e.role = .user

section Own
variable {js : Js} {r : Round}

theorem own_append (es fs : List Entry) : own (es ++ fs) = own es ++ own fs := List.filter_append ..

theorem own_added (as : List Action) : own (as.filterMap (added js)) = as.filterMap sentOf := by
  induction as with
  | nil => rfl
  | cons a as ih =>
    rw [← filterMap_cons_toList (added js), own_append, ih, ← filterMap_cons_toList sentOf]
    congr 1
    cases a with
    | send | unsend => rfl
    | event e now => cases e <;> rfl

theorem own_shown (r : Round) : own (r.shown js) = r.actions.filterMap sentOf := by
  have htail : own (r.outcome.tail js) = (r.outcome.closing r.messageId r.now).filterMap sentOf := by
    cases hout : r.outcome with
    | replied answers arriving => exact own_added arriving
    | failed | gaveUp | cancelled | dropped => rfl
  rw [Round.shown, Round.actions, List.filterMap_append, own_append, own_added, ← List.singleton_append, own_append,
    own_append, own_added, htail, List.filterMap_cons_none rfl, List.filterMap_append]
  rfl

theorem own_rounds (rounds : List Round) :
    own (rounds.flatMap (Round.shown js)) = (allActions rounds).filterMap sentOf := by
  induction rounds with
  | nil => rfl
  | cons r rounds ih =>
    rw [allActions, List.flatMap_cons, List.flatMap_cons, own_append, own_shown, ih, List.filterMap_append]
    rfl

end Own

theorem quiet_reopened (js : Js) (msgs : List AgentChatMessage) : Quiet (chatStateFromMessages js msgs).messages := by
  intro m hm
  obtain ⟨⟨wire, i⟩, -, hview⟩ := List.mem_filterMap.mp hm
  obtain ⟨role, -, rfl⟩ := Option.map_eq_some_iff.mp hview
  rfl

/-- What the list of messages renders. -/
def visible (s : ChatViewState) : List Entry := (s.messages.filter shouldRenderMessage).map entry

theorem spoken_visible {s : ChatViewState} (h : Quiet s.messages) : spoken (visible s) = rendered (entries s) := by
  rw [visible, rendered, spoken, spoken, entries, List.filter_filter, List.filter_map, List.filter_map, List.filter_filter]
  congr 1
  refine List.filter_congr fun m hm => ?_
  simp only [Function.comp_apply, shouldRenderMessage, entry, h m hm, Bool.or_false]
  exact Bool.and_comm ..

def callNamed (id : UInt16) : AgentToolCall := ⟨[id], [110], []⟩

/-- Two calls are answered in the other order while the operator writes. -/
def twoCalls : Round where
  before := []
  messageId := [1]
  stream := [.event (.tokenDelta [72]) 0, .send 1 [63] []]
  outcome := .replied [⟨callNamed 2, [97], false⟩, ⟨callNamed 3, [98], false⟩]
    [.event (.toolExecutionStart [2] [110]) 2, .event (.approvalRequest [3] [110] []) 2,
      .event (.toolExecutionStart [3] [110]) 3, .event (.toolResult [3] [110] [98] false) 4,
      .event (.toolResult [2] [110] [97] false) 5]
  now := 0

theorem answered_of_forall_drop {as : List Action}
    (h : ∀ i < as.length, ∀ a ∈ as[i]?, ∀ id ∈ asks a, id ∈ (results (as.drop (i + 1))).map Prod.fst) : Answered as := by
  rintro pre a post id rfl hasks
  have hat : (pre ++ a :: post)[pre.length]? = some a := by simp
  have hdrop : (pre ++ a :: post).drop (pre.length + 1) = post := by simp
  rw [← hdrop]
  exact h pre.length (by simp) a hat id hasks

theorem proper_twoCalls : Proper twoCalls where
  before a ha := by cases ha
  stream a ha := by
    simp only [twoCalls, List.mem_cons, List.not_mem_nil, or_false] at ha
    rcases ha with rfl | rfl <;> trivial
  arrives answers arriving hout := by
    cases hout
    refine ⟨fun a ha => ?_, answered_of_forall_drop (by decide), by decide⟩
    simp only [List.mem_cons, List.not_mem_nil, or_false] at ha
    rcases ha with rfl | rfl | rfl | rfl | rfl <;> trivial

end FerrisScope.ChatMirror
