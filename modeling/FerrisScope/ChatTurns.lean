import FerrisScope.LabelledRuns
import FerrisScope.ProviderErrors
import FerrisScope.SessionEvents
import FerrisScope.ToolPairs
import FerrisScope.TurnGate

/-!
# The turns of a chat

A chat has a transcript in memory and a log on disk. A send appends its message to the transcript
and then to the log, and starts the turn loop if none is running. The loop repairs the transcript,
compacts it when the last usage report was high, asks the provider with a snapshot of it, and
writes the answer to the log before it places it in the transcript; the results of tools go to the
transcript first. A compaction can also be asked for by hand at any time. Each step below is one lock
hold on the transcript, or one append to the log.

Nobody cancels here: the gate of the turn is then idle, claimed by a send that has still to
start its loop, or held by the one loop that runs.
-/

namespace FerrisScope.ChatTurns
open ChatMessages ToolPairs SessionEvents ProviderErrors
open HostsFile (Text trim)
open TurnGate (Gate)

inductive FinishReason where
  | stop
  | toolCalls
  | length
  | contentFilter
  | other
  deriving DecidableEq, Repr

structure Usage where
  promptTokens : UInt32
  completionTokens : UInt32
  totalTokens : UInt32
  deriving DecidableEq, Repr

/-- What a provider call ends with, and the text that it streamed. -/
structure CompletionFinal where
  text : String
  finishReason : FinishReason := .stop
  toolCalls : List ToolCall := []
  usage : Option Usage := none
  reasoningContent : Option String := none
  thinkingBlocks : List Value := []
  deriving DecidableEq

/-- What a tool call came to. -/
structure ToolOutcome where
  call : ToolCall
  content : String
  isError : Bool
  deriving DecidableEq, Repr

def maxToolRounds : Nat := 500

def maxEmptyRetries : Nat := 2

def maxTransientRetries : Nat := 5

def maxOverflowRecoveries : Nat := 2

def compactionTailKeep : Nat := 4

def isUser (m : ChatMessage) : Bool := m.role = .user

def isAssistant (m : ChatMessage) : Bool := m.role = .assistant

/-- The user messages at the end of a transcript. -/
def trailingUsers (messages : List ChatMessage) : List ChatMessage :=
  (messages.reverse.takeWhile isUser).reverse

def trailingUserRunStart (messages : List ChatMessage) : Option Nat :=
  if trailingUsers messages = [] then none else some (messages.length - (trailingUsers messages).length)

def userQueuedDuringRound (messages : List ChatMessage) (preRoundCount : Nat) : Bool :=
  decide (preRoundCount < messages.length) && messages.getLast?.any isUser

/-- The transcript as a request has it, with the user messages at its end folded into one. -/
def mergeTrailingUserRun (messages : List ChatMessage) : List ChatMessage :=
  match trailingUserRunStart messages with
  | none => messages
  | some start =>
    if messages.length ≤ start + 1 then messages
    else messages.take start ++ [{ content := "\n\n".intercalate ((messages.drop start).map (·.content)) }]

/-- How many messages a compaction folds. The messages it keeps do not start with a tool result. -/
def headCountOf (messages : List ChatMessage) : Nat :=
  let cut := messages.length - compactionTailKeep
  cut + ((messages.drop cut).takeWhile isTool).length

def userMessage (content : String) (images : List ImageAttachment) : ChatMessage where
  role := .user
  content := content
  images := images

def autoContinueMessage : ChatMessage where
  role := .user
  content := "Continue from where you left off. If there are no remaining steps and the previous goal is satisfied, " ++
    "briefly say so and stop."
  name := some "auto_continue"

def assistantMessage (final : CompletionFinal) : ChatMessage where
  role := .assistant
  content := final.text
  toolCalls := final.toolCalls
  reasoningContent := final.reasoningContent
  thinkingBlocks := final.thinkingBlocks

/-- A message of the loop itself, in the place of an answer. -/
def notice (text : Text) : ChatMessage where
  role := .assistant
  content := String.ofList text

def failedText (error : Text) : Text :=
  "**Provider error.** The request failed before the model could respond.\n\n```text\n".toList ++ error ++
    "\n```".toList

def overflowText (error : Text) : Text :=
  failedText error ++
    "\n\n_Auto-compaction couldn't recover after 2 attempts. Try /compact or start a new chat._".toList

def exhaustedText (error : Text) : Text :=
  failedText error ++ ("\n\n_Auto-retry exhausted after 5 attempts. Likely a transient upstream issue — try sending " ++
    "the message again in a minute._").toList

def usageLimitText (reason error : Text) : Text :=
  "**Usage limit reached.** ".toList ++ reason ++ ".\n\n```text\n".toList ++ error ++
    ("\n```\n\n_Retrying won't help until the limit resets. Wait it out, switch provider or model in the chat header, " ++
      "or check your plan / billing on the provider's dashboard._").toList

def emptyText : Text := "_The model returned no output after 3 attempts. Send a message to continue._".toList

def toolMessage (o : ToolOutcome) : ChatMessage where
  role := .tool
  content := o.content
  toolCallId := some o.call.id
  name := some o.call.name

/-- The records of a batch of tool calls. -/
def toolRecords (ts : Int64) (outcomes : List ToolOutcome) : List SessionEvent :=
  outcomes.flatMap fun o => [.message (toolMessage o) ts,
    .toolResult o.call o.content (if o.isError then some o.content else none) ts]

/-- The number a usage report is remembered by. -/
def Usage.total (u : Usage) : UInt32 :=
  if 0 < u.totalTokens then u.totalTokens
  else UInt32.ofNat (min (u.promptTokens.toNat + u.completionTokens.toNat) 0xFFFFFFFF)

/-- The counters of a turn loop. -/
structure Budget where
  round : Nat := 0
  overflowRecoveries : Nat := 0
  emptyRetries : Nat := 0
  transientRetries : Nat := 0
  deriving DecidableEq, Repr

/-- Where the turn loop is. A forced compaction is the answer to an overflow. A notice is logged,
then pushed, and the loop ends with the push (`atOnce`) or after it. -/
inductive Pc where
  | top
  | autoCompact
  | forceCompact
  | compacting (forced : Bool)
  | mending (forced : Bool)
  | snapshot
  | streaming (request : List ChatMessage) (preRoundCount : Nat)
  | replied (reply : ChatMessage) (finishReason : FinishReason) (preRoundCount : Nat)
  | placing (reply : ChatMessage) (finishReason : FinishReason) (preRoundCount : Nat)
  | recording (records : List SessionEvent)
  | closing (note : ChatMessage) (atOnce : Bool)
  | closed (note : ChatMessage) (atOnce : Bool)
  | stopping
  deriving DecidableEq

/-- The gate of the turn, with the loop that holds it. -/
inductive Turn where
  | idle
  | claimed (logged : Bool)
  | running (pc : Pc) (budget : Budget)
  deriving DecidableEq

/-- A user message that is in the transcript and not yet in the log, and whether its send starts a loop. -/
structure Sending where
  message : ChatMessage
  starts : Bool
  deriving DecidableEq

/-- A compaction whose summary is being written. -/
structure Compaction where
  headCount : Nat
  tokensBefore : UInt32
  byLoop : Bool
  deriving DecidableEq, Repr

/-- `mends` and `continues` count the compactions by hand that have still to repair the transcript, or
to continue the chat. -/
structure State where
  messages : List ChatMessage
  log : List SessionEvent
  lastTotalTokens : UInt32
  turn : Turn
  unlogged : List Sending
  compaction : Option Compaction
  mends : Nat
  continues : Nat
  deriving DecidableEq

/-- A chat opened on a session log. -/
def chatOpen (log : List SessionEvent) (lastTotalTokens : UInt32) : Option State :=
  match repairToolPairs (replay log) with
  | .error _ => none
  | .ok (messages, _) => some
    { messages, log, lastTotalTokens, turn := .idle, unlogged := [], compaction := none, mends := 0, continues := 0 }

/-- A chat without messages. -/
def emptyChat : State where
  messages := []
  log := []
  lastTotalTokens := 0
  turn := .idle
  unlogged := []
  compaction := none
  mends := 0
  continues := 0

inductive Action where
  | send (content : String) (images : List ImageAttachment)
  | logSend (k : Nat) (ts : Int64)
  | spawn
  | compact
  | summarise (summary : Option String) (ts : Int64)
  | mend
  | autocontinue
  | note (record : SessionEvent)
  | startRound
  | autoCompact (trigger : UInt32)
  | forceCompact
  | mendOwn
  | snapshot
  | reply (final : CompletionFinal) (ts : Int64)
  | fail (e : ProviderError)
  | logReply (ts : Int64)
  | place
  | runTools (outcomes : List ToolOutcome) (ts : Int64)
  | record
  | logNotice (ts : Int64)
  | pushNotice
  | finish
  deriving DecidableEq

namespace State

variable (s : State)

def append (e : SessionEvent) : State := { s with log := s.log ++ [e] }

def moveTo (pc : Pc) (b : Budget) : State := { s with turn := .running pc b }

/-- A user message is pushed, and the turn claimed if that is free. -/
def push (m : ChatMessage) : State :=
  match s.turn with
  | .idle => { s with
      messages := s.messages ++ [m]
      unlogged := s.unlogged ++ [⟨m, true⟩]
      turn := .claimed false }
  | _ => { s with messages := s.messages ++ [m], unlogged := s.unlogged ++ [⟨m, false⟩] }

def canCompact : Bool := s.compaction.isNone && decide (compactionTailKeep + 2 < s.messages.length)

def beginCompaction (byLoop : Bool) : State :=
  { s with compaction := some ⟨headCountOf s.messages, s.lastTotalTokens, byLoop⟩ }

/-- The head is replaced by the summary, and the marker is logged with what was kept. -/
def replaceHead (c : Compaction) (summary : String) (ts : Int64) : State :=
  let tail := s.messages.drop c.headCount
  { s with
    messages := checkpoint summary :: tail
    log := s.log ++ [.compaction (UInt32.ofNat c.headCount) c.tokensBefore summary tail ts]
    lastTotalTokens := 0
    compaction := none }

end State

/-- Where the loop goes on after its compaction. -/
def afterCompaction (forced : Bool) : Pc := if forced then .top else .snapshot

/-- A repair that would panic is not a step. -/
def repaired (s : State) : Option State :=
  match repairToolPairs s.messages with
  | .error _ => none
  | .ok (messages, _) => some { s with messages }

/-- The compaction is over without a summary. -/
def withdraw (s : State) (c : Compaction) : State :=
  let s := { s with compaction := none }
  if c.byLoop then
    match s.turn with
    | .running (.compacting forced) b => s.moveTo (afterCompaction forced) b
    | _ => s
  else { s with continues := s.continues + 1 }

def replace (s : State) (c : Compaction) (summary : String) (ts : Int64) : State :=
  let s := s.replaceHead c summary ts
  if c.byLoop then
    match s.turn with
    | .running (.compacting forced) b => s.moveTo (.mending forced) b
    | _ => s
  else { s with mends := s.mends + 1 }

def summarise (s : State) (c : Compaction) (summary : Option String) (ts : Int64) : Option State :=
  match summary.map (fun text => trim text.toList) with
  | none => some (withdraw s c)
  | some [] => some (withdraw s c)
  | some text =>
    if c.headCount ≤ s.messages.length then some (replace s c (String.ofList text) ts) else none

/-- The answer arrives. Without text and calls it is asked for again, or given up. -/
def takeReply (s : State) (b : Budget) (preRoundCount : Nat) (final : CompletionFinal) (ts : Int64) : State :=
  let s := match final.usage with
    | none => s
    | some u => { s with
        lastTotalTokens := u.total
        log := s.log ++ [SessionEvent.usage u.promptTokens u.completionTokens u.total ts] }
  if trim final.text.toList = [] ∧ final.toolCalls = [] then
    if maxEmptyRetries ≤ b.emptyRetries then s.moveTo (.closing (notice emptyText) true) b
    else s.moveTo .top { b with emptyRetries := b.emptyRetries + 1, round := b.round - 1 }
  else s.moveTo (.replied (assistantMessage final) final.finishReason preRoundCount)
    { b with emptyRetries := 0, transientRetries := 0 }

/-- The call has failed. -/
def takeFailure (s : State) (b : Budget) (e : ProviderError) : State :=
  match classOf e with
  | .cancelled => s.moveTo .stopping b
  | .usageLimited reason => s.moveTo (.closing (notice (usageLimitText reason (redactSecrets (display e)))) false) b
  | .overflow =>
    if maxOverflowRecoveries ≤ b.overflowRecoveries then
      s.moveTo (.closing (notice (overflowText (display e))) true) b
    else s.moveTo .forceCompact { b with overflowRecoveries := b.overflowRecoveries + 1, round := b.round - 1 }
  | .transient =>
    if maxTransientRetries ≤ b.transientRetries then
      s.moveTo (.closing (notice (exhaustedText (display e))) true) b
    else s.moveTo .top { b with transientRetries := b.transientRetries + 1, round := b.round - 1 }
  | .other => s.moveTo (.closing (notice (failedText (redactSecrets (display e)))) false) b

/-- The answer is placed before the user messages that came in during the round, and the loop goes
on; without such messages it comes last, and the turn is over. -/
def place (s : State) (b : Budget) (reply : ChatMessage) (preRoundCount : Nat) : State :=
  if userQueuedDuringRound s.messages preRoundCount then
    let start := (trailingUserRunStart s.messages).getD s.messages.length
    { s with messages := s.messages.insertIdx start reply, turn := .running .top { b with round := 0 } }
  else { s with messages := s.messages ++ [reply], turn := .idle }

def runsTools (reply : ChatMessage) (finishReason : FinishReason) : Bool :=
  finishReason = .toolCalls && !reply.toolCalls.isEmpty

def step (s : State) : Action → Option State
  | .send content images => some (s.push (userMessage content images))
  | .logSend k ts =>
    match s.unlogged[k]? with
    | none => none
    | some p => some { s.append (.message p.message ts) with
        unlogged := s.unlogged.eraseIdx k
        turn := if p.starts then .claimed true else s.turn }
  | .spawn => if s.turn = .claimed true then some (s.moveTo .top {}) else none
  | .compact =>
    if s.canCompact then some (s.beginCompaction false) else some { s with continues := s.continues + 1 }
  | .summarise summary ts =>
    match s.compaction with
    | none => none
    | some c => summarise s c summary ts
  | .mend =>
    match s.mends with
    | 0 => none
    | n + 1 => (repaired s).map fun s => { s with mends := n, continues := s.continues + 1 }
  | .autocontinue =>
    match s.continues with
    | 0 => none
    | n + 1 =>
      let s := { s with continues := n }
      if s.turn = .idle ∧ s.messages.getLast?.any isAssistant then some (s.push autoContinueMessage) else some s
  | .note record =>
    if messageOf record = none ∧ markerOf record = none then some (s.append record) else none
  | .startRound =>
    match s.turn with
    | .running .top b =>
      if maxToolRounds ≤ b.round then some { s with turn := .idle }
      else (repaired s).map (·.moveTo .autoCompact { b with round := b.round + 1 })
    | _ => none
  | .autoCompact trigger =>
    match s.turn with
    | .running .autoCompact b =>
      if s.canCompact && s.lastTotalTokens != 0 && trigger ≤ s.lastTotalTokens then
        some ((s.beginCompaction true).moveTo (.compacting false) b)
      else some (s.moveTo .snapshot b)
    | _ => none
  | .forceCompact =>
    match s.turn with
    | .running .forceCompact b =>
      if s.canCompact then some ((s.beginCompaction true).moveTo (.compacting true) b)
      else some (s.moveTo .top b)
    | _ => none
  | .mendOwn =>
    match s.turn with
    | .running (.mending forced) b => (repaired s).map (·.moveTo (afterCompaction forced) b)
    | _ => none
  | .snapshot =>
    match s.turn with
    | .running .snapshot b =>
      some (s.moveTo (.streaming (mergeTrailingUserRun s.messages) s.messages.length) b)
    | _ => none
  | .reply final ts =>
    match s.turn with
    | .running (.streaming _ preRoundCount) b => some (takeReply s b preRoundCount final ts)
    | _ => none
  | .fail e =>
    match s.turn with
    | .running (.streaming _ _) b => some (takeFailure s b e)
    | _ => none
  | .logReply ts =>
    match s.turn with
    | .running (.replied reply finishReason preRoundCount) b =>
      some ((s.append (.message reply ts)).moveTo (.placing reply finishReason preRoundCount) b)
    | _ => none
  | .place =>
    match s.turn with
    | .running (.placing reply finishReason preRoundCount) b =>
      if runsTools reply finishReason then none else some (place s b reply preRoundCount)
    | _ => none
  | .runTools outcomes ts =>
    match s.turn with
    | .running (.placing reply finishReason _) b =>
      if runsTools reply finishReason ∧ outcomes.map (·.call) = reply.toolCalls then
        some ({ s with messages := s.messages ++ reply :: outcomes.map toolMessage }.moveTo
          (.recording (toolRecords ts outcomes)) b)
      else none
    | _ => none
  | .record =>
    match s.turn with
    | .running (.recording []) b => some (s.moveTo .top b)
    | .running (.recording (e :: records)) b => some ((s.append e).moveTo (.recording records) b)
    | _ => none
  | .logNotice ts =>
    match s.turn with
    | .running (.closing note atOnce) b => some ((s.append (.message note ts)).moveTo (.closed note atOnce) b)
    | _ => none
  | .pushNotice =>
    match s.turn with
    | .running (.closed note atOnce) b =>
      some { s with
        messages := s.messages ++ [note]
        turn := if atOnce then .idle else .running .stopping b }
    | _ => none
  | .finish =>
    match s.turn with
    | .running .stopping _ => some { s with turn := .idle }
    | _ => none

/-- The steps, by what they do. -/
inductive Step (s : State) : Action → State → Prop
  | send {content images} : Step s (.send content images) (s.push (userMessage content images))
  | logSend {k p ts} (hk : s.unlogged[k]? = some p) :
      Step s (.logSend k ts) { s.append (.message p.message ts) with
        unlogged := s.unlogged.eraseIdx k
        turn := if p.starts then .claimed true else s.turn }
  | spawn (hturn : s.turn = .claimed true) : Step s .spawn (s.moveTo .top {})
  | compact (hcan : s.canCompact = true) : Step s .compact (s.beginCompaction false)
  | compactNot : Step s .compact { s with continues := s.continues + 1 }
  | withdraw {c summary ts} (hc : s.compaction = some c) : Step s (.summarise summary ts) (withdraw s c)
  | replace {c summary ts} (hc : s.compaction = some c) (hsummary : trim summary.toList ≠ [])
      (hlen : c.headCount ≤ s.messages.length) :
      Step s (.summarise (some summary) ts) (replace s c (String.ofList (trim summary.toList)) ts)
  | mend {n messages fixed} (hn : s.mends = n + 1) (hrepair : repairToolPairs s.messages = .ok (messages, fixed)) :
      Step s .mend { s with messages, mends := n, continues := s.continues + 1 }
  | autocontinue {n} (hn : s.continues = n + 1) (hidle : s.turn = .idle) :
      Step s .autocontinue ({ s with continues := n }.push autoContinueMessage)
  | autocontinueNot {n} (hn : s.continues = n + 1) : Step s .autocontinue { s with continues := n }
  | note {record} (hmessage : messageOf record = none) (hmarker : markerOf record = none) :
      Step s (.note record) (s.append record)
  | roundLimit {b} (hturn : s.turn = .running .top b) (hlimit : maxToolRounds ≤ b.round) :
      Step s .startRound { s with turn := .idle }
  | startRound {b messages fixed} (hturn : s.turn = .running .top b)
      (hrepair : repairToolPairs s.messages = .ok (messages, fixed)) :
      Step s .startRound ({ s with messages }.moveTo .autoCompact { b with round := b.round + 1 })
  | autoCompact {b trigger} (hturn : s.turn = .running .autoCompact b) (hcan : s.canCompact = true) :
      Step s (.autoCompact trigger) ((s.beginCompaction true).moveTo (.compacting false) b)
  | autoCompactNot {b trigger} (hturn : s.turn = .running .autoCompact b) :
      Step s (.autoCompact trigger) (s.moveTo .snapshot b)
  | forceCompact {b} (hturn : s.turn = .running .forceCompact b) (hcan : s.canCompact = true) :
      Step s .forceCompact ((s.beginCompaction true).moveTo (.compacting true) b)
  | forceCompactNot {b} (hturn : s.turn = .running .forceCompact b) : Step s .forceCompact (s.moveTo .top b)
  | mendOwn {forced b messages fixed} (hturn : s.turn = .running (.mending forced) b)
      (hrepair : repairToolPairs s.messages = .ok (messages, fixed)) :
      Step s .mendOwn ({ s with messages }.moveTo (afterCompaction forced) b)
  | snapshot {b} (hturn : s.turn = .running .snapshot b) :
      Step s .snapshot (s.moveTo (.streaming (mergeTrailingUserRun s.messages) s.messages.length) b)
  | reply {request preRoundCount b final ts} (hturn : s.turn = .running (.streaming request preRoundCount) b) :
      Step s (.reply final ts) (takeReply s b preRoundCount final ts)
  | fail {request preRoundCount b e} (hturn : s.turn = .running (.streaming request preRoundCount) b) :
      Step s (.fail e) (takeFailure s b e)
  | logReply {reply finishReason preRoundCount b ts}
      (hturn : s.turn = .running (.replied reply finishReason preRoundCount) b) :
      Step s (.logReply ts) ((s.append (.message reply ts)).moveTo (.placing reply finishReason preRoundCount) b)
  | place {reply finishReason preRoundCount b}
      (hturn : s.turn = .running (.placing reply finishReason preRoundCount) b)
      (htools : runsTools reply finishReason = false) : Step s .place (place s b reply preRoundCount)
  | runTools {reply finishReason preRoundCount b outcomes ts}
      (hturn : s.turn = .running (.placing reply finishReason preRoundCount) b)
      (htools : runsTools reply finishReason = true) (hcalls : outcomes.map (·.call) = reply.toolCalls) :
      Step s (.runTools outcomes ts) ({ s with messages := s.messages ++ reply :: outcomes.map toolMessage }.moveTo
        (.recording (toolRecords ts outcomes)) b)
  | recorded {b} (hturn : s.turn = .running (.recording []) b) : Step s .record (s.moveTo .top b)
  | record {e records b} (hturn : s.turn = .running (.recording (e :: records)) b) :
      Step s .record ((s.append e).moveTo (.recording records) b)
  | logNotice {note atOnce b ts} (hturn : s.turn = .running (.closing note atOnce) b) :
      Step s (.logNotice ts) ((s.append (.message note ts)).moveTo (.closed note atOnce) b)
  | pushNotice {note atOnce b} (hturn : s.turn = .running (.closed note atOnce) b) :
      Step s .pushNotice { s with
        messages := s.messages ++ [note]
        turn := if atOnce then .idle else .running .stopping b }
  | finish {b} (hturn : s.turn = .running .stopping b) : Step s .finish { s with turn := .idle }

theorem repaired_inv {s t : State} (h : repaired s = some t) :
    ∃ messages fixed, repairToolPairs s.messages = .ok (messages, fixed) ∧ t = { s with messages } := by
  unfold repaired at h
  split at h
  · cases h
  · rename_i messages fixed hrepair
    cases h
    exact ⟨messages, fixed, hrepair, rfl⟩

theorem summarise_inv {s t : State} {c : Compaction} {summary : Option String} {ts : Int64}
    (h : summarise s c summary ts = some t) :
    t = withdraw s c ∨ ∃ text, summary = some text ∧ trim text.toList ≠ [] ∧ c.headCount ≤ s.messages.length ∧
      t = replace s c (String.ofList (trim text.toList)) ts := by
  cases summary with
  | none =>
    cases h
    exact .inl rfl
  | some text =>
    unfold summarise at h
    rw [Option.map_some] at h
    cases htrim : trim text.toList with
    | nil =>
      rw [htrim] at h
      cases h
      exact .inl rfl
    | cons c' rest =>
      rw [htrim] at h
      dsimp only at h
      split at h
      · rename_i hlen
        cases h
        exact .inr ⟨text, rfl, by simp [htrim], hlen, by rw [htrim]⟩
      · cases h

theorem step_inv {s t : State} {a : Action} (h : step s a = some t) : Step s a t := by
  cases a with
  | send content images =>
    cases h
    exact .send
  | logSend k ts =>
    simp only [step] at h
    split at h
    · cases h
    · rename_i p hk
      cases h
      exact .logSend hk
  | spawn =>
    simp only [step] at h
    split at h
    · rename_i hturn
      cases h
      exact .spawn hturn
    · cases h
  | compact =>
    simp only [step] at h
    split at h
    · rename_i hcan
      cases h
      exact .compact hcan
    · cases h
      exact .compactNot
  | summarise summary ts =>
    simp only [step] at h
    split at h
    · cases h
    · rename_i c hc
      obtain rfl | ⟨text, rfl, hsummary, hlen, rfl⟩ := summarise_inv h
      · exact .withdraw hc
      · exact .replace hc hsummary hlen
  | mend =>
    simp only [step] at h
    split at h
    · cases h
    · rename_i n hn
      obtain ⟨u, hu, rfl⟩ := Option.map_eq_some_iff.mp h
      obtain ⟨messages, fixed, hrepair, rfl⟩ := repaired_inv hu
      exact .mend hn hrepair
  | autocontinue =>
    simp only [step] at h
    split at h
    · cases h
    · rename_i n hn
      split at h
      · rename_i hidle
        cases h
        exact .autocontinue hn hidle.1
      · cases h
        exact .autocontinueNot hn
  | note record =>
    simp only [step] at h
    split at h
    · rename_i hrecord
      cases h
      exact .note hrecord.1 hrecord.2
    · cases h
  | startRound =>
    simp only [step] at h
    split at h
    · rename_i b hturn
      split at h
      · rename_i hlimit
        cases h
        exact .roundLimit hturn hlimit
      · obtain ⟨u, hu, rfl⟩ := Option.map_eq_some_iff.mp h
        obtain ⟨messages, fixed, hrepair, rfl⟩ := repaired_inv hu
        exact .startRound hturn hrepair
    · cases h
  | autoCompact trigger =>
    simp only [step] at h
    split at h
    · rename_i b hturn
      split at h
      · rename_i hcan
        simp only [Bool.and_eq_true] at hcan
        cases h
        exact .autoCompact hturn hcan.1.1
      · cases h
        exact .autoCompactNot hturn
    · cases h
  | forceCompact =>
    simp only [step] at h
    split at h
    · rename_i b hturn
      split at h
      · rename_i hcan
        cases h
        exact .forceCompact hturn hcan
      · cases h
        exact .forceCompactNot hturn
    · cases h
  | mendOwn =>
    simp only [step] at h
    split at h
    · rename_i forced b hturn
      obtain ⟨u, hu, rfl⟩ := Option.map_eq_some_iff.mp h
      obtain ⟨messages, fixed, hrepair, rfl⟩ := repaired_inv hu
      exact .mendOwn hturn hrepair
    · cases h
  | snapshot =>
    simp only [step] at h
    split at h
    · rename_i b hturn
      cases h
      exact .snapshot hturn
    · cases h
  | reply final ts =>
    simp only [step] at h
    split at h
    · rename_i request preRoundCount b hturn
      cases h
      exact .reply hturn
    · cases h
  | fail e =>
    simp only [step] at h
    split at h
    · rename_i request preRoundCount b hturn
      cases h
      exact .fail hturn
    · cases h
  | logReply ts =>
    simp only [step] at h
    split at h
    · rename_i reply finishReason preRoundCount b hturn
      cases h
      exact .logReply hturn
    · cases h
  | place =>
    simp only [step] at h
    split at h
    · rename_i reply finishReason preRoundCount b hturn
      split at h
      · cases h
      · rename_i htools
        cases h
        exact .place hturn (Bool.eq_false_of_not_eq_true htools)
    · cases h
  | runTools outcomes ts =>
    simp only [step] at h
    split at h
    · rename_i reply finishReason preRoundCount b hturn
      split at h
      · rename_i htools
        cases h
        exact .runTools hturn htools.1 htools.2
      · cases h
    · cases h
  | record =>
    simp only [step] at h
    split at h
    · rename_i b hturn
      cases h
      exact .recorded hturn
    · rename_i e records b hturn
      cases h
      exact .record hturn
    · cases h
  | logNotice ts =>
    simp only [step] at h
    split at h
    · rename_i note atOnce b hturn
      cases h
      exact .logNotice hturn
    · cases h
  | pushNotice =>
    simp only [step] at h
    split at h
    · rename_i note atOnce b hturn
      cases h
      exact .pushNotice hturn
    · cases h
  | finish =>
    simp only [step] at h
    split at h
    · rename_i b hturn
      cases h
      exact .finish hturn
    · cases h

theorem isTool_of_isUser {m : ChatMessage} (h : isUser m = true) : isTool m = false := by
  simp only [isUser, decide_eq_true_eq] at h
  simp [isTool, h]

section Effects

variable (s : State) (c : Compaction) (b : Budget)

/-- The loop goes on if it was its own compaction. -/
theorem withdraw_effect : ∃ turn n, withdraw s c = { s with compaction := none, turn, continues := n } ∧
    (turn = s.turn ∨ ∃ forced b, s.turn = .running (.compacting forced) b ∧ turn = .running (afterCompaction forced) b) := by
  unfold withdraw
  split
  · dsimp only
    split
    · rename_i forced b hturn
      exact ⟨_, _, rfl, .inr ⟨forced, b, hturn, rfl⟩⟩
    · exact ⟨_, _, rfl, .inl rfl⟩
  · exact ⟨_, _, rfl, .inl rfl⟩

theorem replace_effect (summary : String) (ts : Int64) :
    ∃ turn n, replace s c summary ts = { s.replaceHead c summary ts with turn, mends := n } ∧
    (turn = s.turn ∨ ∃ forced b, s.turn = .running (.compacting forced) b ∧ turn = .running (.mending forced) b) := by
  unfold replace
  split
  · dsimp only
    split
    · rename_i forced b hturn
      exact ⟨_, _, rfl, .inr ⟨forced, b, hturn, rfl⟩⟩
    · exact ⟨_, _, rfl, .inl rfl⟩
  · exact ⟨_, _, rfl, .inl rfl⟩

/-- Where the loop is after an answer. -/
inductive AnsweredPc (final : CompletionFinal) (preRoundCount : Nat) (b : Budget) : Pc → Prop
  | givenUp (hretries : maxEmptyRetries ≤ b.emptyRetries) : AnsweredPc final preRoundCount b (.closing (notice emptyText) true)
  | again : AnsweredPc final preRoundCount b .top
  | replied : AnsweredPc final preRoundCount b (.replied (assistantMessage final) final.finishReason preRoundCount)

theorem takeReply_effect (preRoundCount : Nat) (final : CompletionFinal) (ts : Int64) :
    ∃ total records pc b', takeReply s b preRoundCount final ts =
      { s with lastTotalTokens := total, log := s.log ++ records, turn := .running pc b' } ∧
    AnsweredPc final preRoundCount b pc ∧ ∀ e ∈ records, messageOf e = none ∧ markerOf e = none := by
  have hreply (u : State) : ∃ pc b', (if trim final.text.toList = [] ∧ final.toolCalls = [] then
      if maxEmptyRetries ≤ b.emptyRetries then u.moveTo (.closing (notice emptyText) true) b
      else u.moveTo .top { b with emptyRetries := b.emptyRetries + 1, round := b.round - 1 }
    else u.moveTo (.replied (assistantMessage final) final.finishReason preRoundCount)
      { b with emptyRetries := 0, transientRetries := 0 }) = { u with turn := .running pc b' } ∧
      AnsweredPc final preRoundCount b pc := by
    split
    · split
      · rename_i hretries
        exact ⟨_, _, rfl, .givenUp hretries⟩
      · exact ⟨_, _, rfl, .again⟩
    · exact ⟨_, _, rfl, .replied⟩
  unfold takeReply
  cases final.usage with
  | none =>
    obtain ⟨pc, b', heq, hpc⟩ := hreply s
    refine ⟨s.lastTotalTokens, [], pc, b', ?_, hpc, fun e he => (by cases he)⟩
    rw [List.append_nil]
    exact heq
  | some u =>
    obtain ⟨pc, b', heq, hpc⟩ := hreply { s with
      lastTotalTokens := u.total
      log := s.log ++ [.usage u.promptTokens u.completionTokens u.total ts] }
    refine ⟨_, _, pc, b', heq, hpc, fun e he => ?_⟩
    obtain rfl := List.mem_singleton.mp he
    exact ⟨rfl, rfl⟩

/-- Where the loop is after a failed call. -/
inductive FailedPc : Pc → Prop
  | stopping : FailedPc .stopping
  | closing {text atOnce} : FailedPc (.closing (notice text) atOnce)
  | forceCompact : FailedPc .forceCompact
  | again : FailedPc .top

theorem takeFailure_effect (e : ProviderError) : ∃ pc b', takeFailure s b e = s.moveTo pc b' ∧ FailedPc pc := by
  unfold takeFailure
  split
  · exact ⟨_, _, rfl, .stopping⟩
  · exact ⟨_, _, rfl, .closing⟩
  · split
    · exact ⟨_, _, rfl, .closing⟩
    · exact ⟨_, _, rfl, .forceCompact⟩
  · split
    · exact ⟨_, _, rfl, .closing⟩
    · exact ⟨_, _, rfl, .again⟩
  · exact ⟨_, _, rfl, .closing⟩

/-- The length of the transcript when the answer that is to be placed was asked for. -/
def roundOf : Turn → Option Nat
  | .running (.placing _ _ preRoundCount) _ => some preRoundCount
  | _ => none

/-- How many messages an answer is placed before. -/
def placedBefore (messages : List ChatMessage) (preRoundCount : Nat) : Nat :=
  if userQueuedDuringRound messages preRoundCount then (trailingUsers messages).length else 0

theorem trailingUserRunStart_getD (messages : List ChatMessage) :
    (trailingUserRunStart messages).getD messages.length = messages.length - (trailingUsers messages).length := by
  unfold trailingUserRunStart
  split
  · rename_i hnone
    rw [hnone, List.length_nil, Nat.sub_zero, Option.getD_none]
  · rfl

theorem place_messages (reply : ChatMessage) (preRoundCount : Nat) :
    (place s b reply preRoundCount).messages =
      s.messages.insertIdx (s.messages.length - placedBefore s.messages preRoundCount) reply := by
  unfold place placedBefore
  split
  · dsimp only
    rw [trailingUserRunStart_getD]
  · rw [Nat.sub_zero, List.insertIdx_length_self]

theorem place_effect (reply : ChatMessage) (preRoundCount : Nat) :
    ∃ turn, place s b reply preRoundCount = { s with
      messages := s.messages.insertIdx (s.messages.length - placedBefore s.messages preRoundCount) reply
      turn } ∧
    (userQueuedDuringRound s.messages preRoundCount = true ∧ turn = .running .top { b with round := 0 } ∨
      userQueuedDuringRound s.messages preRoundCount = false ∧ turn = .idle) := by
  rw [← place_messages s b]
  unfold place
  split
  · rename_i hqueued
    exact ⟨_, rfl, .inl ⟨hqueued, rfl⟩⟩
  · rename_i hqueued
    exact ⟨_, rfl, .inr ⟨Bool.eq_false_of_not_eq_true hqueued, rfl⟩⟩

end Effects

/-- A claim that has not started its loop has one holder among the sends. -/
def Held (s : State) : Prop := s.unlogged.countP (·.starts) = if s.turn = .claimed false then 1 else 0

theorem claimed_of_starts {s : State} (h : Held s) {p : Sending} (hp : p ∈ s.unlogged) (hstarts : p.starts = true) :
    s.turn = .claimed false := by
  by_contra hnot
  rw [Held, if_neg hnot, List.countP_eq_zero] at h
  exact h p hp hstarts

theorem held_push {s : State} (h : Held s) (m : ChatMessage) : Held (s.push m) := by
  unfold Held at h ⊢
  unfold State.push
  split
  · rename_i hidle
    rw [hidle, if_neg (by decide)] at h
    simp [h]
  · simpa using h

theorem held_logSend {s : State} (h : Held s) {k : Nat} {p : Sending} (hk : s.unlogged[k]? = some p)
    (e : SessionEvent) : Held { s.append e with
      unlogged := s.unlogged.eraseIdx k
      turn := if p.starts then .claimed true else s.turn } := by
  have hcount := (List.getElem_cons_eraseIdx_perm (List.getElem?_eq_some_iff.mp hk).1).countP_eq (·.starts)
  rw [List.countP_cons, (List.getElem?_eq_some_iff.mp hk).2, h] at hcount
  unfold Held
  dsimp only
  cases hstarts : p.starts with
  | false =>
    simp only [hstarts, Bool.false_eq_true, if_false, Nat.add_zero] at hcount ⊢
    exact hcount
  | true =>
    simp only [hstarts, if_true] at hcount ⊢
    rw [if_neg (by decide)]
    split at hcount <;> omega

/-- How the turn goes on, apart from claims. -/
inductive Moves : Turn → Turn → Prop
  | stays {turn} : Moves turn turn
  | starts {pc b} : Moves (.claimed true) (.running pc b)
  | goesOn {pc pc' b b'} : Moves (.running pc b) (.running pc' b')
  | ends {pc b} : Moves (.running pc b) .idle

/-- A step pushes or logs the message of a send, or leaves the sends alone. -/
theorem step_turn {s t : State} {a : Action} (hstep : Step s a t) :
    (∃ (n : Nat) (m : ChatMessage), isUser m = true ∧ t = { s with continues := n }.push m) ∨
    (∃ k p e, s.unlogged[k]? = some p ∧ t = { s.append e with
      unlogged := s.unlogged.eraseIdx k
      turn := if p.starts then .claimed true else s.turn }) ∨
    (t.unlogged = s.unlogged ∧ Moves s.turn t.turn) := by
  have hgoes {pc pc' : Pc} {b b' : Budget} (hs : s.turn = .running pc b) (ht : t.turn = .running pc' b') :
      Moves s.turn t.turn := by
    rw [hs, ht]
    exact .goesOn
  have hends {pc : Pc} {b : Budget} (hs : s.turn = .running pc b) (ht : t.turn = .idle) : Moves s.turn t.turn := by
    rw [hs, ht]
    exact .ends
  cases hstep with
  | send => exact .inl ⟨s.continues, _, rfl, rfl⟩
  | autocontinue _ _ => exact .inl ⟨_, _, rfl, rfl⟩
  | logSend hk => exact .inr (.inl ⟨_, _, _, hk, rfl⟩)
  | spawn hturn =>
    refine .inr (.inr ⟨rfl, ?_⟩)
    rw [hturn]
    exact .starts
  | @withdraw c summary ts hc =>
    obtain ⟨turn, n, heq, rfl | ⟨forced, b, hturn, rfl⟩⟩ := withdraw_effect s c
    · rw [heq]
      exact .inr (.inr ⟨rfl, .stays⟩)
    · exact .inr (.inr ⟨by rw [heq], hgoes hturn (by rw [heq])⟩)
  | @replace c summary ts hc hsummary hlen =>
    obtain ⟨turn, n, heq, rfl | ⟨forced, b, hturn, rfl⟩⟩ := replace_effect s c (String.ofList (trim summary.toList)) ts
    · rw [heq]
      exact .inr (.inr ⟨rfl, .stays⟩)
    · exact .inr (.inr ⟨by rw [heq]; rfl, hgoes hturn (by rw [heq])⟩)
  | @reply request pre b final ts hturn =>
    obtain ⟨total, records, pc, b', heq, -⟩ := takeReply_effect s b pre final ts
    exact .inr (.inr ⟨by rw [heq], hgoes hturn (by rw [heq])⟩)
  | @fail request pre b e hturn =>
    obtain ⟨pc, b', heq, -⟩ := takeFailure_effect s b e
    exact .inr (.inr ⟨by rw [heq]; rfl, hgoes hturn (by rw [heq]; rfl)⟩)
  | @place reply finishReason pre b hturn htools =>
    obtain ⟨turn, heq, ⟨-, rfl⟩ | ⟨-, rfl⟩⟩ := place_effect s b reply pre
    · exact .inr (.inr ⟨by rw [heq], hgoes hturn (by rw [heq])⟩)
    · exact .inr (.inr ⟨by rw [heq], hends hturn (by rw [heq])⟩)
  | @pushNotice note atOnce b hturn =>
    cases atOnce with
    | false => exact .inr (.inr ⟨rfl, hgoes hturn rfl⟩)
    | true => exact .inr (.inr ⟨rfl, hends hturn rfl⟩)
  | compact _ => exact .inr (.inr ⟨rfl, .stays⟩)
  | compactNot => exact .inr (.inr ⟨rfl, .stays⟩)
  | mend _ _ => exact .inr (.inr ⟨rfl, .stays⟩)
  | autocontinueNot _ => exact .inr (.inr ⟨rfl, .stays⟩)
  | note _ _ => exact .inr (.inr ⟨rfl, .stays⟩)
  | roundLimit hturn _ => exact .inr (.inr ⟨rfl, hends hturn rfl⟩)
  | startRound hturn _ => exact .inr (.inr ⟨rfl, hgoes hturn rfl⟩)
  | autoCompact hturn _ => exact .inr (.inr ⟨rfl, hgoes hturn rfl⟩)
  | autoCompactNot hturn => exact .inr (.inr ⟨rfl, hgoes hturn rfl⟩)
  | forceCompact hturn _ => exact .inr (.inr ⟨rfl, hgoes hturn rfl⟩)
  | forceCompactNot hturn => exact .inr (.inr ⟨rfl, hgoes hturn rfl⟩)
  | mendOwn hturn _ => exact .inr (.inr ⟨rfl, hgoes hturn rfl⟩)
  | snapshot hturn => exact .inr (.inr ⟨rfl, hgoes hturn rfl⟩)
  | logReply hturn => exact .inr (.inr ⟨rfl, hgoes hturn rfl⟩)
  | runTools hturn _ _ => exact .inr (.inr ⟨rfl, hgoes hturn rfl⟩)
  | recorded hturn => exact .inr (.inr ⟨rfl, hgoes hturn rfl⟩)
  | record hturn => exact .inr (.inr ⟨rfl, hgoes hturn rfl⟩)
  | logNotice hturn => exact .inr (.inr ⟨rfl, hgoes hturn rfl⟩)
  | finish hturn => exact .inr (.inr ⟨rfl, hends hturn rfl⟩)

theorem held_moves {s t : State} (h : Held s) (hunlogged : t.unlogged = s.unlogged) (hmoves : Moves s.turn t.turn) :
    Held t := by
  unfold Held at h ⊢
  rw [hunlogged, h]
  generalize s.turn = turn at hmoves
  generalize t.turn = turn' at hmoves
  cases hmoves with
  | stays => rfl
  | _ => simp

theorem held_step {s t : State} {a : Action} (h : Held s) (hstep : Step s a t) : Held t := by
  rcases step_turn hstep with ⟨n, m, -, rfl⟩ | ⟨k, p, e, hk, rfl⟩ | ⟨hunlogged, hmoves⟩
  · exact held_push (s := { s with continues := n }) h m
  · exact held_logSend h hk e
  · exact held_moves h hunlogged hmoves

/-- The gate of the turn, with one handle for the loop. -/
def gateOf : Turn → Gate
  | .idle => .new
  | .claimed _ => ⟨none, true⟩
  | .running _ _ => ⟨some 0, false⟩

/-- The turn changes as its gate does: by a claim, by the start of a loop, or by its end. -/
theorem gate_step {s t : State} {a : Action} (h : Held s) (hstep : Step s a t) :
    gateOf t.turn = gateOf s.turn ∨ (gateOf s.turn).claim = (true, gateOf t.turn) ∨
    (s.turn = .claimed true ∧ gateOf t.turn = (gateOf s.turn).start 0) ∨
    (gateOf s.turn).handle = some 0 ∧ gateOf t.turn = (gateOf s.turn).finish := by
  rcases step_turn hstep with ⟨n, m, -, rfl⟩ | ⟨k, p, e, hk, rfl⟩ | ⟨-, hmoves⟩
  · unfold State.push
    split
    · rename_i hidle
      have hidle' : s.turn = .idle := hidle
      rw [hidle']
      exact .inr (.inl rfl)
    · exact .inl rfl
  · cases hstarts : p.starts with
    | false => exact .inl rfl
    | true =>
      rw [claimed_of_starts h (List.mem_of_getElem? hk) hstarts]
      exact .inl rfl
  · generalize s.turn = turn at hmoves
    generalize t.turn = turn' at hmoves
    cases hmoves with
    | stays => exact .inl rfl
    | starts => exact .inr (.inr (.inl ⟨rfl, rfl⟩))
    | goesOn => exact .inl rfl
    | ends => exact .inr (.inr (.inr ⟨rfl, rfl⟩))

end FerrisScope.ChatTurns
