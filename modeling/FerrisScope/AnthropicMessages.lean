import FerrisScope.ChatTurns
import FerrisScope.KeyedAccumulators

/-!
# A transcript as Anthropic messages

A stream of events fills the blocks of a message, each under its index. The argument text of a tool
call is stored as it arrived, and read again for every later request: what does not parse is sent as a
text, and what parses is sent whatever it is. The inputs are objects exactly when the stored texts
are those of objects.
-/

namespace FerrisScope.AnthropicMessages
open ChatMessages Json KeyedAccumulators
open ChatTurns (FinishReason)

/-! ## The stream -/

structure ThinkingAcc where
  redacted : Bool
  text : String
  signature : String
  data : String
  deriving DecidableEq, Repr

structure BlockEntry where
  toolId : String := ""
  toolName : String := ""
  arguments : String := ""
  started : Bool := false
  isTool : Bool := false
  thinking : Option ThinkingAcc := none
  deriving DecidableEq, Repr

structure SseState where
  blocks : List (ℕ × BlockEntry) := []
  finishReason : FinishReason := .stop
  deriving DecidableEq

def asU64 : Value → Option ℕ
  | .num (.posInt n) => some n.toNat
  | _ => none

/-- A text under a key, or else the empty one. -/
def strOf (v : Value) (k : String) : String := ((get? v k).bind asStr).getD ""

def typeOf (v : Value) : Option String := (get? v "type").bind asStr

def indexOf (v : Value) : ℕ := ((get? v "index").bind asU64).getD 0 % 2 ^ 32

def BlockEntry.start (entry : BlockEntry) (block : Value) : BlockEntry :=
  match typeOf block with
  | some "tool_use" =>
      { entry with
        isTool := true
        toolId := strOf block "id"
        toolName := strOf block "name"
        started := entry.started || (strOf block "id" ≠ "" && strOf block "name" ≠ "") }
  | some "thinking" =>
      { entry with thinking := some ⟨false, strOf block "thinking", strOf block "signature", strOf block "data"⟩ }
  | some "redacted_thinking" =>
      { entry with thinking := some ⟨true, strOf block "thinking", strOf block "signature", strOf block "data"⟩ }
  | _ => entry

def onBlockStart (s : SseState) (v : Value) : SseState × List CompletionEvent :=
  let block := (get? v "content_block").getD .null
  ({ s with blocks := modify (indexOf v) {} (·.start block) s.blocks },
    if typeOf block = some "tool_use" ∧ strOf block "id" ≠ "" ∧ strOf block "name" ≠ "" then
      [.toolCallStart (strOf block "id") (strOf block "name")]
    else [])

def BlockEntry.extend (entry : BlockEntry) (delta : Value) : BlockEntry :=
  match typeOf delta with
  | some "thinking_delta" =>
      { entry with thinking := entry.thinking.map fun acc => { acc with text := acc.text ++ strOf delta "thinking" } }
  | some "signature_delta" =>
      { entry with
        thinking := entry.thinking.map fun acc => { acc with signature := acc.signature ++ strOf delta "signature" } }
  | some "input_json_delta" => { entry with arguments := entry.arguments ++ strOf delta "partial_json" }
  | _ => entry

def onBlockDelta (s : SseState) (v : Value) : SseState × List CompletionEvent :=
  let delta := (get? v "delta").getD .null
  let entry := (s.blocks.lookup (indexOf v)).getD {}
  ({ s with blocks := modify (indexOf v) {} (·.extend delta) s.blocks },
    if typeOf delta = some "text_delta" ∧ strOf delta "text" ≠ "" then [.tokenDelta (strOf delta "text")]
    else if typeOf delta = some "input_json_delta" ∧ strOf delta "partial_json" ≠ "" ∧ entry.started = true then
      [.toolCallArgsDelta entry.toolId (strOf delta "partial_json")]
    else [])

def onBlockStop (s : SseState) (v : Value) : List CompletionEvent :=
  match s.blocks.lookup (indexOf v) with
  | some entry => if entry.isTool && entry.started then [.toolCallEnd entry.toolId] else []
  | none => []

def onMessageDelta (s : SseState) (v : Value) : SseState :=
  match ((get? v "delta").bind (get? · "stop_reason")).bind asStr with
  | some reason =>
      { s with
        finishReason :=
          if reason ∈ ["end_turn", "stop_sequence"] then .stop
          else if reason = "tool_use" then .toolCalls
          else if reason = "max_tokens" then .length
          else .other }
  | none => s

/-- The events of a stream up to its end. An error event ends it with its type and message. -/
def stream (s : SseState) : List Value → Except (String × String) (SseState × List CompletionEvent)
  | [] => .ok (s, [])
  | v :: vs =>
    let go (next : SseState × List CompletionEvent) :=
      (stream next.1 vs).map fun last => (last.1, next.2 ++ last.2)
    match strOf v "type" with
    | "content_block_start" => go (onBlockStart s v)
    | "content_block_delta" => go (onBlockDelta s v)
    | "content_block_stop" => go (s, onBlockStop s v)
    | "message_delta" => go (onMessageDelta s v, [])
    | "message_stop" => .ok (s, [])
    | "error" =>
        let error := (get? v "error").getD .null
        .error (strOf error "type", strOf error "message")
    | _ => go (s, [])

/-- A block cut short cannot be replayed and is dropped. -/
def ThinkingAcc.block (t : ThinkingAcc) : Option Value :=
  if t.redacted then
    if t.data = "" then none
    else some (.obj [("data", .str t.data), ("type", .str "redacted_thinking")])
  else if t.signature = "" then none
  else some (.obj [("signature", .str t.signature), ("thinking", .str t.text), ("type", .str "thinking")])

namespace SseState

variable (s : SseState)

def thinkingBlocks : List Value := (s.blocks.filterMap fun e => e.2.thinking).filterMap ThinkingAcc.block

def intoToolCalls : List ToolCall :=
  (s.blocks.filter fun e => e.2.isTool && e.2.toolId ≠ "" && e.2.toolName ≠ "").map fun e =>
    ⟨e.2.toolId, e.2.toolName, if e.2.arguments = "" then "\x7b\x7d" else e.2.arguments, none⟩

end SseState

/-! ## The request -/

variable (serde : Parser)

def textBlock (text : String) : Value := .obj [("text", .str text), ("type", .str "text")]

def imageBlock (img : ImageAttachment) : Value :=
  .obj [("source", .obj [("data", .str img.data), ("media_type", .str img.mime), ("type", .str "base64")]),
    ("type", .str "image")]

def userContent (m : ChatMessage) (supportsVision : Bool) : List Value :=
  if supportsVision = true ∧ m.images ≠ [] then
    (if m.content = "" then [] else [textBlock m.content]) ++ m.images.map imageBlock
  else
    [textBlock (if m.images = [] then m.content else droppedImagesNote m.content m.images.length)]

def toolUse (tc : ToolCall) : Value :=
  let input := (serde.fromStr tc.arguments).getD (.str tc.arguments)
  .obj [("id", .str tc.id), ("input", input), ("name", .str tc.name), ("type", .str "tool_use")]

/-- What stands before the calls of an assistant message. -/
def leadBlocks (m : ChatMessage) (replayThinking : Bool) : List Value :=
  (if replayThinking then m.thinkingBlocks else []) ++ if m.content = "" then [] else [textBlock m.content]

/-- The content of a message must not be empty. -/
def assistantContent (m : ChatMessage) (replayThinking : Bool) : List Value :=
  let blocks := leadBlocks m replayThinking ++ m.toolCalls.map (toolUse serde)
  if blocks.isEmpty then [textBlock ""] else blocks

def message (role : String) (content : List Value) : Value :=
  .obj [("content", .arr content), ("role", .str role)]

def toolResult (m : ChatMessage) : Value :=
  .obj [("content", .str m.content), ("tool_use_id", .str (m.toolCallId.getD "")), ("type", .str "tool_result")]

def buildMessage (supportsVision replayThinking : Bool) (m : ChatMessage) : Option Value :=
  match m.role with
  | .system => none
  | .user => some (message "user" (userContent m supportsVision))
  | .assistant => some (message "assistant" (assistantContent serde m replayThinking))
  | .tool => some (message "user" [toolResult m])

def buildMessages (messages : List ChatMessage) (supportsVision replayThinking : Bool) : String × List Value :=
  ("\n\n".intercalate
      ((messages.filter fun m => m.role = .system && m.content ≠ "").map (·.content)),
    messages.filterMap (buildMessage serde supportsVision replayThinking))

/-! ## Inputs of tools -/

def contentOf (message : Value) : List Value :=
  match get? message "content" with
  | some (.arr blocks) => blocks
  | _ => []

/-- Every tool block has an object as its input. -/
def ObjectInputs (messages : List Value) : Prop :=
  ∀ message ∈ messages, ∀ block ∈ contentOf message, typeOf block = some "tool_use" →
    ∃ o, get? block "input" = some (.obj o)

/-- The thinking of a message is what a stream left. -/
def Held (m : ChatMessage) : Prop :=
  ∃ values s events, stream {} values = .ok (s, events) ∧ m.thinkingBlocks = s.thinkingBlocks

variable {serde : Parser}

@[simp] theorem typeOf_textBlock (text : String) : typeOf (textBlock text) = some "text" := rfl

@[simp] theorem typeOf_imageBlock (img : ImageAttachment) : typeOf (imageBlock img) = some "image" := rfl

@[simp] theorem typeOf_toolResult (m : ChatMessage) : typeOf (toolResult m) = some "tool_result" := rfl

theorem typeOf_thinkingBlock {t : ThinkingAcc} {block : Value} (h : t.block = some block) :
    typeOf block = some "thinking" ∨ typeOf block = some "redacted_thinking" := by
  rw [ThinkingAcc.block] at h
  split_ifs at h with hredacted
  · cases h
    exact .inr rfl
  · cases h
    exact .inl rfl

theorem typeOf_thinkingBlocks {s : SseState} {block : Value} (h : block ∈ s.thinkingBlocks) :
    typeOf block ≠ some "tool_use" := by
  obtain ⟨t, -, ht⟩ := List.mem_filterMap.mp h
  rcases typeOf_thinkingBlock ht with htype | htype
  · rw [htype]
    decide
  · rw [htype]
    decide

theorem typeOf_content {text : String} {block : Value} (h : block ∈ if text = "" then [] else [textBlock text]) :
    typeOf block = some "text" := by
  split_ifs at h
  · cases h
  · rw [List.mem_singleton.mp h, typeOf_textBlock]

theorem typeOf_userContent {m : ChatMessage} {vision : Bool} {block : Value} (h : block ∈ userContent m vision) :
    typeOf block ≠ some "tool_use" := by
  rw [userContent] at h
  by_cases hvision : vision = true ∧ m.images ≠ []
  · rw [if_pos hvision] at h
    rcases List.mem_append.mp h with h | h
    · rw [typeOf_content h]
      decide
    · obtain ⟨img, -, rfl⟩ := List.mem_map.mp h
      rw [typeOf_imageBlock]
      decide
  · rw [if_neg hvision] at h
    rw [List.mem_singleton.mp h, typeOf_textBlock]
    decide

theorem typeOf_toolUse (tc : ToolCall) : typeOf (toolUse serde tc) = some "tool_use" := rfl

theorem input_toolUse (tc : ToolCall) {o : Fields Number} :
    get? (toolUse serde tc) "input" = some (.obj o) ↔ serde.fromStr tc.arguments = some (.obj o) := by
  have hinput : get? (toolUse serde tc) "input" =
      some ((serde.fromStr tc.arguments).getD (.str tc.arguments)) := rfl
  rw [hinput]
  cases serde.fromStr tc.arguments <;> simp

/-- The tool blocks of an assistant message are those of its calls. -/
theorem tool_mem_assistantContent {m : ChatMessage} (hheld : Held m) (replay : Bool) {block : Value}
    (htype : typeOf block = some "tool_use") :
    block ∈ assistantContent serde m replay ↔ ∃ tc ∈ m.toolCalls, toolUse serde tc = block := by
  have hquiet : block ∉ leadBlocks m replay := by
    intro hb
    rcases List.mem_append.mp hb with hb | hb
    · obtain ⟨values, s, events, -, hblocks⟩ := hheld
      split_ifs at hb
      · rw [hblocks] at hb
        exact typeOf_thinkingBlocks hb htype
      · cases hb
    · rw [typeOf_content hb] at htype
      exact absurd htype (by decide)
  rw [assistantContent]
  by_cases hnil : (leadBlocks m replay ++ m.toolCalls.map (toolUse serde)).isEmpty = true
  · rw [if_pos hnil]
    rw [List.isEmpty_iff, List.append_eq_nil_iff, List.map_eq_nil_iff] at hnil
    rw [hnil.2, List.mem_singleton]
    constructor
    · rintro rfl
      exact absurd htype (by decide)
    · rintro ⟨tc, htc, -⟩
      cases htc
  · rw [if_neg hnil, List.mem_append, List.mem_map]
    exact or_iff_right hquiet

/-- Tool blocks are sent for the calls of assistant messages alone. -/
theorem tool_mem_sent {m : ChatMessage} (hheld : Held m) {supportsVision replayThinking : Bool} {block : Value}
    (htype : typeOf block = some "tool_use") :
    (∃ sent, buildMessage serde supportsVision replayThinking m = some sent ∧ block ∈ contentOf sent) ↔
      m.role = .assistant ∧ ∃ tc ∈ m.toolCalls, toolUse serde tc = block := by
  rw [buildMessage]
  cases m.role with
  | system => simp
  | user =>
    simp only [reduceCtorEq, false_and, iff_false]
    rintro ⟨sent, hsent, hblock⟩
    cases hsent
    exact absurd htype (typeOf_userContent hblock)
  | assistant =>
    rw [← tool_mem_assistantContent hheld replayThinking htype]
    constructor
    · rintro ⟨sent, hsent, hblock⟩
      cases hsent
      exact ⟨rfl, hblock⟩
    · rintro ⟨-, hblock⟩
      exact ⟨_, rfl, hblock⟩
  | tool =>
    simp only [reduceCtorEq, false_and, iff_false]
    rintro ⟨sent, hsent, hblock⟩
    cases hsent
    rw [List.mem_singleton.mp hblock, typeOf_toolResult] at htype
    exact absurd htype (by decide)

/-- The inputs are objects exactly when the stored texts are those of objects. -/
theorem objectInputs_iff (serde : Parser) {messages : List ChatMessage} (hheld : ∀ m ∈ messages, Held m)
    (supportsVision replayThinking : Bool) :
    ObjectInputs (buildMessages serde messages supportsVision replayThinking).2 ↔
      ∀ m ∈ messages, m.role = .assistant → ∀ tc ∈ m.toolCalls, ∃ o, serde.fromStr tc.arguments = some (.obj o) := by
  constructor
  · intro h m hm hrole tc htc
    obtain ⟨sent, hsent, hblock⟩ := (tool_mem_sent (hheld m hm) (typeOf_toolUse tc)).mpr ⟨hrole, tc, htc, rfl⟩
    have hmessage : sent ∈ (buildMessages serde messages supportsVision replayThinking).2 :=
      List.mem_filterMap.mpr ⟨m, hm, hsent⟩
    obtain ⟨o, ho⟩ := h sent hmessage _ hblock (typeOf_toolUse tc)
    exact ⟨o, (input_toolUse tc).mp ho⟩
  · intro h sent hsent block hblock htype
    obtain ⟨m, hm, hbuild⟩ := List.mem_filterMap.mp hsent
    obtain ⟨hrole, tc, htc, rfl⟩ := (tool_mem_sent (hheld m hm) htype).mp ⟨sent, hbuild, hblock⟩
    obtain ⟨o, ho⟩ := h m hm hrole tc htc
    exact ⟨o, (input_toolUse tc).mpr ho⟩

/-- A chat in which a stream without thinking answered with one call. -/
def calling (arguments : String) : List ChatMessage :=
  [{ role := .user, content := "which pods?" },
    { role := .assistant, toolCalls := [⟨"toolu_1", "fs_pods_list", arguments, none⟩] },
    { role := .tool, content := "done", toolCallId := some "toolu_1" }]

/-- A parser that knows the empty object alone. -/
def emptyObject : Parser := ⟨fun s => if s = "\x7b\x7d" then some (.obj []) else none⟩

theorem held_calling (arguments : String) : ∀ m ∈ calling arguments, Held m := by
  intro m hm
  refine ⟨[], {}, [], rfl, ?_⟩
  simp only [calling, List.mem_cons, List.not_mem_nil, or_false] at hm
  rcases hm with rfl | rfl | rfl <;> rfl

theorem objectInputs_iff_calling :
    ObjectInputs (buildMessages emptyObject (calling "\x7b\x7d") true true).2 ↔
      ∀ m ∈ calling "\x7b\x7d", m.role = .assistant → ∀ tc ∈ m.toolCalls, ∃ o,
        emptyObject.fromStr tc.arguments = some (.obj o) :=
  objectInputs_iff emptyObject (held_calling _) true true

/-- The output limit is reached in the middle of the arguments. -/
def cutOff : List Value :=
  [.obj [("content_block", .obj [("id", .str "toolu_1"), ("name", .str "fs_pods_list"), ("type", .str "tool_use")]),
      ("index", .num (.posInt 0)), ("type", .str "content_block_start")],
    .obj [("delta", .obj [("partial_json", .str "\x7b\"namespace\": \"we"), ("type", .str "input_json_delta")]),
      ("index", .num (.posInt 0)), ("type", .str "content_block_delta")],
    .obj [("delta", .obj [("stop_reason", .str "max_tokens")]), ("type", .str "message_delta")],
    .obj [("type", .str "message_stop")]]

/-- Every text but the empty one is what some stream leaves as the arguments of a call. -/
theorem exists_stream {id name arguments : String} (hid : id ≠ "") (hname : name ≠ "") (h : arguments ≠ "") :
    ∃ values s events, stream {} values = .ok (s, events) ∧ s.intoToolCalls = [⟨id, name, arguments, none⟩] := by
  let block : Value := .obj [("id", .str id), ("name", .str name), ("type", .str "tool_use")]
  let delta : Value := .obj [("partial_json", .str arguments), ("type", .str "input_json_delta")]
  refine ⟨[.obj [("content_block", block), ("type", .str "content_block_start")],
    .obj [("delta", delta), ("type", .str "content_block_delta")]], _, _, rfl, ?_⟩
  have hblocks : [(0, ((({} : BlockEntry).start block).extend delta))] =
      [(0, { toolId := id, toolName := name, arguments := arguments, isTool := true, started := true })] := by
    simp [BlockEntry.start, BlockEntry.extend, block, delta, typeOf, strOf, get?, find, asStr, hid, hname]
  change SseState.intoToolCalls { blocks := [(0, ((({} : BlockEntry).start block).extend delta))] } = _
  rw [hblocks]
  simp [SseState.intoToolCalls, hid, hname, h]

/-- The message that is stored when the stream has ended. -/
def stored (content : String) (s : SseState) : ChatMessage where
  role := .assistant
  content := content
  toolCalls := s.intoToolCalls
  thinkingBlocks := s.thinkingBlocks

theorem cutOff_input_is_text : ∃ s events, stream {} cutOff = .ok (s, events) ∧ s.finishReason = .length ∧
    ¬ ObjectInputs (buildMessages emptyObject [{ role := .user, content := "which pods?" }, stored "" s,
      { role := .tool, content := "invalid arguments", toolCallId := some "toolu_1" }] true true).2 := by
  refine ⟨_, _, rfl, rfl, fun h => ?_⟩
  obtain ⟨o, ho⟩ := h _ (List.mem_cons_of_mem _ List.mem_cons_self) _ List.mem_cons_self rfl
  have hinput : (some (.str "\x7b\"namespace\": \"we") : Option Value) = some (.obj o) := ho
  cases hinput

end FerrisScope.AnthropicMessages
