import FerrisScope.JsonValue

/-!
# Messages of a chat

A message as every provider, the turn loop and the session log share it. An assistant message
may call tools; a tool message carries the result of one call and names it by its id. Numbers in
JSON values are kept as the parser reads them, floating-point values by their bits.
-/

namespace FerrisScope.ChatMessages

inductive Number where
  | posInt (n : UInt64)
  | negInt (n : Int64)
  | float (bits : UInt64)
  deriving DecidableEq

abbrev Value := Json Number

inductive MessageRole where
  | system
  | user
  | assistant
  | tool
  deriving DecidableEq, Repr

structure ToolCall where
  id : String
  name : String
  arguments : String
  thoughtSignature : Option String
  deriving DecidableEq, Repr

structure ImageAttachment where
  mime : String
  data : String
  deriving DecidableEq, Repr

structure ChatMessage where
  role : MessageRole := .user
  content : String := ""
  toolCalls : List ToolCall := []
  toolCallId : Option String := none
  name : Option String := none
  reasoningContent : Option String := none
  thinkingBlocks : List Value := []
  images : List ImageAttachment := []
  deriving DecidableEq

/-- `serde_json::from_str` -/
structure Parser where
  fromStr : String → Option Value

def droppedImagesNote (text : String) (count : ℕ) : String :=
  let plural := if count = 1 then "image" else "images"
  let note := "[" ++ toString count ++ " " ++ plural ++
    " attached but omitted: the selected model does not support image input.]"
  if text = "" then note else text ++ "\n\n" ++ note

/-- What a provider reports while a completion streams in. -/
inductive CompletionEvent where
  | tokenDelta (text : String)
  | toolCallStart (id name : String)
  | toolCallArgsDelta (id jsonDelta : String)
  | toolCallEnd (id : String)
  deriving DecidableEq, Repr

def isTool (m : ChatMessage) : Bool := m.role = .tool

/-- An assistant message with calls to answer. -/
def callsTools (m : ChatMessage) : Bool := m.role = .assistant && !m.toolCalls.isEmpty

def callIds (m : ChatMessage) : List String := m.toolCalls.map (·.id)

/-- A tool message with the result of the call with this id. -/
def answers (id : String) (m : ChatMessage) : Bool := isTool m && m.toolCallId == some id

theorem not_isTool_of_callsTools {m : ChatMessage} (h : callsTools m = true) : isTool m = false := by
  simp only [callsTools, Bool.and_eq_true, decide_eq_true_eq] at h
  simp [isTool, h.1]

theorem not_callsTools_of_isTool {m : ChatMessage} (h : isTool m = true) : callsTools m = false := by
  by_contra hm
  rw [not_isTool_of_callsTools (Bool.of_not_eq_false hm)] at h
  cases h

theorem isTool_of_answers {id : String} {m : ChatMessage} (h : answers id m = true) : isTool m = true :=
  (Bool.and_eq_true_iff.mp h).1

theorem id_of_answers {id : String} {m : ChatMessage} (h : answers id m = true) : m.toolCallId = some id :=
  eq_of_beq (Bool.and_eq_true_iff.mp h).2

theorem answers_of_id {id : String} {m : ChatMessage} (htool : isTool m = true)
    (hid : m.toolCallId = some id) : answers id m = true := by
  rw [answers, htool, hid]
  simp

/-- A message answers one call. -/
theorem eq_of_answers {x y : String} {m : ChatMessage} (hx : answers x m = true) (hy : answers y m = true) :
    x = y :=
  Option.some.inj ((id_of_answers hx).symm.trans (id_of_answers hy))

end FerrisScope.ChatMessages
