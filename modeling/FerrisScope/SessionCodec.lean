import FerrisScope.DerivedCodecs
import FerrisScope.SessionEvents
import Mathlib.Tactic.Common

/-!
# The JSON form of session events

Each event is one object, told apart by its `kind`. Fields that have their default are left out
and read back as that. The exception is the sentinel: a cleared field is written as `null`, which
reads back as if it had not been there, and so does a temperature that is not a finite number and a
provider option that is itself `null`. All other events come back as they were. The text of a
JSON value and of a floating-point number is a parameter.
-/

namespace FerrisScope.SessionCodec
open Json ChatMessages SessionEvents DerivedCodecs

/-- How single-precision values are written as numbers and read from them. -/
structure Floats where
  toNumber : UInt32 → Number
  ofNumber : Number → UInt32

def isFinite (bits : UInt32) : Bool := (bits >>> 23) &&& 0xFF != 0xFF

/-- A finite value comes back. -/
def Floats.Faithful (F : Floats) : Prop := ∀ x, isFinite x = true → F.ofNumber (F.toNumber x) = x

def int64 : Shape Number Int64 where
  write t := .num (if 0 ≤ t then .posInt t.toUInt64 else .negInt t)
  read
    | .num (.posInt n) => if n ≤ 0x7FFFFFFFFFFFFFFF then some n.toInt64 else none
    | .num (.negInt n) => some n
    | _ => none

def uint32 : Shape Number UInt32 where
  write n := .num (.posInt n.toUInt64)
  read
    | .num (.posInt n) => if n ≤ 0xFFFFFFFF then some n.toUInt32 else none
    | _ => none

def float32 (F : Floats) : Shape Number UInt32 where
  write x := if isFinite x then .num (F.toNumber x) else .null
  read
    | .num n => some (F.ofNumber n)
    | _ => none

def roleName : MessageRole → String
  | .system => "system"
  | .user => "user"
  | .assistant => "assistant"
  | .tool => "tool"

def role : Shape Number MessageRole := enumeration roleName [.system, .user, .assistant, .tool]

def decisionName : ApprovalDecision → String
  | .approved => "approved"
  | .denied => "denied"
  | .approvedAlways => "approved_always"

def decision : Shape Number ApprovalDecision := enumeration decisionName [.approved, .denied, .approvedAlways]

def modeName : ApprovalMode → String
  | .approvePerWrite => "approve_per_write"
  | .allowAllWrites => "allow_all_writes"

def mode : Shape Number ApprovalMode := enumeration modeName [.approvePerWrite, .allowAllWrites]

def toolCallEntries (c : ToolCall) : Fields Number :=
  [("id", .str c.id), ("name", .str c.name), ("arguments", .str c.arguments)] ++
    entryIfSome string "thought_signature" c.thoughtSignature

def readToolCall (fs : Fields Number) : Option ToolCall := do
  let id ← required string "id" fs
  let name ← required string "name" fs
  let arguments ← required string "arguments" fs
  let thoughtSignature ← orDefault (option string) "thought_signature" none fs
  return ⟨id, name, arguments, thoughtSignature⟩

def toolCall : Shape Number ToolCall := record toolCallEntries readToolCall

def imageEntries (i : ImageAttachment) : Fields Number := [("mime", .str i.mime), ("data", .str i.data)]

def readImage (fs : Fields Number) : Option ImageAttachment := do
  let mime ← required string "mime" fs
  let data ← required string "data" fs
  return ⟨mime, data⟩

def imageAttachment : Shape Number ImageAttachment := record imageEntries readImage

def messageEntries (m : ChatMessage) : Fields Number :=
  [("role", role.write m.role)] ++ entryUnless (m.content = "") "content" (.str m.content) ++
    entryIfAny toolCall "tool_calls" m.toolCalls ++ entryIfSome string "tool_call_id" m.toolCallId ++
    entryIfSome string "name" m.name ++ entryIfSome string "reasoning_content" m.reasoningContent ++
    entryIfAny verbatim "thinking_blocks" m.thinkingBlocks ++ entryIfAny imageAttachment "images" m.images

def readChatMessage (fs : Fields Number) : Option ChatMessage := do
  let role ← required role "role" fs
  let content ← orDefault string "content" "" fs
  let toolCalls ← orDefault (list toolCall) "tool_calls" [] fs
  let toolCallId ← orDefault (option string) "tool_call_id" none fs
  let name ← orDefault (option string) "name" none fs
  let reasoningContent ← orDefault (option string) "reasoning_content" none fs
  let thinkingBlocks ← orDefault (list verbatim) "thinking_blocks" [] fs
  let images ← orDefault (list imageAttachment) "images" [] fs
  return { role, content, toolCalls, toolCallId, name, reasoningContent, thinkingBlocks, images }

def chatMessage : Shape Number ChatMessage := record messageEntries readChatMessage

def updateEntries (F : Floats) (u : SessionUpdate) : Fields Number :=
  entryIfSome string "title" u.title ++ entryIfSome string "model" u.model ++
    entryIfSome mode "approval_mode" u.approvalMode ++ entryIfSome (option (float32 F)) "temperature" u.temperature ++
    entryIfSome (option uint32) "max_tokens" u.maxTokens ++
    entryIfSome (option verbatim) "provider_options" u.providerOptions ++
    entryIfSome (option string) "active_cluster_id" u.activeClusterId

def readUpdate (F : Floats) (fs : Fields Number) : Option SessionUpdate := do
  let title ← orDefault (option string) "title" none fs
  let model ← orDefault (option string) "model" none fs
  let approvalMode ← orDefault (option mode) "approval_mode" none fs
  let temperature ← orDefault (option (option (float32 F))) "temperature" none fs
  let maxTokens ← orDefault (option (option uint32)) "max_tokens" none fs
  let providerOptions ← orDefault (option (option verbatim)) "provider_options" none fs
  let activeClusterId ← orDefault (option (option string)) "active_cluster_id" none fs
  return { title, model, approvalMode, temperature, maxTokens, providerOptions, activeClusterId }

def sessionUpdate (F : Floats) : Shape Number SessionUpdate := record (updateEntries F) (readUpdate F)

/-- The entries of an event, the discriminator first. -/
def entries (F : Floats) : SessionEvent → Fields Number
  | .message m ts => [("kind", .str "message"), ("message", chatMessage.write m), ("ts", int64.write ts)]
  | .approval id d ts =>
    [("kind", .str "approval"), ("tool_call_id", .str id), ("decision", decision.write d), ("ts", int64.write ts)]
  | .sessionUpdate u ts =>
    [("kind", .str "session_update"), ("update", (sessionUpdate F).write u), ("ts", int64.write ts)]
  | .toolResult call result error ts =>
    ("kind", .str "tool_result") :: ("call", toolCall.write call) :: ("result", .str result) ::
      (entryIfSome string "error" error ++ [("ts", int64.write ts)])
  | .usage prompt completion total ts =>
    [("kind", .str "usage"), ("prompt_tokens", uint32.write prompt), ("completion_tokens", uint32.write completion),
      ("total_tokens", uint32.write total), ("ts", int64.write ts)]
  | .compaction n tokens summary tail ts =>
    ("kind", .str "compaction") :: ("head_message_count", uint32.write n) :: ("tokens_before", uint32.write tokens) ::
      ("summary", .str summary) :: (entryIfAny chatMessage "tail" tail ++ [("ts", int64.write ts)])

def readMessage (fs : Fields Number) : Option SessionEvent := do
  let message ← required chatMessage "message" fs
  let ts ← required int64 "ts" fs
  return .message message ts

def readApproval (fs : Fields Number) : Option SessionEvent := do
  let toolCallId ← required string "tool_call_id" fs
  let decision ← required decision "decision" fs
  let ts ← required int64 "ts" fs
  return .approval toolCallId decision ts

def readSessionUpdate (F : Floats) (fs : Fields Number) : Option SessionEvent := do
  let update ← required (sessionUpdate F) "update" fs
  let ts ← required int64 "ts" fs
  return .sessionUpdate update ts

def readToolResult (fs : Fields Number) : Option SessionEvent := do
  let call ← required toolCall "call" fs
  let result ← required string "result" fs
  let error ← orDefault (option string) "error" none fs
  let ts ← required int64 "ts" fs
  return .toolResult call result error ts

def readUsage (fs : Fields Number) : Option SessionEvent := do
  let promptTokens ← required uint32 "prompt_tokens" fs
  let completionTokens ← required uint32 "completion_tokens" fs
  let totalTokens ← required uint32 "total_tokens" fs
  let ts ← required int64 "ts" fs
  return .usage promptTokens completionTokens totalTokens ts

def readCompaction (fs : Fields Number) : Option SessionEvent := do
  let headMessageCount ← required uint32 "head_message_count" fs
  let tokensBefore ← required uint32 "tokens_before" fs
  let summary ← required string "summary" fs
  let tail ← orDefault (list chatMessage) "tail" [] fs
  let ts ← required int64 "ts" fs
  return .compaction headMessageCount tokensBefore summary tail ts

def readEntries (F : Floats) (fs : Fields Number) : Option SessionEvent := do
  let kind ← required string "kind" fs
  if kind = "message" then readMessage fs
  else if kind = "approval" then readApproval fs
  else if kind = "session_update" then readSessionUpdate F fs
  else if kind = "tool_result" then readToolResult fs
  else if kind = "usage" then readUsage fs
  else if kind = "compaction" then readCompaction fs
  else none

def sessionEvent (F : Floats) : Shape Number SessionEvent := record (entries F) (readEntries F)

/-- The text of JSON values. -/
structure JsonText where
  toString : Value → List Char
  fromStr : List Char → Option Value

/-- The text of this value is read back. -/
def JsonText.ReadsBack (T : JsonText) (v : Value) : Prop := T.fromStr (T.toString v) = some v

/-- The line `append` writes for an event, without its end. -/
def encodeLine (T : JsonText) (F : Floats) (e : SessionEvent) : List Char := T.toString ((sessionEvent F).write e)

/-- A line of the log as `load` reads it. -/
def decodeLine (T : JsonText) (F : Floats) (line : List Char) : Option SessionEvent :=
  (T.fromStr line).bind (sessionEvent F).read

theorem int64_exact (t : Int64) : int64.Exact t := by
  change int64.read (.num (if 0 ≤ t then .posInt t.toUInt64 else .negInt t)) = some t
  split
  · rename_i h
    have hle : t.toUInt64 ≤ 0x7FFFFFFFFFFFFFFF := by
      have hint : t.toInt = t.toBitVec.toInt := rfl
      have hnat : t.toUInt64.toNat = t.toBitVec.toNat := rfl
      have hzero : (0 : Int64).toInt = 0 := rfl
      have hmax : (0x7FFFFFFFFFFFFFFF : UInt64).toNat = 0x7FFFFFFFFFFFFFFF := rfl
      have hlt := t.toBitVec.isLt
      rw [Int64.le_iff_toInt_le, hint, hzero, BitVec.toInt_eq_toNat_cond] at h
      rw [UInt64.le_iff_toNat_le, hnat, hmax]
      split at h <;> omega
    change (if t.toUInt64 ≤ 0x7FFFFFFFFFFFFFFF then some t.toUInt64.toInt64 else none) = some t
    rw [if_pos hle]
    rfl
  · rfl

theorem uint32_exact (n : UInt32) : uint32.Exact n := by
  change (if n.toUInt64 ≤ 0xFFFFFFFF then some n.toUInt64.toUInt32 else none) = some n
  have hle : n.toUInt64 ≤ 0xFFFFFFFF := by
    rw [UInt64.le_iff_toNat_le, UInt32.toNat_toUInt64]
    exact Nat.le_of_lt_succ n.toNat_lt
  rw [if_pos hle, UInt32.toUInt32_toUInt64]

theorem role_exact (r : MessageRole) : role.Exact r := by
  cases r <;> rfl

theorem decision_exact (d : ApprovalDecision) : decision.Exact d := by
  cases d <;> rfl

theorem mode_exact (m : ApprovalMode) : mode.Exact m := by
  cases m <;> rfl

theorem string_solid (s : String) : (string : Shape Number String).Exact s ∧ string.write s ≠ (.null : Value) :=
  ⟨string_exact s, by intro h; cases h⟩

theorem toolCall_exact (c : ToolCall) : toolCall.Exact c := by
  have hid : required string "id" (toolCallEntries c) = some c.id := rfl
  have hname : required string "name" (toolCallEntries c) = some c.name := rfl
  have harguments : required string "arguments" (toolCallEntries c) = some c.arguments := rfl
  have hsignature : orDefault (option string) "thought_signature" none (toolCallEntries c) = some c.thoughtSignature :=
    orDefault_ifSome string_solid rfl
  change readToolCall (toolCallEntries c) = some c
  rw [readToolCall, hid, hname, harguments, hsignature]
  rfl

theorem imageAttachment_exact (i : ImageAttachment) : imageAttachment.Exact i := rfl

theorem mode_solid (m : ApprovalMode) : mode.Exact m ∧ mode.write m ≠ .null :=
  ⟨mode_exact m, by intro h; cases h⟩

theorem chatMessage_exact (m : ChatMessage) : chatMessage.Exact m := by
  have hrole : required role "role" (messageEntries m) = some m.role :=
    required_of_find (by simp [messageEntries, find_cons]) (role_exact m.role)
  have hcontent : orDefault string "content" "" (messageEntries m) = some m.content :=
    orDefault_unless (string_exact m.content) of_decide_eq_true
      (by simp [messageEntries, find_cons, string])
  have hcalls : orDefault (list toolCall) "tool_calls" [] (messageEntries m) = some m.toolCalls :=
    orDefault_ifAny toolCall_exact
      (by simp [messageEntries, find_cons])
  have hcallId : orDefault (option string) "tool_call_id" none (messageEntries m) = some m.toolCallId :=
    orDefault_ifSome string_solid
      (by simp [messageEntries, find_cons])
  have hname : orDefault (option string) "name" none (messageEntries m) = some m.name :=
    orDefault_ifSome string_solid
      (by simp [messageEntries, find_cons])
  have hreasoning : orDefault (option string) "reasoning_content" none (messageEntries m) = some m.reasoningContent :=
    orDefault_ifSome string_solid
      (by simp [messageEntries, find_cons])
  have hthinking : orDefault (list verbatim) "thinking_blocks" [] (messageEntries m) = some m.thinkingBlocks :=
    orDefault_ifAny verbatim_exact
      (by simp [messageEntries, find_cons])
  have himages : orDefault (list imageAttachment) "images" [] (messageEntries m) = some m.images :=
    orDefault_ifAny imageAttachment_exact
      (by simp [messageEntries, find_cons])
  change readChatMessage (messageEntries m) = some m
  rw [readChatMessage, hrole, hcontent, hcalls, hcallId, hname, hreasoning, hthinking, himages]
  rfl

/-- What an update comes back as. -/
def updateBack (u : SessionUpdate) : SessionUpdate := { u with
  temperature := keepSet isFinite u.temperature
  maxTokens := keepSet (fun _ => true) u.maxTokens
  providerOptions := keepSet (fun v => v ≠ .null) u.providerOptions
  activeClusterId := keepSet (fun _ => true) u.activeClusterId }

section Sentinels

theorem temperature_back {F : Floats} (hF : F.Faithful) (o : Option (Option UInt32)) :
    sentinelBack (float32 F) o = some (keepSet isFinite o) := by
  refine sentinelBack_eq (fun x hx => ?_) (fun x hx => ?_) o
  · have hwrite : (float32 F).write x = .num (F.toNumber x) := if_pos hx
    rw [Shape.Exact, hwrite]
    refine ⟨?_, by intro h; cases h⟩
    change some (F.ofNumber (F.toNumber x)) = some x
    rw [hF x hx]
  · exact if_neg (by rw [hx]; exact Bool.false_ne_true)

theorem maxTokens_back (o : Option (Option UInt32)) : sentinelBack uint32 o = some (keepSet (fun _ => true) o) :=
  sentinelBack_eq (fun n _ => ⟨uint32_exact n, by intro h; cases h⟩) (fun _ h => by cases h) o

theorem providerOptions_back (o : Option (Option Value)) :
    sentinelBack verbatim o = some (keepSet (fun v => v ≠ .null) o) :=
  sentinelBack_eq (fun v h => ⟨verbatim_exact v, of_decide_eq_true h⟩) (fun v h => by simpa using h) o

theorem activeClusterId_back (o : Option (Option String)) :
    sentinelBack (string : Shape Number String) o = some (keepSet (fun _ => true) o) :=
  sentinelBack_eq (fun s _ => string_solid s) (fun _ h => by cases h) o

end Sentinels

theorem sessionUpdate_read_write {F : Floats} (hF : F.Faithful) (u : SessionUpdate) :
    (sessionUpdate F).read ((sessionUpdate F).write u) = some (updateBack u) := by
  have htitle : orDefault (option string) "title" none (updateEntries F u) = some u.title :=
    orDefault_ifSome string_solid (by simp [updateEntries])
  have hmodel : orDefault (option string) "model" none (updateEntries F u) = some u.model :=
    orDefault_ifSome string_solid (by simp [updateEntries])
  have hmode : orDefault (option mode) "approval_mode" none (updateEntries F u) = some u.approvalMode :=
    orDefault_ifSome mode_solid (by simp [updateEntries])
  have htemperature : orDefault (option (option (float32 F))) "temperature" none (updateEntries F u) =
      some (keepSet isFinite u.temperature) :=
    (orDefault_sentinel (by simp [updateEntries])).trans (temperature_back hF _)
  have htokens : orDefault (option (option uint32)) "max_tokens" none (updateEntries F u) =
      some (keepSet (fun _ => true) u.maxTokens) :=
    (orDefault_sentinel (by simp [updateEntries])).trans (maxTokens_back _)
  have hoptions : orDefault (option (option verbatim)) "provider_options" none (updateEntries F u) =
      some (keepSet (fun v => v ≠ .null) u.providerOptions) :=
    (orDefault_sentinel (by simp [updateEntries])).trans (providerOptions_back _)
  have hcluster : orDefault (option (option string)) "active_cluster_id" none (updateEntries F u) =
      some (keepSet (fun _ => true) u.activeClusterId) :=
    (orDefault_sentinel (by simp [updateEntries])).trans (activeClusterId_back _)
  change readUpdate F (updateEntries F u) = some (updateBack u)
  rw [readUpdate, htitle, hmodel, hmode, htemperature, htokens, hoptions, hcluster]
  rfl

/-- What an event comes back as. -/
def eventBack : SessionEvent → SessionEvent
  | .sessionUpdate u ts => .sessionUpdate (updateBack u) ts
  | e => e

/-- Every event is read back, an update without its clears. -/
theorem sessionEvent_read_write {F : Floats} (hF : F.Faithful) (e : SessionEvent) :
    (sessionEvent F).read ((sessionEvent F).write e) = some (eventBack e) := by
  change readEntries F (entries F e) = some (eventBack e)
  cases e with
  | message m ts =>
    have hmessage : required chatMessage "message" (entries F (.message m ts)) = some m :=
      required_of_find rfl (chatMessage_exact m)
    have hts : required int64 "ts" (entries F (.message m ts)) = some ts := required_of_find rfl (int64_exact ts)
    change readMessage (entries F (.message m ts)) = _
    rw [readMessage, hmessage, hts]
    rfl
  | approval id d ts =>
    have hdecision : required decision "decision" (entries F (.approval id d ts)) = some d :=
      required_of_find rfl (decision_exact d)
    have hts : required int64 "ts" (entries F (.approval id d ts)) = some ts := required_of_find rfl (int64_exact ts)
    change readApproval (entries F (.approval id d ts)) = _
    rw [readApproval, hdecision, hts]
    rfl
  | sessionUpdate u ts =>
    have hupdate : required (sessionUpdate F) "update" (entries F (.sessionUpdate u ts)) = some (updateBack u) :=
      sessionUpdate_read_write hF u
    have hts : required int64 "ts" (entries F (.sessionUpdate u ts)) = some ts := required_of_find rfl (int64_exact ts)
    change readSessionUpdate F (entries F (.sessionUpdate u ts)) = _
    rw [readSessionUpdate, hupdate, hts]
    rfl
  | toolResult call result error ts =>
    have hcall : required toolCall "call" (entries F (.toolResult call result error ts)) = some call :=
      required_of_find rfl (toolCall_exact call)
    have herror : orDefault (option string) "error" none (entries F (.toolResult call result error ts)) = some error :=
      orDefault_ifSome string_solid (by simp [entries, find_cons])
    have hts : required int64 "ts" (entries F (.toolResult call result error ts)) = some ts :=
      required_of_find (by simp [entries, find_cons]) (int64_exact ts)
    change readToolResult (entries F (.toolResult call result error ts)) = _
    rw [readToolResult, hcall, herror, hts]
    rfl
  | usage prompt completion total ts =>
    have hprompt : required uint32 "prompt_tokens" (entries F (.usage prompt completion total ts)) = some prompt :=
      required_of_find rfl (uint32_exact prompt)
    have hcompletion : required uint32 "completion_tokens" (entries F (.usage prompt completion total ts)) =
        some completion := required_of_find rfl (uint32_exact completion)
    have htotal : required uint32 "total_tokens" (entries F (.usage prompt completion total ts)) = some total :=
      required_of_find rfl (uint32_exact total)
    have hts : required int64 "ts" (entries F (.usage prompt completion total ts)) = some ts :=
      required_of_find rfl (int64_exact ts)
    change readUsage (entries F (.usage prompt completion total ts)) = _
    rw [readUsage, hprompt, hcompletion, htotal, hts]
    rfl
  | compaction n tokens summary tail ts =>
    have hcount : required uint32 "head_message_count" (entries F (.compaction n tokens summary tail ts)) = some n :=
      required_of_find rfl (uint32_exact n)
    have htokens : required uint32 "tokens_before" (entries F (.compaction n tokens summary tail ts)) = some tokens :=
      required_of_find rfl (uint32_exact tokens)
    have htail : orDefault (list chatMessage) "tail" [] (entries F (.compaction n tokens summary tail ts)) = some tail :=
      orDefault_ifAny chatMessage_exact (by simp [entries, find_cons])
    have hts : required int64 "ts" (entries F (.compaction n tokens summary tail ts)) = some ts :=
      required_of_find (by simp [entries, find_cons]) (int64_exact ts)
    change readCompaction (entries F (.compaction n tokens summary tail ts)) = _
    rw [readCompaction, hcount, htokens, htail, hts]
    rfl

/-- A line of the log, read back. -/
theorem decodeLine_encodeLine {T : JsonText} {F : Floats} (hF : F.Faithful) {e : SessionEvent}
    (hT : T.ReadsBack ((sessionEvent F).write e)) : decodeLine T F (encodeLine T F e) = some (eventBack e) := by
  rw [decodeLine, encodeLine, hT]
  exact sessionEvent_read_write hF e

/-- An update that clears nothing, with a finite temperature and without options that are `null`. -/
structure SetsOnly (u : SessionUpdate) : Prop where
  temperature : u.temperature ≠ some none
  finite : ∀ x, u.temperature = some (some x) → isFinite x = true
  maxTokens : u.maxTokens ≠ some none
  providerOptions : u.providerOptions ≠ some none
  present : u.providerOptions ≠ some (some .null)
  activeClusterId : u.activeClusterId ≠ some none

theorem updateBack_eq_self_iff (u : SessionUpdate) : updateBack u = u ↔ SetsOnly u := by
  constructor
  · intro h
    have htemperature := keepSet_eq_self_iff.mp (congrArg SessionUpdate.temperature h)
    have htokens := keepSet_eq_self_iff.mp (congrArg SessionUpdate.maxTokens h)
    have hoptions := keepSet_eq_self_iff.mp (congrArg SessionUpdate.providerOptions h)
    have hcluster := keepSet_eq_self_iff.mp (congrArg SessionUpdate.activeClusterId h)
    refine ⟨htemperature.1, htemperature.2, htokens.1, hoptions.1, fun hnull => ?_, hcluster.1⟩
    have := hoptions.2 .null hnull
    simp at this
  · intro h
    have hoptions : ∀ v, u.providerOptions = some (some v) → decide (v ≠ .null) = true := by
      intro v hv
      refine decide_eq_true fun hnull => h.present ?_
      rw [hv, hnull]
    rw [updateBack, keepSet_eq_self_iff.mpr ⟨h.temperature, h.finite⟩,
      keepSet_eq_self_iff.mpr ⟨h.maxTokens, fun _ _ => rfl⟩, keepSet_eq_self_iff.mpr ⟨h.providerOptions, hoptions⟩,
      keepSet_eq_self_iff.mpr ⟨h.activeClusterId, fun _ _ => rfl⟩]

/-- An event comes back from the line it was written to exactly when it is not an update that
clears a field, sets a temperature that is not finite or sets the provider options to `null`. -/
theorem event_round_trip_iff (T : JsonText) (F : Floats) (hF : F.Faithful) (e : SessionEvent)
    (hT : T.ReadsBack ((sessionEvent F).write e)) :
    decodeLine T F (encodeLine T F e) = some e ↔ ∀ u ts, e = .sessionUpdate u ts → SetsOnly u := by
  rw [decodeLine_encodeLine hF hT, Option.some.injEq]
  cases e with
  | sessionUpdate u ts =>
    rw [eventBack, SessionEvent.sessionUpdate.injEq, updateBack_eq_self_iff]
    constructor
    · rintro ⟨h, -⟩ u' ts' heq
      cases heq
      exact h
    · intro h
      exact ⟨h u ts rfl, rfl⟩
  | message m ts => exact iff_of_true rfl fun u ts' h => by cases h
  | approval id d ts => exact iff_of_true rfl fun u ts' h => by cases h
  | toolResult call result error ts => exact iff_of_true rfl fun u ts' h => by cases h
  | usage p c t ts => exact iff_of_true rfl fun u ts' h => by cases h
  | compaction n t summary tail ts => exact iff_of_true rfl fun u ts' h => by cases h

/-- The text of one value. -/
def textOf (v : Value) (text : String) : JsonText where
  toString v' := if v' = v then text.toList else []
  fromStr s := if s = text.toList then some v else none

theorem textOf_readsBack (v : Value) (text : String) : (textOf v text).ReadsBack v := by
  simp [JsonText.ReadsBack, textOf]

/-- Single-precision values by their bits. -/
def bitFloats : Floats where
  toNumber bits := .float bits.toUInt64
  ofNumber
    | .float bits => bits.toUInt32
    | _ => 0

def question : SessionEvent := .message { content := "hi" } 1

def questionText : JsonText := textOf ((sessionEvent bitFloats).write question)
  "\x7b\"kind\":\"message\",\"message\":\x7b\"role\":\"user\",\"content\":\"hi\"\x7d,\"ts\":1\x7d"

theorem question_round_trips : bitFloats.Faithful ∧ questionText.ReadsBack ((sessionEvent bitFloats).write question) ∧
    decodeLine questionText bitFloats (encodeLine questionText bitFloats question) = some question := by
  have hF : bitFloats.Faithful := fun x _ => UInt32.toUInt32_toUInt64 x
  have hT : questionText.ReadsBack ((sessionEvent bitFloats).write question) := textOf_readsBack _ _
  exact ⟨hF, hT, (event_round_trip_iff questionText bitFloats hF question hT).mpr fun u ts h => by cases h⟩

/-- The update a chat writes when the cluster it had switched to is gone. -/
def revert : SessionEvent := .sessionUpdate { activeClusterId := some none } 1

def revertText : JsonText := textOf ((sessionEvent bitFloats).write revert)
  "\x7b\"kind\":\"session_update\",\"update\":\x7b\"active_cluster_id\":null\x7d,\"ts\":1\x7d"

/-- The clear reads back as an update that changes nothing. -/
theorem revert_lost : revertText.ReadsBack ((sessionEvent bitFloats).write revert) ∧
    decodeLine revertText bitFloats (encodeLine revertText bitFloats revert) = some (.sessionUpdate {} 1) ∧
    decodeLine revertText bitFloats (encodeLine revertText bitFloats revert) ≠ some revert := by
  have hT : revertText.ReadsBack ((sessionEvent bitFloats).write revert) := textOf_readsBack _ _
  have hback : decodeLine revertText bitFloats (encodeLine revertText bitFloats revert) =
      some (.sessionUpdate {} 1) := by decide +kernel
  refine ⟨hT, hback, ?_⟩
  rw [hback]
  decide

end FerrisScope.SessionCodec
