import FerrisScope.AnthropicMessages

/-!
# A turn over the Codex wire

An answer streams in as events that name the output item they belong to, the events of several items mixed. The calls
among them are put together by their index and reported as they grow, and with the next request the finished calls are
sent back. When every call comes as the endpoint promises, what is reported, what is returned and what is sent back are
the same. A failure inside the stream is never taken for an empty answer.
-/

namespace FerrisScope.CodexTurns
open AnthropicMessages (asU64 strOf typeOf)
open ChatMessages ChatTurns Json KeyedAccumulators ProviderErrors
open HostsFile (Text)

/-! ## The stream -/

structure ToolAccum where
  callId : String := ""
  name : String := ""
  arguments : String := ""
  started : Bool := false
  deriving DecidableEq, Repr

/-- What an event says of the call it belongs to. -/
inductive Input where
  | added (callId name : String)
  | delta (text : String)
  | done
  deriving DecidableEq, Repr

/-- The id and the name are those of the latest addition. A call is reported once both are known. -/
def ToolAccum.step (entry : ToolAccum) : Input → ToolAccum × List CompletionEvent
  | .added callId name =>
    let starts := callId ≠ "" && name ≠ "" && !entry.started
    ({ entry with callId := callId, name := name, started := entry.started || starts },
      if starts then [.toolCallStart callId name] else [])
  | .delta text =>
    if text = "" then (entry, [])
    else ({ entry with arguments := entry.arguments ++ text },
      if entry.started then [.toolCallArgsDelta entry.callId text] else [])
  | .done => (entry, if entry.started then [.toolCallEnd entry.callId] else [])

def toolAccum : Machine ToolAccum Input CompletionEvent := ⟨{}, ToolAccum.step⟩

structure ResponsesState where
  toolCalls : List (ℕ × ToolAccum) := []
  finishReason : FinishReason := .stop
  usage : Option Usage := none

/-- Numbers are cut to 32 bits. -/
def outputIndex (v : Value) : ℕ := ((get? v "output_index").bind asU64).getD 0 % 2 ^ 32

namespace ResponsesState

variable (s : ResponsesState)

/-- The entry of an index, a new one if there is none. -/
def feed (idx : ℕ) (i : Input) : ResponsesState × List CompletionEvent :=
  ({ s with toolCalls := modify idx {} (fun entry => (entry.step i).1) s.toolCalls },
    (((s.toolCalls.lookup idx).getD {}).step i).2)

def onItemAdded (v : Value) : ResponsesState × List CompletionEvent :=
  let item := (get? v "item").getD .null
  if typeOf item = some "function_call" then s.feed (outputIndex v) (.added (strOf item "call_id") (strOf item "name"))
  else (s, [])

def onTextDelta (v : Value) : List CompletionEvent := if strOf v "delta" = "" then [] else [.tokenDelta (strOf v "delta")]

def onArgsDelta (v : Value) : ResponsesState × List CompletionEvent := s.feed (outputIndex v) (.delta (strOf v "delta"))

def onArgsDone (v : Value) : List CompletionEvent :=
  match s.toolCalls.lookup (outputIndex v) with
  | some entry => (entry.step .done).2
  | none => []

end ResponsesState

def u32 (n : ℕ) : UInt32 := UInt32.ofNat n

/-- A usage block. One that says nothing is passed over. -/
def reading (raw : Value) : Option Usage :=
  let input := u32 (((get? raw "input_tokens").bind asU64).getD 0)
  let output := u32 (((get? raw "output_tokens").bind asU64).getD 0)
  let total := match (get? raw "total_tokens").bind asU64 with
    | some n => u32 n
    | none => u32 (min (input.toNat + output.toNat) 0xFFFFFFFF)
  if input = 0 ∧ output = 0 ∧ total = 0 then none else some ⟨input, output, total⟩

/-- What an event says of the usage, in the order in which it is looked for. -/
def readings (v : Value) : List Usage :=
  [(get? v "response").bind (get? · "usage"), get? v "usage"].reduceOption.filterMap reading

namespace ResponsesState

variable (s : ResponsesState)

def harvestUsage (v : Value) : ResponsesState := { s with usage := (readings v).foldl (fun _ u => some u) s.usage }

def onCompleted (v : Value) : ResponsesState :=
  let response := (get? v "response").getD .null
  let s := match (get? response "status").bind asStr with
    | some reason =>
        { s with
          finishReason :=
            if s.toolCalls ≠ [] then .toolCalls
            else if reason = "completed" then .stop
            else .other }
    | none => s
  s.harvestUsage v

def intoToolCalls : List ToolCall :=
  (s.toolCalls.filter fun e => e.2.callId ≠ "" && e.2.name ≠ "").map fun e =>
    ⟨e.2.callId, e.2.name, if e.2.arguments = "" then "\x7b\x7d" else e.2.arguments, none⟩

/-- An event that does not end the stream. -/
def onEvent (v : Value) : ResponsesState × List CompletionEvent :=
  match strOf v "type" with
  | "response.output_item.added" => s.onItemAdded v
  | "response.output_text.delta" => (s, onTextDelta v)
  | "response.function_call_arguments.delta" => s.onArgsDelta v
  | "response.function_call_arguments.done" => (s, s.onArgsDone v)
  | _ => (s, [])

end ResponsesState

/-- The error object of a failure, where the drafts of the interface have put it. -/
def errorOf (v : Value) : Option Value :=
  ((get? v "response").bind (get? · "error")) <|>
    (((get? v "response").bind (get? · "status_details")).bind (get? · "error")) <|> get? v "error"

def codexStreamError (v : Value) : Option ProviderError :=
  (errorOf v).bind fun err =>
    let code := (get? err "code").bind asStr
    let message := ((get? err "message").bind asStr) <|> (get? v "message").bind asStr
    match code, message with
    | some c, some m => some (.http none (c ++ ": " ++ m).toList)
    | some c, none => some (.http none c.toList)
    | none, some m => some (.http none m.toList)
    | none, none => none

/-- What the connection yields: it breaks, or an event comes that is blank or does not parse, or one that does. -/
inductive Frame where
  | broken (e : ProviderError)
  | skipped
  | event (v : Value)

def Frame.value : Frame → Option Value
  | .event v => some v
  | _ => none

/-- What the sink is told, and the outcome. -/
def stream (s : ResponsesState) : List Frame → List CompletionEvent × Except ProviderError ResponsesState
  | [] => ([], .ok s)
  | .broken e :: _ => ([], .error e)
  | .skipped :: frames => stream s frames
  | .event v :: frames =>
    let s := s.harvestUsage v
    let goOn :=
      let next := s.onEvent v
      let rest := stream next.1 frames
      (next.2 ++ rest.1, rest.2)
    match strOf v "type" with
    | "response.completed" => ([], .ok (s.onCompleted v))
    | "response.failed" | "response.cancelled" =>
      match codexStreamError v with
      | some e => ([], .error e)
      | none => ([], .ok { s with finishReason := .other })
    | "error" =>
      match codexStreamError v with
      | some e => ([], .error e)
      | none => goOn
    | _ => goOn

def tokenOf : CompletionEvent → Option String
  | .tokenDelta text => some text
  | _ => none

/-- The text of the answer is what the sink was told. -/
def final (events : List CompletionEvent) (s : ResponsesState) : CompletionFinal where
  text := String.join (events.filterMap tokenOf)
  finishReason := s.finishReason
  toolCalls := s.intoToolCalls
  usage := s.usage

/-! ## The request -/

def inputText (text : String) : Value := .obj [("text", .str text), ("type", .str "input_text")]

def inputImage (img : ImageAttachment) : Value :=
  .obj [("image_url", .str ("data:" ++ img.mime ++ ";base64," ++ img.data)), ("type", .str "input_image")]

def userInputContent (m : ChatMessage) (supportsVision : Bool) : List Value :=
  if supportsVision = true ∧ m.images ≠ [] then
    (if m.content = "" then [] else [inputText m.content]) ++ m.images.map inputImage
  else
    [inputText (if m.images = [] then m.content else droppedImagesNote m.content m.images.length)]

def outputText (text : String) : Value :=
  .obj [("content", .arr [.obj [("text", .str text), ("type", .str "output_text")]]), ("role", .str "assistant")]

def functionCall (tc : ToolCall) : Value :=
  .obj [("arguments", .str tc.arguments), ("call_id", .str tc.id), ("name", .str tc.name), ("type", .str "function_call")]

def functionCallOutput (m : ChatMessage) : Value :=
  .obj [("call_id", .str (m.toolCallId.getD "")), ("output", .str m.content), ("type", .str "function_call_output")]

def inputItems (supportsVision : Bool) (m : ChatMessage) : List Value :=
  match m.role with
  | .system => []
  | .user => [.obj [("content", .arr (userInputContent m supportsVision)), ("role", .str "user")]]
  | .assistant => (if m.content = "" then [] else [outputText m.content]) ++ m.toolCalls.map functionCall
  | .tool => [functionCallOutput m]

/-- The instructions and the input items. -/
def buildInput (messages : List ChatMessage) (supportsVision : Bool) : String × List Value :=
  ("\n\n".intercalate ((messages.filter fun m => m.role = .system && m.content ≠ "").map (·.content)),
    messages.flatMap (inputItems supportsVision))

/-! ## Calls that come as promised -/

/-- A call of the answer. Its arguments come in pieces. -/
structure Call where
  callId : String
  name : String
  pieces : List String
  callId_ne : callId ≠ ""
  name_ne : name ≠ ""

namespace Call

variable (c : Call)

def inputs : List Input := .added c.callId c.name :: (c.pieces.map .delta ++ [.done])

def accum : ToolAccum := ⟨c.callId, c.name, String.join c.pieces, true⟩

def toolCall : ToolCall :=
  ⟨c.callId, c.name, if String.join c.pieces = "" then "\x7b\x7d" else String.join c.pieces, none⟩

def reports : List CompletionEvent :=
  .toolCallStart c.callId c.name ::
    ((c.pieces.filter (· ≠ "")).map (.toolCallArgsDelta c.callId) ++ [.toolCallEnd c.callId])

end Call

/-- What an event says of a call, and the index of the call. -/
def read (v : Value) : Option (ℕ × Input) :=
  match strOf v "type" with
  | "response.output_item.added" =>
    let item := (get? v "item").getD .null
    if typeOf item = some "function_call" then some (outputIndex v, .added (strOf item "call_id") (strOf item "name"))
    else none
  | "response.function_call_arguments.delta" => some (outputIndex v, .delta (strOf v "delta"))
  | "response.function_call_arguments.done" => some (outputIndex v, .done)
  | _ => none

def textOf (v : Value) : Option String :=
  if strOf v "type" = "response.output_text.delta" ∧ strOf v "delta" ≠ "" then some (strOf v "delta") else none

/-- The stream goes on after an event. -/
def Passes (v : Value) : Prop :=
  strOf v "type" ∉ ["response.completed", "response.failed", "response.cancelled"] ∧
    (strOf v "type" = "error" → codexStreamError v = none)

/-- Each call is added once, then its arguments come, then it is done. The calls may come mixed with each other and with
anything else. -/
structure Promised (values : List Value) (calls : List (ℕ × Call)) : Prop where
  passes : ∀ v ∈ values, Passes v
  sorted : Sorted calls
  distinct : (calls.map (·.2.callId)).Nodup
  each : ∀ k, only k (values.filterMap read) = ((calls.lookup k).map Call.inputs).getD []

def idOf : CompletionEvent → Option String
  | .tokenDelta _ => none
  | .toolCallStart id _ => some id
  | .toolCallArgsDelta id _ => some id
  | .toolCallEnd id => some id

/-- What events that do not end the stream come to. -/
def follow (s : ResponsesState) (values : List Value) : ResponsesState × List CompletionEvent :=
  values.foldl (fun a v => (((a.1.harvestUsage v).onEvent v).1, a.2 ++ ((a.1.harvestUsage v).onEvent v).2)) (s, [])

theorem follow_concat (s : ResponsesState) (values : List Value) (v : Value) : follow s (values ++ [v]) =
    ((((follow s values).1.harvestUsage v).onEvent v).1,
      (follow s values).2 ++ (((follow s values).1.harvestUsage v).onEvent v).2) := by
  rw [follow, List.foldl_append]
  rfl

theorem stream_event {v : Value} (h : Passes v) (s : ResponsesState) (frames : List Frame) :
    stream s (.event v :: frames) = (((s.harvestUsage v).onEvent v).2 ++
      (stream ((s.harvestUsage v).onEvent v).1 frames).1, (stream ((s.harvestUsage v).onEvent v).1 frames).2) := by
  obtain ⟨hend, herror⟩ := h
  simp only [List.mem_cons, List.not_mem_nil, or_false, not_or] at hend
  rw [stream]
  split
  · rename_i htype
    exact absurd htype hend.1
  · rename_i htype
    exact absurd htype hend.2.1
  · rename_i htype
    exact absurd htype hend.2.2
  · rename_i htype
    rw [herror htype]
  · rfl

/-- What comes before the end is followed, frame by frame. -/
theorem stream_append (s : ResponsesState) {frames : List Frame} (hwhole : ∀ e, Frame.broken e ∉ frames)
    (hpass : ∀ v ∈ frames.filterMap Frame.value, Passes v) (rest : List Frame) :
    stream s (frames ++ rest) = ((follow s (frames.filterMap Frame.value)).2 ++
      (stream (follow s (frames.filterMap Frame.value)).1 rest).1,
      (stream (follow s (frames.filterMap Frame.value)).1 rest).2) := by
  induction frames using List.reverseRecOn generalizing rest with
  | nil => rfl
  | append_singleton frames f ih =>
    have hwhole' : ∀ e, Frame.broken e ∉ frames := fun e he => hwhole e (List.mem_append_left _ he)
    have hpass' : ∀ v ∈ frames.filterMap Frame.value, Passes v := by
      intro v hv
      refine hpass v ?_
      rw [List.filterMap_append]
      exact List.mem_append_left _ hv
    rw [List.append_assoc, List.singleton_append, ih hwhole' hpass']
    cases f with
    | broken e => exact absurd (List.mem_append_right _ List.mem_cons_self) (hwhole e)
    | skipped =>
      have hvalues : (frames ++ [Frame.skipped]).filterMap Frame.value = frames.filterMap Frame.value := by
        rw [List.filterMap_append]
        exact List.append_nil _
      rw [hvalues, stream]
    | event v =>
      have hvalues : (frames ++ [Frame.event v]).filterMap Frame.value = frames.filterMap Frame.value ++ [v] := by
        rw [List.filterMap_append]
        rfl
      have hv : Passes v := hpass v (by rw [hvalues]; exact List.mem_append_right _ List.mem_cons_self)
      rw [hvalues, follow_concat, stream_event hv, List.append_assoc]

/-! ## What the events of the calls come to -/

theorem run_pieces (c : Call) (pieces : List String) :
    toolAccum.run (.added c.callId c.name :: pieces.map .delta) = (⟨c.callId, c.name, String.join pieces, true⟩,
      .toolCallStart c.callId c.name :: (pieces.filter (· ≠ "")).map (.toolCallArgsDelta c.callId)) := by
  induction pieces using List.reverseRecOn with
  | nil => simp [Machine.run, toolAccum, ToolAccum.step, c.callId_ne, c.name_ne]
  | append_singleton pieces p ih =>
    rw [List.map_append, List.map_singleton, ← List.cons_append, run_concat, ih]
    by_cases hp : p = ""
    · simp [toolAccum, ToolAccum.step, hp, String.join_append]
    · simp [toolAccum, ToolAccum.step, hp, String.join_append]

theorem run_inputs (c : Call) : toolAccum.run c.inputs = (c.accum, c.reports) := by
  rw [Call.inputs, ← List.cons_append, run_concat, run_pieces]
  rfl

/-- A call is done only after something else was said of it. -/
def DoneLate (inputs : List (ℕ × Input)) : Prop :=
  ∀ before k after, inputs = before ++ (k, .done) :: after → only k before ≠ []

theorem Promised.doneLate {values : List Value} {calls : List (ℕ × Call)} (h : Promised values calls) :
    DoneLate (values.filterMap read) := by
  intro before k after hsplit hnil
  have heach := h.each k
  rw [hsplit, only_append, hnil, List.nil_append] at heach
  have hhead : only k ((k, Input.done) :: after) = .done :: only k after := by simp [only]
  rw [hhead] at heach
  cases hc : calls.lookup k with
  | none =>
    rw [hc] at heach
    cases heach
  | some c =>
    rw [hc] at heach
    cases heach

theorem harvestUsage_toolCalls (s : ResponsesState) (v : Value) : (s.harvestUsage v).toolCalls = s.toolCalls := rfl

theorem foldl_last {α : Type*} (o : Option α) (xs : List α) : xs.foldl (fun _ x => some x) o = xs.getLast?.or o := by
  induction xs generalizing o with
  | nil => rfl
  | cons x xs ih =>
    rw [List.foldl_cons, ih, List.getLast?_cons]
    cases xs.getLast? <;> rfl

/-- An event that says something of a call is an input to its accumulator. -/
theorem onEvent_of_read {s : ResponsesState} (hs : Sorted s.toolCalls) {v : Value} {k : ℕ} {i : Input}
    (h : read v = some (k, i)) (hlate : i = .done → s.toolCalls.lookup k ≠ none) : s.onEvent v = s.feed k i := by
  rw [read] at h
  rw [ResponsesState.onEvent]
  split at h
  · rename_i htype
    simp only [htype, ResponsesState.onItemAdded]
    dsimp only at h
    split_ifs at h with hcall
    cases h
    rw [if_pos hcall]
  · rename_i htype
    cases h
    simp only [htype, ResponsesState.onArgsDelta]
  · rename_i htype
    cases h
    simp only [htype, ResponsesState.onArgsDone]
    cases hentry : s.toolCalls.lookup (outputIndex v) with
    | none => exact absurd hentry (hlate rfl)
    | some entry =>
      have hsame : modify (outputIndex v) {} (fun e => (ToolAccum.step e .done).1) s.toolCalls = s.toolCalls :=
        hs.modify_of_fixed hentry rfl
      rw [ResponsesState.feed, hsame, hentry]
      rfl
  · cases h

theorem textOf_of_read {v : Value} {x : ℕ × Input} (h : read v = some x) : textOf v = none := by
  rw [textOf, if_neg]
  rintro ⟨htype, -⟩
  rw [read, htype] at h
  cases h

/-- Any other event says only what it has of the text. -/
theorem onEvent_of_none {s : ResponsesState} {v : Value} (h : read v = none) :
    s.onEvent v = (s, (textOf v).toList.map .tokenDelta) := by
  rw [read] at h
  rw [ResponsesState.onEvent, textOf]
  split
  · rename_i htype
    simp only [htype] at h
    split_ifs at h with hcall
    rw [ResponsesState.onItemAdded, if_neg hcall, htype, if_neg fun ht => absurd ht.1 (by decide)]
    rfl
  · rename_i htype
    rw [ResponsesState.onTextDelta, htype]
    by_cases hdelta : strOf v "delta" = ""
    · simp [hdelta]
    · simp [hdelta]
  · rename_i htype
    simp [htype] at h
  · rename_i htype
    simp [htype] at h
  · rename_i htext _ _
    rw [if_neg fun ht => htext ht.1]
    rfl

theorem tagged_events (k : ℕ) (evs : List CompletionEvent) : (evs.map fun e => (k, e)).map Prod.snd = evs := by
  rw [List.map_map]
  exact List.map_id _

/-- Calls and text are kept apart: the entries are those of the accumulators, and so are the events that name a call. -/
theorem follow_spec {values : List Value} (h : DoneLate (values.filterMap read)) :
    (follow {} values).1.toolCalls = (toolAccum.runAll (values.filterMap read)).1 ∧
      (follow {} values).1.finishReason = .stop ∧
      (follow {} values).1.usage = (values.flatMap readings).getLast? ∧
      (follow {} values).2.filter (fun e => (idOf e).isSome) =
        (toolAccum.runAll (values.filterMap read)).2.map Prod.snd ∧
      (follow {} values).2.filterMap tokenOf = values.filterMap textOf := by
  induction values using List.reverseRecOn with
  | nil => exact ⟨rfl, rfl, rfl, rfl, rfl⟩
  | append_singleton values v ih =>
    have hinputs : (values ++ [v]).filterMap read = values.filterMap read ++ (read v).toList := by
      rw [List.filterMap_append]
      cases hv : read v <;> simp [hv]
    have htexts : (values ++ [v]).filterMap textOf = values.filterMap textOf ++ (textOf v).toList := by
      rw [List.filterMap_append]
      cases hv : textOf v <;> simp [hv]
    rw [hinputs] at h ⊢
    have hbefore : DoneLate (values.filterMap read) := fun before k after hsplit =>
      h before k (after ++ (read v).toList) (by rw [hsplit]; simp)
    obtain ⟨hcalls, hfinish, husage, hnamed, htokens⟩ := ih hbefore
    have hreadings : ((follow {} values).1.harvestUsage v).usage = ((values ++ [v]).flatMap readings).getLast? := by
      rw [ResponsesState.harvestUsage, foldl_last, husage, List.flatMap_append, List.getLast?_append]
      simp
    rw [follow_concat, htexts]
    have hsorted : Sorted ((follow {} values).1.harvestUsage v).toolCalls := by
      rw [harvestUsage_toolCalls, hcalls]
      exact sorted_runAll _ _
    cases hv : read v with
    | none =>
      rw [onEvent_of_none hv, Option.toList_none, List.append_nil]
      refine ⟨hcalls, hfinish, hreadings, ?_, ?_⟩
      · rw [List.filter_append, hnamed]
        cases textOf v <;> simp [idOf]
      · rw [List.filterMap_append, htokens]
        cases textOf v <;> simp [tokenOf]
    | some x =>
      obtain ⟨k, i⟩ := x
      have hlate : i = .done → ((follow {} values).1.harvestUsage v).toolCalls.lookup k ≠ none := by
        rintro rfl
        have hopen : only k (values.filterMap read) ≠ [] := h _ k [] (by rw [hv]; rfl)
        rw [harvestUsage_toolCalls, hcalls, lookup_runAll, if_neg hopen]
        exact Option.some_ne_none _
      rw [onEvent_of_read hsorted hv hlate, textOf_of_read hv, Option.toList_some, Option.toList_none, List.append_nil,
        runAll_concat]
      have hevents : ((((follow {} values).1.harvestUsage v).feed k i).2.filter fun e => (idOf e).isSome) =
          (((follow {} values).1.harvestUsage v).feed k i).2 ∧
          (((follow {} values).1.harvestUsage v).feed k i).2.filterMap tokenOf = [] := by
        simp only [ResponsesState.feed]
        generalize (List.lookup k ((follow {} values).1.harvestUsage v).toolCalls).getD {} = entry
        cases i with
        | added callId name =>
          rw [ToolAccum.step]
          dsimp only
          split_ifs <;> simp [idOf, tokenOf]
        | delta text =>
          rw [ToolAccum.step]
          split_ifs <;> simp [idOf, tokenOf]
        | done =>
          rw [ToolAccum.step]
          split_ifs <;> simp [idOf, tokenOf]
      refine ⟨?_, hfinish, hreadings, ?_, ?_⟩
      · rw [ResponsesState.feed, harvestUsage_toolCalls, hcalls]
        rfl
      · rw [List.filter_append, hnamed, hevents.1, Machine.feed, List.map_append, tagged_events, ← hcalls]
        rfl
      · rw [List.filterMap_append, htokens, hevents.2, List.append_nil]

theorem inputs_ne_nil (c : Call) : c.inputs ≠ [] := List.cons_ne_nil _ _

/-- The entries at the end are the calls. -/
theorem Promised.entries {values : List Value} {calls : List (ℕ × Call)} (h : Promised values calls) :
    (toolAccum.runAll (values.filterMap read)).1 = calls.map fun e => (e.1, e.2.accum) := by
  refine (sorted_runAll _ _).ext (List.pairwise_map.mpr h.sorted) fun k => ?_
  rw [lookup_runAll, lookup_map, h.each]
  cases calls.lookup k with
  | none => rfl
  | some c =>
    rw [Option.map_some, Option.getD_some, if_neg (inputs_ne_nil c), run_inputs]
    rfl

theorem Promised.reported {values : List Value} {calls : List (ℕ × Call)} (h : Promised values calls) {k : ℕ} {c : Call}
    (hc : (k, c) ∈ calls) : only k (toolAccum.runAll (values.filterMap read)).2 = c.reports := by
  rw [only_runAll, h.each, (lookup_eq_some h.sorted).mpr hc, Option.map_some, Option.getD_some, run_inputs]

theorem idOf_reports {c : Call} {e : CompletionEvent} (h : e ∈ c.reports) : idOf e = some c.callId := by
  rcases List.mem_cons.mp h with rfl | h
  · rfl
  · rcases List.mem_append.mp h with h | h
    · obtain ⟨p, -, rfl⟩ := List.mem_map.mp h
      rfl
    · rw [List.mem_singleton.mp h]
      rfl

/-- A report is of one of the calls, and carries its id. -/
theorem Promised.report_of {values : List Value} {calls : List (ℕ × Call)} (h : Promised values calls) {x : ℕ × CompletionEvent}
    (hx : x ∈ (toolAccum.runAll (values.filterMap read)).2) : ∃ c, (x.1, c) ∈ calls ∧ idOf x.2 = some c.callId := by
  have hkey := mem_keys_of_event toolAccum hx
  rw [h.entries, List.map_map] at hkey
  obtain ⟨⟨k, c⟩, hc, hk⟩ := List.mem_map.mp hkey
  have hk : k = x.1 := hk
  refine ⟨c, hk ▸ hc, idOf_reports ?_⟩
  rw [← h.reported (hk ▸ hc)]
  exact List.mem_map_of_mem (List.mem_filter.mpr ⟨hx, decide_eq_true rfl⟩)

theorem Promised.index_eq {values : List Value} {calls : List (ℕ × Call)} (h : Promised values calls) {e e' : ℕ × Call}
    (he : e ∈ calls) (he' : e' ∈ calls) (hid : e.2.callId = e'.2.callId) : e = e' :=
  List.inj_on_of_nodup_map h.distinct he he' hid

/-- The reports under the id of a call are those of the call. -/
theorem Promised.filter_reports {values : List Value} {calls : List (ℕ × Call)} (h : Promised values calls) {e : ℕ × Call}
    (he : e ∈ calls) : ((toolAccum.runAll (values.filterMap read)).2.map Prod.snd).filter
      (fun ev => idOf ev = some e.2.callId) = e.2.reports := by
  rw [← h.reported he, only, List.filter_map]
  congr 1
  apply List.filter_congr
  intro x hx
  obtain ⟨c, hc, hid⟩ := h.report_of hx
  simp only [Function.comp_apply, hid, Option.some.injEq, decide_eq_decide]
  constructor
  · intro heq
    exact congrArg Prod.fst (h.index_eq hc he heq)
  · intro hk
    have hlookup := (lookup_eq_some h.sorted).mpr hc
    rw [hk, (lookup_eq_some h.sorted).mpr he] at hlookup
    rw [Option.some.inj hlookup]

theorem intoToolCalls_calls {s : ResponsesState} {calls : List (ℕ × Call)}
    (h : s.toolCalls = calls.map fun e => (e.1, e.2.accum)) : s.intoToolCalls = calls.map fun e => e.2.toolCall := by
  rw [ResponsesState.intoToolCalls, h, List.filter_eq_self.mpr, List.map_map]
  · rfl
  · intro e he
    obtain ⟨x, -, rfl⟩ := List.mem_map.mp he
    simp [Call.accum, x.2.callId_ne, x.2.name_ne]

/-- The end of an answer leaves its calls as they are. -/
theorem onCompleted_spec (s : ResponsesState) {last : Value}
    (hstatus : ((get? last "response").bind (get? · "status")).bind asStr = some "completed") :
    (s.onCompleted last).toolCalls = s.toolCalls ∧
      (s.onCompleted last).finishReason = (if s.toolCalls = [] then .stop else .toolCalls) ∧
      (s.onCompleted last).usage = (readings last).getLast?.or s.usage := by
  have hreason : (get? ((get? last "response").getD .null) "status").bind asStr = some "completed" := by
    cases hr : get? last "response" with
    | none =>
      rw [hr] at hstatus
      cases hstatus
    | some r =>
      rw [hr] at hstatus
      exact hstatus
  refine ⟨?_, ?_, ?_⟩
  · simp only [ResponsesState.onCompleted, hreason]
    rfl
  · simp only [ResponsesState.onCompleted, hreason, ResponsesState.harvestUsage]
    by_cases hnil : s.toolCalls = []
    · simp [hnil]
    · simp [hnil]
  · simp only [ResponsesState.onCompleted, hreason, ResponsesState.harvestUsage]
    exact foldl_last _ _

def answerItems (text : String) (calls : List (ℕ × Call)) : List Value :=
  (if text = "" then [] else [outputText text]) ++ calls.map fun e => functionCall e.2.toolCall

theorem inputItems_answer {s : ResponsesState} {calls : List (ℕ × Call)} (h : s.intoToolCalls = calls.map fun e => e.2.toolCall)
    (events : List CompletionEvent) (supportsVision : Bool) :
    inputItems supportsVision (assistantMessage (final events s)) = answerItems (final events s).text calls := by
  have hcalls : (assistantMessage (final events s)).toolCalls.map functionCall =
      calls.map fun e => functionCall e.2.toolCall := by
    show s.intoToolCalls.map functionCall = _
    rw [h, List.map_map]
    rfl
  simp only [inputItems, assistantMessage] at hcalls ⊢
  rw [hcalls]
  rfl

/-- When the calls of an answer come as promised, however they are mixed, the sink is told of each call what is returned of
it, and the next request sends back the same calls in the order of their indexes. -/
theorem answer_round_trips (frames : List Frame) (hwhole : ∀ e, Frame.broken e ∉ frames) {calls : List (ℕ × Call)}
    (h : Promised (frames.filterMap Frame.value) calls) (last : Value) (hlast : strOf last "type" = "response.completed")
    (hstatus : ((get? last "response").bind (get? · "status")).bind asStr = some "completed") (more : List Frame)
    (history : List ChatMessage) (supportsVision : Bool) :
    ∃ events s, stream {} (frames ++ .event last :: more) = (events, .ok s) ∧
      s.intoToolCalls = calls.map (fun e => e.2.toolCall) ∧
      s.finishReason = (if calls = [] then .stop else .toolCalls) ∧
      s.usage = ((frames.filterMap Frame.value ++ [last]).flatMap readings).getLast? ∧
      (∀ e ∈ calls, events.filter (fun ev => idOf ev = some e.2.callId) = e.2.reports) ∧
      (∀ ev ∈ events, ∀ id, idOf ev = some id → ∃ e ∈ calls, e.2.callId = id) ∧
      (final events s).text = String.join ((frames.filterMap Frame.value).filterMap textOf) ∧
      (buildInput (history ++ [assistantMessage (final events s)]) supportsVision).2 =
        (buildInput history supportsVision).2 ++ answerItems (final events s).text calls := by
  obtain ⟨hcalls, -, husage, hnamed, htokens⟩ := follow_spec h.doneLate
  generalize hvalues : frames.filterMap Frame.value = values at *
  have hend := onCompleted_spec (((follow {} values).1).harvestUsage last) hstatus
  rw [harvestUsage_toolCalls, hcalls, h.entries] at hend
  obtain ⟨hentries, hfinish, husage'⟩ := hend
  have hreturned := intoToolCalls_calls hentries
  refine ⟨(follow {} values).2, (((follow {} values).1).harvestUsage last).onCompleted last, ?_, hreturned, ?_, ?_, ?_, ?_, ?_, ?_⟩
  · rw [stream_append {} hwhole (hvalues ▸ h.passes), hvalues, stream, hlast]
    exact congrArg (·, _) (List.append_nil _)
  · rw [hfinish]
    simp
  · rw [husage', ResponsesState.harvestUsage, foldl_last, husage, List.flatMap_append, List.getLast?_append]
    cases hr : (readings last).getLast? with
    | none => simp [hr]
    | some u => simp [hr]
  · intro e he
    rw [← h.filter_reports he, ← hnamed, List.filter_filter]
    apply List.filter_congr
    intro ev _
    cases idOf ev <;> simp
  · intro ev hev id hid
    have hmem : ev ∈ (follow {} values).2.filter fun e => (idOf e).isSome :=
      List.mem_filter.mpr ⟨hev, by rw [hid]; rfl⟩
    rw [hnamed] at hmem
    obtain ⟨x, hx, rfl⟩ := List.mem_map.mp hmem
    obtain ⟨c, hc, hid'⟩ := h.report_of hx
    exact ⟨_, hc, Option.some.inj (hid'.symm.trans hid)⟩
  · rw [final, htokens]
  · rw [buildInput, buildInput, List.flatMap_append]
    rw [List.flatMap_singleton, inputItems_answer hreturned]

/-- Two calls whose events are mixed, with a text between them. -/
def podsAndNodes : List (ℕ × Call) :=
  [(0, ⟨"call_a", "fs_pods_list", ["\x7b\"ns\":", "\"web\"\x7d"], by decide, by decide⟩),
    (1, ⟨"call_b", "fs_nodes_list", [], by decide, by decide⟩)]

def addedEvent (idx : UInt64) (callId name : String) : Frame :=
  .event (.obj [("item", .obj [("call_id", .str callId), ("name", .str name), ("type", .str "function_call")]),
    ("output_index", .num (.posInt idx)), ("type", .str "response.output_item.added")])

def deltaEvent (idx : UInt64) (text : String) : Frame :=
  .event (.obj [("delta", .str text), ("output_index", .num (.posInt idx)),
    ("type", .str "response.function_call_arguments.delta")])

def doneEvent (idx : UInt64) : Frame :=
  .event (.obj [("output_index", .num (.posInt idx)), ("type", .str "response.function_call_arguments.done")])

def mixedFrames : List Frame :=
  [addedEvent 1 "call_b" "fs_nodes_list", addedEvent 0 "call_a" "fs_pods_list", deltaEvent 0 "\x7b\"ns\":", .skipped,
    .event (.obj [("delta", .str "Looking."), ("type", .str "response.output_text.delta")]), doneEvent 1,
    deltaEvent 0 "\"web\"\x7d", doneEvent 0]

def completedEvent : Value :=
  .obj [("response", .obj [("status", .str "completed")]), ("type", .str "response.completed")]

theorem answer_round_trips_mixed : ∃ events s, stream {} (mixedFrames ++ [.event completedEvent]) = (events, .ok s) ∧
    s.intoToolCalls.map (·.arguments) = ["\x7b\"ns\":\"web\"\x7d", "\x7b\x7d"] ∧ (final events s).text = "Looking." := by
  have hread : (mixedFrames.filterMap Frame.value).filterMap read =
      [(1, .added "call_b" "fs_nodes_list"), (0, .added "call_a" "fs_pods_list"), (0, .delta "\x7b\"ns\":"), (1, .done),
        (0, .delta "\"web\"\x7d"), (0, .done)] := by rfl
  have heach : ∀ k, only k ((mixedFrames.filterMap Frame.value).filterMap read) =
      ((podsAndNodes.lookup k).map Call.inputs).getD [] := by
    intro k
    rw [hread]
    rcases k with _ | _ | k
    · rfl
    · rfl
    · simp [only, podsAndNodes, List.lookup_cons]
  have hpromised : Promised (mixedFrames.filterMap Frame.value) podsAndNodes := by
    refine ⟨?_, by simp [Sorted, podsAndNodes], by decide, heach⟩
    intro v hv
    simp only [mixedFrames, List.filterMap, Frame.value, addedEvent, deltaEvent, doneEvent, List.mem_cons,
      List.not_mem_nil, or_false] at hv
    rcases hv with rfl | rfl | rfl | rfl | rfl | rfl | rfl <;> exact ⟨by decide, fun h => absurd h (by decide)⟩
  obtain ⟨events, s, hstream, hcalls, -, -, -, -, htext, -⟩ := answer_round_trips mixedFrames (by
    intro e he
    simp [mixedFrames, addedEvent, deltaEvent, doneEvent] at he) hpromised completedEvent rfl rfl [] [] true
  refine ⟨events, s, hstream, ?_, htext.trans rfl⟩
  rw [hcalls]
  rfl

/-! ## Failures inside the stream -/

theorem containsText_iff {text marker : Text} : ApprovalGate.containsText text marker = true ↔ marker <:+: text := by
  rw [ApprovalGate.containsText, List.any_eq_true, List.infix_iff_prefix_suffix]
  constructor
  · rintro ⟨t, ht, hmarker⟩
    exact ⟨t, List.isPrefixOf_iff_prefix.mp hmarker, (List.mem_tails _ _).mp ht⟩
  · rintro ⟨t, hmarker, ht⟩
    exact ⟨t, (List.mem_tails _ _).mpr ht, List.isPrefixOf_iff_prefix.mpr hmarker⟩

theorem containsAny_of_infix {t u : Text} {markers : List String} (htu : t <:+: u) (h : containsAny t markers = true) :
    containsAny u markers = true := by
  obtain ⟨m, hm, hcontains⟩ := List.any_eq_true.mp h
  exact List.any_eq_true.mpr ⟨m, hm, containsText_iff.mpr ((containsText_iff.mp hcontains).trans htu)⟩

theorem infix_toAsciiLowercase {t u : Text} (h : t <:+: u) : toAsciiLowercase t <:+: toAsciiLowercase u := by
  obtain ⟨before, after, rfl⟩ := h
  exact ⟨toAsciiLowercase before, toAsciiLowercase after, by simp [toAsciiLowercase]⟩

/-- A quota marker in the body makes the failure a usage limit, whatever else the body says. -/
theorem classOf_quota {body : Text} (h : containsAny (toAsciiLowercase body) codeMarkers = true) :
    classOf (.http none body) = .usageLimited "account limit reached (usage quota exhausted)".toList := by
  have hlimit : classifyUsageLimit (.http none body) = some "account limit reached (usage quota exhausted)".toList := by
    simp only [classifyUsageLimit, Option.getD_none, h]
    rfl
  rw [classOf, if_neg (by simp), hlimit]

def codeOf (err : Value) : Option String := (get? err "code").bind asStr

def messageOf (v err : Value) : Option String := ((get? err "message").bind asStr) <|> (get? v "message").bind asStr

/-- The error has what the failure says of it. -/
theorem codexStreamError_spec {v err : Value} (herr : errorOf v = some err)
    (htold : (codeOf err).isSome = true ∨ (messageOf v err).isSome = true) :
    ∃ body, codexStreamError v = some (.http none body) ∧ (∀ c ∈ codeOf err, c.toList <:+: body) ∧
      ∀ m ∈ messageOf v err, m.toList <:+: body := by
  simp only [codexStreamError, herr, Option.bind_some]
  simp only [codeOf, messageOf] at htold ⊢
  cases hc : (get? err "code").bind asStr with
  | none =>
    cases hm : ((get? err "message").bind asStr) <|> (get? v "message").bind asStr with
    | none => simp [hc, hm] at htold
    | some m => exact ⟨_, rfl, by simp, by simp⟩
  | some c =>
    cases ((get? err "message").bind asStr) <|> (get? v "message").bind asStr with
    | none => exact ⟨_, rfl, by simp, by simp⟩
    | some m =>
      refine ⟨_, rfl, fun c' hc' => ?_, fun m' hm' => ?_⟩
      · rw [← Option.mem_some.mp hc', String.toList_append, String.toList_append, List.append_assoc]
        exact List.infix_append' [] _ _
      · rw [← Option.mem_some.mp hm', String.toList_append]
        exact (List.suffix_append _ _).isInfix

theorem stream_failure {v : Value} (htype : strOf v "type" ∈ ["response.failed", "response.cancelled", "error"])
    {e : ProviderError} (herr : codexStreamError v = some e) (s : ResponsesState) (more : List Frame) :
    stream s (.event v :: more) = ([], .error e) := by
  simp only [List.mem_cons, List.not_mem_nil, or_false] at htype
  rcases htype with htype | htype | htype
  all_goals
    rw [stream, htype]
    simp only [herr]

/-- A text was already shown when the quota ran out. -/
def quotaFailure : Value :=
  .obj [("response", .obj [("error", .obj [("code", .str "insufficient_quota"), ("message", .str "You exceeded it.")])]),
    ("type", .str "response.failed")]

end FerrisScope.CodexTurns
