import FerrisScope.ChatMessages
import FerrisScope.CronFields
import FerrisScope.MergedRuns
import FerrisScope.ProviderErrors

/-!
# A transcript as Gemini turns

`toContents` turns the messages of a chat into turns. Messages of one kind that are adjacent share a
turn, and a message without parts leaves no turn, so that messages far from each other can end up in
one. Still each turn with function calls is directly followed by the turn of their responses.
-/

namespace FerrisScope.GeminiTurns
open ChatMessages HostsFile Json MergedRuns

/-! ## Building the contents -/

/-- What a turn carries. -/
inductive Turn where
  | user
  | toolResults
  | model
  deriving DecidableEq, Repr

abbrev Turns := List (Turn × List Value)

def geminiMajor (id : Text) : Option ℕ :=
  if "gemini-".toList.isPrefixOf id then
    CronFields.parseU32 ((id.drop "gemini-".length).takeWhile CronFields.isDigit)
  else none

/-- The id without the resource it may be under. -/
def modelName (model : Text) : Text := (model.splitOn '/').getLast?.getD model

def isGemini3 (model : Text) : Bool :=
  (geminiMajor (ProviderErrors.toAsciiLowercase (modelName model))).any fun m => 3 ≤ m

variable (serde : Parser)

def functionCallArgs (arguments : String) : Value :=
  match serde.fromStr arguments with
  | some (.obj o) => .obj o
  | _ => .obj []

def textPart (text : String) : Value := .obj [("text", .str text)]

def imagePart (img : ImageAttachment) : Value :=
  .obj [("inlineData", .obj [("data", .str img.data), ("mimeType", .str img.mime)])]

def skipSignature : String := "skip_thought_signature_validator"

/-- The part of the `i`-th call of a message. -/
def callPart (gemini3 : Bool) (i : ℕ) (tc : ToolCall) : Value :=
  let signature := tc.thoughtSignature.or (if gemini3 ∧ i = 0 then some skipSignature else none)
  .obj (("functionCall", .obj [("args", functionCallArgs serde tc.arguments), ("name", .str tc.name)]) ::
    (signature.map fun sig => ("thoughtSignature", .str sig)).toList)

def userParts (vision : Bool) (m : ChatMessage) : List Value :=
  if m.images ≠ [] ∧ vision = false then [textPart (droppedImagesNote m.content m.images.length)]
  else (if m.content = "" then [] else [textPart m.content]) ++ m.images.map imagePart

def callParts (gemini3 : Bool) (m : ChatMessage) : List Value :=
  m.toolCalls.zipIdx.map fun e => callPart serde gemini3 e.2 e.1

def assistantParts (gemini3 : Bool) (m : ChatMessage) : List Value :=
  (if m.content = "" then [] else [textPart m.content]) ++ callParts serde gemini3 m

def responsePart (name content : String) : Value :=
  .obj [("functionResponse", .obj [("name", .str name),
    ("response", .obj [("content", .str content), ("name", .str name)])])]

/-- An empty result would read as a failure. -/
def resultText (m : ChatMessage) : String :=
  if (trim m.content.toList).isEmpty then "Tool executed successfully." else m.content

/-- The name in the message, or else that of the call it answers. -/
def toolPart (callNames : List (String × String)) (m : ChatMessage) : Value :=
  let name := (m.name.or (m.toolCallId.bind fun id => callNames.lookup id)).getD "tool"
  responsePart name (resultText m)

structure Conversion where
  system : List String
  contents : Turns
  callNames : List (String × String)

def convertMessage (gemini3 vision : Bool) (s : Conversion) (m : ChatMessage) : Conversion :=
  match m.role with
  | .system =>
      if (trim m.content.toList).isEmpty then s else { s with system := s.system ++ [m.content] }
  | .user => { s with contents := push s.contents .user (userParts vision m) }
  | .assistant =>
      { s with
        contents := push s.contents .model (assistantParts serde gemini3 m)
        callNames := m.toolCalls.foldl (fun names tc => (tc.id, tc.name) :: names) s.callNames }
  | .tool => { s with contents := push s.contents .toolResults [toolPart s.callNames m] }

/-- A turn as it is sent. -/
def content (turn : Turn × List Value) : Value :=
  .obj [("parts", .arr turn.2), ("role", .str (if turn.1 = .model then "model" else "user"))]

def toContents (messages : List ChatMessage) (model : Text) (vision : Bool) :
    Option String × List Value :=
  let s := messages.foldl (convertMessage serde (isGemini3 model) vision) ⟨[], [], []⟩
  (if s.system.isEmpty then none else some ("\n\n".intercalate s.system), s.contents.map content)

/-! ## Calls and responses -/

def parts (content : Value) : List Value :=
  match get? content "parts" with
  | some (.arr ps) => ps
  | _ => []

def role (content : Value) : Option String := (get? content "role").bind asStr

def isCall (part : Value) : Bool := (get? part "functionCall").isSome

def isResponse (part : Value) : Bool := (get? part "functionResponse").isSome

def functionCalls (content : Value) : List Value := (parts content).filter isCall

/-- A message without anything to send. -/
def Silent (m : ChatMessage) : Prop :=
  match m.role with
  | .system => True
  | .user => m.content = "" ∧ m.images = []
  | .assistant => m.content = "" ∧ m.toolCalls = []
  | .tool => False

/-- The tool messages that follow a message with calls are one for each of them, and there are no
others. Silent messages may stand anywhere. -/
inductive Answered : List ChatMessage → Prop
  | nil : Answered []
  | plain {m ms} (hm : callsTools m = false) (htool : isTool m = false) (hms : Answered ms) :
      Answered (m :: ms)
  | calls {m run ms} (hm : callsTools m = true) (hrun : ∀ r ∈ run, isTool r = true ∨ Silent r)
      (hids : ((run.filter isTool).map (·.toolCallId)).Perm ((callIds m).map some))
      (hms : Answered ms) : Answered (m :: (run ++ ms))

/-- The part of a call. -/
def Calls (tc : ToolCall) (part : Value) : Prop :=
  get? part "functionCall" =
    some (.obj [("args", functionCallArgs serde tc.arguments), ("name", .str tc.name)])

/-- The part of a tool message that answers a call of `m`. -/
def Responds (m r : ChatMessage) (part : Value) : Prop :=
  ∃ tc ∈ m.toolCalls, r.toolCallId = some tc.id ∧
    part = responsePart (r.name.getD tc.name) (resultText r)

/-- The parts of `r` are one response for each call in `c`. -/
structure Answers (ms : List ChatMessage) (c r : Value) : Prop where
  length_eq : (parts r).length = (functionCalls c).length
  responses : ∀ p ∈ parts r, isResponse p = true
  messages : ∃ m run, m :: run <:+: ms ∧ List.Forall₂ (Calls serde) m.toolCalls (functionCalls c) ∧
    ((run.filter isTool).map (·.toolCallId)).Perm ((callIds m).map some) ∧
    List.Forall₂ (Responds m) (run.filter isTool) (parts r)

/-- Calls are directly followed by their responses, and there are no other responses. -/
structure Paired (ms : List ChatMessage) (contents : List Value) : Prop where
  answered : ∀ pre c post, contents = pre ++ c :: post → functionCalls c ≠ [] →
    ∃ r rest, post = r :: rest ∧ role c = some "model" ∧ role r = some "user" ∧ Answers serde ms c r
  responses : ∀ pre r post, contents = pre ++ r :: post → (∃ p ∈ parts r, isResponse p = true) →
    ∃ front c, pre = front ++ [c] ∧ functionCalls c ≠ []

/-! ## Parts -/

variable {serde : Parser}

/-- Neither a call nor a response is among the parts. -/
def Quiet (ps : List Value) : Prop := ∀ p ∈ ps, isCall p = false ∧ isResponse p = false

theorem Quiet.append {ps qs : List Value} (hp : Quiet ps) (hq : Quiet qs) : Quiet (ps ++ qs) := by
  intro p h
  rcases List.mem_append.mp h with h | h
  · exact hp p h
  · exact hq p h

theorem Quiet.filter_isCall {ps : List Value} (h : Quiet ps) : ps.filter isCall = [] := by
  rw [List.filter_eq_nil_iff]
  intro p hp
  rw [(h p hp).1]
  exact Bool.false_ne_true

theorem quiet_text (text : String) : Quiet [textPart text] := by
  intro p hp
  rw [List.mem_singleton] at hp
  subst hp
  exact ⟨rfl, rfl⟩

theorem quiet_content (text : String) : Quiet (if text = "" then [] else [textPart text]) := by
  split_ifs
  · intro p hp
    cases hp
  · exact quiet_text text

theorem quiet_userParts (vision : Bool) (m : ChatMessage) : Quiet (userParts vision m) := by
  rw [userParts]
  by_cases h : m.images ≠ [] ∧ vision = false
  · rw [if_pos h]
    exact quiet_text _
  · rw [if_neg h]
    apply (quiet_content _).append
    intro p hp
    obtain ⟨img, -, rfl⟩ := List.mem_map.mp hp
    exact ⟨rfl, rfl⟩

theorem calls_callPart (gemini3 : Bool) (i : ℕ) (tc : ToolCall) :
    Calls serde tc (callPart serde gemini3 i tc) := rfl

theorem isCall_callPart (gemini3 : Bool) (i : ℕ) (tc : ToolCall) :
    isCall (callPart serde gemini3 i tc) = true := rfl

theorem isResponse_callPart (gemini3 : Bool) (i : ℕ) (tc : ToolCall) :
    isResponse (callPart serde gemini3 i tc) = false := by
  rw [isResponse, callPart]
  cases tc.thoughtSignature.or (if gemini3 = true ∧ i = 0 then some skipSignature else none) <;> rfl

theorem filter_isCall_callParts (gemini3 : Bool) (m : ChatMessage) :
    (callParts serde gemini3 m).filter isCall = callParts serde gemini3 m := by
  rw [List.filter_eq_self]
  intro p hp
  obtain ⟨e, -, rfl⟩ := List.mem_map.mp hp
  exact isCall_callPart gemini3 e.2 e.1

theorem forall₂_callParts (gemini3 : Bool) (m : ChatMessage) :
    List.Forall₂ (Calls serde) m.toolCalls (callParts serde gemini3 m) := by
  rw [callParts, List.forall₂_map_right_iff]
  have hall : ∀ (tcs : List ToolCall) n, List.Forall₂
      (fun tc e => Calls serde tc (callPart serde gemini3 e.2 e.1)) tcs (tcs.zipIdx n) := by
    intro tcs
    induction tcs with
    | nil => exact fun _ => .nil
    | cons tc tcs ih => exact fun n => .cons (calls_callPart gemini3 n tc) (ih (n + 1))
  exact hall m.toolCalls 0

theorem assistantParts_of_no_calls {m : ChatMessage} (h : m.toolCalls = []) (gemini3 : Bool) :
    Quiet (assistantParts serde gemini3 m) := by
  rw [assistantParts, callParts, h]
  simpa using quiet_content m.content

theorem isResponse_toolPart (names : List (String × String)) (m : ChatMessage) :
    isResponse (toolPart names m) = true := rfl

/-! ## Turns -/

variable {gemini3 vision : Bool}

/-- The turns of the messages so far, in which every call has its response. -/
inductive Settled (serde : Parser) (ms : List ChatMessage) : Turns → Prop
  | nil : Settled serde ms []
  | quiet {front turn ps} (h : Settled serde ms front) (hturn : turn ≠ .toolResults) (hps : Quiet ps) :
      Settled serde ms (front ++ [(turn, ps)])
  | answered {front c r} (h : Settled serde ms front)
      (hc : functionCalls (content (.model, c)) ≠ []) (hquiet : ∀ p ∈ c, isResponse p = false)
      (ha : Answers serde ms (content (.model, c)) (content (.toolResults, r))) :
      Settled serde ms (front ++ [(.model, c), (.toolResults, r)])

theorem Settled.last_quiet {ms : List ChatMessage} {front : Turns} {turn : Turn} {ps : List Value}
    (h : Settled serde ms (front ++ [(turn, ps)])) (hturn : turn ≠ .toolResults) :
    Settled serde ms front ∧ Quiet ps := by
  generalize hall : front ++ [(turn, ps)] = all at h
  cases h with
  | nil => simp at hall
  | quiet h _ hps =>
    obtain ⟨rfl, heq⟩ := List.append_inj' hall rfl
    cases heq
    exact ⟨h, hps⟩
  | @answered front' c r h _ _ _ =>
    have hlast : front ++ [(turn, ps)] = (front' ++ [(.model, c)]) ++ [(.toolResults, r)] := by
      rw [hall, List.append_assoc]
      rfl
    obtain ⟨-, heq⟩ := List.append_inj' hlast rfl
    cases heq
    exact absurd rfl hturn

/-- The last turn takes the parts when it is of the same kind. -/
theorem Settled.push_quiet {ms : List ChatMessage} {contents : Turns} (h : Settled serde ms contents)
    {turn : Turn} (hturn : turn ≠ .toolResults) {ps : List Value} (hps : Quiet ps) :
    Settled serde ms (push contents turn ps) := by
  by_cases hnil : ps = []
  · rw [hnil, push_nil]
    exact h
  · rcases push_cases hnil contents turn with ⟨front, qs, rfl, hpush⟩ | hpush
    · obtain ⟨hfront, hqs⟩ := h.last_quiet hturn
      rw [hpush]
      exact hfront.quiet hturn (hqs.append hps)
    · rw [hpush]
      exact h.quiet hturn hps

theorem foldl_names (tcs : List ToolCall) (names : List (String × String)) {id : String}
    (h : id ∈ tcs.map (·.id)) : ∃ tc ∈ tcs, tc.id = id ∧
      (tcs.foldl (fun names tc => (tc.id, tc.name) :: names) names).lookup id = some tc.name := by
  induction tcs using List.reverseRecOn with
  | nil => cases h
  | append_singleton tcs tc ih =>
    rw [List.foldl_append, List.foldl_cons, List.foldl_nil]
    by_cases hid : tc.id = id
    · refine ⟨tc, by simp, hid, ?_⟩
      rw [hid, List.lookup_cons_self]
    · have hmem : id ∈ tcs.map (·.id) := by
        simpa [Ne.symm hid] using h
      obtain ⟨tc', htc', hid', hlookup⟩ := ih hmem
      refine ⟨tc', by simp [htc'], hid', ?_⟩
      have hbeq : (id == tc.id) = false := beq_eq_false_iff_ne.mpr (Ne.symm hid)
      rw [List.lookup_cons, hbeq]
      exact hlookup

theorem convertMessage_silent {m : ChatMessage} (hm : Silent m) (htool : isTool m = false) (s : Conversion) :
    (convertMessage serde gemini3 vision s m).contents = s.contents ∧
      (convertMessage serde gemini3 vision s m).callNames = s.callNames := by
  rw [Silent] at hm
  rw [convertMessage]
  cases hrole : m.role with
  | system =>
    dsimp only
    split_ifs <;> exact ⟨rfl, rfl⟩
  | user =>
    rw [hrole] at hm
    simp [userParts, hm.1, hm.2]
  | assistant =>
    rw [hrole] at hm
    simp [assistantParts, callParts, hm.1, hm.2]
  | tool => exact absurd hrole (of_decide_eq_false htool)

/-- Tool messages, with silent ones in between. -/
theorem foldl_run {run : List ChatMessage} (hrun : ∀ r ∈ run, isTool r = true ∨ Silent r)
    (s : Conversion) :
    (run.foldl (convertMessage serde gemini3 vision) s).contents =
        push s.contents .toolResults ((run.filter isTool).map (toolPart s.callNames)) ∧
      (run.foldl (convertMessage serde gemini3 vision) s).callNames = s.callNames := by
  induction run generalizing s with
  | nil => exact ⟨rfl, rfl⟩
  | cons r run ih =>
    have hrest : ∀ r ∈ run, isTool r = true ∨ Silent r := fun r' h' => hrun r' (List.mem_cons_of_mem _ h')
    obtain ⟨hcontents, hnames⟩ := ih hrest (convertMessage serde gemini3 vision s r)
    rw [List.foldl_cons, hcontents, hnames]
    by_cases htool : isTool r = true
    · have hrole : r.role = .tool := of_decide_eq_true htool
      have hstep : convertMessage serde gemini3 vision s r =
          { s with contents := push s.contents .toolResults [toolPart s.callNames r] } := by
        simp only [convertMessage, hrole]
      rw [hstep, List.filter_cons_of_pos htool, List.map_cons]
      have hpush : push (push s.contents .toolResults [toolPart s.callNames r]) .toolResults
          ((run.filter isTool).map (toolPart s.callNames)) = push s.contents .toolResults
            ([toolPart s.callNames r] ++ (run.filter isTool).map (toolPart s.callNames)) := push_push
      exact ⟨hpush, rfl⟩
    · have hsilent := (hrun r List.mem_cons_self).resolve_left htool
      obtain ⟨hsame, hnames⟩ := convertMessage_silent hsilent (Bool.eq_false_iff.mpr htool) s
      rw [hsame, hnames, List.filter_cons_of_neg htool]
      exact ⟨rfl, rfl⟩

theorem forall₂_responds {m : ChatMessage} {names : List (String × String)}
    (hnames : ∀ id ∈ callIds m, ∃ tc ∈ m.toolCalls, tc.id = id ∧ names.lookup id = some tc.name)
    {run : List ChatMessage} (hids : ∀ r ∈ run, r.toolCallId ∈ (callIds m).map some) :
    List.Forall₂ (Responds m) run (run.map (toolPart names)) := by
  rw [List.forall₂_map_right_iff, List.forall₂_same]
  intro r hr
  obtain ⟨id, hid, heq⟩ := List.mem_map.mp (hids r hr)
  obtain ⟨tc, htc, rfl, hlookup⟩ := hnames id hid
  refine ⟨tc, htc, heq.symm, ?_⟩
  rw [toolPart, ← heq, Option.bind_some, hlookup]
  cases r.name <;> rfl

theorem convertMessage_assistant {m : ChatMessage} (hrole : m.role = .assistant) (s : Conversion) :
    convertMessage serde gemini3 vision s m =
      { s with
        contents := push s.contents .model (assistantParts serde gemini3 m)
        callNames := m.toolCalls.foldl (fun names tc => (tc.id, tc.name) :: names) s.callNames } := by
  simp only [convertMessage, hrole]

/-- The calls come last in the turn of the model, whatever stood there before. -/
theorem Settled.push_model {ms : List ChatMessage} {contents : Turns} (h : Settled serde ms contents)
    {m : ChatMessage} (hne : m.toolCalls ≠ []) (gemini3 : Bool) :
    ∃ front lead, Settled serde ms front ∧ Quiet lead ∧
      push contents .model (assistantParts serde gemini3 m) =
        front ++ [(.model, lead ++ callParts serde gemini3 m)] := by
  have hparts : assistantParts serde gemini3 m ≠ [] := by
    simpa [assistantParts, callParts] using fun _ => hne
  rcases push_cases hparts contents .model with ⟨front, qs, heq, hpush⟩ | hpush
  · rw [heq] at h
    obtain ⟨hfront, hqs⟩ := h.last_quiet (by simp)
    refine ⟨front, _, hfront, hqs.append (quiet_content m.content), ?_⟩
    rw [hpush, List.append_assoc]
    rfl
  · exact ⟨contents, _, h, quiet_content m.content, hpush⟩

theorem functionCalls_model {lead : List Value} (hlead : Quiet lead) (gemini3 : Bool) (m : ChatMessage) :
    functionCalls (content (.model, lead ++ callParts serde gemini3 m)) = callParts serde gemini3 m := by
  change (lead ++ callParts serde gemini3 m).filter isCall = _
  rw [List.filter_append, hlead.filter_isCall, filter_isCall_callParts, List.nil_append]

/-- The parts of the tool messages answer the calls. -/
theorem answers_toolParts {ms : List ChatMessage} {m : ChatMessage} {run : List ChatMessage}
    (hrange : m :: run <:+: ms) (hids : ((run.filter isTool).map (·.toolCallId)).Perm ((callIds m).map some))
    {names : List (String × String)}
    (hnames : ∀ id ∈ callIds m, ∃ tc ∈ m.toolCalls, tc.id = id ∧ names.lookup id = some tc.name)
    {lead : List Value} (hlead : Quiet lead) (gemini3 : Bool) :
    Answers serde ms (content (.model, lead ++ callParts serde gemini3 m))
      (content (.toolResults, (run.filter isTool).map (toolPart names))) := by
  have hcalls : List.Forall₂ (Calls serde) m.toolCalls (callParts serde gemini3 m) :=
    forall₂_callParts gemini3 m
  have hcount : (run.filter isTool).length = m.toolCalls.length := by
    simpa [callIds] using hids.length_eq
  have hresponds : List.Forall₂ (Responds m) (run.filter isTool)
      ((run.filter isTool).map (toolPart names)) := by
    apply forall₂_responds hnames
    intro r hr
    exact hids.mem_iff.mp (List.mem_map_of_mem hr)
  constructor
  · rw [functionCalls_model hlead, ← hcalls.length_eq, ← hcount]
    exact List.length_map _
  · intro p hp
    obtain ⟨r, -, rfl⟩ := List.mem_map.mp hp
    exact isResponse_toolPart names r
  · refine ⟨m, run, hrange, ?_, hids, hresponds⟩
    rw [functionCalls_model hlead]
    exact hcalls

/-- A message with calls and the tool messages that follow it. -/
theorem Settled.push_calls {ms : List ChatMessage} {s : Conversion} (h : Settled serde ms s.contents)
    {m : ChatMessage} {run : List ChatMessage} (hrange : m :: run <:+: ms) (hm : callsTools m = true)
    (hrun : ∀ r ∈ run, isTool r = true ∨ Silent r)
    (hids : ((run.filter isTool).map (·.toolCallId)).Perm ((callIds m).map some)) :
    Settled serde ms ((m :: run).foldl (convertMessage serde gemini3 vision) s).contents := by
  obtain ⟨hrole, hcalls⟩ := Bool.and_eq_true_iff.mp hm
  have hrole : m.role = .assistant := of_decide_eq_true hrole
  have hne : m.toolCalls ≠ [] := by simpa using hcalls
  have hnames : ∀ id ∈ callIds m, ∃ tc ∈ m.toolCalls, tc.id = id ∧
      (m.toolCalls.foldl (fun names tc => (tc.id, tc.name) :: names) s.callNames).lookup id =
        some tc.name := fun id hid => foldl_names m.toolCalls s.callNames hid
  rw [List.foldl_cons, (foldl_run hrun _).1, convertMessage_assistant hrole]
  generalize m.toolCalls.foldl (fun names tc => (tc.id, tc.name) :: names) s.callNames = names at hnames
  obtain ⟨front, lead, hfront, hlead, hpush⟩ := h.push_model hne gemini3
  have hsome : (run.filter isTool).map (toolPart names) ≠ [] := by
    intro hnil
    have hcount : (run.filter isTool).length = m.toolCalls.length := by
      simpa [callIds] using hids.length_eq
    rw [List.map_eq_nil_iff] at hnil
    rw [hnil, List.length_nil] at hcount
    exact hne (List.length_eq_zero_iff.mp hcount.symm)
  have hturns : push (front ++ [(Turn.model, lead ++ callParts serde gemini3 m)]) .toolResults
      ((run.filter isTool).map (toolPart names)) =
      front ++ [(.model, lead ++ callParts serde gemini3 m),
        (.toolResults, (run.filter isTool).map (toolPart names))] := push_other hsome (by simp)
  dsimp only
  rw [hpush, hturns]
  apply hfront.answered
  · rw [functionCalls_model hlead]
    simpa [callParts] using hne
  · intro p hp
    rcases List.mem_append.mp hp with hp | hp
    · exact (hlead p hp).2
    · obtain ⟨e, -, rfl⟩ := List.mem_map.mp hp
      exact isResponse_callPart gemini3 e.2 e.1
  · exact answers_toolParts hrange hids hnames hlead gemini3

theorem settled_contents {ms : List ChatMessage} (h : Answered ms) {all : List ChatMessage}
    (hall : ms <:+ all) (s : Conversion) (hs : Settled serde all s.contents) :
    Settled serde all (ms.foldl (convertMessage serde gemini3 vision) s).contents := by
  induction h generalizing s with
  | nil => exact hs
  | @plain m ms hm htool _ ih =>
    apply ih ((List.suffix_cons m ms).trans hall)
    rw [convertMessage]
    cases hrole : m.role with
    | system =>
      dsimp only
      split_ifs <;> exact hs
    | user => exact hs.push_quiet (by simp) (quiet_userParts vision m)
    | assistant =>
      have hnone : m.toolCalls = [] := by simpa [callsTools, hrole] using hm
      exact hs.push_quiet (by simp) (assistantParts_of_no_calls hnone gemini3)
    | tool => simp [isTool, hrole] at htool
  | @calls m run ms hm hrun hids _ ih =>
    rw [← List.cons_append, List.foldl_append]
    apply ih ((List.suffix_append (m :: run) ms).trans hall)
    have hfront : m :: run <+: m :: (run ++ ms) := List.prefix_append (m :: run) ms
    exact hs.push_calls (hfront.isInfix.trans hall.isInfix) hm hrun hids

/-! ## Contents -/

theorem Answers.no_calls {ms : List ChatMessage} {c r : Value} (h : Answers serde ms c r) :
    functionCalls r = [] := by
  obtain ⟨m, run, -, -, -, hresponds⟩ := h.messages
  have hall : ∀ (run : List ChatMessage) ps, List.Forall₂ (Responds m) run ps →
      ps.filter isCall = [] := by
    intro run ps hps
    induction hps with
    | nil => rfl
    | @cons t p run ps hp _ ih =>
      obtain ⟨tc, -, -, rfl⟩ := hp
      exact ih
  exact hall _ _ hresponds

theorem append_cons_eq_concat {α : Type*} {front pre post : List α} {c x : α}
    (h : front ++ [x] = pre ++ c :: post) :
    (post = [] ∧ front = pre ∧ x = c) ∨ ∃ rest, post = rest ++ [x] ∧ front = pre ++ c :: rest := by
  rcases List.eq_nil_or_concat' post with rfl | ⟨rest, y, rfl⟩
  · obtain ⟨hfront, heq⟩ := List.append_inj' h rfl
    cases heq
    exact .inl ⟨rfl, hfront, rfl⟩
  · rw [← List.cons_append, ← List.append_assoc] at h
    obtain ⟨hfront, heq⟩ := List.append_inj' h rfl
    cases heq
    exact .inr ⟨rest, rfl, hfront⟩

theorem Paired.quiet {ms : List ChatMessage} {front : List Value} (h : Paired serde ms front)
    {x : Value} (hcalls : functionCalls x = []) (hresponses : ∀ p ∈ parts x, isResponse p = false) :
    Paired serde ms (front ++ [x]) := by
  constructor
  · intro pre c post heq hc
    rcases append_cons_eq_concat heq with ⟨-, -, rfl⟩ | ⟨rest, rfl, hfront⟩
    · exact absurd hcalls hc
    · obtain ⟨r, tail, rfl, hanswers⟩ := h.answered pre c rest hfront hc
      exact ⟨r, tail ++ [x], rfl, hanswers⟩
  · intro pre r post heq hr
    rcases append_cons_eq_concat heq with ⟨-, -, rfl⟩ | ⟨rest, rfl, hfront⟩
    · obtain ⟨p, hp, hresponse⟩ := hr
      rw [hresponses p hp] at hresponse
      cases hresponse
    · exact h.responses pre r rest hfront hr

theorem Paired.answers {ms : List ChatMessage} {front : List Value} (h : Paired serde ms front)
    {c r : Value} (hc : functionCalls c ≠ []) (hquiet : ∀ p ∈ parts c, isResponse p = false)
    (hmodel : role c = some "model") (huser : role r = some "user") (ha : Answers serde ms c r) :
    Paired serde ms (front ++ [c, r]) := by
  have hsplit : front ++ [c, r] = (front ++ [c]) ++ [r] := by simp
  rw [hsplit]
  constructor
  · intro pre c' post heq hc'
    rcases append_cons_eq_concat heq with ⟨-, -, rfl⟩ | ⟨rest, rfl, hfront⟩
    · exact absurd ha.no_calls hc'
    · rcases append_cons_eq_concat hfront with ⟨rfl, -, rfl⟩ | ⟨rest', rfl, hfront'⟩
      · exact ⟨r, [], rfl, hmodel, huser, ha⟩
      · obtain ⟨r', tail, rfl, hanswers⟩ := h.answered pre c' rest' hfront' hc'
        exact ⟨r', tail ++ [c] ++ [r], rfl, hanswers⟩
  · intro pre r' post heq hr
    rcases append_cons_eq_concat heq with ⟨-, hpre, rfl⟩ | ⟨rest, rfl, hfront⟩
    · exact ⟨front, c, hpre.symm, hc⟩
    · rcases append_cons_eq_concat hfront with ⟨-, -, rfl⟩ | ⟨rest', rfl, hfront'⟩
      · obtain ⟨p, hp, hresponse⟩ := hr
        rw [hquiet p hp] at hresponse
        cases hresponse
      · exact h.responses pre r' rest' hfront' hr

theorem Settled.paired {ms : List ChatMessage} {contents : Turns} (h : Settled serde ms contents) :
    Paired serde ms (contents.map content) := by
  induction h with
  | nil => exact ⟨by simp, by simp⟩
  | @quiet front turn ps _ _ hps ih =>
    rw [List.map_append]
    exact ih.quiet hps.filter_isCall fun p hp => (hps p hp).2
  | answered _ hc hquiet ha ih =>
    rw [List.map_append]
    exact ih.answers hc hquiet rfl rfl ha

/-- The responses to the calls of a turn are the next turn, and there is nothing else in it. -/
theorem toContents_paired (serde : Parser) {messages : List ChatMessage} (h : Answered messages)
    (model : Text) (vision : Bool) :
    Paired serde messages (toContents serde messages model vision).2 :=
  (settled_contents h (List.suffix_refl messages) ⟨[], [], []⟩ .nil).paired

/-- A parser that knows the empty object. -/
def emptyObjects : Parser := ⟨fun s => if s = "{}" then some (.obj []) else none⟩

/-- A system message stands between the call and its result, and silence around them. -/
def interrupted : List ChatMessage :=
  [{ role := .user, content := "hi" },
    { role := .assistant, content := "looking" }, { role := .user },
    { role := .assistant, toolCalls := [⟨"a", "fs_pods_list", "{}", none⟩] },
    { role := .system, content := "be brief" },
    { role := .tool, content := "3 pods", toolCallId := some "a" },
    { role := .user, content := "thanks" }]

theorem toContents_paired_interrupted :
    Paired emptyObjects interrupted (toContents emptyObjects interrupted "gemini-3-pro".toList true).2 := by
  apply toContents_paired
  have hrest : Answered [{ role := .user, content := "thanks" }] := .plain rfl rfl .nil
  have hcalls : Answered ({ role := .assistant, toolCalls := [⟨"a", "fs_pods_list", "{}", none⟩] } ::
      ([{ role := .system, content := "be brief" },
        { role := .tool, content := "3 pods", toolCallId := some "a" }] ++
        [{ role := .user, content := "thanks" }])) := by
    refine .calls rfl ?_ ?_ hrest
    · simp [Silent, isTool]
    · simp [isTool, callIds]
  exact .plain rfl rfl (.plain rfl rfl (.plain rfl rfl hcalls))

end FerrisScope.GeminiTurns
