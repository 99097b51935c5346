import FerrisScope.ChatTurns
import FerrisScope.GrowingTranscripts

/-!
# Replay of a chat

The transcript and the log of a chat are written in separate steps, and not in the same order: an
answer is logged first, the results of tools and the messages of the operator are pushed first, and an
answer is placed before the messages that came in while it was written. A compaction replaces both
at once. Replay gives back the live transcript, up to repairs, as long as every answer is placed
before the messages that are logged after it, sends are logged in the order of their pushes and
no compaction ends between the two writes of a message.
-/

namespace FerrisScope.ReplayedChats
open ChatMessages ToolPairs RepairedTranscripts GrowingTranscripts SessionEvents ChatTurns LabelledRuns
open HostsFile (trim)

/-- The messages that are pushed and not logged, of the sends. -/
def queued (s : State) : List ChatMessage := s.unlogged.map (·.message)

/-- An answer that is neither logged nor placed. -/
def arrived : Turn → Option ChatMessage
  | .running (.replied reply _ _) _ => some reply
  | _ => none

/-- An answer that is logged and not placed. -/
def waiting : Turn → Option ChatMessage
  | .running (.placing reply _ _) _ => some reply
  | .running (.closed note _) _ => some note
  | _ => none

/-- The results of tools that are pushed and not logged. -/
def unrecorded : Turn → List ChatMessage
  | .running (.recording records) _ => records.filterMap messageOf
  | _ => []

/-- The loop is not between the two writes of a message. -/
def Level (turn : Turn) : Prop := waiting turn = none ∧ unrecorded turn = []

/-- Every message is in the transcript and in the log, or in neither. -/
def Settled (s : State) : Prop := s.unlogged = [] ∧ Level s.turn

/-- The messages of the operator behind the last other message of the log, also those that are
still to be logged. -/
def loggedBehind (s : State) : Nat := (trailingUsers (replay s.log ++ queued s)).length

/-- What keeps the log in step: a send is logged before the sends behind it, a summary arrives when
everything is settled, the calls of an answer have new ids, and an answer is placed before as many
messages as the log has behind it. -/
def InStep (s : State) : Action → Prop
  | .logSend k _ => k = 0
  | .summarise (some text) _ => trim text.toList ≠ [] → Settled s
  | .logReply _ => (issued (s.messages ++ (arrived s.turn).toList)).Nodup
  | .place => ∀ preRoundCount ∈ roundOf s.turn, placedBefore s.messages preRoundCount = loggedBehind s
  | .runTools _ _ => loggedBehind s = 0
  | .pushNotice => loggedBehind s = 0
  | _ => True

instance (s : State) : Decidable (Settled s) := inferInstanceAs (Decidable (_ ∧ _ ∧ _))

instance (s : State) : (a : Action) → Decidable (InStep s a)
  | .logSend k _ => inferInstanceAs (Decidable (k = 0))
  | .summarise (some text) _ => inferInstanceAs (Decidable (trim text.toList ≠ [] → Settled s))
  | .logReply _ => inferInstanceAs (Decidable (issued (s.messages ++ (arrived s.turn).toList)).Nodup)
  | .place => inferInstanceAs (Decidable (∀ preRoundCount ∈ roundOf s.turn,
      placedBefore s.messages preRoundCount = loggedBehind s))
  | .runTools _ _ => inferInstanceAs (Decidable (loggedBehind s = 0))
  | .pushNotice => inferInstanceAs (Decidable (loggedBehind s = 0))
  | .send _ _ | .spawn | .compact | .summarise none _ | .mend | .autocontinue | .note _ | .startRound | .autoCompact _
  | .forceCompact | .mendOwn | .snapshot | .reply _ _ | .fail _ | .record | .logNotice _ | .finish => .isTrue trivial

/-- What the loop holds on its way is an answer, or the records of tools. -/
def Sound : Turn → Prop
  | .running (.replied reply _ _) _ => isAssistant reply = true
  | .running (.placing reply _ _) _ => isAssistant reply = true
  | .running (.closing note _) _ => isAssistant note = true ∧ note.toolCalls = []
  | .running (.closed note _) _ => isAssistant note = true ∧ note.toolCalls = []
  | .running (.recording records) _ => ∀ e ∈ records, markerOf e = none
  | _ => True

/-- The results of the calls of `m`: those that are logged, in `ws` among messages of the operator, and
then those in `rs`. -/
structure Batch (m : ChatMessage) (ws rs : List ChatMessage) : Prop where
  calls : callsTools m = true
  ids : (ws.filter isTool ++ rs).map (·.toolCallId) = (callIds m).map some
  tools : ∀ r ∈ rs, isTool r = true
  users : ∀ w ∈ ws, isTool w = false → isUser w = true

/-- How far the two writes are apart: not at all, up to messages of the operator; by an answer that
is logged; or by results of tools that are pushed. -/
inductive Phase : Turn → (queue replayed live : List ChatMessage) → Prop
  | level {turn queue xs ys} (hturn : Level turn) (h : Alike xs ys) : Phase turn queue xs (ys ++ queue)
  | answered {turn reply queue us xs ys} (hwaiting : waiting turn = some reply)
      (hus : ∀ u ∈ us, isUser u = true) (h : Alike xs ys) :
      Phase turn queue (xs ++ reply :: us) (ys ++ (us ++ queue))
  | recording {turn reply queue ws xs ys} (hwaiting : waiting turn = none)
      (hbatch : Batch reply ws (unrecorded turn)) (h : Alike xs ys) :
      Phase turn queue (xs ++ reply :: ws)
        (ys ++ reply :: ((ws.filter isTool ++ unrecorded turn) ++ (spoken ws ++ queue)))

/-- The transcript and the log, by how far the loop is. The calls of an answer that is on its way
count as issued. -/
structure Written (s : State) : Prop where
  ids : (issued (s.messages ++ (waiting s.turn).toList)).Nodup
  phase : Phase s.turn (queued s) (replay s.log) s.messages

/-- The transcript and the log belong together. -/
structure Kept (s : State) : Prop extends Written s where
  held : Held s
  sound : Sound s.turn
  users : ∀ p ∈ s.unlogged, isUser p.message = true

section Transcripts

variable {us xs ys ws rs queue : List ChatMessage} {m u : ChatMessage}

theorem callsTools_of_isUser (h : isUser m = true) : callsTools m = false := by
  simp only [isUser, decide_eq_true_eq] at h
  simp [callsTools, h]

theorem issued_append (xs ys : List ChatMessage) : issued (xs ++ ys) = issued xs ++ issued ys := List.flatMap_append

theorem issued_users (h : ∀ u ∈ us, isUser u = true) : issued us = [] := by
  rw [issued, List.flatMap_eq_nil_iff]
  intro u hu
  rw [callsTools_of_isUser (h u hu), if_neg Bool.false_ne_true]

theorem users_append (hxs : ∀ u ∈ xs, isUser u = true) (hys : ∀ u ∈ ys, isUser u = true) :
    ∀ u ∈ xs ++ ys, isUser u = true := by
  intro u hu
  rcases List.mem_append.mp hu with hu | hu
  · exact hxs u hu
  · exact hys u hu

theorem user_singleton (h : isUser u = true) : ∀ u' ∈ [u], isUser u' = true := fun _ hu' =>
  List.mem_singleton.mp hu' ▸ h

theorem issued_nodup_left (h : (issued (xs ++ ys)).Nodup) : (issued xs).Nodup := by
  rw [issued_append, List.nodup_append] at h
  exact h.1

/-- The calls of a message are not among those before it. -/
theorem issued_nodup_middle (hm : callsTools m = true) (h : (issued (xs ++ m :: ys)).Nodup) :
    (callIds m).Nodup ∧ ∀ x ∈ issued xs, x ∉ callIds m := by
  rw [issued_append, issued_cons, if_pos hm, List.nodup_append, List.nodup_append] at h
  exact ⟨h.2.1.1, fun x hx hx' => h.2.2 x hx x (List.mem_append_left _ hx') rfl⟩

theorem issued_tools (h : ∀ r ∈ rs, isTool r = true) : issued rs = [] := by
  rw [← issued_spoken, spoken_eq_nil h]
  rfl

theorem repaired_users (h : ∀ u ∈ us, isUser u = true) : Repaired us us :=
  repaired_plain fun u hu => ⟨isTool_of_isUser (h u hu), callsTools_of_isUser (h u hu)⟩

theorem fresh_of_no_tools (h : ∀ u ∈ us, isTool u = false) : Fresh xs us := by
  intro x _ u hu hanswers
  have htool := isTool_of_answers hanswers
  rw [h u hu] at htool
  cases htool

/-- More messages of the operator on both sides. -/
theorem alike_users (h : Alike xs ys) (hus : ∀ u ∈ us, isUser u = true) : Alike (xs ++ us) (ys ++ us) :=
  have hfresh {zs : List ChatMessage} : Fresh zs us := fresh_of_no_tools fun u hu => isTool_of_isUser (hus u hu)
  alike_append h ⟨us, repaired_users hus, repaired_users hus⟩ hfresh hfresh

/-- An answer in front of messages of the operator. -/
theorem alike_answer (h : Alike xs ys) (hus : ∀ u ∈ us, isUser u = true) (hm : isTool m = false)
    (hids : (issued [m]).Nodup) : Alike (xs ++ m :: us) (ys ++ m :: us) := by
  have hissued : issued (m :: us) = issued [m] := by
    rw [← List.singleton_append, issued_append, issued_users hus, List.append_nil]
  have hfresh {zs : List ChatMessage} : Fresh zs (m :: us) := fresh_of_no_tools fun u hu => by
    rcases List.mem_cons.mp hu with rfl | hu
    · exact hm
    · exact isTool_of_isUser (hus u hu)
  exact alike_append h (alike_self (by rwa [hissued])) hfresh hfresh

namespace Batch

theorem fresh (h : Batch m ws rs) (hdisjoint : ∀ x ∈ issued xs, x ∉ callIds m) : Fresh xs (m :: ws) := by
  intro x hx r hr hanswers
  rcases List.mem_cons.mp hr with rfl | hr
  · have htool := isTool_of_answers hanswers
    rw [not_isTool_of_callsTools h.calls] at htool
    cases htool
  · have hmem : r.toolCallId ∈ (ws.filter isTool ++ rs).map (·.toolCallId) :=
      List.mem_map_of_mem (List.mem_append_left _ (List.mem_filter.mpr ⟨hr, isTool_of_answers hanswers⟩))
    rw [h.ids, id_of_answers hanswers] at hmem
    exact hdisjoint x hx (by simpa using hmem)

theorem all_tools (h : Batch m ws rs) : ∀ r ∈ ws.filter isTool ++ rs, isTool r = true := by
  intro r hr
  rcases List.mem_append.mp hr with hlogged | hr
  · exact (List.mem_filter.mp hlogged).2
  · exact h.tools r hr

theorem all_users (h : Batch m ws rs) : ∀ w ∈ spoken ws, isUser w = true := by
  intro w hw
  obtain ⟨hmem, htool⟩ := List.mem_filter.mp hw
  exact h.users w hmem (by simpa using htool)

/-- In the transcript, the results stand together. -/
theorem live (h : Batch m ws rs) (hqueue : ∀ u ∈ queue, isUser u = true) :
    Batch m ((ws.filter isTool ++ rs) ++ (spoken ws ++ queue)) [] ∧
    ((ws.filter isTool ++ rs) ++ (spoken ws ++ queue)).filter isTool = ws.filter isTool ++ rs ∧
    spoken ((ws.filter isTool ++ rs) ++ (spoken ws ++ queue)) = spoken ws ++ queue := by
  have husers := users_append h.all_users hqueue
  have hnone : (spoken ws ++ queue).filter isTool = [] := by
    rw [List.filter_eq_nil_iff]
    intro w hw htool
    rw [isTool_of_isUser (husers w hw)] at htool
    cases htool
  have hall : spoken (spoken ws ++ queue) = spoken ws ++ queue := by
    refine List.filter_eq_self.mpr fun w hw => ?_
    rw [isTool_of_isUser (husers w hw)]
    rfl
  have hfilter : ((ws.filter isTool ++ rs) ++ (spoken ws ++ queue)).filter isTool = ws.filter isTool ++ rs := by
    rw [List.filter_append, hnone, List.append_nil, List.filter_eq_self.mpr h.all_tools]
  refine ⟨⟨h.calls, ?_, fun r hr => (by cases hr), fun w hw htool => ?_⟩, hfilter, ?_⟩
  · rw [hfilter, List.append_nil, h.ids]
  · rcases List.mem_append.mp hw with hw | hw
    · rw [h.all_tools w hw] at htool
      cases htool
    · exact husers w hw
  · rw [spoken_append, spoken_eq_nil h.all_tools, hall, List.nil_append]

/-- Once all is logged, the repair puts the results together. -/
theorem repaired (h : Batch m ws []) (hnodup : (callIds m).Nodup) :
    Repaired (m :: ws) (m :: (ws.filter isTool ++ spoken ws)) :=
  repaired_batch h.calls hnodup (by simpa using h.ids) fun w hw htool => callsTools_of_isUser (h.users w hw htool)

theorem live_repaired (h : Batch m ws rs) (hnodup : (callIds m).Nodup) (hqueue : ∀ u ∈ queue, isUser u = true) :
    Repaired (m :: ((ws.filter isTool ++ rs) ++ (spoken ws ++ queue)))
      (m :: ((ws.filter isTool ++ rs) ++ (spoken ws ++ queue))) := by
  obtain ⟨hlive, hfilter, hspoken⟩ := h.live hqueue
  have hrepaired := hlive.repaired hnodup
  rwa [hfilter, hspoken] at hrepaired

/-- The batch in the log and the batch in the transcript. -/
theorem alike (h : Batch m ws []) (hnodup : (callIds m).Nodup) (halike : Alike xs ys)
    (hdisjoint : ∀ x ∈ issued ys, x ∉ callIds m) :
    Alike (xs ++ m :: ws) (ys ++ m :: (ws.filter isTool ++ spoken ws)) := by
  have hnone : ∀ u ∈ ([] : List ChatMessage), isUser u = true := fun u hu => by cases hu
  have hlive := (h.live hnone).1
  have hrepaired := h.live_repaired hnodup hnone
  rw [List.append_nil (spoken ws), List.append_nil (ws.filter isTool)] at hlive hrepaired
  exact alike_append halike ⟨_, h.repaired hnodup, hrepaired⟩ (h.fresh (by rwa [alike_issued halike]))
    (hlive.fresh hdisjoint)

end Batch

end Transcripts

section Phases

variable {turn turn' : Turn} {queue replayed live : List ChatMessage}

/-- Nothing is between its two writes but messages of the operator. -/
theorem Phase.alike (h : Phase turn queue replayed live) (hturn : Level turn) (hids : (issued live).Nodup) :
    ∃ ys, live = ys ++ queue ∧ Alike replayed ys := by
  cases h with
  | level _ h => exact ⟨_, rfl, h⟩
  | answered hwaiting _ _ =>
    rw [hturn.1] at hwaiting
    cases hwaiting
  | @recording reply _ ws xs ys _ hbatch h =>
    rw [hturn.2] at hbatch hids ⊢
    obtain ⟨hnodup, hdisjoint⟩ := issued_nodup_middle hbatch.calls hids
    refine ⟨_, ?_, hbatch.alike hnodup h hdisjoint⟩
    simp

theorem Phase.of_level (h : Phase turn queue replayed live) (hturn : Level turn) (hturn' : Level turn')
    (hids : (issued live).Nodup) : Phase turn' queue replayed live := by
  obtain ⟨ys, rfl, halike⟩ := h.alike hturn hids
  exact .level hturn' halike

theorem Phase.push (h : Phase turn queue replayed live) (u : ChatMessage) :
    Phase turn (queue ++ [u]) replayed (live ++ [u]) := by
  cases h with
  | level hturn h =>
    rw [List.append_assoc]
    exact .level hturn h
  | answered hwaiting hus h =>
    rw [List.append_assoc, List.append_assoc]
    exact .answered hwaiting hus h
  | recording hwaiting hbatch h =>
    rw [List.append_assoc, List.cons_append, List.append_assoc, List.append_assoc (spoken _)]
    exact .recording hwaiting hbatch h

theorem Phase.logSend {u : ChatMessage} (h : Phase turn (u :: queue) replayed live) (hu : isUser u = true) :
    Phase turn queue (replayed ++ [u]) live := by
  cases h with
  | @level _ xs ys hturn h =>
    have hlive : ys ++ u :: queue = (ys ++ [u]) ++ queue := by simp
    rw [hlive]
    exact .level hturn (alike_users h (user_singleton hu))
  | @answered reply _ us xs ys hwaiting hus h =>
    have husers := users_append hus (user_singleton hu)
    have hlive : us ++ u :: queue = (us ++ [u]) ++ queue := by simp
    rw [hlive, List.append_assoc xs, List.cons_append]
    exact .answered hwaiting husers h
  | @recording reply _ ws xs ys hwaiting hbatch h =>
    have hfilter : (ws ++ [u]).filter isTool = ws.filter isTool := by
      rw [List.filter_append, List.filter_cons_of_neg (by simp [isTool_of_isUser hu]), List.filter_nil, List.append_nil]
    have hspoken : spoken (ws ++ [u]) = spoken ws ++ [u] := by
      rw [spoken_append]
      simp [spoken, isTool_of_isUser hu]
    have hbatch' : Batch reply (ws ++ [u]) (unrecorded turn) := by
      refine ⟨hbatch.calls, by rw [hfilter, hbatch.ids], hbatch.tools, fun w hw htool => ?_⟩
      rcases List.mem_append.mp hw with hw | hw
      · exact hbatch.users w hw htool
      · exact List.mem_singleton.mp hw ▸ hu
    have hphase : Phase turn queue (xs ++ reply :: (ws ++ [u])) _ := .recording hwaiting hbatch' h
    rw [hfilter, hspoken, List.append_assoc (spoken ws)] at hphase
    rwa [List.append_assoc xs, List.cons_append]

/-- A repair of the transcript keeps the messages that are between their two writes as they are. -/
theorem Phase.repair {out : List ChatMessage} (h : Phase turn queue replayed live)
    (hqueue : ∀ u ∈ queue, isUser u = true) (hids : (issued live).Nodup) (hrepaired : Repaired live out) :
    Phase turn queue replayed out := by
  cases h with
  | @level _ xs ys hturn h =>
    have ⟨_, _, hys⟩ := h
    have hall := repaired_append hys (repaired_users hqueue) (fresh_of_no_tools fun u hu => isTool_of_isUser (hqueue u hu))
    rw [repaired_unique hrepaired hall]
    exact .level hturn (alike_repaired h hys)
  | @answered reply _ us xs ys hwaiting hus h =>
    have husers := users_append hus hqueue
    have ⟨_, _, hys⟩ := h
    have hall := repaired_append hys (repaired_users husers) (fresh_of_no_tools fun u hu => isTool_of_isUser (husers u hu))
    rw [repaired_unique hrepaired hall]
    exact .answered hwaiting hus (alike_repaired h hys)
  | @recording reply _ ws xs ys hwaiting hbatch h =>
    obtain ⟨hnodup, hdisjoint⟩ := issued_nodup_middle hbatch.calls hids
    have ⟨_, _, hys⟩ := h
    have hall := repaired_append hys (hbatch.live_repaired hnodup hqueue)
      ((hbatch.live hqueue).1.fresh hdisjoint)
    rw [repaired_unique hrepaired hall]
    exact .recording hwaiting hbatch (alike_repaired h hys)

theorem trailingUsers_append {m : ChatMessage} {us : List ChatMessage} (xs : List ChatMessage) (hm : isUser m = false)
    (hus : ∀ u ∈ us, isUser u = true) : trailingUsers (xs ++ m :: us) = us := by
  have hrev : (xs ++ m :: us).reverse = us.reverse ++ m :: xs.reverse := by simp
  rw [trailingUsers, hrev, List.takeWhile_append_of_pos fun u hu => hus u (List.mem_reverse.mp hu),
    List.takeWhile_cons_of_neg (by simp [hm]), List.append_nil, List.reverse_reverse]

theorem isUser_of_isAssistant {m : ChatMessage} (h : isAssistant m = true) : isUser m = false ∧ isTool m = false := by
  simp only [isAssistant, decide_eq_true_eq] at h
  simp [isUser, isTool, h]

theorem insertIdx_append_length {α : Type*} (xs ys : List α) (x : α) :
    (xs ++ ys).insertIdx xs.length x = xs ++ x :: ys := by
  induction xs with
  | nil => rfl
  | cons a xs ih => rw [List.cons_append, List.length_cons, List.insertIdx_succ_cons, ih, List.cons_append]

/-- An answer that is placed before the messages behind it in the log. -/
theorem Phase.place {reply : ChatMessage} (h : Phase turn queue replayed live) (hwaiting : waiting turn = some reply)
    (hreply : isAssistant reply = true) (hqueue : ∀ u ∈ queue, isUser u = true) (hids : (issued [reply]).Nodup)
    (hturn' : Level turn') : Phase turn' queue replayed
      (live.insertIdx (live.length - (trailingUsers (replayed ++ queue)).length) reply) := by
  obtain ⟨huser, htool⟩ := isUser_of_isAssistant hreply
  cases h with
  | level hturn _ =>
    rw [hturn.1] at hwaiting
    cases hwaiting
  | @answered reply' _ us xs ys hwaiting' hus h =>
    cases hwaiting.symm.trans hwaiting'
    have husers := users_append hus hqueue
    rw [List.append_assoc, List.cons_append, trailingUsers_append xs huser husers, List.length_append,
      Nat.add_sub_cancel]
    have hlive : (ys ++ (us ++ queue)).insertIdx ys.length reply = (ys ++ reply :: us) ++ queue := by
      rw [insertIdx_append_length]
      simp
    rw [hlive]
    exact .level hturn' (alike_answer h hus htool hids)
  | recording hwaiting' _ _ =>
    rw [hwaiting] at hwaiting'
    cases hwaiting'

/-- An answer is pushed with the results of its tools when nothing is behind it in the log. -/
theorem Phase.runTools {reply : ChatMessage} (h : Phase turn queue replayed live) (hwaiting : waiting turn = some reply)
    (hreply : isUser reply = false) (hqueue : ∀ u ∈ queue, isUser u = true) (hturn' : waiting turn' = none)
    (hbatch : Batch reply [] (unrecorded turn')) (hlast : (trailingUsers (replayed ++ queue)).length = 0) :
    Phase turn' queue replayed (live ++ reply :: unrecorded turn') := by
  cases h with
  | level hturn _ =>
    rw [hturn.1] at hwaiting
    cases hwaiting
  | @answered reply' _ us xs ys hwaiting' hus h =>
    cases hwaiting.symm.trans hwaiting'
    have husers := users_append hus hqueue
    rw [List.append_assoc, List.cons_append, trailingUsers_append xs hreply husers] at hlast
    obtain ⟨rfl, rfl⟩ := List.append_eq_nil_iff.mp (List.length_eq_zero_iff.mp hlast)
    have hpushed : Phase turn' [] _ _ := .recording hturn' hbatch h
    simpa [spoken] using hpushed
  | recording hwaiting' _ _ =>
    rw [hwaiting] at hwaiting'
    cases hwaiting'

end Phases

theorem messageOf_toolRecords (ts : Int64) (outcomes : List ToolOutcome) :
    (toolRecords ts outcomes).filterMap messageOf = outcomes.map toolMessage := by
  rw [toolRecords]
  induction outcomes with
  | nil => rfl
  | cons o outcomes ih =>
    rw [List.flatMap_cons, List.filterMap_append, ih]
    rfl

theorem markerOf_toolRecords (ts : Int64) (outcomes : List ToolOutcome) :
    ∀ e ∈ toolRecords ts outcomes, markerOf e = none := by
  intro e he
  obtain ⟨o, -, he⟩ := List.mem_flatMap.mp he
  rcases List.mem_cons.mp he with rfl | he
  · rfl
  · rw [List.mem_singleton.mp he]
    rfl

theorem sound_step {s t : State} {a : Action} (h : Sound s.turn) (hstep : Step s a t) : Sound t.turn := by
  have hpush {u : State} (hu : Sound u.turn) (m : ChatMessage) : Sound (u.push m).turn := by
    unfold State.push
    split
    · trivial
    · exact hu
  cases hstep with
  | send => exact hpush h _
  | @autocontinue n _ _ => exact hpush (u := { s with continues := n }) h _
  | @logSend k p ts hk =>
    dsimp only
    split
    · trivial
    · exact h
  | @withdraw c summary ts hc =>
    obtain ⟨turn, n, heq, rfl | ⟨forced, b, hturn, rfl⟩⟩ := withdraw_effect s c
    · rw [heq]
      exact h
    · rw [heq]
      cases forced <;> trivial
  | @replace c summary ts hc hsummary hlen =>
    obtain ⟨turn, n, heq, rfl | ⟨forced, b, hturn, rfl⟩⟩ := replace_effect s c (String.ofList (trim summary.toList)) ts
    · rw [heq]
      exact h
    · rw [heq]
      trivial
  | @reply request pre b final ts hturn =>
    obtain ⟨total, records, pc, b', heq, hpc, -⟩ := takeReply_effect s b pre final ts
    rw [heq]
    cases hpc with
    | givenUp _ => exact ⟨rfl, rfl⟩
    | again => trivial
    | replied => exact rfl
  | @fail request pre b e hturn =>
    obtain ⟨pc, b', heq, hpc⟩ := takeFailure_effect s b e
    rw [heq]
    cases hpc with
    | closing => exact ⟨rfl, rfl⟩
    | _ => trivial
  | logReply hturn =>
    rw [hturn] at h
    exact h
  | @place reply finishReason pre b hturn htools =>
    obtain ⟨turn, heq, ⟨-, rfl⟩ | ⟨-, rfl⟩⟩ := place_effect s b reply pre
    · rw [heq]
      trivial
    · rw [heq]
      trivial
  | @runTools reply finishReason pre b outcomes ts hturn htools hcalls => exact markerOf_toolRecords ts outcomes
  | @record e records b hturn =>
    rw [hturn] at h
    exact fun e' he' => h e' (List.mem_cons_of_mem e he')
  | logNotice hturn =>
    rw [hturn] at h
    exact h
  | @pushNotice note atOnce b hturn =>
    cases atOnce <;> trivial
  | @mendOwn forced b messages fixed hturn hrepair =>
    cases forced <;> trivial
  | compact _ => exact h
  | compactNot => exact h
  | mend _ _ => exact h
  | autocontinueNot _ => exact h
  | note _ _ => exact h
  | _ => trivial

section Steps

variable {s t : State} {a : Action}

theorem Kept.queue_users (h : Kept s) : ∀ u ∈ queued s, isUser u = true := by
  intro u hu
  obtain ⟨p, hp, rfl⟩ := List.mem_map.mp hu
  exact h.users p hp

theorem issued_perm {xs ys : List ChatMessage} (h : xs.Perm ys) : (issued xs).Perm (issued ys) :=
  h.flatMap_right _

/-- A step of the loop that writes nothing. -/
theorem Written.of_level (h : Written s) (hs : Level s.turn) (ht : Level t.turn) (hmessages : t.messages = s.messages)
    (hreplay : replay t.log = replay s.log) (hunlogged : t.unlogged = s.unlogged) : Written t := by
  obtain ⟨hids, hphase⟩ := h
  rw [hs.1, Option.toList_none, List.append_nil] at hids
  refine ⟨?_, ?_⟩
  · rwa [hmessages, ht.1, Option.toList_none, List.append_nil]
  · rw [hmessages, hreplay, queued, hunlogged]
    exact hphase.of_level hs ht hids

theorem Written.of_same (h : Written s) (hturn : t.turn = s.turn) (hmessages : t.messages = s.messages)
    (hreplay : replay t.log = replay s.log) (hunlogged : t.unlogged = s.unlogged) : Written t := by
  obtain ⟨hids, hphase⟩ := h
  refine ⟨?_, ?_⟩
  · rwa [hmessages, hturn]
  · rw [hmessages, hreplay, hturn, queued, hunlogged]
    exact hphase

theorem written_push (h : Written s) {m : ChatMessage} (hm : isUser m = true) : Written (s.push m) := by
  have hmove (turn : Turn) : issued ((s.messages ++ [m]) ++ (waiting turn).toList) =
      issued (s.messages ++ (waiting turn).toList) := by
    have hnone : issued [m] = [] := issued_users (user_singleton hm)
    rw [issued_append, issued_append, issued_append, hnone, List.append_nil]
  obtain ⟨hids, hphase⟩ := h
  have hpush := hphase.push m
  unfold State.push
  split
  · rename_i hidle
    rw [hidle] at hids hpush
    refine ⟨?_, ?_⟩
    · dsimp only
      rwa [hmove]
    · rw [queued, List.map_append]
      refine hpush.of_level ⟨rfl, rfl⟩ ⟨rfl, rfl⟩ ?_
      have hsame := hmove .idle
      simp only [waiting, Option.toList_none, List.append_nil] at hids hsame
      rwa [hsame]
  · refine ⟨?_, ?_⟩
    · dsimp only
      rwa [hmove]
    · rw [queued, List.map_append]
      exact hpush

theorem written_logSend (h : Kept s) {p : Sending} {ts : Int64} (hk : s.unlogged[0]? = some p) :
    Written { s.append (.message p.message ts) with
      unlogged := s.unlogged.eraseIdx 0
      turn := if p.starts then .claimed true else s.turn } := by
  obtain ⟨rest, hunlogged⟩ : ∃ rest, s.unlogged = p :: rest := by
    cases hunlogged : s.unlogged with
    | nil =>
      rw [hunlogged] at hk
      cases hk
    | cons p' rest =>
      rw [hunlogged] at hk
      cases hk
      exact ⟨rest, rfl⟩
  have hphase := h.phase
  rw [queued, hunlogged, List.map_cons] at hphase
  have hlogged := hphase.logSend (h.users p (by rw [hunlogged]; exact List.mem_cons_self))
  have hreplay : replay (s.log ++ [.message p.message ts]) = replay s.log ++ [p.message] := replay_concat _ rfl
  have hnext : Written { s.append (.message p.message ts) with unlogged := rest } := by
    refine ⟨h.ids, ?_⟩
    dsimp only [State.append]
    rwa [hreplay]
  rw [hunlogged, List.eraseIdx_cons_zero]
  cases hstarts : p.starts with
  | false => exact hnext
  | true =>
    have hclaimed := claimed_of_starts h.held (List.mem_of_getElem? hk) hstarts
    exact hnext.of_level (by rw [State.append, hclaimed]; exact ⟨rfl, rfl⟩) ⟨rfl, rfl⟩ rfl rfl rfl

/-- A repair of the transcript. -/
theorem written_repair (h : Kept s) {messages : List ChatMessage} {fixed : Nat}
    (hrepair : repairToolPairs s.messages = .ok (messages, fixed)) : Written { s with messages } := by
  have hids := issued_nodup_left h.ids
  have hrepaired := repaired_of_repairToolPairs hids hrepair
  have hqueue := h.queue_users
  refine ⟨?_, h.phase.repair hqueue hids hrepaired⟩
  dsimp only
  rw [issued_append, repaired_issued hrepaired, ← issued_append]
  exact h.ids

/-- The marker of a compaction takes the place of all that was logged. -/
theorem written_replaceHead (h : Written s) (hsettled : Settled s) (c : Compaction) (summary : String) (ts : Int64) :
    Written (s.replaceHead c summary ts) := by
  obtain ⟨hunlogged, hturn⟩ := hsettled
  have hids := h.ids
  rw [hturn.1, Option.toList_none, List.append_nil] at hids
  have htail : (issued (checkpoint summary :: s.messages.drop c.headCount)).Nodup := by
    rw [issued_cons, if_neg (by simp [callsTools, checkpoint]), List.nil_append]
    rw [← List.take_append_drop c.headCount s.messages, issued_append, List.nodup_append] at hids
    exact hids.2.1
  have hreplay : replay (s.replaceHead c summary ts).log = checkpoint summary :: s.messages.drop c.headCount :=
    replay_compaction ..
  refine ⟨?_, ?_⟩
  · change (issued ((checkpoint summary :: s.messages.drop c.headCount) ++ (waiting s.turn).toList)).Nodup
    rwa [hturn.1, Option.toList_none, List.append_nil]
  · have hqueue : queued (s.replaceHead c summary ts) = [] := by
      change s.unlogged.map (·.message) = []
      rw [hunlogged, List.map_nil]
    have hphase : Phase s.turn [] _ _ := .level hturn (alike_self htail)
    rw [List.append_nil] at hphase
    rwa [hreplay, hqueue]

/-- An answer is logged. -/
theorem written_logAnswer (h : Written s) {m : ChatMessage} {ts : Int64} {pc : Pc} {b : Budget} (hs : Level s.turn)
    (hwaiting : waiting (.running pc b) = some m) (hids : (issued (s.messages ++ [m])).Nodup) :
    Written ((s.append (.message m ts)).moveTo pc b) := by
  have hall := h.ids
  rw [hs.1, Option.toList_none, List.append_nil] at hall
  obtain ⟨ys, hmessages, halike⟩ := h.phase.alike hs hall
  have hreplay : replay (s.log ++ [.message m ts]) = replay s.log ++ [m] := replay_concat _ rfl
  refine ⟨?_, ?_⟩
  · change (issued (s.messages ++ (waiting (.running pc b)).toList)).Nodup
    rwa [hwaiting]
  · change Phase (.running pc b) (queued s) (replay (s.log ++ [.message m ts])) s.messages
    rw [hreplay, hmessages]
    exact .answered hwaiting (fun u (hu : u ∈ []) => by cases hu) halike

/-- An answer is placed before the messages behind it in the log. -/
theorem written_place (h : Kept s) {m : ChatMessage} {turn : Turn} (hwaiting : waiting s.turn = some m)
    (hm : isAssistant m = true) (hturn : Level turn) : Written { s with
      messages := s.messages.insertIdx (s.messages.length - loggedBehind s) m
      turn } := by
  have hids := h.ids
  rw [hwaiting, Option.toList_some] at hids
  have hown : (issued [m]).Nodup := by
    rw [issued_append, List.nodup_append] at hids
    exact hids.2.1
  have hqueue := h.queue_users
  refine ⟨?_, h.phase.place hwaiting hm hqueue hown hturn⟩
  dsimp only
  rw [hturn.1, Option.toList_none, List.append_nil]
  have hperm : (s.messages ++ [m]).Perm (s.messages.insertIdx (s.messages.length - loggedBehind s) m) :=
    List.perm_append_singleton .. |>.trans (List.perm_insertIdx m s.messages (Nat.sub_le ..)).symm
  exact (issued_perm hperm).nodup_iff.mp hids

/-- The answer and the results of its tools are pushed together. -/
theorem written_runTools (h : Kept s) {reply : ChatMessage} {finishReason : FinishReason} {preRoundCount : Nat} {b : Budget}
    {outcomes : List ToolOutcome} {ts : Int64} (hturn : s.turn = .running (.placing reply finishReason preRoundCount) b)
    (htools : runsTools reply finishReason = true) (hcalls : outcomes.map (·.call) = reply.toolCalls)
    (hlast : loggedBehind s = 0) :
    Written ({ s with messages := s.messages ++ reply :: outcomes.map toolMessage }.moveTo
      (.recording (toolRecords ts outcomes)) b) := by
  have hreply := h.sound
  rw [hturn] at hreply
  obtain ⟨huser, -⟩ := isUser_of_isAssistant hreply
  have hwaiting : waiting s.turn = some reply := by rw [hturn]; rfl
  have hcallsTools : callsTools reply = true := by
    simp only [runsTools, Bool.and_eq_true] at htools
    simp only [Sound, isAssistant] at hreply
    rw [callsTools, hreply, htools.2]
    rfl
  have hresults : ∀ r ∈ outcomes.map toolMessage, isTool r = true := by
    intro r hr
    obtain ⟨o, -, rfl⟩ := List.mem_map.mp hr
    rfl
  refine ⟨?_, ?_⟩
  · have hids := h.ids
    rw [hwaiting, Option.toList_some] at hids
    have hsame : (s.messages ++ reply :: outcomes.map toolMessage) ++ [] =
        (s.messages ++ [reply]) ++ outcomes.map toolMessage := by simp
    change (issued ((s.messages ++ reply :: outcomes.map toolMessage) ++ [])).Nodup
    rwa [hsame, issued_append, issued_tools hresults, List.append_nil]
  · have hbatch : Batch reply [] (unrecorded (.running (.recording (toolRecords ts outcomes)) b)) := by
      refine ⟨hcallsTools, ?_, ?_, fun w hw => (by cases hw)⟩
      · rw [unrecorded, messageOf_toolRecords, List.filter_nil, List.nil_append, callIds, ← hcalls]
        simp [toolMessage]
      · rwa [unrecorded, messageOf_toolRecords]
    have hpushed := h.phase.runTools hwaiting huser h.queue_users rfl hbatch hlast
    rwa [unrecorded, messageOf_toolRecords] at hpushed

theorem Phase.of_turn {turn turn' : Turn} {queue replayed live : List ChatMessage}
    (h : Phase turn queue replayed live) (hwaiting : waiting turn' = waiting turn)
    (hrecorded : unrecorded turn' = unrecorded turn) : Phase turn' queue replayed live := by
  cases h with
  | level hturn h => exact .level ⟨hwaiting.trans hturn.1, hrecorded.trans hturn.2⟩ h
  | answered hwaiting' hus h => exact .answered (hwaiting.trans hwaiting') hus h
  | recording hwaiting' hbatch h =>
    rw [← hrecorded] at hbatch ⊢
    exact .recording (hwaiting.trans hwaiting') hbatch h

/-- The next result is logged. -/
theorem Phase.record {turn turn' : Turn} {queue replayed live : List ChatMessage} {r : ChatMessage}
    (h : Phase turn queue replayed live) (hturn : waiting turn = none) (hturn' : waiting turn' = none)
    (hrecorded : unrecorded turn = r :: unrecorded turn') : Phase turn' queue (replayed ++ [r]) live := by
  cases h with
  | level hlevel _ =>
    rw [hlevel.2] at hrecorded
    cases hrecorded
  | answered hwaiting _ _ =>
    rw [hturn] at hwaiting
    cases hwaiting
  | @recording reply _ ws xs ys _ hbatch halike =>
    rw [hrecorded] at hbatch ⊢
    have htool : isTool r = true := hbatch.tools r List.mem_cons_self
    have hfilter : (ws ++ [r]).filter isTool = ws.filter isTool ++ [r] := by
      rw [List.filter_append, List.filter_cons_of_pos htool, List.filter_nil]
    have hspoken : spoken (ws ++ [r]) = spoken ws := by
      rw [spoken_append, spoken_eq_nil fun m hm => List.mem_singleton.mp hm ▸ htool, List.append_nil]
    have hsame : (ws.filter isTool ++ [r]) ++ unrecorded turn' = ws.filter isTool ++ r :: unrecorded turn' := by simp
    have hbatch' : Batch reply (ws ++ [r]) (unrecorded turn') := by
      refine ⟨hbatch.calls, by rw [hfilter, hsame, hbatch.ids], fun m hm => ?_, fun w hw hw' => ?_⟩
      · exact hbatch.tools m (List.mem_cons_of_mem r hm)
      · rcases List.mem_append.mp hw with hw | hw
        · exact hbatch.users w hw hw'
        · rw [List.mem_singleton.mp hw, htool] at hw'
          cases hw'
    have hphase : Phase turn' queue (xs ++ reply :: (ws ++ [r])) _ := .recording hturn' hbatch' halike
    rw [hfilter, hspoken, hsame] at hphase
    rwa [List.append_assoc, List.cons_append]

theorem written_record (h : Kept s) {e : SessionEvent} {records : List SessionEvent} {b : Budget}
    (hturn : s.turn = .running (.recording (e :: records)) b) :
    Written ((s.append e).moveTo (.recording records) b) := by
  have hmarkers := h.sound
  rw [hturn] at hmarkers
  have hreplay : replay (s.log ++ [e]) = replay s.log ++ (messageOf e).toList :=
    replay_concat _ (hmarkers e List.mem_cons_self)
  refine ⟨?_, ?_⟩
  · have hids := h.ids
    rw [hturn] at hids
    exact hids
  · change Phase (.running (.recording records) b) (queued s) (replay (s.log ++ [e])) s.messages
    rw [hreplay]
    have hphase := h.phase
    rw [hturn] at hphase
    cases hmessage : messageOf e with
    | none =>
      rw [Option.toList_none, List.append_nil]
      exact hphase.of_turn rfl (by rw [unrecorded, unrecorded, List.filterMap_cons_none hmessage])
    | some r =>
      rw [Option.toList_some]
      exact hphase.record rfl rfl (by rw [unrecorded, unrecorded, List.filterMap_cons_some hmessage])

theorem replay_records {records : List SessionEvent} (h : ∀ e ∈ records, messageOf e = none ∧ markerOf e = none)
    (log : List SessionEvent) : replay (log ++ records) = replay log := by
  induction records generalizing log with
  | nil => rw [List.append_nil]
  | cons e records ih =>
    obtain ⟨hmessage, hmarker⟩ := h e List.mem_cons_self
    rw [← List.singleton_append, ← List.append_assoc, ih fun e' he' => h e' (List.mem_cons_of_mem e he'),
      replay_concat _ hmarker, hmessage, Option.toList_none, List.append_nil]

theorem written_step (h : Kept s) (hinStep : InStep s a) (hstep : Step s a t) : Written t := by
  have hwritten : Written s := h.toWritten
  cases hstep with
  | send => exact written_push hwritten rfl
  | @autocontinue n _ _ => exact written_push (s := { s with continues := n }) ⟨h.ids, h.phase⟩ rfl
  | logSend hk =>
    cases hinStep
    exact written_logSend h hk
  | spawn hturn => exact hwritten.of_level (by rw [hturn]; exact ⟨rfl, rfl⟩) ⟨rfl, rfl⟩ rfl rfl rfl
  | @withdraw c summary ts hc =>
    obtain ⟨turn, n, heq, rfl | ⟨forced, b, hturn, rfl⟩⟩ := withdraw_effect s c
    · rw [heq]
      exact hwritten.of_same rfl rfl rfl rfl
    · rw [heq]
      refine hwritten.of_level (by rw [hturn]; exact ⟨rfl, rfl⟩) ?_ rfl rfl rfl
      cases forced <;> exact ⟨rfl, rfl⟩
  | @replace c summary ts hc hsummary hlen =>
    have hsettled := hinStep hsummary
    have hreplaced := written_replaceHead hwritten hsettled c (String.ofList (trim summary.toList)) ts
    obtain ⟨turn, n, heq, rfl | ⟨forced, b, hturn, rfl⟩⟩ := replace_effect s c (String.ofList (trim summary.toList)) ts
    · rw [heq]
      exact hreplaced.of_same rfl rfl rfl rfl
    · rw [heq]
      exact hreplaced.of_level hsettled.2 ⟨rfl, rfl⟩ rfl rfl rfl
  | mend hn hrepair =>
    exact (written_repair h hrepair).of_same rfl rfl rfl rfl
  | note hmessage hmarker =>
    refine hwritten.of_same rfl rfl ?_ rfl
    exact replay_records (by simpa using ⟨hmessage, hmarker⟩) s.log
  | startRound hturn hrepair =>
    refine (written_repair h hrepair).of_level ?_ ⟨rfl, rfl⟩ rfl rfl rfl
    dsimp only
    rw [hturn]
    exact ⟨rfl, rfl⟩
  | @mendOwn forced b messages fixed hturn hrepair =>
    refine (written_repair h hrepair).of_level ?_ ?_ rfl rfl rfl
    · dsimp only
      rw [hturn]
      exact ⟨rfl, rfl⟩
    · cases forced <;> exact ⟨rfl, rfl⟩
  | @reply request pre b final ts hturn =>
    obtain ⟨total, records, pc, b', heq, hpc, hrecords⟩ := takeReply_effect s b pre final ts
    rw [heq]
    refine hwritten.of_level (by rw [hturn]; exact ⟨rfl, rfl⟩) ?_ rfl (replay_records hrecords s.log) rfl
    cases hpc <;> exact ⟨rfl, rfl⟩
  | @fail request pre b e hturn =>
    obtain ⟨pc, b', heq, hpc⟩ := takeFailure_effect s b e
    rw [heq]
    refine hwritten.of_level (by rw [hturn]; exact ⟨rfl, rfl⟩) ?_ rfl rfl rfl
    cases hpc <;> exact ⟨rfl, rfl⟩
  | logReply hturn =>
    have hids : (issued (s.messages ++ (arrived s.turn).toList)).Nodup := hinStep
    rw [hturn] at hids
    exact written_logAnswer hwritten (by rw [hturn]; exact ⟨rfl, rfl⟩) rfl hids
  | @logNotice note atOnce b ts hturn =>
    have hnote := h.sound
    rw [hturn] at hnote
    refine written_logAnswer hwritten (by rw [hturn]; exact ⟨rfl, rfl⟩) rfl ?_
    have hnone : issued [note] = [] := by
      rw [issued_cons, if_neg (by simp [callsTools, hnote.2])]
      rfl
    have hids := h.ids
    rw [hturn] at hids
    rw [issued_append, hnone]
    rwa [issued_append] at hids
  | @place reply finishReason pre b hturn htools =>
    have hplaced : placedBefore s.messages pre = loggedBehind s := hinStep pre (by rw [hturn]; rfl)
    have hreply := h.sound
    rw [hturn] at hreply
    obtain ⟨turn, heq, hturn'⟩ := place_effect s b reply pre
    rw [heq, hplaced]
    refine written_place h (by rw [hturn]; rfl) hreply ?_
    rcases hturn' with ⟨-, rfl⟩ | ⟨-, rfl⟩
    · exact ⟨rfl, rfl⟩
    · exact ⟨rfl, rfl⟩
  | @pushNotice note atOnce b hturn =>
    have hnote := h.sound
    rw [hturn] at hnote
    have hlevel : Level (if atOnce then .idle else .running .stopping b) := by cases atOnce <;> exact ⟨rfl, rfl⟩
    have hplaced := written_place h (by rw [hturn]; rfl) hnote.1 hlevel
    have hlast : loggedBehind s = 0 := hinStep
    rwa [hlast, Nat.sub_zero, List.insertIdx_length_self] at hplaced
  | runTools hturn htools hcalls => exact written_runTools h hturn htools hcalls hinStep
  | record hturn => exact written_record h hturn
  | compact _ => exact hwritten.of_same rfl rfl rfl rfl
  | compactNot => exact hwritten.of_same rfl rfl rfl rfl
  | autocontinueNot _ => exact hwritten.of_same rfl rfl rfl rfl
  | roundLimit hturn _ => exact hwritten.of_level (by rw [hturn]; exact ⟨rfl, rfl⟩) ⟨rfl, rfl⟩ rfl rfl rfl
  | autoCompact hturn _ => exact hwritten.of_level (by rw [hturn]; exact ⟨rfl, rfl⟩) ⟨rfl, rfl⟩ rfl rfl rfl
  | autoCompactNot hturn => exact hwritten.of_level (by rw [hturn]; exact ⟨rfl, rfl⟩) ⟨rfl, rfl⟩ rfl rfl rfl
  | forceCompact hturn _ => exact hwritten.of_level (by rw [hturn]; exact ⟨rfl, rfl⟩) ⟨rfl, rfl⟩ rfl rfl rfl
  | forceCompactNot hturn => exact hwritten.of_level (by rw [hturn]; exact ⟨rfl, rfl⟩) ⟨rfl, rfl⟩ rfl rfl rfl
  | snapshot hturn => exact hwritten.of_level (by rw [hturn]; exact ⟨rfl, rfl⟩) ⟨rfl, rfl⟩ rfl rfl rfl
  | recorded hturn => exact hwritten.of_level (by rw [hturn]; exact ⟨rfl, rfl⟩) ⟨rfl, rfl⟩ rfl rfl rfl
  | finish hturn => exact hwritten.of_level (by rw [hturn]; exact ⟨rfl, rfl⟩) ⟨rfl, rfl⟩ rfl rfl rfl

theorem users_step (h : ∀ p ∈ s.unlogged, isUser p.message = true) (hstep : Step s a t) :
    ∀ p ∈ t.unlogged, isUser p.message = true := by
  rcases step_turn hstep with ⟨n, m, hm, rfl⟩ | ⟨k, p, e, -, rfl⟩ | ⟨hunlogged, -⟩
  · have hpush (b : Bool) : ∀ p ∈ s.unlogged ++ [⟨m, b⟩], isUser p.message = true := by
      intro p hp
      rcases List.mem_append.mp hp with hp | hp
      · exact h p hp
      · exact List.mem_singleton.mp hp ▸ hm
    unfold State.push
    split
    · exact hpush true
    · exact hpush false
  · exact fun p hp => h p (List.mem_of_mem_eraseIdx hp)
  · rwa [hunlogged]

theorem kept_step (s : State) (a : Action) (t : State) (hinStep : InStep s a) (h : Kept s) (hstep : step s a = some t) :
    Kept t where
  toWritten := written_step h hinStep (step_inv hstep)
  held := held_step h.held (step_inv hstep)
  sound := sound_step h.sound (step_inv hstep)
  users := users_step h.users (step_inv hstep)

theorem kept_chatOpen {log : List SessionEvent} {total : UInt32} (hids : (issued (replay log)).Nodup)
    (hopen : chatOpen log total = some s) : Kept s := by
  unfold chatOpen at hopen
  split at hopen
  · cases hopen
  · rename_i messages fixed hrepair
    cases hopen
    have hrepaired := repaired_of_repairToolPairs hids hrepair
    have hphase : Phase .idle [] (replay log) (messages ++ []) :=
      .level ⟨rfl, rfl⟩ ⟨messages, hrepaired, repaired_self hrepaired⟩
    refine ⟨⟨?_, ?_⟩, rfl, trivial, fun p hp => (by cases hp)⟩
    · change (issued (messages ++ [])).Nodup
      rwa [List.append_nil, repaired_issued hrepaired]
    · rwa [List.append_nil] at hphase

end Steps

/-- The transcript that replay gives back, and the live one, both repaired. -/
def rebuilt (s : State) : Except Fault (List ChatMessage) := (repairToolPairs (replay s.log)).map Prod.fst

def repairedLive (s : State) : Except Fault (List ChatMessage) := (repairToolPairs s.messages).map Prod.fst

/-- Whenever everything is settled in a run whose steps keep the log in step, replay of the log gives the
live transcript, up to the repair. -/
theorem rebuilt_eq_live (log : List SessionEvent) (total : UInt32) (acts : List Action) (opened s : State)
    (hids : (issued (replay log)).Nodup) (hopen : chatOpen log total = some opened)
    (hinStep : Meets step InStep opened acts) (hrun : run step opened acts = some s) (hsettled : Settled s) :
    rebuilt s = repairedLive s := by
  have hkept := run_invariant_meets kept_step hinStep (kept_chatOpen hids hopen) hrun
  have hlive := hkept.ids
  rw [hsettled.2.1, Option.toList_none, List.append_nil] at hlive
  obtain ⟨ys, hmessages, halike⟩ := hkept.phase.alike hsettled.2 hlive
  have hqueue : queued s = [] := by rw [queued, hsettled.1, List.map_nil]
  rw [hqueue, List.append_nil] at hmessages
  have hsame : Alike (replay s.log) s.messages := by rwa [hmessages]
  exact alike_repairToolPairs hsame (by rwa [alike_issued hsame])

def podsCall : ToolCall := ⟨"call_1", "fs_pods_list", "{}", none⟩

/-- A question that is answered with the help of a tool, and a message that comes in while the result is
logged. -/
def assisted : List Action :=
  [.send "why is web down?" [], .logSend 0 1, .spawn, .startRound, .autoCompact 90, .snapshot,
    .reply { text := "", finishReason := .toolCalls, toolCalls := [podsCall] } 2, .logReply 3,
    .runTools [⟨podsCall, "web-0 Pending", false⟩] 4, .send "be brief" [], .logSend 0 5, .record, .record, .record,
    .startRound, .autoCompact 90, .snapshot, .reply { text := "web-0 is pending." } 6, .logReply 7, .place]

def assistedChat : State := (run step emptyChat assisted).getD emptyChat

theorem assisted_rebuilt : run step emptyChat assisted = some assistedChat ∧ assistedChat.messages.length = 5 ∧
    rebuilt assistedChat = repairedLive assistedChat := by
  have hrun : run step emptyChat assisted = some assistedChat := by decide
  exact ⟨hrun, by decide, rebuilt_eq_live [] 0 assisted emptyChat assistedChat (by decide) (by decide) (by decide) hrun
    (by decide)⟩

/-- A question, and a second one that comes in before the first is answered. -/
def interrupted : List Action :=
  [.send "why is web down?" [], .logSend 0 1, .spawn, .startRound, .autoCompact 90, .snapshot, .send "and api?" [],
    .logSend 0 2, .reply { text := "web-0 is pending." } 3, .logReply 4, .place, .startRound, .autoCompact 90, .snapshot,
    .reply { text := "api runs." } 5, .logReply 6, .place]

/-- The answer is placed before both questions, and logged after them. -/
theorem interrupted_not_rebuilt :
    (run step emptyChat interrupted).map (fun s => (s.turn, s.unlogged, s.compaction)) = some (.idle, [], none) ∧
    ¬∀ acts s, run step emptyChat acts = some s → Settled s → rebuilt s = repairedLive s := by
  have hsome : (run step emptyChat interrupted).map (fun s => (s.turn, s.unlogged, s.compaction)) =
      some (.idle, [], none) := by decide
  refine ⟨hsome, fun h => ?_⟩
  obtain ⟨s, hrun, -⟩ := Option.map_eq_some_iff.mp hsome
  have hdiffers : (run step emptyChat interrupted).all (fun s => decide (Settled s) && decide (rebuilt s ≠ repairedLive s)) = true := by
    decide
  rw [hrun] at hdiffers
  simp at hdiffers
  exact hdiffers.2 (h interrupted s hrun hdiffers.1)

end FerrisScope.ReplayedChats
