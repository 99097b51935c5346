import FerrisScope.BinarySearches
import FerrisScope.ChatTurns
import Mathlib.Data.List.TakeWhile

/-!
# The user messages at the end of a transcript

The run of user messages at the end is found by role. An answer is placed before all of it, also before
user messages that were there when the round began. A request has the run as one message, which is
built anew and has no images.
-/

namespace FerrisScope.TrailingUserRuns
open ChatMessages ChatTurns

/-- The transcript before the run of user messages at its end. -/
def beforeRun (messages : List ChatMessage) : List ChatMessage :=
  messages.take (messages.length - (trailingUsers messages).length)

theorem run_suffix (messages : List ChatMessage) : trailingUsers messages <:+ messages := by
  have hprefix := List.reverse_suffix.mpr (List.takeWhile_prefix isUser (l := messages.reverse))
  rwa [List.reverse_reverse] at hprefix

theorem drop_run (messages : List ChatMessage) :
    messages.drop (messages.length - (trailingUsers messages).length) = trailingUsers messages :=
  (List.suffix_iff_eq_drop.mp (run_suffix messages)).symm

theorem before_append_run (messages : List ChatMessage) : beforeRun messages ++ trailingUsers messages = messages := by
  have hsplit := List.take_append_drop (messages.length - (trailingUsers messages).length) messages
  rwa [drop_run] at hsplit

theorem isUser_of_mem_run {messages : List ChatMessage} {m : ChatMessage} (h : m ∈ trailingUsers messages) :
    isUser m = true := List.mem_takeWhile_imp (List.mem_reverse.mp h)

/-- The run goes on through user messages that are appended. -/
theorem run_append {messages users : List ChatMessage} (husers : ∀ m ∈ users, isUser m = true) :
    trailingUsers (messages ++ users) = trailingUsers messages ++ users := by
  rw [trailingUsers, trailingUsers, List.reverse_append,
    List.takeWhile_append_of_pos fun m hm => husers m (List.mem_reverse.mp hm), List.reverse_append,
    List.reverse_reverse]

theorem beforeRun_append {messages users : List ChatMessage} (husers : ∀ m ∈ users, isUser m = true) :
    beforeRun (messages ++ users) = beforeRun messages := by
  have hwhole := before_append_run (messages ++ users)
  rw [run_append husers, ← List.append_assoc] at hwhole
  have hsame : beforeRun (messages ++ users) ++ trailingUsers messages = messages := List.append_cancel_right hwhole
  exact List.append_cancel_right (hsame.trans (before_append_run messages).symm)

/-- The run is empty when the last message is not of the user. -/
theorem run_eq_nil_iff {messages : List ChatMessage} :
    trailingUsers messages = [] ↔ ∀ m, messages.getLast? = some m → isUser m = false := by
  rw [trailingUsers, List.reverse_eq_nil_iff, ← List.head?_reverse]
  cases messages.reverse with
  | nil => simp
  | cons m ms => cases hm : isUser m <;> simp [hm]

/-! ## Where an answer is placed -/

theorem place_before_run (s : State) (b : Budget) (reply : ChatMessage) {pre queued : List ChatMessage}
    (hmessages : s.messages = pre ++ queued) (hqueued : queued ≠ []) (husers : ∀ m ∈ queued, isUser m = true) :
    (place s b reply pre.length).messages = beforeRun pre ++ reply :: (trailingUsers pre ++ queued) := by
  have hpending : userQueuedDuringRound s.messages pre.length = true := by
    obtain ⟨m, hm⟩ := Option.ne_none_iff_exists'.mp (mt List.getLast?_eq_none_iff.mp hqueued)
    have hlast : (pre ++ queued).getLast? = some m := by rw [List.getLast?_append, hm, Option.some_or]
    have hlength := List.length_pos_of_ne_nil hqueued
    rw [userQueuedDuringRound, hmessages, hlast, List.length_append, Option.any_some,
      husers m (List.mem_of_getLast? hm), Bool.and_true, decide_eq_true_eq]
    omega
  rw [place_messages, placedBefore, if_pos hpending, BinarySearches.insertIdx_eq_take_drop (Nat.sub_le _ _),
    drop_run]
  change beforeRun s.messages ++ reply :: trailingUsers s.messages = _
  rw [hmessages, beforeRun_append husers, run_append husers]

/-- The answer to a round comes right behind the messages the round began with exactly when these do
not end with a message of the user. -/
theorem place_chronological_iff (s t : State) (b : Budget) (final : CompletionFinal) (pre queued : List ChatMessage)
    (hturn : s.turn = .running (.placing (assistantMessage final) final.finishReason pre.length) b)
    (hmessages : s.messages = pre ++ queued) (hqueued : queued ≠ []) (husers : ∀ m ∈ queued, isUser m = true)
    (hstep : step s .place = some t) :
    t.messages = pre ++ assistantMessage final :: queued ↔ ∀ m, pre.getLast? = some m → isUser m = false := by
  have ht : t.messages = beforeRun pre ++ assistantMessage final :: (trailingUsers pre ++ queued) := by
    rw [step, hturn] at hstep
    dsimp only at hstep
    split at hstep
    · cases hstep
    · rw [← Option.some.inj hstep]
      exact place_before_run s b _ hmessages hqueued husers
  rw [ht, ← run_eq_nil_iff]
  have hpre := before_append_run pre
  constructor
  · intro heq
    cases hrun : trailingUsers pre with
    | nil => rfl
    | cons m ms =>
      rw [hrun] at hpre heq
      generalize beforeRun pre = front at hpre heq
      rw [← hpre, List.append_assoc] at heq
      have hm : isUser m = true := isUser_of_mem_run (hrun ▸ List.mem_cons_self)
      rw [← (List.cons.inj (List.append_cancel_left heq)).1] at hm
      cases hm
  · intro hrun
    rw [hrun, List.append_nil] at hpre
    rw [hrun, hpre]
    rfl

/-- The model has said that it is done. -/
def doneReply : CompletionFinal := ⟨"done", .stop, [], none, none, []⟩

/-- A chat that places this reply to a round which began with one message, while another one was queued. -/
def placingChat (first : ChatMessage) : State := { emptyChat with
  messages := [first] ++ [userMessage "and now?" []]
  turn := .running (.placing (assistantMessage doneReply) .stop 1) {} }

theorem place_chronological_iff_afterTools : ∃ t, step (placingChat { role := .tool, content := "ok" }) .place = some t ∧
    t.messages = [{ role := .tool, content := "ok" }] ++ assistantMessage doneReply :: [userMessage "and now?" []] := by
  refine ⟨_, rfl, ?_⟩
  refine (place_chronological_iff (placingChat { role := .tool, content := "ok" }) _ {} doneReply _
    [userMessage "and now?" []] rfl rfl (List.cons_ne_nil _ _) (fun m hm => ?_) rfl).mpr fun m hm => ?_
  · rw [List.mem_singleton.mp hm]
    rfl
  · rw [← Option.some.inj hm]
    rfl

/-- The answer to a first question, with a second one queued, comes before both. -/
theorem answer_before_its_question : ∃ t, step (placingChat (userMessage "is it done?" [])) .place = some t ∧
    t.messages ≠ [userMessage "is it done?" []] ++ assistantMessage doneReply :: [userMessage "and now?" []] :=
  ⟨_, rfl, by decide⟩

/-! ## The run as one message -/

/-- The run is one user message with the texts and the images of all its messages, in order, and what
stands before it is as it was. -/
def FoldsRun (messages merged : List ChatMessage) : Prop :=
  if trailingUsers messages = [] then merged = messages
  else ∃ m, merged = beforeRun messages ++ [m] ∧ isUser m = true ∧
    m.content = "\n\n".intercalate ((trailingUsers messages).map (·.content)) ∧
    m.images = (trailingUsers messages).flatMap (·.images)

theorem merge_of_short_run {messages : List ChatMessage} (h : (trailingUsers messages).length ≤ 1) :
    mergeTrailingUserRun messages = messages := by
  rw [mergeTrailingUserRun, trailingUserRunStart]
  by_cases hrun : trailingUsers messages = []
  · rw [if_pos hrun]
  · have hpos := List.length_pos_of_ne_nil hrun
    rw [if_neg hrun]
    dsimp only
    rw [if_pos (by omega)]

theorem merge_of_long_run {messages : List ChatMessage} (h : 1 < (trailingUsers messages).length) :
    mergeTrailingUserRun messages = beforeRun messages ++
      [{ content := "\n\n".intercalate ((trailingUsers messages).map (·.content)) }] := by
  have hle := (run_suffix messages).length_le
  have hrun : trailingUsers messages ≠ [] := fun hnil => by
    rw [hnil] at h
    cases h
  rw [mergeTrailingUserRun, trailingUserRunStart, if_neg hrun]
  dsimp only
  rw [if_neg (by omega), drop_run]
  rfl

/-- Folding keeps everything exactly when at most one message is folded or none has an image. -/
theorem mergeTrailingUserRun_folds_iff (messages : List ChatMessage) :
    FoldsRun messages (mergeTrailingUserRun messages) ↔
      (trailingUsers messages).length ≤ 1 ∨ ∀ m ∈ trailingUsers messages, m.images = [] := by
  rw [FoldsRun]
  rcases Nat.lt_or_ge 1 (trailingUsers messages).length with hlong | hshort
  · have hrun : trailingUsers messages ≠ [] := fun hnil => by
      rw [hnil] at hlong
      cases hlong
    rw [if_neg hrun, merge_of_long_run hlong]
    constructor
    · rintro ⟨m, heq, -, -, himages⟩
      refine Or.inr ?_
      have hm := (List.cons.inj (List.append_cancel_left heq)).1
      rw [← hm] at himages
      exact List.flatMap_eq_nil_iff.mp himages.symm
    · rintro (hshort | hnone)
      · omega
      · exact ⟨_, rfl, rfl, rfl, (List.flatMap_eq_nil_iff.mpr hnone).symm⟩
  · rw [merge_of_short_run hshort]
    refine iff_of_true ?_ (Or.inl hshort)
    split
    · rfl
    · rename_i hrun
      obtain ⟨m, hm⟩ := List.length_eq_one_iff.mp (le_antisymm hshort (List.length_pos_of_ne_nil hrun))
      have hwhole := before_append_run messages
      rw [hm] at hwhole ⊢
      exact ⟨m, hwhole.symm, isUser_of_mem_run (hm ▸ List.mem_cons_self), by simp, by simp⟩

/-- Two queued prompts, the second with a picture. -/
def promptsWithImage : List ChatMessage := [userMessage "see" [], userMessage "this" [⟨"image/png", "AA=="⟩]]

theorem folding_drops_image : ¬ FoldsRun promptsWithImage (mergeTrailingUserRun promptsWithImage) := by
  have hrun : trailingUsers promptsWithImage ≠ [] := by decide
  have hmerged : mergeTrailingUserRun promptsWithImage = [{ content := "see\n\nthis" }] := by decide
  have hbefore : beforeRun promptsWithImage = [] := by decide
  have himages : (trailingUsers promptsWithImage).flatMap (·.images) ≠ [] := by decide
  intro h
  rw [FoldsRun, if_neg hrun, hmerged, hbefore] at h
  obtain ⟨m, heq, -, -, hall⟩ := h
  rw [← (List.cons.inj heq).1] at hall
  exact himages hall.symm

end FerrisScope.TrailingUserRuns
