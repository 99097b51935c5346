import FerrisScope.ChatTurns

/-!
# Messages that are sent while a turn runs

A message that is sent while the turn loop runs is left to the loop. At the end of a turn the loop looks
whether the transcript is longer than it was at the last request and ends with a message of the
operator; only then it goes on. The message is overlooked when the transcript has become shorter
in between, and the other ways to end a turn do not look. When the turn is over, every message has been
in the request of a completed round, as long as none of this happens while a message waits, and no
compaction folds a waiting message into its summary.
-/

namespace FerrisScope.QueuedMessages
open ChatMessages ToolPairs SessionEvents ChatTurns LabelledRuns
open HostsFile (trim)

/-- A message of the operator that was in no request of a completed round since it was sent, and whether
the request of the round that goes on has it. -/
structure Pending where
  message : ChatMessage
  asked : Bool
  deriving DecidableEq

structure Watched where
  chat : State
  pending : List Pending
  deriving DecidableEq

/-- A message is pending from its push on. A request has the messages of the transcript it is made of. A
round is completed when the provider has answered. -/
def watch (x : Watched) (t : State) : Action → List Pending
  | .send _ _ | .autocontinue => x.pending ++ (t.messages.drop x.chat.messages.length).map (⟨·, false⟩)
  | .snapshot => x.pending.map fun p => { p with asked := x.chat.messages.contains p.message }
  | .reply _ _ => x.pending.filter fun p => !p.asked
  | _ => x.pending

def watchedStep (x : Watched) (a : Action) : Option Watched := (step x.chat a).map fun t => ⟨t, watch x t a⟩

/-- The loop is about to give up. -/
def roundsUsedUp : Turn → Bool
  | .running .top b => decide (maxToolRounds ≤ b.round)
  | _ => false

/-- No pending message is overlooked: when an answer is placed while one is pending, the transcript is
longer than at the request; no turn ends in another way while one is pending; and the head that a
compaction folds has none. -/
def Heeds (x : Watched) : Action → Prop
  | .place => x.pending ≠ [] → ∀ preRoundCount ∈ roundOf x.chat.turn, preRoundCount < x.chat.messages.length
  | .startRound => roundsUsedUp x.chat.turn = true → x.pending = []
  | .pushNotice => x.pending = []
  | .finish => x.pending = []
  | .summarise (some text) _ => trim text.toList ≠ [] →
      ∀ c ∈ x.chat.compaction, ∀ p ∈ x.pending, p.message ∈ x.chat.messages.drop c.headCount
  | _ => True

instance (x : Watched) : (a : Action) → Decidable (Heeds x a)
  | .place => inferInstanceAs (Decidable (x.pending ≠ [] →
      ∀ preRoundCount ∈ roundOf x.chat.turn, preRoundCount < x.chat.messages.length))
  | .startRound => inferInstanceAs (Decidable (roundsUsedUp x.chat.turn = true → x.pending = []))
  | .pushNotice => inferInstanceAs (Decidable (x.pending = []))
  | .finish => inferInstanceAs (Decidable (x.pending = []))
  | .summarise (some text) _ => inferInstanceAs (Decidable (trim text.toList ≠ [] →
      ∀ c ∈ x.chat.compaction, ∀ p ∈ x.pending, p.message ∈ x.chat.messages.drop c.headCount))
  | .send _ _ | .logSend _ _ | .spawn | .compact | .summarise none _ | .mend | .autocontinue | .note _ | .autoCompact _
  | .forceCompact | .mendOwn | .snapshot | .reply _ _ | .fail _ | .logReply _ | .runTools _ _ | .record
  | .logNotice _ => .isTrue trivial

/-- A request has been made, and its answer not been placed. -/
def inRound : Turn → Bool
  | .running (.streaming _ _) _ | .running (.replied _ _ _) _ | .running (.placing _ _ _) _ => true
  | _ => false

def isAnswered : Turn → Bool
  | .running (.replied _ _ _) _ | .running (.placing _ _ _) _ => true
  | _ => false

theorem inRound_of_isAnswered {turn : Turn} (h : isAnswered turn = true) : inRound turn = true := by
  unfold isAnswered at h
  split at h
  · rfl
  · rfl
  · cases h

/-- Pending messages are in the transcript, those of the round that goes on at its end. -/
structure Accounted (x : Watched) : Prop where
  present : ∀ p ∈ x.pending, p.message ∈ x.chat.messages ∧ isUser p.message = true
  last : inRound x.chat.turn = true → (∃ p ∈ x.pending, p.asked = false) → x.chat.messages.getLast?.any isUser = true
  answered : isAnswered x.chat.turn = true → ∀ p ∈ x.pending, p.asked = false
  idle : x.chat.turn = .idle → x.pending = []

section Repair

variable {messages out : List ChatMessage} {fixed : Nat}

theorem walked_of_repairToolPairs (h : repairToolPairs messages = .ok (out, fixed)) :
    ∃ walked n, Walked messages walked n ∧ out = retain [] walked := by
  rcases walked_or_outOfRange messages with ⟨walked, n, hwalked⟩ | hfault
  · rw [repairToolPairs_of_walked hwalked] at h
    cases h
    exact ⟨walked, n, hwalked, rfl⟩
  · have hwalk := hfault messages.length (Nat.le_refl _) [] 0
    rw [List.nil_append, List.length_nil] at hwalk
    rw [repairToolPairs, hwalk] at h
    cases h

/-- A message of the operator outlives a repair. -/
theorem mem_repaired {m : ChatMessage} (h : repairToolPairs messages = .ok (out, fixed)) (hm : isUser m = true)
    (hmem : m ∈ messages) : m ∈ out := by
  obtain ⟨walked, n, hwalked, rfl⟩ := walked_of_repairToolPairs h
  have hspoken : m ∈ spoken messages := List.mem_filter.mpr ⟨hmem, by rw [isTool_of_isUser hm]; rfl⟩
  rw [← spoken_walked hwalked, ← spoken_retain []] at hspoken
  exact List.mem_of_mem_filter hspoken

/-- After a message of the operator the second walk lets no results pass. -/
theorem retain_user {u : ChatMessage} {rest : List ChatMessage} (hu : isUser u = true)
    (hrest : ∀ r ∈ rest, isTool r = true) (allowed : List String) (xs : List ChatMessage) :
    retain allowed (xs ++ u :: rest) = retain allowed xs ++ [u] := by
  have hnone : retain [] rest = [] := by
    induction rest with
    | nil => rfl
    | cons r rest ih =>
      have hrole : r.role = .tool := by simpa [isTool] using hrest r List.mem_cons_self
      rw [retain, hrole, ih fun x hx => hrest x (List.mem_cons_of_mem r hx)]
      cases r.toolCallId <;> rfl
  induction xs generalizing allowed with
  | nil =>
    have hrole : u.role = .user := by simpa [isUser] using hu
    have hcons : retain allowed (u :: rest) = u :: retain [] rest := by rw [retain, hrole]
    rw [List.nil_append, hcons, hnone]
    rfl
  | cons m xs ih =>
    rw [List.cons_append, retain, retain]
    split
    · rw [ih, List.cons_append]
    · split
      · rw [ih, List.cons_append]
      · rw [ih]
    · rw [ih, List.cons_append]

/-- And it stays the last message. -/
theorem last_repaired (h : repairToolPairs messages = .ok (out, fixed)) (hlast : messages.getLast?.any isUser = true) :
    out.getLast?.any isUser = true := by
  obtain ⟨walked, n, hwalked, rfl⟩ := walked_of_repairToolPairs h
  obtain ⟨u, hu, huser⟩ : ∃ u, messages.getLast? = some u ∧ isUser u = true := by
    cases hu : messages.getLast? with
    | none =>
      rw [hu] at hlast
      cases hlast
    | some u => exact ⟨u, rfl, by rwa [hu] at hlast⟩
  obtain ⟨xs, rfl⟩ := List.getLast?_eq_some_iff.mp hu
  have hspoken : spoken walked = spoken xs ++ [u] := by
    rw [spoken_walked hwalked, spoken_append]
    simp [spoken, isTool_of_isUser huser]
  obtain ⟨front, back, rfl, -, hback⟩ := List.filter_eq_append_iff.mp hspoken
  obtain ⟨middle, rest, rfl, -, -, hrest⟩ := List.filter_eq_cons_iff.mp hback
  have htools : ∀ r ∈ rest, isTool r = true := by
    intro r hr
    simpa using List.filter_eq_nil_iff.mp hrest r hr
  rw [← List.append_assoc, retain_user huser htools, List.getLast?_concat]
  exact huser

end Repair

theorem intercalate_part {sep c : String} {cs : List String} (h : c ∈ cs) :
    ∃ before after, sep.intercalate cs = before ++ c ++ after := by
  induction cs with
  | nil => cases h
  | cons c' cs ih =>
    rcases List.mem_cons.mp h with rfl | h
    · cases cs with
      | nil => exact ⟨"", "", by simp⟩
      | cons c'' cs => exact ⟨"", sep ++ sep.intercalate (c'' :: cs), by simp [String.append_assoc]⟩
    · obtain ⟨before, after, hrest⟩ := ih h
      have hne : cs ≠ [] := List.ne_nil_of_mem h
      refine ⟨c' ++ sep ++ before, after, ?_⟩
      rw [String.intercalate_cons_of_ne_nil hne, hrest, String.append_assoc, String.append_assoc, String.append_assoc,
        String.append_assoc, String.append_assoc]

/-- The messages of a transcript are in the request that is made of it, each on its own or within the
message that the last ones are folded into. -/
theorem mem_mergeTrailingUserRun {messages : List ChatMessage} {m : ChatMessage} (hmem : m ∈ messages) :
    m ∈ mergeTrailingUserRun messages ∨ ∃ r ∈ mergeTrailingUserRun messages,
      isUser r = true ∧ ∃ before after, r.content = before ++ m.content ++ after := by
  unfold mergeTrailingUserRun
  split
  · exact .inl hmem
  · rename_i start _
    split
    · exact .inl hmem
    · rw [← List.take_append_drop start messages, List.mem_append] at hmem
      rcases hmem with htake | hdrop
      · exact .inl (List.mem_append_left _ htake)
      · exact .inr ⟨_, List.mem_append_right _ List.mem_cons_self, rfl, intercalate_part (List.mem_map_of_mem hdrop)⟩

section Steps

variable {x : Watched} {t : State}

/-- A step that says nothing new. -/
theorem Accounted.of_messages (h : Accounted x) (hmessages : t.messages = x.chat.messages)
    (hround : inRound t.turn = true → t.turn = x.chat.turn) (hidle : t.turn = .idle → x.pending = []) :
    Accounted ⟨t, x.pending⟩ where
  present := by
    dsimp only
    rw [hmessages]
    exact h.present
  last hin := by
    dsimp only at hin ⊢
    rw [hmessages]
    exact h.last (hround hin ▸ hin)
  answered hin := by
    dsimp only at hin ⊢
    exact h.answered (hround (inRound_of_isAnswered hin) ▸ hin)
  idle := hidle

/-- A step that keeps the pending messages and is not in a round. -/
theorem Accounted.of_present (h : Accounted x) (hmem : ∀ p ∈ x.pending, p.message ∈ t.messages)
    (hround : inRound t.turn = false) (hidle : t.turn = .idle → x.pending = []) : Accounted ⟨t, x.pending⟩ where
  present p hp := ⟨hmem p hp, (h.present p hp).2⟩
  last hin := by
    dsimp only at hin
    rw [hround] at hin
    cases hin
  answered hin := by
    have hin' := inRound_of_isAnswered hin
    dsimp only at hin'
    rw [hround] at hin'
    cases hin'
  idle := hidle

theorem accounted_push (h : Accounted x) {m : ChatMessage} (hm : isUser m = true) :
    Accounted ⟨x.chat.push m, x.pending ++ ((x.chat.push m).messages.drop x.chat.messages.length).map (⟨·, false⟩)⟩ := by
  have hmessages : (x.chat.push m).messages = x.chat.messages ++ [m] := by
    unfold State.push
    split <;> rfl
  have hnew : ((x.chat.push m).messages.drop x.chat.messages.length).map (fun m => (⟨m, false⟩ : Pending)) = [⟨m, false⟩] := by
    rw [hmessages, List.drop_left]
    rfl
  rw [hnew]
  refine ⟨fun p hp => ?_, fun _ _ => ?_, fun hin p hp => ?_, fun hidle => ?_⟩
  · dsimp only
    rw [hmessages]
    rcases List.mem_append.mp hp with hp | hp
    · exact ⟨List.mem_append_left _ (h.present p hp).1, (h.present p hp).2⟩
    · obtain rfl := List.mem_singleton.mp hp
      exact ⟨List.mem_append_right _ List.mem_cons_self, hm⟩
  · dsimp only
    rw [hmessages, List.getLast?_concat]
    exact hm
  · rcases List.mem_append.mp hp with hp | hp
    · refine h.answered ?_ p hp
      revert hin
      unfold State.push
      split
      · intro hin
        cases hin
      · exact id
    · rw [List.mem_singleton.mp hp]
  · exfalso
    revert hidle
    dsimp only
    unfold State.push
    split
    · intro hidle
      cases hidle
    · rename_i hnot
      exact hnot

/-- A repair of the transcript. -/
theorem accounted_repair (h : Accounted x) {messages : List ChatMessage} {fixed : Nat}
    (hrepair : repairToolPairs x.chat.messages = .ok (messages, fixed)) :
    Accounted ⟨{ x.chat with messages }, x.pending⟩ where
  present p hp := ⟨mem_repaired hrepair (h.present p hp).2 (h.present p hp).1, (h.present p hp).2⟩
  last hin hsome := last_repaired hrepair (h.last hin hsome)
  answered := h.answered
  idle := h.idle

/-- A request has every message that is pending. -/
theorem accounted_snapshot (h : Accounted x) (request : List ChatMessage) (preRoundCount : Nat) (b : Budget) :
    Accounted ⟨x.chat.moveTo (.streaming request preRoundCount) b,
      x.pending.map fun p => { p with asked := x.chat.messages.contains p.message }⟩ where
  present p hp := by
    obtain ⟨p', hp', rfl⟩ := List.mem_map.mp hp
    exact h.present p' hp'
  last _ hsome := by
    obtain ⟨p, hp, hasked⟩ := hsome
    obtain ⟨p', hp', rfl⟩ := List.mem_map.mp hp
    have hmem : x.chat.messages.contains p'.message = true := List.contains_iff_mem.mpr (h.present p' hp').1
    cases hasked.symm.trans hmem
  answered hin := by cases hin
  idle hidle := by cases hidle

/-- The answer to a request completes the round. -/
theorem accounted_reply (h : Accounted x) {request : List ChatMessage} {preRoundCount : Nat} {b b' : Budget} {pc : Pc}
    (hturn : x.chat.turn = .running (.streaming request preRoundCount) b) (hmessages : t.messages = x.chat.messages)
    (hturn' : t.turn = .running pc b') : Accounted ⟨t, x.pending.filter fun p => !p.asked⟩ where
  present p hp := by
    dsimp only
    rw [hmessages]
    exact h.present p (List.mem_of_mem_filter hp)
  last _ hsome := by
    obtain ⟨p, hp, hasked⟩ := hsome
    dsimp only
    rw [hmessages]
    exact h.last (by rw [hturn]; rfl) ⟨p, List.mem_of_mem_filter hp, hasked⟩
  answered _ p hp := by simpa using (List.mem_filter.mp hp).2
  idle hidle := by
    cases hturn'.symm.trans hidle

/-- When no message is overlooked, a turn that ends with an answer leaves none. -/
theorem accounted_place (h : Accounted x) {reply : ChatMessage} {finishReason : FinishReason} {preRoundCount : Nat}
    {b : Budget} (hturn : x.chat.turn = .running (.placing reply finishReason preRoundCount) b)
    (hheeds : x.pending ≠ [] → preRoundCount < x.chat.messages.length) :
    Accounted ⟨place x.chat b reply preRoundCount, x.pending⟩ := by
  obtain ⟨turn, heq, hturn'⟩ := place_effect x.chat b reply preRoundCount
  have hmem : ∀ p ∈ x.pending, p.message ∈ (place x.chat b reply preRoundCount).messages := by
    intro p hp
    rw [place_messages, List.mem_insertIdx (Nat.sub_le ..)]
    exact .inr (h.present p hp).1
  rw [heq] at hmem ⊢
  rcases hturn' with ⟨-, rfl⟩ | ⟨hqueued, rfl⟩
  · exact h.of_present hmem rfl fun hidle => by cases hidle
  · refine h.of_present hmem rfl fun _ => ?_
    by_contra hpending
    obtain ⟨p, hp⟩ := List.exists_mem_of_ne_nil _ hpending
    have hasked := h.answered (by rw [hturn]; rfl) p hp
    have hlast := h.last (by rw [hturn]; rfl) ⟨p, hp, hasked⟩
    rw [userQueuedDuringRound, hlast, decide_eq_true (hheeds hpending)] at hqueued
    cases hqueued

/-- A compaction that keeps the pending messages. -/
theorem accounted_replaceHead (h : Accounted x) (c : Compaction) (summary : String) (ts : Int64)
    (hkept : ∀ p ∈ x.pending, p.message ∈ x.chat.messages.drop c.headCount) :
    Accounted ⟨x.chat.replaceHead c summary ts, x.pending⟩ where
  present p hp := ⟨List.mem_cons_of_mem _ (hkept p hp), (h.present p hp).2⟩
  last hin hsome := by
    obtain ⟨p, hp, hasked⟩ := hsome
    have hne : x.chat.messages.drop c.headCount ≠ [] := List.ne_nil_of_mem (hkept p hp)
    have hlast := h.last hin ⟨p, hp, hasked⟩
    have htail : (checkpoint summary :: x.chat.messages.drop c.headCount).getLast? = x.chat.messages.getLast? := by
      have hlen : ¬x.chat.messages.length ≤ c.headCount := fun hle => hne (List.drop_eq_nil_of_le hle)
      have hdrop : (x.chat.messages.drop c.headCount).getLast? = x.chat.messages.getLast? := by
        rw [List.getLast?_drop, if_neg hlen]
      rw [← hdrop]
      obtain ⟨m, tail, htail⟩ := List.exists_cons_of_ne_nil hne
      rw [htail, List.getLast?_cons_cons]
    change (checkpoint summary :: x.chat.messages.drop c.headCount).getLast?.any isUser = true
    rwa [htail]
  answered := h.answered
  idle := h.idle

theorem accounted_step (x : Watched) (a : Action) (y : Watched) (hheeds : Heeds x a) (h : Accounted x)
    (hstep : watchedStep x a = some y) : Accounted y := by
  obtain ⟨t, ht, rfl⟩ := Option.map_eq_some_iff.mp hstep
  have hnot {pc : Pc} {b : Budget} (hpc : t.turn = .running pc b) : t.turn = .idle → x.pending = [] :=
    fun hidle => by cases hpc.symm.trans hidle
  cases step_inv ht with
  | send => exact accounted_push h rfl
  | @autocontinue n _ _ =>
    have hsame : Accounted ⟨{ x.chat with continues := n }, x.pending⟩ := ⟨h.present, h.last, h.answered, h.idle⟩
    exact accounted_push hsame rfl
  | @autocontinueNot n _ =>
    have hnone : watch x { x.chat with continues := n } .autocontinue = x.pending := by
      rw [watch, List.drop_length, List.map_nil, List.append_nil]
    rw [hnone]
    exact h.of_messages rfl (fun _ => rfl) h.idle
  | @logSend k p ts hk =>
    refine h.of_messages rfl (fun hin => ?_) (fun hidle => ?_)
    · dsimp only at hin ⊢
      split at hin
      · cases hin
      · rename_i hstarts
        rw [if_neg hstarts]
    · dsimp only at hidle
      split at hidle
      · cases hidle
      · exact h.idle hidle
  | spawn hturn => exact h.of_messages rfl (fun hin => by cases hin) (hnot rfl)
  | @withdraw c summary ts hc =>
    obtain ⟨turn, n, heq, rfl | ⟨forced, b, hturn, rfl⟩⟩ := withdraw_effect x.chat c
    · rw [heq]
      exact h.of_messages rfl (fun _ => rfl) h.idle
    · rw [heq]
      refine h.of_messages rfl (fun hin => ?_) (fun hidle => by cases hidle)
      cases forced <;> cases hin
  | @replace c summary ts hc hsummary hlen =>
    have hreplaced := accounted_replaceHead h c (String.ofList (trim summary.toList)) ts (hheeds hsummary c hc)
    obtain ⟨turn, n, heq, rfl | ⟨forced, b, hturn, rfl⟩⟩ :=
      replace_effect x.chat c (String.ofList (trim summary.toList)) ts
    · rw [heq]
      exact hreplaced.of_messages rfl (fun _ => rfl) h.idle
    · rw [heq]
      exact hreplaced.of_messages rfl (fun hin => by cases hin) (fun hidle => by cases hidle)
  | mend hn hrepair => exact (accounted_repair h hrepair).of_messages rfl (fun _ => rfl) h.idle
  | startRound hturn hrepair =>
    exact (accounted_repair h hrepair).of_messages rfl (fun hin => by cases hin) (fun hidle => by cases hidle)
  | @mendOwn forced b messages fixed hturn hrepair =>
    refine (accounted_repair h hrepair).of_messages rfl (fun hin => ?_) (fun hidle => by cases hidle)
    cases forced <;> cases hin
  | snapshot hturn => exact accounted_snapshot h _ _ _
  | @reply request pre b final ts hturn =>
    obtain ⟨total, records, pc, b', heq, -, -⟩ := takeReply_effect x.chat b pre final ts
    exact accounted_reply h hturn (by rw [heq]) (by rw [heq])
  | @fail request pre b e hturn =>
    obtain ⟨pc, b', heq, hpc⟩ := takeFailure_effect x.chat b e
    rw [heq]
    refine h.of_messages rfl (fun hin => ?_) (fun hidle => by cases hidle)
    cases hpc <;> cases hin
  | logReply hturn =>
    refine ⟨h.present, fun _ => h.last (by rw [hturn]; rfl), fun _ => h.answered (by rw [hturn]; rfl), fun hidle => ?_⟩
    cases hidle
  | @place reply finishReason pre b hturn htools =>
    exact accounted_place h hturn fun hpending => hheeds hpending pre (by rw [hturn]; rfl)
  | runTools hturn _ _ =>
    exact h.of_present (fun p hp => List.mem_append_left _ (h.present p hp).1) rfl (hnot rfl)
  | roundLimit hturn hlimit =>
    refine h.of_messages rfl (fun hin => by cases hin) fun _ => hheeds ?_
    rw [hturn]
    exact decide_eq_true hlimit
  | pushNotice hturn =>
    exact h.of_present (fun p hp => List.mem_append_left _ (h.present p hp).1) (by dsimp only; split <;> rfl)
      fun _ => hheeds
  | finish hturn => exact h.of_messages rfl (fun hin => by cases hin) fun _ => hheeds
  | compact _ => exact h.of_messages rfl (fun _ => rfl) h.idle
  | compactNot => exact h.of_messages rfl (fun _ => rfl) h.idle
  | note _ _ => exact h.of_messages rfl (fun _ => rfl) h.idle
  | autoCompact hturn _ => exact h.of_messages rfl (fun hin => by cases hin) (hnot rfl)
  | autoCompactNot hturn => exact h.of_messages rfl (fun hin => by cases hin) (hnot rfl)
  | forceCompact hturn _ => exact h.of_messages rfl (fun hin => by cases hin) (hnot rfl)
  | forceCompactNot hturn => exact h.of_messages rfl (fun hin => by cases hin) (hnot rfl)
  | recorded hturn => exact h.of_messages rfl (fun hin => by cases hin) (hnot rfl)
  | record hturn => exact h.of_messages rfl (fun hin => by cases hin) (hnot rfl)
  | logNotice hturn => exact h.of_messages rfl (fun hin => by cases hin) (hnot rfl)

end Steps

/-- Four questions that were answered. -/
def longLog : List SessionEvent :=
  [.message (userMessage "1" []) 1, .message (notice "a".toList) 2, .message (userMessage "2" []) 3,
    .message (notice "b".toList) 4, .message (userMessage "3" []) 5, .message (notice "c".toList) 6,
    .message (userMessage "4" []) 7, .message (notice "d".toList) 8]

def longChat : State := { emptyChat with messages := replay longLog, log := longLog }

/-- A second message comes in during the round, and gets a round of its own. -/
def followedUp : List Action :=
  [.send "why is web down?" [], .logSend 0 11, .spawn, .startRound, .autoCompact 90, .snapshot, .send "and api?" [],
    .logSend 0 12, .reply { text := "web-0 is pending." } 13, .logReply 14, .place, .startRound, .autoCompact 90,
    .snapshot, .reply { text := "api runs." } 15, .logReply 16, .place]

def followedUpChat : Watched := (run watchedStep ⟨longChat, []⟩ followedUp).getD ⟨longChat, []⟩

/-- The same with a compaction by hand after the second message: the transcript is then shorter than it was at
the request, and the turn ends. -/
def compacted : List Action :=
  [.send "why is web down?" [], .logSend 0 11, .spawn, .startRound, .autoCompact 90, .snapshot, .compact,
    .send "and api?" [], .logSend 0 12, .summarise (some "four questions") 13, .mend, .autocontinue,
    .reply { text := "web-0 is pending." } 14, .logReply 15, .place]

end FerrisScope.QueuedMessages
