import FerrisScope.ChatTurns

/-!
# A turn comes to an end

The loop of one turn, with the world around it: what the provider and the tools answer, and which
messages are queued before each time that the loop takes the lock. A failed round gives back the round it
took, an answer renews two of the budgets, and a queued message starts the count of rounds anew. The loop
ends in a return, or with the panic of a repair.
-/

namespace FerrisScope.TurnRounds
open ChatMessages ToolPairs SessionEvents ProviderErrors ChatTurns
open HostsFile (Text trim)
open TurnGate (Gate)

def queuedBefore (queued : Nat → List (String × List ImageAttachment)) : Nat → Nat
  | 0 => 0
  | t + 1 => queuedBefore queued t + (queued t).length

/-- The world, by the number of times that the loop has taken the lock. Only so many messages are queued. -/
structure World where
  queued : Nat → List (String × List ImageAttachment)
  total : Nat
  finite : ∀ t, queuedBefore queued t ≤ total
  provider : Nat → Except ProviderError CompletionFinal
  summary : Nat → Option String
  trigger : Nat → UInt32
  tool : Nat → ToolCall → String × Bool

/-- The chat as the loop has it, with the number of provider calls and the transcripts it repaired. -/
structure Chat where
  messages : List ChatMessage
  gate : Gate
  lastTotalTokens : UInt32
  compactionInFlight : Bool
  holds : Nat := 0
  calls : Nat := 0
  repairs : List (List ChatMessage) := []

namespace Chat

/-- The lock is taken: what was queued until now is in the transcript. -/
def lock (W : World) (c : Chat) : Chat := { c with
  messages := c.messages ++ (W.queued c.holds).map fun m => userMessage m.1 m.2
  gate := (W.queued c.holds).foldl (fun gate _ => gate.claim.2) c.gate
  holds := c.holds + 1 }

def push (c : Chat) (m : ChatMessage) : Chat := { c with messages := c.messages ++ [m] }

def finish (c : Chat) : Chat := { c with gate := c.gate.finish }

end Chat

/-- A repair that panics is an error. -/
def repairOrphanToolCalls (W : World) (c : Chat) : Except Chat Chat :=
  let c := c.lock W
  let c := { c with repairs := c.repairs ++ [c.messages] }
  match repairToolPairs c.messages with
  | .error _ => .error c
  | .ok (messages, _) => .ok { c with messages }

/-- Splitting off more than there is panics, too. -/
def replaceHead (W : World) (c : Chat) (headCount : Nat) (summary : Text) : Except Chat Chat :=
  if headCount ≤ c.messages.length then
    repairOrphanToolCalls W { c with
      messages := checkpoint (String.ofList summary) :: c.messages.drop headCount
      lastTotalTokens := 0
      compactionInFlight := false }
  else .error c

def runCompactionInternal (W : World) (force : Bool) (c : Chat) : Except Chat Chat :=
  let c := c.lock W
  if c.compactionInFlight || decide (c.messages.length ≤ compactionTailKeep + 2) ||
      (!force && (c.lastTotalTokens == 0 || decide (c.lastTotalTokens < W.trigger c.holds))) then .ok c
  else
    let c := c.lock W
    if c.compactionInFlight || decide (c.messages.length ≤ compactionTailKeep + 2) then .ok c
    else
      let headCount := headCountOf c.messages
      let answer := W.summary c.holds
      let c := Chat.lock W { c with compactionInFlight := true, calls := c.calls + 1 }
      match answer.map fun text => trim text.toList with
      | none => .ok { c with compactionInFlight := false }
      | some [] => .ok { c with compactionInFlight := false }
      | some summary => replaceHead W c headCount summary

inductive RoundOutcome where
  | continued (final : CompletionFinal)
  | stopped
  | retryAfterCompaction (originalError : Text)
  | emptyTurn
  | usageLimited
  | transientFailure (originalError : Text)

def runProviderRound (W : World) (c : Chat) : RoundOutcome × Chat :=
  let result := W.provider c.holds
  let c := { c with calls := c.calls + 1 }
  match result with
  | .ok final =>
    let c := match final.usage with
      | none => c
      | some u => { c.lock W with lastTotalTokens := u.total }
    if trim final.text.toList = [] ∧ final.toolCalls = [] then (.emptyTurn, c) else (.continued final, c)
  | .error e =>
    match classOf e with
    | .cancelled => (.stopped, c)
    | .usageLimited reason => (.usageLimited, (c.lock W).push (notice (usageLimitText reason (redactSecrets (display e)))))
    | .overflow => (.retryAfterCompaction (display e), c)
    | .transient => (.transientFailure (display e), c)
    | .other => (.stopped, (c.lock W).push (notice (failedText (redactSecrets (display e)))))

/-- The answer is placed. With tool calls their results come behind it; without them the turn goes on only if a
message came in. -/
def placeAnswer (W : World) (preRoundCount : Nat) (b : Budget) (final : CompletionFinal) (c : Chat) :
    Chat × Option Budget :=
  let reply := assistantMessage final
  let b := { b with emptyRetries := 0, transientRetries := 0 }
  if runsTools reply final.finishReason then
    let outcomes := final.toolCalls.map fun tc => ToolOutcome.mk tc (W.tool c.holds tc).1 (W.tool c.holds tc).2
    let c := c.lock W
    ({ c with messages := c.messages ++ reply :: outcomes.map toolMessage }, some b)
  else
    let c := c.lock W
    if userQueuedDuringRound c.messages preRoundCount then
      let start := (trailingUserRunStart c.messages).getD c.messages.length
      ({ c with messages := c.messages.insertIdx start reply }, some { b with round := 0 })
    else ((c.push reply).finish, none)

/-- The chat after the round, and the budget to go on with unless the loop has returned. -/
def afterRound (W : World) (preRoundCount : Nat) (b : Budget) (outcome : RoundOutcome) (c : Chat) :
    Except Chat (Chat × Option Budget) :=
  match outcome with
  | .continued final => .ok (placeAnswer W preRoundCount b final c)
  | .stopped => .ok ((c.lock W).finish, none)
  | .usageLimited => .ok ((c.lock W).finish, none)
  | .retryAfterCompaction originalError =>
    if maxOverflowRecoveries ≤ b.overflowRecoveries then
      .ok (((c.lock W).push (notice (overflowText originalError))).finish, none)
    else
      (runCompactionInternal W true c).map fun c =>
        (c, some { b with overflowRecoveries := b.overflowRecoveries + 1, round := b.round - 1 })
  | .emptyTurn =>
    if maxEmptyRetries ≤ b.emptyRetries then .ok (((c.lock W).push (notice emptyText)).finish, none)
    else .ok (c, some { b with emptyRetries := b.emptyRetries + 1, round := b.round - 1 })
  | .transientFailure originalError =>
    if maxTransientRetries ≤ b.transientRetries then
      .ok (((c.lock W).push (notice (exhaustedText originalError))).finish, none)
    else .ok (c, some { b with transientRetries := b.transientRetries + 1, round := b.round - 1 })

/-- The body of the loop. -/
def turnRound (W : World) (c : Chat) (b : Budget) : Except Chat (Chat × Option Budget) :=
  if maxToolRounds ≤ b.round then .ok ((c.lock W).finish, none)
  else
    (repairOrphanToolCalls W c).bind fun c => (runCompactionInternal W false c).bind fun c =>
      let c := c.lock W
      let (outcome, answered) := runProviderRound W c
      afterRound W c.messages.length { b with round := b.round + 1 } outcome answered

/-- The loop, for so many turns: the chat at its return, or at its panic. -/
def runTurnRounds (W : World) : Nat → Chat → Budget → Option (Except Chat Chat)
  | 0, _, _ => none
  | turns + 1, c, b =>
    match turnRound W c b with
    | .error c => some (.error c)
    | .ok (c, none) => some (.ok c)
    | .ok (c, some b) => runTurnRounds W turns c b

/-! ## What is left -/

/-- How many messages are still to be queued. -/
def left (W : World) (c : Chat) : Nat := W.total - queuedBefore W.queued c.holds

/-- A success takes a round and renews two of the other budgets, a failure takes from its own budget only. -/
def allowance (b : Budget) : Nat :=
  (maxToolRounds - b.round) * (maxEmptyRetries + maxTransientRetries + 1) + (maxEmptyRetries - b.emptyRetries) +
    (maxTransientRetries - b.transientRetries) + (maxOverflowRecoveries - b.overflowRecoveries)

/-- A message that is queued renews the whole allowance. -/
def potential (W : World) (c : Chat) (b : Budget) : Nat := left W c * allowance {} + allowance b

/-- With the limits as numbers. -/
theorem allowance_eq (b : Budget) : allowance b =
    (500 - b.round) * 8 + (2 - b.emptyRetries) + (5 - b.transientRetries) + (2 - b.overflowRecoveries) := rfl

theorem left_lock (W : World) (c : Chat) : left W (c.lock W) + (W.queued c.holds).length = left W c := by
  have hfinite := W.finite (c.holds + 1)
  have hnext : queuedBefore W.queued (c.holds + 1) = queuedBefore W.queued c.holds + (W.queued c.holds).length := rfl
  rw [hnext] at hfinite
  change W.total - queuedBefore W.queued (c.holds + 1) + _ = W.total - queuedBefore W.queued c.holds
  rw [hnext]
  omega

theorem length_lock (W : World) (c : Chat) :
    (c.lock W).messages.length = c.messages.length + (W.queued c.holds).length := by
  change (c.messages ++ (W.queued c.holds).map fun m => userMessage m.1 m.2).length = _
  rw [List.length_append, List.length_map]

/-- What comes in while the lock is free is in the transcript afterwards. -/
theorem lock_conserves (W : World) (c : Chat) :
    (c.lock W).messages.length + left W (c.lock W) = c.messages.length + left W c := by
  have hleft := left_lock W c
  have hlength := length_lock W c
  omega

/-- One chat comes from another by at most so many provider calls, and every repair on the way was possible. -/
structure Follows (W : World) (calls : Nat) (c d : Chat) : Prop where
  left : left W d ≤ left W c
  calls : d.calls ≤ c.calls + calls
  repairs : ∃ transcripts, d.repairs = c.repairs ++ transcripts ∧ ∀ t ∈ transcripts, Roomy t

/-- The last repair was not possible. -/
def Fails (c d : Chat) : Prop := ∃ transcripts t, d.repairs = c.repairs ++ transcripts ++ [t] ∧ ¬ Roomy t

/-- What an operation on the chat comes to. -/
def Safe (W : World) (calls : Nat) (c : Chat) : Except Chat Chat → Prop
  | .ok d => Follows W calls c d
  | .error d => Fails c d

namespace Follows

variable {W : World} {c d e : Chat} {m n : Nat}

theorem refl (c : Chat) : Follows W 0 c c :=
  ⟨Nat.le_refl _, Nat.le_refl _, [], (List.append_nil _).symm, fun _ ht => absurd ht List.not_mem_nil⟩

/-- With some more provider calls and another transcript or gate. -/
theorem update (h : Follows W m c d) (k : Nat) (hholds : e.holds = d.holds) (hcalls : e.calls = d.calls + k)
    (hrepairs : e.repairs = d.repairs) : Follows W (m + k) c e := by
  have hleft := h.left
  have hle := h.calls
  refine ⟨?_, by omega, by rw [hrepairs]; exact h.repairs⟩
  rw [TurnRounds.left, hholds]
  exact hleft

theorem lock (h : Follows W m c d) : Follows W m c (d.lock W) := by
  have hlocked := left_lock W d
  have hleft := h.left
  exact ⟨by omega, h.calls, h.repairs⟩

theorem trans (h : Follows W m c d) (h' : Follows W n d e) : Follows W (m + n) c e := by
  obtain ⟨ts, hts, hroomy⟩ := h.repairs
  obtain ⟨ts', hts', hroomy'⟩ := h'.repairs
  have hcalls := h.calls
  have hcalls' := h'.calls
  refine ⟨h'.left.trans h.left, by omega, ts ++ ts', ?_, fun t ht => ?_⟩
  · rw [hts', hts, List.append_assoc]
  · rcases List.mem_append.mp ht with ht | ht
    · exact hroomy t ht
    · exact hroomy' t ht

theorem mono (h : Follows W m c d) (hle : m ≤ n) : Follows W n c d :=
  ⟨h.left, h.calls.trans (Nat.add_le_add_left hle _), h.repairs⟩

theorem fails (h : Follows W m c d) (h' : Fails d e) : Fails c e := by
  obtain ⟨ts, hts, -⟩ := h.repairs
  obtain ⟨ts', t, ht, hnot⟩ := h'
  exact ⟨ts ++ ts', t, by rw [ht, hts, List.append_assoc c.repairs], hnot⟩

theorem safe (h : Follows W m c d) {r : Except Chat Chat} (h' : Safe W n d r) : Safe W (m + n) c r := by
  cases r with
  | ok e => exact h.trans h'
  | error e => exact h.fails h'

end Follows

theorem repair_safe (W : World) (c : Chat) : Safe W 0 c (repairOrphanToolCalls W c) := by
  rw [repairOrphanToolCalls]
  dsimp only
  split
  · rename_i fault hrepair
    refine ⟨[], (c.lock W).messages, ?_, fun hroomy => ?_⟩
    · rw [List.append_nil]
      rfl
    · obtain ⟨repaired, hok⟩ := repaired_of_roomy hroomy
      rw [hok] at hrepair
      cases hrepair
  · rename_i messages fixed hrepair
    have hlock := (Follows.refl (W := W) c).lock
    refine ⟨hlock.left, hlock.calls, [(c.lock W).messages], rfl, fun t ht => ?_⟩
    rw [List.mem_singleton.mp ht]
    exact roomy_of_repaired hrepair

theorem headCountOf_le (messages : List ChatMessage) : headCountOf messages ≤ messages.length := by
  rw [headCountOf]
  have htake := (List.takeWhile_sublist isTool (l := messages.drop (messages.length - compactionTailKeep))).length_le
  rw [List.length_drop] at htake
  omega

theorem replaceHead_safe {W : World} {m headCount : Nat} {c d : Chat} {summary : Text} (h : Follows W m c d)
    (hle : headCount ≤ d.messages.length) : Safe W m c (replaceHead W d headCount summary) := by
  rw [replaceHead, if_pos hle]
  exact (h.update (e := { d with
    messages := checkpoint (String.ofList summary) :: d.messages.drop headCount
    lastTotalTokens := 0
    compactionInFlight := false }) 0 rfl rfl rfl).safe (repair_safe W _)

/-- The chat when the summary is there. -/
def summarised (W : World) (c : Chat) : Chat :=
  Chat.lock W { (c.lock W).lock W with compactionInFlight := true, calls := ((c.lock W).lock W).calls + 1 }

/-- What a compaction can come to. -/
inductive Compacted (W : World) (c : Chat) : Except Chat Chat → Prop
  | unneeded : Compacted W c (.ok (c.lock W))
  | taken : Compacted W c (.ok ((c.lock W).lock W))
  | unanswered : Compacted W c (.ok { summarised W c with compactionInFlight := false })
  | replaced {headCount summary} (hle : headCount ≤ (summarised W c).messages.length) :
      Compacted W c (replaceHead W (summarised W c) headCount summary)

/-- While the summary is written the transcript only grows. -/
theorem runCompaction_cases (W : World) (force : Bool) (c : Chat) : Compacted W c (runCompactionInternal W force c) := by
  rw [runCompactionInternal]
  dsimp only
  split
  · exact .unneeded
  · split
    · exact .taken
    · split
      · exact .unanswered
      · exact .unanswered
      · refine .replaced ?_
        rw [summarised, length_lock]
        exact (headCountOf_le _).trans (Nat.le_add_right _ _)

theorem runCompaction_safe (W : World) (force : Bool) (c : Chat) : Safe W 1 c (runCompactionInternal W force c) := by
  have hlock := (Follows.refl (W := W) c).lock
  have hsummarised : Follows W 1 c (summarised W c) := (hlock.lock.update (e := { (c.lock W).lock W with
    compactionInFlight := true, calls := ((c.lock W).lock W).calls + 1 }) 1 rfl rfl rfl).lock
  have hcases := runCompaction_cases W force c
  generalize runCompactionInternal W force c = result at hcases
  cases hcases with
  | unneeded => exact hlock.mono (Nat.zero_le _)
  | taken => exact hlock.lock.mono (Nat.zero_le _)
  | unanswered => exact hsummarised.update 0 rfl rfl rfl
  | replaced hle => exact replaceHead_safe hsummarised hle

/-- The chat when the provider has been called. -/
def called (c : Chat) : Chat := { c with calls := c.calls + 1 }

/-- What a call of the provider can come to. -/
inductive Answered (W : World) (c : Chat) : RoundOutcome × Chat → Prop
  | uncounted {outcome} (hanswer : ∀ final, outcome = .continued final → W.provider c.holds = .ok final) :
      Answered W c (outcome, called c)
  | counted {outcome} (hanswer : ∀ final, outcome = .continued final → W.provider c.holds = .ok final)
      (tokens : UInt32) : Answered W c (outcome, { (called c).lock W with lastTotalTokens := tokens })
  | noted {outcome} (hfailed : ∀ final, outcome ≠ .continued final) (text : Text) :
      Answered W c (outcome, ((called c).lock W).push (notice text))

theorem runProviderRound_cases (W : World) (c : Chat) : Answered W c (runProviderRound W c) := by
  rw [runProviderRound]
  dsimp only
  cases hanswer : W.provider c.holds with
  | ok final =>
    have hcontinued : ∀ f, RoundOutcome.continued final = .continued f → W.provider c.holds = .ok f := by
      intro f hf
      rw [hanswer, RoundOutcome.continued.inj hf]
    dsimp only
    cases final.usage with
    | none =>
      split
      · exact .uncounted fun _ hf => by cases hf
      · exact .uncounted hcontinued
    | some u =>
      split
      · exact .counted (fun _ hf => by cases hf) u.total
      · exact .counted hcontinued u.total
  | error e =>
    dsimp only
    cases classOf e with
    | cancelled => exact .uncounted fun _ hf => by cases hf
    | usageLimited reason => exact .noted (fun _ hf => by cases hf) _
    | overflow => exact .uncounted fun _ hf => by cases hf
    | transient => exact .uncounted fun _ hf => by cases hf
    | other => exact .noted (fun _ hf => by cases hf) _

theorem runProviderRound_follows (W : World) (c : Chat) : Follows W 1 c (runProviderRound W c).2 := by
  have hcalled : Follows W 1 c (called c) := (Follows.refl c).update 1 rfl rfl rfl
  have hcases := runProviderRound_cases W c
  generalize runProviderRound W c = result at hcases
  cases hcases with
  | uncounted => exact hcalled
  | counted => exact hcalled.lock.update 0 rfl rfl rfl
  | noted => exact hcalled.lock.update 0 rfl rfl rfl

/-- With an answer the transcript has grown by what came in, and by nothing else. -/
theorem runProviderRound_continued {W : World} {c d : Chat} {final : CompletionFinal}
    (h : runProviderRound W c = (.continued final, d)) :
    W.provider c.holds = .ok final ∧ d.messages.length + left W d = c.messages.length + left W c := by
  have hcases := runProviderRound_cases W c
  rw [h] at hcases
  cases hcases with
  | uncounted hanswer => exact ⟨hanswer final rfl, rfl⟩
  | counted hanswer => exact ⟨hanswer final rfl, lock_conserves W (called c)⟩
  | noted hfailed => exact absurd rfl (hfailed final)

/-! ## A turn of the loop -/

/-- What a turn of the loop comes to: the panic of a repair, the return with the gate released, or another turn
with less left. -/
inductive Turned (W : World) (c : Chat) (b : Budget) : Except Chat (Chat × Option Budget) → Prop
  | fails {d} (h : Fails c d) : Turned W c b (.error d)
  | returns {d} (h : Follows W 3 c d) (hgate : d.gate.busy = false) : Turned W c b (.ok (d, none))
  | goesOn {d b'} (h : Follows W 3 c d) (hless : potential W d b' < potential W c b) : Turned W c b (.ok (d, some b'))

theorem potential_lt_of_allowance {W : World} {c d : Chat} {b b' : Budget} (hleft : left W d ≤ left W c)
    (hless : allowance b' < allowance b) : potential W d b' < potential W c b :=
  Nat.add_lt_add_of_le_of_lt (Nat.mul_le_mul_right _ hleft) hless

/-- A message that came in pays for a new count of rounds. -/
theorem potential_lt_of_left {W : World} {c d : Chat} {b b' : Budget} (hleft : left W d < left W c)
    (hless : allowance b' < allowance {} + allowance b) : potential W d b' < potential W c b := by
  have hmul : (left W d + 1) * allowance {} ≤ left W c * allowance {} := Nat.mul_le_mul_right _ hleft
  rw [Nat.add_mul, Nat.one_mul] at hmul
  rw [potential, potential]
  omega

theorem released (c : Chat) : c.finish.gate.busy = false := rfl

/-- `e` is the chat at the request, and `d` the chat with the answer. -/
theorem placeAnswer_turned {W : World} {c d e : Chat} {b : Budget} {final : CompletionFinal}
    (hround : b.round < maxToolRounds) (h : Follows W 2 c d) (hleft : left W e ≤ left W c)
    (hconserves : d.messages.length + left W d = e.messages.length + left W e) :
    Turned W c b (.ok (placeAnswer W e.messages.length { b with round := b.round + 1 } final d)) := by
  have hlock := h.lock.mono (n := 3) (by omega)
  have hlimit : b.round < 500 := hround
  rw [placeAnswer]
  dsimp only
  split
  · refine .goesOn (hlock.update 0 rfl rfl rfl) (potential_lt_of_allowance hlock.left ?_)
    simp only [allowance_eq]
    omega
  · split
    · rename_i hqueued
      refine .goesOn (hlock.update 0 rfl rfl rfl) (potential_lt_of_left ?_ ?_)
      · rw [userQueuedDuringRound, Bool.and_eq_true, decide_eq_true_eq] at hqueued
        have hgrown := hqueued.1
        have hlocked := lock_conserves W d
        change left W (d.lock W) < left W c
        omega
      · simp only [allowance_eq]
        omega
    · exact .returns (hlock.update 0 rfl rfl rfl) (released _)

theorem afterRound_turned {W : World} {c d e : Chat} {b : Budget} {outcome : RoundOutcome}
    (hround : b.round < maxToolRounds) (h : Follows W 2 c d) (hleft : left W e ≤ left W c)
    (hconserves : ∀ final, outcome = .continued final → d.messages.length + left W d = e.messages.length + left W e) :
    Turned W c b (afterRound W e.messages.length { b with round := b.round + 1 } outcome d) := by
  have hsame := h.mono (n := 3) (by omega)
  have hlock := h.lock.mono (n := 3) (by omega)
  have hlimit : b.round < 500 := hround
  cases outcome with
  | continued final => exact placeAnswer_turned hround h hleft (hconserves final rfl)
  | stopped => exact .returns (hlock.update 0 rfl rfl rfl) (released _)
  | usageLimited => exact .returns (hlock.update 0 rfl rfl rfl) (released _)
  | retryAfterCompaction originalError =>
    rw [afterRound]
    dsimp only
    split
    · exact .returns (hlock.update 0 rfl rfl rfl) (released _)
    · rename_i hrecoveries
      have hfree : ¬2 ≤ b.overflowRecoveries := hrecoveries
      have hsafe := h.safe (runCompaction_safe W true d)
      cases hcompacted : runCompactionInternal W true d with
      | error f =>
        rw [hcompacted] at hsafe
        exact .fails hsafe
      | ok f =>
        rw [hcompacted] at hsafe
        refine .goesOn hsafe (potential_lt_of_allowance hsafe.left ?_)
        simp only [allowance_eq]
        omega
  | emptyTurn =>
    rw [afterRound]
    dsimp only
    split
    · exact .returns (hlock.update 0 rfl rfl rfl) (released _)
    · rename_i hretries
      have hfree : ¬2 ≤ b.emptyRetries := hretries
      refine .goesOn hsame (potential_lt_of_allowance h.left ?_)
      simp only [allowance_eq]
      omega
  | transientFailure originalError =>
    rw [afterRound]
    dsimp only
    split
    · exact .returns (hlock.update 0 rfl rfl rfl) (released _)
    · rename_i hretries
      have hfree : ¬5 ≤ b.transientRetries := hretries
      refine .goesOn hsame (potential_lt_of_allowance h.left ?_)
      simp only [allowance_eq]
      omega

theorem turnRound_turned (W : World) (c : Chat) (b : Budget) : Turned W c b (turnRound W c b) := by
  rw [turnRound]
  split
  · exact .returns (((Follows.refl c).lock.mono (Nat.zero_le 3)).update 0 rfl rfl rfl) (released _)
  · rename_i hround
    have hrepair := repair_safe W c
    cases hrepaired : repairOrphanToolCalls W c with
    | error d =>
      rw [hrepaired] at hrepair
      exact .fails hrepair
    | ok d =>
      rw [hrepaired] at hrepair
      have hcompact := hrepair.safe (runCompaction_safe W false d)
      rw [Except.bind]
      cases hcompacted : runCompactionInternal W false d with
      | error e =>
        rw [hcompacted] at hcompact
        rw [Except.bind]
        exact .fails hcompact
      | ok e =>
        rw [hcompacted] at hcompact
        rw [Except.bind]
        have hasked := hcompact.lock.trans (runProviderRound_follows W (e.lock W))
        refine afterRound_turned (Nat.lt_of_not_le hround) hasked hcompact.lock.left fun final hfinal => ?_
        exact (runProviderRound_continued (Prod.ext hfinal rfl)).2

/-! ## The whole turn -/

theorem runTurnRounds_ends (W : World) {turns : Nat} {c : Chat} {b : Budget} (h : potential W c b < turns) :
    (∃ d, runTurnRounds W turns c b = some (.ok d) ∧ Follows W (3 * turns) c d ∧ d.gate.busy = false) ∨
      ∃ d, runTurnRounds W turns c b = some (.error d) ∧ Fails c d := by
  induction turns generalizing c b with
  | zero => exact absurd h (Nat.not_lt_zero _)
  | succ turns ih =>
    have hturned := turnRound_turned W c b
    rw [runTurnRounds]
    generalize turnRound W c b = result at hturned
    cases hturned with
    | fails hfails => exact .inr ⟨_, rfl, hfails⟩
    | returns hfollows hgate => exact .inl ⟨_, rfl, hfollows.mono (by omega), hgate⟩
    | goesOn hfollows hless =>
      rcases ih (Nat.lt_of_lt_of_le hless (Nat.le_of_lt_succ h)) with ⟨d, hrun, hd, hgate⟩ | ⟨d, hrun, hd⟩
      · exact .inl ⟨d, hrun, (hfollows.trans hd).mono (by omega), hgate⟩
      · exact .inr ⟨d, hrun, hfollows.fails hd⟩

/-- The chat when the loop is over. -/
def atEnd : Except Chat Chat → Chat
  | .ok c => c
  | .error c => c

/-- So many turns are enough. -/
def turnLimit (W : World) : Nat := W.total * allowance {} + allowance {} + 1

/-- The loop comes to an end, and to a return with the gate released after so many provider calls exactly when
every transcript that it repairs has room for the repair. -/
theorem turn_ends_iff (W : World) (messages : List ChatMessage) (gate : Gate) (lastTotalTokens : UInt32)
    (compactionInFlight : Bool) :
    ∃ ending, runTurnRounds W (turnLimit W) { messages, gate, lastTotalTokens, compactionInFlight } {} = some ending ∧
      ((∃ c, ending = .ok c ∧ c.gate.busy = false ∧ c.calls ≤ 3 * turnLimit W) ↔
        ∀ transcript ∈ (atEnd ending).repairs, Roomy transcript) := by
  have henough : potential W { messages, gate, lastTotalTokens, compactionInFlight } {} < turnLimit W :=
    Nat.lt_succ_of_le (Nat.add_le_add_right (Nat.mul_le_mul_right _ (Nat.sub_le _ _)) _)
  rcases runTurnRounds_ends W henough with ⟨d, hrun, hfollows, hgate⟩ | ⟨d, hrun, hfails⟩
  · refine ⟨.ok d, hrun, iff_of_true ⟨d, rfl, hgate, ?_⟩ fun transcript hmem => ?_⟩
    · exact hfollows.calls.trans (Nat.le_of_eq (Nat.zero_add _))
    · obtain ⟨transcripts, hrepairs, hroomy⟩ := hfollows.repairs
      exact hroomy transcript (by rw [← List.nil_append transcripts, ← hrepairs]; exact hmem)
  · refine ⟨.error d, hrun, iff_of_false ?_ fun hroomy => ?_⟩
    · rintro ⟨c, hc, -⟩
      cases hc
    · obtain ⟨transcripts, transcript, hrepairs, hnot⟩ := hfails
      refine hnot (hroomy transcript ?_)
      change transcript ∈ d.repairs
      rw [hrepairs]
      exact List.mem_append_right _ List.mem_cons_self

/-- An answer that was cut off in its calls, which all have one id. -/
def cutOff : CompletionFinal where
  text := ""
  finishReason := .length
  toolCalls := List.replicate 4 ⟨"a", "fs_pods_list", "{}", none⟩

/-- One message is queued while the first answer streams. -/
def oneQueued (t : Nat) : List (String × List ImageAttachment) := if t = 3 then [("and api?", [])] else []

theorem queuedBefore_oneQueued (t : Nat) : queuedBefore oneQueued t ≤ if t ≤ 3 then 0 else 1 := by
  induction t with
  | zero => decide
  | succ t ih =>
    rw [queuedBefore, oneQueued]
    by_cases ht : t = 3
    · rw [if_pos ht, if_neg (by omega)]
      rw [if_pos (by omega)] at ih
      exact Nat.add_le_add_right ih 1
    · rw [if_neg ht, List.length_nil, Nat.add_zero]
      split at ih <;> split <;> omega

def cutOffWorld : World where
  queued := oneQueued
  total := 1
  finite t := (queuedBefore_oneQueued t).trans (by split <;> omega)
  provider _ := .ok cutOff
  summary _ := none
  trigger _ := 0
  tool _ _ := ("", false)

def asked : Chat where
  messages := [userMessage "why is web down?" []]
  gate := Gate.new.start 0
  lastTotalTokens := 0
  compactionInFlight := false

theorem runTurnRounds_more (W : World) {turns : Nat} {c : Chat} {b : Budget} {ending : Except Chat Chat}
    (h : runTurnRounds W turns c b = some ending) (k : Nat) : runTurnRounds W (turns + k) c b = some ending := by
  induction turns generalizing c b with
  | zero => cases h
  | succ turns ih =>
    rw [Nat.succ_add, runTurnRounds]
    rw [runTurnRounds] at h
    cases hround : turnRound W c b with
    | error d =>
      rw [hround] at h
      exact h
    | ok p =>
      obtain ⟨d, b'⟩ := p
      rw [hround] at h
      cases b' with
      | none => exact h
      | some b' => exact ih h

/-- The repair of the second round panics, and the gate stays busy. -/
theorem asked_does_not_return : (∃ c, runTurnRounds cutOffWorld 2 asked {} = some (.error c) ∧ c.gate.busy = true) ∧
    ¬ ∃ turns c, runTurnRounds cutOffWorld turns asked {} = some (.ok c) := by
  have hpanic : ∃ c, runTurnRounds cutOffWorld 2 asked {} = some (.error c) ∧ c.gate.busy = true := ⟨_, rfl, rfl⟩
  refine ⟨hpanic, ?_⟩
  obtain ⟨c, hc, -⟩ := hpanic
  rintro ⟨turns, d, hd⟩
  have hmore := runTurnRounds_more _ hc turns
  rw [Nat.add_comm, runTurnRounds_more _ hd 2] at hmore
  cases hmore

/-! ## Answers that do not repeat an id -/

/-- No assistant message repeats an id among its calls. -/
def Distinct (messages : List ChatMessage) : Prop := ∀ m ∈ messages, callsTools m = true → (callIds m).Nodup

theorem distinct_append {ms ms' : List ChatMessage} (h : Distinct ms) (h' : Distinct ms') : Distinct (ms ++ ms') := by
  intro m hm
  rcases List.mem_append.mp hm with hm | hm
  · exact h m hm
  · exact h' m hm

theorem distinct_of_silent {ms : List ChatMessage} (h : ∀ m ∈ ms, callsTools m = false) : Distinct ms := by
  intro m hm hcalls
  rw [h m hm] at hcalls
  cases hcalls

theorem distinct_of_repaired {ms out : List ChatMessage} {n : Nat} (h : repairToolPairs ms = .ok (out, n))
    (hms : Distinct ms) : Distinct out := by
  intro m hm hcalls
  have htool : isTool m = false := by
    rw [callsTools, Bool.and_eq_true, decide_eq_true_eq] at hcalls
    rw [isTool, hcalls.1]
    rfl
  have hspoken : m ∈ spoken out := List.mem_filter.mpr ⟨hm, by rw [htool]; rfl⟩
  rw [spoken_of_repaired h] at hspoken
  exact hms m (List.mem_filter.mp hspoken).1 hcalls

theorem distinct_lock (W : World) {c : Chat} (h : Distinct c.messages) : Distinct (c.lock W).messages := by
  refine distinct_append h (distinct_of_silent fun m hm => ?_)
  obtain ⟨x, -, rfl⟩ := List.mem_map.mp hm
  rfl

theorem repair_distinct (W : World) {c : Chat} (h : Distinct c.messages) :
    ∃ d, repairOrphanToolCalls W c = .ok d ∧ Distinct d.messages := by
  have hlock := distinct_lock W h
  obtain ⟨⟨messages, fixed⟩, hrepair⟩ := repaired_of_roomy (roomy_of_nodup hlock)
  refine ⟨{ (c.lock W) with messages, repairs := (c.lock W).repairs ++ [(c.lock W).messages] }, ?_,
    distinct_of_repaired hrepair hlock⟩
  rw [repairOrphanToolCalls]
  dsimp only
  rw [hrepair]

theorem replaceHead_distinct (W : World) {c : Chat} {headCount : Nat} {summary : Text} (h : Distinct c.messages)
    (hle : headCount ≤ c.messages.length) : ∃ d, replaceHead W c headCount summary = .ok d ∧ Distinct d.messages := by
  have hcheckpoint : Distinct [checkpoint (String.ofList summary)] := distinct_of_silent fun m hm => by
    rw [List.mem_singleton.mp hm]
    rfl
  rw [replaceHead, if_pos hle]
  apply repair_distinct
  exact distinct_append hcheckpoint fun m hm => h m (List.mem_of_mem_drop hm)

theorem runCompaction_distinct (W : World) (force : Bool) {c : Chat} (h : Distinct c.messages) :
    ∃ d, runCompactionInternal W force c = .ok d ∧ Distinct d.messages := by
  have hlock := distinct_lock W h
  have hsummarised : Distinct (summarised W c).messages := distinct_lock W (distinct_lock W hlock)
  have hcases := runCompaction_cases W force c
  generalize runCompactionInternal W force c = result at hcases
  cases hcases with
  | unneeded => exact ⟨_, rfl, hlock⟩
  | taken => exact ⟨_, rfl, distinct_lock W hlock⟩
  | unanswered => exact ⟨_, rfl, hsummarised⟩
  | replaced hle => exact replaceHead_distinct W hsummarised hle

theorem distinct_notice {ms : List ChatMessage} (text : Text) (h : Distinct ms) : Distinct (ms ++ [notice text]) := by
  refine distinct_append h (distinct_of_silent fun m hm => ?_)
  rw [List.mem_singleton.mp hm]
  rfl

theorem runProviderRound_distinct (W : World) {c : Chat} (h : Distinct c.messages) :
    Distinct (runProviderRound W c).2.messages := by
  have hlock : Distinct ((called c).lock W).messages := distinct_lock W h
  have hcases := runProviderRound_cases W c
  generalize runProviderRound W c = result at hcases
  cases hcases with
  | uncounted => exact h
  | counted => exact hlock
  | noted => exact distinct_notice _ hlock

theorem distinct_insertIdx {ms : List ChatMessage} {m : ChatMessage} {i : Nat} (h : Distinct ms) (hm : Distinct [m]) :
    Distinct (ms.insertIdx i m) := by
  intro x hx
  by_cases hi : i ≤ ms.length
  · rcases (List.mem_insertIdx hi).mp hx with rfl | hx
    · exact hm x List.mem_cons_self
    · exact h x hx
  · rw [List.insertIdx_of_length_lt (Nat.lt_of_not_le hi)] at hx
    exact h x hx

theorem placeAnswer_distinct (W : World) (preRoundCount : Nat) (b : Budget) {final : CompletionFinal} {c : Chat}
    (h : Distinct c.messages) (hfinal : (final.toolCalls.map (·.id)).Nodup) :
    Distinct (placeAnswer W preRoundCount b final c).1.messages := by
  have hlock := distinct_lock W h
  have hreply : Distinct [assistantMessage final] := by
    intro m hm _
    rw [List.mem_singleton.mp hm]
    exact hfinal
  rw [placeAnswer]
  dsimp only
  split
  · refine distinct_append hlock (distinct_append hreply (distinct_of_silent fun m hm => ?_))
    obtain ⟨outcome, -, rfl⟩ := List.mem_map.mp hm
    rfl
  · split
    · exact distinct_insertIdx hlock hreply
    · exact distinct_append hlock hreply

/-- The provider gives every call of an answer its own id. -/
def AnswersDistinct (W : World) : Prop :=
  ∀ t final, W.provider t = .ok final → (final.toolCalls.map (·.id)).Nodup

theorem afterRound_distinct (W : World) (preRoundCount : Nat) (b : Budget) {outcome : RoundOutcome} {c : Chat}
    (h : Distinct c.messages) (hfinal : ∀ final, outcome = .continued final → (final.toolCalls.map (·.id)).Nodup) :
    ∃ d b', afterRound W preRoundCount b outcome c = .ok (d, b') ∧ Distinct d.messages := by
  have hlock := distinct_lock W h
  cases outcome with
  | continued final => exact ⟨_, _, rfl, placeAnswer_distinct W preRoundCount b h (hfinal final rfl)⟩
  | stopped => exact ⟨_, _, rfl, hlock⟩
  | usageLimited => exact ⟨_, _, rfl, hlock⟩
  | retryAfterCompaction originalError =>
    rw [afterRound]
    split
    · exact ⟨_, _, rfl, distinct_notice _ hlock⟩
    · obtain ⟨d, hd, hdistinct⟩ := runCompaction_distinct W true h
      rw [hd]
      exact ⟨d, _, rfl, hdistinct⟩
  | emptyTurn =>
    rw [afterRound]
    split
    · exact ⟨_, _, rfl, distinct_notice _ hlock⟩
    · exact ⟨_, _, rfl, h⟩
  | transientFailure originalError =>
    rw [afterRound]
    split
    · exact ⟨_, _, rfl, distinct_notice _ hlock⟩
    · exact ⟨_, _, rfl, h⟩

theorem turnRound_distinct {W : World} (hW : AnswersDistinct W) {c : Chat} (h : Distinct c.messages) (b : Budget) :
    ∃ d b', turnRound W c b = .ok (d, b') ∧ Distinct d.messages := by
  rw [turnRound]
  split
  · exact ⟨_, _, rfl, distinct_lock W h⟩
  · obtain ⟨d, hd, hrepaired⟩ := repair_distinct W h
    obtain ⟨e, he, hcompacted⟩ := runCompaction_distinct W false hrepaired
    rw [hd, Except.bind, he, Except.bind]
    have hasked := distinct_lock W hcompacted
    exact afterRound_distinct W _ _ (runProviderRound_distinct W hasked)
      fun final hfinal => hW _ final (runProviderRound_continued (Prod.ext hfinal rfl)).1

/-- With a provider that does not repeat an id, the turn of any chat ends in a return with the gate released. -/
theorem turn_returns {W : World} (hW : AnswersDistinct W) {c : Chat} (h : Distinct c.messages) :
    ∃ d, runTurnRounds W (turnLimit W) c {} = some (.ok d) ∧ d.gate.busy = false := by
  have hno : ∀ turns b d, Distinct c.messages → runTurnRounds W turns c b ≠ some (.error d) := by
    intro turns
    induction turns generalizing c with
    | zero =>
      intro b d _ hrun
      cases hrun
    | succ turns ih =>
      intro b d hc hrun
      obtain ⟨e, b', hround, he⟩ := turnRound_distinct hW hc b
      rw [runTurnRounds, hround] at hrun
      cases b' with
      | none => cases hrun
      | some b' => exact ih he b' d he hrun
  have henough : potential W c {} < turnLimit W :=
    Nat.lt_succ_of_le (Nat.add_le_add_right (Nat.mul_le_mul_right _ (Nat.sub_le _ _)) _)
  rcases runTurnRounds_ends W henough with ⟨d, hrun, -, hgate⟩ | ⟨d, hrun, -⟩
  · exact ⟨d, hrun, hgate⟩
  · exact absurd hrun (hno _ _ d h)

end FerrisScope.TurnRounds
