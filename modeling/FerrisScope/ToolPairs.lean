import FerrisScope.ChatMessages
import Mathlib.Data.List.Induction

/-!
# Repairing the pairs of tool calls and results

`repairToolPairs` walks the transcript once. At an assistant message with calls it looks at the run
of tool messages right after it; each call these leave unanswered gets the first later result
with its id, or else a result that says the call was interrupted, put behind the run. A second
walk drops every tool message that answers no call of the assistant message before it.

The vector operations are partial, as in the source: an index out of range is a fault. The
walk is then described without indices, on the block behind the run and the messages that
follow it, and `Roomy` is the condition on a transcript under which no index leaves the range.
-/

namespace FerrisScope.ToolPairs
open ChatMessages

inductive Fault where
  | outOfRange
  | unfinished
  deriving DecidableEq, Repr

section Vectors

variable {α : Type*}

def remove (xs : List α) (k : Nat) : Except Fault (α × List α) :=
  match xs[k]? with
  | some x => .ok (x, xs.eraseIdx k)
  | none => .error .outOfRange

def insert (xs : List α) (k : Nat) (x : α) : Except Fault (List α) :=
  if k ≤ xs.length then .ok (xs.insertIdx k x) else .error .outOfRange

/-- The first index from `start` on at which `p` holds. -/
def findFrom (start : Nat) (xs : List α) (p : α → Bool) : Option Nat :=
  ((xs.drop start).findIdx? p).map (start + ·)

end Vectors

/-- The result given to a call that has none. -/
def interrupted (tc : ToolCall) : ChatMessage where
  role := .tool
  content := "[tool execution interrupted: `" ++ tc.name ++ "` produced no result on the previous turn]"
  toolCallId := some tc.id
  name := some tc.name

structure Repair where
  messages : List ChatMessage
  insertAt : Nat
  fixed : Nat
  deriving DecidableEq

/-- The first result of the call from `runEnd` on, taken out, or else a made-up one. -/
def resultFor (runEnd : Nat) (messages : List ChatMessage) (tc : ToolCall) :
    Except Fault (ChatMessage × List ChatMessage) :=
  match findFrom runEnd messages (answers tc.id) with
  | some k => remove messages k
  | none => .ok (interrupted tc, messages)

/-- One call of the assistant message whose run ends at `runEnd`. -/
def settle (runEnd : Nat) (answered : List String) (s : Repair) (tc : ToolCall) : Except Fault Repair :=
  if answered.contains tc.id then .ok s
  else
    match resultFor runEnd s.messages tc with
    | .error e => .error e
    | .ok (result, messages) =>
      (insert messages s.insertAt result).map fun messages => ⟨messages, s.insertAt + 1, s.fixed + 1⟩

/-- The first walk, from index `i` on. -/
def walk : Nat → List ChatMessage → Nat → Nat → Except Fault (List ChatMessage × Nat)
  | 0, messages, i, fixed => if i < messages.length then .error .unfinished else .ok (messages, fixed)
  | fuel + 1, messages, i, fixed =>
    match messages[i]? with
    | none => .ok (messages, fixed)
    | some m =>
      if callsTools m then
        let run := (messages.drop (i + 1)).takeWhile isTool
        let runEnd := i + 1 + run.length
        let answered := run.filterMap (·.toolCallId)
        match m.toolCalls.foldlM (settle runEnd answered) ⟨messages, runEnd, fixed⟩ with
        | .error e => .error e
        | .ok s => walk fuel s.messages (max s.insertAt (i + 1)) s.fixed
      else walk fuel messages (i + 1) fixed

/-- The second walk, with the ids the last assistant message allows. -/
def retain (allowed : List String) : List ChatMessage → List ChatMessage
  | [] => []
  | m :: ms =>
    match m.role with
    | .assistant => m :: retain (callIds m) ms
    | .tool => if m.toolCallId.any (allowed.contains ·) then m :: retain allowed ms else retain allowed ms
    | _ => m :: retain [] ms

/-- The repaired messages and the number of repairs. -/
def repairToolPairs (messages : List ChatMessage) : Except Fault (List ChatMessage × Nat) :=
  match walk messages.length messages 0 0 with
  | .error e => .error e
  | .ok (walked, fixed) =>
    let kept := retain [] walked
    .ok (kept, fixed + (walked.length - kept.length))

/-- The walk at one assistant message: what stands behind its run, and what follows that. -/
structure Gap where
  block : List ChatMessage
  later : List ChatMessage
  deriving DecidableEq

/-- `settle` on a gap. A result that already stands in the block is taken out of it, and the
block then reaches over one more message. -/
def Gap.settle (g : Gap) (tc : ToolCall) : Except Fault Gap :=
  match g.block.find? (answers tc.id) with
  | some result =>
    match g.later with
    | [] => .error .outOfRange
    | next :: later => .ok ⟨g.block.eraseP (answers tc.id) ++ [next, result], later⟩
  | none =>
    match g.later.find? (answers tc.id) with
    | some result => .ok ⟨g.block ++ [result], g.later.eraseP (answers tc.id)⟩
    | none => .ok ⟨g.block ++ [interrupted tc], g.later⟩

/-- The calls of `m` that the tool messages right after it leave unanswered. -/
def unanswered (m : ChatMessage) (ms : List ChatMessage) : List ToolCall :=
  m.toolCalls.filter fun tc => !((ms.takeWhile isTool).filterMap (·.toolCallId)).contains tc.id

/-- A repair in which `front` ends with the run, seen as a gap. -/
def Gap.toRepair (g : Gap) (front : List ChatMessage) (fixed : Nat) : Repair :=
  ⟨front ++ g.block ++ g.later, front.length + g.block.length, fixed + g.block.length⟩

section Gaps

variable {α : Type*} {p : α → Bool}

theorem remove_of_findIdx? (front back : List α) {xs : List α} {k : Nat} (h : xs.findIdx? p = some k) :
    ∃ x, xs.find? p = some x ∧
      remove (front ++ xs ++ back) (front.length + k) = .ok (x, front ++ xs.eraseP p ++ back) := by
  have hk : k < xs.length := (List.findIdx?_eq_some_iff_getElem.mp h).1
  have hget : (front ++ xs ++ back)[front.length + k]? = some xs[k] := by
    rw [List.append_assoc, List.getElem?_append_right (by omega), Nat.add_sub_cancel_left]
    rw [List.getElem?_append_left hk, List.getElem?_eq_getElem hk]
  refine ⟨xs[k], ?_, ?_⟩
  · rw [List.find?_eq_bind_findIdx?_getElem?, h]
    exact List.getElem?_eq_getElem hk
  · rw [remove, hget, List.eraseP_eq_eraseIdx, h, List.append_assoc]
    rw [List.eraseIdx_append_of_length_le (by omega), Nat.add_sub_cancel_left]
    rw [List.eraseIdx_append_of_lt_length hk, List.append_assoc]

theorem find?_eq_none_of_findIdx? {xs : List α} (h : xs.findIdx? p = none) : xs.find? p = none := by
  rw [List.find?_eq_bind_findIdx?_getElem?, h]
  rfl

theorem insert_append (front back : List α) (x : α) :
    insert (front ++ back) front.length x = .ok (front ++ x :: back) := by
  have hle : front.length ≤ (front ++ back).length := by
    rw [List.length_append]
    omega
  have hsplit : (front ++ back).insertIdx front.length x = front ++ x :: back := by
    induction front with
    | nil => rfl
    | cons y front ih =>
      rw [List.cons_append, List.length_cons, List.insertIdx_succ_cons, ih (by simp)]
      rfl
  rw [insert, if_pos hle, hsplit]

end Gaps

/-- Where the first result is found: in the block, behind it, or nowhere. -/
theorem resultFor_gap (front : List ChatMessage) (g : Gap) (tc : ToolCall) :
    resultFor front.length (front ++ g.block ++ g.later) tc =
      match g.block.find? (answers tc.id) with
      | some result => .ok (result, front ++ g.block.eraseP (answers tc.id) ++ g.later)
      | none =>
        match g.later.find? (answers tc.id) with
        | some result => .ok (result, front ++ g.block ++ g.later.eraseP (answers tc.id))
        | none => .ok (interrupted tc, front ++ g.block ++ g.later) := by
  have hdrop : (front ++ g.block ++ g.later).drop front.length = g.block ++ g.later := by
    rw [List.append_assoc, List.drop_left]
  rw [resultFor, findFrom, hdrop, List.findIdx?_append]
  cases hblock : g.block.findIdx? (answers tc.id) with
  | some k =>
    obtain ⟨result, hfind, hremove⟩ := remove_of_findIdx? front g.later hblock
    rw [hfind]
    exact hremove
  | none =>
    rw [find?_eq_none_of_findIdx? hblock]
    cases hlater : g.later.findIdx? (answers tc.id) with
    | some k =>
      obtain ⟨result, hfind, hremove⟩ := remove_of_findIdx? (front ++ g.block) [] hlater
      rw [hfind]
      rw [List.append_nil, List.append_nil, List.length_append, Nat.add_assoc, Nat.add_comm _ k] at hremove
      exact hremove
    | none =>
      rw [find?_eq_none_of_findIdx? hlater]
      rfl

/-- One call of the source is one call on the gap. -/
theorem settle_toRepair (front : List ChatMessage) (answered : List String) (g : Gap) (fixed : Nat) (tc : ToolCall) :
    settle front.length answered (g.toRepair front fixed) tc =
      if answered.contains tc.id then .ok (g.toRepair front fixed)
      else (g.settle tc).map fun g => g.toRepair front fixed := by
  unfold settle
  split
  · rfl
  have hinsert (back : List ChatMessage) (x : ChatMessage) :
      insert (front ++ g.block ++ back) (front.length + g.block.length) x = .ok (front ++ (g.block ++ [x]) ++ back) := by
    rw [← List.length_append, insert_append]
    simp
  simp only [Gap.toRepair, resultFor_gap]
  unfold Gap.settle
  cases hblock : g.block.find? (answers tc.id) with
  | some result =>
    have hlen : (g.block.eraseP (answers tc.id)).length + 1 = g.block.length := by
      have hmem := List.mem_of_find?_eq_some hblock
      have hpos := List.length_pos_of_mem hmem
      rw [List.length_eraseP_of_mem hmem (List.find?_some hblock)]
      omega
    cases hlater : g.later with
    | nil =>
      dsimp only
      rw [insert, if_neg]
      · rfl
      · rw [List.append_nil, List.length_append]
        omega
    | cons next later =>
      dsimp only
      have hsplit : front ++ g.block.eraseP (answers tc.id) ++ next :: later =
          (front ++ g.block.eraseP (answers tc.id) ++ [next]) ++ later := by simp
      have hidx : front.length + g.block.length = (front ++ g.block.eraseP (answers tc.id) ++ [next]).length := by
        simp only [List.length_append, List.length_singleton]
        omega
      rw [hsplit, hidx, insert_append]
      simp [Except.map]
      omega
  | none =>
    cases hlater : g.later.find? (answers tc.id) with
    | some result =>
      dsimp only
      rw [hinsert]
      simp [Except.map]
      omega
    | none =>
      dsimp only
      rw [hinsert]
      simp [Except.map]
      omega

/-- All calls of an assistant message. -/
theorem foldlM_settle (front : List ChatMessage) (answered : List String) (fixed : Nat) (tcs : List ToolCall) (g : Gap) :
    tcs.foldlM (settle front.length answered) (g.toRepair front fixed) =
      ((tcs.filter fun tc => !answered.contains tc.id).foldlM Gap.settle g).map fun g => g.toRepair front fixed := by
  induction tcs generalizing g with
  | nil => rfl
  | cons tc tcs ih =>
    rw [List.foldlM_cons, settle_toRepair, List.filter_cons]
    cases hanswered : answered.contains tc.id with
    | true =>
      simp only [if_true, Bool.not_true, Bool.false_eq_true, if_false]
      exact ih g
    | false =>
      simp only [Bool.false_eq_true, if_false, Bool.not_false, if_true, List.foldlM_cons]
      cases hg : g.settle tc with
      | error e => rfl
      | ok g' => exact ih g'

/-- The gap at an assistant message that is followed by `ms`, after all its calls. -/
def gapAfter (m : ChatMessage) (ms : List ChatMessage) : Except Fault Gap :=
  (unanswered m ms).foldlM Gap.settle ⟨[], ms.dropWhile isTool⟩

/-- The walk at an assistant message with calls. -/
theorem walk_calls (fuel : Nat) (done ms : List ChatMessage) {m : ChatMessage} (fixed : Nat) (hm : callsTools m = true) :
    walk (fuel + 1) (done ++ m :: ms) done.length fixed =
      match gapAfter m ms with
      | .error e => .error e
      | .ok g => walk fuel (done ++ m :: ms.takeWhile isTool ++ g.block ++ g.later)
          (done ++ m :: ms.takeWhile isTool ++ g.block).length (fixed + g.block.length) := by
  have hget : (done ++ m :: ms)[done.length]? = some m := by simp
  have hdrop : (done ++ m :: ms).drop (done.length + 1) = ms := by
    rw [List.drop_append, Nat.add_sub_cancel_left]
    simp
  have hfront : done.length + 1 + (ms.takeWhile isTool).length = (done ++ m :: ms.takeWhile isTool).length := by
    simp only [List.length_append, List.length_cons]
    omega
  have hgap : (⟨done ++ m :: ms, (done ++ m :: ms.takeWhile isTool).length, fixed⟩ : Repair) =
      Gap.toRepair ⟨[], ms.dropWhile isTool⟩ (done ++ m :: ms.takeWhile isTool) fixed := by
    simp [Gap.toRepair]
  rw [walk, hget]
  dsimp only
  rw [if_pos hm, hdrop, hfront, hgap, foldlM_settle]
  cases hg : gapAfter m ms with
  | error e =>
    rw [gapAfter, unanswered] at hg
    rw [hg]
    rfl
  | ok g =>
    rw [gapAfter, unanswered] at hg
    rw [hg]
    have hmax : max ((done ++ m :: ms.takeWhile isTool).length + g.block.length) (done.length + 1) =
        (done ++ m :: ms.takeWhile isTool ++ g.block).length := by
      simp only [List.length_append, List.length_cons]
      omega
    simp only [Except.map, Gap.toRepair]
    rw [hmax]

theorem walk_pass (fuel : Nat) (done ms : List ChatMessage) {m : ChatMessage} (fixed : Nat) (hm : callsTools m = false) :
    walk (fuel + 1) (done ++ m :: ms) done.length fixed = walk fuel (done ++ [m] ++ ms) (done ++ [m]).length fixed := by
  have hget : (done ++ m :: ms)[done.length]? = some m := by simp
  rw [walk, hget]
  dsimp only
  rw [if_neg (by rw [hm]; decide)]
  simp

/-- What the walk makes of the messages it has still to see, and with how many results put in. -/
inductive Walked : List ChatMessage → List ChatMessage → Nat → Prop
  | nil : Walked [] [] 0
  | pass {m ms out n} (hm : callsTools m = false) (hms : Walked ms out n) : Walked (m :: ms) (m :: out) n
  | calls {m ms out n g} (hm : callsTools m = true) (hg : gapAfter m ms = .ok g) (hms : Walked g.later out n) :
      Walked (m :: ms) (m :: ms.takeWhile isTool ++ g.block ++ out) (g.block.length + n)

/-- Settling a call never adds to what follows the block. -/
theorem later_length_le {g g' : Gap} {tc : ToolCall} (h : g.settle tc = .ok g') :
    g'.later.length ≤ g.later.length := by
  unfold Gap.settle at h
  split at h
  · split at h
    · cases h
    · rename_i next later hlater
      cases h
      rw [hlater, List.length_cons]
      exact Nat.le_succ _
  · split at h
    · cases h
      exact List.length_eraseP_le
    · cases h
      exact Nat.le_refl _

/-- What settling one call preserves, settling them all preserves. -/
theorem foldlM_settle_invariant {P : Gap → Prop} (hsettle : ∀ g tc g', P g → g.settle tc = .ok g' → P g')
    {tcs : List ToolCall} {g g' : Gap} (hg : P g) (h : tcs.foldlM Gap.settle g = .ok g') : P g' := by
  induction tcs generalizing g with
  | nil =>
    cases h
    exact hg
  | cons tc tcs ih =>
    rw [List.foldlM_cons] at h
    cases hfirst : g.settle tc with
    | error e =>
      rw [hfirst] at h
      cases h
    | ok g₁ =>
      rw [hfirst] at h
      exact ih (hsettle g tc g₁ hg hfirst) h

theorem foldlM_later_length_le {tcs : List ToolCall} {g g' : Gap} (h : tcs.foldlM Gap.settle g = .ok g') :
    g'.later.length ≤ g.later.length :=
  foldlM_settle_invariant (fun _ _ _ hle hsettle => (later_length_le hsettle).trans hle)
    (P := fun x => x.later.length ≤ g.later.length) (Nat.le_refl _) h

theorem gapAfter_later_length_le {m : ChatMessage} {ms : List ChatMessage} {g : Gap} (h : gapAfter m ms = .ok g) :
    g.later.length ≤ ms.length :=
  (foldlM_later_length_le h).trans (List.dropWhile_suffix isTool).length_le

/-- The walk ends within as many turns as there are messages, with what `Walked` says. -/
theorem walk_of_walked {rem out : List ChatMessage} {n : Nat} (h : Walked rem out n) {fuel : Nat}
    (hfuel : rem.length ≤ fuel) (done : List ChatMessage) (fixed : Nat) :
    walk fuel (done ++ rem) done.length fixed = .ok (done ++ out, fixed + n) := by
  induction h generalizing fuel done fixed with
  | nil => cases fuel <;> simp [walk]
  | pass hm _ ih =>
    rw [List.length_cons] at hfuel
    obtain ⟨k, rfl⟩ := Nat.exists_eq_add_of_lt (Nat.lt_of_lt_of_le (Nat.succ_pos _) hfuel)
    rw [Nat.zero_add, walk_pass _ _ _ _ hm, ih (by omega)]
    simp
  | calls hm hg _ ih =>
    have hle := gapAfter_later_length_le hg
    rw [List.length_cons] at hfuel
    obtain ⟨k, rfl⟩ := Nat.exists_eq_add_of_lt (Nat.lt_of_lt_of_le (Nat.succ_pos _) hfuel)
    rw [Nat.zero_add, walk_calls _ _ _ _ hm, hg]
    dsimp only
    rw [ih (by omega)]
    simp [Nat.add_assoc]

theorem settle_ne_unfinished (g : Gap) (tc : ToolCall) : g.settle tc ≠ .error .unfinished := by
  unfold Gap.settle
  intro h
  split at h
  · split at h
    · cases h
    · cases h
  · split at h
    · cases h
    · cases h

theorem gapAfter_ne_unfinished (m : ChatMessage) (ms : List ChatMessage) : gapAfter m ms ≠ .error .unfinished := by
  unfold gapAfter
  generalize (⟨[], ms.dropWhile isTool⟩ : Gap) = g
  induction unanswered m ms generalizing g with
  | nil =>
    intro h
    cases h
  | cons tc tcs ih =>
    intro h
    rw [List.foldlM_cons] at h
    cases hg : g.settle tc with
    | error e =>
      rw [hg] at h
      cases h
      exact settle_ne_unfinished g tc hg
    | ok g' =>
      rw [hg] at h
      exact ih g' h

/-- A walk that does not reach the end of the messages has left the range. -/
theorem walked_or_outOfRange (rem : List ChatMessage) :
    (∃ out n, Walked rem out n) ∨
      ∀ fuel, rem.length ≤ fuel → ∀ done fixed, walk fuel (done ++ rem) done.length fixed = .error .outOfRange := by
  induction hlen : rem.length using Nat.strong_induction_on generalizing rem with
  | h len ih =>
    subst hlen
    cases rem with
    | nil => exact .inl ⟨[], 0, .nil⟩
    | cons m ms =>
      cases hm : callsTools m with
      | false =>
        rcases ih ms.length (by simp) ms rfl with ⟨out, n, h⟩ | h
        · exact .inl ⟨m :: out, n, .pass hm h⟩
        · refine .inr fun fuel hfuel done fixed => ?_
          rw [List.length_cons] at hfuel
          obtain ⟨k, rfl⟩ := Nat.exists_eq_add_of_lt (Nat.lt_of_lt_of_le (Nat.succ_pos _) hfuel)
          rw [Nat.zero_add, walk_pass _ _ _ _ hm, h k (by omega)]
      | true =>
        cases hg : gapAfter m ms with
        | error e =>
          refine .inr fun fuel hfuel done fixed => ?_
          rw [List.length_cons] at hfuel
          obtain ⟨k, rfl⟩ := Nat.exists_eq_add_of_lt (Nat.lt_of_lt_of_le (Nat.succ_pos _) hfuel)
          rw [Nat.zero_add, walk_calls _ _ _ _ hm, hg]
          cases e with
          | outOfRange => rfl
          | unfinished => exact absurd hg (gapAfter_ne_unfinished m ms)
        | ok g =>
          have hle := gapAfter_later_length_le hg
          rcases ih g.later.length (by rw [List.length_cons]; omega) g.later rfl with ⟨out, n, h⟩ | h
          · exact .inl ⟨_, _, .calls hm hg h⟩
          · refine .inr fun fuel hfuel done fixed => ?_
            rw [List.length_cons] at hfuel
            obtain ⟨k, rfl⟩ := Nat.exists_eq_add_of_lt (Nat.lt_of_lt_of_le (Nat.succ_pos _) hfuel)
            rw [Nat.zero_add, walk_calls _ _ _ _ hm, hg]
            exact h k (by omega) _ _

/-- `ms` without the first result of each of the calls. -/
def withoutResults (ids : List String) (ms : List ChatMessage) : List ChatMessage :=
  ids.eraseDups.foldl (fun ms id => ms.eraseP (answers id)) ms

/-- How often a call repeats an id of an earlier call. -/
def repeats (ids : List String) : Nat := ids.length - ids.eraseDups.length

/-- Every repeated call without a result finds one more message to step over: read from the front,
at an assistant message with calls, the first later result of each unanswered id set aside, as
many messages must follow as unanswered calls repeat an id; the reading goes on behind those. -/
inductive Roomy : List ChatMessage → Prop
  | nil : Roomy []
  | pass {m ms} (hm : callsTools m = false) (hms : Roomy ms) : Roomy (m :: ms)
  | calls {m ms} (hm : callsTools m = true)
      (hroom : repeats ((unanswered m ms).map (·.id)) ≤
        (withoutResults ((unanswered m ms).map (·.id)) (ms.dropWhile isTool)).length)
      (hms : Roomy ((withoutResults ((unanswered m ms).map (·.id)) (ms.dropWhile isTool)).drop
        (repeats ((unanswered m ms).map (·.id))))) : Roomy (m :: ms)

theorem eraseDups_concat (ids : List String) (x : String) :
    (ids ++ [x]).eraseDups = if x ∈ ids then ids.eraseDups else ids.eraseDups ++ [x] := by
  rw [List.eraseDups_append]
  split
  · rename_i h
    simp [List.removeAll, h]
  · rename_i h
    simp [List.removeAll, h, List.eraseDups_cons]

theorem length_eraseDups_le (ids : List String) : ids.eraseDups.length ≤ ids.length := by
  induction ids using List.reverseRecOn with
  | nil => simp
  | append_singleton ids x ih =>
    rw [eraseDups_concat]
    split
    · rw [List.length_append]
      omega
    · simp only [List.length_append, List.length_singleton]
      omega

theorem withoutResults_concat (ids : List String) (x : String) (ms : List ChatMessage) :
    withoutResults (ids ++ [x]) ms =
      if x ∈ ids then withoutResults ids ms else (withoutResults ids ms).eraseP (answers x) := by
  unfold withoutResults
  rw [eraseDups_concat]
  split
  · rfl
  · rw [List.foldl_append]
    rfl

theorem repeats_concat (ids : List String) (x : String) :
    repeats (ids ++ [x]) = if x ∈ ids then repeats ids + 1 else repeats ids := by
  have hle := length_eraseDups_le ids
  unfold repeats
  rw [eraseDups_concat, List.length_append, List.length_singleton]
  split
  · omega
  · rw [List.length_append, List.length_singleton]
    omega

/-- After some calls: `stepped` are the messages the block has stepped over. -/
structure Settled (ids : List String) (ms stepped : List ChatMessage) (g : Gap) : Prop where
  later : withoutResults ids ms = stepped ++ g.later
  length : stepped.length = repeats ids
  block : ∀ x, (∃ m ∈ g.block, answers x m = true) ↔ x ∈ ids ∨ ∃ m ∈ stepped, answers x m = true

section Settling

variable {ids : List String} {ms stepped : List ChatMessage} {g : Gap} {tc : ToolCall} {result : ChatMessage}

theorem exists_answers_iff {x : String} {xs : List ChatMessage} :
    (∃ m ∈ xs, answers x m = true) ↔ xs.any (answers x) = true := by
  rw [List.any_eq_true]

/-- A result taken out of a list that has it, and put back behind something. -/
theorem any_eraseP_append {xs : List ChatMessage} (hfind : xs.find? (answers tc.id) = some result)
    (x : String) (extra : List ChatMessage) :
    (xs.eraseP (answers tc.id) ++ extra ++ [result]).any (answers x) = (xs ++ extra).any (answers x) := by
  obtain ⟨hp, pre, post, rfl, hpre⟩ := List.find?_eq_some_iff_append.mp hfind
  have hpre' : ∀ m ∈ pre, ¬answers tc.id m = true := fun m hm h => by
    have := hpre m hm
    simp [h] at this
  rw [List.eraseP_append_right _ hpre', List.eraseP_cons_of_pos hp]
  simp only [List.any_append, List.any_cons, List.any_nil, Bool.or_false]
  generalize pre.any (answers x) = a
  generalize post.any (answers x) = b
  generalize extra.any (answers x) = c
  generalize answers x result = d
  revert a b c d
  decide

/-- The calls of the ids seen so far, and one more: it is found in the block, and there is nothing
left to step over. -/
theorem Settled.overrun (h : Settled ids ms stepped g) (hfind : g.block.find? (answers tc.id) = some result)
    (hlater : g.later = []) :
    (withoutResults (ids ++ [tc.id]) ms).length < repeats (ids ++ [tc.id]) := by
  have hall : withoutResults ids ms = stepped := by rw [h.later, hlater, List.append_nil]
  have hblock := (h.block tc.id).mp ⟨result, List.mem_of_find?_eq_some hfind, List.find?_some hfind⟩
  rw [withoutResults_concat, repeats_concat, hall]
  by_cases hmem : tc.id ∈ ids
  · rw [if_pos hmem, if_pos hmem, h.length]
    omega
  · rw [if_neg hmem, if_neg hmem, ← h.length]
    obtain ⟨m, hm, hanswers⟩ := hblock.resolve_left hmem
    have hpos := List.length_pos_of_mem hm
    rw [List.length_eraseP_of_mem hm hanswers]
    omega

/-- It is found in the block, which then steps over one more message. -/
theorem Settled.step_over (h : Settled ids ms stepped g) (hfind : g.block.find? (answers tc.id) = some result)
    {next : ChatMessage} {later : List ChatMessage} (hlater : g.later = next :: later) :
    ∃ stepped, Settled (ids ++ [tc.id]) ms stepped
      ⟨g.block.eraseP (answers tc.id) ++ [next, result], later⟩ := by
  have hblock := (h.block tc.id).mp ⟨result, List.mem_of_find?_eq_some hfind, List.find?_some hfind⟩
  have hin (x : String) : (g.block.eraseP (answers tc.id) ++ [next, result]).any (answers x) =
      (g.block ++ [next]).any (answers x) := by
    rw [← any_eraseP_append hfind x [next], List.append_assoc]
    rfl
  by_cases hmem : tc.id ∈ ids
  · refine ⟨stepped ++ [next], ?_, ?_, fun x => ?_⟩
    · rw [withoutResults_concat, if_pos hmem, h.later, hlater, List.append_assoc]
      rfl
    · rw [repeats_concat, if_pos hmem, List.length_append, h.length]
      rfl
    · have hx := h.block x
      rw [exists_answers_iff] at hx ⊢
      rw [hin]
      rw [exists_answers_iff] at hx ⊢
      rw [List.any_append, List.any_append, Bool.or_eq_true, Bool.or_eq_true, hx, List.mem_append, or_assoc]
      have hsame : x ∈ [tc.id] → x ∈ ids := by
        intro hx
        rw [List.mem_singleton.mp hx]
        exact hmem
      tauto
  · obtain ⟨m, hm, hanswers⟩ := hblock.resolve_left hmem
    have hpos := List.length_pos_of_mem hm
    refine ⟨stepped.eraseP (answers tc.id) ++ [next], ?_, ?_, fun x => ?_⟩
    · rw [withoutResults_concat, if_neg hmem, h.later, hlater, List.eraseP_append_left hanswers _ hm]
      rw [List.append_assoc]
      rfl
    · rw [repeats_concat, if_neg hmem, List.length_append, List.length_eraseP_of_mem hm hanswers, ← h.length]
      simp only [List.length_singleton]
      omega
    · have hx := h.block x
      rw [exists_answers_iff, exists_answers_iff] at hx ⊢
      rw [hin, List.any_append, List.any_append, Bool.or_eq_true, Bool.or_eq_true, hx]
      by_cases hxid : x = tc.id
      · subst hxid
        have : stepped.any (answers tc.id) = true := List.any_eq_true.mpr ⟨m, hm, hanswers⟩
        simp [this]
      · have herase : (stepped.eraseP (answers tc.id)).any (answers x) = stepped.any (answers x) := by
          rw [Bool.eq_iff_iff, List.any_eq_true, List.any_eq_true]
          constructor
          · rintro ⟨m, hm, hx⟩
            exact ⟨m, List.mem_of_mem_eraseP hm, hx⟩
          · rintro ⟨m, hm, hx⟩
            exact ⟨m, (List.mem_eraseP_of_neg fun ha => hxid (eq_of_answers hx ha)).mpr hm, hx⟩
        rw [herase, List.mem_append, List.mem_singleton]
        tauto

/-- It is not in the block: a later result is set aside, or one is made up. -/
theorem Settled.append (h : Settled ids ms stepped g) (hfind : g.block.find? (answers tc.id) = none)
    (hanswers : answers tc.id result = true) :
    Settled (ids ++ [tc.id]) ms stepped ⟨g.block ++ [result], g.later.eraseP (answers tc.id)⟩ := by
  have hnot : ¬(tc.id ∈ ids ∨ ∃ m ∈ stepped, answers tc.id m = true) := by
    rw [← h.block tc.id]
    rintro ⟨m, hm, hx⟩
    have := List.find?_eq_none.mp hfind m hm
    exact this hx
  rw [not_or] at hnot
  obtain ⟨hmem, hstepped⟩ := hnot
  refine ⟨?_, ?_, fun x => ?_⟩
  · rw [withoutResults_concat, if_neg hmem, h.later]
    exact List.eraseP_append_right _ fun m hm hx => hstepped ⟨m, hm, hx⟩
  · rw [repeats_concat, if_neg hmem, h.length]
  · have hx := h.block x
    rw [exists_answers_iff, exists_answers_iff] at hx ⊢
    rw [List.any_append, Bool.or_eq_true, hx]
    have hresult : [result].any (answers x) = true ↔ x = tc.id := by
      rw [List.any_cons, List.any_nil, Bool.or_false]
      constructor
      · intro hxr
        exact eq_of_answers hxr hanswers
      · intro hxr
        rw [hxr]
        exact hanswers
    rw [hresult, List.mem_append, List.mem_singleton]
    tauto

end Settling

theorem answers_interrupted (tc : ToolCall) : answers tc.id (interrupted tc) = true :=
  answers_of_id rfl rfl

/-- All unanswered calls of one assistant message, from the front. -/
theorem foldlM_settle_spec (tcs : List ToolCall) (ms : List ChatMessage) :
    match tcs.foldlM Gap.settle ⟨[], ms⟩ with
    | .ok g => ∃ stepped, Settled (tcs.map (·.id)) ms stepped g
    | .error _ => (withoutResults (tcs.map (·.id)) ms).length < repeats (tcs.map (·.id)) := by
  induction tcs using List.reverseRecOn with
  | nil => exact ⟨[], rfl, rfl, fun x => by simp⟩
  | append_singleton tcs tc ih =>
    rw [List.foldlM_append, List.map_append, List.map_singleton]
    cases hg : tcs.foldlM Gap.settle ⟨[], ms⟩ with
    | error e =>
      rw [hg] at ih
      have hle : (withoutResults (tcs.map (·.id) ++ [tc.id]) ms).length ≤
          (withoutResults (tcs.map (·.id)) ms).length := by
        rw [withoutResults_concat]
        split
        · exact Nat.le_refl _
        · exact List.length_eraseP_le
      have hrepeats : repeats (tcs.map (·.id)) ≤ repeats (tcs.map (·.id) ++ [tc.id]) := by
        rw [repeats_concat]
        split <;> omega
      exact Nat.lt_of_le_of_lt hle (Nat.lt_of_lt_of_le ih hrepeats)
    | ok g =>
      rw [hg] at ih
      obtain ⟨stepped, h⟩ := ih
      change match ([tc].foldlM Gap.settle g) with | .ok g => _ | .error _ => _
      rw [List.foldlM_cons]
      unfold Gap.settle
      cases hblock : g.block.find? (answers tc.id) with
      | some result =>
        cases hlater : g.later with
        | nil => exact h.overrun hblock hlater
        | cons next later => exact h.step_over hblock hlater
      | none =>
        cases hlater : g.later.find? (answers tc.id) with
        | some result => exact ⟨stepped, h.append hblock (List.find?_some hlater)⟩
        | none =>
          have happend := h.append hblock (answers_interrupted tc)
          rw [List.eraseP_of_forall_not fun m hm hx => List.find?_eq_none.mp hlater m hm hx] at happend
          exact ⟨stepped, happend⟩

/-- There is a walk to the end exactly when there is room. -/
theorem roomy_iff_walked (ms : List ChatMessage) : Roomy ms ↔ ∃ out n, Walked ms out n := by
  constructor
  · intro h
    induction h with
    | nil => exact ⟨[], 0, .nil⟩
    | pass hm _ ih =>
      obtain ⟨out, n, h⟩ := ih
      exact ⟨_, n, .pass hm h⟩
    | @calls m ms hm hroom _ ih =>
      obtain ⟨out, n, hwalked⟩ := ih
      have hspec := foldlM_settle_spec (unanswered m ms) (ms.dropWhile isTool)
      cases hg : gapAfter m ms with
      | error e =>
        rw [gapAfter] at hg
        rw [hg] at hspec
        exact absurd hroom (Nat.not_le_of_lt hspec)
      | ok g =>
        have hg' := hg
        rw [gapAfter] at hg'
        rw [hg'] at hspec
        obtain ⟨stepped, hsettled⟩ := hspec
        rw [hsettled.later, ← hsettled.length, List.drop_left] at hwalked
        exact ⟨_, _, .calls hm hg hwalked⟩
  · rintro ⟨out, n, h⟩
    induction h with
    | nil => exact .nil
    | pass hm _ ih => exact .pass hm ih
    | @calls m ms out n g hm hg _ ih =>
      have hspec := foldlM_settle_spec (unanswered m ms) (ms.dropWhile isTool)
      rw [gapAfter] at hg
      rw [hg] at hspec
      obtain ⟨stepped, hsettled⟩ := hspec
      refine .calls hm ?_ ?_
      · rw [hsettled.later, ← hsettled.length, List.length_append]
        omega
      · rw [hsettled.later, ← hsettled.length, List.drop_left]
        exact ih

/-- The messages that are not tool results. -/
def spoken (ms : List ChatMessage) : List ChatMessage := ms.filter fun m => !isTool m

@[simp] theorem spoken_append (xs ys : List ChatMessage) : spoken (xs ++ ys) = spoken xs ++ spoken ys :=
  List.filter_append ..

theorem spoken_eq_nil {xs : List ChatMessage} (h : ∀ m ∈ xs, isTool m = true) : spoken xs = [] := by
  rw [spoken, List.filter_eq_nil_iff]
  intro m hm
  simp [h m hm]

theorem spoken_eraseP (x : String) (ms : List ChatMessage) : spoken (ms.eraseP (answers x)) = spoken ms := by
  rcases List.exists_or_eq_self_of_eraseP (answers x) ms with heq | ⟨m, pre, post, -, hm, hms, herase⟩
  · rw [heq]
  · have hone : spoken (m :: post) = spoken post :=
      List.filter_cons_of_neg (by simp [isTool_of_answers hm])
    rw [herase, hms, spoken_append, spoken_append, hone]

theorem spoken_settle {g g' : Gap} {tc : ToolCall} (h : g.settle tc = .ok g') :
    spoken (g'.block ++ g'.later) = spoken (g.block ++ g.later) := by
  have htool {m : ChatMessage} (hm : answers tc.id m = true) : spoken [m] = [] :=
    spoken_eq_nil fun _ hx => by rw [List.mem_singleton.mp hx]; exact isTool_of_answers hm
  unfold Gap.settle at h
  split at h
  · rename_i result hfind
    split at h
    · cases h
    · rename_i next later hlater
      cases h
      have hpair : [next, result] = [next] ++ [result] := rfl
      have hcons : next :: later = [next] ++ later := rfl
      rw [hlater, hpair, hcons]
      simp only [spoken_append, spoken_eraseP, htool (List.find?_some hfind), List.nil_append, List.append_assoc]
  · split at h
    · rename_i result hfind
      cases h
      simp only [spoken_append, spoken_eraseP, htool (List.find?_some hfind), List.append_nil]
    · cases h
      simp only [spoken_append, htool (answers_interrupted tc), List.append_nil]

theorem spoken_foldlM {tcs : List ToolCall} {g g' : Gap} (h : tcs.foldlM Gap.settle g = .ok g') :
    spoken (g'.block ++ g'.later) = spoken (g.block ++ g.later) :=
  foldlM_settle_invariant (fun _ _ _ hsame hsettle => (spoken_settle hsettle).trans hsame)
    (P := fun x => spoken (x.block ++ x.later) = spoken (g.block ++ g.later)) rfl h

theorem spoken_walked {ms out : List ChatMessage} {n : Nat} (h : Walked ms out n) : spoken out = spoken ms := by
  induction h with
  | nil => rfl
  | @pass m ms out n _ _ ih =>
    have hout : m :: out = [m] ++ out := rfl
    have hms : m :: ms = [m] ++ ms := rfl
    rw [hout, hms, spoken_append, spoken_append, ih]
  | @calls m ms out n g _ hg _ ih =>
    have hgap : spoken (g.block ++ g.later) = spoken (ms.dropWhile isTool) := spoken_foldlM hg
    have hms : m :: ms = (m :: ms.takeWhile isTool) ++ ms.dropWhile isTool := by
      rw [List.cons_append, List.takeWhile_append_dropWhile]
    rw [hms, spoken_append _ (ms.dropWhile isTool), ← hgap]
    simp only [spoken_append, ih, List.append_assoc]

theorem spoken_retain (allowed : List String) (ms : List ChatMessage) : spoken (retain allowed ms) = spoken ms := by
  induction ms generalizing allowed with
  | nil => rfl
  | cons m ms ih =>
    have hcons (m : ChatMessage) (xs : List ChatMessage) : spoken (m :: xs) = spoken [m] ++ spoken xs :=
      spoken_append [m] xs
    rw [retain]
    split
    · rw [hcons, ih, ← hcons]
    · rename_i hrole
      have hnil : spoken [m] = [] := spoken_eq_nil fun x hx => by
        rw [List.mem_singleton.mp hx]
        simp [isTool, hrole]
      split
      · rw [hcons, ih, ← hcons]
      · rw [ih, hcons, hnil, List.nil_append]
    · rw [hcons, ih, ← hcons]

/-- The repair is the walk and then the clearing away. -/
theorem repairToolPairs_of_walked {ms out : List ChatMessage} {n : Nat} (h : Walked ms out n) :
    repairToolPairs ms = .ok (retain [] out, n + (out.length - (retain [] out).length)) := by
  have hwalk := walk_of_walked h (Nat.le_refl _) [] 0
  rw [List.nil_append, List.nil_append, List.length_nil, Nat.zero_add] at hwalk
  rw [repairToolPairs, hwalk]

/-- The walk takes no more turns than there are messages: with more, the answer is the same. -/
theorem walk_fuel_irrelevant (ms : List ChatMessage) {fuel : Nat} (h : ms.length ≤ fuel) :
    walk fuel ms 0 0 = walk ms.length ms 0 0 := by
  rcases walked_or_outOfRange ms with ⟨out, n, hwalked⟩ | hfault
  · exact (walk_of_walked hwalked h [] 0).trans (walk_of_walked hwalked (Nat.le_refl _) [] 0).symm
  · exact (hfault fuel h [] 0).trans (hfault ms.length (Nat.le_refl _) [] 0).symm

theorem roomy_of_repaired {messages : List ChatMessage} {out : List ChatMessage × Nat}
    (h : repairToolPairs messages = .ok out) : Roomy messages := by
  rw [roomy_iff_walked]
  rcases walked_or_outOfRange messages with hwalked | hfault
  · exact hwalked
  · have hwalk := hfault messages.length (Nat.le_refl _) [] 0
    rw [List.nil_append, List.length_nil] at hwalk
    rw [repairToolPairs, hwalk] at h
    cases h

theorem repaired_of_roomy {messages : List ChatMessage} (h : Roomy messages) :
    ∃ out, repairToolPairs messages = .ok out := by
  obtain ⟨out, n, hwalked⟩ := (roomy_iff_walked messages).mp h
  exact ⟨_, repairToolPairs_of_walked hwalked⟩

theorem spoken_of_repaired {messages repaired : List ChatMessage} {fixed : Nat}
    (h : repairToolPairs messages = .ok (repaired, fixed)) : spoken repaired = spoken messages := by
  obtain ⟨out, n, hwalked⟩ := (roomy_iff_walked messages).mp (roomy_of_repaired h)
  rw [repairToolPairs_of_walked hwalked] at h
  obtain ⟨rfl, -⟩ := Prod.mk.inj (Except.ok.inj h)
  rw [spoken_retain, spoken_walked hwalked]

/-- The repair ends with every index in range, and the messages other than tool results unchanged,
exactly when repeated calls without a result have room. -/
theorem repairToolPairs_total_iff_roomy (messages : List ChatMessage) :
    (∃ repaired fixed, repairToolPairs messages = .ok (repaired, fixed) ∧ spoken repaired = spoken messages) ↔
      Roomy messages := by
  constructor
  · rintro ⟨repaired, fixed, hrepair, -⟩
    exact roomy_of_repaired hrepair
  · intro hroomy
    obtain ⟨⟨repaired, fixed⟩, hrepair⟩ := repaired_of_roomy hroomy
    exact ⟨repaired, fixed, hrepair, spoken_of_repaired hrepair⟩

/-- An assistant message that only calls the tool `name`, once for each id. -/
def assistantCalling (name : String) (ids : List String) : ChatMessage where
  role := .assistant
  toolCalls := ids.map fun id => ⟨id, name, "\x7b\x7d", none⟩

/-- Two calls with one id, cut off before any result: the second finds the result made up for the
first, takes it out, and inserts past the end. -/
theorem repeated_call_leaves_the_range :
    repairToolPairs [assistantCalling "fs_pods_list" ["a", "a"]] = .error .outOfRange ∧
      ¬∃ repaired fixed, repairToolPairs [assistantCalling "fs_pods_list" ["a", "a"]] = .ok (repaired, fixed) ∧
        spoken repaired = spoken [assistantCalling "fs_pods_list" ["a", "a"]] := by
  have hfault : repairToolPairs [assistantCalling "fs_pods_list" ["a", "a"]] = .error .outOfRange := by decide
  refine ⟨hfault, ?_⟩
  rintro ⟨repaired, fixed, hrepair, -⟩
  rw [hfault] at hrepair
  cases hrepair

theorem eraseDups_of_nodup {ids : List String} (h : ids.Nodup) : ids.eraseDups = ids := by
  induction ids using List.reverseRecOn with
  | nil => rfl
  | append_singleton ids x ih =>
    rw [List.nodup_append] at h
    rw [eraseDups_concat, if_neg fun hx => h.2.2 x hx x (List.mem_singleton_self x) rfl, ih h.1]

theorem repeats_of_nodup {ids : List String} (h : ids.Nodup) : repeats ids = 0 := by
  rw [repeats, eraseDups_of_nodup h, Nat.sub_self]

theorem withoutResults_sublist (ids : List String) (ms : List ChatMessage) : (withoutResults ids ms).Sublist ms := by
  unfold withoutResults
  generalize ids.eraseDups = ids
  induction ids generalizing ms with
  | nil => exact List.Sublist.refl ms
  | cons x ids ih => exact (ih (ms.eraseP (answers x))).trans List.eraseP_sublist

theorem unanswered_ids_sublist (m : ChatMessage) (ms : List ChatMessage) :
    ((unanswered m ms).map (·.id)).Sublist (callIds m) :=
  List.filter_sublist.map _

/-- Where no assistant message repeats an id, there is always room. -/
theorem roomy_of_nodup {ms : List ChatMessage} (h : ∀ m ∈ ms, callsTools m = true → (callIds m).Nodup) :
    Roomy ms := by
  induction hlen : ms.length using Nat.strong_induction_on generalizing ms with
  | h len ih =>
    subst hlen
    cases ms with
    | nil => exact .nil
    | cons m ms =>
      have htail : ∀ m ∈ ms, callsTools m = true → (callIds m).Nodup :=
        fun m' hm' => h m' (List.mem_cons_of_mem m hm')
      cases hm : callsTools m with
      | false => exact .pass hm (ih ms.length (by simp) htail rfl)
      | true =>
        have hzero : repeats ((unanswered m ms).map (·.id)) = 0 :=
          repeats_of_nodup ((unanswered_ids_sublist m ms).nodup (h m List.mem_cons_self hm))
        have hsub : (withoutResults ((unanswered m ms).map (·.id)) (ms.dropWhile isTool)).Sublist ms :=
          (withoutResults_sublist _ _).trans (List.dropWhile_sublist isTool)
        refine .calls hm (by omega) ?_
        rw [hzero, List.drop_zero]
        refine ih _ ?_ (fun m' hm' => htail m' (hsub.subset hm')) rfl
        rw [List.length_cons]
        exact Nat.lt_succ_of_le hsub.length_le

end FerrisScope.ToolPairs
