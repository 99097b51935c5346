import FerrisScope.LogFollow

/-!
# Forwarding a log stream in frames

The events of a stream are sent on as frames. Lines that wait in the queue are put into one frame, up to a limit. What
stops the collecting of lines is carried behind their frame.
-/

namespace FerrisScope.LogForwarder
open LogFollow (LogEvent)

inductive Frame where
  | line (text : String)
  | batch (lines : List String)
  | lagged (dropped : ℕ)
  | waiting (reason : String)
  | ended (reason : String)
  | interrupted (reason : String)
  deriving DecidableEq, Repr

def ofEvent : LogEvent → Frame
  | .line text => .line text
  | .waiting reason => .waiting reason
  | .ended reason => .ended reason
  | .interrupted reason => .interrupted reason

/-- What a receive gives. Nothing is there for a `try_recv` that finds the queue empty. -/
inductive Signal where
  | event (e : LogEvent)
  | lagged (n : ℕ)
  | empty
  | closed
  deriving DecidableEq, Repr

def logBatchMax : ℕ := 64

def streamTornDown : Frame := .interrupted "cluster connection reset"

def isFinalLogEvent : Frame → Bool
  | .ended _ | .interrupted _ => true
  | _ => false

structure Drained where
  lines : List String
  trailing : Option Frame
  rest : List Signal
  deriving DecidableEq, Repr

/-- The backlog behind the first line. -/
def drain (lines : List String) : List Signal → Drained
  | [] => ⟨lines, none, []⟩
  | signal :: rest =>
      if lines.length < logBatchMax then
        match signal with
        | .event (.line text) => drain (lines ++ [text]) rest
        | .event other => ⟨lines, some (ofEvent other), rest⟩
        | .empty => ⟨lines, none, rest⟩
        | .lagged n => ⟨lines, some (.lagged n), rest⟩
        | .closed => ⟨lines, some streamTornDown, rest⟩
      else ⟨lines, none, signal :: rest⟩

def payload : List String → Frame
  | [text] => .line text
  | lines => .batch lines

theorem drain_rest_length (lines : List String) (signals : List Signal) :
    (drain lines signals).rest.length ≤ signals.length := by
  induction signals generalizing lines with
  | nil => exact Nat.le_refl _
  | cons signal rest ih =>
    rw [drain.eq_def]
    dsimp only
    split
    · split
      · exact Nat.le_succ_of_le (ih _)
      all_goals exact Nat.le_succ _
    · exact Nat.le_refl _

/-- The frames that are sent, from the one with this number on; `accepts` says whether a send goes through. The first
that does not is the end of the forwarder. Without a further signal it waits. -/
def forward (accepts : ℕ → Bool) (sent : ℕ) : List Signal → List Frame
  | [] => []
  | .empty :: rest => forward accepts sent rest
  | .lagged n :: rest => if accepts sent then .lagged n :: forward accepts (sent + 1) rest else []
  | .closed :: _ => if accepts sent then [streamTornDown] else []
  | .event (.line text) :: rest =>
      if accepts sent then
        payload (drain [text] rest).lines ::
          match (drain [text] rest).trailing with
          | none => forward accepts (sent + 1) (drain [text] rest).rest
          | some t =>
              if accepts (sent + 1) then
                t :: if isFinalLogEvent t then [] else forward accepts (sent + 2) (drain [text] rest).rest
              else []
      else []
  | .event first :: rest =>
      if accepts sent then
        ofEvent first :: if isFinalLogEvent (ofEvent first) then [] else forward accepts (sent + 1) rest
      else []
termination_by signals => signals.length
decreasing_by
  all_goals simp only [List.length_cons]
  all_goals first | exact Nat.lt_succ_of_le (drain_rest_length _ _) | exact Nat.lt_succ_self _

/-- The frames on a channel that accepts them all. -/
def frames (signals : List Signal) : List Frame := forward (fun _ => true) 0 signals

def flatten : Frame → List Frame
  | .batch lines => lines.map .line
  | f => [f]

/-- The events of the signals up to a final one, with a marker for each gap. -/
def received : List Signal → List Frame
  | [] => []
  | .empty :: rest => received rest
  | .lagged n :: rest => .lagged n :: received rest
  | .closed :: _ => [streamTornDown]
  | .event e :: rest => ofEvent e :: if isFinalLogEvent (ofEvent e) then [] else received rest

def Signal.isFinal : Signal → Bool
  | .closed => true
  | .event e => isFinalLogEvent (ofEvent e)
  | _ => false

/-- There is one final frame, and it is the last one. -/
def Finished (fs : List Frame) : Prop :=
  ∃ front last, fs = front ++ [last] ∧ isFinalLogEvent last = true ∧ ∀ f ∈ front, isFinalLogEvent f = false

/-- The frames say what was received. -/
structure Faithful (signals : List Signal) (fs : List Frame) : Prop where
  events : fs.flatMap flatten = received signals
  batches : ∀ lines, .batch lines ∈ fs → lines.length ≤ logBatchMax
  finished : (∃ s ∈ signals, s.isFinal = true) → Finished fs
  running : (∀ s ∈ signals, s.isFinal = false) → ∀ f ∈ fs, isFinalLogEvent f = false

/-! ## One round -/

/-- What comes behind the frame of the lines. -/
def carried (trailing : Option Frame) (more : List Frame) : List Frame :=
  match trailing with
  | none => more
  | some t => t :: if isFinalLogEvent t then [] else more

theorem flatten_payload (lines : List String) : flatten (payload lines) = lines.map .line := by
  match lines with
  | [] => rfl
  | [text] => rfl
  | _ :: _ :: _ => rfl

theorem isFinal_payload (lines : List String) : isFinalLogEvent (payload lines) = false := by
  match lines with
  | [] => rfl
  | [text] => rfl
  | _ :: _ :: _ => rfl

theorem flatten_ofEvent (e : LogEvent) : flatten (ofEvent e) = [ofEvent e] := by
  cases e <;> rfl

/-- The signals that the collecting took, and the one it stopped at, are in what it leaves. -/
structure DrainSpec (lines : List String) (signals : List Signal) (d : Drained) : Prop where
  events : d.lines.map .line ++ carried d.trailing (received d.rest) = lines.map .line ++ received signals
  length : lines.length ≤ logBatchMax → d.lines.length ≤ logBatchMax
  single : ∀ t, d.trailing = some t → flatten t = [t]
  final : (∃ s ∈ signals, s.isFinal = true) ↔
    (∃ t, d.trailing = some t ∧ isFinalLogEvent t = true) ∨ ∃ s ∈ d.rest, s.isFinal = true

theorem drain_spec (lines : List String) (signals : List Signal) : DrainSpec lines signals (drain lines signals) := by
  induction signals generalizing lines with
  | nil => exact ⟨rfl, id, by simp [drain], by simp [drain]⟩
  | cons signal rest ih =>
    rw [drain.eq_def]
    dsimp only
    by_cases hlines : lines.length < logBatchMax
    · rw [if_pos hlines]
      cases signal with
      | event e =>
        cases e with
        | line text =>
          have hnext := ih (lines ++ [text])
          refine ⟨?_, fun _ => hnext.length ?_, hnext.single, ?_⟩
          · rw [hnext.events, List.map_append, List.append_assoc]
            rfl
          · rw [List.length_append]
            exact hlines
          · rw [← hnext.final]
            simp [Signal.isFinal, isFinalLogEvent, ofEvent]
        | waiting reason => exact ⟨rfl, id, by simp [flatten_ofEvent], by simp [Signal.isFinal]⟩
        | ended reason => exact ⟨rfl, id, by simp [flatten_ofEvent], by simp [Signal.isFinal]⟩
        | interrupted reason => exact ⟨rfl, id, by simp [flatten_ofEvent], by simp [Signal.isFinal]⟩
      | lagged n => exact ⟨rfl, id, by simp [flatten], by simp [Signal.isFinal, isFinalLogEvent]⟩
      | empty => exact ⟨rfl, id, by simp, by simp [Signal.isFinal]⟩
      | closed => exact ⟨rfl, id, by simp [flatten, streamTornDown], by simp [Signal.isFinal, isFinalLogEvent, streamTornDown]⟩
    · rw [if_neg hlines]
      exact ⟨rfl, id, by simp, by simp⟩

/-! ## All rounds -/

section Rounds

variable {signals rest : List Signal} {fs : List Frame}

theorem Finished.cons {f : Frame} (hf : isFinalLogEvent f = false) (h : Finished fs) : Finished (f :: fs) := by
  obtain ⟨front, last, rfl, hlast, hfront⟩ := h
  exact ⟨f :: front, last, rfl, hlast, List.forall_mem_cons.mpr ⟨hf, hfront⟩⟩

theorem finished_singleton {f : Frame} (hf : isFinalLogEvent f = true) : Finished [f] :=
  ⟨[], f, rfl, hf, fun _ h => absurd h List.not_mem_nil⟩

/-- A frame that ends nothing, before the frames of what comes after it. -/
theorem Faithful.cons {f : Frame} {signal : Signal} (h : Faithful rest fs) (hf : isFinalLogEvent f = false)
    (hflat : flatten f = [f]) (hreceived : received (signal :: rest) = f :: received rest)
    (hsignal : signal.isFinal = false) : Faithful (signal :: rest) (f :: fs) := by
  refine ⟨?_, ?_, ?_, ?_⟩
  · rw [List.flatMap_cons, h.events, hflat, hreceived]
    rfl
  · intro lines hmem
    rcases List.mem_cons.mp hmem with rfl | hmem
    · cases lines with
      | nil => exact Nat.zero_le _
      | cons => cases hflat
    · exact h.batches lines hmem
  · intro hfinal
    rw [List.exists_mem_cons_iff] at hfinal
    exact (h.finished (hfinal.resolve_left (by simp [hsignal]))).cons hf
  · intro hall
    exact List.forall_mem_cons.mpr ⟨hf, h.running (List.forall_mem_cons.mp hall).2⟩

/-- The last frame. -/
theorem faithful_final {f : Frame} {signal : Signal} (hf : isFinalLogEvent f = true) (hflat : flatten f = [f])
    (hreceived : received (signal :: rest) = [f]) (hsignal : signal.isFinal = true) : Faithful (signal :: rest) [f] := by
  refine ⟨?_, ?_, fun _ => finished_singleton hf, fun hall => ?_⟩
  · rw [hreceived, List.flatMap_singleton, hflat]
  · intro lines hmem
    rw [← List.mem_singleton.mp hmem] at hf
    cases hf
  · rw [(List.forall_mem_cons.mp hall).1] at hsignal
    cases hsignal

theorem payload_length {lines lines' : List String} (h : Frame.batch lines = payload lines') : lines' = lines := by
  match lines' with
  | [] => exact (Frame.batch.inj h).symm
  | [text] => cases h
  | _ :: _ :: _ => exact (Frame.batch.inj h).symm

theorem carried_flatMap {trailing : Option Frame} (h : ∀ t, trailing = some t → flatten t = [t]) (fs : List Frame) :
    (carried trailing fs).flatMap flatten = carried trailing (fs.flatMap flatten) := by
  cases trailing with
  | none => rfl
  | some t =>
    rw [carried, carried, List.flatMap_cons, h t rfl]
    split <;> rfl

theorem mem_carried {trailing : Option Frame} {f : Frame} (h : f ∈ carried trailing fs) : trailing = some f ∨ f ∈ fs := by
  cases trailing with
  | none => exact Or.inr h
  | some t =>
    rcases List.mem_cons.mp h with rfl | h
    · exact Or.inl rfl
    · split at h
      · cases h
      · exact Or.inr h

theorem finished_carried {trailing : Option Frame}
    (h : (∃ t, trailing = some t ∧ isFinalLogEvent t = true) ∨ Finished fs) : Finished (carried trailing fs) := by
  cases trailing with
  | none => exact h.resolve_left (by simp)
  | some t =>
    rw [carried]
    by_cases ht : isFinalLogEvent t = true
    · rw [if_pos ht]
      exact finished_singleton ht
    · rw [if_neg ht]
      have hfs := h.resolve_left fun ⟨t', ht', hf⟩ => ht (Option.some_inj.mp ht' ▸ hf)
      exact hfs.cons (Bool.eq_false_iff.mpr ht)

/-- A frame of lines, before what stopped the collecting and the frames of what comes after it. -/
theorem Faithful.drained {text : String} (h : Faithful (drain [text] rest).rest fs) :
    Faithful (.event (.line text) :: rest)
      (payload (drain [text] rest).lines :: carried (drain [text] rest).trailing fs) := by
  have hspec := drain_spec [text] rest
  generalize drain [text] rest = d at h hspec
  have hone : [text].length ≤ logBatchMax := by simp [logBatchMax]
  have hfinal : (∃ s ∈ Signal.event (.line text) :: rest, s.isFinal = true) ↔
      (∃ t, d.trailing = some t ∧ isFinalLogEvent t = true) ∨ ∃ s ∈ d.rest, s.isFinal = true := by
    rw [List.exists_mem_cons_iff, ← hspec.final]
    simp [Signal.isFinal, isFinalLogEvent, ofEvent]
  refine ⟨?_, ?_, ?_, ?_⟩
  · rw [List.flatMap_cons, flatten_payload, carried_flatMap hspec.single, h.events, hspec.events]
    rfl
  · intro lines hmem
    rcases List.mem_cons.mp hmem with heq | hmem
    · rw [← payload_length heq]
      exact hspec.length hone
    · rcases mem_carried hmem with ht | hmem
      · cases lines with
        | nil => exact Nat.zero_le _
        | cons => cases hspec.single _ ht
      · exact h.batches lines hmem
  · intro hsignal
    exact (finished_carried ((hfinal.mp hsignal).imp_right h.finished)).cons (isFinal_payload _)
  · intro hall
    have hnone : ¬ ∃ s ∈ Signal.event (.line text) :: rest, s.isFinal = true := fun ⟨s, hs, hsf⟩ =>
      absurd ((hall s hs).symm.trans hsf) Bool.noConfusion
    obtain ⟨htrailing, hrest⟩ := not_or.mp (mt hfinal.mpr hnone)
    refine List.forall_mem_cons.mpr ⟨isFinal_payload _, fun f hf => ?_⟩
    rcases mem_carried hf with ht | hf
    · exact Bool.eq_false_iff.mpr fun hff => htrailing ⟨f, ht, hff⟩
    · exact h.running (fun s hs => Bool.eq_false_iff.mpr fun hsf => hrest ⟨s, hs, hsf⟩) f hf

/-- A round that begins with a line, when every send goes through. -/
theorem forward_line (n : ℕ) (text : String) (rest : List Signal) :
    ∃ m, forward (fun _ => true) n (.event (.line text) :: rest) = payload (drain [text] rest).lines ::
      carried (drain [text] rest).trailing (forward (fun _ => true) m (drain [text] rest).rest) := by
  rw [forward, if_pos rfl]
  cases (drain [text] rest).trailing with
  | none => exact ⟨n + 1, rfl⟩
  | some t => exact ⟨n + 2, rfl⟩

/-- A round that begins with something else. -/
theorem forward_other (accepts : ℕ → Bool) (n : ℕ) {e : LogEvent} (h : ∀ text, e ≠ .line text) (rest : List Signal) :
    forward accepts n (.event e :: rest) = if accepts n then
      ofEvent e :: if isFinalLogEvent (ofEvent e) then [] else forward accepts (n + 1) rest else [] := by
  rw [forward]
  exact h

theorem faithful_forward (n : ℕ) (signals : List Signal) : Faithful signals (forward (fun _ => true) n signals) := by
  induction hlen : signals.length using Nat.strong_induction_on generalizing n signals with
  | _ len ih =>
    subst hlen
    match signals with
    | [] =>
      rw [forward]
      exact ⟨rfl, fun _ h => absurd h List.not_mem_nil, fun h => by simp at h, fun _ _ h => absurd h List.not_mem_nil⟩
    | .empty :: rest =>
      have hrest := ih rest.length (Nat.lt_succ_self _) n rest rfl
      rw [forward]
      refine ⟨hrest.events, hrest.batches, fun h => hrest.finished ?_, fun h => hrest.running (List.forall_mem_cons.mp h).2⟩
      rw [List.exists_mem_cons_iff] at h
      exact h.resolve_left (by simp [Signal.isFinal])
    | .lagged k :: rest =>
      rw [forward, if_pos rfl]
      exact (ih rest.length (Nat.lt_succ_self _) (n + 1) rest rfl).cons rfl rfl rfl rfl
    | .closed :: rest =>
      rw [forward, if_pos rfl]
      exact faithful_final rfl rfl rfl rfl
    | .event (.line text) :: rest =>
      obtain ⟨m, hm⟩ := forward_line n text rest
      rw [hm]
      exact (ih _ (Nat.lt_succ_of_le (drain_rest_length _ _)) m _ rfl).drained
    | .event (.waiting reason) :: rest =>
      rw [forward_other _ n (fun _ h => by cases h), if_pos rfl]
      exact (ih rest.length (Nat.lt_succ_self _) (n + 1) rest rfl).cons rfl rfl rfl rfl
    | .event (.ended reason) :: rest =>
      rw [forward_other _ n (fun _ h => by cases h), if_pos rfl]
      exact faithful_final rfl rfl rfl rfl
    | .event (.interrupted reason) :: rest =>
      rw [forward_other _ n (fun _ h => by cases h), if_pos rfl]
      exact faithful_final rfl rfl rfl rfl

theorem prefix_ite {f : Frame} {c : Bool} {fs gs : List Frame} (h : fs <+: gs) :
    (if c then f :: fs else []) <+: f :: gs := by
  split
  · exact List.cons_prefix_cons.mpr ⟨rfl, h⟩
  · exact List.nil_prefix

/-- With a send that fails, the frames before it are sent. -/
theorem forward_prefix (accepts : ℕ → Bool) (n m : ℕ) (signals : List Signal) :
    forward accepts n signals <+: forward (fun _ => true) m signals := by
  induction hlen : signals.length using Nat.strong_induction_on generalizing n m signals with
  | _ len ih =>
    subst hlen
    have hnext : ∀ {rest : List Signal}, rest.length < signals.length → ∀ (n m : ℕ) (c : Bool),
        (if c then [] else forward accepts n rest) <+: if c then [] else forward (fun _ => true) m rest := by
      intro rest hlt n m c
      cases c with
      | true => exact List.prefix_refl _
      | false => exact ih rest.length hlt n m rest rfl
    have hother : ∀ {e : LogEvent} {rest : List Signal}, signals = .event e :: rest → (∀ text, e ≠ .line text) →
        forward accepts n signals <+: forward (fun _ => true) m signals := by
      rintro e rest rfl he
      rw [forward_other accepts n he, forward_other _ m he, if_pos rfl]
      exact prefix_ite (hnext (Nat.lt_succ_self _) _ _ _)
    match signals with
    | [] =>
      rw [forward]
      exact List.nil_prefix
    | .empty :: rest =>
      rw [forward, forward]
      exact hnext (Nat.lt_succ_self _) n m false
    | .lagged k :: rest =>
      rw [forward, forward, if_pos rfl]
      exact prefix_ite (hnext (Nat.lt_succ_self _) _ _ false)
    | .closed :: rest =>
      rw [forward, forward, if_pos rfl]
      exact prefix_ite (List.prefix_refl _)
    | .event (.line text) :: rest =>
      have hlt : (drain [text] rest).rest.length < (Signal.event (.line text) :: rest).length :=
        Nat.lt_succ_of_le (drain_rest_length _ _)
      rw [forward, forward, if_pos rfl]
      apply prefix_ite
      cases (drain [text] rest).trailing with
      | none => exact hnext hlt _ _ false
      | some t =>
        dsimp only
        rw [if_pos rfl]
        exact prefix_ite (hnext hlt _ _ _)
    | .event (.waiting reason) :: rest =>
      exact hother rfl fun _ h => by cases h
    | .event (.ended reason) :: rest =>
      exact hother rfl fun _ h => by cases h
    | .event (.interrupted reason) :: rest =>
      exact hother rfl fun _ h => by cases h

end Rounds

/-- The frames are faithful, whatever the backlog is; on a channel that stops accepting, a front of them is sent. -/
theorem frames_faithful (signals : List Signal) :
    Faithful signals (frames signals) ∧ ∀ accepts, forward accepts 0 signals <+: frames signals :=
  ⟨faithful_forward 0 signals, fun accepts => forward_prefix accepts 0 0 signals⟩

end FerrisScope.LogForwarder
