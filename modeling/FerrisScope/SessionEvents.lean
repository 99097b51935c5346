import FerrisScope.ChatMessages

/-!
# Events of a chat session

The records of the session log, one for each line. On replay the last compaction marker stands
for everything before it: its summary becomes an assistant message, followed by the messages it
kept, and then come the later records. A doubly optional field of an update is a sentinel: `none`
leaves the value alone, `some none` clears it and `some (some v)` sets it. Floating-point values
are kept by their bits.
-/

namespace FerrisScope.SessionEvents
open ChatMessages

inductive ApprovalDecision where
  | approved
  | denied
  | approvedAlways
  deriving DecidableEq, Repr

inductive ApprovalMode where
  | approvePerWrite
  | allowAllWrites
  deriving DecidableEq, Repr

structure SessionUpdate where
  title : Option String := none
  model : Option String := none
  approvalMode : Option ApprovalMode := none
  temperature : Option (Option UInt32) := none
  maxTokens : Option (Option UInt32) := none
  providerOptions : Option (Option Value) := none
  activeClusterId : Option (Option String) := none
  deriving DecidableEq

inductive SessionEvent where
  | message (message : ChatMessage) (ts : Int64)
  | approval (toolCallId : String) (decision : ApprovalDecision) (ts : Int64)
  | sessionUpdate (update : SessionUpdate) (ts : Int64)
  | toolResult (call : ToolCall) (result : String) (error : Option String) (ts : Int64)
  | usage (promptTokens completionTokens totalTokens : UInt32) (ts : Int64)
  | compaction (headMessageCount tokensBefore : UInt32) (summary : String) (tail : List ChatMessage) (ts : Int64)
  deriving DecidableEq

/-- The message a summary is replayed as. -/
def checkpoint (summary : String) : ChatMessage where
  role := .assistant
  content := "[context checkpoint]\n" ++ summary
  name := some "context_checkpoint"

/-- What replay needs of a compaction marker. -/
structure Marker where
  summary : String
  kept : List ChatMessage
  ts : Int64
  deriving DecidableEq

def markerOf : SessionEvent → Option Marker
  | .compaction _ _ summary tail ts => some ⟨summary, tail, ts⟩
  | _ => none

/-- The last marker and the records after it. -/
def lastCompaction : List SessionEvent → Option (Marker × List SessionEvent)
  | [] => none
  | e :: es => (lastCompaction es).or ((markerOf e).map (·, es))

/-- What replay makes of a marker and of the records after it. -/
def fold (m : Marker) (later : List SessionEvent) : List SessionEvent :=
  .message (checkpoint m.summary) m.ts :: (m.kept.map (.message · m.ts) ++ later)

def applyCompaction (events : List SessionEvent) : List SessionEvent :=
  match lastCompaction events with
  | none => events
  | some (m, later) => fold m later

def messageOf : SessionEvent → Option ChatMessage
  | .message m _ => some m
  | _ => none

/-- The transcript a chat is opened with, before its repair. -/
def replay (events : List SessionEvent) : List ChatMessage := (applyCompaction events).filterMap messageOf

theorem lastCompaction_append (es later : List SessionEvent) :
    lastCompaction (es ++ later) =
      (lastCompaction later).or ((lastCompaction es).map fun f => (f.1, f.2 ++ later)) := by
  induction es with
  | nil => simp [lastCompaction]
  | cons e es ih =>
    rw [List.cons_append, lastCompaction, ih, lastCompaction]
    cases lastCompaction later with
    | some found => rfl
    | none =>
      cases lastCompaction es with
      | some found => rfl
      | none => cases markerOf e <;> rfl

/-- One more record that is not a marker comes last on replay. -/
theorem replay_concat (es : List SessionEvent) {e : SessionEvent} (he : markerOf e = none) :
    replay (es ++ [e]) = replay es ++ (messageOf e).toList := by
  have hlast : lastCompaction [e] = none := by rw [lastCompaction, lastCompaction, he]; rfl
  have hone : [e].filterMap messageOf = (messageOf e).toList := by cases h : messageOf e <;> simp [h]
  rw [replay, replay, applyCompaction, applyCompaction, lastCompaction_append, hlast]
  cases lastCompaction es with
  | none => simp [hone]
  | some found =>
    simp only [Option.none_or, Option.map_some, fold]
    rw [← hone, ← List.filterMap_append, List.cons_append, List.append_assoc]

/-- A marker replaces all that came before it. -/
theorem replay_compaction (es : List SessionEvent) (n t : UInt32) (summary : String) (tail : List ChatMessage) (ts : Int64) :
    replay (es ++ [.compaction n t summary tail ts]) = checkpoint summary :: tail := by
  have hlast : lastCompaction [.compaction n t summary tail ts] = some (⟨summary, tail, ts⟩, []) := rfl
  rw [replay, applyCompaction, lastCompaction_append, hlast]
  simp [fold, messageOf, List.filterMap_map, Function.comp_def]

end FerrisScope.SessionEvents
