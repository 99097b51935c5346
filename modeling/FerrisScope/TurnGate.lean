import FerrisScope.LabelledRuns

/-!
# One turn loop for each chat

A send pushes its message and claims the turn under one lock; only when it has the claim does it start
a loop, after writing the log. Continuing after a compaction does the same. A loop that is done
clears the gate, and cancelling aborts the loop that the gate has a handle of, and drops the claim.

A claim that is dropped while its holder is still writing the log does not stop the holder: it
starts its loop all the same. There is one loop at a time, and the gate is busy whenever there is
one or one is about to start, exactly when nobody cancels in that window.
-/

namespace FerrisScope.TurnGate
open LabelledRuns

/-- The gate, with the loop the handle belongs to. -/
structure Gate where
  handle : Option Nat
  claimed : Bool
  deriving DecidableEq, Repr

namespace Gate

def new : Gate := ⟨none, false⟩

def busy (g : Gate) : Bool := g.handle.isSome || g.claimed

def claim (g : Gate) : Bool × Gate :=
  if g.busy then (false, g) else (true, { g with claimed := true })

def release (g : Gate) : Gate := { g with claimed := false }

def start (_ : Gate) (handle : Nat) : Gate := ⟨some handle, false⟩

def finish (_ : Gate) : Gate := ⟨none, false⟩

/-- The loop to abort, if there is one. -/
def abort (g : Gate) : Option Nat × Gate := (g.handle, ⟨none, false⟩)

end Gate

/-- `loops` are those that run and have not been aborted, `holders` the calls that were given the
claim and have not started their loop yet. -/
structure State where
  gate : Gate
  loops : List Nat
  holders : List Nat
  next : Nat
  deriving DecidableEq, Repr

def chatOpen : State where
  gate := .new
  loops := []
  holders := []
  next := 0

inductive Action where
  | send
  | autocontinue (lastIsAssistant : Bool)
  | spawn (holder : Nat)
  | finish (loop : Nat)
  | cancel
  deriving DecidableEq, Repr

/-- The claim is taken, for the next number. -/
def hold (s : State) (g : Gate) : State :=
  { s with gate := g, holders := s.holders ++ [s.next], next := s.next + 1 }

def step (s : State) : Action → Option State
  | .send =>
    match s.gate.claim with
    | (false, _) => some s
    | (true, g) => some (hold s g)
  | .autocontinue lastIsAssistant =>
    match s.gate.claim with
    | (false, _) => some s
    | (true, g) => if lastIsAssistant then some (hold s g) else some { s with gate := g.release }
  | .spawn h =>
    if s.holders.contains h then some { s with
      gate := s.gate.start h
      loops := s.loops ++ [h]
      holders := s.holders.erase h }
    else none
  | .finish l =>
    if s.loops.contains l then some { s with gate := s.gate.finish, loops := s.loops.erase l } else none
  | .cancel =>
    match s.gate.abort with
    | (none, g) => some { s with gate := g }
    | (some l, g) => some { s with gate := g, loops := s.loops.erase l }

/-- At most one loop runs, and the gate is busy when one does or is about to. -/
structure OneLoop (s : State) : Prop where
  one : s.loops.length ≤ 1
  busy : s.loops ≠ [] ∨ s.holders ≠ [] → s.gate.busy = true

/-- Nobody cancels while a holder of the claim has still to start its loop. -/
def NotInWindow (s : State) : Action → Prop
  | .cancel => s.holders = []
  | _ => True

/-- Where the chat stands: nothing goes on, a holder is about to start, or a loop runs. -/
inductive Standing : State → Prop
  | idle {n} : Standing ⟨⟨none, false⟩, [], [], n⟩
  | held {h n} : Standing ⟨⟨none, true⟩, [], [h], n⟩
  | running {l n} : Standing ⟨⟨some l, false⟩, [l], [], n⟩

theorem Standing.oneLoop {s : State} (h : Standing s) : OneLoop s := by
  cases h with
  | idle => exact ⟨Nat.zero_le _, fun h => by simp at h⟩
  | held => exact ⟨Nat.zero_le _, fun _ => rfl⟩
  | running => exact ⟨Nat.le_refl _, fun _ => rfl⟩

theorem standing_step (s : State) (a : Action) (t : State) (hwindow : NotInWindow s a) (h : Standing s)
    (hstep : step s a = some t) : Standing t := by
  cases h with
  | @idle n =>
    cases a with
    | send =>
      cases hstep
      exact .held
    | autocontinue last =>
      cases last with
      | false =>
        cases hstep
        exact .idle
      | true =>
        cases hstep
        exact .held
    | spawn h => cases hstep
    | finish l => cases hstep
    | cancel =>
      cases hstep
      exact .idle
  | @held h n =>
    cases a with
    | send =>
      cases hstep
      exact .held
    | autocontinue last =>
      cases hstep
      exact .held
    | spawn h' =>
      simp only [step] at hstep
      split at hstep
      · rename_i hmem
        have heq : h' = h := by simpa using hmem
        subst heq
        cases hstep
        have herase : [h'].erase h' = [] := by simp
        simp only [herase]
        exact .running
      · cases hstep
    | finish l => cases hstep
    | cancel => cases hwindow
  | @running l n =>
    cases a with
    | send =>
      cases hstep
      exact .running
    | autocontinue last =>
      cases hstep
      exact .running
    | spawn h => cases hstep
    | finish l' =>
      simp only [step] at hstep
      split at hstep
      · rename_i hmem
        have heq : l' = l := by simpa using hmem
        subst heq
        cases hstep
        have herase : [l'].erase l' = [] := by simp
        simp only [herase]
        exact .idle
      · cases hstep
    | cancel =>
      cases hstep
      have herase : [l].erase l = [] := by simp
      simp only [herase]
      exact .idle

/-- A cancel in the window leaves the gate idle with a holder about to start. -/
theorem not_oneLoop_of_cancel {s t : State} (hholders : s.holders ≠ []) (hstep : step s .cancel = some t) :
    ¬OneLoop t := by
  intro h
  have hidle : t.holders = s.holders ∧ t.gate.busy = false := by
    cases hhandle : s.gate.handle with
    | none =>
      simp only [step, Gate.abort, hhandle] at hstep
      cases hstep
      exact ⟨rfl, rfl⟩
    | some l =>
      simp only [step, Gate.abort, hhandle] at hstep
      cases hstep
      exact ⟨rfl, rfl⟩
  have hbusy := h.busy (.inr (by rw [hidle.1]; exact hholders))
  rw [hidle.2] at hbusy
  cases hbusy

/-- In a run there is one loop at a time, and the gate is busy whenever one runs or is about to
start, exactly when nobody cancels while a holder of the claim has still to start its loop. -/
theorem oneLoop_iff_notInWindow (acts : List Action) (s : State) (hrun : run step chatOpen acts = some s) :
    (∀ done later t, acts = done ++ later → run step chatOpen done = some t → OneLoop t) ↔
      Meets step NotInWindow chatOpen acts := by
  constructor
  · intro hone
    refine meets_of_forall_split fun done a later t hacts ht => ?_
    obtain ⟨t', ht', hlater⟩ := run_append_eq_some.mp (hacts ▸ hrun)
    cases ht.symm.trans ht'
    obtain ⟨u, hu, -⟩ := run_cons_eq_some.mp hlater
    cases a with
    | cancel =>
      by_contra hholders
      have hnext : run step chatOpen (done ++ [.cancel]) = some u :=
        run_append_eq_some.mpr ⟨t, ht, run_cons_eq_some.mpr ⟨u, hu, rfl⟩⟩
      exact not_oneLoop_of_cancel hholders hu (hone (done ++ [.cancel]) later u (by simp [hacts]) hnext)
    | _ => trivial
  · intro hmeets done later t hacts ht
    rw [hacts] at hmeets
    exact (run_invariant_meets standing_step (meets_append.mp hmeets).1 .idle ht).oneLoop

/-- A turn that is cancelled while it runs, and the next one. -/
def cancelledRun : List Action :=
  [.send, .send, .spawn 0, .cancel, .send, .spawn 1, .autocontinue true, .finish 1, .autocontinue false]

theorem cancelledRun_oneLoop :
    run step chatOpen cancelledRun = some ⟨.new, [], [], 2⟩ ∧
    ∀ done later t, cancelledRun = done ++ later → run step chatOpen done = some t → OneLoop t := by
  have hrun : run step chatOpen cancelledRun = some ⟨.new, [], [], 2⟩ := by decide
  have hmeets : Meets step NotInWindow chatOpen cancelledRun := by
    simp [cancelledRun, Meets, NotInWindow, step, chatOpen, Gate.new, Gate.claim, Gate.busy, hold, Gate.start,
      Gate.abort, Gate.finish, Gate.release]
  exact ⟨hrun, (oneLoop_iff_notInWindow cancelledRun _ hrun).mpr hmeets⟩

/-- A cancel between the claim of a send and the start of its loop lets a second send claim the turn
again, and both start a loop. -/
theorem cancelled_claim_starts_twice :
    (run step chatOpen [.send, .cancel, .send, .spawn 1, .spawn 0]).map (fun s => (s.loops, s.gate.handle)) =
      some ([1, 0], some 0) ∧
    ¬∀ acts s, run step chatOpen acts = some s → OneLoop s := by
  refine ⟨by decide, fun h => ?_⟩
  have htwo := (h [.send, .cancel, .send, .spawn 1, .spawn 0] ⟨⟨some 0, false⟩, [1, 0], [], 2⟩ (by decide)).one
  exact absurd htwo (by decide)

end FerrisScope.TurnGate
