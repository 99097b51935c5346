import FerrisScope.ApprovalGate
import FerrisScope.LabelledRuns
import Mathlib.Data.List.Induction

/-!
# The health probe of a cluster

A task asks the apiserver every few seconds whether it still answers, unless a watch has just heard from it. Probes
that fail for a whole window make it declare the cluster unavailable, once, after which it ends. Times
are milliseconds after the start, and a tick carries what the apiserver would answer to it.
-/

namespace FerrisScope.HealthProbe
open ApprovalGate LabelledRuns

def probeInterval : ℕ := 5000

def unhealthyAfter : ℕ := 30000

def probeTimeout : ℕ := 4000

/-- An error of a request with its text. An answer of the apiserver also has a code and a reason. -/
inductive KubeError where
  | api (code : ℕ) (reason message text : String)
  | other (text : String)
  deriving DecidableEq, Repr

def KubeError.toString : KubeError → String
  | .api _ _ _ text => text
  | .other text => text

inductive Liveness where
  | alive
  | restricted (error : String)
  deriving DecidableEq, Repr

def isAnonymous : KubeError → Bool
  | .api _ _ message _ => containsText message.toList "\"system:anonymous\"".toList
  | .other _ => false

def isForbidden : KubeError → Bool
  | .api code reason _ _ => code == 403 && reason == "Forbidden"
  | .other _ => false

/-- What the apiserver answers to the list of namespaces and to `/readyz`, and after how long. -/
structure Answers where
  list : Except KubeError Unit
  ready : Except KubeError Unit
  took : ℕ
  deriving DecidableEq

/-- A refusal proves that the apiserver answered. -/
def readyProbe (a : Answers) : Except KubeError Unit :=
  match a.ready with
  | .ok () => .ok ()
  | .error e => if isForbidden e then .ok () else .error e

def livenessProbe (a : Answers) : Except KubeError Liveness :=
  match a.list with
  | .ok () => .ok .alive
  | .error e =>
    if isForbidden e && !isAnonymous e then
      match readyProbe a with
      | .ok () => .ok (.restricted e.toString)
      | .error e => .error e
    else .error e

/-- A probe within its budget, or its time is up. -/
inductive Probe where
  | answered (r : Except KubeError Liveness)
  | timedOut

inductive ClusterHealthStatus where
  | healthy
  | unavailable
  deriving DecidableEq, Repr

structure ClusterHealthEvent where
  status : ClusterHealthStatus
  reason : Option String
  deriving DecidableEq, Repr

/-- The task, the beacon that watches mark, the last event and those broadcast. -/
structure ClusterHealth where
  /-- When the last mark or tick was. -/
  now : ℕ
  nextTick : ℕ
  /-- Milliseconds of the last mark, 0 if there was none. -/
  atMs : ℕ
  firstFailureAt : Option ℕ
  lastReason : Option String
  restricted : Bool
  exited : Bool
  last : ClusterHealthEvent
  sent : List ClusterHealthEvent
  deriving DecidableEq

def healthyEvent : ClusterHealthEvent := ⟨.healthy, none⟩

/-- The immediate first tick is skipped. -/
def start : ClusterHealth where
  now := 0
  nextTick := probeInterval
  atMs := 0
  firstFailureAt := none
  lastReason := none
  restricted := false
  exited := false
  last := healthyEvent
  sent := []

def mark (s : ClusterHealth) (time : ℕ) : ClusterHealth := { s with now := time, atMs := max time 1 }

def seenWithin (s : ClusterHealth) (time window : ℕ) : Bool := s.atMs != 0 && decide (time ≤ s.atMs + window)

/-- The probe that a tick makes. A LIST that is known to be refused is not repeated. -/
def probe (s : ClusterHealth) (time : ℕ) (a : Answers) : Probe :=
  if seenWithin s time probeInterval then .answered (.ok .alive)
  else if probeTimeout < a.took then .timedOut
  else if s.restricted then .answered ((readyProbe a).map fun () => .restricted "")
  else .answered (livenessProbe a)

/-- When the probe that a tick makes is over. -/
def finished (s : ClusterHealth) (time : ℕ) (a : Answers) : ℕ :=
  if seenWithin s time probeInterval then time else time + min a.took probeTimeout

def timeoutReason : String := "probe timed out after 4s"

/-- Why the probe failed. -/
def failure : Probe → Option String
  | .answered (.ok _) => none
  | .answered (.error e) => some e.toString
  | .timedOut => some timeoutReason

def isRestricted : Probe → Bool
  | .answered (.ok (.restricted _)) => true
  | _ => false

/-- Both the last event and its broadcast. -/
def emit (s : ClusterHealth) (e : ClusterHealthEvent) : ClusterHealth := { s with last := e, sent := s.sent ++ [e] }

def recover (s : ClusterHealth) : ClusterHealth :=
  if s.firstFailureAt.isSome then emit { s with firstFailureAt := none, lastReason := none } healthyEvent else s

/-- After the probe is over: the window of failures is opened, or found to be long enough. -/
def declare (s : ClusterHealth) (finished : ℕ) : ClusterHealth :=
  match s.lastReason with
  | none => s
  | some reason =>
    let started := s.firstFailureAt.getD finished
    let s := { s with firstFailureAt := some started }
    if unhealthyAfter ≤ finished - started then
      { emit { s with lastReason := none } ⟨.unavailable, some reason⟩ with exited := true }
    else s

def tick (s : ClusterHealth) (time : ℕ) (a : Answers) : ClusterHealth :=
  let p := probe s time a
  let done := finished s time a
  let s := { s with now := time, nextTick := time + probeInterval, restricted := s.restricted || isRestricted p }
  match failure p with
  | none => declare (recover s) done
  | some reason => declare { s with lastReason := some reason } done

inductive Event where
  | mark (time : ℕ)
  | tick (time : ℕ) (a : Answers)
  deriving DecidableEq

/-- Time goes on, ticks keep their distance, and the task ends with its verdict. -/
def step (s : ClusterHealth) : Event → Option ClusterHealth
  | .mark time => if s.now ≤ time then some (mark s time) else none
  | .tick time a => if s.now ≤ time ∧ s.nextTick ≤ time ∧ s.exited = false then some (tick s time a) else none

/-! ## What the ticks of a run found -/

structure Outcome where
  finished : ℕ
  failure : Option String
  deriving DecidableEq, Repr

def outcome (s : ClusterHealth) (time : ℕ) (a : Answers) : Outcome := ⟨finished s time a, failure (probe s time a)⟩

/-- The outcomes of the ticks along a run. -/
def outcomes : ClusterHealth → List Event → List Outcome
  | _, [] => []
  | s, .mark time :: es => outcomes (mark s time) es
  | s, .tick time a :: es => outcome s time a :: outcomes (tick s time a) es

/-- The last outcomes are failures, and `first` is the first of them. -/
def FailingSince (os : List Outcome) (first : Outcome) (rest : List Outcome) : Prop :=
  (∃ before, os = before ++ first :: rest) ∧ ∀ o ∈ first :: rest, o.failure ≠ none

def lastOf (first : Outcome) (rest : List Outcome) : Outcome := rest.getLastD first

/-- The failures last for the whole window. -/
def Spans (first : Outcome) (rest : List Outcome) : Prop :=
  first.finished + unhealthyAfter ≤ (lastOf first rest).finished

theorem lastOf_snoc (first o : Outcome) (rest : List Outcome) : lastOf first (rest ++ [o]) = o := by
  simp [lastOf]

variable {s t : ClusterHealth} {os : List Outcome} {o first : Outcome} {rest : List Outcome}

theorem FailingSince.snoc (h : FailingSince os first rest) (ho : o.failure ≠ none) :
    FailingSince (os ++ [o]) first (rest ++ [o]) := by
  obtain ⟨⟨before, rfl⟩, hfail⟩ := h
  refine ⟨⟨before, by simp⟩, fun o' ho' => ?_⟩
  rw [← List.cons_append, List.mem_append, List.mem_singleton] at ho'
  rcases ho' with ho' | rfl
  · exact hfail o' ho'
  · exact ho

theorem failingSince_single (ho : o.failure ≠ none) : FailingSince (os ++ [o]) o [] :=
  ⟨⟨os, rfl⟩, fun o' ho' => by rwa [List.mem_singleton.mp ho']⟩

/-- Failures that end with an outcome are that one, or go on from failures before it. -/
theorem FailingSince.of_snoc (h : FailingSince (os ++ [o]) first rest) :
    o.failure ≠ none ∧ ((first = o ∧ rest = []) ∨ ∃ front, rest = front ++ [o] ∧ FailingSince os first front) := by
  obtain ⟨⟨before, hsplit⟩, hfail⟩ := h
  rcases List.eq_nil_or_concat rest with rfl | ⟨front, o', rfl⟩
  · obtain ⟨-, hlast⟩ := List.append_inj' hsplit rfl
    obtain rfl : o = first := List.singleton_inj.mp hlast
    exact ⟨hfail o List.mem_cons_self, .inl ⟨rfl, rfl⟩⟩
  · rw [List.concat_eq_append] at hsplit hfail ⊢
    rw [← List.cons_append, ← List.append_assoc] at hsplit
    obtain ⟨hfront, hlast⟩ := List.append_inj' hsplit rfl
    obtain rfl : o = o' := List.singleton_inj.mp hlast
    refine ⟨hfail o (by simp), .inr ⟨front, rfl, ⟨before, hfront⟩, fun o' ho' => hfail o' ?_⟩⟩
    rcases List.mem_cons.mp ho' with rfl | ho'
    · exact List.mem_cons_self
    · exact List.mem_cons_of_mem _ (List.mem_append_left _ ho')

/-- A task that goes on has recorded the failures that the last ticks found, and they are too short. -/
structure Probing (s : ClusterHealth) (os : List Outcome) : Prop where
  running : s.exited = false
  opened : ∀ first rest, FailingSince os first rest → ∃ since ≤ first.finished, s.firstFailureAt = some since
  recorded : ∀ since, s.firstFailureAt = some since → since ≤ s.nextTick ∧
    ∃ first rest, FailingSince os first rest ∧ first.finished = since ∧ ¬ Spans first rest
  closed : s.firstFailureAt = none → s.lastReason = none
  sent : ∀ e ∈ s.sent, e = healthyEvent
  last : s.last = s.sent.getLastD healthyEvent

/-- A task that has ended found failures over the whole window, and said so last. -/
structure Declared (s : ClusterHealth) (os : List Outcome) : Prop where
  exited : s.exited = true
  spans : ∃ first rest, FailingSince os first rest ∧ Spans first rest ∧
    s.last = ⟨.unavailable, (lastOf first rest).failure⟩
  sent : ∃ before, s.sent = before ++ [s.last] ∧ ∀ e ∈ before, e = healthyEvent

def Inv (s : ClusterHealth) (os : List Outcome) : Prop := Probing s os ∨ Declared s os

theorem inv_start : Inv start [] := by
  refine .inl ⟨rfl, ?_, ?_, fun _ => rfl, fun e he => (nomatch he), rfl⟩
  · intro first rest h
    obtain ⟨⟨before, hnil⟩, -⟩ := h
    exact absurd hnil (by simp)
  · intro since h
    cases h

theorem inv_mark (h : Inv s os) (time : ℕ) : Inv (mark s time) os := by
  rcases h with h | h
  · exact .inl ⟨h.running, h.opened, h.recorded, h.closed, h.sent, h.last⟩
  · exact .inr ⟨h.exited, h.spans, h.sent⟩

theorem finished_le (s : ClusterHealth) (time : ℕ) (a : Answers) : time ≤ finished s time a ∧ finished s time a ≤ time + probeInterval := by
  have hbudget : probeTimeout ≤ probeInterval := by decide
  unfold finished
  split <;> omega

/-- A tick whose probe is answered closes the window. -/
theorem probing_success (h : Probing s os) {time : ℕ} {a : Answers} (hok : failure (probe s time a) = none) :
    Probing (tick s time a) (os ++ [outcome s time a]) := by
  have hnone : ∀ first rest, ¬ FailingSince (os ++ [outcome s time a]) first rest := by
    intro first rest hf
    exact hf.of_snoc.1 hok
  simp only [tick, hok, recover]
  cases hsince : s.firstFailureAt with
  | none =>
    have hreason := h.closed hsince
    simp only [Option.isSome_none, Bool.false_eq_true, if_false, declare, hreason]
    refine ⟨h.running, fun first rest hf => absurd hf (hnone first rest), ?_, fun _ => rfl, h.sent, h.last⟩
    intro since hs
    cases hs
  | some since =>
    simp only [Option.isSome_some, if_true, declare, emit]
    refine ⟨h.running, fun first rest hf => absurd hf (hnone first rest), ?_, fun _ => rfl, ?_, ?_⟩
    · intro since hs
      cases hs
    · intro e he
      rcases List.mem_append.mp he with he | he
      · exact h.sent e he
      · exact List.mem_singleton.mp he
    · exact List.getLastD_concat.symm

/-- A tick whose probe fails goes on with the window, or ends the task. -/
theorem inv_failure (h : Probing s os) {time : ℕ} {a : Answers} (htime : s.nextTick ≤ time) {reason : String}
    (hfail : failure (probe s time a) = some reason) : Inv (tick s time a) (os ++ [outcome s time a]) := by
  obtain ⟨hge, hle⟩ := finished_le s time a
  have ho : (outcome s time a).failure ≠ none := by
    rw [outcome, hfail]
    simp
  -- The window, from the first failure of the block that this tick ends.
  obtain ⟨first, rest, hsince, hblock⟩ : ∃ first rest, s.firstFailureAt.getD (finished s time a) = first.finished ∧
      FailingSince (os ++ [outcome s time a]) first rest := by
    cases hf : s.firstFailureAt with
    | none => exact ⟨outcome s time a, [], rfl, failingSince_single ho⟩
    | some since =>
      obtain ⟨-, first, rest, hrest, hfirst, -⟩ := h.recorded since hf
      exact ⟨first, _, hfirst.symm, hrest.snoc ho⟩
  have hlast : lastOf first rest = outcome s time a := by
    rcases hblock.of_snoc.2 with ⟨rfl, rfl⟩ | ⟨front, rfl, -⟩
    · rfl
    · exact lastOf_snoc _ _ _
  have hopened : ∀ first' rest', FailingSince (os ++ [outcome s time a]) first' rest' → first.finished ≤ first'.finished := by
    intro first' rest' hf'
    rw [← hsince]
    rcases hf'.of_snoc.2 with ⟨rfl, -⟩ | ⟨front, -, hfront⟩
    · cases hf : s.firstFailureAt with
      | none => exact le_refl _
      | some since => exact ((h.recorded since hf).1.trans htime).trans hge
    · obtain ⟨since, hle', hf⟩ := h.opened first' front hfront
      rw [hf]
      exact hle'
  have hspan : unhealthyAfter ≤ finished s time a - first.finished ↔ Spans first rest := by
    rw [Spans, hlast]
    have hpos : 0 < unhealthyAfter := by decide
    show _ ↔ first.finished + unhealthyAfter ≤ finished s time a
    omega
  simp only [tick, hfail, declare, hsince]
  split_ifs with hlong
  · refine .inr ⟨rfl, ⟨first, rest, hblock, hspan.mp hlong, ?_⟩, s.sent, rfl, h.sent⟩
    rw [hlast, outcome, hfail]
    rfl
  · refine .inl ⟨h.running, fun first' rest' hf' => ⟨_, hopened first' rest' hf', rfl⟩, ?_, ?_, h.sent, h.last⟩
    · intro since hs
      obtain rfl : first.finished = since := Option.some.inj hs
      refine ⟨?_, first, rest, hblock, rfl, fun hs => hlong (hspan.mpr hs)⟩
      exact (hopened _ [] (failingSince_single ho)).trans hle
    · intro hs
      cases hs

theorem inv_step (h : Inv s os) {e : Event} (hstep : step s e = some t) : Inv t (os ++ outcomes s [e]) := by
  cases e with
  | mark time =>
    simp only [step] at hstep
    split_ifs at hstep
    cases hstep
    rw [outcomes, outcomes, List.append_nil]
    exact inv_mark h time
  | tick time a =>
    simp only [step] at hstep
    split_ifs at hstep with hen
    cases hstep
    rw [outcomes, outcomes]
    rcases h with h | h
    · cases hf : failure (probe s time a) with
      | none => exact .inl (probing_success h hf)
      | some reason => exact inv_failure h hen.2.1 hf
    · rw [h.exited] at hen
      exact absurd hen.2.2 (by simp)

theorem outcomes_cons (s : ClusterHealth) (e : Event) (es : List Event) {u : ClusterHealth} (hu : step s e = some u) :
    outcomes s (e :: es) = outcomes s [e] ++ outcomes u es := by
  cases e with
  | mark time =>
    simp only [step] at hu
    split_ifs at hu
    cases hu
    rfl
  | tick time a =>
    simp only [step] at hu
    split_ifs at hu
    cases hu
    rfl

theorem inv_run {es : List Event} (h : Inv s os) (hrun : run step s es = some t) : Inv t (os ++ outcomes s es) := by
  induction es generalizing s os with
  | nil =>
    cases hrun
    rw [outcomes, List.append_nil]
    exact h
  | cons e es ih =>
    obtain ⟨u, hu, hrest⟩ := run_cons_eq_some.mp hrun
    rw [outcomes_cons s e es hu, ← List.append_assoc]
    exact ih (inv_step h hu) hrest

/-! ## The beacon -/

/-- The beacon holds the last mark of a run. -/
def Beacon (s : ClusterHealth) (es : List Event) : Prop := ∀ time, .mark time ∈ es → time ≤ s.atMs ∧ s.atMs ≠ 0

theorem beacon_run {es : List Event} (hrun : run step start es = some s) : Beacon s es ∧ s.atMs ≤ max s.now 1 := by
  induction es using List.reverseRecOn generalizing s with
  | nil =>
    cases hrun
    exact ⟨fun time hm => (nomatch hm), Nat.zero_le _⟩
  | append_singleton es e ih =>
    obtain ⟨u, hu, hstep⟩ := run_append_eq_some.mp hrun
    obtain ⟨t, ht, htail⟩ := run_cons_eq_some.mp hstep
    cases htail
    obtain ⟨hb, hnow⟩ := ih hu
    cases e with
    | mark time =>
      simp only [step] at ht
      split_ifs at ht with hle
      cases ht
      refine ⟨fun time' hm => ?_, le_refl _⟩
      rcases List.mem_append.mp hm with hm | hm
      · have := (hb time' hm).1
        simp only [mark]
        omega
      · cases List.mem_singleton.mp hm
        simp only [mark]
        omega
    | tick time a =>
      simp only [step] at ht
      split_ifs at ht with hle
      cases ht
      have hat : (tick u time a).atMs = u.atMs ∧ (tick u time a).now = time := by
        simp only [tick, declare, recover, emit]
        repeat' split
        all_goals exact ⟨rfl, rfl⟩
      refine ⟨fun time' hm => ?_, ?_⟩
      · rw [hat.1]
        rcases List.mem_append.mp hm with hm | hm
        · exact hb time' hm
        · cases List.mem_singleton.mp hm
      · rw [hat.1, hat.2]
        omega

/-- A probe fails only where no watch has heard from the apiserver for a whole interval. -/
theorem quiet_of_failure {es : List Event} (hrun : run step start es = some s) {time : ℕ} {a : Answers}
    (hfail : (outcome s time a).failure ≠ none) {marked : ℕ} (hm : .mark marked ∈ es) : marked + probeInterval < time := by
  obtain ⟨hle, hne⟩ := (beacon_run hrun).1 marked hm
  have hunseen : seenWithin s time probeInterval = false := by
    by_contra hseen
    exact hfail (by simp [outcome, probe, hseen, failure])
  have hnot : ¬ time ≤ s.atMs + probeInterval := by simpa [seenWithin, hne] using hunseen
  omega

/-! ## The verdict -/

theorem FailingSince.getLast (h : FailingSince os first rest) : os.getLast? = some (lastOf first rest) := by
  obtain ⟨⟨before, rfl⟩, -⟩ := h
  rcases List.eq_nil_or_concat rest with rfl | ⟨front, o, rfl⟩
  · simp [lastOf]
  · rw [List.concat_eq_append, lastOf_snoc, ← List.cons_append, ← List.append_assoc, List.getLast?_append]
    rfl

/-- What the task holds at the end of a run, from what its ticks have found. -/
theorem verdict (h : Inv s os) :
    (s.last.status = .unavailable ↔ ∃ first rest, FailingSince os first rest ∧ Spans first rest) ∧
      (s.last.status = .unavailable → s.exited = true ∧ s.last.reason = os.getLast?.bind Outcome.failure) ∧
      s.last = s.sent.getLastD healthyEvent ∧ ∀ e ∈ s.sent.dropLast, e = healthyEvent := by
  rcases h with h | h
  · have hhealthy : s.last.status = .healthy := by
      rw [h.last]
      rcases List.eq_nil_or_concat s.sent with hnil | ⟨front, e, hsnoc⟩
      · rw [hnil]
        rfl
      · rw [hsnoc, List.concat_eq_append, List.getLastD_concat, h.sent e (by simp [hsnoc])]
        rfl
    refine ⟨iff_of_false (by simp [hhealthy]) ?_, fun hs => absurd hs (by simp [hhealthy]), h.last,
      fun e he => h.sent e (List.dropLast_subset _ he)⟩
    rintro ⟨first, rest, hf, hspan⟩
    obtain ⟨since, hle, hsince⟩ := h.opened first rest hf
    obtain ⟨-, first', rest', hf', rfl, hshort⟩ := h.recorded since hsince
    have hsame : lastOf first rest = lastOf first' rest' := Option.some.inj (hf.getLast.symm.trans hf'.getLast)
    refine hshort ?_
    rw [Spans, hsame] at hspan
    rw [Spans]
    omega
  · obtain ⟨first, rest, hf, hspan, hlast⟩ := h.spans
    obtain ⟨before, hsent, hbefore⟩ := h.sent
    refine ⟨iff_of_true (by rw [hlast]) ⟨first, rest, hf, hspan⟩, fun _ => ⟨h.exited, ?_⟩, ?_, ?_⟩
    · rw [hlast, hf.getLast]
      rfl
    · rw [hsent, List.getLastD_concat]
    · rw [hsent, List.dropLast_concat]
      exact hbefore

/-- In every run the cluster is declared unavailable exactly when the last probes have all failed over at least the
whole window, with the reason of the last; none of them was made within an interval after a watch event. All other
broadcasts are recoveries, and the snapshot is the last broadcast. -/
theorem unavailable_iff (es : List Event) (s : ClusterHealth) (hrun : run step start es = some s) :
    (s.last.status = .unavailable ↔ ∃ first rest, FailingSince (outcomes start es) first rest ∧ Spans first rest) ∧
      (s.last.status = .unavailable →
        s.exited = true ∧ s.last.reason = (outcomes start es).getLast?.bind Outcome.failure) ∧
      (s.last = s.sent.getLastD healthyEvent ∧ ∀ e ∈ s.sent.dropLast, e = healthyEvent) ∧
      ∀ pre time a post u, es = pre ++ .tick time a :: post → run step start pre = some u →
        (outcome u time a).failure ≠ none → ∀ marked, .mark marked ∈ pre → marked + probeInterval < time := by
  have hinv : Inv s (outcomes start es) := by
    have := inv_run inv_start hrun
    rwa [List.nil_append] at this
  obtain ⟨hiff, hreason, hlast, hsent⟩ := verdict hinv
  refine ⟨hiff, hreason, ⟨hlast, hsent⟩, fun pre time a post u _ hpre hfail marked hm => ?_⟩
  exact quiet_of_failure hpre hfail hm

def refusedAnswers : Answers := ⟨.error (.other "refused"), .error (.other "refused"), 0⟩

/-- A watch event keeps the first tick from asking, then seven probes are refused. -/
def refusedForAWindow : List Event :=
  [.mark 4000, .tick 5000 refusedAnswers, .tick 10000 refusedAnswers, .tick 15000 refusedAnswers, .tick 20000 refusedAnswers,
   .tick 25000 refusedAnswers, .tick 30000 refusedAnswers, .tick 35000 refusedAnswers, .tick 40000 refusedAnswers]

theorem unavailable_iff_refusedForAWindow :
    ∃ s, run step start refusedForAWindow = some s ∧ s.last = ⟨.unavailable, some "refused"⟩ ∧
      ∃ first rest, FailingSince (outcomes start refusedForAWindow) first rest ∧ Spans first rest := by
  refine ⟨_, rfl, rfl, ?_⟩
  exact (unavailable_iff refusedForAWindow _ rfl).1.mp rfl

end FerrisScope.HealthProbe
