import FerrisScope.LabelledRuns
import Mathlib.Data.String.Basic
import Mathlib.Data.List.TakeWhile
import Mathlib.Tactic.Linarith

/-!
# Following a container's log across reconnects

The follow loop opens the log stream, pumps its lines, and after the stream ended asks whether to
open it again. A reopened stream replays some of the log, and lines up to the last forwarded
timestamp are skipped until a later one arrives. Timestamps are compared as strings. Where a
stream starts, when it is cut and what the probes answer is left to the environment.
-/

namespace FerrisScope.LogFollow
open LabelledRuns

inductive LogEvent where
  | line (text : String)
  | waiting (reason : String)
  | ended (reason : String)
  | interrupted (reason : String)
  deriving DecidableEq, Repr

inductive OpenFailure where
  | starting (reason : String)
  | fatal (reason : String)
  | transient (reason : String)
  deriving DecidableEq, Repr

inductive StreamEnd where
  | closed
  | error (e : String)
  deriving DecidableEq, Repr

inductive ContainerLiveness where
  | active
  | waiting (reason : String)
  | done
  | unknown
  | unreachable (e : String)
  deriving DecidableEq, Repr

def maxWaitAttempts : ℕ := 150

def maxDeadReconnects : ℕ := 10

def maxTransientRetries : ℕ := 12

/-- The text before the first blank, when it has the shape of an RFC 3339 timestamp. -/
def lineTimestamp (line : String) : Option String :=
  let head := line.toList.takeWhile (· ≠ ' ')
  if ' ' ∈ line.toList ∧ 20 ≤ (head.map Char.utf8Size).sum ∧ (head.head?.any Char.isDigit) ∧ 'T' ∈ head ∧
      head.getLast? = some 'Z' then
    some (String.ofList head)
  else none

inductive Phase where
  | opening (attempts transient : ℕ) (lastWaiting : Option String)
  | pumping (skipThrough : Option String) (produced : Bool)
  | probing (produced : Bool) (streamEnd : StreamEnd)
  | stopped
  deriving DecidableEq, Repr

/-- The variables of `run_live`, and the events it has sent. -/
structure Follower where
  lastTs : Option String
  deadReconnects : ℕ
  unreachable : ℕ
  phase : Phase
  sent : List LogEvent
  deriving DecidableEq, Repr

def runLive (resumeAfter : Option String) : Follower := ⟨resumeAfter, 0, 0, .opening 0 0 none, []⟩

def Follower.send (f : Follower) (e : LogEvent) : Follower := { f with sent := f.sent ++ [e] }

def openFailed (f : Follower) (attempts transient : ℕ) (lastWaiting : Option String) :
    OpenFailure → Follower
  | .starting reason =>
    if attempts < maxWaitAttempts then
      if lastWaiting = some reason then { f with phase := .opening (attempts + 1) transient lastWaiting }
      else { f.send (.waiting reason) with phase := .opening (attempts + 1) transient (some reason) }
    else { f.send (.ended ("gave up waiting for container: " ++ reason)) with phase := .stopped }
  | .fatal reason => { f.send (.ended ("open failed: " ++ reason)) with phase := .stopped }
  | .transient reason =>
    if transient < maxTransientRetries then
      { f.send (.waiting ("reconnecting — " ++ reason)) with phase := .opening attempts (transient + 1) none }
    else { f.send (.interrupted reason) with phase := .stopped }

/-- Whether the line is at or before the boundary that is still being skipped. -/
def isSkipped (skipThrough : Option String) (line : String) : Bool :=
  match skipThrough, lineTimestamp line with
  | some skip, some ts => decide (ts ≤ skip)
  | _, _ => false

def pumpLine (f : Follower) (skipThrough : Option String) (produced : Bool) (line : String) : Follower :=
  if isSkipped skipThrough line then { f with phase := .pumping skipThrough produced }
  else
    { f.send (.line line) with
      lastTs := (lineTimestamp line).or f.lastTs
      phase := .pumping none true }

def detailOf (liveness : ContainerLiveness) (streamEnd : StreamEnd) : String :=
  match liveness, streamEnd with
  | .waiting reason, _ => reason
  | _, .error e => e
  | _, .closed => "stream closed"

/-- What follows once the stream has ended and the container was probed. -/
def reconnectOrFinish (f : Follower) (produced : Bool) (streamEnd : StreamEnd)
    (liveness : ContainerLiveness) : Follower :=
  let dead := if produced then 0 else f.deadReconnects
  match liveness with
  | .unreachable e =>
    if f.unreachable < maxTransientRetries then
      { f.send (.waiting ("reconnecting — " ++ e)) with
        deadReconnects := dead
        unreachable := f.unreachable + 1
        phase := .opening 0 0 none }
    else { f.send (.interrupted e) with deadReconnects := dead, phase := .stopped }
  | .done | .unknown =>
    let reason := match streamEnd with
      | .closed => "stream closed"
      | .error e => "read error: " ++ e
    { f.send (.ended reason) with deadReconnects := dead, unreachable := 0, phase := .stopped }
  | .active | .waiting _ =>
    if dead < maxDeadReconnects then
      { f.send (.waiting ("reconnecting — " ++ detailOf liveness streamEnd)) with
        deadReconnects := if produced then dead else dead + 1
        unreachable := 0
        phase := .opening 0 0 none }
    else
      { f.send (.ended "stopped after 10 reconnect attempts with no output") with
        deadReconnects := dead
        unreachable := 0
        phase := .stopped }

/-- The follower beside the log it reads: the next line of the open stream, and how far any
stream has been read. -/
structure World where
  follower : Follower
  pos : ℕ
  furthest : ℕ

inductive Action where
  | opens (start : ℕ)
  | openFails (e : OpenFailure)
  | nextLine
  | readError (e : String)
  | closed
  | probe (liveness : ContainerLiveness)
  deriving DecidableEq, Repr

def step (log : List String) (w : World) (a : Action) : Option World :=
  match w.follower.phase, a with
  | .opening _ _ _, .opens start =>
    some { w with
      follower := { w.follower with phase := .pumping w.follower.lastTs false }
      pos := start }
  | .opening attempts transient lastWaiting, .openFails e =>
    some { w with follower := openFailed w.follower attempts transient lastWaiting e }
  | .pumping skipThrough produced, .nextLine =>
    match log[w.pos]? with
    | none => none
    | some line => some ⟨pumpLine w.follower skipThrough produced line, w.pos + 1, max w.furthest (w.pos + 1)⟩
  | .pumping _ produced, .readError e =>
    some { w with follower := { w.follower with phase := .probing produced (.error e) } }
  | .pumping _ produced, .closed =>
    some { w with follower := { w.follower with phase := .probing produced .closed } }
  | .probing produced streamEnd, .probe liveness =>
    some { w with follower := reconnectOrFinish w.follower produced streamEnd liveness }
  | _, _ => none

def start (resumeAfter : Option String) : World := ⟨runLive resumeAfter, 0, 0⟩

/-- The lines among the events. -/
def emitted (events : List LogEvent) : List String :=
  events.filterMap fun
    | .line text => some text
    | _ => none

def stamp (line : String) : String := (lineTimestamp line).getD ""

/-- Every line carries a timestamp, and the timestamps do not decrease. -/
structure Stamped (log : List String) : Prop where
  carried : ∀ line ∈ log, lineTimestamp line = some (stamp line)
  sorted : log.Pairwise fun a b => stamp a ≤ stamp b

/-- How many lines stand before the first one that was not emitted. -/
def firstUndelivered (log : List String) (events : List LogEvent) : ℕ :=
  (log.takeWhile (· ∈ emitted events)).length

/-- A stream that is opened starts at or before the first undelivered line. -/
def Overlaps (log : List String) (w : World) (a : Action) : Prop :=
  ∀ i, a = .opens i → i ≤ firstUndelivered log w.follower.sent

@[simp] theorem emitted_append_line (events : List LogEvent) (text : String) :
    emitted (events ++ [.line text]) = emitted events ++ [text] := by
  simp [emitted]

/-- A step that forwards no line and does not leave a stream open. -/
structure Quiet (f f' : Follower) : Prop where
  lines : emitted f'.sent = emitted f.sent
  lastTs : f'.lastTs = f.lastTs
  phase : ∀ skipThrough produced, f'.phase ≠ .pumping skipThrough produced

/-- Sending an event that is no line, then not pumping. -/
theorem Quiet.of_sent {f f' : Follower} {e : LogEvent} (he : emitted [e] = [])
    (hsent : f'.sent = f.sent ++ [e]) (hts : f'.lastTs = f.lastTs)
    (hphase : ∀ skipThrough produced, f'.phase ≠ .pumping skipThrough produced) : Quiet f f' := by
  refine ⟨?_, hts, hphase⟩
  rw [hsent, emitted, List.filterMap_append]
  change emitted f.sent ++ emitted [e] = _
  rw [he, List.append_nil]

theorem quiet_openFailed (f : Follower) (attempts transient : ℕ) (lastWaiting : Option String)
    (e : OpenFailure) : Quiet f (openFailed f attempts transient lastWaiting e) := by
  cases e with
  | starting reason =>
    simp only [openFailed]
    split
    · split
      · exact ⟨rfl, rfl, by simp⟩
      · exact .of_sent rfl rfl rfl (by simp)
    · exact .of_sent rfl rfl rfl (by simp)
  | fatal reason => exact .of_sent rfl rfl rfl (by simp [openFailed])
  | transient reason =>
    simp only [openFailed]
    split
    · exact .of_sent rfl rfl rfl (by simp)
    · exact .of_sent rfl rfl rfl (by simp)

theorem quiet_reconnectOrFinish (f : Follower) (produced : Bool) (streamEnd : StreamEnd)
    (liveness : ContainerLiveness) : Quiet f (reconnectOrFinish f produced streamEnd liveness) := by
  unfold reconnectOrFinish
  dsimp only
  generalize (if produced = true then 0 else f.deadReconnects) = dead
  cases liveness with
  | unreachable e =>
    dsimp only
    split
    · exact .of_sent rfl rfl rfl (by simp)
    · exact .of_sent rfl rfl rfl (by simp)
  | done => exact .of_sent rfl rfl rfl (by simp)
  | unknown => exact .of_sent rfl rfl rfl (by simp)
  | active =>
    dsimp only
    split
    · exact .of_sent rfl rfl rfl (by simp)
    · exact .of_sent rfl rfl rfl (by simp)
  | waiting reason =>
    dsimp only
    split
    · exact .of_sent rfl rfl rfl (by simp)
    · exact .of_sent rfl rfl rfl (by simp)

/-- Everything a step can do. -/
inductive Step (log : List String) (w : World) : Action → World → Prop
  | opens (i : ℕ) : Step log w (.opens i) ⟨{ w.follower with phase := .pumping w.follower.lastTs false }, i,
      w.furthest⟩
  | quiet (a : Action) (f : Follower) (h : Quiet w.follower f) : Step log w a { w with follower := f }
  | skipped (skip : String) (produced : Bool) (line : String)
      (hphase : w.follower.phase = .pumping (some skip) produced) (hline : log[w.pos]? = some line)
      (hskip : isSkipped (some skip) line) :
      Step log w .nextLine
        ⟨{ w.follower with phase := .pumping (some skip) produced }, w.pos + 1, max w.furthest (w.pos + 1)⟩
  | forwarded (skipThrough : Option String) (produced : Bool) (line : String)
      (hphase : w.follower.phase = .pumping skipThrough produced) (hline : log[w.pos]? = some line)
      (hskip : isSkipped skipThrough line = false) :
      Step log w .nextLine
        ⟨{ w.follower.send (.line line) with
            lastTs := (lineTimestamp line).or w.follower.lastTs
            phase := .pumping none true }, w.pos + 1, max w.furthest (w.pos + 1)⟩

theorem isSkipped_none (line : String) : isSkipped none line = false := rfl

theorem step_inv {log : List String} {w w' : World} {a : Action} (h : step log w a = some w') :
    Step log w a w' := by
  unfold step at h
  split at h
  · cases h
    exact .opens _
  · cases h
    exact .quiet _ _ (quiet_openFailed _ _ _ _ _)
  · rename_i skipThrough produced hphase
    split at h
    · cases h
    · rename_i line hline
      cases h
      unfold pumpLine
      split
      · rename_i hskip
        cases skipThrough with
        | none => simp [isSkipped_none] at hskip
        | some skip => exact .skipped skip produced line hphase hline hskip
      · rename_i hskip
        exact .forwarded skipThrough produced line hphase hline (by simpa using hskip)
  · cases h
    exact .quiet _ _ ⟨rfl, rfl, by simp⟩
  · cases h
    exact .quiet _ _ ⟨rfl, rfl, by simp⟩
  · cases h
    exact .quiet _ _ (quiet_reconnectOrFinish _ _ _ _)
  · cases h

/-- The lines emitted so far are among the first `n`, none of them later than the last timestamp. -/
structure Ordered (log : List String) (n : ℕ) (w : World) : Prop where
  sublist : (emitted w.follower.sent).Sublist (log.take n)
  bound : n ≤ log.length
  before : ∀ line ∈ log.take n, ∃ ts, w.follower.lastTs = some ts ∧ stamp line ≤ ts
  skipping : ∀ skip produced, w.follower.phase = .pumping (some skip) produced →
    w.follower.lastTs = some skip
  passed : ∀ produced, w.follower.phase = .pumping none produced → n ≤ w.pos

theorem ordered_start (log : List String) : Ordered log 0 (start none) where
  sublist := by simp [start, runLive, emitted]
  bound := Nat.zero_le _
  before := by simp
  skipping := by simp [start, runLive]
  passed := by simp

variable {log : List String} {w w' : World} {a : Action} {n : ℕ}

theorem lt_of_getElem? {i : ℕ} {line : String} (h : log[i]? = some line) : i < log.length :=
  (List.getElem?_eq_some_iff.mp h).1

/-- A line that is not skipped stands after all emitted ones. -/
theorem Ordered.le_pos (hs : Stamped log) (ho : Ordered log n w) {skipThrough : Option String}
    {produced : Bool} {line : String} (hphase : w.follower.phase = .pumping skipThrough produced)
    (hline : log[w.pos]? = some line) (hskip : isSkipped skipThrough line = false) : n ≤ w.pos := by
  cases skipThrough with
  | none => exact ho.passed produced hphase
  | some skip =>
    by_contra hlt
    have hmem : line ∈ log.take n := by
      apply List.mem_of_getElem? (i := w.pos)
      rw [List.getElem?_take_of_lt (by omega), hline]
    obtain ⟨ts, hts, hle⟩ := ho.before line hmem
    rw [ho.skipping skip produced hphase] at hts
    cases hts
    have hcarried := hs.carried line (List.mem_of_getElem? hline)
    simp [isSkipped, hcarried, hle] at hskip

theorem Ordered.quiet (ho : Ordered log n w) {f : Follower} (hq : Quiet w.follower f) :
    Ordered log n { w with follower := f } where
  sublist := by simpa [hq.lines] using ho.sublist
  bound := ho.bound
  before := by simpa [hq.lastTs] using ho.before
  skipping skip produced hp := absurd hp (hq.phase _ _)
  passed produced hp := absurd hp (hq.phase _ _)

/-- Before the first line nothing was emitted and nothing is behind. -/
theorem Ordered.opens (ho : Ordered log n w) (i : ℕ) :
    Ordered log n ⟨{ w.follower with phase := .pumping w.follower.lastTs false }, i, w.furthest⟩ where
  sublist := ho.sublist
  bound := ho.bound
  before := ho.before
  skipping skip produced hp := by
    simp only [Phase.pumping.injEq] at hp
    exact hp.1
  passed produced hp := by
    simp only [Phase.pumping.injEq] at hp
    by_contra hpos
    obtain ⟨line, hline⟩ := List.exists_mem_of_length_pos (l := log.take n) (by
      rw [List.length_take]
      have := ho.bound
      omega)
    obtain ⟨ts, hts, -⟩ := ho.before line hline
    rw [hp.1] at hts
    cases hts

theorem take_succ_of_getElem? {i : ℕ} {line : String} (h : log[i]? = some line) :
    log.take (i + 1) = log.take i ++ [line] := by
  rw [List.take_add_one, h]
  rfl

theorem Ordered.forwarded (hs : Stamped log) (ho : Ordered log n w) {line : String} {furthest : ℕ}
    (hline : log[w.pos]? = some line) (hle : n ≤ w.pos) :
    Ordered log (w.pos + 1)
      ⟨{ w.follower.send (.line line) with
          lastTs := (lineTimestamp line).or w.follower.lastTs
          phase := .pumping none true }, w.pos + 1, furthest⟩ where
  sublist := by
    have htake : (emitted w.follower.sent).Sublist (log.take w.pos) :=
      ho.sublist.trans (List.take_prefix_take_left hle).sublist
    simp only [Follower.send, emitted_append_line, take_succ_of_getElem? hline]
    exact htake.append (List.Sublist.refl _)
  bound := lt_of_getElem? hline
  before line' hline' := by
    rw [hs.carried line (List.mem_of_getElem? hline)]
    refine ⟨stamp line, rfl, ?_⟩
    rw [take_succ_of_getElem? hline] at hline'
    rcases List.mem_append.mp hline' with hold | hnew
    · have hsplit : log.take (w.pos + 1) = log.take w.pos ++ [line] := take_succ_of_getElem? hline
      have hsorted := hs.sorted.sublist (List.take_sublist (w.pos + 1) log)
      rw [hsplit] at hsorted
      exact (List.pairwise_append.mp hsorted).2.2 line' hold line (List.mem_singleton_self line)
    · rw [List.mem_singleton.mp hnew]
  skipping skip produced hp := by simp at hp
  passed produced hp := le_rfl

theorem ordered_step (hs : Stamped log) (ho : ∃ n, Ordered log n w) (h : step log w a = some w') :
    ∃ n, Ordered log n w' := by
  obtain ⟨n, ho⟩ := ho
  cases step_inv h with
  | opens i => exact ⟨n, ho.opens i⟩
  | quiet a f hq => exact ⟨n, ho.quiet hq⟩
  | skipped skip produced line hphase hline hskip =>
    exact ⟨n, ho.sublist, ho.bound, ho.before, fun skip' produced' hp => by
      cases hp
      exact ho.skipping skip produced hphase, fun produced' hp => by cases hp⟩
  | forwarded skipThrough produced line hphase hline hskip =>
    exact ⟨w.pos + 1, ho.forwarded hs hline (ho.le_pos hs hphase hline hskip)⟩

/-- All lines read from any stream were emitted, each once. -/
structure Complete (log : List String) (w : World) : Prop where
  lines : emitted w.follower.sent = log.take w.furthest
  fresh : w.furthest = 0 → w.follower.lastTs = none
  last : ∀ k, w.furthest = k + 1 → ∃ line, log[k]? = some line ∧ w.follower.lastTs = some (stamp line)
  skipping : ∀ skip produced, w.follower.phase = .pumping (some skip) produced →
    w.follower.lastTs = some skip ∧ w.pos ≤ w.furthest
  passed : ∀ produced, w.follower.phase = .pumping none produced → w.pos = w.furthest

theorem complete_start (log : List String) : Complete log (start none) where
  lines := by simp [start, runLive, emitted]
  fresh := fun _ => rfl
  last k h := by simp [start] at h
  skipping := by simp [start, runLive]
  passed := by simp [start, runLive]

section Strict

variable (hs : Stamped log) (hstrict : log.Pairwise fun a b => stamp a < stamp b)

include hstrict in
theorem stamp_lt {i j : ℕ} {a b : String} (hij : i < j) (ha : log[i]? = some a) (hb : log[j]? = some b) :
    stamp a < stamp b := by
  obtain ⟨hi, rfl⟩ := List.getElem?_eq_some_iff.mp ha
  obtain ⟨hj, rfl⟩ := List.getElem?_eq_some_iff.mp hb
  exact List.pairwise_iff_getElem.mp hstrict i j hi hj hij

include hstrict in
/-- With every line read emitted, the first undelivered line is the first one not read. -/
theorem Complete.firstUndelivered_le (hc : Complete log w) :
    firstUndelivered log w.follower.sent ≤ w.furthest := by
  unfold firstUndelivered
  rw [hc.lines]
  by_contra hlt
  push Not at hlt
  have hpre : (log.takeWhile fun x => decide (x ∈ log.take w.furthest)) <+: log := List.takeWhile_prefix _
  have hline : log[w.furthest]? =
      some ((log.takeWhile fun x => decide (x ∈ log.take w.furthest))[w.furthest]) := by
    rw [hpre.getElem hlt, List.getElem?_eq_getElem]
  have hmem := List.mem_takeWhile_imp (List.getElem_mem hlt)
  obtain ⟨k, hk⟩ := List.getElem?_of_mem (of_decide_eq_true hmem)
  rw [List.getElem?_take] at hk
  split at hk
  · rename_i hkf
    exact absurd (stamp_lt hstrict hkf hk hline) (lt_irrefl _)
  · cases hk

include hs hstrict in
/-- A skipped line was read before. -/
theorem Complete.pos_lt (hc : Complete log w) {skip line : String} {produced : Bool}
    (hphase : w.follower.phase = .pumping (some skip) produced) (hline : log[w.pos]? = some line)
    (hskip : isSkipped (some skip) line) : w.pos < w.furthest := by
  obtain ⟨hts, hle⟩ := hc.skipping skip produced hphase
  by_contra hge
  have hpos : w.pos = w.furthest := by omega
  have hcarried := hs.carried line (List.mem_of_getElem? hline)
  have hstamp : stamp line ≤ skip := by simpa [isSkipped, hcarried] using hskip
  cases hf : w.furthest with
  | zero =>
    rw [hc.fresh hf] at hts
    cases hts
  | succ k =>
    obtain ⟨line', hline', hlast⟩ := hc.last k hf
    cases hts.symm.trans hlast
    exact absurd (stamp_lt hstrict (by omega) hline' hline) (not_lt.mpr hstamp)

include hs hstrict in
/-- A forwarded line is the first one not read before. -/
theorem Complete.pos_eq (hc : Complete log w) {skipThrough : Option String} {line : String}
    {produced : Bool} (hphase : w.follower.phase = .pumping skipThrough produced)
    (hline : log[w.pos]? = some line) (hskip : isSkipped skipThrough line = false) :
    w.pos = w.furthest := by
  cases skipThrough with
  | none => exact hc.passed produced hphase
  | some skip =>
    obtain ⟨hts, hle⟩ := hc.skipping skip produced hphase
    by_contra hne
    obtain ⟨k, hk⟩ : ∃ k, w.furthest = k + 1 := ⟨w.furthest - 1, by omega⟩
    obtain ⟨line', hline', hlast⟩ := hc.last k hk
    cases hts.symm.trans hlast
    have hstamp : stamp line ≤ stamp line' := by
      rcases Nat.lt_or_eq_of_le (show w.pos ≤ k by omega) with hlt | heq
      · exact (stamp_lt hstrict hlt hline hline').le
      · rw [heq] at hline
        cases hline.symm.trans hline'
        exact le_rfl
    have hcarried := hs.carried line (List.mem_of_getElem? hline)
    simp [isSkipped, hcarried, hstamp] at hskip

include hs hstrict in
theorem complete_step (hc : Complete log w) (ho : Overlaps log w a) (h : step log w a = some w') :
    Complete log w' := by
  cases step_inv h with
  | opens i =>
    have hle : i ≤ w.furthest := (ho i rfl).trans (hc.firstUndelivered_le hstrict)
    refine ⟨hc.lines, hc.fresh, hc.last, fun skip produced hp => ?_, fun produced hp => ?_⟩
    · simp only [Phase.pumping.injEq] at hp
      exact ⟨hp.1, hle⟩
    · simp only [Phase.pumping.injEq] at hp
      cases hf : w.furthest with
      | zero => exact Nat.le_zero.mp (hf ▸ hle)
      | succ k =>
        obtain ⟨line, -, hlast⟩ := hc.last k hf
        rw [hp.1] at hlast
        cases hlast
  | quiet a f hq =>
    refine ⟨hq.lines.trans hc.lines, fun hf => hq.lastTs.trans (hc.fresh hf), ?_, ?_, ?_⟩
    · simpa [hq.lastTs] using hc.last
    · intro skip produced hp
      exact absurd hp (hq.phase _ _)
    · intro produced hp
      exact absurd hp (hq.phase _ _)
  | skipped skip produced line hphase hline hskip =>
    have hlt := hc.pos_lt hs hstrict hphase hline hskip
    have hmax : max w.furthest (w.pos + 1) = w.furthest := by omega
    rw [hmax]
    refine ⟨hc.lines, hc.fresh, hc.last, fun skip' produced' hp => ?_, fun produced' hp => by cases hp⟩
    cases hp
    exact ⟨(hc.skipping skip produced hphase).1, hlt⟩
  | forwarded skipThrough produced line hphase hline hskip =>
    have hpos := hc.pos_eq hs hstrict hphase hline hskip
    have hmax : max w.furthest (w.pos + 1) = w.pos + 1 := by omega
    have hcarried := hs.carried line (List.mem_of_getElem? hline)
    rw [hmax]
    refine ⟨?_, fun hf => ?_, fun k hk => ?_, fun skip' produced' hp => ?_, fun _ _ => rfl⟩
    · simp only [Follower.send, emitted_append_line, hc.lines, ← hpos, take_succ_of_getElem? hline]
    · cases hf
    · obtain rfl : w.pos = k := by simpa using hk
      exact ⟨line, hline, by rw [hcarried]; rfl⟩
    · cases hp

end Strict

/-- Three lines, the stream cut after the second one and reopened from the start. -/
def threeLines : List String :=
  ["2024-05-01T10:00:00.000000001Z a", "2024-05-01T10:00:00.000000002Z b",
    "2024-05-01T10:00:00.000000003Z c"]

def cutAfterTwo : List Action :=
  [.opens 0, .nextLine, .nextLine, .readError "reset", .probe .active, .opens 0, .nextLine, .nextLine,
    .nextLine]

end FerrisScope.LogFollow
