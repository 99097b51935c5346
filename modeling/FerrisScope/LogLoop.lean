import FerrisScope.LogFollow
import Mathlib.Data.Set.Finite.Basic
import Mathlib.Order.OrderIsoNat
import Mathlib.Order.Interval.Finset.Nat

/-!
# The end of the follow loop

The follow loop against an environment that answers its opens, reads and probes in any way, or leaves
them unanswered. Once no stream yields a line past the skipped ones, each answer uses up a retry or leads
to an await that does, so the loop comes to rest: stopped after one terminal event, or waiting for
good.
-/

namespace FerrisScope.LogLoop
open LogFollow

/-- What an await of the loop returns. -/
inductive Signal where
  | opened
  | openFails (e : OpenFailure)
  | line (text : String)
  | readError (e : String)
  | closed
  | probe (liveness : ContainerLiveness)
  deriving DecidableEq, Repr

/-- The loop goes on when the await it stands at returns. -/
def advance (f : Follower) (signal : Option Signal) : Follower :=
  match f.phase, signal with
  | .opening _ _ _, some .opened => { f with phase := .pumping f.lastTs false }
  | .opening attempts transient lastWaiting, some (.openFails e) => openFailed f attempts transient lastWaiting e
  | .pumping skipThrough produced, some (.line text) => pumpLine f skipThrough produced text
  | .pumping _ produced, some (.readError e) => { f with phase := .probing produced (.error e) }
  | .pumping _ produced, some .closed => { f with phase := .probing produced .closed }
  | .probing produced streamEnd, some (.probe liveness) => reconnectOrFinish f produced streamEnd liveness
  | _, _ => f

/-- The loop after a number of moments, in each of which the environment may return something. -/
def after (resumeAfter : Option String) (env : ℕ → Option Signal) : ℕ → Follower
  | 0 => runLive resumeAfter
  | n + 1 => advance (after resumeAfter env n) (env n)

/-- The await for an open, for the end of a stream or for a probe returns. -/
def Answers (f : Follower) (signal : Option Signal) : Prop :=
  match f.phase, signal with
  | .opening _ _ _, some .opened => True
  | .opening _ _ _, some (.openFails _) => True
  | .pumping _ _, some (.readError _) => True
  | .pumping _ _, some .closed => True
  | .probing _ _, some (.probe _) => True
  | _, _ => False

/-- The stream yields a line that is not skipped. -/
def NewLine (f : Follower) (signal : Option Signal) : Prop :=
  ∃ skipThrough produced text, f.phase = .pumping skipThrough produced ∧ signal = some (.line text) ∧
    isSkipped skipThrough text = false

/-- The loop asks for a stream. -/
def Reopens (f : Follower) (signal : Option Signal) : Prop :=
  Answers f signal ∧ ∃ attempts transient lastWaiting,
    (advance f signal).phase = .opening attempts transient lastWaiting

def IsTerminal : LogEvent → Prop
  | .ended _ => True
  | .interrupted _ => True
  | _ => False

def Unended (events : List LogEvent) : Prop := ∀ e ∈ events, ¬IsTerminal e

/-- One terminal event, and nothing after it. -/
def EndsOnce (events : List LogEvent) : Prop := ∃ before e, events = before ++ [e] ∧ IsTerminal e ∧ Unended before

def signalOf (log : List String) (w : World) : Action → Option Signal
  | .opens _ => some .opened
  | .openFails e => some (.openFails e)
  | .nextLine => (log[w.pos]?).map .line
  | .readError e => some (.readError e)
  | .closed => some .closed
  | .probe liveness => some (.probe liveness)

/-- Following a log is one of the environments. -/
theorem advance_of_step {log : List String} {w w' : World} {a : Action} (h : step log w a = some w') :
    w'.follower = advance w.follower (signalOf log w a) := by
  unfold step at h
  split at h
  all_goals rename_i hphase
  · cases h
    simp only [advance, hphase, signalOf]
  · cases h
    simp only [advance, hphase, signalOf]
  · split at h
    · cases h
    · rename_i line hline
      cases h
      simp only [advance, hphase, signalOf, hline, Option.map_some]
  · cases h
    simp only [advance, hphase, signalOf]
  · cases h
    simp only [advance, hphase, signalOf]
  · cases h
    simp only [advance, hphase, signalOf]
  · cases h

/-! ### What a step sends -/

/-- Nothing is sent, or one event, which is terminal when the loop stops. -/
inductive Sends (f f' : Follower) : Prop
  | nothing (hsent : f'.sent = f.sent) (hphase : f'.phase ≠ .stopped)
  | terminal (e : LogEvent) (hsent : f'.sent = f.sent ++ [e]) (he : IsTerminal e) (hphase : f'.phase = .stopped)
  | other (e : LogEvent) (hsent : f'.sent = f.sent ++ [e]) (he : ¬IsTerminal e) (hphase : f'.phase ≠ .stopped)

variable {f : Follower} {signal : Option Signal}

theorem sends_openFailed (f : Follower) (attempts transient : ℕ) (lastWaiting : Option String)
    (e : OpenFailure) : Sends f (openFailed f attempts transient lastWaiting e) := by
  cases e with
  | starting reason =>
    simp only [openFailed]
    split
    · split
      · exact .nothing rfl (by simp)
      · exact .other _ rfl id (by simp)
    · exact .terminal _ rfl trivial rfl
  | fatal reason => exact .terminal _ rfl trivial rfl
  | transient reason =>
    simp only [openFailed]
    split
    · exact .other _ rfl id (by simp)
    · exact .terminal _ rfl trivial rfl

theorem sends_reconnectOrFinish (f : Follower) (produced : Bool) (streamEnd : StreamEnd)
    (liveness : ContainerLiveness) : Sends f (reconnectOrFinish f produced streamEnd liveness) := by
  unfold reconnectOrFinish
  dsimp only
  generalize (if produced = true then 0 else f.deadReconnects) = dead
  cases liveness with
  | unreachable e =>
    dsimp only
    split
    · exact .other _ rfl id (by simp)
    · exact .terminal _ rfl trivial rfl
  | done => exact .terminal _ rfl trivial rfl
  | unknown => exact .terminal _ rfl trivial rfl
  | active =>
    dsimp only
    split
    · exact .other _ rfl id (by simp)
    · exact .terminal _ rfl trivial rfl
  | waiting reason =>
    dsimp only
    split
    · exact .other _ rfl id (by simp)
    · exact .terminal _ rfl trivial rfl

theorem sends_advance (hf : f.phase ≠ .stopped) (signal : Option Signal) : Sends f (advance f signal) := by
  unfold advance
  split
  · exact .nothing rfl (by simp)
  · exact sends_openFailed _ _ _ _ _
  · unfold pumpLine
    split
    · exact .nothing rfl (by simp)
    · exact .other _ rfl id (by simp)
  · exact .nothing rfl (by simp)
  · exact .nothing rfl (by simp)
  · exact sends_reconnectOrFinish _ _ _ _
  · exact .nothing rfl hf

theorem advance_stopped (hf : f.phase = .stopped) : advance f signal = f := by
  simp only [advance, hf]

/-- The loop has stopped exactly when it has sent a terminal event. -/
inductive Sound (f : Follower) : Prop
  | going (hphase : f.phase ≠ .stopped) (hsent : Unended f.sent)
  | stopped (hphase : f.phase = .stopped) (hsent : EndsOnce f.sent)

theorem sound_advance (hs : Sound f) : Sound (advance f signal) := by
  cases hs with
  | stopped hphase hsent =>
    rw [advance_stopped hphase]
    exact .stopped hphase hsent
  | going hphase hsent =>
    cases sends_advance hphase signal with
    | nothing hsame hphase' => exact .going hphase' (hsame ▸ hsent)
    | terminal e hsame he hphase' => exact .stopped hphase' ⟨f.sent, e, hsame, he, hsent⟩
    | other e hsame he hphase' =>
      refine .going hphase' fun e' he' => ?_
      rw [hsame] at he'
      rcases List.mem_append.mp he' with hold | hnew
      · exact hsent e' hold
      · rwa [List.mem_singleton.mp hnew]

variable {resumeAfter : Option String} {env : ℕ → Option Signal}

theorem sound_after (resumeAfter : Option String) (env : ℕ → Option Signal) (n : ℕ) : Sound (after resumeAfter env n) := by
  induction n with
  | zero => exact .going (by simp [after, runLive]) (by simp [after, runLive, Unended])
  | succ n ih => exact sound_advance ih

theorem after_of_stopped {n : ℕ} (h : (after resumeAfter env n).phase = .stopped) {m : ℕ} (hm : n ≤ m) :
    after resumeAfter env m = after resumeAfter env n := by
  induction m, hm using Nat.le_induction with
  | base => rfl
  | succ m hm ih => rw [after, ih, advance_stopped h]

/-! ### The retries left -/

/-- Whether the current stream has produced a line. -/
def producing : Phase → ℕ
  | .pumping _ true => 1
  | .probing true _ => 1
  | _ => 0

def rank : Phase → ℕ
  | .opening attempts transient _ => 3 + (maxWaitAttempts - attempts) + (maxTransientRetries - transient)
  | .pumping _ _ => 2
  | .probing _ _ => 1
  | .stopped => 0

/-- A bound on the answers that lead to no line. Each counter weighs more than all it resets. -/
def retriesLeft (f : Follower) : ℕ :=
  if f.phase = .stopped then 0
  else producing f.phase * 23738 + (maxDeadReconnects - f.deadReconnects) * 2158 +
    (maxTransientRetries - f.unreachable) * 166 + rank f.phase

theorem retriesLeft_going (hf : f.phase ≠ .stopped) :
    retriesLeft f = producing f.phase * 23738 + (maxDeadReconnects - f.deadReconnects) * 2158 +
      (maxTransientRetries - f.unreachable) * 166 + rank f.phase := if_neg hf

theorem retriesLeft_stops {f' : Follower} (hf : f.phase ≠ .stopped) (hf' : f'.phase = .stopped) :
    retriesLeft f' < retriesLeft f := by
  have hrank : 0 < rank f.phase := by
    cases hphase : f.phase with
    | stopped => exact absurd hphase hf
    | opening => exact Nat.add_pos_left (Nat.add_pos_left (by decide) _) _
    | pumping => exact Nat.two_pos
    | probing => exact Nat.one_pos
  rw [retriesLeft_going hf, show retriesLeft f' = 0 from if_pos hf']
  omega

/-- A failed open counts one attempt. -/
theorem retriesLeft_openFailed {attempts transient : ℕ} {lastWaiting : Option String}
    (hf : f.phase = .opening attempts transient lastWaiting) (e : OpenFailure) :
    retriesLeft (openFailed f attempts transient lastWaiting e) < retriesLeft f := by
  have hgoing : f.phase ≠ .stopped := by simp [hf]
  cases e with
  | starting reason =>
    simp only [openFailed]
    split
    · rw [retriesLeft_going hgoing]
      split
      · rw [retriesLeft_going (by simp)]
        simp only [hf, producing, rank]
        omega
      · rw [retriesLeft_going (by simp)]
        simp only [hf, producing, rank, Follower.send]
        omega
    · exact retriesLeft_stops hgoing rfl
  | fatal reason => exact retriesLeft_stops hgoing rfl
  | transient reason =>
    simp only [openFailed]
    split
    · rw [retriesLeft_going hgoing, retriesLeft_going (by simp)]
      simp only [hf, producing, rank, Follower.send]
      omega
    · exact retriesLeft_stops hgoing rfl

/-- A stream that has produced a line pays for all the dead reconnects it resets. -/
theorem retriesLeft_probing {produced : Bool} {streamEnd : StreamEnd} (hf : f.phase = .probing produced streamEnd) :
    (maxDeadReconnects - if produced then 0 else f.deadReconnects) * 2158 + (if produced then 2158 else 0) +
      (maxTransientRetries - f.unreachable) * 166 + 1 ≤ retriesLeft f := by
  rw [retriesLeft_going (by simp [hf]), hf]
  cases produced with
  | true =>
    have hdead : (maxDeadReconnects - 0) * 2158 + 2158 = 23738 := rfl
    simp only [producing, rank, if_true]
    omega
  | false => simp [producing, rank]

theorem retriesLeft_reopens {lastTs : Option String} {dead unreachable : ℕ} {sent : List LogEvent} :
    retriesLeft ⟨lastTs, dead, unreachable, .opening 0 0 none, sent⟩ =
      (maxDeadReconnects - dead) * 2158 + (maxTransientRetries - unreachable) * 166 + 165 := by
  rw [retriesLeft_going (by simp)]
  simp only [producing, rank, maxWaitAttempts, maxTransientRetries]
  omega

theorem retriesLeft_reconnectOrFinish {produced : Bool} {streamEnd : StreamEnd}
    (hf : f.phase = .probing produced streamEnd) (liveness : ContainerLiveness) :
    retriesLeft (reconnectOrFinish f produced streamEnd liveness) < retriesLeft f := by
  have hgoing : f.phase ≠ .stopped := by simp [hf]
  have hleft := retriesLeft_probing hf
  have hunreachable : maxTransientRetries * 166 + 165 < 2158 := by decide
  unfold reconnectOrFinish
  dsimp only
  generalize (if produced = true then 0 else f.deadReconnects) = dead at hleft ⊢
  have hreopens : dead < maxDeadReconnects → ∀ sent : List LogEvent,
      retriesLeft ⟨f.lastTs, if produced = true then dead else dead + 1, 0, .opening 0 0 none, sent⟩ <
        retriesLeft f := by
    intro hdead sent
    rw [retriesLeft_reopens]
    refine lt_of_lt_of_le ?_ hleft
    split <;> omega
  cases liveness with
  | unreachable e =>
    dsimp only
    split
    · simp only [Follower.send, retriesLeft_reopens]
      refine lt_of_lt_of_le ?_ hleft
      omega
    · exact retriesLeft_stops hgoing rfl
  | done => exact retriesLeft_stops hgoing rfl
  | unknown => exact retriesLeft_stops hgoing rfl
  | active =>
    dsimp only
    split
    · rename_i hdead
      exact hreopens hdead _
    · exact retriesLeft_stops hgoing rfl
  | waiting reason =>
    dsimp only
    split
    · rename_i hdead
      exact hreopens hdead _
    · exact retriesLeft_stops hgoing rfl

theorem retriesLeft_streamEnds {skipThrough : Option String} {produced : Bool}
    (hf : f.phase = .pumping skipThrough produced) (streamEnd : StreamEnd) :
    retriesLeft { f with phase := .probing produced streamEnd } < retriesLeft f := by
  rw [retriesLeft_going (by simp), retriesLeft_going (f := f) (by simp [hf])]
  cases produced <;> simp [hf, producing, rank]

/-- Every answer uses up a retry. -/
theorem retriesLeft_lt (h : Answers f signal) : retriesLeft (advance f signal) < retriesLeft f := by
  unfold Answers at h
  split at h
  · rename_i hphase
    simp only [advance, hphase]
    rw [retriesLeft_going (by simp), retriesLeft_going (f := f) (by simp [hphase])]
    simp only [hphase, producing, rank]
    omega
  · rename_i hphase
    simp only [advance, hphase]
    exact retriesLeft_openFailed hphase _
  · rename_i skipThrough produced e hphase
    simp only [advance, hphase]
    exact retriesLeft_streamEnds hphase _
  · rename_i skipThrough produced hphase
    simp only [advance, hphase]
    exact retriesLeft_streamEnds hphase _
  · rename_i hphase
    simp only [advance, hphase]
    exact retriesLeft_reconnectOrFinish hphase _
  · exact h.elim

/-- A skipped line, or nothing, leaves the loop where it stands. -/
theorem advance_of_not_answers (hline : ¬NewLine f signal) (h : ¬Answers f signal) : advance f signal = f := by
  unfold advance
  split
  all_goals rename_i hphase
  · exact absurd (by simp [Answers, hphase]) h
  · exact absurd (by simp [Answers, hphase]) h
  · rename_i skipThrough produced text
    have hskip : isSkipped skipThrough text = true := by
      by_contra hskip
      exact hline ⟨skipThrough, produced, text, hphase, rfl, by simpa using hskip⟩
    rw [pumpLine, if_pos hskip, ← hphase]
  · exact absurd (by simp [Answers, hphase]) h
  · exact absurd (by simp [Answers, hphase]) h
  · exact absurd (by simp [Answers, hphase]) h
  · rfl

/-- From some moment on nothing is answered any more. -/
theorem answers_end {N : ℕ} (hquiet : ∀ n ≥ N, ¬NewLine (after resumeAfter env n) (env n)) :
    ∃ M, ∀ m ≥ M, ¬Answers (after resumeAfter env m) (env m) := by
  have hle : ∀ n, retriesLeft (after resumeAfter env (N + (n + 1))) ≤
      retriesLeft (after resumeAfter env (N + n)) := by
    intro n
    by_cases h : Answers (after resumeAfter env (N + n)) (env (N + n))
    · exact (retriesLeft_lt h).le
    · exact (congrArg retriesLeft (advance_of_not_answers (hquiet _ (Nat.le_add_right _ _)) h)).le
  obtain ⟨M, hM⟩ := WellFoundedLT.antitone_chain_condition
    (antitone_nat_of_succ_le (f := fun n => retriesLeft (after resumeAfter env (N + n))) hle)
  refine ⟨N + M, fun m hm h => ?_⟩
  obtain ⟨k, rfl⟩ := Nat.exists_eq_add_of_le hm
  rw [Nat.add_assoc] at h
  have hsame : retriesLeft (after resumeAfter env (N + (M + k))) =
      retriesLeft (after resumeAfter env (N + (M + k) + 1)) :=
    (hM (M + k) (Nat.le_add_right _ _)).symm.trans (hM (M + k + 1) (by omega))
  exact absurd hsame (Nat.ne_of_gt (retriesLeft_lt h))

/-- What has not been answered does not stop. -/
theorem not_stopped_of_not_answers {n m : ℕ} (hn : (after resumeAfter env n).phase ≠ .stopped) (hm : n ≤ m)
    (h : ∀ k ≥ n, ¬Answers (after resumeAfter env k) (env k)) : (after resumeAfter env m).phase ≠ .stopped := by
  induction m, hm using Nat.le_induction with
  | base => exact hn
  | succ m hm ih =>
    have hm' := h m hm
    rw [after]
    by_cases hline : NewLine (after resumeAfter env m) (env m)
    · obtain ⟨skipThrough, produced, text, hphase, hsignal, hskip⟩ := hline
      simp [advance, hphase, hsignal, pumpLine, hskip]
    · rwa [advance_of_not_answers hline hm']

/-- Every open, end of a stream and probe that the loop waits for comes. -/
def Answered (resumeAfter : Option String) (env : ℕ → Option Signal) : Prop :=
  ∀ n, (after resumeAfter env n).phase = .stopped ∨ ∃ m ≥ n, Answers (after resumeAfter env m) (env m)

theorem endsOnce_iff_stopped (n : ℕ) :
    EndsOnce (after resumeAfter env n).sent ↔ (after resumeAfter env n).phase = .stopped := by
  cases sound_after resumeAfter env n with
  | stopped hphase hsent => exact ⟨fun _ => hphase, fun _ => hsent⟩
  | going hphase hsent =>
    refine ⟨fun ⟨before, e, heq, he, _⟩ => ?_, fun h => absurd h hphase⟩
    exact absurd he (hsent e (heq ▸ List.mem_append_right _ (List.mem_singleton_self e)))

theorem runLive_ends (resumeAfter : Option String) (env : ℕ → Option Signal) (N : ℕ)
    (hquiet : ∀ n ≥ N, ¬NewLine (after resumeAfter env n) (env n)) :
    Set.Finite {n | Reopens (after resumeAfter env n) (env n)} ∧
      (∀ n, Unended (after resumeAfter env n).sent ∨
        EndsOnce (after resumeAfter env n).sent ∧
          ∀ m ≥ n, (after resumeAfter env m).sent = (after resumeAfter env n).sent) ∧
      ((∃ n, EndsOnce (after resumeAfter env n).sent) ↔ Answered resumeAfter env) := by
  obtain ⟨M, hM⟩ := answers_end hquiet
  refine ⟨(Set.finite_Iio M).subset fun n hn => ?_, fun n => ?_, fun ⟨n, hn⟩ k => ?_, fun hall => ?_⟩
  · by_contra hge
    exact hM n (not_lt.mp hge) hn.1
  · cases sound_after resumeAfter env n with
    | going hphase hsent => exact Or.inl hsent
    | stopped hphase hsent => exact Or.inr ⟨hsent, fun m hm => by rw [after_of_stopped hphase hm]⟩
  · by_contra hwaits
    obtain ⟨hphase, hnone⟩ := not_or.mp hwaits
    have hgoing := not_stopped_of_not_answers hphase (le_max_left k n) fun m hm h => hnone ⟨m, hm, h⟩
    rw [after_of_stopped ((endsOnce_iff_stopped n).mp hn) (le_max_right k n)] at hgoing
    exact hgoing ((endsOnce_iff_stopped n).mp hn)
  · rcases hall M with hphase | ⟨m, hm, h⟩
    · exact ⟨M, (endsOnce_iff_stopped M).mpr hphase⟩
    · exact absurd h (hM m hm)

def cutThenDone : ℕ → Option Signal
  | 0 => some .opened
  | 1 => some (.line "a")
  | 2 => some .closed
  | 3 => some (.probe .done)
  | _ => none

theorem runLive_ends_cutThenDone :
    Set.Finite {n | Reopens (after none cutThenDone n) (cutThenDone n)} ∧ Answered none cutThenDone := by
  have hstopped : (after none cutThenDone 4).phase = .stopped := by decide
  have hquiet : ∀ n ≥ 4, ¬NewLine (after none cutThenDone n) (cutThenDone n) := by
    rintro n hn ⟨skipThrough, produced, text, hphase, -⟩
    rw [after_of_stopped hstopped hn, hstopped] at hphase
    cases hphase
  obtain ⟨hfinite, -, hends⟩ := runLive_ends none cutThenDone 4 hquiet
  exact ⟨hfinite, hends.mp ⟨4, (endsOnce_iff_stopped 4).mpr hstopped⟩⟩

/-- A stream that stays open without a line. -/
def staysOpen : ℕ → Option Signal
  | 0 => some .opened
  | _ => none

theorem silent_stream_never_ends :
    ¬∀ (resumeAfter : Option String) (env : ℕ → Option Signal) (N : ℕ),
      (∀ n ≥ N, ¬NewLine (after resumeAfter env n) (env n)) → ∃ n, EndsOnce (after resumeAfter env n).sent := by
  intro hclaim
  have hwaits : ∀ n, after none staysOpen (n + 1) = ⟨none, 0, 0, .pumping none false, []⟩ := by
    intro n
    induction n with
    | zero => rfl
    | succ n ih =>
      rw [after, ih]
      rfl
  obtain ⟨n, hn⟩ := hclaim none staysOpen 0 fun n _ ⟨_, _, _, _, hsignal, _⟩ => by
    cases n <;> cases hsignal
  rw [endsOnce_iff_stopped] at hn
  cases n with
  | zero => cases hn
  | succ n =>
    rw [hwaits] at hn
    cases hn

end FerrisScope.LogLoop
