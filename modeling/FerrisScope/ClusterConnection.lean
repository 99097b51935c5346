import Mathlib.Data.List.Infix
import Mathlib.Logic.Function.Basic
import FerrisScope.LabelledRuns

/-!
# The connection of a mounted cluster panel

The hook connects its cluster and, when the cluster becomes unavailable, reconnects it by itself: after a
backoff it calls `reconnectCluster`, whose completion makes the connect effect run again. A session lasts
from the first unavailable transition until a connect has stayed up through a dwell or the attempts are
spent. Timers expire, calls complete and connects settle in any order. A render and the effects it causes
are one step, which may come at any time and show several changes at once.

Three fields record history: which calls and connects are of automatic attempts, whether such an attempt
has made the connect effect due, and how many ran since the counter was reset.
-/

namespace FerrisScope.ClusterConnection
open LabelledRuns

def maxAuto : ℕ := 10

inductive ConnectState where
  | connecting
  | ok
  | cancelled
  | error (message : String)
  deriving DecidableEq, Repr

inductive HealthStatus where
  | healthy
  | unavailable
  deriving DecidableEq, Repr

inductive Result where
  | ok
  | error (message : String)
  deriving DecidableEq, Repr

/-- A call of `reconnectCluster` in flight. -/
structure Call (κ : Type) where
  cluster : κ
  auto : Bool
  deriving DecidableEq, Repr

/-- A call of `connectContext` in flight. -/
structure Connect where
  id : ℕ
  auto : Bool
  deriving DecidableEq, Repr

/-- The props, the store and the refs of one mounted hook. `cid` is the cluster last rendered, and
`effectAttempt` the attempt of the last connect effect. -/
structure State (κ : Type) where
  context : κ
  health : κ → Option (HealthStatus × Option String)
  reconnecting : κ → Bool
  resumeEpoch : ℕ
  state : ConnectState
  attempt : ℕ
  autoReconnect : Option ℕ
  cid : κ
  effectAttempt : ℕ
  reqId : ℕ
  attemptsUsed : ℕ
  sessionActive : Bool
  attemptInFlight : Bool
  backoffTimer : Bool
  dwellTimer : Bool
  prevHealth : HealthStatus
  resumeSeen : ℕ
  resumeDeferred : Bool
  calls : List (Call κ)
  connects : List Connect
  autoDue : Bool
  attemptsRun : ℕ

inductive Action (κ : Type) where
  | render
  | backoffExpires
  | dwellExpires
  | reconnected (i : ℕ)
  | settled (i : ℕ) (result : Result)
  | cancel
  | reconnect
  | health (c : κ) (status : HealthStatus) (reason : Option String)
  | resume
  | switchContext (c : κ)
  deriving DecidableEq, Repr

variable {κ : Type} [DecidableEq κ]

namespace State

variable (s : State κ)

/-- Just mounted, with the first connect in flight. -/
def mount (c : κ) (health : κ → Option (HealthStatus × Option String)) (resumeEpoch : ℕ) : State κ where
  context := c
  health := health
  reconnecting := fun _ => false
  resumeEpoch := resumeEpoch
  state := .connecting
  attempt := 0
  autoReconnect := none
  cid := c
  effectAttempt := 0
  reqId := 1
  attemptsUsed := 0
  sessionActive := false
  attemptInFlight := false
  backoffTimer := false
  dwellTimer := false
  prevHealth := ((health c).map Prod.fst).getD .healthy
  resumeSeen := resumeEpoch
  resumeDeferred := false
  calls := []
  connects := [⟨1, false⟩]
  autoDue := false
  attemptsRun := 0

def healthStatus : HealthStatus := ((s.health s.context).map Prod.fst).getD .healthy

def healthReason : Option String := (s.health s.context).bind Prod.snd

def clearClusterHealth (c : κ) : State κ := { s with health := Function.update s.health c none }

def clearDwell : State κ := { s with dwellTimer := false }

def clearMark : State κ := { s with attemptInFlight := false }

def endSession (reset : Bool) : State κ := { s with
  backoffTimer := false
  dwellTimer := false
  sessionActive := false
  attemptInFlight := false
  attemptsUsed := if reset then 0 else s.attemptsUsed
  attemptsRun := if reset then 0 else s.attemptsRun
  reconnecting := Function.update s.reconnecting s.cid false
  autoReconnect := none }

def runAttempt : State κ := { s with
  backoffTimer := false
  attemptsUsed := s.attemptsUsed + 1
  attemptInFlight := true
  calls := s.calls ++ [⟨s.cid, true⟩]
  attemptsRun := s.attemptsRun + 1 }

def scheduleNext : State κ :=
  if s.backoffTimer ∨ s.attemptInFlight then s
  else if maxAuto ≤ s.attemptsUsed then s.endSession false
  else { s with
    sessionActive := true
    reconnecting := Function.update s.reconnecting s.cid true
    autoReconnect := some (s.attemptsUsed + 1)
    backoffTimer := true }

/-- A connect has succeeded in a session. -/
def startDwell : State κ := { s with
  reconnecting := Function.update s.reconnecting s.cid false
  autoReconnect := none
  dwellTimer := true }

end State

/-- What a connect rejects with when it was cancelled. -/
def isCancelled (message : String) : Bool := decide ("cancelled".toList <:+: message.toList.map Char.toLower)

variable (isPermanent : String → Bool)

namespace State

variable (s : State κ)

def onUnavailable (reason : Option String) : State κ :=
  let s := s.clearDwell
  if reason.any isPermanent then s.endSession true else s.scheduleNext

def onResumed : State κ := (s.endSession true).scheduleNext

def onConnectResolved (result : Result) : State κ :=
  let s := s.clearMark
  if s.sessionActive = false then s
  else
    match result with
    | .error message => if isPermanent message then s.endSession true else s.scheduleNext
    | .ok => s.startDwell

/-- The effect of the context: its cleanup for the old cluster, and a clean slate for the new one. -/
def contextEffect (old : κ) : State κ :=
  if old = s.context then s
  else { s with
    backoffTimer := false
    dwellTimer := false
    sessionActive := false
    attemptInFlight := false
    attemptsUsed := 0
    attemptsRun := 0
    reconnecting := Function.update s.reconnecting old false
    prevHealth := s.healthStatus
    autoReconnect := none }

def seeHealth : State κ := { s with prevHealth := s.healthStatus }

def seeResume : State κ := { s with resumeSeen := s.resumeEpoch, resumeDeferred := false }

def healthEffect : State κ :=
  let prev := s.prevHealth
  let s := s.seeHealth
  if s.healthStatus ≠ .unavailable ∨ prev = s.healthStatus ∨ s.state ≠ .ok then s
  else s.onUnavailable isPermanent s.healthReason

def resumeEffect : State κ :=
  if s.resumeSeen = s.resumeEpoch then s
  else if s.state = .connecting then { s with resumeDeferred := true }
  else
    let deferred := s.resumeDeferred
    let s := s.seeResume
    if s.state = .cancelled ∨ (deferred ∧ s.state = .ok) then s else s.onResumed

/-- The connect effect runs for a new cluster or a new attempt. -/
def connectEffect (old : κ) : State κ :=
  if old = s.context ∧ s.effectAttempt = s.attempt then s
  else { s with
    state := .connecting
    effectAttempt := s.attempt
    reqId := s.reqId + 1
    connects := s.connects ++ [⟨s.reqId + 1, s.autoDue⟩]
    autoDue := false }

/-- A render shows the context, and then its effects run in their order. -/
def render : State κ :=
  let old := s.cid
  let s := { s with cid := s.context }
  (((s.contextEffect old).healthEffect isPermanent).resumeEffect).connectEffect old

/-- A connect settles. One that another has replaced is ignored. -/
def settle (c : Connect) (result : Result) : State κ :=
  if c.id ≠ s.reqId then s
  else
    match result with
    | .ok => { s with state := .ok }.onConnectResolved isPermanent .ok
    | .error message =>
      if isCancelled message then { s with state := .cancelled }
      else { s with state := .error message }.onConnectResolved isPermanent (.error message)

def dropConnect (i : ℕ) : State κ := { s with connects := s.connects.eraseIdx i }

def cancel : State κ := if s.state = .connecting then { s with state := .cancelled } else s

def reconnect : State κ :=
  let s := s.endSession true
  { s with calls := s.calls ++ [⟨s.cid, false⟩] }

end State

def step (s : State κ) : Action κ → Option (State κ)
  | .render => some (s.render isPermanent)
  | .backoffExpires => if s.backoffTimer then some s.runAttempt else none
  | .dwellExpires => if s.dwellTimer then some (s.endSession true) else none
  | .reconnected i => s.calls[i]?.map fun call =>
      { s.clearClusterHealth call.cluster with
        calls := s.calls.eraseIdx i
        attempt := s.attempt + 1
        autoDue := s.autoDue || call.auto }
  | .settled i result => s.connects[i]?.map fun c =>
      (s.dropConnect i).settle isPermanent c result
  | .cancel => some s.cancel
  | .reconnect => some s.reconnect
  | .health c status reason => some { s with health := Function.update s.health c (some (status, reason)) }
  | .resume => some { s with resumeEpoch := s.resumeEpoch + 1 }
  | .switchContext c => some { s with context := c }

/-- An automatic attempt is in flight: from its call until the connect that it triggers settles. -/
def AutoInFlight (s : State κ) : Prop :=
  (∃ c ∈ s.calls, c.auto = true) ∨ s.autoDue = true ∨ ∃ c ∈ s.connects, c.auto = true

/-- What is promised of the session machine. -/
structure Sound (s : State κ) : Prop where
  exclusive : s.backoffTimer = true → ¬ AutoInFlight s
  bounded : s.attemptsRun ≤ maxAuto
  idle : ¬ AutoInFlight s → s.backoffTimer = false → s.dwellTimer = false →
    s.sessionActive = false ∧ s.attemptInFlight = false ∧ s.reconnecting s.cid = false

/-- The health effect finds a transition into unavailable that is retried. -/
def Watches (s : State κ) : Prop :=
  s.healthStatus = .unavailable ∧ s.prevHealth ≠ .unavailable ∧ s.state = .ok ∧
    s.healthReason.any isPermanent = false

/-- Such a transition of the cluster that was rendered last. -/
def Retries (s : State κ) : Prop := s.cid = s.context ∧ Watches isPermanent s

/-- A resume starts a session over. -/
def Restarts (s : State κ) : Prop :=
  s.resumeSeen ≠ s.resumeEpoch ∧ s.state ≠ .connecting ∧ s.state ≠ .cancelled ∧
    ¬ (s.resumeDeferred = true ∧ s.state = .ok)

/-- The backoff timer can be set. -/
def MaySchedule (s : State κ) : Prop :=
  s.backoffTimer = false ∧ s.attemptInFlight = false ∧ s.attemptsUsed < maxAuto

/-- The mark of an attempt in flight, with no timer that would clear it. -/
def Marked (s : State κ) : Prop :=
  s.attemptInFlight = true ∧ s.backoffTimer = false ∧ s.dwellTimer = false

/-- A connect that settles is not reported to the session. -/
def Unreported (s : State κ) (c : Connect) : Result → Prop
  | .ok => c.id ≠ s.reqId
  | .error message => c.id ≠ s.reqId ∨ isCancelled message = true

/-- A connect that settles sets the backoff timer. -/
def Retried (s : State κ) (c : Connect) : Result → Prop
  | .ok => False
  | .error message => c.id = s.reqId ∧ isCancelled message = false ∧ isPermanent message = false ∧
      s.sessionActive = true ∧ MaySchedule s.clearMark

/-- The backoff timer is set only while no other automatic attempt is in flight, and the mark is not left
set without an attempt. -/
def Undisturbed (s : State κ) : Action κ → Prop
  | .render =>
    (Restarts s → ¬ AutoInFlight s) ∧ (¬ Restarts s → Retries isPermanent s →
      (MaySchedule s → ¬ AutoInFlight s) ∧ (Marked s.clearDwell → AutoInFlight s))
  | .settled i result =>
    ∀ c ∈ s.connects[i]?, (Unreported s c result → Marked s → AutoInFlight (s.dropConnect i)) ∧
      (Retried isPermanent s c result → ¬ AutoInFlight (s.dropConnect i))
  | _ => True

/-- The parts of the invariant that hold also while a handler runs. -/
structure Base (s : State κ) : Prop where
  counted : s.attemptsRun = s.attemptsUsed
  bounded : s.attemptsUsed ≤ maxAuto
  spare : s.backoffTimer = true → s.attemptsUsed < maxAuto
  backoff : s.backoffTimer = true → s.sessionActive = true
  dwell : s.dwellTimer = true → s.sessionActive = true
  mark : s.attemptInFlight = true → s.sessionActive = true
  flag : s.reconnecting s.cid = true → s.sessionActive = true
  others : ∀ c, c ≠ s.cid → s.reconnecting c = false

/-- A session has a timer or the mark. -/
structure Inv (s : State κ) : Prop extends Base s where
  lasting : s.sessionActive = true → s.backoffTimer = true ∨ s.dwellTimer = true ∨ s.attemptInFlight = true

/-- What is left of `Sound` in a state with the invariant. -/
def Accounted (s : State κ) : Prop :=
  (s.backoffTimer = true → ¬ AutoInFlight s) ∧ (Marked s → AutoInFlight s)

section Handlers

variable {isPermanent} {s t : State κ} {reset : Bool}

omit [DecidableEq κ] in
theorem sound_iff (hs : Inv s) : Sound s ↔ Accounted s := by
  constructor
  · intro h
    refine ⟨h.exclusive, fun ⟨hmark, hbackoff, hdwell⟩ => ?_⟩
    by_contra hauto
    have hidle := h.idle hauto hbackoff hdwell
    rw [hidle.2.1] at hmark
    cases hmark
  · rintro ⟨hexclusive, hmarked⟩
    refine ⟨hexclusive, hs.counted.le.trans hs.bounded, fun hauto hbackoff hdwell => ?_⟩
    have hmark : s.attemptInFlight = false := by
      by_contra hmark
      exact hauto (hmarked ⟨eq_true_of_ne_false hmark, hbackoff, hdwell⟩)
    have hsession : s.sessionActive = false := by
      by_contra hsession
      have hlasting := hs.lasting (eq_true_of_ne_false hsession)
      simp [hmark, hbackoff, hdwell] at hlasting
    refine ⟨hsession, hmark, ?_⟩
    by_contra hflag
    rw [hs.flag (eq_true_of_ne_false hflag)] at hsession
    cases hsession

theorem autoInFlight_endSession : AutoInFlight (s.endSession reset) ↔ AutoInFlight s := by
  cases reset <;> rfl

theorem autoInFlight_scheduleNext : AutoInFlight s.scheduleNext ↔ AutoInFlight s := by
  unfold State.scheduleNext
  split_ifs
  · rfl
  · exact autoInFlight_endSession
  · rfl

/-- Without the flag of the cluster rendered last, no cluster is marked as reconnecting. -/
theorem Base.reconnecting_update (hs : Base s) (c : κ) : Function.update s.reconnecting s.cid false c = false := by
  obtain rfl | hne := eq_or_ne c s.cid
  · exact Function.update_self ..
  · exact (Function.update_of_ne hne ..).trans (hs.others c hne)

theorem inv_endSession (hs : Base s) : Inv (s.endSession reset) := by
  have hothers := hs.reconnecting_update
  cases reset with
  | true =>
    exact ⟨⟨rfl, Nat.zero_le _, nofun, nofun, nofun, nofun, fun h => absurd ((hothers s.cid).symm.trans h) nofun,
      fun c _ => hothers c⟩, nofun⟩
  | false =>
    exact ⟨⟨hs.counted, hs.bounded, nofun, nofun, nofun, nofun, fun h => absurd ((hothers s.cid).symm.trans h) nofun,
      fun c _ => hothers c⟩, nofun⟩

theorem accounted_endSession : Accounted (s.endSession reset) := by
  cases reset <;> exact ⟨nofun, nofun⟩

theorem inv_scheduleNext (hs : Base s) : Inv s.scheduleNext := by
  unfold State.scheduleNext
  split_ifs with hpending hspent
  · refine ⟨hs, fun _ => ?_⟩
    exact hpending.imp_right .inr
  · exact inv_endSession hs
  · refine ⟨⟨hs.counted, hs.bounded, fun _ => Nat.lt_of_not_le hspent, fun _ => rfl, fun _ => rfl,
      fun _ => rfl, fun _ => rfl, fun c hc => ?_⟩, fun _ => .inl rfl⟩
    exact (Function.update_of_ne hc ..).trans (hs.others c hc)

/-- Scheduling goes wrong exactly if it sets the timer while an attempt is in flight. -/
theorem accounted_scheduleNext :
    Accounted s.scheduleNext ↔ (MaySchedule s → ¬ AutoInFlight s) ∧
      (s.backoffTimer = true → ¬ AutoInFlight s) ∧ (Marked s → AutoInFlight s) := by
  unfold State.scheduleNext
  split_ifs with hpending hspent
  · have hno : ¬ MaySchedule s := by
      rintro ⟨hbackoff, hmark, -⟩
      simp [hbackoff, hmark] at hpending
    exact ⟨fun h => ⟨fun hmay => absurd hmay hno, h⟩, And.right⟩
  · obtain ⟨hbackoff, hmark⟩ := not_or.mp hpending
    refine iff_of_true accounted_endSession ⟨fun hmay => absurd hmay.2.2 (Nat.not_lt.mpr hspent), ?_, ?_⟩
    · exact fun h => absurd h hbackoff
    · exact fun h => absurd h.1 hmark
  · obtain ⟨hbackoff, hmark⟩ := not_or.mp hpending
    constructor
    · exact fun h => ⟨fun _ => h.1 rfl, fun h' => absurd h' hbackoff, fun h' => absurd h'.1 hmark⟩
    · intro h
      have hmay : MaySchedule s :=
        ⟨eq_false_of_ne_true hbackoff, eq_false_of_ne_true hmark, Nat.lt_of_not_le hspent⟩
      exact ⟨fun _ => h.1 hmay, fun h' => absurd h'.2.1 nofun⟩

/-- A handler for an unavailable cluster cancels the dwell, and gives up or schedules. -/
theorem inv_onUnavailable {reason : Option String} (hs : Base s) : Inv (s.onUnavailable isPermanent reason) := by
  have hbase : Base s.clearDwell :=
    ⟨hs.counted, hs.bounded, hs.spare, hs.backoff, nofun, hs.mark, hs.flag, hs.others⟩
  unfold State.onUnavailable
  split_ifs
  · exact inv_endSession hbase
  · exact inv_scheduleNext hbase

theorem inv_onResumed (hs : Base s) : Inv s.onResumed := inv_scheduleNext (inv_endSession hs).toBase

theorem accounted_onResumed : Accounted s.onResumed ↔ ¬ AutoInFlight s := by
  rw [State.onResumed, accounted_scheduleNext, autoInFlight_endSession]
  have hmay : MaySchedule (s.endSession true) := ⟨rfl, rfl, Nat.zero_lt_succ 9⟩
  exact ⟨fun h => h.1 hmay, fun h => ⟨fun _ => h, nofun, nofun⟩⟩

theorem inv_onConnectResolved {result : Result} (hs : Base s) : Inv (s.onConnectResolved isPermanent result) := by
  have hbase : Base s.clearMark :=
    ⟨hs.counted, hs.bounded, hs.spare, hs.backoff, hs.dwell, nofun, hs.flag, hs.others⟩
  simp only [State.onConnectResolved]
  split_ifs with hsession
  · exact ⟨hbase, fun h => absurd (hsession.symm.trans h) nofun⟩
  · have hactive : s.sessionActive = true := eq_true_of_ne_false hsession
    cases result with
    | ok =>
      refine ⟨⟨hs.counted, hs.bounded, hs.spare, hs.backoff, fun _ => hactive, nofun, fun _ => hactive, fun c hc => ?_⟩,
        fun _ => .inr (.inl rfl)⟩
      exact (Function.update_of_ne hc ..).trans (hs.others c hc)
    | error message =>
      dsimp only
      split_ifs
      · exact inv_endSession hbase
      · exact inv_scheduleNext hbase

theorem autoInFlight_onUnavailable {reason : Option String} :
    AutoInFlight (s.onUnavailable isPermanent reason) ↔ AutoInFlight s := by
  unfold State.onUnavailable
  split_ifs
  · exact autoInFlight_endSession
  · exact autoInFlight_scheduleNext

theorem accounted_onUnavailable {reason : Option String} (hs : s.backoffTimer = true → ¬ AutoInFlight s) :
    Accounted (s.onUnavailable isPermanent reason) ↔ (reason.any isPermanent = false →
      (MaySchedule s → ¬ AutoInFlight s) ∧ (Marked s.clearDwell → AutoInFlight s)) := by
  unfold State.onUnavailable
  split_ifs with hreason
  · exact iff_of_true accounted_endSession fun h => absurd (hreason.symm.trans h) nofun
  · rw [accounted_scheduleNext]
    constructor
    · exact fun h _ => ⟨h.1, h.2.2⟩
    · intro h
      obtain ⟨hmay, hmarked⟩ := h (eq_false_of_ne_true hreason)
      exact ⟨hmay, hs, hmarked⟩

/-- The outcome of a connect: only an error that is retried can set the timer. -/
theorem accounted_onConnectResolved {result : Result} (hs : s.backoffTimer = true → ¬ AutoInFlight s) :
    Accounted (s.onConnectResolved isPermanent result) ↔ (∀ message, result = .error message →
      isPermanent message = false → s.sessionActive = true → MaySchedule s.clearMark →
        ¬ AutoInFlight s) := by
  simp only [State.onConnectResolved]
  split_ifs with hsession
  · refine iff_of_true ⟨hs, fun h => absurd h.1 nofun⟩ fun _ _ _ hactive => ?_
    exact absurd (hsession.symm.trans hactive) nofun
  · have hactive : s.sessionActive = true := eq_true_of_ne_false hsession
    cases result with
    | ok => exact iff_of_true ⟨hs, fun h => absurd h.1 nofun⟩ nofun
    | error message =>
      dsimp only
      split_ifs with hpermanent
      · refine iff_of_true accounted_endSession fun _ heq hno => ?_
        cases heq
        exact absurd (hpermanent.symm.trans hno) nofun
      · rw [accounted_scheduleNext]
        constructor
        · rintro ⟨hmay, -⟩ _ - - -
          exact hmay
        · intro h
          exact ⟨h message rfl (eq_false_of_ne_true hpermanent) hactive, hs, fun h' => absurd h'.1 nofun⟩

end Handlers

section Steps

variable {isPermanent} {s t : State κ} {a : Action κ}

/-- The state once a render has shown the context and the effect of the context has run. -/
def shown (s : State κ) : State κ := { s with cid := s.context }.contextEffect s.cid

theorem inv_shown (hs : Inv s) : Inv (shown s) := by
  unfold shown State.contextEffect
  split_ifs with hsame
  · obtain ⟨context⟩ := s
    cases hsame
    exact hs
  · have hothers := hs.reconnecting_update
    exact ⟨⟨rfl, Nat.zero_le _, nofun, nofun, nofun, nofun, fun h => absurd ((hothers s.context).symm.trans h) nofun,
      fun c _ => hothers c⟩, nofun⟩

theorem accounted_shown (hp : Accounted s) : Accounted (shown s) := by
  unfold shown State.contextEffect
  split_ifs
  · exact hp
  · exact ⟨nofun, nofun⟩

theorem autoInFlight_shown : AutoInFlight (shown s) ↔ AutoInFlight s := by
  unfold shown State.contextEffect
  split_ifs <;> rfl

theorem inv_healthEffect (hs : Inv s) : Inv (s.healthEffect isPermanent) := by
  have hsee : Inv s.seeHealth :=
    { hs with }
  simp only [State.healthEffect]
  split_ifs
  · exact hsee
  · exact inv_onUnavailable hsee.toBase

theorem accounted_healthEffect (hp : Accounted s) :
    Accounted (s.healthEffect isPermanent) ↔ (Watches isPermanent s →
      (MaySchedule s → ¬ AutoInFlight s) ∧ (Marked s.clearDwell → AutoInFlight s)) := by
  simp only [State.healthEffect]
  split_ifs with hskip
  · refine iff_of_true hp fun ⟨hstatus, hprev, hok, _⟩ => ?_
    obtain h | h | h := hskip
    · exact absurd hstatus h
    · exact absurd (h.trans hstatus) hprev
    · exact absurd hok h
  · simp only [not_or, not_not] at hskip
    obtain ⟨hstatus, hprev, hok⟩ := hskip
    have hchanged : s.prevHealth ≠ .unavailable := fun h => hprev (h.trans hstatus.symm)
    refine (accounted_onUnavailable (s := s.seeHealth) hp.1).trans ?_
    exact ⟨fun h hwatch => h hwatch.2.2.2, fun h hreason => h ⟨hstatus, hchanged, hok, hreason⟩⟩

theorem autoInFlight_healthEffect : AutoInFlight (s.healthEffect isPermanent) ↔ AutoInFlight s := by
  simp only [State.healthEffect]
  split_ifs
  · rfl
  · exact autoInFlight_onUnavailable

theorem inv_resumeEffect (hs : Inv s) : Inv s.resumeEffect := by
  have hsee : Inv s.seeResume :=
    { hs with }
  simp only [State.resumeEffect]
  split_ifs
  · exact hs
  · exact { hs with }
  · exact hsee
  · exact inv_onResumed hsee.toBase

theorem accounted_resumeEffect :
    Accounted s.resumeEffect ↔ (Restarts s → ¬ AutoInFlight s) ∧ (¬ Restarts s → Accounted s) := by
  have hskips (hno : ¬ Restarts s) : Accounted s ↔ (Restarts s → ¬ AutoInFlight s) ∧ (¬ Restarts s → Accounted s) :=
    ⟨fun h => ⟨fun hyes => absurd hyes hno, fun _ => h⟩, fun h => h.2 hno⟩
  simp only [State.resumeEffect]
  split_ifs with hseen hconnecting hskip
  · exact hskips fun h => h.1 hseen
  · exact hskips fun h => h.2.1 hconnecting
  · exact hskips fun h => hskip.elim h.2.2.1 h.2.2.2
  · obtain ⟨hcancelled, hdeferred⟩ := not_or.mp hskip
    have hyes : Restarts s := ⟨hseen, hconnecting, hcancelled, hdeferred⟩
    refine (accounted_onResumed (s := s.seeResume)).trans ?_
    exact ⟨fun h => ⟨fun _ => h, fun hno => absurd hyes hno⟩, fun h => h.1 hyes⟩

theorem restarts_healthEffect : Restarts (s.healthEffect isPermanent) ↔ Restarts s := by
  have hend (s : State κ) (reset : Bool) : Restarts (s.endSession reset) ↔ Restarts s := by cases reset <;> rfl
  have hschedule (s : State κ) : Restarts s.scheduleNext ↔ Restarts s := by
    unfold State.scheduleNext
    split_ifs
    · rfl
    · exact hend s false
    · rfl
  simp only [State.healthEffect, State.onUnavailable]
  split_ifs
  · rfl
  · exact hend ..
  · exact hschedule _

theorem autoInFlight_connectEffect {old : κ} : AutoInFlight (s.connectEffect old) ↔ AutoInFlight s := by
  unfold State.connectEffect
  split_ifs
  · rfl
  · simp only [AutoInFlight, List.mem_append, List.mem_singleton, Bool.false_eq_true, false_or]
    constructor
    · rintro (hcall | ⟨c, hc | rfl, hauto⟩)
      · exact .inl hcall
      · exact .inr (.inr ⟨c, hc, hauto⟩)
      · exact .inr (.inl hauto)
    · rintro (hcall | hdue | ⟨c, hc, hauto⟩)
      · exact .inl hcall
      · exact .inr ⟨_, .inr rfl, hdue⟩
      · exact .inr ⟨c, .inl hc, hauto⟩

theorem inv_connectEffect {old : κ} (hs : Inv s) : Inv (s.connectEffect old) := by
  unfold State.connectEffect
  split_ifs
  · exact hs
  · exact { hs with }

theorem accounted_connectEffect {old : κ} : Accounted (s.connectEffect old) ↔ Accounted s := by
  rw [Accounted, Accounted, autoInFlight_connectEffect]
  unfold State.connectEffect
  split_ifs <;> rfl

/-- A cluster that is shown anew has no transition. -/
theorem watches_shown : Watches isPermanent (shown s) ↔ Retries isPermanent s := by
  unfold shown State.contextEffect
  split_ifs with hsame
  · exact ⟨fun h => ⟨hsame, h⟩, fun h => h.2⟩
  · exact ⟨fun h => absurd h.1 h.2.1, fun h => absurd h.1 hsame⟩

theorem accounted_render (hp : Accounted s) :
    Accounted (s.render isPermanent) ↔ Undisturbed isPermanent s .render := by
  have hrestarts : Restarts (shown s) ↔ Restarts s := by
    unfold shown State.contextEffect
    split_ifs <;> rfl
  have hretries (h : Retries isPermanent s) :
      (MaySchedule (shown s) ↔ MaySchedule s) ∧ (Marked (shown s).clearDwell ↔ Marked s.clearDwell) := by
    unfold shown State.contextEffect
    rw [if_pos h.1]
    exact ⟨Iff.rfl, Iff.rfl⟩
  change Accounted ((((shown s).healthEffect isPermanent).resumeEffect).connectEffect s.cid) ↔ _
  rw [accounted_connectEffect, accounted_resumeEffect, autoInFlight_healthEffect, restarts_healthEffect,
    accounted_healthEffect (accounted_shown hp), autoInFlight_shown, hrestarts, watches_shown]
  refine and_congr_right fun _ => forall_congr' fun _ => forall_congr' fun h => ?_
  rw [(hretries h).1, (hretries h).2]

theorem inv_settle {c : Connect} {result : Result} (hs : Inv s) : Inv (s.settle isPermanent c result) := by
  have hstate (state : ConnectState) : Inv { s with state := state } :=
    { hs with }
  unfold State.settle
  split_ifs
  · exact hs
  · cases result with
    | ok => exact inv_onConnectResolved (hstate .ok).toBase
    | error message =>
      dsimp only
      split_ifs
      · exact hstate .cancelled
      · exact inv_onConnectResolved (hstate (.error message)).toBase

theorem inv_step (hs : Inv s) (h : step isPermanent s a = some t) : Inv t := by
  cases a with
  | render =>
    cases h
    exact inv_connectEffect (inv_resumeEffect (inv_healthEffect (inv_shown hs)))
  | backoffExpires =>
    simp only [step, Option.ite_none_right_eq_some] at h
    obtain ⟨htimer, h⟩ := h
    cases h
    have hactive := hs.backoff htimer
    exact ⟨⟨congrArg (· + 1) hs.counted, hs.spare htimer, nofun, fun _ => hactive, hs.dwell, fun _ => hactive,
      hs.flag, hs.others⟩, fun _ => .inr (.inr rfl)⟩
  | dwellExpires =>
    simp only [step, Option.ite_none_right_eq_some] at h
    obtain ⟨-, h⟩ := h
    cases h
    exact inv_endSession hs.toBase
  | reconnected i =>
    obtain ⟨call, -, rfl⟩ := Option.map_eq_some_iff.mp h
    exact { hs with }
  | settled i result =>
    obtain ⟨c, -, rfl⟩ := Option.map_eq_some_iff.mp h
    exact inv_settle
      { hs with }
  | cancel =>
    cases h
    unfold State.cancel
    split_ifs
    · exact { hs with }
    · exact hs
  | reconnect =>
    cases h
    have hend : Inv (s.endSession true) := inv_endSession hs.toBase
    exact { hend with }
  | health | resume | switchContext =>
    cases h
    exact { hs with }

/-- A connect that settles accounts for its attempt, unless that goes unreported or is retried too soon. -/
theorem accounted_settle {c : Connect} {result : Result} (hs : s.backoffTimer = true → ¬ AutoInFlight s) :
    Accounted (s.settle isPermanent c result) ↔
      (Unreported s c result → Marked s → AutoInFlight s) ∧ (Retried isPermanent s c result → ¬ AutoInFlight s) := by
  unfold State.settle
  split_ifs with hstale
  · have hunreported : Unreported s c result := by
      cases result with
      | ok => exact hstale
      | error message => exact .inl hstale
    have hno : ¬ Retried isPermanent s c result := by
      cases result with
      | ok => exact id
      | error message => exact fun h => hstale h.1
    exact ⟨fun h => ⟨fun _ => h.2, fun h' => absurd h' hno⟩, fun h => ⟨hs, h.1 hunreported⟩⟩
  · have hid : c.id = s.reqId := not_not.mp hstale
    cases result with
    | ok =>
      refine iff_of_true ((accounted_onConnectResolved (s := { s with state := .ok }) hs).mpr nofun) ⟨fun h => ?_, nofun⟩
      exact absurd hid h
    | error message =>
      dsimp only
      split_ifs with hcancelled
      · constructor
        · exact fun h => ⟨fun _ => h.2, fun h' => absurd (hcancelled.symm.trans h'.2.1) nofun⟩
        · exact fun h => ⟨hs, h.1 (.inr hcancelled)⟩
      · have hno : isCancelled message = false := eq_false_of_ne_true hcancelled
        refine (accounted_onConnectResolved (s := { s with state := .error message }) hs).trans ?_
        constructor
        · intro h
          refine ⟨fun hor => (hor.elim hstale hcancelled).elim, ?_⟩
          exact fun ⟨_, _, hpermanent, hactive, hmay⟩ => h message rfl hpermanent hactive hmay
        · rintro ⟨-, h⟩ _ heq hpermanent hactive hmay
          cases heq
          exact h ⟨hid, hno, hpermanent, hactive, hmay⟩

omit [DecidableEq κ] in
theorem exists_mem_eraseIdx_or {α : Type} {P : α → Prop} {xs : List α} {i : ℕ} {x : α} (hx : xs[i]? = some x) :
    (∃ y ∈ xs.eraseIdx i, P y) ∨ P x ↔ ∃ y ∈ xs, P y := by
  constructor
  · rintro (⟨y, hy, hp⟩ | hp)
    · exact ⟨y, List.mem_of_mem_eraseIdx hy, hp⟩
    · exact ⟨x, List.mem_of_getElem? hx, hp⟩
  · rintro ⟨y, hy, hp⟩
    obtain ⟨j, hj⟩ := List.mem_iff_getElem?.mp hy
    by_cases hji : j = i
    · subst hji
      obtain rfl := Option.some.inj (hj.symm.trans hx)
      exact .inr hp
    · exact .inl ⟨y, List.mem_eraseIdx_iff_getElem?.mpr ⟨j, hji, hj⟩, hp⟩

theorem accounted_step (hp : Accounted s) (h : step isPermanent s a = some t) :
    Accounted t ↔ Undisturbed isPermanent s a := by
  cases a with
  | render =>
    cases h
    exact accounted_render hp
  | backoffExpires =>
    simp only [step, Option.ite_none_right_eq_some] at h
    obtain ⟨-, h⟩ := h
    cases h
    exact iff_of_true ⟨nofun, fun _ => .inl ⟨_, List.mem_append_right _ List.mem_cons_self, rfl⟩⟩ trivial
  | dwellExpires =>
    simp only [step, Option.ite_none_right_eq_some] at h
    obtain ⟨-, h⟩ := h
    cases h
    exact iff_of_true accounted_endSession trivial
  | reconnected i =>
    obtain ⟨call, hcall, rfl⟩ := Option.map_eq_some_iff.mp h
    refine iff_of_true ?_ trivial
    have hauto : AutoInFlight { s.clearClusterHealth call.cluster with
        calls := s.calls.eraseIdx i
        attempt := s.attempt + 1
        autoDue := s.autoDue || call.auto } ↔ AutoInFlight s := by
      simp only [AutoInFlight, State.clearClusterHealth, Bool.or_eq_true, ← exists_mem_eraseIdx_or hcall]
      rw [or_assoc, or_assoc]
      exact or_congr_right or_left_comm
    exact ⟨fun htimer => hauto.not.mpr (hp.1 htimer), fun hmarked => hauto.mpr (hp.2 hmarked)⟩
  | settled i result =>
    obtain ⟨c, hc, rfl⟩ := Option.map_eq_some_iff.mp h
    have hrest (h : AutoInFlight (s.dropConnect i)) : AutoInFlight s :=
      h.imp_right (Or.imp_right fun ⟨d, hd, hauto⟩ => ⟨d, List.mem_of_mem_eraseIdx hd, hauto⟩)
    refine (accounted_settle (s := s.dropConnect i) fun htimer hauto => hp.1 htimer (hrest hauto)).trans ?_
    have hsame : (Unreported (s.dropConnect i) c result ↔ Unreported s c result) ∧
        (Retried isPermanent (s.dropConnect i) c result ↔ Retried isPermanent s c result) := by
      cases result <;> exact ⟨Iff.rfl, Iff.rfl⟩
    rw [hsame.1, hsame.2]
    simp only [Undisturbed, hc]
    exact ⟨fun h d hd => Option.mem_some_iff.mp hd ▸ h, fun h => h c rfl⟩
  | cancel =>
    cases h
    refine iff_of_true ?_ trivial
    unfold State.cancel
    split_ifs <;> exact hp
  | reconnect =>
    cases h
    exact iff_of_true ⟨nofun, nofun⟩ trivial
  | health | resume | switchContext =>
    cases h
    exact iff_of_true hp trivial

/-- Once nothing is in flight or pending, an unavailable transition starts a session again. -/
theorem backoffTimer_render (hs : Sound s) (hauto : ¬ AutoInFlight s) (hbackoff : s.backoffTimer = false)
    (hdwell : s.dwellTimer = false) (hretries : Retries isPermanent s) (hleft : s.attemptsUsed < maxAuto) :
    (s.render isPermanent).backoffTimer = true := by
  have hschedule (s : State κ) (h : MaySchedule s) : s.scheduleNext.backoffTimer = true := by
    rw [State.scheduleNext, if_neg (by simp [h.1, h.2.1]), if_neg (Nat.not_le.mpr h.2.2)]
  obtain ⟨hsame, hstatus, hprev, hok, hreason⟩ := hretries
  have hmark := (hs.idle hauto hbackoff hdwell).2.1
  have hshown : shown s = { s with cid := s.context } := if_pos hsame
  have hhealth : ((shown s).healthEffect isPermanent).backoffTimer = true := by
    have hskip : ¬ (s.healthStatus ≠ .unavailable ∨ s.prevHealth = s.healthStatus ∨ s.state ≠ .ok) := by
      simp [hstatus, hprev, hok]
    have hmay : MaySchedule { s with cid := s.context }.seeHealth.clearDwell := ⟨hbackoff, hmark, hleft⟩
    rw [hshown]
    refine (congrArg State.backoffTimer (if_neg hskip)).trans ?_
    refine (congrArg State.backoffTimer (if_neg fun h => ?_)).trans (hschedule _ hmay)
    exact absurd (hreason.symm.trans h) nofun
  have hresume (s : State κ) (h : s.backoffTimer = true) : s.resumeEffect.backoffTimer = true := by
    simp only [State.resumeEffect]
    split_ifs
    · exact h
    · exact h
    · exact h
    · exact hschedule _ ⟨rfl, rfl, Nat.zero_lt_succ 9⟩
  have hconnect (s : State κ) (old : κ) : (s.connectEffect old).backoffTimer = s.backoffTimer := by
    unfold State.connectEffect
    split_ifs <;> rfl
  exact (hconnect _ _).trans (hresume _ hhealth)

end Steps

omit [DecidableEq κ] in
theorem inv_mount (c : κ) (health : κ → Option (HealthStatus × Option String)) (resumeEpoch : ℕ) :
    Inv (State.mount c health resumeEpoch) :=
  ⟨⟨rfl, Nat.zero_le _, nofun, nofun, nofun, nofun, nofun, fun _ _ => rfl⟩, nofun⟩

omit [DecidableEq κ] in
theorem accounted_mount (c : κ) (health : κ → Option (HealthStatus × Option String)) (resumeEpoch : ℕ) :
    Accounted (State.mount c health resumeEpoch) :=
  ⟨nofun, nofun⟩

/-- At most `maxAuto` attempts run between two resets of the counter, in every run. -/
theorem attemptsRun_le {c : κ} {health : κ → Option (HealthStatus × Option String)} {resumeEpoch : ℕ}
    {as : List (Action κ)} {s : State κ} (h : run (step isPermanent) (State.mount c health resumeEpoch) as = some s) :
    s.attemptsRun ≤ maxAuto := by
  have hs : Inv s := run_invariant (fun _ _ _ => inv_step) (inv_mount c health resumeEpoch) h
  exact hs.counted.le.trans hs.bounded

/-- The session machine keeps what it promises throughout a run exactly when no step disturbs it. -/
theorem sound_throughout_iff {c : κ} {health : κ → Option (HealthStatus × Option String)} {resumeEpoch : ℕ}
    {as : List (Action κ)} {s : State κ} (h : run (step isPermanent) (State.mount c health resumeEpoch) as = some s) :
    (∀ pre post t, as = pre ++ post → run (step isPermanent) (State.mount c health resumeEpoch) pre = some t → Sound t) ↔
      Meets (step isPermanent) (Undisturbed isPermanent) (State.mount c health resumeEpoch) as := by
  refine forall_prefix_iff_meets (fun _ _ _ => inv_step) (fun s a t hs hp h => ?_) (inv_mount c health resumeEpoch)
    ((sound_iff (inv_mount c health resumeEpoch)).mpr (accounted_mount c health resumeEpoch)) h
  rw [sound_iff (inv_step hs h)]
  exact accounted_step ((sound_iff hs).mp hp) h

instance (s : State κ) : Decidable (AutoInFlight s) :=
  inferInstanceAs (Decidable ((∃ c ∈ s.calls, c.auto = true) ∨ s.autoDue = true ∨ ∃ c ∈ s.connects, c.auto = true))

instance (s : State κ) : Decidable (Retries isPermanent s) :=
  inferInstanceAs (Decidable (_ = _ ∧ _ = _ ∧ _ ≠ _ ∧ _ = _ ∧ _ = _))

instance (s : State κ) : Decidable (Restarts s) :=
  inferInstanceAs (Decidable (_ ≠ _ ∧ _ ≠ _ ∧ _ ≠ _ ∧ ¬ (_ = _ ∧ _ = _)))

instance (s : State κ) : Decidable (MaySchedule s) := inferInstanceAs (Decidable (_ = _ ∧ _ = _ ∧ _ < _))

instance (s : State κ) : Decidable (Marked s) := inferInstanceAs (Decidable (_ = _ ∧ _ = _ ∧ _ = _))

instance (s : State κ) (c : Connect) : (result : Result) → Decidable (Unreported s c result)
  | .ok => inferInstanceAs (Decidable (_ ≠ _))
  | .error _ => inferInstanceAs (Decidable (_ ≠ _ ∨ _ = _))

instance (s : State κ) (c : Connect) : (result : Result) → Decidable (Retried isPermanent s c result)
  | .ok => .isFalse id
  | .error _ => inferInstanceAs (Decidable (_ = _ ∧ _ = _ ∧ _ = _ ∧ _ = _ ∧ MaySchedule _))

instance decidableUndisturbed (s : State κ) : (a : Action κ) → Decidable (Undisturbed isPermanent s a)
  | .render => inferInstanceAs (Decidable ((Restarts s → ¬ AutoInFlight s) ∧ (¬ Restarts s → Retries isPermanent s →
      (MaySchedule s → ¬ AutoInFlight s) ∧ (Marked s.clearDwell → AutoInFlight s))))
  | .settled i result => inferInstanceAs (Decidable (∀ c ∈ s.connects[i]?,
      (Unreported s c result → Marked s → AutoInFlight (s.dropConnect i)) ∧
        (Retried isPermanent s c result → ¬ AutoInFlight (s.dropConnect i))))
  | .backoffExpires | .dwellExpires | .reconnected _ | .cancel | .reconnect | .health _ _ _ | .resume
  | .switchContext _ => .isTrue trivial

/-- An unavailable cluster is reconnected at the first attempt and stays connected. -/
theorem sound_throughout_iff_recovered :
    ∃ s, run (step fun _ => false) (State.mount 0 (fun _ => none) 0) [.settled 0 .ok, .health 0 .unavailable none,
        .render, .backoffExpires, .reconnected 0, .render, .settled 0 .ok, .dwellExpires] = some s ∧
      s.attemptsRun = 0 ∧
      ∀ pre post t, [.settled 0 .ok, .health 0 .unavailable none, .render, .backoffExpires, .reconnected 0, .render,
        .settled 0 .ok, .dwellExpires] = pre ++ post →
          run (step fun _ => false) (State.mount 0 (fun _ => none) 0) pre = some t → Sound t :=
  ⟨_, rfl, rfl, (sound_throughout_iff _ rfl).mpr (by decide)⟩

/-- The operator cancels the connect of an automatic attempt. The session stays active, and the cluster marked
as reconnecting, with neither an attempt nor a timer. -/
theorem cancelled_attempt_stuck :
    ∃ s, run (step fun _ => false) (State.mount 0 (fun _ => none) 0) [.settled 0 .ok, .health 0 .unavailable none,
        .render, .backoffExpires, .reconnected 0, .render, .cancel, .settled 0 (.error "cancelled")] = some s ∧
      s.sessionActive = true ∧ s.attemptInFlight = true ∧ s.reconnecting 0 = true ∧ ¬ Sound s := by
  refine ⟨_, rfl, rfl, rfl, rfl, fun h => ?_⟩
  have hidle := h.idle (by decide) rfl rfl
  cases hidle.1

end FerrisScope.ClusterConnection
