import Mathlib.Logic.Function.Basic
import FerrisScope.CronSchedules
import FerrisScope.LabelledRuns

/-!
# The browser login of a subscription

A login reserves the process-wide slot, spawns the flow and awaits its result or a hard timeout. The
flow binds the callback port and serves connections until the callback arrives. The slot holds the
sender of the cancellation: the flow can see it sent, or dropped with the slot, only while it waits
for its first connection, because the receiver is moved into that wait.

Every stretch between two awaits is a step. Where a connection and the cancellation are both there,
either may be taken. Time passes only in that a waiting login may time out. Bodies of responses and
the parameters of the authorization page are left out.

Four fields record history: the flows spawned, the logins that a cancel or the timeout has ended,
the flows that went on with a callback or a code after that, and the logins that removed the slot of
another one.
-/

namespace FerrisScope.OauthLogin
open LabelledRuns HostsFile CronSchedules SplitOnce

inductive ProviderKind where
  | opencodeZen | opencodeGo | openRouter | anthropic | google | openAI | zai | minimax | groq
  | deepseek | mistral | together | moonshot | kimiCoding | ollama | customOpenAi | customAnthropic
  deriving DecidableEq, Repr

inductive OauthError where
  | unsupported
  | inProgress
  | io (e : String)
  | tokenExchange (text : String)
  | callback (text : Text)
  | cancelled
  | timedOut
  deriving DecidableEq, Repr

structure Credential where
  access : String
  refresh : String
  expiresAtUnixMs : Int
  accountId : Option String
  deriving DecidableEq, Repr

abbrev Outcome := Except OauthError Credential

section Requests

def parseRequestPath (req : Text) : Option Text :=
  match lines req with
  | [] => none
  | line :: _ => (splitWhitespace line)[1]?

def hexDigit (b : UInt8) : Option ℕ :=
  let n := b.toNat
  if 48 ≤ n ∧ n ≤ 57 then some (n - 48)
  else if 65 ≤ n ∧ n ≤ 70 then some (n - 55)
  else if 97 ≤ n ∧ n ≤ 102 then some (n - 87)
  else none

/-- The character two bytes encode. Two bytes that are no text count as zeros, a text that is no
number as a blank, and a sign is part of a number. -/
def hexChar (h l : UInt8) : Char :=
  let text := h.toNat < 0x80 ∧ l.toNat < 0x80 ∨
    (0xC2 ≤ h.toNat ∧ h.toNat ≤ 0xDF) ∧ 0x80 ≤ l.toNat ∧ l.toNat ≤ 0xBF
  if text then
    match hexDigit h, hexDigit l with
    | some a, some b => Char.ofNat (16 * a + b)
    | none, some b => if h.toNat = 43 then Char.ofNat b else ' '
    | _, none => ' '
  else Char.ofNat 0

def urldecodeBytes : List UInt8 → Text
  | [] => []
  | b :: rest =>
    if b.toNat = 43 then ' ' :: urldecodeBytes rest
    else match rest with
      | h :: l :: rest' =>
        if b.toNat = 37 then hexChar h l :: urldecodeBytes rest'
        else Char.ofNat b.toNat :: urldecodeBytes (h :: l :: rest')
      | rest => Char.ofNat b.toNat :: urldecodeBytes rest

def urldecode (t : Text) : Text := urldecodeBytes (t.flatMap String.utf8EncodeChar)

structure CallbackParams where
  code : Option Text
  state : Option Text
  error : Option Text
  deriving DecidableEq, Repr

/-- A description replaces an error that came before it. -/
def CallbackParams.set (p : CallbackParams) (kv : Text) : CallbackParams :=
  match splitOnce ['='] kv with
  | none => p
  | some (k, v) =>
    if k = "code".toList then { p with code := some (urldecode v) }
    else if k = "state".toList then { p with state := some (urldecode v) }
    else if k = "error".toList then { p with error := some (urldecode v) }
    else if k = "error_description".toList ∧ p.error.isSome then { p with error := some (urldecode v) }
    else p

def parseCallbackParams (path : Text) : CallbackParams :=
  match splitOnce ['?'] path with
  | none => ⟨none, none, none⟩
  | some (_, qs) => (qs.splitOn '&').foldl CallbackParams.set ⟨none, none, none⟩

/-- What the flow does once a request has been answered. -/
inductive Next where
  | fail (text : Text)
  | exchange (code : Text)
  | again
  deriving DecidableEq, Repr

def answer (state request : Text) : Next :=
  let path := (parseRequestPath request).getD []
  if "/auth/callback".toList.isPrefixOf path then
    let p := parseCallbackParams path
    match p.error, p.code with
    | some err, _ => .fail err
    | none, none => .fail "missing code".toList
    | none, some code =>
      if p.state ≠ some state then .fail "state mismatch (CSRF check failed)".toList else .exchange code
  else .again

end Requests

/-- `selecting receiver` waits for a connection, and for the cancellation if it has the receiver. -/
inductive Flow where
  | unspawned
  | spawned
  | selecting (receiver : Bool)
  | reading
  | writing (next : Next)
  | exchanging (code : Text)
  | over (result : Outcome)

namespace Flow

def live : Flow → Bool
  | .unspawned | .over _ => false
  | _ => true

/-- The receiver of the cancellation has not been moved out yet. -/
def holdsReceiver : Flow → Bool
  | .spawned | .selecting true => true
  | _ => false

end Flow

/-- A call of `login`. It awaits the result of a flow, or a channel whose sender is gone. -/
inductive Call where
  | idle
  | reserved
  | awaiting (done : Option ℕ)
  | ended (outcome : Outcome)
  | returned (outcome : Outcome)

/-- `owner` is the login whose flow has the receiver, and `done` the flow whose result arrives. -/
structure InFlight where
  owner : ℕ
  done : Option ℕ
  deriving DecidableEq, Repr

structure State where
  slot : Option InFlight
  listener : Option ℕ
  flow : ℕ → Flow
  secret : ℕ → Text
  call : ℕ → Call
  flows : List ℕ
  stopped : ℕ → Bool
  late : List ℕ
  removed : List (ℕ × ℕ)

def init : State where
  slot := none
  listener := none
  flow := fun _ => .unspawned
  secret := fun _ => []
  call := fun _ => .idle
  flows := []
  stopped := fun _ => false
  late := []
  removed := []

inductive Action where
  | login (c : ℕ) (provider : ProviderKind)
  | takeDone (c : ℕ)
  | result (c : ℕ)
  | timeout (c : ℕ)
  | cleanup (c : ℕ)
  | cancel
  | bind (f : ℕ) (bound : Except String Text)
  | accept (f : ℕ) (error : Option String)
  | observeCancel (f : ℕ)
  | read (f : ℕ) (request : Option Text)
  | write (f : ℕ)
  | exchange (f : ℕ) (tokens : Except String Credential)

namespace State

variable (s : State)

def setCall (c : ℕ) (x : Call) : State := { s with call := Function.update s.call c x }

def setFlow (f : ℕ) (x : Flow) : State := { s with flow := Function.update s.flow f x }

/-- The flow returns, which drops its listener and sends the result. -/
def finish (f : ℕ) (result : Outcome) : State :=
  { s.setFlow f (.over result) with listener := if s.listener = some f then none else s.listener }

/-- A flow goes on with a callback or a code. -/
def proceed (f : ℕ) : State := { s with late := if s.stopped f then f :: s.late else s.late }

/-- The sender of the flow's cancellation has been used or dropped. -/
def signalled (f : ℕ) : Bool := s.slot.all fun x => x.owner ≠ f

end State

def isTimedOut : Outcome → Bool
  | .error .timedOut => true
  | _ => false

/-- One stretch of a login, of a cancel or of a flow. -/
def step (s : State) : Action → Option State
  | .login c provider =>
    match s.call c with
    | .idle =>
      if provider ≠ .openAI then some (s.setCall c (.returned (.error .unsupported)))
      else if s.slot.isSome then some (s.setCall c (.returned (.error .inProgress)))
      else some ({ s with slot := some ⟨c, some c⟩, flows := c :: s.flows }.setCall c .reserved |>.setFlow c .spawned)
    | _ => none
  | .takeDone c =>
    match s.call c with
    | .reserved => match s.slot with
      | some x => some ({ s with slot := some { x with done := none } }.setCall c (.awaiting x.done))
      | none => some (s.setCall c (.returned (.error .cancelled)))
    | _ => none
  | .result c =>
    match s.call c with
    | .awaiting none => some (s.setCall c (.ended (.error .cancelled)))
    | .awaiting (some f) => match s.flow f with
      | .over r => some (s.setCall c (.ended r))
      | _ => none
    | _ => none
  | .timeout c =>
    match s.call c with
    | .awaiting _ => some (s.setCall c (.ended (.error .timedOut)))
    | _ => none
  | .cleanup c =>
    match s.call c with
    | .ended r => some ({ s with
        slot := none
        stopped := if isTimedOut r then Function.update s.stopped c true else s.stopped
        removed := match s.slot with
          | some x => if x.owner = c then s.removed else (c, x.owner) :: s.removed
          | none => s.removed }.setCall c (.returned r))
    | _ => none
  | .cancel =>
    match s.slot with
    | some x => some { s with slot := none, stopped := Function.update s.stopped x.owner true }
    | none => some s
  | .bind f bound =>
    match s.flow f with
    | .spawned => match bound with
      | .error e => some (s.finish f (.error (.io e)))
      | .ok state =>
        if s.listener.isSome then none
        else some ({ s with
          listener := some f
          secret := Function.update s.secret f state }.setFlow f (.selecting true))
    | _ => none
  | .accept f error =>
    match s.flow f with
    | .selecting _ => match error with
      | none => some (s.setFlow f .reading)
      | some e => some (s.finish f (.error (.io e)))
    | _ => none
  | .observeCancel f =>
    match s.flow f with
    | .selecting true => if s.signalled f then some (s.finish f (.error .cancelled)) else none
    | _ => none
  | .read f request =>
    match s.flow f with
    | .reading => match request with
      | none => some (s.setFlow f (.selecting false))
      | some r => match answer (s.secret f) r with
        | .again => some (s.setFlow f (.writing .again))
        | next => some ((s.proceed f).setFlow f (.writing next))
    | _ => none
  | .write f =>
    match s.flow f with
    | .writing (.fail text) => some (s.finish f (.error (.callback text)))
    | .writing (.exchange code) => some ((s.proceed f).setFlow f (.exchanging code))
    | .writing .again => some (s.setFlow f (.selecting false))
    | _ => none
  | .exchange f tokens =>
    match s.flow f with
    | .exchanging _ => some ((s.proceed f).finish f (tokens.mapError .tokenExchange))
    | _ => none

/-- One flow is live. A login that a cancel or the timeout has ended has no flow that went on, and its
flow is over without its listener or about to see the cancellation. No login has removed the slot of
another one. -/
structure Exclusive (s : State) : Prop where
  single : ∀ f g, (s.flow f).live = true → (s.flow g).live = true → f = g
  released : ∀ f, s.stopped f = true →
    ((s.flow f).live = false ∧ s.listener ≠ some f) ∨ ((s.flow f).holdsReceiver = true ∧ s.signalled f = true)
  late : s.late = []
  removed : s.removed = []

/-- A flow that the cancellation of its login still reaches, or that is over. -/
def reachable (s : State) (f : ℕ) : Bool := !(s.flow f).live || (s.flow f).holdsReceiver

/-- A login finds no flow of an earlier one. A cancel or a timeout comes before the flow's first
connection or after its end. A login completes with no other login in the slot. No connection is
taken where the cancellation is there too. -/
def Orderly (s : State) : Action → Prop
  | .login _ provider => provider = .openAI → s.slot = none → ∀ f ∈ s.flows, (s.flow f).live = false
  | .cancel => ∀ x ∈ s.slot, reachable s x.owner = true
  | .cleanup c => (∀ x ∈ s.slot, x.owner = c) ∧
    match s.call c with
    | .ended r => isTimedOut r = true → reachable s c = true
    | _ => True
  | .accept f none => s.stopped f = false
  | _ => True

instance decidableOrderly (s : State) : (a : Action) → Decidable (Orderly s a)
  | .login _ _ => inferInstanceAs (Decidable (_ → _ → ∀ f ∈ s.flows, _))
  | .cancel => inferInstanceAs (Decidable (∀ x ∈ s.slot, _))
  | .cleanup c =>
    match h : s.call c with
    | .ended r => decidable_of_iff ((∀ x ∈ s.slot, x.owner = c) ∧ (isTimedOut r = true → reachable s c = true))
        (by rw [Orderly, h])
    | .idle | .reserved | .awaiting _ | .returned _ =>
      decidable_of_iff (∀ x ∈ s.slot, x.owner = c) (by rw [Orderly, h, and_true])
  | .accept _ none => inferInstanceAs (Decidable (_ = _))
  | .accept _ (some _) | .takeDone _ | .result _ | .timeout _ | .bind _ _ | .observeCancel _ | .read _ _
  | .write _ | .exchange _ _ => .isTrue trivial

/-- What the identifiers of logins and flows keep in every run. -/
structure Inv (s : State) : Prop where
  idle : ∀ c, s.call c = .idle → (s.flow c).live = false ∧ s.stopped c = false
  owner : ∀ x, s.slot = some x → s.call x.owner ≠ .idle
  flows : ∀ f, (s.flow f).live = true → f ∈ s.flows
  listener : ∀ f, s.listener = some f → (s.flow f).live = true

theorem inv_init : Inv init where
  idle := fun _ _ => ⟨rfl, rfl⟩
  owner := nofun
  flows := nofun
  listener := nofun

theorem exclusive_init : Exclusive init where
  single := nofun
  released := nofun
  late := rfl
  removed := rfl

/-- The steps as a relation, one rule for each kind of change. -/
inductive Step (s : State) : Action → State → Prop where
  | refused {c provider r} (hp : provider ≠ .openAI ∨ s.slot ≠ none) :
      Step s (.login c provider) (s.setCall c (.returned r))
  | reserve {c} (hc : s.call c = .idle) (hslot : s.slot = none) : Step s (.login c .openAI)
      (({ s with slot := some ⟨c, some c⟩, flows := c :: s.flows }.setCall c .reserved).setFlow c .spawned)
  | takeDone {c x} (hc : s.call c = .reserved) (hslot : s.slot = some x) : Step s (.takeDone c)
      ({ s with slot := some { x with done := none } }.setCall c (.awaiting x.done))
  | wait {a c x} (ha : Orderly s a) (hx : x ≠ .idle) : Step s a (s.setCall c x)
  | cleanup {c r removed} (hc : s.call c = .ended r)
      (hremoved : removed = match s.slot with
        | some x => if x.owner = c then s.removed else (c, x.owner) :: s.removed
        | none => s.removed) : Step s (.cleanup c) ({ s with
        slot := none
        stopped := if isTimedOut r then Function.update s.stopped c true else s.stopped
        removed := removed }.setCall c (.returned r))
  | cancel {x} (hslot : s.slot = some x) :
      Step s .cancel { s with slot := none, stopped := Function.update s.stopped x.owner true }
  | cancelNone (hslot : s.slot = none) : Step s .cancel s
  | bound {f state} (hf : s.flow f = .spawned) (hfree : s.listener = none) : Step s (.bind f (.ok state))
      ({ s with listener := some f, secret := Function.update s.secret f state }.setFlow f (.selecting true))
  | accept {f b} (hf : s.flow f = .selecting b) : Step s (.accept f none) (s.setFlow f .reading)
  | serve {a f x} (ha : Orderly s a) (hlive : (s.flow f).live = true) (hhold : (s.flow f).holdsReceiver = false)
      (hx : x.live = true) : Step s a (s.setFlow f x)
  | proceed {a f x} (ha : Orderly s a) (hlive : (s.flow f).live = true)
      (hhold : (s.flow f).holdsReceiver = false) (hx : x.live = true) : Step s a ((s.proceed f).setFlow f x)
  | finish {a f r} (ha : Orderly s a) (hlive : (s.flow f).live = true) : Step s a (s.finish f r)
  | exchange {a f r} (ha : Orderly s a) (hlive : (s.flow f).live = true)
      (hhold : (s.flow f).holdsReceiver = false) : Step s a ((s.proceed f).finish f r)

theorem step_inv {s t : State} {a : Action} (h : step s a = some t) : Step s a t := by
  cases a with
  | login c provider =>
    simp only [step] at h
    split at h
    next hc =>
      split_ifs at h with hp hslot
      · cases h
        exact .refused (.inl hp)
      · cases h
        exact .refused (.inr (Option.isSome_iff_ne_none.mp hslot))
      · obtain rfl := not_not.mp hp
        cases h
        exact .reserve hc (by simpa using hslot)
    next => cases h
  | takeDone c =>
    simp only [step] at h
    split at h
    next hc =>
      split at h
      next x hslot =>
        cases h
        exact .takeDone hc hslot
      next =>
        cases h
        exact .wait trivial nofun
    next => cases h
  | result c =>
    simp only [step] at h
    split at h
    next =>
      cases h
      exact .wait trivial nofun
    next =>
      split at h
      next =>
        cases h
        exact .wait trivial nofun
      next => cases h
    next => cases h
  | timeout c =>
    simp only [step] at h
    split at h
    next =>
      cases h
      exact .wait trivial nofun
    next => cases h
  | cleanup c =>
    simp only [step] at h
    split at h
    next r hc =>
      cases h
      exact .cleanup hc rfl
    next => cases h
  | cancel =>
    simp only [step] at h
    split at h
    next x hslot =>
      cases h
      exact .cancel hslot
    next hslot =>
      cases h
      exact .cancelNone hslot
  | bind f bound =>
    simp only [step] at h
    split at h
    next hf =>
      split at h
      next e =>
        cases h
        exact .finish trivial (by rw [hf]; rfl)
      next state =>
        split_ifs at h with hfree
        cases h
        exact .bound hf (by simpa using hfree)
    next => cases h
  | accept f error =>
    simp only [step] at h
    split at h
    next b hf =>
      split at h
      next =>
        cases h
        exact .accept hf
      next e =>
        cases h
        exact .finish trivial (by rw [hf]; rfl)
    next => cases h
  | observeCancel f =>
    simp only [step] at h
    split at h
    next hf =>
      split_ifs at h
      cases h
      exact .finish trivial (by rw [hf]; rfl)
    next => cases h
  | read f request =>
    simp only [step] at h
    split at h
    next hf =>
      have hlive : (s.flow f).live = true := by rw [hf]; rfl
      have hhold : (s.flow f).holdsReceiver = false := by rw [hf]; rfl
      split at h
      next =>
        cases h
        exact .serve trivial hlive hhold rfl
      next r =>
        split at h
        next =>
          cases h
          exact .serve trivial hlive hhold rfl
        next =>
          cases h
          exact .proceed trivial hlive hhold rfl
    next => cases h
  | write f =>
    simp only [step] at h
    split at h
    next text hf =>
      cases h
      exact .finish trivial (by rw [hf]; rfl)
    next code hf =>
      cases h
      exact .proceed trivial (by rw [hf]; rfl) (by rw [hf]; rfl) rfl
    next hf =>
      cases h
      exact .serve trivial (by rw [hf]; rfl) (by rw [hf]; rfl) rfl
    next => cases h
  | exchange f tokens =>
    simp only [step] at h
    split at h
    next code hf =>
      cases h
      exact .exchange trivial (by rw [hf]; rfl) (by rw [hf]; rfl)
    next => cases h

section Steps

variable {s : State} {c f : ℕ}

theorem Inv.setCall {x : Call} (hs : Inv s) (hx : x ≠ .idle) : Inv (s.setCall c x) where
  idle d hd := by
    obtain rfl | hne := eq_or_ne d c
    · exact absurd (by simpa [State.setCall] using hd) hx
    · exact hs.idle d (by simpa [State.setCall, hne] using hd)
  owner y hy := by
    obtain heq | hne := eq_or_ne y.owner c
    · simpa [State.setCall, heq] using hx
    · simpa [State.setCall, hne] using hs.owner y hy
  flows := hs.flows
  listener := hs.listener

theorem Inv.setFlow {x : Flow} (hs : Inv s) (hlive : (s.flow f).live = true) (hx : x.live = true) :
    Inv (s.setFlow f x) where
  idle d hd := by
    have hidle := hs.idle d hd
    have hne : d ≠ f := by
      rintro rfl
      rw [hlive] at hidle
      cases hidle.1
    simpa [State.setFlow, hne] using hidle
  owner := hs.owner
  flows g hg := by
    obtain rfl | hne := eq_or_ne g f
    · exact hs.flows g hlive
    · exact hs.flows g (by simpa [State.setFlow, hne] using hg)
  listener g hg := by
    obtain rfl | hne := eq_or_ne g f
    · simpa [State.setFlow] using hx
    · simpa [State.setFlow, hne] using hs.listener g hg

theorem Inv.finish {r : Outcome} (hs : Inv s) (hlive : (s.flow f).live = true) : Inv (s.finish f r) where
  idle d hd := by
    have hidle := hs.idle d hd
    have hne : d ≠ f := by
      rintro rfl
      rw [hlive] at hidle
      cases hidle.1
    simpa [State.finish, State.setFlow, hne] using hidle
  owner := hs.owner
  flows g hg := by
    obtain rfl | hne := eq_or_ne g f
    · exact hs.flows g hlive
    · exact hs.flows g (by simpa [State.finish, State.setFlow, hne] using hg)
  listener g hg := by
    simp only [State.finish] at hg
    split_ifs at hg with hown
    have hne : g ≠ f := by
      rintro rfl
      exact hown hg
    simpa [State.finish, State.setFlow, hne] using hs.listener g hg

theorem Inv.proceed (hs : Inv s) : Inv (s.proceed f) := ⟨hs.idle, hs.owner, hs.flows, hs.listener⟩

theorem inv_step {t : State} {a : Action} (hs : Inv s) (h : step s a = some t) : Inv t := by
  cases step_inv h with
  | refused => exact hs.setCall nofun
  | @reserve c hc hslot =>
    refine ⟨fun d hd => ?_, fun y hy => ?_, fun g hg => ?_, fun g hg => ?_⟩
    · have hne : d ≠ c := by
        rintro rfl
        simp [State.setFlow, State.setCall] at hd
      simpa [State.setFlow, State.setCall, hne] using hs.idle d (by simpa [State.setFlow, State.setCall, hne] using hd)
    · obtain rfl : ⟨c, some c⟩ = y := Option.some.inj hy
      simp [State.setFlow, State.setCall]
    · obtain rfl | hne := eq_or_ne g c
      · exact List.mem_cons_self
      · exact List.mem_cons_of_mem _ (hs.flows g (by simpa [State.setFlow, State.setCall, hne] using hg))
    · obtain rfl | hne := eq_or_ne g c
      · simp [State.setFlow, Flow.live]
      · simpa [State.setFlow, State.setCall, hne] using hs.listener g hg
  | @takeDone c x hc hslot =>
    have hs' : Inv { s with slot := some { x with done := none } } :=
      ⟨hs.idle, fun y hy => by cases hy; exact hs.owner x hslot, hs.flows, hs.listener⟩
    exact hs'.setCall nofun
  | wait _ hx => exact hs.setCall hx
  | @cleanup c r removed hc =>
    refine ⟨fun d hd => ?_, nofun, hs.flows, hs.listener⟩
    have hne : d ≠ c := by
      rintro rfl
      simp [State.setCall] at hd
    have hidle := hs.idle d (by simpa [State.setCall, hne] using hd)
    refine ⟨hidle.1, ?_⟩
    simp only [State.setCall]
    split_ifs
    · rw [Function.update_of_ne hne, hidle.2]
    · exact hidle.2
  | @cancel x hslot =>
    refine ⟨fun d hd => ?_, nofun, hs.flows, hs.listener⟩
    have hne : d ≠ x.owner := by
      rintro rfl
      exact hs.owner x hslot hd
    have hidle := hs.idle d hd
    exact ⟨hidle.1, by simp [hne, hidle.2]⟩
  | cancelNone => exact hs
  | @bound f state hf hfree =>
    have hlive : (s.flow f).live = true := by rw [hf]; rfl
    have hs' : Inv { s with listener := some f, secret := Function.update s.secret f state } :=
      ⟨hs.idle, hs.owner, hs.flows, fun g hg => by cases hg; exact hlive⟩
    exact hs'.setFlow hlive rfl
  | accept hf => exact hs.setFlow (by rw [hf]; rfl) rfl
  | serve _ hlive _ hx => exact hs.setFlow hlive hx
  | proceed _ hlive _ hx => exact hs.proceed.setFlow hlive hx
  | finish _ hlive => exact hs.finish hlive
  | exchange _ hlive => exact hs.proceed.finish hlive

/-- A live flow that has moved its receiver out is not one whose login has been ended. -/
theorem Exclusive.not_stopped (hp : Exclusive s) (hlive : (s.flow f).live = true)
    (hhold : (s.flow f).holdsReceiver = false) : s.stopped f = false := by
  refine Bool.eq_false_iff.mpr fun hstopped => ?_
  obtain ⟨hover, -⟩ | ⟨hholds, -⟩ := hp.released f hstopped
  · rw [hlive] at hover
    cases hover
  · rw [hhold] at hholds
    cases hholds

theorem Exclusive.setFlow {x : Flow} (hp : Exclusive s) (hlive : (s.flow f).live = true)
    (hstopped : s.stopped f = false) : Exclusive (s.setFlow f x) where
  single g k hg hk := by
    have hback {g : ℕ} (hg : ((s.setFlow f x).flow g).live = true) : (s.flow g).live = true := by
      obtain rfl | hne := eq_or_ne g f
      · exact hlive
      · simpa [State.setFlow, hne] using hg
    exact hp.single g k (hback hg) (hback hk)
  released g hg := by
    have hne : g ≠ f := by
      rintro rfl
      rw [show (s.setFlow g x).stopped g = s.stopped g from rfl, hstopped] at hg
      cases hg
    simpa [State.setFlow, State.signalled, hne] using hp.released g hg
  late := hp.late
  removed := hp.removed

theorem Exclusive.proceed (hp : Exclusive s) (hstopped : s.stopped f = false) : Exclusive (s.proceed f) where
  single := hp.single
  released := hp.released
  late := by simp [State.proceed, hstopped, hp.late]
  removed := hp.removed

theorem Exclusive.finish {r : Outcome} (hp : Exclusive s) (hlive : (s.flow f).live = true) :
    Exclusive (s.finish f r) where
  single g k hg hk := by
    have hback {g : ℕ} (hg : ((s.finish f r).flow g).live = true) : (s.flow g).live = true := by
      obtain rfl | hne := eq_or_ne g f
      · exact hlive
      · simpa [State.finish, State.setFlow, hne] using hg
    exact hp.single g k (hback hg) (hback hk)
  released g hg := by
    obtain rfl | hne := eq_or_ne g f
    · refine .inl ⟨by simp [State.finish, State.setFlow, Flow.live], ?_⟩
      simp only [State.finish]
      split_ifs with hown
      · nofun
      · exact hown
    · obtain ⟨hover, hfree⟩ | ⟨hholds, hsignalled⟩ := hp.released g hg
      · refine .inl ⟨by simpa [State.finish, State.setFlow, hne] using hover, ?_⟩
        simp only [State.finish]
        split_ifs
        · nofun
        · exact hfree
      · exact .inr ⟨by simpa [State.finish, State.setFlow, hne] using hholds, hsignalled⟩
  late := hp.late
  removed := hp.removed

end Steps

theorem reachable_iff {f : ℕ} {s : State} :
    reachable s f = true ↔ (s.flow f).live = false ∨ (s.flow f).holdsReceiver = true := by
  simp [reachable]

/-- With an empty slot, the flow of a login that has been ended is released exactly when it is reachable. -/
theorem released_iff_of_empty {s : State} (hs : Inv s) (hslot : s.slot = none) (f : ℕ) :
    ((s.flow f).live = false ∧ s.listener ≠ some f) ∨ ((s.flow f).holdsReceiver = true ∧ s.signalled f = true) ↔
      reachable s f = true := by
  have hsignalled : s.signalled f = true := by simp [State.signalled, hslot]
  have hfree (hover : (s.flow f).live = false) : s.listener ≠ some f := by
    intro hown
    rw [hs.listener f hown] at hover
    cases hover
  rw [reachable_iff, hsignalled]
  constructor
  · exact Or.imp And.left And.left
  · exact Or.imp (fun hover => ⟨hover, hfree hover⟩) fun hholds => ⟨hholds, rfl⟩

/-- A step keeps logins exclusive exactly when it is orderly. -/
theorem exclusive_step_iff {s t : State} {a : Action} (hs : Inv s) (hp : Exclusive s) (h : step s a = some t) :
    Exclusive t ↔ Orderly s a := by
  have ht : Inv t := inv_step hs h
  have hkeep (hslot : t.slot = none) (f : ℕ) (hreach : reachable t f = reachable s f)
      (hstopped : s.stopped f = true) : reachable t f = true := by
    rw [hreach, reachable_iff]
    exact (hp.released f hstopped).imp And.left And.left
  cases step_inv h with
  | refused hrefused =>
    refine iff_of_true ⟨hp.single, hp.released, hp.late, hp.removed⟩ fun hprovider hslot => ?_
    exact (hrefused.elim (fun hne => hne hprovider) fun hne => hne hslot).elim
  | @reserve c hc hslot =>
    have hdead := (hs.idle c hc).1
    have hflow {g : ℕ} (hne : g ≠ c) :
        ((({ s with slot := some ⟨c, some c⟩, flows := c :: s.flows }.setCall c .reserved).setFlow c .spawned).flow g)
          = s.flow g := by
      simp [State.setFlow, State.setCall, hne]
    constructor
    · refine fun hex _ _ g _ => Bool.eq_false_iff.mpr fun hlive => ?_
      have hne : g ≠ c := by
        rintro rfl
        rw [hdead] at hlive
        cases hlive
      exact hne (hex.single g c (by rw [hflow hne]; exact hlive) (by simp [State.setFlow, Flow.live]))
    · intro hall
      have honly {g : ℕ} (hg : (s.flow g).live = true) : False := by
        have hdead := hall rfl hslot g (hs.flows g hg)
        rw [hg] at hdead
        cases hdead
      refine ⟨fun g k hg hk => ?_, fun g hg => ?_, hp.late, hp.removed⟩
      · have hgc : g = c := by
          by_contra hne
          exact honly (by rw [← hflow hne]; exact hg)
        have hkc : k = c := by
          by_contra hne
          exact honly (by rw [← hflow hne]; exact hk)
        rw [hgc, hkc]
      · have hne : g ≠ c := by
          rintro rfl
          exact absurd hg (by simp [State.setFlow, State.setCall, (hs.idle g hc).2])
        rw [hflow hne]
        refine (hp.released g hg).imp id fun hold => ⟨hold.1, ?_⟩
        simp [State.setFlow, State.setCall, State.signalled, hne.symm]
  | @takeDone c x hc hslot =>
    refine iff_of_true ⟨hp.single, fun g hg => ?_, hp.late, hp.removed⟩ trivial
    refine (hp.released g hg).imp id fun hold => ⟨hold.1, ?_⟩
    simpa [State.setCall, State.signalled, hslot] using hold.2
  | wait ha => exact iff_of_true ⟨hp.single, hp.released, hp.late, hp.removed⟩ ha
  | @cleanup c r removed hc hremoved =>
    simp only [Orderly, hc]
    have howner : removed = [] ↔ ∀ x ∈ s.slot, x.owner = c := by
      rw [hremoved]
      cases hslot : s.slot with
      | none => simp [hp.removed]
      | some x => simp [hp.removed]
    constructor
    · intro hex
      refine ⟨howner.mp hex.removed, fun htimed => ?_⟩
      exact (released_iff_of_empty ht rfl c).mp (hex.released c (by simp [State.setCall, htimed]))
    · rintro ⟨hown, hreach⟩
      refine ⟨hp.single, fun g hg => (released_iff_of_empty ht rfl g).mpr ?_, hp.late, howner.mpr hown⟩
      by_cases hold : s.stopped g = true
      · exact hkeep rfl g rfl hold
      · simp only [State.setCall] at hg
        split_ifs at hg with htimed
        · obtain rfl | hne := eq_or_ne g c
          · exact hreach htimed
          · rw [Function.update_of_ne hne] at hg
            exact absurd hg hold
        · exact absurd hg hold
  | @cancel x hslot =>
    simp only [Orderly, hslot]
    constructor
    · rintro hex y ⟨⟩
      exact (released_iff_of_empty ht rfl x.owner).mp (hex.released x.owner (by simp))
    · intro hreach
      refine ⟨hp.single, fun g hg => (released_iff_of_empty ht rfl g).mpr ?_, hp.late, hp.removed⟩
      obtain rfl | hne := eq_or_ne g x.owner
      · exact hreach x rfl
      · exact hkeep rfl g rfl (by simpa [hne] using hg)
  | cancelNone hslot =>
    refine iff_of_true hp ?_
    simp [Orderly, hslot]
  | @bound f state hf hfree =>
    refine iff_of_true ⟨fun g k hg hk => ?_, fun g hg => ?_, hp.late, hp.removed⟩ trivial
    · have hback {g : ℕ} (hg : (Function.update s.flow f (.selecting true) g).live = true) :
          (s.flow g).live = true := by
        obtain rfl | hne := eq_or_ne g f
        · simp [hf, Flow.live]
        · simpa [hne] using hg
      exact hp.single g k (hback hg) (hback hk)
    · obtain rfl | hne := eq_or_ne g f
      · obtain ⟨hover, -⟩ | ⟨-, hsignalled⟩ := hp.released g hg
        · rw [hf] at hover
          cases hover
        · exact .inr ⟨by simp [State.setFlow, Flow.holdsReceiver], hsignalled⟩
      · obtain ⟨hover, -⟩ | ⟨hholds, hsignalled⟩ := hp.released g hg
        · exact .inl ⟨by simpa [State.setFlow, hne] using hover, fun hown => hne (Option.some.inj hown).symm⟩
        · exact .inr ⟨by simpa [State.setFlow, hne] using hholds, hsignalled⟩
  | @accept f b hf =>
    simp only [Orderly]
    constructor
    · refine fun hex => Bool.eq_false_iff.mpr fun hstopped => ?_
      obtain ⟨hover, -⟩ | ⟨hholds, -⟩ := hex.released f hstopped
      · simp [State.setFlow, Flow.live] at hover
      · simp [State.setFlow, Flow.holdsReceiver] at hholds
    · exact hp.setFlow (by rw [hf]; rfl)
  | serve ha hlive hhold => exact iff_of_true (hp.setFlow hlive (hp.not_stopped hlive hhold)) ha
  | proceed ha hlive hhold =>
    have hstopped := hp.not_stopped hlive hhold
    exact iff_of_true ((hp.proceed hstopped).setFlow hlive hstopped) ha
  | finish ha hlive => exact iff_of_true (hp.finish hlive) ha
  | exchange ha hlive hhold => exact iff_of_true ((hp.proceed (hp.not_stopped hlive hhold)).finish hlive) ha

/-- Logins are exclusive and cancellable throughout a run exactly when its steps are orderly. -/
theorem exclusive_throughout_iff {as : List Action} {s : State} (h : run step init as = some s) :
    (∀ pre post t, as = pre ++ post → run step init pre = some t → Exclusive t) ↔ Meets step Orderly init as :=
  forall_prefix_iff_meets (fun _ _ _ => inv_step) (fun _ _ _ => exclusive_step_iff) inv_init exclusive_init h

/-- A login is cancelled before its first connection, and another one follows. -/
theorem exclusive_throughout_iff_relogin :
    ∃ s, run step init [.login 0 .openAI, .takeDone 0, .bind 0 (.ok ['s']), .cancel, .observeCancel 0, .result 0,
        .cleanup 0, .login 1 .openAI] = some s ∧
      ∀ pre post t, [.login 0 .openAI, .takeDone 0, .bind 0 (.ok ['s']), .cancel, .observeCancel 0, .result 0,
        .cleanup 0, .login 1 .openAI] = pre ++ post → run step init pre = some t → Exclusive t :=
  ⟨_, rfl, (exclusive_throughout_iff rfl).mpr (by decide)⟩

/-- A request that is no callback is answered, and the flow goes back to its connections. -/
theorem step_read_again {s : State} {f : ℕ} {r : Text} (hf : s.flow f = .reading)
    (hr : answer (s.secret f) r = .again) : step s (.read f (some r)) = some (s.setFlow f (.writing .again)) := by
  simp only [step, hf, hr]

theorem step_read_exchange {s : State} {f : ℕ} {r code : Text} (hf : s.flow f = .reading)
    (hr : answer (s.secret f) r = .exchange code) :
    step s (.read f (some r)) = some ((s.proceed f).setFlow f (.writing (.exchange code))) := by
  simp only [step, hf, hr]

/-- A stray connection takes the receiver, and after the cancel the flow goes on to exchange the code. -/
theorem cancelled_flow_exchanges :
    ∃ s, run step init [.login 0 .openAI, .takeDone 0, .bind 0 (.ok ['s']), .accept 0 none,
        .read 0 (some "GET /favicon.ico HTTP/1.1".toList), .write 0, .cancel, .accept 0 none,
        .read 0 (some "GET /auth/callback?code=c&state=s HTTP/1.1".toList), .write 0] = some s ∧
      s.stopped 0 = true ∧ s.late = [0, 0] ∧ ¬ Exclusive s := by
  have hstray : answer ['s'] "GET /favicon.ico HTTP/1.1".toList = .again := by decide +kernel
  have hcallback : answer ['s'] "GET /auth/callback?code=c&state=s HTTP/1.1".toList = .exchange ['c'] := by
    decide +kernel
  generalize "GET /favicon.ico HTTP/1.1".toList = stray at hstray ⊢
  generalize "GET /auth/callback?code=c&state=s HTTP/1.1".toList = callback at hcallback ⊢
  refine ⟨_, (@run_append_eq_some _ _ step _ _ [_, _, _, _] _).mpr ⟨_, rfl, run_cons_eq_some.mpr ⟨_, step_read_again rfl hstray,
    (@run_append_eq_some _ _ step _ _ [_, _, _] _).mpr ⟨_, rfl, run_cons_eq_some.mpr ⟨_, step_read_exchange rfl hcallback, rfl⟩⟩⟩⟩,
    rfl, rfl, fun hs => ?_⟩
  cases hs.late

end FerrisScope.OauthLogin
