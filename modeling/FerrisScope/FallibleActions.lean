import Mathlib.Init
import Mathlib.Tactic.Common

/-!
# Actions that may fail

An action reads a state and leaves a state, with a value or with an error. What it has changed before it fails
stays changed. A specification says what holds of the state before an action, after its success and after its
failure.
-/

namespace FerrisScope.FallibleActions

/-- A value or an error, and the state that is left. -/
def Action (σ ε α : Type) : Type := σ → Except ε α × σ

variable {σ ε α β : Type}

namespace Action

def bind (x : Action σ ε α) (f : α → Action σ ε β) : Action σ ε β := fun s =>
  match x s with
  | (.ok a, s') => f a s'
  | (.error e, s') => (.error e, s')

instance : Monad (Action σ ε) where
  pure a := fun s => (.ok a, s)
  bind := Action.bind

def fail (e : ε) : Action σ ε α := fun s => (.error e, s)

def ofExcept (r : Except ε α) : Action σ ε α := fun s => (r, s)

/-- The action, whether it fails or not. -/
def ignore (x : Action σ ε α) : Action σ ε Unit := fun s => (.ok (), (x s).2)

end Action

/-- From every state with `pre`, success leaves `post` and failure leaves `exc`. -/
def Triple (pre : σ → Prop) (x : Action σ ε α) (post : α → σ → Prop) (exc : ε → σ → Prop) : Prop :=
  ∀ s, pre s → (∀ a, (x s).1 = .ok a → post a (x s).2) ∧ (∀ e, (x s).1 = .error e → exc e (x s).2)

namespace Triple

variable {pre pre' : σ → Prop} {x : Action σ ε α} {post post' : α → σ → Prop} {exc exc' : ε → σ → Prop}

theorem pure {a : α} (h : ∀ s, pre s → post a s) : Triple pre (Pure.pure a : Action σ ε α) post exc := by
  intro s hs
  constructor
  · intro b hb
    cases hb
    exact h s hs
  · intro e he
    cases he

theorem fail {e : ε} (h : ∀ s, pre s → exc e s) : Triple pre (Action.fail e : Action σ ε α) post exc := by
  intro s hs
  constructor
  · intro b hb
    cases hb
  · intro e' he
    cases he
    exact h s hs

theorem ofExcept {r : Except ε α} (hok : ∀ a, r = .ok a → ∀ s, pre s → post a s)
    (herror : ∀ e, r = .error e → ∀ s, pre s → exc e s) : Triple pre (Action.ofExcept r) post exc :=
  fun s hs => ⟨fun a ha => hok a ha s hs, fun e he => herror e he s hs⟩

/-- A value that is computed apart from the state. -/
theorem computed (r : Except ε α) {pre : σ → Prop} :
    Triple pre (Action.ofExcept r) (fun a s => r = .ok a ∧ pre s) fun _ => pre :=
  ofExcept (fun _ ha _ hs => ⟨ha, hs⟩) fun _ _ _ hs => hs

/-- A fact that does not depend on the state. -/
theorem assume {q : Prop} (h : q → Triple pre x post exc) : Triple (fun s => q ∧ pre s) x post exc :=
  fun s hs => h hs.1 s hs.2

theorem exists_pre {ι : Type} {pre : ι → σ → Prop} (h : ∀ i, Triple (pre i) x post exc) :
    Triple (fun s => ∃ i, pre i s) x post exc :=
  fun s ⟨i, hs⟩ => h i s hs

theorem bind {mid : α → σ → Prop} {f : α → Action σ ε β} {post : β → σ → Prop} (hx : Triple pre x mid exc)
    (hf : ∀ a, Triple (mid a) (f a) post exc) : Triple pre (x >>= f) post exc := by
  intro s hs
  obtain ⟨hok, herror⟩ := hx s hs
  change (∀ b, (Action.bind x f s).1 = .ok b → post b (Action.bind x f s).2) ∧
    ∀ e, (Action.bind x f s).1 = .error e → exc e (Action.bind x f s).2
  unfold Action.bind
  generalize x s = r at hok herror
  obtain ⟨r, s'⟩ := r
  cases r with
  | ok a => exact hf a s' (hok a rfl)
  | error e =>
    constructor
    · intro b hb
      cases hb
    · intro e' he
      cases he
      exact herror e rfl

theorem ignore {mid : σ → Prop} (h : Triple pre x (fun _ => mid) fun _ => mid) :
    Triple pre (Action.ignore x) (fun _ => mid) exc := by
  intro s hs
  refine ⟨fun _ _ => ?_, fun e he => nomatch he⟩
  obtain ⟨hok, herror⟩ := h s hs
  change mid (x s).2
  cases hr : (x s).1 with
  | ok a => exact hok a hr
  | error e => exact herror e hr

theorem mono (h : Triple pre x post exc) (hpre : ∀ s, pre' s → pre s) (hpost : ∀ a s, post a s → post' a s)
    (hexc : ∀ e s, exc e s → exc' e s) : Triple pre' x post' exc' := by
  intro s hs
  obtain ⟨hok, herror⟩ := h s (hpre s hs)
  exact ⟨fun a ha => hpost a _ (hok a ha), fun e he => hexc e _ (herror e he)⟩

theorem ite {c : Prop} [Decidable c] {y : Action σ ε α} (hx : c → Triple pre x post exc)
    (hy : ¬ c → Triple pre y post exc) : Triple pre (if c then x else y) post exc := by
  split
  · next hc => exact hx hc
  · next hc => exact hy hc

end Triple

/-- How two actions run one after the other. -/
theorem bind_of_ok {x : Action σ ε α} {f : α → Action σ ε β} {s s' : σ} {a : α} (h : x s = (.ok a, s')) :
    (x >>= f) s = f a s' := by
  change Action.bind x f s = _
  rw [Action.bind, h]

theorem bind_of_error {x : Action σ ε α} {f : α → Action σ ε β} {s s' : σ} {e : ε} (h : x s = (.error e, s')) :
    (x >>= f) s = (.error e, s') := by
  change Action.bind x f s = _
  rw [Action.bind, h]

end FerrisScope.FallibleActions
