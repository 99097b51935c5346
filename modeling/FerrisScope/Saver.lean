import Mathlib.Data.Nat.Basic
import Mathlib.Logic.Relation
import FerrisScope.LabelledRuns

/-!
# The debounced, serialised saver

A change marks the saver dirty and restarts its timer. A write is begun by the timer, by a flush, or
by the end of the write before, and only when no write is in flight. The promise that stands for a
write settles in stages, each a microtask of its own: the write's handlers, the reset of the promise
in flight, and the tail that starts the next write when the saver is dirty again. Any of the steps
may interleave with any other, in particular between two stages of one promise.

A write returns a promise, and the handler of errors returns. What the payloads contain is left out.
-/

namespace FerrisScope.Saver

/-- Who caused a write: the timer or a flush, either directly or through the tail of an earlier write. -/
inductive Origin where
  | timer
  | flush (f : ℕ)
  deriving DecidableEq, Repr

/-- The promise that stands for a write. A tail that runs the saver again follows another promise. -/
inductive Chain where
  | unstarted
  | writing
  | settled (ok : Bool)
  | handled
  | cleared
  | following (w : ℕ)
  | resolved
  deriving DecidableEq, Repr

namespace Chain

/-- The promise is the one in flight. -/
def inFlight : Chain → Prop
  | .writing | .settled _ | .handled => True
  | _ => False

/-- The tail has still to run. -/
def beforeTail : Chain → Prop
  | .writing | .settled _ | .handled | .cleared => True
  | _ => False

/-- The write was begun and has settled. -/
def writeSettled : Chain → Prop
  | .unstarted | .writing => False
  | _ => True

end Chain

/-- A call of `flush`, which awaits the promise in flight and then the promise of a run. -/
inductive Flush where
  | idle
  | awaitsInflight (p : Option ℕ)
  | awaitsRun (p : Option ℕ)
  | resolved
  deriving DecidableEq, Repr

/-- `next` counts the writes begun, and `reported` are those whose error was handed to `onError`. -/
structure State where
  timer : Bool
  dirty : Bool
  inflight : Option ℕ
  next : ℕ
  chain : ℕ → Chain
  origin : ℕ → Origin
  flush : ℕ → Flush
  reported : List ℕ

def createSaver : State where
  timer := false
  dirty := false
  inflight := none
  next := 0
  chain := fun _ => .unstarted
  origin := fun _ => .timer
  flush := fun _ => .idle
  reported := []

namespace State

variable (s : State)

def setChain (w : ℕ) (x : Chain) : State := { s with chain := Function.update s.chain w x }

def setFlush (f : ℕ) (x : Flush) : State := { s with flush := Function.update s.flush f x }

/-- Begin a write. -/
def write (o : Origin) : State :=
  { s with
    dirty := false
    inflight := some s.next
    next := s.next + 1
    chain := Function.update s.chain s.next .writing
    origin := Function.update s.origin s.next o }

/-- The awaited promise has resolved. -/
def isResolved : Option ℕ → Bool
  | none => true
  | some w => s.chain w = .resolved

end State

/-- The promise that `run` returns, where `none` stands for a resolved one, and the state after it. -/
def run (s : State) (o : Origin) : Option ℕ × State :=
  match s.inflight with
  | some w => (some w, s)
  | none => if !s.dirty then (none, s) else (some s.next, s.write o)

/-- The last stage of a promise. -/
def tail (s : State) (w : ℕ) : State :=
  if s.dirty then
    let r := run s (s.origin w)
    r.2.setChain w (match r.1 with
      | some v => .following v
      | none => .resolved)
  else s.setChain w .resolved

inductive Action where
  | schedule
  | expire
  | settle (w : ℕ) (ok : Bool)
  | handle (w : ℕ)
  | finalize (w : ℕ)
  | tail (w : ℕ)
  | adopt (w : ℕ)
  | flush (f : ℕ)
  | resume (f : ℕ)
  | resolve (f : ℕ)
  deriving DecidableEq, Repr

/-- The steps that the saver's own promises take. -/
def Action.microtask : Action → Bool
  | .schedule | .expire | .settle _ _ | .flush _ => false
  | _ => true

def step (s : State) : Action → Option State
  | .schedule => some { s with dirty := true, timer := true }
  | .expire => if s.timer then some (run { s with timer := false } .timer).2 else none
  | .settle w ok =>
    match s.chain w with
    | .writing => some (s.setChain w (.settled ok))
    | _ => none
  | .handle w =>
    match s.chain w with
    | .settled ok =>
      some ({ s with reported := if ok then s.reported else w :: s.reported }.setChain w .handled)
    | _ => none
  | .finalize w =>
    match s.chain w with
    | .handled => some ({ s with inflight := none }.setChain w .cleared)
    | _ => none
  | .tail w =>
    match s.chain w with
    | .cleared => some (tail s w)
    | _ => none
  | .adopt w =>
    match s.chain w with
    | .following v => if s.chain v = .resolved then some (s.setChain w .resolved) else none
    | _ => none
  | .flush f =>
    match s.flush f with
    | .idle => some ({ s with timer := false }.setFlush f (.awaitsInflight s.inflight))
    | _ => none
  | .resume f =>
    match s.flush f with
    | .awaitsInflight p =>
      if s.isResolved p then
        let r := run s (.flush f)
        some (r.2.setFlush f (.awaitsRun r.1))
      else none
    | _ => none
  | .resolve f =>
    match s.flush f with
    | .awaitsRun p => if s.isResolved p then some (s.setFlush f .resolved) else none
    | _ => none

abbrev Runs (s : State) (as : List Action) (t : State) : Prop := LabelledRuns.run step s as = some t

/-- Every write has settled and no microtask is left. -/
structure Quiet (s : State) : Prop where
  writes : ∀ w, s.chain w ≠ .writing
  microtasks : ∀ a, a.microtask = true → step s a = none

/-- The three ways in which a run of the saver goes. -/
inductive Ran (s : State) (o : Origin) : Option ℕ → State → Prop where
  | joined {w} (hw : s.inflight = some w) : Ran s o (some w) s
  | clean (hfree : s.inflight = none) (hclean : s.dirty = false) : Ran s o none s
  | begun (hfree : s.inflight = none) (hdirty : s.dirty = true) : Ran s o (some s.next) (s.write o)

theorem ran_run (s : State) (o : Origin) : Ran s o (run s o).1 (run s o).2 := by
  unfold run
  cases hin : s.inflight with
  | some w => exact .joined hin
  | none =>
    cases hd : s.dirty with
    | false => exact .clean hin hd
    | true => exact .begun hin hd

/-- The steps as a relation, one rule for each stage. -/
inductive Step (s : State) : Action → State → Prop where
  | schedule : Step s .schedule { s with dirty := true, timer := true }
  | expire {p t} (hrun : Ran { s with timer := false } .timer p t) : Step s .expire t
  | settle {w ok} (hw : s.chain w = .writing) : Step s (.settle w ok) (s.setChain w (.settled ok))
  | handle {w ok reported} (hw : s.chain w = .settled ok) :
      Step s (.handle w) ({ s with reported := reported }.setChain w .handled)
  | finalize {w} (hw : s.chain w = .handled) :
      Step s (.finalize w) ({ s with inflight := none }.setChain w .cleared)
  | tailClean {w} (hw : s.chain w = .cleared) (hclean : s.dirty = false) :
      Step s (.tail w) (s.setChain w .resolved)
  | tailRun {w v t} (hw : s.chain w = .cleared) (hdirty : s.dirty = true)
      (hrun : Ran s (s.origin w) (some v) t) : Step s (.tail w) (t.setChain w (.following v))
  | adopt {w v} (hw : s.chain w = .following v) (hv : s.chain v = .resolved) :
      Step s (.adopt w) (s.setChain w .resolved)
  | flush {f} (hf : s.flush f = .idle) :
      Step s (.flush f) ({ s with timer := false }.setFlush f (.awaitsInflight s.inflight))
  | resume {f p q t} (hf : s.flush f = .awaitsInflight p) (hp : s.isResolved p = true)
      (hrun : Ran s (.flush f) q t) : Step s (.resume f) (t.setFlush f (.awaitsRun q))
  | resolve {f p} (hf : s.flush f = .awaitsRun p) (hp : s.isResolved p = true) :
      Step s (.resolve f) (s.setFlush f .resolved)

theorem step_inv {s t : State} {a : Action} (h : step s a = some t) : Step s a t := by
  cases a with
  | schedule =>
    cases h
    exact .schedule
  | expire =>
    simp only [step] at h
    split_ifs at h
    cases h
    exact .expire (ran_run _ _)
  | settle w ok =>
    simp only [step] at h
    split at h
    next hw =>
      cases h
      exact .settle hw
    next => cases h
  | handle w =>
    simp only [step] at h
    split at h
    next ok hw =>
      cases h
      exact .handle hw
    next => cases h
  | finalize w =>
    simp only [step] at h
    split at h
    next hw =>
      cases h
      exact .finalize hw
    next => cases h
  | tail w =>
    simp only [step] at h
    split at h
    next hw =>
      cases h
      unfold tail
      split_ifs with hdirty
      · have hran := ran_run s (s.origin w)
        dsimp only
        generalize run s (s.origin w) = r at hran ⊢
        obtain ⟨p, t⟩ := r
        cases hran with
        | joined hin => exact .tailRun hw hdirty (.joined hin)
        | clean _ hclean => exact .tailClean hw hclean
        | begun hfree hd => exact .tailRun hw hdirty (.begun hfree hd)
      · exact .tailClean hw (by simpa using hdirty)
    next => cases h
  | adopt w =>
    simp only [step] at h
    split at h
    next v hw =>
      split_ifs at h with hv
      cases h
      exact .adopt hw hv
    next => cases h
  | flush f =>
    simp only [step] at h
    split at h
    next hf =>
      cases h
      exact .flush hf
    next => cases h
  | resume f =>
    simp only [step] at h
    split at h
    next p hf =>
      split_ifs at h with hp
      cases h
      exact .resume hf hp (ran_run _ _)
    next => cases h
  | resolve f =>
    simp only [step] at h
    split at h
    next p hf =>
      split_ifs at h with hp
      cases h
      exact .resolve hf hp
    next => cases h

/-- The promise of the first write follows, in some steps, the one of the second. -/
abbrev Leads (chain : ℕ → Chain) : ℕ → ℕ → Prop := Relation.ReflTransGen fun u v => chain u = .following v

section Leads

variable {chain : ℕ → Chain} {u v w k : ℕ}

/-- A change at a promise that follows none leaves the paths as they are. -/
theorem Leads.update {x : Chain} (hk : ∀ v, chain k ≠ .following v) (h : Leads chain u w) :
    Leads (Function.update chain k x) u w := by
  refine Relation.ReflTransGen.mono (fun a b hab => ?_) _ _ h
  have hne : a ≠ k := by
    rintro rfl
    exact hk b hab
  rw [Function.update_of_ne hne, hab]

theorem Leads.eq_of_resolved (h : Leads chain u w) (hu : chain u = .resolved) : u = w := by
  obtain rfl | ⟨v, hv, -⟩ := h.cases_head
  · rfl
  · rw [hu] at hv
    cases hv

/-- A path to another, unresolved promise does not pass a promise that is about to resolve. -/
theorem Leads.adopt (hk : chain k = .following v) (hv : chain v = .resolved)
    (hw : chain w ≠ .resolved) (h : Leads chain u w) : Leads (Function.update chain k .resolved) u w := by
  induction h using Relation.ReflTransGen.head_induction_on with
  | refl => exact .refl
  | @head a b hab hrest ih =>
    have hne : a ≠ k := by
      rintro rfl
      obtain rfl : b = v := Chain.following.inj (hab.symm.trans hk)
      obtain rfl := Leads.eq_of_resolved hrest hv
      exact hw hv
    exact .head (by rw [Function.update_of_ne hne, hab]) ih

end Leads

/-- The promise in flight is the last one begun, and a promise follows a later one. -/
structure Inv (s : State) : Prop where
  started : ∀ w, s.chain w = .unstarted ↔ s.next ≤ w
  last : ∀ w, s.inflight = some w → w + 1 = s.next
  inFlight : ∀ w, (s.chain w).inFlight ↔ s.inflight = some w
  follows : ∀ w v, s.chain w = .following v → w < v ∧ v < s.next
  awaited : ∀ f w, s.flush f = .awaitsInflight (some w) → w < s.next

theorem inv_createSaver : Inv createSaver where
  started w := iff_of_true rfl (Nat.zero_le w)
  last := nofun
  inFlight _ := iff_of_false (fun h => h.elim) nofun
  follows := nofun
  awaited := nofun

theorem Inv.setChain {s : State} (hs : Inv s) {w : ℕ} {x : Chain} (hw : w < s.next) (hx : x ≠ .unstarted)
    (hflight : x.inFlight ↔ (s.chain w).inFlight) (hfollow : ∀ v, x = .following v → w < v ∧ v < s.next) :
    Inv (s.setChain w x) where
  started u := by
    obtain rfl | hne := eq_or_ne u w
    · simpa [State.setChain, hx] using hw
    · simpa [State.setChain, hne] using hs.started u
  last := hs.last
  inFlight u := by
    obtain rfl | hne := eq_or_ne u w
    · simpa [State.setChain, hflight] using hs.inFlight u
    · simpa [State.setChain, hne] using hs.inFlight u
  follows u v := by
    obtain rfl | hne := eq_or_ne u w
    · simpa [State.setChain] using hfollow v
    · simpa [State.setChain, hne] using hs.follows u v
  awaited := hs.awaited

theorem Inv.setFlush {s : State} (hs : Inv s) {f : ℕ} {x : Flush}
    (hx : ∀ w, x = .awaitsInflight (some w) → w < s.next) : Inv (s.setFlush f x) where
  started := hs.started
  last := hs.last
  inFlight := hs.inFlight
  follows := hs.follows
  awaited g w := by
    obtain rfl | hne := eq_or_ne g f
    · simpa [State.setFlush] using hx w
    · simpa [State.setFlush, hne] using hs.awaited g w

theorem Inv.lt_next {s : State} (hs : Inv s) {w : ℕ} (hw : s.chain w ≠ .unstarted) : w < s.next :=
  Nat.lt_of_not_le fun hle => hw ((hs.started w).mpr hle)

theorem Inv.write {s : State} (hs : Inv s) (hfree : s.inflight = none) (o : Origin) : Inv (s.write o) where
  started w := by
    obtain rfl | hne := eq_or_ne w s.next
    · simp [State.write]
    · have hstarted := hs.started w
      simp only [State.write, Function.update_of_ne hne, hstarted]
      omega
  last _ hw := by
    cases hw
    rfl
  inFlight w := by
    obtain rfl | hne := eq_or_ne w s.next
    · simp [State.write, Chain.inFlight]
    · have hnone := hs.inFlight w
      simpa [State.write, hne, hne.symm, hfree] using hnone
  follows w v hv := by
    have hw : s.chain w = .following v := by
      obtain rfl | hne := eq_or_ne w s.next
      · simp [State.write] at hv
      · simpa [State.write, hne] using hv
    have hlt := hs.follows w v hw
    exact ⟨hlt.1, Nat.lt_succ_of_lt hlt.2⟩
  awaited f w hw := Nat.lt_succ_of_lt (hs.awaited f w hw)

theorem Inv.ran {s t : State} {o : Origin} {p : Option ℕ} (hs : Inv s) (h : Ran s o p t) : Inv t := by
  cases h with
  | joined | clean => exact hs
  | begun hfree => exact hs.write hfree o

/-- A promise that a run returns is in flight after it. -/
theorem Ran.inflight {s t : State} {o : Origin} {w : ℕ} (h : Ran s o (some w) t) : t.inflight = some w := by
  cases h with
  | joined hw => exact hw
  | begun => rfl

theorem Ran.chain_of_ne {s t : State} {o : Origin} {p : Option ℕ} (h : Ran s o p t) {w : ℕ} (hw : w ≠ s.next) :
    t.chain w = s.chain w := by
  cases h with
  | joined | clean => rfl
  | begun => exact Function.update_of_ne hw _ _

theorem Ran.next_le {s t : State} {o : Origin} {p : Option ℕ} (h : Ran s o p t) : s.next ≤ t.next := by
  cases h with
  | joined | clean => exact le_rfl
  | begun => exact Nat.le_succ _

theorem Ran.flush {s t : State} {o : Origin} {p : Option ℕ} (h : Ran s o p t) : t.flush = s.flush := by
  cases h <;> rfl

/-- A promise before its tail stays so while the saver runs. -/
theorem Ran.cleared {s t : State} {o : Origin} {p : Option ℕ} (hs : Inv s) (h : Ran s o p t) {w : ℕ}
    (hw : s.chain w = .cleared) : t.chain w = .cleared := by
  have hlt : w < s.next := hs.lt_next (by simp [hw])
  rw [h.chain_of_ne (Nat.ne_of_lt hlt), hw]

/-- The promise a tail runs into is of a later write. -/
theorem Ran.later {s t : State} {o : Origin} {v w : ℕ} (hs : Inv s) (h : Ran s o (some v) t)
    (hw : s.chain w = .cleared) : w < v ∧ v < t.next := by
  have ht : Inv t := hs.ran h
  have hv : v + 1 = t.next := ht.last v h.inflight
  have hlt : w < t.next := Nat.lt_of_lt_of_le (hs.lt_next (by simp [hw])) h.next_le
  have hne : w ≠ v := by
    rintro rfl
    have hflight := (ht.inFlight w).mpr h.inflight
    rw [h.cleared hs hw] at hflight
    exact hflight
  omega

theorem inv_step {s t : State} {a : Action} (hs : Inv s) (h : step s a = some t) : Inv t := by
  have hstarted {w : ℕ} {x : Chain} (hw : s.chain w = x) (hx : x ≠ .unstarted) : w < s.next :=
    hs.lt_next (hw ▸ hx)
  cases step_inv h with
  | schedule => exact ⟨hs.started, hs.last, hs.inFlight, hs.follows, hs.awaited⟩
  | expire hrun =>
    have hs' : Inv { s with timer := false } := ⟨hs.started, hs.last, hs.inFlight, hs.follows, hs.awaited⟩
    exact hs'.ran hrun
  | settle hw => exact hs.setChain (hstarted hw nofun) nofun (by simp [hw, Chain.inFlight]) nofun
  | @handle w _ reported hw =>
    have hs' : Inv { s with reported := reported } := ⟨hs.started, hs.last, hs.inFlight, hs.follows, hs.awaited⟩
    exact hs'.setChain (hstarted hw nofun) nofun (by simp [hw, Chain.inFlight]) nofun
  | @finalize w hw =>
    have hin : s.inflight = some w := (hs.inFlight w).mp (by rw [hw]; trivial)
    refine ⟨fun u => ?_, nofun, fun u => ?_, fun u v hv => ?_, hs.awaited⟩
    · obtain rfl | hne := eq_or_ne u w
      · simpa [State.setChain] using hstarted hw nofun
      · simpa [State.setChain, hne] using hs.started u
    · obtain rfl | hne := eq_or_ne u w
      · simp [State.setChain, Chain.inFlight]
      · simpa [State.setChain, hne, hin, hne.symm] using hs.inFlight u
    · obtain rfl | hne := eq_or_ne u w
      · simp [State.setChain] at hv
      · exact hs.follows u v (by simpa [State.setChain, hne] using hv)
  | tailClean hw => exact hs.setChain (hstarted hw nofun) nofun (by simp [hw, Chain.inFlight]) nofun
  | @tailRun w v t hw hdirty hrun =>
    have ht : Inv t := hs.ran hrun
    have hchain : t.chain w = .cleared := hrun.cleared hs hw
    have hlater := hrun.later hs hw
    refine ht.setChain (Nat.lt_trans hlater.1 hlater.2) nofun (by simp [hchain, Chain.inFlight]) fun u hu => ?_
    cases hu
    exact hlater
  | adopt hw => exact hs.setChain (hstarted hw nofun) nofun (by simp [hw, Chain.inFlight]) nofun
  | flush hf =>
    have hs' : Inv { s with timer := false } := ⟨hs.started, hs.last, hs.inFlight, hs.follows, hs.awaited⟩
    refine hs'.setFlush fun w hw => ?_
    have hlast := hs.last w (Flush.awaitsInflight.inj hw)
    exact Nat.lt_of_succ_le (Nat.le_of_eq hlast)
  | resume _ _ hrun => exact (hs.ran hrun).setFlush nofun
  | resolve => exact hs.setFlush nofun

/-- One write is in progress at a time. -/
theorem Inv.single {s : State} (hs : Inv s) {v w : ℕ} (hv : s.chain v = .writing) (hw : s.chain w = .writing) :
    v = w := by
  have hv' := (hs.inFlight v).mp (by rw [hv]; trivial)
  have hw' := (hs.inFlight w).mp (by rw [hw]; trivial)
  exact Option.some.inj (hv'.symm.trans hw')

/-- A write not yet resolved that a flush has caused is one the flush waits for. -/
def Owned (s : State) : Prop :=
  ∀ w f, w < s.next → s.origin w = .flush f → s.chain w ≠ .resolved →
    ∃ v, s.flush f = .awaitsRun (some v) ∧ Leads s.chain v w

theorem Owned.setChain {s : State} (hs : Owned s) {w : ℕ} {x : Chain} (hw : ∀ v, s.chain w ≠ .following v)
    (hunresolved : s.chain w ≠ .resolved) : Owned (s.setChain w x) := by
  intro u f hu horigin hres
  have hold : s.chain u ≠ .resolved := by
    obtain rfl | hne := eq_or_ne u w
    · exact hunresolved
    · simpa [State.setChain, hne] using hres
  obtain ⟨v, hv, hleads⟩ := hs u f hu horigin hold
  exact ⟨v, hv, Leads.update hw hleads⟩

theorem owned_step {s t : State} {a : Action} (hi : Inv s) (hs : Owned s) (h : step s a = some t) : Owned t := by
  cases step_inv h with
  | schedule => exact hs
  | expire hrun =>
    cases hrun with
    | joined | clean => exact hs
    | begun =>
      intro u f hu horigin hres
      obtain rfl | hne := eq_or_ne u s.next
      · simp [State.write] at horigin
      · have hold := hs u f (by simp only [State.write] at hu; omega) (by simpa [State.write, hne] using horigin)
          (by simpa [State.write, hne] using hres)
        obtain ⟨v, hv, hleads⟩ := hold
        have hfresh : s.chain s.next = .unstarted := (hi.started _).mpr le_rfl
        exact ⟨v, hv, Leads.update (by simp [hfresh]) hleads⟩
  | settle hw => exact hs.setChain (by simp [hw]) (by simp [hw])
  | @handle w ok reported hw =>
    have hs' : Owned { s with reported := reported } := hs
    exact hs'.setChain (by simp [hw]) (by simp [hw])
  | finalize hw =>
    have hs' : Owned { s with inflight := none } := hs
    exact hs'.setChain (by simp [hw]) (by simp [hw])
  | tailClean hw => exact hs.setChain (by simp [hw]) (by simp [hw])
  | @tailRun w v t hw hdirty hrun =>
    cases hrun with
    | joined => exact hs.setChain (by simp [hw]) (by simp [hw])
    | begun =>
      have hlt : w < s.next := hi.lt_next (by simp [hw])
      have hfresh : s.chain s.next = .unstarted := (hi.started _).mpr le_rfl
      have hpath {u f : ℕ} (hu : u < s.next) (horigin : s.origin u = .flush f) (hres : s.chain u ≠ .resolved) :
          ∃ v, s.flush f = .awaitsRun (some v) ∧
            Leads (Function.update (Function.update s.chain s.next .writing) w (.following s.next)) v u := by
        obtain ⟨v, hv, hleads⟩ := hs u f hu horigin hres
        refine ⟨v, hv, Leads.update (by simp [Nat.ne_of_lt hlt, hw]) (Leads.update (by simp [hfresh]) hleads)⟩
      intro u f hu horigin hres
      obtain rfl | hne := eq_or_ne u s.next
      · obtain ⟨v, hv, hleads⟩ := hpath hlt (by simpa [State.write, State.setChain] using horigin) (by simp [hw])
        exact ⟨v, hv, hleads.tail (Function.update_self _ _ _)⟩
      · refine hpath ?_ ?_ ?_
        · simp only [State.write, State.setChain] at hu
          omega
        · simpa [State.write, State.setChain, hne] using horigin
        · obtain rfl | hne' := eq_or_ne u w
          · simp [hw]
          · simpa [State.write, State.setChain, hne, hne'] using hres
  | @adopt w v hw hv =>
    intro u f hu horigin hres
    have hne : u ≠ w := by
      rintro rfl
      simp [State.setChain] at hres
    have hold : s.chain u ≠ .resolved := by simpa [State.setChain, hne] using hres
    obtain ⟨v', hv', hleads⟩ := hs u f hu horigin hold
    exact ⟨v', hv', Leads.adopt hw hv hold hleads⟩
  | @flush f hf =>
    intro u g hu horigin hres
    obtain ⟨v, hv, hleads⟩ := hs u g hu horigin hres
    have hne : g ≠ f := by
      rintro rfl
      rw [hf] at hv
      cases hv
    exact ⟨v, by simpa [State.setFlush, hne] using hv, hleads⟩
  | @resume f p q t hf hp hrun =>
    have hnone {u : ℕ} (hu : u < s.next) (hres : s.chain u ≠ .resolved) : s.origin u ≠ .flush f := by
      intro horigin
      obtain ⟨v, hv, -⟩ := hs u f hu horigin hres
      rw [hf] at hv
      cases hv
    have hfresh : s.chain s.next = .unstarted := (hi.started _).mpr le_rfl
    have hsame : t.next = s.next ∧ t.chain = s.chain ∧ t.origin = s.origin ∨ t = s.write (.flush f) ∧ q = some s.next := by
      cases hrun with
      | joined | clean => exact .inl ⟨rfl, rfl, rfl⟩
      | begun => exact .inr ⟨rfl, rfl⟩
    have hflush := hrun.flush
    intro u g hu horigin hres
    obtain ⟨hnext, hchain, horig⟩ | ⟨rfl, rfl⟩ := hsame
    · simp only [State.setFlush, hnext, hchain, horig, hflush] at hu horigin hres ⊢
      obtain ⟨v, hv, hleads⟩ := hs u g hu horigin hres
      have hne : g ≠ f := by
        rintro rfl
        exact hnone hu hres horigin
      exact ⟨v, by simpa [hne] using hv, hleads⟩
    · obtain rfl | hne := eq_or_ne u s.next
      · obtain rfl : f = g := by simpa [State.setFlush, State.write] using horigin
        exact ⟨s.next, by simp [State.setFlush], .refl⟩
      · simp only [State.setFlush, State.write, Function.update_of_ne hne] at hu horigin hres ⊢
        have hu : u < s.next := by omega
        obtain ⟨v, hv, hleads⟩ := hs u g hu horigin hres
        have hgf : g ≠ f := by
          rintro rfl
          exact hnone hu hres horigin
        exact ⟨v, by simpa [hgf] using hv, Leads.update (by simp [hfresh]) hleads⟩
  | @resolve f p hf hp =>
    intro u g hu horigin hres
    obtain ⟨v, hv, hleads⟩ := hs u g hu horigin hres
    have hne : g ≠ f := by
      rintro rfl
      obtain rfl : p = some v := Flush.awaitsRun.inj (hf.symm.trans hv)
      have hdone : s.chain v = .resolved := by simpa [State.isResolved] using hp
      obtain rfl := Leads.eq_of_resolved hleads hdone
      exact hres hdone
    exact ⟨v, by simpa [State.setFlush, hne] using hv, hleads⟩

/-- Since a state in which `n` writes had begun, a write has begun or the saver is dirty. -/
def Recorded (n : ℕ) (s : State) : Prop := n ≤ s.next ∧ (n < s.next ∨ s.dirty = true)

/-- The saver has run since, and where it has not begun a write, a tail is still to come. -/
def Asked (n : ℕ) (s : State) : Prop := n < s.next ∨ s.dirty = true ∧ ∃ w, (s.chain w).beforeTail

theorem Chain.beforeTail_of_inFlight {x : Chain} (h : x.inFlight) : x.beforeTail := by
  cases x <;> trivial

section Since

variable {n : ℕ} {s t : State} {a : Action}

theorem Recorded.ran {o : Origin} {p : Option ℕ} (hn : Recorded n s) (h : Ran s o p t) : Recorded n t := by
  cases h with
  | joined | clean => exact hn
  | begun => exact ⟨Nat.le_succ_of_le hn.1, .inl (Nat.lt_succ_of_le hn.1)⟩

theorem recorded_step (hn : Recorded n s) (h : step s a = some t) : Recorded n t := by
  cases step_inv h with
  | schedule => exact ⟨hn.1, .inr rfl⟩
  | expire hrun =>
    have hn' : Recorded n { s with timer := false } := hn
    exact hn'.ran hrun
  | tailRun _ _ hrun =>
    have ht := hn.ran hrun
    exact ht
  | resume _ _ hrun =>
    have ht := hn.ran hrun
    exact ht
  | settle | handle | finalize | tailClean | adopt | flush | resolve => exact hn

/-- A run of the saver asks for every change recorded before it. -/
theorem Recorded.asked {o : Origin} {p : Option ℕ} (hi : Inv s) (hn : Recorded n s) (h : Ran s o p t) :
    Asked n t := by
  cases h with
  | @joined w hw =>
    have hflight : (s.chain w).inFlight := (hi.inFlight w).mpr hw
    exact hn.2.imp_right fun hdirty => ⟨hdirty, w, Chain.beforeTail_of_inFlight hflight⟩
  | clean _ hclean =>
    refine .inl (hn.2.resolve_right ?_)
    simp [hclean]
  | begun => exact .inl (Nat.lt_succ_of_le hn.1)

theorem Asked.mono {s t : State} (hn : Asked n s) (hnext : s.next ≤ t.next) (hdirty : s.dirty = true → t.dirty = true)
    (hchain : ∀ w, (s.chain w).beforeTail → (t.chain w).beforeTail) : Asked n t := by
  obtain hlt | ⟨hd, w, hw⟩ := hn
  · exact .inl (Nat.lt_of_lt_of_le hlt hnext)
  · exact .inr ⟨hdirty hd, w, hchain w hw⟩

theorem Asked.setChain {w : ℕ} {x : Chain} (hn : Asked n s) (hx : (s.chain w).beforeTail → x.beforeTail) :
    Asked n (s.setChain w x) := by
  refine hn.mono le_rfl id fun u hu => ?_
  obtain rfl | hne := eq_or_ne u w
  · simpa [State.setChain] using hx hu
  · simpa [State.setChain, hne] using hu

theorem asked_step (hi : Inv s) (hr : Recorded n s) (hn : Asked n s) (h : step s a = some t) : Asked n t := by
  cases step_inv h with
  | schedule => exact hn.mono le_rfl (fun _ => rfl) fun _ => id
  | expire hrun =>
    have hi' : Inv { s with timer := false } := ⟨hi.started, hi.last, hi.inFlight, hi.follows, hi.awaited⟩
    have hr' : Recorded n { s with timer := false } := hr
    exact hr'.asked hi' hrun
  | settle => exact hn.setChain fun _ => trivial
  | @handle w ok reported hw =>
    have hn' : Asked n { s with reported := reported } := hn
    exact hn'.setChain fun _ => trivial
  | finalize =>
    have hn' : Asked n { s with inflight := none } := hn
    exact hn'.setChain fun _ => trivial
  | tailClean _ hclean =>
    refine .inl (hr.2.resolve_right ?_)
    simp [hclean]
  | @tailRun w v t hw hdirty hrun =>
    have ht : Inv t := hi.ran hrun
    have hv : (t.chain v).inFlight := (ht.inFlight v).mpr hrun.inflight
    have hne : v ≠ w := Nat.ne_of_gt (hrun.later hi hw).1
    obtain hlt | ⟨hd, -⟩ := hr.asked hi hrun
    · exact .inl hlt
    · exact .inr ⟨hd, v, by simpa [State.setChain, hne] using Chain.beforeTail_of_inFlight hv⟩
  | adopt hw => exact hn.setChain fun hb => by simp [hw, Chain.beforeTail] at hb
  | flush | resolve => exact hn.mono le_rfl id fun _ => id
  | resume _ _ hrun => exact (hr.asked hi hrun).mono le_rfl id fun _ => id

end Since

/-- The promise a flush awaited last has the write begun since, or is itself of one begun since. -/
def Covered (n f : ℕ) (s : State) : Prop :=
  match s.flush f with
  | .idle => True
  | .awaitsInflight p => ∀ w, s.inflight = some w → n ≤ w ∨ p = some w
  | .awaitsRun (some w) => n ≤ w ∧ w < s.next
  | .awaitsRun none | .resolved => ∃ w, n ≤ w ∧ (s.chain w).writeSettled

theorem Chain.inFlight_or_writeSettled {x : Chain} (h : x ≠ .unstarted) : x.inFlight ∨ x.writeSettled := by
  cases x <;> simp_all [Chain.inFlight, Chain.writeSettled]

section Flushed

variable {n f : ℕ} {s t : State} {a : Action}

/-- A step that leaves the flush and the writes begun as they are, and settles no write back. -/
theorem Covered.mono (hc : Covered n f s) (hflush : t.flush f = s.flush f) (hnext : s.next ≤ t.next)
    (hin : ∀ w, t.inflight = some w → s.inflight = some w ∨ n ≤ w)
    (hchain : ∀ w, (s.chain w).writeSettled → (t.chain w).writeSettled) : Covered n f t := by
  unfold Covered at hc ⊢
  rw [hflush]
  split
  next => trivial
  next p hp =>
    simp only [hp] at hc
    intro w hw
    obtain hold | hle := hin w hw
    · exact hc w hold
    · exact .inl hle
  next w hp =>
    simp only [hp] at hc
    exact ⟨hc.1, Nat.lt_of_lt_of_le hc.2 hnext⟩
  next hp =>
    simp only [hp] at hc
    obtain ⟨w, hle, hw⟩ := hc
    exact ⟨w, hle, hchain w hw⟩
  next hp =>
    simp only [hp] at hc
    obtain ⟨w, hle, hw⟩ := hc
    exact ⟨w, hle, hchain w hw⟩

theorem Covered.setChain {w : ℕ} {x : Chain} (hc : Covered n f s) (hx : x.writeSettled) :
    Covered n f (s.setChain w x) := by
  refine hc.mono rfl le_rfl (fun u hu => .inl hu) fun u hu => ?_
  obtain rfl | hne := eq_or_ne u w
  · simpa [State.setChain] using hx
  · simpa [State.setChain, hne] using hu

theorem Covered.ran {o : Origin} {p : Option ℕ} (hi : Inv s) (hn : n ≤ s.next) (hc : Covered n f s)
    (h : Ran s o p t) : Covered n f t := by
  cases h with
  | joined | clean => exact hc
  | begun =>
    refine hc.mono rfl (Nat.le_succ _) (fun w hw => ?_) fun w hw => ?_
    · cases hw
      exact .inr hn
    · have hne : w ≠ s.next := by
        rintro rfl
        rw [(hi.started _).mpr le_rfl] at hw
        exact hw
      simpa [State.write, hne] using hw

theorem covered_step (hi : Inv s) (hr : Recorded n s) (hc : Covered n f s) (h : step s a = some t) :
    Covered n f t := by
  cases step_inv h with
  | schedule => exact hc.mono rfl le_rfl (fun _ => .inl) fun _ => id
  | expire hrun =>
    have hi' : Inv { s with timer := false } := ⟨hi.started, hi.last, hi.inFlight, hi.follows, hi.awaited⟩
    have hc' : Covered n f { s with timer := false } := hc
    exact hc'.ran hi' hr.1 hrun
  | settle => exact hc.setChain trivial
  | @handle w ok reported hw =>
    have hc' : Covered n f { s with reported := reported } := hc
    exact hc'.setChain trivial
  | finalize =>
    have hc' : Covered n f { s with inflight := none } := hc.mono rfl le_rfl nofun fun _ => id
    exact hc'.setChain trivial
  | tailClean => exact hc.setChain trivial
  | tailRun hw hdirty hrun => exact (hc.ran hi hr.1 hrun).setChain trivial
  | adopt => exact hc.setChain trivial
  | @flush g hg =>
    obtain rfl | hne := eq_or_ne f g
    · simp only [Covered, State.setFlush, Function.update_self]
      exact fun w hw => .inr hw
    · exact hc.mono (by simp [State.setFlush, hne]) le_rfl (fun _ => .inl) fun _ => id
  | @resume g p q t hg hp hrun =>
    have ht : Inv t := hi.ran hrun
    obtain rfl | hne := eq_or_ne f g
    · simp only [Covered, hg] at hc
      simp only [Covered, State.setFlush, Function.update_self]
      cases hrun with
      | @joined w hw =>
        refine ⟨(hc w hw).resolve_right ?_, hi.last w hw ▸ Nat.lt_succ_self w⟩
        rintro rfl
        have hflight : (s.chain w).inFlight := (hi.inFlight w).mpr hw
        have hdone : s.chain w = .resolved := by simpa [State.isResolved] using hp
        rw [hdone] at hflight
        exact hflight
      | clean hfree hclean =>
        have hlt : n < s.next := hr.2.resolve_right (by simp [hclean])
        have hstarted : s.chain n ≠ .unstarted := fun hun => Nat.not_le_of_lt hlt ((hi.started n).mp hun)
        refine ⟨n, le_rfl, (Chain.inFlight_or_writeSettled hstarted).resolve_left fun hflight => ?_⟩
        have hin := (hi.inFlight n).mp hflight
        rw [hfree] at hin
        cases hin
      | begun => exact ⟨hr.1, Nat.lt_succ_self _⟩
    · exact (hc.ran hi hr.1 hrun).mono (by simp [State.setFlush, hne]) le_rfl (fun _ => .inl) fun _ => id
  | @resolve g p hg hp =>
    obtain rfl | hne := eq_or_ne f g
    · cases p with
      | none =>
        simp only [Covered, hg] at hc
        simp only [Covered, State.setFlush, Function.update_self]
        exact hc
      | some w =>
        simp only [Covered, hg] at hc
        simp only [Covered, State.setFlush, Function.update_self]
        have hdone : s.chain w = .resolved := by simpa [State.isResolved] using hp
        exact ⟨w, hc.1, by rw [hdone]; trivial⟩
    · exact hc.mono (by simp [State.setFlush, hne]) le_rfl (fun _ => .inl) fun _ => id

end Flushed

/-- Where nothing is left to do, every promise begun has resolved. -/
theorem Quiet.resolved {s : State} (hq : Quiet s) (hi : Inv s) {w : ℕ} (hw : w < s.next) :
    s.chain w = .resolved := by
  induction hk : s.next - w using Nat.strong_induction_on generalizing w with
  | _ k ih =>
  cases hc : s.chain w with
  | unstarted => exact absurd ((hi.started w).mp hc) (Nat.not_le_of_lt hw)
  | writing => exact absurd hc (hq.writes w)
  | settled ok => simpa [step, hc] using hq.microtasks (.handle w) rfl
  | handled => simpa [step, hc] using hq.microtasks (.finalize w) rfl
  | cleared => simpa [step, hc] using hq.microtasks (.tail w) rfl
  | following v =>
    obtain ⟨hlt, hv⟩ := hi.follows w v hc
    have hdone : s.chain v = .resolved := ih (s.next - v) (by omega) hv rfl
    simpa [step, hc, hdone] using hq.microtasks (.adopt w) rfl
  | resolved => rfl

/-- Where nothing is left to do, what was asked for has begun. -/
theorem Asked.lt_next {n : ℕ} {s : State} (hn : Asked n s) (hq : Quiet s) (hi : Inv s) : n < s.next := by
  refine hn.resolve_right ?_
  rintro ⟨-, w, hw⟩
  have hstarted : s.chain w ≠ .unstarted := by
    intro hun
    rw [hun] at hw
    exact hw
  rw [hq.resolved hi (hi.lt_next hstarted)] at hw
  exact hw

/-- No flush still waits for its first promise. -/
theorem Quiet.resumed {s : State} (hq : Quiet s) (hi : Inv s) (f : ℕ) (p : Option ℕ) :
    s.flush f ≠ .awaitsInflight p := by
  intro hf
  have hp : s.isResolved p = true := by
    cases p with
    | none => rfl
    | some w => simpa [State.isResolved] using hq.resolved hi (hi.awaited f w hf)
  simpa [step, hf, hp] using hq.microtasks (.resume f) rfl

/-- What holds from a change on, when `n` writes had begun before it. -/
structure Since (n : ℕ) (s : State) : Prop where
  inv : Inv s
  recorded : Recorded n s

section Since

variable {n : ℕ} {s t : State} {mid : List Action}

theorem since_step {a : Action} (hs : Since n s) (h : step s a = some t) : Since n t :=
  ⟨inv_step hs.inv h, recorded_step hs.recorded h⟩

theorem since_run (hs : Since n s) (h : Runs s mid t) : Since n t :=
  LabelledRuns.run_invariant (fun _ _ _ => since_step) hs h

theorem since_schedule {pre : List Action} (h : Runs createSaver (pre ++ [.schedule]) s) : Since s.next s := by
  obtain ⟨u, hu, hs⟩ := LabelledRuns.run_append_eq_some.mp h
  obtain ⟨v, hv, hnil⟩ := LabelledRuns.run_cons_eq_some.mp hs
  cases hv
  cases hnil
  have hinv : Inv u := LabelledRuns.run_invariant (fun _ _ _ => inv_step) inv_createSaver hu
  exact ⟨inv_step hinv (a := .schedule) rfl, le_rfl, .inr rfl⟩

/-- A step of the flush's own is the only one to move it. -/
theorem flush_step {a : Action} {f : ℕ} (h : step s a = some t) (hflush : a ≠ .flush f) (hresume : a ≠ .resume f)
    (hresolve : a ≠ .resolve f) : t.flush f = s.flush f := by
  cases step_inv h with
  | schedule | settle | handle | finalize | tailClean | adopt => rfl
  | expire hrun => rw [hrun.flush]
  | tailRun _ _ hrun => exact congrFun hrun.flush f
  | @flush g =>
    have hne : f ≠ g := fun h => hflush (by rw [h])
    simp [State.setFlush, hne]
  | @resume g _ _ _ _ _ hrun =>
    have hne : f ≠ g := fun h => hresume (by rw [h])
    simp [State.setFlush, hne, hrun.flush]
  | @resolve g =>
    have hne : f ≠ g := fun h => hresolve (by rw [h])
    simp [State.setFlush, hne]

/-- A flush has asked for every change before it, or waits for the promise in flight. -/
def Opened (n f : ℕ) (s : State) : Prop := Asked n s ∨ ∃ p, s.flush f = .awaitsInflight p

theorem asked_resume {f : ℕ} (hs : Since n s) (h : step s (.resume f) = some t) : Asked n t := by
  cases step_inv h with
  | resume _ _ hrun => exact (hs.recorded.asked hs.inv hrun).mono le_rfl id fun _ => id

theorem asked_expire (hs : Since n s) (h : step s .expire = some t) : Asked n t := by
  cases step_inv h with
  | expire hrun =>
    have hi : Inv { s with timer := false } :=
      ⟨hs.inv.started, hs.inv.last, hs.inv.inFlight, hs.inv.follows, hs.inv.awaited⟩
    have hr : Recorded n { s with timer := false } := hs.recorded
    exact hr.asked hi hrun

theorem opened_step {a : Action} {f : ℕ} (hs : Since n s) (ho : Opened n f s) (h : step s a = some t) :
    Opened n f t := by
  obtain hasked | ⟨p, hp⟩ := ho
  · exact .inl (asked_step hs.inv hs.recorded hasked h)
  · by_cases hresume : a = .resume f
    · subst hresume
      exact .inl (asked_resume hs h)
    · refine .inr ⟨p, (flush_step h ?_ hresume ?_).trans hp⟩
      · rintro rfl
        simp [step, hp] at h
      · rintro rfl
        simp [step, hp] at h

/-- A property that one action brings about, and that every later step keeps. -/
theorem run_of_mem {P : State → Prop} {a : Action} (hs : Since n s) (h : Runs s mid t) (ha : a ∈ mid)
    (hbegin : ∀ u v, Since n u → step u a = some v → P v)
    (hkeep : ∀ u b v, Since n u → P u → step u b = some v → P v) : P t := by
  obtain ⟨m₁, m₂, rfl⟩ := List.append_of_mem ha
  obtain ⟨u, hu, hrest⟩ := LabelledRuns.run_append_eq_some.mp h
  obtain ⟨v, hv, ht⟩ := LabelledRuns.run_cons_eq_some.mp hrest
  have hu' : Since n u := since_run hs hu
  have hrun : Since n t ∧ P t :=
    @LabelledRuns.run_invariant _ _ step (fun x => Since n x ∧ P x)
      (fun x b y hx hy => ⟨since_step hx.1 hy, hkeep x b y hx.1 hx.2 hy⟩) _ _ _ ⟨since_step hu' hv, hbegin u v hu' hv⟩ ht
  exact hrun.2

theorem asked_of_mem (hs : Since n s) (h : Runs s mid t) (hq : Quiet t)
    (hmid : .expire ∈ mid ∨ ∃ f, .flush f ∈ mid ∨ .resume f ∈ mid) : Asked n t := by
  obtain hexpire | ⟨f, hflush | hresume⟩ := hmid
  · exact run_of_mem hs h hexpire (fun _ _ => asked_expire) fun _ _ _ hu => asked_step hu.inv hu.recorded
  · have hopened : Opened n f t := by
      refine run_of_mem hs h hflush (fun u v _ hv => .inr ?_) fun _ _ _ => opened_step
      cases step_inv hv with
      | flush => exact ⟨u.inflight, by simp [State.setFlush]⟩
    refine hopened.resolve_right ?_
    rintro ⟨p, hp⟩
    exact hq.resumed (since_run hs h).inv f p hp
  · exact run_of_mem hs h hresume (fun _ _ => asked_resume) fun _ _ _ hu => asked_step hu.inv hu.recorded

theorem covered_of_mem {f : ℕ} (hs : Since n s) (h : Runs s mid t) (hmid : .flush f ∈ mid) : Covered n f t := by
  refine run_of_mem hs h hmid (fun u v hu hv => ?_) fun _ _ _ hu => covered_step hu.inv hu.recorded
  cases step_inv hv with
  | flush hf =>
    have hidle : Covered n f u := by simp [Covered, hf]
    exact covered_step hu.inv hu.recorded hidle hv

end Since

/-- Of a run of the saver: one write is in progress at a time; a change is followed by a write once the
timer has fired or a flush has run after it and nothing is left to do; and a flush that has resolved
left no write of its own in progress and every change before it to a write that has settled. -/
structure Serialised (as : List Action) (t : State) : Prop where
  single : ∀ v w, t.chain v = .writing → t.chain w = .writing → v = w
  followed : ∀ pre mid s, as = pre ++ .schedule :: mid → Runs createSaver (pre ++ [.schedule]) s →
    (.expire ∈ mid ∨ ∃ f, .flush f ∈ mid ∨ .resume f ∈ mid) → Quiet t → ∃ w, s.next ≤ w ∧ w < t.next
  own : ∀ f, t.flush f = .resolved → ∀ w, t.chain w = .writing → t.origin w ≠ .flush f
  flushed : ∀ f, t.flush f = .resolved → ∀ pre mid s, as = pre ++ .schedule :: mid →
    Runs createSaver (pre ++ [.schedule]) s → .flush f ∈ mid → ∃ w, s.next ≤ w ∧ (t.chain w).writeSettled

theorem run_split {as pre mid : List Action} {s t : State} (h : Runs createSaver as t)
    (has : as = pre ++ .schedule :: mid) (hs : Runs createSaver (pre ++ [.schedule]) s) : Runs s mid t := by
  rw [has, ← List.singleton_append, ← List.append_assoc] at h
  obtain ⟨u, hu, ht⟩ := LabelledRuns.run_append_eq_some.mp h
  obtain rfl : s = u := Option.some.inj (hs.symm.trans hu)
  exact ht

/-- Every run of the saver is serialised. -/
theorem runs_serialised {as : List Action} {t : State} (h : Runs createSaver as t) : Serialised as t := by
  have hboth : Inv t ∧ Owned t :=
    @LabelledRuns.run_invariant _ _ step (fun s => Inv s ∧ Owned s)
      (fun _ _ _ hs h => ⟨inv_step hs.1 h, owned_step hs.1 hs.2 h⟩) _ _ _ ⟨inv_createSaver, nofun⟩ h
  obtain ⟨hinv, howned⟩ := hboth
  refine ⟨fun v w => hinv.single, fun pre mid s has hs hmid hq => ?_, fun f hf w hw horigin => ?_,
    fun f hf pre mid s has hs hmid => ?_⟩
  · have hasked := asked_of_mem (since_schedule hs) (run_split h has hs) hq hmid
    exact ⟨s.next, le_rfl, hasked.lt_next hq hinv⟩
  · obtain ⟨v, hv, -⟩ := howned w f (hinv.lt_next (by simp [hw])) horigin (by simp [hw])
    rw [hf] at hv
    cases hv
  · have hcovered := covered_of_mem (since_schedule hs) (run_split h has hs) hmid
    simpa [Covered, hf] using hcovered

/-- A change during a write is written by the tail before the flush resolves. -/
theorem runs_serialised_tail :
    ∃ t, Runs createSaver [.schedule, .expire, .schedule, .flush 0, .settle 0 false, .handle 0, .finalize 0,
        .tail 0, .settle 1 true, .handle 1, .finalize 1, .tail 1, .adopt 0, .resume 0, .resolve 0] t ∧
      t.reported = [0] ∧ ∃ w, 1 ≤ w ∧ (t.chain w).writeSettled :=
  ⟨_, rfl, rfl, (@runs_serialised [.schedule, .expire, .schedule, .flush 0, .settle 0 false, .handle 0,
    .finalize 0, .tail 0, .settle 1 true, .handle 1, .finalize 1, .tail 1, .adopt 0, .resume 0, .resolve 0] _
    rfl).flushed 0 rfl [.schedule, .expire] _ _ rfl rfl (by decide)⟩

end FerrisScope.Saver
