import Mathlib.Algebra.Order.Group.Nat
import FerrisScope.SingleFlight

/-!
# What holds in every run of single-flight connects

The invariant has two sides. Each caller fits its flight: one that computes holds the permit
of an empty cell, one that took a value took it from the cell. And a flight that is no longer
registered is settled or cancelled, so that a removal, which cancels the registered flight,
stops every flight from before it.
-/

namespace FerrisScope.SingleFlight
open LabelledRuns

/-- What a caller's phase says about the flights. -/
structure Caller.Fits (x : Caller) (fl : Flights Value) (c : ℕ) : Prop where
  member : ∀ f, x.flight = some f → f < fl.next
  holds : ∀ f, x.computes = some f → (fl.flight f).permit = some c ∧ (fl.flight f).cell = none
  took : ∀ f v, x.took = some (f, v) → (fl.flight f).cell = some v
  permit : ∀ f, (fl.flight f).permit = some c → x.computes = some f

/-- A flight is registered, or cancelled, or settled. -/
structure Flights.Accounted (fl : Flights Value) : Prop where
  registered : ∀ f, fl.registered = some f → f < fl.next
  accounted : ∀ f < fl.next, fl.registered = some f ∨ (fl.flight f).cancelled = true ∨
    (fl.flight f).cell ≠ none

structure Sound (s : AppState) : Prop where
  fits : ∀ c, (s.callers c).Fits s.connecting c
  flights : s.connecting.Accounted

variable {id : String} {s t : AppState} {a : Action} {fl : Flights Value} {x y : Caller} {c f : ℕ}

theorem Caller.flight_of_computes (h : x.computes = some f) : x.flight = some f := by
  cases x <;> simp_all [Caller.computes, Caller.flight]

theorem Caller.flight_of_took {v : Value} (h : x.took = some (f, v)) : x.flight = some f := by
  cases x <;> simp_all [Caller.took, Caller.flight]

/-- A change of the flights is no business of a caller when it leaves permit and cell alone,
or hits an empty cell whose permit is not the caller's, or a flight that is new. -/
theorem Caller.Fits.frame {fl' : Flights Value} (h : x.Fits fl c) (hnext : fl.next ≤ fl'.next)
    (hsame : ∀ f, ((fl'.flight f).permit = (fl.flight f).permit ∧
        (fl'.flight f).cell = (fl.flight f).cell) ∨
      ((fl.flight f).cell = none ∧ (fl.flight f).permit ≠ some c ∧ (fl'.flight f).permit ≠ some c) ∨
      (fl.next ≤ f ∧ (fl'.flight f).permit = none)) : x.Fits fl' c := by
  refine ⟨fun f hf => (h.member f hf).trans_le hnext, fun f hf => ?_, fun f v hf => ?_, fun f hf => ?_⟩
  · have hlt := h.member f (flight_of_computes hf)
    rcases hsame f with ⟨hp, hc⟩ | ⟨-, hp, -⟩ | ⟨hge, -⟩
    · rw [hp, hc]
      exact h.holds f hf
    · exact absurd (h.holds f hf).1 hp
    · omega
  · have hlt := h.member f (flight_of_took hf)
    rcases hsame f with ⟨-, hc⟩ | ⟨hnone, -, -⟩ | ⟨hge, -⟩
    · rw [hc]
      exact h.took f v hf
    · cases hnone.symm.trans (h.took f v hf)
    · omega
  · rcases hsame f with ⟨hp, -⟩ | ⟨-, -, hp⟩ | ⟨-, hp⟩
    · exact h.permit f (hp ▸ hf)
    · exact absurd hf hp
    · cases hp.symm.trans hf

/-- A caller moves on, with or without a change of the flights. -/
theorem Sound.move {fl' : Flights Value} (hflights : fl'.Accounted)
    (hother : ∀ c', c' ≠ c → (s.callers c').Fits fl' c') (hown : x.Fits fl' c)
    (hfl : t.connecting = fl') (hcallers : t.callers = Function.update s.callers c x) : Sound t := by
  refine ⟨fun c' => ?_, hfl ▸ hflights⟩
  rw [hfl, hcallers]
  by_cases hc : c' = c
  · subst hc
    rwa [Function.update_self]
  · rw [Function.update_of_ne hc]
    exact hother c' hc

theorem Sound.setCaller (h : Sound s) (hown : x.Fits s.connecting c) (hfl : t.connecting = s.connecting)
    (hcallers : t.callers = Function.update s.callers c x) : Sound t :=
  .move h.flights (fun c' _ => h.fits c') hown hfl hcallers

/-- A caller that neither takes nor loses the permit. -/
theorem Caller.Fits.retag (h : x.Fits fl c) (hcomputes : y.computes = x.computes)
    (hmember : ∀ f, y.flight = some f → f < fl.next)
    (htook : ∀ f v, y.took = some (f, v) → (fl.flight f).cell = some v) : y.Fits fl c where
  member := hmember
  holds f hf := h.holds f (hcomputes ▸ hf)
  took := htook
  permit f hf := hcomputes ▸ h.permit f hf

namespace Flights

theorem flight_set (f g : ℕ) (v : Flight Value) :
    (fl.set f v).flight g = if g = f then v else fl.flight g :=
  Function.update_apply ..

section Join

theorem join_lt (h : fl.Accounted) : fl.join.1 < fl.join.2.next := by
  unfold join
  split
  next f hf => exact h.registered f hf
  next => exact Nat.lt_succ_self _

theorem next_le_join : fl.next ≤ fl.join.2.next := by
  unfold join
  split
  next => exact le_rfl
  next => exact Nat.le_succ _

theorem flight_join {g : ℕ} (hg : g ≠ fl.next) : fl.join.2.flight g = fl.flight g := by
  unfold join
  split
  next => rfl
  next => exact Function.update_of_ne hg ..

theorem permit_join (fl : Flights Value) : fl.join.2.flight fl.next = fl.flight fl.next ∨
    (fl.join.2.flight fl.next).permit = none := by
  unfold join
  split
  next => exact .inl rfl
  next =>
    right
    simp [Flight.new]

theorem registered_join : fl.join.2.registered = some fl.join.1 := by
  unfold join
  split
  next f hf => exact hf
  next => rfl

theorem Accounted.join (h : fl.Accounted) : fl.join.2.Accounted := by
  refine ⟨fun f hf => ?_, fun f hf => ?_⟩
  · rw [registered_join] at hf
    cases hf
    exact join_lt h
  · by_cases hreg : fl.join.1 = f
    · exact .inl (hreg ▸ registered_join)
    · have hlt : f < fl.next := by
        unfold Flights.join at hf hreg
        split at hf
        next => exact hf
        next hnone =>
          rw [hnone] at hreg
          exact lt_of_le_of_ne (Nat.lt_succ_iff.mp hf) (Ne.symm hreg)
      rw [flight_join hlt.ne]
      rcases h.accounted f hlt with hold | hrest
      · exact absurd (by rw [Flights.join, hold]) hreg
      · exact .inr hrest

theorem fits_join (h : x.Fits fl c) : x.Fits fl.join.2 c := by
  refine h.frame next_le_join fun f => ?_
  by_cases hf : f = fl.next
  · subst hf
    rcases permit_join fl with heq | hnone
    · exact .inl (by rw [heq]; exact ⟨rfl, rfl⟩)
    · exact .inr (.inr ⟨le_rfl, hnone⟩)
  · rw [flight_join hf]
    exact .inl ⟨rfl, rfl⟩

end Join

/-- Changing the permit of a flight or filling its cell keeps the account. -/
theorem Accounted.set (h : fl.Accounted) {v : Flight Value}
    (hv : v.cancelled = (fl.flight f).cancelled ∧ ((fl.flight f).cell ≠ none → v.cell ≠ none)) :
    (fl.set f v).Accounted where
  registered := h.registered
  accounted g hg := by
    rw [flight_set]
    split_ifs with hgf
    · subst hgf
      rcases h.accounted g hg with hreg | hcancelled | hcell
      · exact .inl hreg
      · exact .inr (.inl (hv.1.trans hcancelled))
      · exact .inr (.inr (hv.2 hcell))
    · exact h.accounted g hg

theorem Accounted.acquire (h : fl.Accounted) (f c : ℕ) : (fl.acquire f c).Accounted :=
  h.set ⟨rfl, fun hcell => hcell⟩

theorem Accounted.release (h : fl.Accounted) (f : ℕ) : (fl.release f).Accounted :=
  h.set ⟨rfl, fun hcell => hcell⟩

theorem Accounted.publish (h : fl.Accounted) (f : ℕ) (v : Value) : (fl.publish f v).Accounted :=
  h.set ⟨rfl, fun _ => by simp⟩

theorem fits_set {v : Flight Value} (h : x.Fits fl c)
    (hv : (fl.flight f).cell = none ∧ (fl.flight f).permit ≠ some c ∧ v.permit ≠ some c) :
    x.Fits (fl.set f v) c := by
  refine h.frame le_rfl fun g => ?_
  rw [flight_set]
  split_ifs with hg
  · subst hg
    exact .inr (.inl hv)
  · exact .inl ⟨rfl, rfl⟩

theorem Accounted.settle (h : fl.Accounted) (hcell : (fl.flight f).cell ≠ none) :
    (fl.settle f).Accounted := by
  unfold Flights.settle
  split_ifs with hreg
  · refine ⟨by simp, fun g hg => ?_⟩
    rcases h.accounted g hg with hreg' | hrest
    · obtain rfl : f = g := Option.some.inj (hreg.symm.trans hreg')
      exact .inr (.inr hcell)
    · exact .inr hrest
  · exact h

theorem flight_settle : (fl.settle f).flight = fl.flight := by
  unfold settle
  split_ifs <;> rfl

theorem next_settle : (fl.settle f).next = fl.next := by
  unfold settle
  split_ifs <;> rfl

theorem fits_settle (h : x.Fits fl c) : x.Fits (fl.settle f) c :=
  h.frame next_settle.ge fun g => by rw [flight_settle]; exact .inl ⟨rfl, rfl⟩

section Cancel

theorem next_cancel : fl.cancel.next = fl.next := by
  unfold cancel
  split <;> rfl

/-- A cancellation leaves permits and cells alone, and raises the flag of the flight that was
registered. -/
theorem flight_cancel (g : ℕ) : (fl.cancel.flight g).permit = (fl.flight g).permit ∧
    (fl.cancel.flight g).cell = (fl.flight g).cell ∧
    (fl.registered = some g ∨ (fl.flight g).cancelled = true →
      (fl.cancel.flight g).cancelled = true) := by
  unfold cancel
  split
  next f hf =>
    by_cases hg : g = f
    · subst hg
      simp [set]
    · have hne : fl.registered ≠ some g := by
        rw [hf]
        exact fun h => hg (Option.some.inj h).symm
      simp [set, hg, hne]
  next hnone => simp [hnone]

theorem registered_cancel : fl.cancel.registered = none := by
  unfold cancel
  split
  next => rfl
  next h => exact h

/-- No flight goes on past a cancellation without being cancelled or settled. -/
theorem cancel_stops (h : fl.Accounted) {g : ℕ} (hg : g < fl.next) :
    (fl.cancel.flight g).cancelled = true ∨ (fl.cancel.flight g).cell ≠ none := by
  obtain ⟨-, hcell, hcancelled⟩ := fl.flight_cancel g
  rw [hcell]
  rcases h.accounted g hg with hreg | hflag | hset
  · exact .inl (hcancelled (.inl hreg))
  · exact .inl (hcancelled (.inr hflag))
  · exact .inr hset

theorem Accounted.cancel (h : fl.Accounted) : fl.cancel.Accounted where
  registered f hf := by cases registered_cancel.symm.trans hf
  accounted f hf := .inr (cancel_stops h (next_cancel ▸ hf))

theorem fits_cancel (h : x.Fits fl c) : x.Fits fl.cancel c :=
  h.frame next_cancel.ge fun g => .inl ⟨(flight_cancel g).1, (flight_cancel g).2.1⟩

end Cancel

end Flights

/-- The caller that gives the permit up, with or without a value in the cell. -/
theorem Caller.Fits.give (h : x.Fits fl c) (hcomputes : x.computes = some f) {v : Flight Value}
    (hv : v.permit = none) (hy : y.computes = none) (hmember : ∀ g, y.flight = some g → g < fl.next)
    (htook : ∀ g w, y.took = some (g, w) → g = f ∧ v.cell = some w) : y.Fits (fl.set f v) c := by
  refine ⟨hmember, fun g hg => ?_, fun g w hg => ?_, fun g hg => ?_⟩
  · cases hy.symm.trans hg
  · obtain ⟨rfl, hcell⟩ := htook g w hg
    rw [Flights.flight_set, if_pos rfl, hcell]
  · rw [Flights.flight_set] at hg
    split_ifs at hg with hgf
    · cases hv.symm.trans hg
    · cases hcomputes.symm.trans (h.permit g hg)
      exact absurd rfl hgf

theorem Caller.Fits.acquire (h : (Caller.joined f).Fits fl c) (hcell : (fl.flight f).cell = none) :
    (Caller.computing f).Fits (fl.acquire f c) c := by
  refine ⟨fun g hg => h.member g hg, fun g hg => ?_, fun g w hg => ?_, fun g hg => ?_⟩
  · cases hg
    rw [Flights.acquire, Flights.flight_set, if_pos rfl]
    exact ⟨rfl, hcell⟩
  · cases hg
  · rw [Flights.acquire, Flights.flight_set] at hg
    split_ifs at hg with hgf
    · exact hgf ▸ rfl
    · cases h.permit g hg

/-- The holder of a permit lets every other caller keep its place. -/
theorem Sound.fits_set (h : Sound s) (hc : (s.callers c).computes = some f) {v : Flight Value}
    (hv : v.permit = none) {c' : ℕ} (hne : c' ≠ c) :
    (s.callers c').Fits (s.connecting.set f v) c' := by
  obtain ⟨hpermit, hcell⟩ := (h.fits c).holds f hc
  refine Flights.fits_set (h.fits c') ⟨hcell, ?_, by simp [hv]⟩
  rw [hpermit]
  exact fun heq => hne (Option.some.inj heq).symm

theorem sound_step (h : Sound s) (hstep : Step id s a t) : Sound t := by
  cases hstep with
  | @lookup c x hc hx =>
    refine h.setCaller ((h.fits c).retag ?_ ?_ ?_) rfl rfl <;>
      rcases hx with rfl | ⟨e, -, rfl⟩ <;> simp [hc, Caller.computes, Caller.flight, Caller.took]
  | @join c hc =>
    refine .move h.flights.join (fun c' _ => Flights.fits_join (h.fits c'))
      ((Flights.fits_join (h.fits c)).retag (by rw [hc]; rfl) (fun f hf => ?_) (fun f v hf => by cases hf))
      rfl rfl
    cases hf
    exact Flights.join_lt h.flights
  | @acquire c f hc hcell hpermit =>
    refine .move (h.flights.acquire f c)
      (fun c' hne => Flights.fits_set (h.fits c') ⟨hcell, ?_, ?_⟩) ((hc ▸ h.fits c).acquire hcell) rfl rfl
    · simp [hpermit]
    · exact fun heq => hne (Option.some.inj heq).symm
  | @read c f v hc hcell =>
    refine h.setCaller ((h.fits c).retag (by rw [hc]; rfl) (fun g hg => ?_) (fun g w hg => ?_)) rfl rfl
    · exact (h.fits c).member g (by rw [hc]; exact hg)
    · cases hg
      exact hcell
  | @connect c f result hc =>
    refine h.setCaller ((h.fits c).retag ?_ (fun g hg => (h.fits c).member g ?_) (fun g w hg => ?_)) rfl rfl
    · cases result <;> rw [hc] <;> rfl
    · rw [hc]
      cases result <;> exact hg
    · cases result <;> cases hg
  | @cacheKept c f cluster v hc hkept =>
    refine h.setCaller ((h.fits c).retag (by rw [hc]; rfl) (fun g hg => ?_) (fun g w hg => by cases hg))
      rfl rfl
    exact (h.fits c).member g (by rw [hc]; exact hg)
  | @cacheInsert c f cluster hc hinner hcancelled =>
    refine h.setCaller ((h.fits c).retag (by rw [hc]; rfl) (fun g hg => ?_) (fun g w hg => by cases hg))
      rfl rfl
    exact (h.fits c).member g (by rw [hc]; exact hg)
  | @publish c f v hc =>
    have hcomputes : (s.callers c).computes = some f := by rw [hc]; rfl
    refine .move (h.flights.publish f v) (fun c' hne => h.fits_set hcomputes rfl hne)
      ((h.fits c).give hcomputes rfl rfl (fun g hg => ?_) (fun g w hg => ?_)) rfl rfl
    · exact (h.fits c).member g (by rw [hc]; exact hg)
    · cases hg
      exact ⟨rfl, rfl⟩
  | @settle c f v hc =>
    have hcell := (h.fits c).took f v (by rw [hc]; rfl)
    refine .move (h.flights.settle (by simp [hcell])) (fun c' _ => Flights.fits_settle (h.fits c'))
      ((Flights.fits_settle (h.fits c)).retag (by rw [hc]; rfl) (fun g hg => ?_) (fun g w hg => ?_)) rfl rfl
    · rw [Flights.next_settle]
      exact (h.fits c).member g (by rw [hc]; exact hg)
    · rw [Flights.flight_settle]
      exact (h.fits c).took g w (by rw [hc]; exact hg)
  | @dropWaiting c hc hc' =>
    have hown : Caller.dropped.Fits s.connecting c :=
      (h.fits c).retag hc.symm (by simp [Caller.flight]) (by simp [Caller.took])
    exact h.setCaller hown rfl rfl
  | @dropComputing c f hc =>
    have hown : Caller.dropped.Fits (s.connecting.release f) c :=
      (h.fits c).give hc rfl rfl (by simp [Caller.flight]) (by simp [Caller.took])
    exact .move (h.flights.release f) (fun c' hne => h.fits_set hc rfl hne) hown rfl rfl
  | cancel => exact ⟨fun c => Flights.fits_cancel (h.fits c), h.flights.cancel⟩
  | removeCancel hr => exact ⟨fun c => Flights.fits_cancel (h.fits c), h.flights.cancel⟩
  | _ => exact ⟨h.fits, h.flights⟩

theorem sound_init : Sound init where
  fits c := by constructor <;> simp [init, Flight.new, Caller.flight, Caller.computes, Caller.took]
  flights := by constructor <;> simp [init]

theorem reaches_sound {as : List Action} (h : Reaches id as s) : Sound s :=
  run_invariant (fun _ _ _ hs hstep => sound_step hs (step_inv hstep)) sound_init h

/-- Cells and cancellation flags are set for good. -/
structure Flights.Grows (fl fl' : Flights Value) : Prop where
  next : fl.next ≤ fl'.next
  cell : ∀ f v, f < fl.next → (fl.flight f).cell = some v → (fl'.flight f).cell = some v
  cancelled : ∀ f < fl.next, (fl.flight f).cancelled = true → (fl'.flight f).cancelled = true

theorem Flights.Grows.refl (fl : Flights Value) : fl.Grows fl :=
  ⟨le_rfl, fun _ _ _ h => h, fun _ _ h => h⟩

theorem Flights.Grows.trans {fl₁ fl₂ fl₃ : Flights Value} (h₁ : fl₁.Grows fl₂) (h₂ : fl₂.Grows fl₃) :
    fl₁.Grows fl₃ where
  next := h₁.next.trans h₂.next
  cell f v hf hv := h₂.cell f v (hf.trans_le h₁.next) (h₁.cell f v hf hv)
  cancelled f hf hc := h₂.cancelled f (hf.trans_le h₁.next) (h₁.cancelled f hf hc)

theorem Flights.grows_join : fl.Grows fl.join.2 where
  next := Flights.next_le_join
  cell f v hf hv := by rwa [Flights.flight_join hf.ne]
  cancelled f hf hc := by rwa [Flights.flight_join hf.ne]

theorem Flights.grows_set {v : Flight Value} (hcancelled : v.cancelled = (fl.flight f).cancelled)
    (hcell : ∀ w, (fl.flight f).cell = some w → v.cell = some w) : fl.Grows (fl.set f v) := by
  refine ⟨le_rfl, fun g w _ hw => ?_, fun g _ hc => ?_⟩
  · rw [Flights.flight_set]
    split_ifs with hg
    · exact hcell w (hg ▸ hw)
    · exact hw
  · rw [Flights.flight_set]
    split_ifs with hg
    · rw [hcancelled, ← hg, hc]
    · exact hc

theorem Flights.grows_settle : fl.Grows (fl.settle f) where
  next := Flights.next_settle.ge
  cell g w _ hw := by rwa [Flights.flight_settle]
  cancelled g _ hc := by rwa [Flights.flight_settle]

theorem Flights.grows_cancel : fl.Grows fl.cancel where
  next := Flights.next_cancel.ge
  cell g w _ hw := by rwa [(Flights.flight_cancel g).2.1]
  cancelled g _ hc := (Flights.flight_cancel g).2.2 (.inr hc)

theorem step_grows (h : Sound s) (hstep : Step id s a t) : s.connecting.Grows t.connecting := by
  cases hstep with
  | join hc => exact Flights.grows_join
  | acquire hc hcell hpermit => exact Flights.grows_set rfl fun w hw => hw
  | @publish c f v hc =>
    refine Flights.grows_set rfl fun w hw => ?_
    have hcell := ((h.fits c).holds f (by rw [hc]; rfl)).2
    cases hcell.symm.trans hw
  | settle hc => exact Flights.grows_settle
  | dropComputing hc => exact Flights.grows_set rfl fun w hw => hw
  | cancel => exact Flights.grows_cancel
  | removeCancel hr => exact Flights.grows_cancel
  | _ => exact Flights.Grows.refl _

theorem run_grows (h : Sound s) {bs : List Action} (hrun : run (step id) s bs = some t) :
    Sound t ∧ s.connecting.Grows t.connecting := by
  have hkeep : ∀ u a v, Sound u ∧ s.connecting.Grows u.connecting → step id u a = some v →
      Sound v ∧ s.connecting.Grows v.connecting := by
    rintro u a v ⟨hu, hgrows⟩ hstep
    exact ⟨sound_step hu (step_inv hstep), hgrows.trans (step_grows hu (step_inv hstep))⟩
  exact run_invariant hkeep ⟨h, Flights.Grows.refl _⟩ hrun

/-- A caller in the flight it joined, or one that was dropped. -/
def Caller.Aboard (x : Caller) (f : ℕ) : Prop := x.flight = some f ∨ x = .dropped

theorem aboard_move {c c' : ℕ} (hcallers : t.callers = Function.update s.callers c x)
    (hx : (s.callers c).Aboard f → x.Aboard f) (h : (s.callers c').Aboard f) :
    (t.callers c').Aboard f := by
  rw [hcallers, Function.update_apply]
  split_ifs with hc
  · exact hx (hc ▸ h)
  · exact h

theorem aboard_step (hstep : Step id s a t) (h : (s.callers c).Aboard f) : (t.callers c).Aboard f := by
  cases hstep with
  | lookup hc hx => exact aboard_move rfl (by simp [hc, Caller.Aboard, Caller.flight]) h
  | join hc => exact aboard_move rfl (by simp [hc, Caller.Aboard, Caller.flight]) h
  | acquire hc hcell hpermit => exact aboard_move rfl (by simp [hc, Caller.Aboard, Caller.flight]) h
  | read hc hcell => exact aboard_move rfl (by simp [hc, Caller.Aboard, Caller.flight]) h
  | @connect c' g result hc =>
    refine aboard_move rfl ?_ h
    cases result <;> simp [hc, Caller.Aboard, Caller.flight, afterConnect]
  | cacheKept hc hkept => exact aboard_move rfl (by simp [hc, Caller.Aboard, Caller.flight]) h
  | cacheInsert hc hinner hcancelled =>
    exact aboard_move rfl (by simp [hc, Caller.Aboard, Caller.flight]) h
  | publish hc => exact aboard_move rfl (by simp [hc, Caller.Aboard, Caller.flight]) h
  | settle hc => exact aboard_move rfl (by simp [hc, Caller.Aboard, Caller.flight]) h
  | dropWaiting hc hc' => exact aboard_move rfl (fun _ => .inr rfl) h
  | dropComputing hc => exact aboard_move rfl (fun _ => .inr rfl) h
  | _ => exact h

/-- At most one caller computes the value of a flight. -/
def OneComputation (s : AppState) : Prop :=
  ∀ c c' f, (s.callers c).computes = some f → (s.callers c').computes = some f → c = c'

/-- A caller that joined a flight returns with the value of that flight and no other, and it
can always get there. -/
def ReceivesOwn (id : String) (s : AppState) : Prop :=
  ∀ c f, s.callers c = .joined f →
    (∀ bs t g v, run (step id) s bs = some t → t.callers c = .returned g v →
      g = f ∧ (t.connecting.flight f).cell = some v) ∧
    ∃ bs t v, run (step id) s bs = some t ∧ t.callers c = .returned f v

/-- A registration ends by a cancellation, or by a caller that settles that very flight. -/
def SettlesOwn (id : String) (s : AppState) : Prop :=
  ∀ a t f, step id s a = some t → s.connecting.registered = some f →
    t.connecting.registered ≠ some f →
    a = .cancel ∨ a = .removeCancel ∨ ∃ c v, a = .settle c ∧ s.callers c = .got f v

/-- After a removal an entry is installed by `insert_connected` or by a flight that was
registered later. -/
def RemovalFinal (id : String) (s : AppState) : Prop :=
  ∀ t bs u a u' e, step id s .removeCancel = some t → run (step id) t bs = some u →
    step id u a = some u' → u.inner ≠ some e → u'.inner = some e →
    (∃ cluster, a = .insertConnected cluster) ∨
    ∃ c f cluster, a = .cacheLazy c ∧ u.callers c = .connected f cluster ∧ s.connecting.next ≤ f

/-- A healthy entry stays cached until it is removed. -/
def KeepsHealthy (id : String) (s : AppState) : Prop :=
  ∀ a t e, step id s a = some t → s.inner = some e → s.unavailable e = false →
    t.inner = some e ∨ t.inner = none ∧ (a = .removeEntry ∨ a = .removeIfSame e)

structure SingleFlighted (id : String) (s : AppState) : Prop where
  oneComputation : OneComputation s
  receivesOwn : ReceivesOwn id s
  settlesOwn : SettlesOwn id s
  removalFinal : RemovalFinal id s
  keepsHealthy : KeepsHealthy id s

theorem Sound.oneComputation (h : Sound s) : OneComputation s := by
  intro c c' f hc hc'
  exact Option.some.inj (((h.fits c).holds f hc).1.symm.trans ((h.fits c').holds f hc').1)

theorem settlesOwn (id : String) (s : AppState) : SettlesOwn id s := by
  intro a t f hstep hreg hne
  cases step_inv hstep with
  | join hc =>
    refine absurd ?_ hne
    show s.connecting.join.2.registered = some f
    rw [Flights.join, hreg]
    exact hreg
  | @settle c g v hc =>
    by_cases hg : g = f
    · subst hg
      exact .inr (.inr ⟨c, v, rfl, hc⟩)
    · refine absurd ?_ hne
      show (s.connecting.settle g).registered = some f
      rw [Flights.settle, if_neg (by rw [hreg]; exact fun h => hg (Option.some.inj h).symm)]
      exact hreg
  | cancel => exact .inl rfl
  | removeCancel hr => exact .inr (.inl rfl)
  | _ => exact absurd hreg hne

theorem Sound.removalFinal (h : Sound s) : RemovalFinal id s := by
  intro t bs u a u' e hremove hrun hstep hne hinner
  have hstops : ∀ f < s.connecting.next, (t.connecting.flight f).cancelled = true ∨
      (t.connecting.flight f).cell ≠ none := by
    cases step_inv hremove with
    | removeCancel hr => exact fun f hf => Flights.cancel_stops h.flights hf
    | kept ha => simp at ha
  have hnext : s.connecting.next ≤ t.connecting.next := (step_grows h (step_inv hremove)).next
  obtain ⟨hu, hgrows⟩ := run_grows (sound_step h (step_inv hremove)) hrun
  cases step_inv hstep with
  | @cacheInsert c f cluster hc hempty hcancelled =>
    refine .inr ⟨c, f, cluster, rfl, hc, ?_⟩
    by_contra hlt
    have hf : f < s.connecting.next := not_le.mp hlt
    rcases hstops f hf with hflag | hcell
    · cases (hgrows.cancelled f (hf.trans_le hnext) hflag).symm.trans hcancelled
    · obtain ⟨v, hv⟩ := Option.ne_none_iff_exists'.mp hcell
      have hempty := ((hu.fits c).holds f (by rw [hc]; rfl)).2
      cases hempty.symm.trans (hgrows.cell f v (hf.trans_le hnext) hv)
  | @insertConnected cluster hwedged => exact .inl ⟨cluster, rfl⟩
  | removeEntry => cases hinner
  | removeIfSame he => cases hinner
  | _ => exact absurd hinner hne

theorem keepsHealthy (id : String) (s : AppState) : KeepsHealthy id s := by
  intro a t e hstep hinner hhealthy
  cases step_inv hstep with
  | cacheInsert hc hempty hcancelled => cases hempty.symm.trans hinner
  | removeEntry => exact .inr ⟨rfl, .inl rfl⟩
  | removeIfSame he =>
    cases he.symm.trans hinner
    exact .inr ⟨rfl, .inr rfl⟩
  | insertConnected hwedged => cases (hwedged e hinner).symm.trans hhealthy
  | _ => exact .inl hinner

section Progress

/-- From here the computing caller can run to the value of its flight, and no other caller has
moved then. -/
def Publishes (id : String) (s : AppState) (c f : ℕ) : Prop :=
  ∃ bs t v, run (step id) s bs = some t ∧ (t.connecting.flight f).cell = some v ∧
    t.callers c = .got f v ∧ ∀ c', c' ≠ c → t.callers c' = s.callers c'

theorem Publishes.of_step (h : Publishes id t c f) (hstep : step id s a = some t)
    (hcallers : ∀ c', c' ≠ c → t.callers c' = s.callers c') : Publishes id s c f := by
  obtain ⟨bs, u, v, hrun, hcell, hgot, hother⟩ := h
  refine ⟨a :: bs, u, v, run_cons_eq_some.mpr ⟨t, hstep, hrun⟩, hcell, hgot, fun c' hc => ?_⟩
  rw [hother c' hc, hcallers c' hc]

theorem setCaller_self (s : AppState) (c : ℕ) (x : Caller) : (s.setCaller c x).callers c = x :=
  Function.update_self ..

theorem setCaller_of_ne (s : AppState) {c c' : ℕ} (x : Caller) (h : c' ≠ c) :
    (s.setCaller c x).callers c' = s.callers c' :=
  Function.update_of_ne h ..

theorem publishes_computed {v : Value} (hc : s.callers c = .computed f v) : Publishes id s c f := by
  have hstep : step id s (.publish c) =
      some ((s.setFlights (s.connecting.publish f v)).setCaller c (.got f v)) := by simp only [step, hc]
  refine ⟨[.publish c], _, v, run_cons_eq_some.mpr ⟨_, hstep, rfl⟩, ?_, setCaller_self ..,
    fun c' hne => ?_⟩
  · show ((s.connecting.publish f v).flight f).cell = some v
    rw [Flights.publish, Flights.flight_set, if_pos rfl]
  · exact setCaller_of_ne _ _ hne

theorem publishes_connected_free {cluster : Cluster} (hc : s.callers c = .connected f cluster)
    (hfree : s.removing = false) : Publishes id s c f := by
  generalize hr : cacheLazy id s cluster (s.connecting.flight f).cancelled = r
  have hcallers : r.2.callers = s.callers := by
    rw [← hr, cacheLazy]
    split
    · rfl
    · split_ifs <;> rfl
  have hstep : step id s (.cacheLazy c) = some (r.2.setCaller c (.computed f r.1)) := by
    simp [step, hc, hfree, hr]
  refine (publishes_computed (setCaller_self ..)).of_step hstep fun c' hne => ?_
  rw [setCaller_of_ne _ _ hne, hcallers]

theorem publishes_connected {cluster : Cluster} (hc : s.callers c = .connected f cluster) :
    Publishes id s c f := by
  cases hfree : s.removing with
  | false => exact publishes_connected_free hc hfree
  | true =>
    have hstep : step id s .removeEntry = some { s with inner := none, removing := false } := by
      simp [step, hfree]
    exact (publishes_connected_free (s := { s with inner := none, removing := false }) hc rfl).of_step
      hstep fun _ _ => rfl

theorem publishes_of_computes (hc : (s.callers c).computes = some f) : Publishes id s c f := by
  cases hx : s.callers c with
  | computing g =>
    rw [hx] at hc
    cases hc
    have hstep : step id s (.connect c (.error "")) = some (s.setCaller c (.computed f (.error ""))) := by
      simp only [step, hx, afterConnect]
    exact (publishes_computed (setCaller_self ..)).of_step hstep fun c' hne => setCaller_of_ne _ _ hne
  | connected g cluster =>
    rw [hx] at hc
    cases hc
    exact publishes_connected hx
  | computed g v =>
    rw [hx] at hc
    cases hc
    exact publishes_computed hx
  | _ =>
    rw [hx] at hc
    cases hc

/-- The caller has a run that ends with its return from the flight. -/
def Returns (id : String) (s : AppState) (c f : ℕ) : Prop :=
  ∃ bs t v, run (step id) s bs = some t ∧ t.callers c = .returned f v

theorem Returns.of_run {bs : List Action} (h : Returns id t c f) (hrun : run (step id) s bs = some t) :
    Returns id s c f := by
  obtain ⟨bs', u, v, hrun', hu⟩ := h
  exact ⟨bs ++ bs', u, v, run_append_eq_some.mpr ⟨t, hrun, hrun'⟩, hu⟩

theorem returns_of_got {v : Value} (hc : s.callers c = .got f v) : Returns id s c f := by
  have hstep : step id s (.settle c) =
      some ((s.setFlights (s.connecting.settle f)).setCaller c (.returned f v)) := by
    simp only [step, hc]
  exact ⟨[.settle c], _, v, run_cons_eq_some.mpr ⟨_, hstep, rfl⟩, setCaller_self ..⟩

/-- A caller whose flight has a value returns with it. -/
theorem returns_of_cell {v : Value} (hc : s.callers c = .joined f)
    (hcell : (s.connecting.flight f).cell = some v) : Returns id s c f := by
  have hstep : step id s (.read c) = some (s.setCaller c (.got f v)) := by
    simp only [step, hc, hcell, Option.map_some]
  have hrun : run (step id) s [.read c] = some (s.setCaller c (.got f v)) :=
    run_cons_eq_some.mpr ⟨_, hstep, rfl⟩
  exact (returns_of_got (setCaller_self ..)).of_run hrun

/-- A caller waits for a value that is there, or for one that another caller computes, or
computes it. -/
theorem Sound.returns (h : Sound s) (hc : s.callers c = .joined f) : Returns id s c f := by
  cases hcell : (s.connecting.flight f).cell with
  | some v => exact returns_of_cell hc hcell
  | none =>
    cases hpermit : (s.connecting.flight f).permit with
    | some c' =>
      have hcomputes := (h.fits c').permit f hpermit
      have hne : c ≠ c' := by
        rintro rfl
        rw [hc] at hcomputes
        cases hcomputes
      have hpublishes : Publishes id s c' f := publishes_of_computes hcomputes
      obtain ⟨bs, t, v, hrun, hcell, -, hother⟩ := hpublishes
      exact (returns_of_cell ((hother c hne).trans hc) hcell).of_run hrun
    | none =>
      have hstep : step id s (.acquire c) =
          some ((s.setFlights (s.connecting.acquire f c)).setCaller c (.computing f)) := by
        simp [step, hc, hcell, hpermit]
      have hpublishes : Publishes id ((s.setFlights (s.connecting.acquire f c)).setCaller c
          (.computing f)) c f := publishes_of_computes (by rw [setCaller_self]; rfl)
      obtain ⟨bs, t, v, hrun, -, hgot, -⟩ := hpublishes
      exact (returns_of_got hgot).of_run (run_cons_eq_some.mpr ⟨_, hstep, hrun⟩)

theorem Sound.receivesOwn (h : Sound s) : ReceivesOwn id s := by
  intro c f hc
  refine ⟨fun bs t g v hrun hreturned => ?_, h.returns hc⟩
  have hkeep : ∀ u a w, (u.callers c).Aboard f → step id u a = some w → (w.callers c).Aboard f :=
    fun _ _ _ hu hstep => aboard_step (step_inv hstep) hu
  have haboard : (t.callers c).Aboard f := run_invariant hkeep (.inl (by rw [hc]; rfl)) hrun
  have ht : Sound t := (run_grows h hrun).1
  rw [hreturned] at haboard
  rcases haboard with hflight | hdropped
  · cases hflight
    exact ⟨rfl, (ht.fits c).took f v (by rw [hreturned]; rfl)⟩
  · cases hdropped

end Progress

/-- In every run of connects, cancellations, removals and insertions for one cluster. -/
theorem single_flight (id : String) (as : List Action) (s : AppState) (h : Reaches id as s) :
    SingleFlighted id s where
  oneComputation := (reaches_sound h).oneComputation
  receivesOwn := (reaches_sound h).receivesOwn
  settlesOwn := settlesOwn id s
  removalFinal := (reaches_sound h).removalFinal
  keepsHealthy := keepsHealthy id s

/-- Two callers share a connect that a removal overtakes, while a third one starts anew. -/
def overtaken : List Action :=
  [.lookup 0, .lookup 1, .join 0, .join 1, .acquire 0, .connect 0 (.ok ⟨none⟩), .removeCancel,
    .removeEntry, .lookup 2, .join 2, .cacheLazy 0, .publish 0, .settle 0]

theorem single_flight_overtaken :
    ∃ s, Reaches "a" overtaken s ∧ s.inner = none ∧ s.connecting.registered = some 1 ∧
      s.callers 0 = .returned 0 (.error "a: disconnected while connecting") ∧
      s.callers 1 = .joined 0 ∧ SingleFlighted "a" s := by
  have hrun : Reaches "a" overtaken ((run (step "a") init overtaken).getD init) := rfl
  exact ⟨_, hrun, rfl, rfl, rfl, rfl, single_flight "a" overtaken _ hrun⟩

end FerrisScope.SingleFlight
