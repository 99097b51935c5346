import Mathlib.Data.Option.Basic
import Mathlib.Data.List.Basic
import Mathlib.Data.List.Forall2

/-!
# Runs of partial labelled transition functions

A system is a step function that is undefined where an action is not enabled. A run
executes a list of actions. The rules below turn what one step preserves into what every
run preserves, also when each step of the run meets a condition on the state before it.
-/

namespace FerrisScope.LabelledRuns

variable {σ α : Type*} {step : σ → α → Option σ}

/-- Execute a list of actions. The run is undefined once an action is not enabled. -/
def run (step : σ → α → Option σ) : σ → List α → Option σ
  | s, [] => some s
  | s, a :: as => (step s a).bind (run step · as)

@[simp] theorem run_nil (s : σ) : run step s [] = some s := rfl

theorem run_cons_eq_some {s t : σ} {a : α} {as : List α} :
    run step s (a :: as) = some t ↔ ∃ u, step s a = some u ∧ run step u as = some t := by
  simp [run, Option.bind_eq_some_iff]

theorem run_append_eq_some {s t : σ} {as bs : List α} :
    run step s (as ++ bs) = some t ↔ ∃ u, run step s as = some u ∧ run step u bs = some t := by
  induction as generalizing s with
  | nil => simp
  | cons a as ih =>
    rw [List.cons_append, run_cons_eq_some]
    constructor
    · rintro ⟨u, hu, h⟩
      obtain ⟨v, hv, ht⟩ := ih.mp h
      exact ⟨v, run_cons_eq_some.mpr ⟨u, hu, hv⟩, ht⟩
    · rintro ⟨v, hv, ht⟩
      obtain ⟨u, hu, h⟩ := run_cons_eq_some.mp hv
      exact ⟨u, hu, ih.mpr ⟨v, h, ht⟩⟩

/-- Every step of the run meets `C`, a condition on the state before the step. -/
def Meets (step : σ → α → Option σ) (C : σ → α → Prop) : σ → List α → Prop
  | _, [] => True
  | s, a :: as => C s a ∧ ∀ t, step s a = some t → Meets step C t as

instance decidableMeets {C : σ → α → Prop} [∀ s a, Decidable (C s a)] :
    (s : σ) → (as : List α) → Decidable (Meets step C s as)
  | _, [] => .isTrue trivial
  | s, a :: as =>
    match h : step s a with
    | none => decidable_of_iff (C s a) (by simp [Meets, h])
    | some t =>
      have := decidableMeets (C := C) t as
      decidable_of_iff (C s a ∧ Meets step C t as) (by simp [Meets, h])

theorem meets_append {C : σ → α → Prop} {s : σ} {as bs : List α} :
    Meets step C s (as ++ bs) ↔
      Meets step C s as ∧ ∀ u, run step s as = some u → Meets step C u bs := by
  induction as generalizing s with
  | nil => simp [Meets]
  | cons a as ih =>
    simp only [List.cons_append, Meets, ih, run_cons_eq_some]
    constructor
    · rintro ⟨hc, hrest⟩
      exact ⟨⟨hc, fun t ht => (hrest t ht).1⟩, fun u ⟨t, ht, hu⟩ => (hrest t ht).2 u hu⟩
    · rintro ⟨⟨hc, hfst⟩, hsnd⟩
      exact ⟨hc, fun t ht => ⟨hfst t ht, fun u hu => hsnd u ⟨t, ht, hu⟩⟩⟩

/-- The condition at every split of the run. -/
theorem meets_of_forall_split {C : σ → α → Prop} {s : σ} {as : List α}
    (h : ∀ pre a post t, as = pre ++ a :: post → run step s pre = some t → C t a) : Meets step C s as := by
  induction as generalizing s with
  | nil => trivial
  | cons a as ih =>
    refine ⟨h [] a as s rfl rfl, fun t ht => ih fun pre b post u has hu => ?_⟩
    exact h (a :: pre) b post u (by rw [has, List.cons_append]) (run_cons_eq_some.mpr ⟨t, ht, hu⟩)

theorem meets_of_forall {C : σ → α → Prop} {as : List α} (h : ∀ s, ∀ a ∈ as, C s a) (s : σ) :
    Meets step C s as := by
  induction as generalizing s with
  | nil => trivial
  | cons a as ih =>
    exact ⟨h s a List.mem_cons_self, fun t _ => ih (fun s b hb => h s b (List.mem_cons_of_mem a hb)) t⟩

/-- Where a step is defined exactly under `C`, a run is defined exactly when all its steps meet `C`. -/
theorem run_isSome_iff_meets {C : σ → α → Prop} (hstep : ∀ s a, (step s a).isSome = true ↔ C s a) {s : σ} {as : List α} :
    (run step s as).isSome = true ↔ Meets step C s as := by
  induction as generalizing s with
  | nil => exact iff_of_true rfl trivial
  | cons a as ih =>
    constructor
    · intro h
      obtain ⟨t, ht⟩ := Option.isSome_iff_exists.mp h
      obtain ⟨u, hu, hrest⟩ := run_cons_eq_some.mp ht
      refine ⟨(hstep s a).mp (by rw [hu]; rfl), fun v hv => ?_⟩
      obtain rfl := Option.some_inj.mp (hu.symm.trans hv)
      exact ih.mp (by rw [hrest]; rfl)
    · rintro ⟨hc, hrest⟩
      obtain ⟨u, hu⟩ := Option.isSome_iff_exists.mp ((hstep s a).mpr hc)
      rw [run, hu, Option.bind_some]
      exact ih.mpr (hrest u hu)

/-- What every step under `C` preserves, every run whose steps all meet `C` preserves. -/
theorem run_invariant_meets {C : σ → α → Prop} {Inv : σ → Prop}
    (hstep : ∀ s a t, C s a → Inv s → step s a = some t → Inv t)
    {s t : σ} {as : List α} (hm : Meets step C s as) (hs : Inv s)
    (h : run step s as = some t) : Inv t := by
  induction as generalizing s with
  | nil =>
    cases h
    exact hs
  | cons a as ih =>
    obtain ⟨u, hu, hr⟩ := run_cons_eq_some.mp h
    exact ih (hm.2 u hu) (hstep s a u hm.1 hs hu) hr

/-- What every step preserves, every run preserves. -/
theorem run_invariant {Inv : σ → Prop} (hstep : ∀ s a t, Inv s → step s a = some t → Inv t)
    {s t : σ} {as : List α} (hs : Inv s) (h : run step s as = some t) : Inv t := by
  induction as generalizing s with
  | nil =>
    cases h
    exact hs
  | cons a as ih =>
    obtain ⟨u, hu, hr⟩ := run_cons_eq_some.mp h
    exact ih (hstep s a u hs hu) hr

/-- Where each step keeps `P` exactly under `C`, a run has `P` at every prefix exactly when all its
steps meet `C`. -/
theorem forall_prefix_iff_meets {C : σ → α → Prop} {Inv P : σ → Prop}
    (hinv : ∀ s a t, Inv s → step s a = some t → Inv t)
    (hstep : ∀ s a t, Inv s → P s → step s a = some t → (P t ↔ C s a))
    {s t : σ} {as : List α} (hs : Inv s) (hp : P s) (h : run step s as = some t) :
    (∀ pre post u, as = pre ++ post → run step s pre = some u → P u) ↔ Meets step C s as := by
  induction as generalizing s with
  | nil =>
    refine iff_of_true (fun pre post u happ hu => ?_) trivial
    obtain ⟨rfl, -⟩ := List.append_eq_nil_iff.mp happ.symm
    cases hu
    exact hp
  | cons a as ih =>
    obtain ⟨u, hu, hr⟩ := run_cons_eq_some.mp h
    have hiff := hstep s a u hs hp hu
    constructor
    · intro hall
      have hpu : P u := hall [a] as u rfl (run_cons_eq_some.mpr ⟨u, hu, rfl⟩)
      refine ⟨hiff.mp hpu, fun v hv => ?_⟩
      obtain rfl : u = v := Option.some.inj (hu.symm.trans hv)
      refine (ih (hinv s a u hs hu) hpu hr).mp fun pre post w happ hw => ?_
      exact hall (a :: pre) post w (by rw [happ, List.cons_append]) (run_cons_eq_some.mpr ⟨u, hu, hw⟩)
    · rintro ⟨hc, hrest⟩ pre post w happ hw
      have hpu : P u := hiff.mpr hc
      cases pre with
      | nil =>
        cases hw
        exact hp
      | cons b pre =>
        obtain ⟨rfl, htail⟩ := List.cons.inj happ
        obtain ⟨v, hv, hw⟩ := run_cons_eq_some.mp hw
        obtain rfl : u = v := Option.some.inj (hu.symm.trans hv)
        exact (ih (hinv s a u hs hu) hpu hr).mpr (hrest u hu) pre post w htail hw

/-- Two runs whose actions have the same effect one by one, under a condition that both meet. -/
theorem run_eq_of_steps_eq {C : σ → α → Prop} {Q : α → α → Prop}
    (hstep : ∀ s a b, C s a → C s b → Q a b → step s a = step s b) {s : σ} {as bs : List α}
    (hq : List.Forall₂ Q as bs) (ha : Meets step C s as) (hb : Meets step C s bs) : run step s as = run step s bs := by
  induction hq generalizing s with
  | nil => rfl
  | cons hab _ ih =>
    have hsame := hstep s _ _ ha.1 hb.1 hab
    rw [run, run, hsame]
    refine Option.bind_congr fun t ht => ?_
    exact ih (ha.2 t (hsame.trans ht)) (hb.2 t ht)

/-- Two systems in lockstep: related states stay related under related actions. -/
theorem run_lockstep {τ β : Type*} {step' : τ → β → Option τ} {R : σ → τ → Prop} {Q : α → β → Prop}
    (hstep : ∀ s t a b s' t', R s t → Q a b → step s a = some s' → step' t b = some t' → R s' t')
    {s s' : σ} {t t' : τ} {as : List α} {bs : List β} (hq : List.Forall₂ Q as bs) (hr : R s t)
    (hs : run step s as = some s') (ht : run step' t bs = some t') : R s' t' := by
  induction hq generalizing s t with
  | nil =>
    cases hs
    cases ht
    exact hr
  | cons hab _ ih =>
    obtain ⟨u, hu, hs'⟩ := run_cons_eq_some.mp hs
    obtain ⟨v, hv, ht'⟩ := run_cons_eq_some.mp ht
    exact ih (hstep _ _ _ _ _ _ hr hab hu hv) hs' ht'

end FerrisScope.LabelledRuns
