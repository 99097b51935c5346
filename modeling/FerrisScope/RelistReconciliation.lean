import FerrisScope.LabelledRuns
import FerrisScope.WatcherLoop

/-!
# Relists reconcile the cache

A window of the stream runs from an `Init` to the next `InitDone`. The account of a uid is
read off the events of the window: whether the list delivered it, and the row its last
event left. After the `InitDone` the cache is the account, whatever it held before.
-/

namespace FerrisScope.WatcherTask
open KeyedWrites LabelledRuns

variable {ν Obj : Type} [DecidableEq ν]

/-- The task alone, its channel calls set aside. -/
def stepTask (K : KindSpec Obj ν) (t : WatcherTask ν) (i : Input Obj) : Option (WatcherTask ν) :=
  (step K t i).map Prod.fst

/-- Inputs that neither open nor close a window. -/
def Input.inWindow : Input Obj → Bool
  | .event .init _ | .event .initDone _ => false
  | _ => true

structure Account (ν : Type) where
  listed : Bool
  row : Option (RowJson ν)

def Account.enter (K : KindSpec Obj ν) (u : Uid) (a : Account ν) : Input Obj → Account ν
  | .event (.initApply obj) _ => if K.uid obj = some u then ⟨true, some (rowFor K obj u)⟩ else a
  | .event (.apply obj) _ => if K.uid obj = some u then { a with row := some (rowFor K obj u) } else a
  | .event (.delete obj) _ => if K.uid obj = some u then { a with row := none } else a
  | _ => a

def account (K : KindSpec Obj ν) (u : Uid) (window : List (Input Obj)) : Account ν :=
  window.foldl (Account.enter K u) ⟨false, none⟩

/-- The row a uid is left with: none unless the list delivered it. -/
def Account.final (a : Account ν) : Option (RowJson ν) := if a.listed then a.row else none

/-- Inside a window the task has seen exactly the listed uids and holds their rows. -/
structure InWindow (u : Uid) (t : WatcherTask ν) (a : Account ν) : Prop where
  seen : ∃ seen, t.initSeen = some seen ∧ (u ∈ seen ↔ a.listed = true)
  row : a.listed = true → t.cache.lookup u = a.row
  preview : a.listed = true → t.preview = false

theorem inWindow_applyObject {K : KindSpec Obj ν} {u : Uid} {t : WatcherTask ν} {a : Account ν}
    (h : InWindow u t a) (obj : Obj) (iter : List Uid) (isInit : Bool) :
    InWindow u (applyObject K t obj isInit).1
      (a.enter K u (.event (if isInit then .initApply obj else .apply obj) iter)) := by
  obtain ⟨seen, hseen, hmem⟩ := h.seen
  cases ho : K.uid obj with
  | none =>
    rw [applyObject_none ho]
    cases isInit <;> simpa [Account.enter, ho] using h
  | some uid =>
    obtain ⟨row, -, heq⟩ := applyObject_some ho t isInit
    rw [heq]
    by_cases hu : uid = u
    · subst hu
      cases isInit with
      | true => exact ⟨⟨insert uid seen, by simp [hseen], by simp [Account.enter, ho]⟩,
          by simp [Account.enter, ho], by simp⟩
      | false => exact ⟨⟨seen, by simp [hseen], by simpa [Account.enter, ho] using hmem⟩,
          by simp [Account.enter, ho], by simp⟩
    · have hne : u ≠ uid := Ne.symm hu
      have ha : ∀ e : WatchEvent Obj, e = .initApply obj ∨ e = .apply obj →
          a.enter K u (.event e iter) = a := by
        rintro e (rfl | rfl) <;> simp [Account.enter, ho, hu]
      rw [ha _ (by cases isInit <;> simp)]
      refine ⟨?_, fun hl => ?_, fun _ => rfl⟩
      · cases isInit with
        | true => exact ⟨insert uid seen, by simp [hseen], by simpa [hne] using hmem⟩
        | false => exact ⟨seen, by simp [hseen], hmem⟩
      · rw [Finmap.lookup_insert_of_ne _ hne]
        exact h.row hl

theorem inWindow_step {K : KindSpec Obj ν} {u : Uid} {t t' : WatcherTask ν} {a : Account ν}
    {i : Input Obj} (hi : i.inWindow = true) (h : InWindow u t a) (hs : stepTask K t i = some t') :
    InWindow u t' (a.enter K u i) := by
  cases i with
  | event e iter =>
    cases e with
    | init => simp [Input.inWindow] at hi
    | initDone => simp [Input.inWindow] at hi
    | err =>
      cases hs
      exact h
    | apply obj =>
      cases hs
      exact inWindow_applyObject h obj iter false
    | initApply obj =>
      cases hs
      exact inWindow_applyObject h obj iter true
    | delete obj =>
      cases hs
      cases ho : K.uid obj with
      | none => simpa [handleEvent, Account.enter, ho] using h
      | some uid =>
        by_cases hu : uid = u
        · subst hu
          exact ⟨by simpa [handleEvent, Account.enter, ho] using h.seen,
            by simp [handleEvent, Account.enter, ho],
            by simpa [handleEvent, Account.enter, ho] using h.preview⟩
        · refine ⟨by simpa [handleEvent, Account.enter, ho, hu] using h.seen, fun hl => ?_,
            by simpa [handleEvent, Account.enter, ho, hu] using h.preview⟩
          simp only [Account.enter, ho, Option.some.injEq, hu, if_false] at hl ⊢
          simp only [handleEvent, ho, Finmap.lookup_erase_ne (Ne.symm hu)]
          exact h.row hl
  | preview objs =>
    simp only [stepTask, step, Option.map_eq_some_iff, Option.ite_none_right_eq_some,
      Option.some.injEq] at hs
    obtain ⟨r, ⟨hp, rfl⟩, rfl⟩ := hs
    have hl : a.listed = false := by
      cases hl : a.listed with
      | false => rfl
      | true => rw [h.preview hl] at hp; cases hp
    obtain ⟨seen, hseen, hmem⟩ := h.seen
    refine ⟨⟨seen, ?_, hmem⟩, fun ht => ?_, fun ht => ?_⟩
    · rw [applyPreview_frame]
      exact hseen
    · simp [Account.enter, hl] at ht
    · simp [Account.enter, hl] at ht

theorem inWindow_init {K : KindSpec Obj ν} {t t' : WatcherTask ν} {iter : List Uid}
    (hs : stepTask K t (.event .init iter) = some t') (u : Uid) :
    InWindow u t' ⟨false, none⟩ := by
  cases hs
  exact ⟨⟨∅, rfl, by simp⟩, by simp, by simp⟩

/-- The reconcile of an `InitDone` keeps the seen uids when a window is open. -/
theorem lookup_initDone {K : KindSpec Obj ν} {t t' : WatcherTask ν} {iter : List Uid}
    (hs : stepTask K t (.event .initDone iter) = some t') (u : Uid) :
    t'.cache.lookup u = match t.initSeen with
      | none => t.cache.lookup u
      | some seen => if u ∈ seen then t.cache.lookup u else none := by
  simp only [stepTask, step, Option.map_eq_some_iff, Option.ite_none_right_eq_some,
    Option.some.injEq] at hs
  obtain ⟨r, ⟨hi, rfl⟩, rfl⟩ := hs
  cases hseen : t.initSeen with
  | none => simp [handleEvent, reconcileInitSeen, hseen]
  | some seen =>
    simp only [handleEvent, reconcileInitSeen, hseen, lookup_foldl_erase, List.mem_filter,
      hi.mem_iff, Finmap.mem_keys, decide_eq_true_eq]
    by_cases hu : u ∈ seen
    · simp [hu]
    · by_cases hm : u ∈ t.cache
      · simp [hu, hm]
      · simp [hu, Finmap.lookup_eq_none.mpr hm]

/-- The events since the last `Init`, unless an `InitDone` has closed the window. -/
def enterWindow (w : Option (List (Input Obj))) : Input Obj → Option (List (Input Obj))
  | .event .init _ => some []
  | .event .initDone _ => none
  | i => w.map (· ++ [i])

def windowOf (inputs : List (Input Obj)) : Option (List (Input Obj)) :=
  inputs.foldl enterWindow none

theorem enterWindow_inWindow {i : Input Obj} (hi : i.inWindow = true)
    (w : Option (List (Input Obj))) : enterWindow w i = w.map (· ++ [i]) := by
  cases i with
  | preview objs => rfl
  | event e iter => cases e <;> first | rfl | cases hi

/-- Outside a window nothing is being collected; inside, every uid is accounted for. -/
def Tracks (K : KindSpec Obj ν) (t : WatcherTask ν) : Option (List (Input Obj)) → Prop
  | none => t.initSeen = none
  | some window => ∀ u, InWindow u t (account K u window)

theorem initSeen_none_step {K : KindSpec Obj ν} {t t' : WatcherTask ν} {i : Input Obj}
    (hi : i.inWindow = true) (h : t.initSeen = none) (hs : stepTask K t i = some t') :
    t'.initSeen = none := by
  have happly : ∀ (obj : Obj) (isInit : Bool), (applyObject K t obj isInit).1.initSeen = none := by
    intro obj isInit
    cases ho : K.uid obj with
    | none => rwa [applyObject_none ho]
    | some uid =>
      obtain ⟨row, -, heq⟩ := applyObject_some ho t isInit
      simp [heq, h]
  cases i with
  | preview objs =>
    simp only [stepTask, step, Option.map_eq_some_iff, Option.ite_none_right_eq_some,
      Option.some.injEq] at hs
    obtain ⟨r, ⟨-, rfl⟩, rfl⟩ := hs
    rw [applyPreview_frame]
    exact h
  | event e iter =>
    cases e with
    | init => cases hi
    | initDone => cases hi
    | err =>
      cases hs
      exact h
    | apply obj =>
      cases hs
      exact happly obj false
    | initApply obj =>
      cases hs
      exact happly obj true
    | delete obj =>
      cases hs
      cases ho : K.uid obj <;> simpa [handleEvent, ho] using h

theorem tracks_step {K : KindSpec Obj ν} {t t' : WatcherTask ν} {i : Input Obj}
    {w : Option (List (Input Obj))} (h : Tracks K t w) (hs : stepTask K t i = some t') :
    Tracks K t' (enterWindow w i) := by
  cases hi : i.inWindow with
  | true =>
    rw [enterWindow_inWindow hi]
    cases w with
    | none => exact initSeen_none_step hi h hs
    | some window =>
      intro u
      simpa [account] using inWindow_step hi (h u) hs
  | false =>
    cases i with
    | preview objs => cases hi
    | event e iter =>
      cases e with
      | init => exact inWindow_init hs
      | initDone =>
        simp only [stepTask, step, Option.map_eq_some_iff, Option.ite_none_right_eq_some,
          Option.some.injEq] at hs
        obtain ⟨r, ⟨-, rfl⟩, rfl⟩ := hs
        cases ht : t.initSeen <;> simp [enterWindow, Tracks, handleEvent, reconcileInitSeen, ht]
      | _ => cases hi

theorem tracks_run {K : KindSpec Obj ν} {inputs : List (Input Obj)} {t : WatcherTask ν}
    (hr : run (stepTask K) start inputs = some t) : Tracks K t (windowOf inputs) := by
  induction inputs using List.reverseRecOn generalizing t with
  | nil =>
    cases hr
    rfl
  | append_singleton inputs i ih =>
    obtain ⟨s, hs, hlast⟩ := run_append_eq_some.mp hr
    obtain ⟨t', ht', hnil⟩ := run_cons_eq_some.mp hlast
    cases hnil
    rw [windowOf, List.foldl_append]
    exact tracks_step (ih hs) ht'

/-- The input is an event about `u`. -/
def Input.Names (K : KindSpec Obj ν) (u : Uid) : Input Obj → Prop
  | .event (.initApply obj) _ | .event (.apply obj) _ | .event (.delete obj) _ => K.uid obj = some u
  | _ => False

omit [DecidableEq ν] in
theorem enter_of_not_names {K : KindSpec Obj ν} {u : Uid} {i : Input Obj} (h : ¬ i.Names K u)
    (a : Account ν) : a.enter K u i = a := by
  cases i with
  | preview objs => rfl
  | event e iter => cases e <;> simp_all [Input.Names, Account.enter]

omit [DecidableEq ν] in
theorem foldl_enter_of_not_names {K : KindSpec Obj ν} {u : Uid} {inputs : List (Input Obj)}
    (h : ∀ i ∈ inputs, ¬ i.Names K u) (a : Account ν) :
    inputs.foldl (Account.enter K u) a = a := by
  induction inputs generalizing a with
  | nil => rfl
  | cons i inputs ih =>
    rw [List.foldl_cons, enter_of_not_names (h i (by simp))]
    exact ih (fun j hj => h j (by simp [hj])) a

/-- The cache after the `InitDone` that closes a window: for every uid its account; so
nothing for a uid the window did not list, and the row of the last `InitApply` of a uid
that no later event of the window names. -/
structure Reconciled (K : KindSpec Obj ν) (window : List (Input Obj)) (t : WatcherTask ν) :
    Prop where
  rows : ∀ u, t.cache.lookup u = (account K u window).final
  unlisted : ∀ u, (∀ obj iter, .event (.initApply obj) iter ∈ window → K.uid obj ≠ some u) →
    t.cache.lookup u = none
  listed : ∀ u pre obj iter post, window = pre ++ .event (.initApply obj) iter :: post →
    K.uid obj = some u → (∀ i ∈ post, ¬ i.Names K u) → t.cache.lookup u = some (rowFor K obj u)

omit [DecidableEq ν] in
theorem listed_eq_false {K : KindSpec Obj ν} {u : Uid} {window : List (Input Obj)}
    (h : ∀ obj iter, .event (.initApply obj) iter ∈ window → K.uid obj ≠ some u) (a : Account ν)
    (ha : a.listed = false) : (window.foldl (Account.enter K u) a).listed = false := by
  induction window generalizing a with
  | nil => exact ha
  | cons i window ih =>
    refine ih (fun obj iter hm => h obj iter (by simp [hm])) _ ?_
    cases i with
    | preview objs => exact ha
    | event e iter =>
      cases e with
      | initApply obj => simpa [Account.enter, h obj iter (by simp)] using ha
      | apply obj => by_cases ho : K.uid obj = some u <;> simpa [Account.enter, ho] using ha
      | delete obj => by_cases ho : K.uid obj = some u <;> simpa [Account.enter, ho] using ha
      | _ => exact ha

omit [DecidableEq ν] in
theorem reconciled_of_rows {K : KindSpec Obj ν} {window : List (Input Obj)} {t : WatcherTask ν}
    (h : ∀ u, t.cache.lookup u = (account K u window).final) : Reconciled K window t := by
  refine ⟨h, fun u hu => ?_, fun u pre obj iter post hw ho hpost => ?_⟩
  · rw [h, Account.final, account, listed_eq_false hu _ rfl]
    rfl
  · rw [h, hw, account, List.foldl_append, List.foldl_cons, foldl_enter_of_not_names hpost]
    simp [Account.enter, ho, Account.final]

/-- Every `InitDone` of every run: with a window open it leaves the cache reconciled with
that window, and without one it leaves the cache as it was. -/
theorem initDone_reconciles {K : KindSpec Obj ν} {inputs : List (Input Obj)} {iter : List Uid}
    {t : WatcherTask ν} (hr : run (stepTask K) start (inputs ++ [.event .initDone iter]) = some t) :
    ∃ before, run (stepTask K) start inputs = some before ∧
      match windowOf inputs with
      | none => t.cache = before.cache
      | some window => Reconciled K window t := by
  obtain ⟨before, hb, hlast⟩ := run_append_eq_some.mp hr
  obtain ⟨t', hs, hnil⟩ := run_cons_eq_some.mp hlast
  cases hnil
  refine ⟨before, hb, ?_⟩
  have htracks := tracks_run hb
  cases hw : windowOf inputs with
  | none =>
    rw [hw] at htracks
    apply table_ext
    funext u
    rw [lookup_initDone hs, show before.initSeen = none from htracks]
  | some window =>
    rw [hw] at htracks
    apply reconciled_of_rows
    intro u
    obtain ⟨⟨seen, hseen, hmem⟩, hrow, -⟩ := htracks u
    rw [lookup_initDone hs, hseen, Account.final]
    by_cases hu : u ∈ seen
    · simp only [hu, if_true, hmem.mp hu]
      exact hrow (hmem.mp hu)
    · have hl : (account K u window).listed = false := by
        simpa using fun hl => hu (hmem.mpr hl)
      simp [hu, hl]

/-- A preview row is dropped, an aborted window forgotten and the second list kept. -/
theorem initDone_reconciles_restarted :
    ∃ t, run (stepTask sampleKind) start ([.preview [("ghost", 1)], .event .init [],
        .event (.initApply ("a", 1)) [], .event .init [], .event (.initApply ("b", 2)) []] ++
        [.event .initDone ["ghost", "a", "b"]]) = some t ∧
      t.cache.lookup "b" = some (rowFor sampleKind ("b", 2) "b") ∧
      t.cache.lookup "a" = none ∧ t.cache.lookup "ghost" = none := by
  obtain ⟨t, ht⟩ : ∃ t, run (stepTask sampleKind) start ([.preview [("ghost", 1)], .event .init [],
      .event (.initApply ("a", 1)) [], .event .init [], .event (.initApply ("b", 2)) []] ++
      [.event .initDone ["ghost", "a", "b"]]) = some t := ⟨_, rfl⟩
  obtain ⟨before, -, hrec⟩ := initDone_reconciles ht
  have hb : Reconciled sampleKind [.event (.initApply ("b", 2)) []] t := hrec
  exact ⟨t, ht, hb.listed "b" [] ("b", 2) [] [] rfl rfl (by simp),
    hb.unlisted "a" (by simp [sampleKind]), hb.unlisted "ghost" (by simp [sampleKind])⟩

/-- Inside a window a `Delete` removes a listed row and an `Apply` replaces it; an `InitDone`
with no window open keeps a row that the last list did not deliver. -/
theorem initDone_after_live_events :
    (∃ t, run (stepTask sampleKind) start [.event .init [], .event (.initApply ("a", 1)) [],
        .event (.delete ("a", 1)) [], .event .initDone []] = some t ∧
      t.cache.lookup "a" = none) ∧
    (∃ t, run (stepTask sampleKind) start [.event .init [], .event (.initApply ("a", 1)) [],
        .event (.apply ("a", 2)) [], .event .initDone ["a"]] = some t ∧
      t.cache.lookup "a" = some (rowFor sampleKind ("a", 2) "a") ∧
      t.cache.lookup "a" ≠ some (rowFor sampleKind ("a", 1) "a")) ∧
    ∃ t, run (stepTask sampleKind) start [.event .init [], .event .initDone [],
        .event (.apply ("b", 1)) [], .event .initDone ["b"]] = some t ∧
      t.cache.lookup "b" = some (rowFor sampleKind ("b", 1) "b") :=
  ⟨⟨_, rfl, by decide⟩, ⟨_, rfl, by decide, by decide⟩, ⟨_, rfl, by decide⟩⟩

end FerrisScope.WatcherTask
