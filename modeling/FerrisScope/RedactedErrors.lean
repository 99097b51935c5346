import FerrisScope.ChatTurns

/-!
# Provider errors in the transcript

The text of a failed provider call is written into the transcript when the turn ends with it. Two
exits write the text as it is: when the recoveries from an overflow are used up, and when the retries of
a transient failure are. All others redact it. Two runs that fail with the same texts up to secrets
store the same transcripts when neither ends at one of the two exits with a secret, and the failures
are sorted alike.
-/

namespace FerrisScope.RedactedErrors
open ChatMessages ProviderErrors ChatTurns LabelledRuns

/-- The same steps, up to the secrets in the errors of the provider. -/
inductive SameUpToSecrets : Action → Action → Prop
  | same (a : Action) : SameUpToSecrets a a
  | failed {e e' : ProviderError} (h : redactSecrets (display e) = redactSecrets (display e')) :
      SameUpToSecrets (.fail e) (.fail e')

/-- Errors at the same place are of the same class. -/
def SortedAlike : Action → Action → Prop
  | .fail e, .fail e' => classOf e = classOf e'
  | _, _ => True

/-- The error is the last one that the turn takes of its class. -/
def exhausts (turn : Turn) (e : ProviderError) : Bool :=
  match turn with
  | .running _ b =>
    classOf e = .overflow && decide (maxOverflowRecoveries ≤ b.overflowRecoveries) ||
      classOf e = .transient && decide (maxTransientRetries ≤ b.transientRetries)
  | _ => false

/-- An error that exhausts the recoveries or the retries has no secrets. -/
def Plain (s : State) : Action → Prop
  | .fail e => exhausts s.turn e = true → redactSecrets (display e) = display e
  | _ => True

instance (s : State) : (a : Action) → Decidable (Plain s a)
  | .fail e => inferInstanceAs (Decidable (exhausts s.turn e = true → redactSecrets (display e) = display e))
  | .send _ _ | .logSend _ _ | .spawn | .compact | .summarise _ _ | .mend | .autocontinue | .note _ | .startRound
  | .autoCompact _ | .forceCompact | .mendOwn | .snapshot | .reply _ _ | .logReply _ | .place | .runTools _ _ | .record
  | .logNotice _ | .pushNotice | .finish => .isTrue trivial

/-- Errors that are the same up to secrets leave the same behind. -/
theorem takeFailure_congr (s : State) (pc : Pc) (b : Budget) {e e' : ProviderError}
    (hshown : redactSecrets (display e) = redactSecrets (display e')) (hclass : classOf e = classOf e')
    (he : exhausts (.running pc b) e = true → redactSecrets (display e) = display e)
    (he' : exhausts (.running pc b) e' = true → redactSecrets (display e') = display e') :
    takeFailure s b e = takeFailure s b e' := by
  have htext (hexhausts : exhausts (.running pc b) e = true) : display e = display e' := by
    have hsame : exhausts (.running pc b) e' = exhausts (.running pc b) e := by rw [exhausts, exhausts, hclass]
    rw [← he hexhausts, hshown, he' (hsame.trans hexhausts)]
  unfold takeFailure
  rw [← hclass]
  cases hc : classOf e with
  | cancelled => rfl
  | usageLimited reason =>
    dsimp only
    rw [hshown]
  | overflow =>
    dsimp only
    split
    · rename_i hlast
      rw [htext (by simp [exhausts, hc, hlast])]
    · rfl
  | transient =>
    dsimp only
    split
    · rename_i hlast
      rw [htext (by simp [exhausts, hc, hlast])]
    · rfl
  | other =>
    dsimp only
    rw [hshown]

theorem step_congr (s : State) (a a' : Action) (ha : Plain s a) (ha' : Plain s a')
    (hsame : SameUpToSecrets a a' ∧ SortedAlike a a') : step s a = step s a' := by
  obtain ⟨hsame, hsorted⟩ := hsame
  cases hsame with
  | same => rfl
  | @failed e e' hshown =>
    simp only [step]
    split
    · rename_i request preRoundCount b hturn
      rw [Plain, hturn] at ha ha'
      rw [takeFailure_congr s _ b hshown hsorted ha ha']
    · rfl

/-- Runs with the same steps up to secrets store the same transcript, in memory and in the log, if their
errors are sorted alike and no error that exhausts the recoveries or the retries has a secret. -/
theorem stored_alike (start s s' : State) (acts acts' : List Action) (hsame : List.Forall₂ SameUpToSecrets acts acts')
    (hsorted : List.Forall₂ SortedAlike acts acts') (hplain : Meets step Plain start acts)
    (hplain' : Meets step Plain start acts') (hrun : run step start acts = some s)
    (hrun' : run step start acts' = some s') : s.messages = s'.messages ∧ s.log = s'.log := by
  have hboth : List.Forall₂ (fun a a' => SameUpToSecrets a a' ∧ SortedAlike a a') acts acts' :=
    List.Forall₂.mp (fun _ _ h h' => ⟨h, h'⟩) hsame hsorted
  have heq := run_eq_of_steps_eq step_congr hboth hplain hplain'
  rw [hrun, hrun'] at heq
  cases heq
  exact ⟨rfl, rfl⟩

/-- A request that is too long three times, and the notice of it. -/
def tooLong (e : ProviderError) : List Action :=
  [.send "hi" [], .logSend 0 1, .spawn, .startRound, .autoCompact 90, .snapshot, .fail e, .forceCompact, .startRound,
    .autoCompact 90, .snapshot, .fail e, .forceCompact, .startRound, .autoCompact 90, .snapshot, .fail e, .logNotice 2,
    .pushNotice]

/-- A failure that is not tried again. -/
def rejected (e : ProviderError) : List Action :=
  [.send "hi" [], .logSend 0 1, .spawn, .startRound, .autoCompact 90, .snapshot, .fail e, .logNotice 2, .pushNotice,
    .finish]

def badRequest (body : String) : ProviderError := .http (some 400) body.toList

def rejectedChat (e : ProviderError) : State := (run step emptyChat (rejected e)).getD emptyChat

theorem rejected_same {e e' : ProviderError} (h : redactSecrets (display e) = redactSecrets (display e')) :
    List.Forall₂ SameUpToSecrets (rejected e) (rejected e') := by
  simp only [rejected, List.forall₂_cons, List.forall₂_nil_left_iff]
  exact ⟨.same _, .same _, .same _, .same _, .same _, .same _, .failed h, .same _, .same _, .same _, trivial⟩

theorem run_rejected {e : ProviderError} (h : (run step emptyChat (rejected e)).isSome = true) :
    run step emptyChat (rejected e) = some (rejectedChat e) := by
  obtain ⟨s, hs⟩ := Option.isSome_iff_exists.mp h
  rw [rejectedChat, hs, Option.getD_some]

theorem rejected_stored_alike :
    run step emptyChat (rejected (badRequest "key=abc")) = some (rejectedChat (badRequest "key=abc")) ∧
    run step emptyChat (rejected (badRequest "key=xyz")) = some (rejectedChat (badRequest "key=xyz")) ∧
    (rejectedChat (badRequest "key=abc")).messages = (rejectedChat (badRequest "key=xyz")).messages ∧
    (rejectedChat (badRequest "key=abc")).log = (rejectedChat (badRequest "key=xyz")).log := by
  have hrun : run step emptyChat (rejected (badRequest "key=abc")) =
      some (rejectedChat (badRequest "key=abc")) := run_rejected (by decide +kernel)
  have hrun' : run step emptyChat (rejected (badRequest "key=xyz")) =
      some (rejectedChat (badRequest "key=xyz")) := run_rejected (by decide +kernel)
  have hclass : classOf (badRequest "key=abc") = classOf (badRequest "key=xyz") := by decide +kernel
  have hsorted : List.Forall₂ SortedAlike (rejected (badRequest "key=abc"))
      (rejected (badRequest "key=xyz")) := by
    simp only [rejected, List.forall₂_cons, List.forall₂_nil_left_iff]
    exact ⟨trivial, trivial, trivial, trivial, trivial, trivial, hclass, trivial, trivial, trivial, trivial⟩
  exact ⟨hrun, hrun', stored_alike emptyChat _ _ _ _ (rejected_same (by decide +kernel)) hsorted (by decide +kernel)
    (by decide +kernel) hrun hrun'⟩

/-- The key in the error of the last try is stored. -/
theorem exhausted_recoveries_store_secrets :
    ¬∀ start acts acts' s s', List.Forall₂ SameUpToSecrets acts acts' → run step start acts = some s →
      run step start acts' = some s' → s.messages = s'.messages ∧ s.log = s'.log := by
  intro h
  have hshown : redactSecrets (display (badRequest "context length, key=abc")) =
      redactSecrets (display (badRequest "context length, key=xyz")) := by decide +kernel
  have hsame : List.Forall₂ SameUpToSecrets (tooLong (badRequest "context length, key=abc"))
      (tooLong (badRequest "context length, key=xyz")) := by
    simp only [tooLong, List.forall₂_cons, List.forall₂_nil_left_iff]
    exact ⟨.same _, .same _, .same _, .same _, .same _, .same _, .failed hshown, .same _, .same _, .same _, .same _,
      .failed hshown, .same _, .same _, .same _, .same _, .failed hshown, .same _, .same _, trivial⟩
  have hends : ((run step emptyChat (tooLong (badRequest "context length, key=abc"))).bind fun s =>
      (run step emptyChat (tooLong (badRequest "context length, key=xyz"))).map fun s' =>
        decide (s.messages = s'.messages)) = some false := by decide +kernel
  obtain ⟨s, hrun, hrest⟩ := Option.bind_eq_some_iff.mp hends
  obtain ⟨s', hrun', hdiffers⟩ := Option.map_eq_some_iff.mp hrest
  exact of_decide_eq_false hdiffers (h emptyChat _ _ s s' hsame hrun hrun').1

/-- The sorting also reads what the redaction takes out. -/
example : redactSecrets (display (badRequest "key=insufficient_quota")) = redactSecrets (display (badRequest "key=abc")) ∧
    classOf (badRequest "key=insufficient_quota") ≠ classOf (badRequest "key=abc") := by decide +kernel

end FerrisScope.RedactedErrors
