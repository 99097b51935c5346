import FerrisScope.FallibleActions
import FerrisScope.HostsFile

/-!
# The deletion of an application

The cascade policy of an application is one of its finalizers. It is changed with a patch, then the application is
deleted, and when that fails the finalizers that were read are put back. Other writers may change the application
between any two of these requests.
-/

namespace FerrisScope.ApplicationDeletion
open HostsFile FallibleActions

inductive AppCascade | foreground | background | nonCascading
deriving DecidableEq

def finalizer : Text := "resources-finalizer.argocd.argoproj.io".toList
def finalizerForeground : Text := "resources-finalizer.argocd.argoproj.io/foreground".toList
def finalizerBackground : Text := "resources-finalizer.argocd.argoproj.io/background".toList

def isPolicy (f : Text) : Bool := f = finalizer || f = finalizerForeground || f = finalizerBackground

def wanted : AppCascade → Option Text
  | .foreground => some finalizerForeground
  | .background => some finalizerBackground
  | .nonCascading => none

/-- The finalizers for a cascade, if they change. -/
def cascadeFinalizers (current : List Text) (cascade : AppCascade) : Option (List Text) :=
  match wanted cascade with
  | some f => if current.any isPolicy then none else some (current ++ [f])
  | none => if current.any isPolicy then some (current.filter fun c => !isPolicy c) else none

/-- An object that is being deleted takes no finalizers. -/
def finalizerChange (current : List Text) (cascade : AppCascade) (deleting : Bool) : Option (List Text) :=
  (cascadeFinalizers current cascade).filter fun next => !deleting || next.length < current.length

/-! ## The cluster -/

/-- An application, with everything about it that the deletion does not look at. -/
structure App (ρ : Type) where
  finalizers : List Text
  deleting : Bool
  generation : Option ℤ
  rest : ρ

/-- The application that is stored, the number of writes to it, and the writes of this call. -/
structure Cluster (ρ : Type) where
  object : Option (App ρ)
  resourceVersion : ℕ
  log : List (App ρ × App ρ)

inductive ApiError | status (code : ℕ) | transport
deriving DecidableEq

/-- How a request ends when nothing speaks against it: it is done, it is refused, or its answer is lost. -/
inductive Reply | done | refused (code : ℕ) | lost (applied : Bool)

inductive MergePatchResult | applied | stale
deriving DecidableEq

inductive Origin | get | patch | delete
deriving DecidableEq

inductive OpError | blocked (message : Text) | fetch (origin : Origin) (e : ApiError)
deriving DecidableEq

/-- What another writer does. -/
abbrev Writer (ρ : Type) := Option (App ρ) → Option (App ρ)

/-- The other writers between the requests, and how the requests end. -/
structure Env (ρ : Type) where
  display : ApiError → Text
  beforePatch : List (Writer ρ)
  beforeDelete : List (Writer ρ)
  beforeRestore : List (Writer ρ)
  getReply : Option ApiError
  patchReply : Reply
  deleteReply : Reply
  restoreReply : Reply

variable {ρ : Type}

def Cluster.write (c : Cluster ρ) (o : Option (App ρ)) : Cluster ρ :=
  { c with object := o, resourceVersion := c.resourceVersion + 1 }

def interfere (ws : List (Writer ρ)) (c : Cluster ρ) : Cluster ρ := ws.foldl (fun c w => c.write (w c.object)) c

/-- The application with other finalizers. It goes away when it is being deleted and has none left. -/
def patched (o : App ρ) (next : List Text) : Option (App ρ) :=
  if o.deleting && next.isEmpty then none else some { o with finalizers := next }

def applyPatch (c : Cluster ρ) (o : App ρ) (next : List Text) : Cluster ρ :=
  { c.write (patched o next) with log := c.log ++ [(o, { o with finalizers := next })] }

/-- The server compares the version, if one is given, and lets no finalizer be added to what is being deleted. -/
def servePatch (reply : Reply) (next : List Text) (resourceVersion : Option ℕ) (c : Cluster ρ) :
    Except ApiError Unit × Cluster ρ :=
  match c.object with
  | none => (.error (.status 404), c)
  | some o =>
    if resourceVersion.any fun v => v ≠ c.resourceVersion then (.error (.status 409), c)
    else if o.deleting && !next.all (fun f => f ∈ o.finalizers) then (.error (.status 422), c)
    else
      match reply with
      | .done => (.ok (), applyPatch c o next)
      | .refused code => (.error (.status code), c)
      | .lost applied => (.error .transport, if applied then applyPatch c o next else c)

def isStaleConflict (code : ℕ) (hadResourceVersion : Bool) : Bool := code = 409 && hadResourceVersion

def mergePatchResource (reply : Reply) (next : List Text) (resourceVersion : Option ℕ) :
    Action (Cluster ρ) ApiError MergePatchResult := fun c =>
  match servePatch reply next resourceVersion c with
  | (.ok (), c') => (.ok .applied, c')
  | (.error (.status code), c') =>
    (if isStaleConflict code resourceVersion.isSome then .ok .stale else .error (.status code), c')
  | (.error .transport, c') => (.error .transport, c')

/-- An application with finalizers is only marked. -/
def deleted (o : App ρ) : Option (App ρ) := if o.finalizers.isEmpty then none else some { o with deleting := true }

def deleteResource (reply : Reply) : Action (Cluster ρ) ApiError Unit := fun c =>
  match c.object with
  | none => (.error (.status 404), c)
  | some o =>
    match reply with
    | .done => (.ok (), c.write (deleted o))
    | .refused code => (.error (.status code), c)
    | .lost applied => (.error .transport, if applied then c.write (deleted o) else c)

/-! ## The deletion -/

def couldNotRestore : Text :=
  ") and the original finalizers could not be restored; check metadata.finalizers before deleting again.".toList

def blockedMessage (shown : Text) : Text := "Delete failed (".toList ++ shown ++ couldNotRestore

/-- The request to delete, and what is done when it fails. -/
def deleteStep (E : Env ρ) (original : List Text) (changed : Bool) : Action (Cluster ρ) OpError MergePatchResult := fun c =>
  match deleteResource E.deleteReply (interfere E.beforeDelete c) with
  | (.ok (), c') => (.ok .applied, c')
  | (.error e, c') =>
    if changed then
      match mergePatchResource E.restoreReply original none (interfere E.beforeRestore c') with
      | (.error _, c'') => (.error (.blocked (blockedMessage (E.display e))), c'')
      | (.ok _, c'') => (.error (.fetch .delete e), c'')
    else (.error (.fetch .delete e), c')

def deleteApp (E : Env ρ) (cascade : AppCascade) (o : App ρ) (liveVersion : ℕ) :
    Action (Cluster ρ) OpError MergePatchResult := fun c =>
  match finalizerChange o.finalizers cascade o.deleting with
  | none => deleteStep E o.finalizers false c
  | some next =>
    match mergePatchResource E.patchReply next (some liveVersion) (interfere E.beforePatch c) with
    | (.error e, c') => (.error (.fetch .patch e), c')
    | (.ok .stale, c') => (.ok .stale, c')
    | (.ok .applied, c') => deleteStep E o.finalizers true c'

def run (E : Env ρ) (cascade : AppCascade) (expectedGeneration : Option ℤ) :
    Action (Cluster ρ) OpError MergePatchResult := fun c =>
  match E.getReply, c.object with
  | some e, _ => (.error (.fetch .get e), c)
  | none, none => (.error (.fetch .get (.status 404)), c)
  | none, some o =>
    if expectedGeneration.isSome ∧ expectedGeneration ≠ o.generation then (.ok .stale, c)
    else deleteApp E cascade o c.resourceVersion c

/-! ## Lists of finalizers -/

/-- The finalizers that are no cascade policies. -/
def keptFinalizers (l : List Text) : List Text := l.filter fun f => !isPolicy f

theorem isPolicy_of_wanted {cascade : AppCascade} {f : Text} (h : wanted cascade = some f) : isPolicy f = true := by
  cases cascade with
  | foreground =>
    cases h
    simp [isPolicy]
  | background =>
    cases h
    simp [isPolicy]
  | nonCascading => cases h

/-- A policy is added at the end, or all policies are taken out. -/
theorem cascadeFinalizers_cases {l next : List Text} {cascade : AppCascade} (h : cascadeFinalizers l cascade = some next) :
    (∃ f, isPolicy f = true ∧ next = l ++ [f]) ∨ next = keptFinalizers l := by
  unfold cascadeFinalizers at h
  split at h
  · next f hf =>
    split at h
    · cases h
    · cases h
      exact .inl ⟨f, isPolicy_of_wanted hf, rfl⟩
  · split at h
    · cases h
      exact .inr rfl
    · cases h

theorem keptFinalizers_of_change {l next : List Text} {cascade : AppCascade} {deleting : Bool}
    (h : finalizerChange l cascade deleting = some next) : keptFinalizers next = keptFinalizers l := by
  rcases cascadeFinalizers_cases (Option.filter_eq_some_iff.mp h).1 with ⟨f, hf, rfl⟩ | rfl
  · simp [keptFinalizers, hf]
  · simp [keptFinalizers]

/-- What is asked for an object that is being deleted adds nothing. -/
theorem sublist_of_change {l next : List Text} {cascade : AppCascade} (h : finalizerChange l cascade true = some next) :
    next.Sublist l := by
  obtain ⟨hnext, hlength⟩ := Option.filter_eq_some_iff.mp h
  rcases cascadeFinalizers_cases hnext with ⟨f, -, rfl⟩ | rfl
  · simp at hlength
  · exact List.filter_sublist

/-! ## Requests -/

/-- What a patch that is applied was let through with. -/
structure Applies (next : List Text) (resourceVersion : Option ℕ) (c : Cluster ρ) (o : App ρ) : Prop where
  object : c.object = some o
  version : ∀ v ∈ resourceVersion, v = c.resourceVersion
  deleting : o.deleting = true → next ⊆ o.finalizers

/-- A patch is refused, or it is applied and only its answer may be lost. -/
theorem servePatch_cases (reply : Reply) (next : List Text) (resourceVersion : Option ℕ) (c : Cluster ρ) :
    (∃ e, servePatch reply next resourceVersion c = (.error e, c)) ∨
      ∃ o r, Applies next resourceVersion c o ∧ servePatch reply next resourceVersion c = (r, applyPatch c o next) ∧
        (r = .ok () ∨ r = .error .transport) := by
  unfold servePatch
  split
  · exact .inl ⟨_, rfl⟩
  · next o ho =>
    split
    · exact .inl ⟨_, rfl⟩
    · next hversion =>
      split
      · exact .inl ⟨_, rfl⟩
      · next hdeleting =>
        have happlies : Applies next resourceVersion c o := by
          refine ⟨ho, fun v hv => ?_, fun hd => ?_⟩
          · rw [hv] at hversion
            simpa using hversion
          · rw [hd] at hdeleting
            have hall : ∀ f ∈ next, f ∈ o.finalizers := by simpa using hdeleting
            exact fun f hf => hall f hf
        cases reply with
        | done => exact .inr ⟨o, _, happlies, rfl, .inl rfl⟩
        | refused code => exact .inl ⟨_, rfl⟩
        | lost applied =>
          cases applied with
          | true => exact .inr ⟨o, _, happlies, rfl, .inr rfl⟩
          | false => exact .inl ⟨_, rfl⟩

/-- How a patch ends for the program. Without a version it is never stale. -/
theorem mergePatchResource_cases (reply : Reply) (next : List Text) (resourceVersion : Option ℕ) (c : Cluster ρ) :
    (∃ e, mergePatchResource reply next resourceVersion c = (.error e, c)) ∨
      (resourceVersion.isSome ∧ mergePatchResource reply next resourceVersion c = (.ok .stale, c)) ∨
      ∃ o r, Applies next resourceVersion c o ∧ mergePatchResource reply next resourceVersion c = (r, applyPatch c o next) ∧
        (r = .ok .applied ∨ r = .error .transport) := by
  unfold mergePatchResource
  rcases servePatch_cases reply next resourceVersion c with ⟨e, h⟩ | ⟨o, r, happlies, h, rfl | rfl⟩
  · rw [h]
    cases e with
    | transport => exact .inl ⟨_, rfl⟩
    | status code =>
      by_cases hstale : isStaleConflict code resourceVersion.isSome = true
      · simp only [if_pos hstale]
        exact .inr (.inl ⟨(Bool.and_eq_true_iff.mp hstale).2, trivial⟩)
      · simp only [if_neg hstale]
        exact .inl ⟨_, rfl⟩
  · rw [h]
    exact .inr (.inr ⟨o, _, happlies, rfl, .inl rfl⟩)
  · rw [h]
    exact .inr (.inr ⟨o, _, happlies, rfl, .inr rfl⟩)

theorem interfere_log (ws : List (Writer ρ)) (c : Cluster ρ) : (interfere ws c).log = c.log := by
  induction ws generalizing c with
  | nil => rfl
  | cons w ws ih => exact ih (c.write (w c.object))

theorem deleteResource_log (reply : Reply) (c : Cluster ρ) : (deleteResource reply c).2.log = c.log := by
  unfold deleteResource
  split
  · rfl
  · cases reply with
    | done => rfl
    | refused code => rfl
    | lost applied => cases applied <;> rfl

/-! ## What a deletion does to the finalizers -/

/-- The finalizers that are stored. -/
def finalizersNow (c : Cluster ρ) : List Text := (c.object.map App.finalizers).getD []

/-- A write keeps the finalizers that are no cascade policies as they were read, and adds none to an application that
is being deleted. -/
structure Faithful (original : List Text) (w : App ρ × App ρ) : Prop where
  kept : keptFinalizers w.2.finalizers = keptFinalizers original
  no_addition : w.1.deleting = true → w.2.finalizers ⊆ w.1.finalizers

/-- The error says that the finalizers could not be put back. -/
def SaysNotRestored (r : Except OpError MergePatchResult) : Prop :=
  ∃ m, r = .error (.blocked m) ∧ "the original finalizers could not be restored".toList <:+: m

/-- The request to delete has failed. -/
def DeleteFailed (r : Except OpError MergePatchResult) : Prop := (∃ e, r = .error (.fetch .delete e)) ∨ SaysNotRestored r

theorem saysNotRestored_blocked (shown : Text) : SaysNotRestored (.error (.blocked (blockedMessage shown))) := by
  refine ⟨_, rfl, ?_⟩
  have hmessage : "the original finalizers could not be restored".toList <:+: couldNotRestore := by decide
  exact hmessage.trans (List.suffix_append _ _).isInfix

theorem finalizersNow_applyPatch (c : Cluster ρ) (o : App ρ) (next : List Text) :
    finalizersNow (applyPatch c o next) = next := by
  change ((patched o next).map App.finalizers).getD [] = next
  unfold patched
  split
  · next h =>
    rw [List.isEmpty_iff.mp (Bool.and_eq_true_iff.mp h).2]
    rfl
  · rfl

/-- How the second half ends. -/
theorem deleteStep_spec (E : Env ρ) (original : List Text) (changed : Bool) (c : Cluster ρ) :
    (∀ w ∈ (deleteStep E original changed c).2.log, w ∈ c.log ∨ Faithful original w) ∧
      ((∃ r, (deleteStep E original changed c).1 = .ok r) ∨ SaysNotRestored (deleteStep E original changed c).1 ∨
        (changed = false ∧ (deleteStep E original changed c).2.log = c.log) ∨
        finalizersNow (deleteStep E original changed c).2 = original) := by
  unfold deleteStep
  have hlog := deleteResource_log E.deleteReply (interfere E.beforeDelete c)
  rw [interfere_log] at hlog
  generalize deleteResource E.deleteReply (interfere E.beforeDelete c) = d at hlog
  obtain ⟨r, c₁⟩ := d
  simp only at hlog
  cases r with
  | ok u => exact ⟨fun w hw => .inl (hlog ▸ hw), .inl ⟨_, rfl⟩⟩
  | error e =>
    cases changed with
    | false => exact ⟨fun w hw => .inl (hlog ▸ hw), .inr (.inr (.inl ⟨rfl, hlog⟩))⟩
    | true =>
      simp only [if_true]
      have hlog' := interfere_log E.beforeRestore c₁
      generalize interfere E.beforeRestore c₁ = c₂ at hlog'
      rw [hlog] at hlog'
      rcases mergePatchResource_cases E.restoreReply original none c₂ with ⟨e', h⟩ | ⟨hsome, -⟩ | ⟨o, r, happlies, h, hr⟩
      · rw [h]
        exact ⟨fun w hw => .inl (hlog' ▸ hw), .inr (.inl (saysNotRestored_blocked _))⟩
      · cases hsome
      · have hwrites : ∀ w ∈ (applyPatch c₂ o original).log, w ∈ c.log ∨ Faithful original w := by
          intro w hw
          rcases List.mem_append.mp hw with hw | hw
          · exact .inl (hlog' ▸ hw)
          · rw [List.mem_singleton.mp hw]
            exact .inr ⟨rfl, happlies.deleting⟩
        rcases hr with rfl | rfl
        · rw [h]
          exact ⟨hwrites, .inr (.inr (.inr (finalizersNow_applyPatch c₂ o original)))⟩
        · rw [h]
          exact ⟨hwrites, .inr (.inl (saysNotRestored_blocked _))⟩

theorem interfere_resourceVersion (ws : List (Writer ρ)) (c : Cluster ρ) :
    (interfere ws c).resourceVersion = c.resourceVersion + ws.length := by
  induction ws generalizing c with
  | nil => rfl
  | cons w ws ih =>
    refine (ih (c.write (w c.object))).trans ?_
    simp only [Cluster.write, List.length_cons]
    omega

/-- The first patch is applied only to the application that was read. -/
theorem object_of_version {ws : List (Writer ρ)} {c : Cluster ρ} {o o' : App ρ} {next : List Text} (ho : c.object = some o)
    (h : Applies next (some c.resourceVersion) (interfere ws c) o') : o' = o := by
  have hversion := h.version _ rfl
  rw [interfere_resourceVersion] at hversion
  have hws : ws = [] := List.length_eq_zero_iff.mp (by omega)
  have hobject := h.object
  rw [hws] at hobject
  exact Option.some.inj (hobject.symm.trans ho)

/-- How the whole ends. -/
theorem deleteApp_spec (E : Env ρ) (cascade : AppCascade) {c : Cluster ρ} {o : App ρ} (ho : c.object = some o)
    (hlog : c.log = []) :
    (∀ w ∈ (deleteApp E cascade o c.resourceVersion c).2.log, Faithful o.finalizers w) ∧
      (DeleteFailed (deleteApp E cascade o c.resourceVersion c).1 →
        (deleteApp E cascade o c.resourceVersion c).2.log = [] ∨
          finalizersNow (deleteApp E cascade o c.resourceVersion c).2 = o.finalizers ∨
          SaysNotRestored (deleteApp E cascade o c.resourceVersion c).1) := by
  have hnothing : ∀ w ∈ c.log, Faithful o.finalizers w := by simp [hlog]
  have hfailed : ∀ {r}, ¬ DeleteFailed (.ok r) := by
    rintro r (⟨e, he⟩ | ⟨m, hm, -⟩)
    · cases he
    · cases hm
  unfold deleteApp
  cases hchange : finalizerChange o.finalizers cascade o.deleting with
  | none =>
    obtain ⟨hwrites, hend⟩ := deleteStep_spec E o.finalizers false c
    refine ⟨fun w hw => (hwrites w hw).elim (hnothing w) id, fun hdelete => ?_⟩
    rcases hend with ⟨r, hr⟩ | hsays | ⟨-, hsame⟩ | hnow
    · exact absurd hdelete (hr ▸ hfailed)
    · exact .inr (.inr hsays)
    · exact .inl (hsame.trans hlog)
    · exact .inr (.inl hnow)
  | some next =>
    have hlog' := (interfere_log E.beforePatch c).trans hlog
    simp only
    rcases mergePatchResource_cases E.patchReply next (some c.resourceVersion) (interfere E.beforePatch c) with
      ⟨e, h⟩ | ⟨-, h⟩ | ⟨o', r, happlies, h, hr⟩
    · rw [h]
      exact ⟨by simp [hlog'], fun _ => .inl hlog'⟩
    · rw [h]
      exact ⟨by simp [hlog'], fun _ => .inl hlog'⟩
    · obtain rfl := object_of_version ho happlies
      have hwritten : ∀ w ∈ (applyPatch (interfere E.beforePatch c) o' next).log, Faithful o'.finalizers w := by
        intro w hw
        rw [applyPatch, hlog', List.nil_append, List.mem_singleton] at hw
        rw [hw]
        exact ⟨keptFinalizers_of_change hchange, happlies.deleting⟩
      rcases hr with rfl | rfl
      · rw [h]
        simp only
        obtain ⟨hwrites, hend⟩ := deleteStep_spec E o'.finalizers true (applyPatch (interfere E.beforePatch c) o' next)
        refine ⟨fun w hw => (hwrites w hw).elim (hwritten w) id, fun hdelete => ?_⟩
        rcases hend with ⟨r, hr⟩ | hsays | ⟨hfalse, -⟩ | hnow
        · exact absurd hdelete (hr ▸ hfailed)
        · exact .inr (.inr hsays)
        · cases hfalse
        · exact .inr (.inl hnow)
      · rw [h]
        refine ⟨hwritten, ?_⟩
        rintro (⟨e, he⟩ | ⟨m, hm, -⟩)
        · cases he
        · cases hm

/-- The application has its policy already, another writer takes it away, and then the request to delete is refused. -/
def writerBetween : Env Unit where
  display _ := []
  beforePatch := []
  beforeDelete := [fun o => o.map fun o => { o with finalizers := [] }]
  beforeRestore := []
  getReply := none
  patchReply := .done
  deleteReply := .refused 500
  restoreReply := .done

end FerrisScope.ApplicationDeletion
