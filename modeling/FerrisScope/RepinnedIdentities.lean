import FerrisScope.KubeconfigEdits

/-!
# Pinning the identity that is pinned already

A pin that changes nothing is to leave the file and its backup alone. Whether it changes something is decided
on the texts: the document is printed and compared with what was read.
-/

namespace FerrisScope.KubeconfigEdits
open Json IdentityPin LinkFiles

variable {ν δ : Type}

structure PinReport where
  written : Bool
  cacheError : Option String
  deriving DecidableEq, Repr

/-- A call of the pin, with what it meets: the text that the second read gives, if it gives one, which writes fail, and
what becomes of the token caches when there are any. -/
structure PinCall (δ : Type) where
  path : Loc δ
  context : String
  identity : String
  now : Option String
  backupFails : Bool
  writeFails : Bool
  gcloudCache : Option (Except String Unit)
  slotsRoot : Option (Except String Unit)

def changedOnDisk (path : String) : EditError :=
  .invalid (path ++ " changed on disk while preparing the edit — nothing was written. Reconnect and try again.")

section Documents

/-- The provider that the exec entry of the context's user belongs to. -/
def pinnedProvider (doc : Json ν) (context identity : String) : Option Provider :=
  (contextUserName doc context).bind fun userName => (userExec doc userName).bind fun exec =>
    match writePin exec (trimmed identity) with
    | .ok (provider, _) => some provider
    | .error _ => none

def clearError (what : String) : Option (Except String Unit) → Option String
  | some (.error e) => some ("account pinned, but clearing " ++ what ++ " failed: " ++ e)
  | _ => none

/-- The first error of the caches, which only one provider keeps. -/
def cacheError (provider : Option Provider) (call : PinCall δ) : Option String :=
  if provider = some .gcloud then
    (clearError "the gcloud auth plugin token cache" call.gcloudCache).or
      (clearError "the app's auth token cache" call.slotsRoot)
  else none

/-- The context has a user of its own whose exec entry is what the pin makes of it. -/
def AlreadyPinned (doc : Json ν) (context identity : String) : Prop :=
  validateIdentity (trimmed identity) = .ok () ∧ ∃ userName exec provider,
    contextUserName doc context = some userName ∧ (contextsUsingUser doc userName).length ≤ 1 ∧
    userExec doc userName = some exec ∧ writePin exec (trimmed identity) = .ok (provider, exec)

end Documents

variable [DecidableEq δ]

/-- The edit of the file behind the links. An error of the second read is no reason to stop. -/
def editExecFile (env : Env ν δ) (st : State δ) (call : PinCall δ) : State δ × Except EditError (Bool × Option Provider) :=
  let real := (follow st.fs maxLinks call.path).getD call.path
  match readFile st.fs maxLinks real with
  | none => (st, .error .io)
  | some (original, _) => match Edit.apply env real (.pin call.context call.identity) original with
      | .error e => (st, .error e)
      | .ok serialized =>
          let provider := (env.parse original).bind fun doc => pinnedProvider doc call.context call.identity
          if serialized = original then (st, .ok (false, provider))
          else if call.now.any (· ≠ original) then (st, .error (changedOnDisk (env.display real)))
          else
            let mode := fileMode st.fs real
            let b := atomicWriteSyncMode env st (backupPath real) original mode call.backupFails
            if b.2 then
              let w := atomicWriteSyncMode env b.1 real serialized mode call.writeFails
              (w.1, if w.2 then .ok (true, provider) else .error .io)
            else (b.1, .error .io)

def reportOf (call : PinCall δ) (edited : Bool × Option Provider) : PinReport :=
  ⟨edited.1, cacheError edited.2 call⟩

def pinIdentityAt (env : Env ν δ) (st : State δ) (call : PinCall δ) : State δ × Except EditError PinReport :=
  match validateIdentity (trimmed call.identity) with
  | .error e => (st, .error (.invalid e))
  | .ok _ =>
      let edited := editExecFile env st call
      (edited.1, edited.2.map (reportOf call))

/-- The text of the file behind the links. -/
def TextAt (st : State δ) (path : Loc δ) (raw : String) : Prop :=
  ∃ mode, readFile st.fs maxLinks ((follow st.fs maxLinks path).getD path) = some (raw, mode)

/-- A pin of what is pinned already writes nothing and says so; nor does an error before a write is begun change
anything. A write takes a temporary name. -/
def PinsOnce (env : Env ν δ) (st : State δ) (call : PinCall δ) : Prop :=
  (∀ raw doc, TextAt st call.path raw → env.parse raw = some doc → AlreadyPinned doc call.context call.identity →
      (pinIdentityAt env st call).1.fs = st.fs ∧ ∃ report, (pinIdentityAt env st call).2 = .ok report ∧
        report.written = false) ∧
    ∀ e, (pinIdentityAt env st call).2 = .error e → (pinIdentityAt env st call).1.seq = st.seq →
      (pinIdentityAt env st call).1.fs = st.fs

section Pinned

variable {doc : Json ν} {userName context identity : String} {exec : Fields ν}

theorem setField_self {k : String} {v j : Json ν} (h : j.get? k = some v) : setField k v j = j := by
  cases j with
  | obj fs => exact congrArg Json.obj (insertEntry_of_find h)
  | _ => cases h

theorem setExecIn_self {us : List (Json ν)} {u x : Json ν} (hfind : us.find? (fun e => nameOf e = some userName) = some u)
    (huser : u.get? "user" = some x) (hexec : x.get? "exec" = some (.obj exec)) : setExecIn userName exec us = us := by
  induction us with
  | nil => cases hfind
  | cons e us ih =>
    rw [setExecIn]
    rw [List.find?_cons] at hfind
    by_cases hname : nameOf e = some userName
    · rw [decide_eq_true hname] at hfind
      obtain rfl := Option.some_inj.mp hfind
      rw [if_pos hname, huser, Option.getD_some, setField_self hexec, setField_self huser]
    · rw [decide_eq_false hname] at hfind
      rw [if_neg hname, ih hfind]

theorem userExec_eq_some (h : userExec doc userName = some exec) :
    ∃ u x, (itemsAt "users" doc).find? (fun e => nameOf e = some userName) = some u ∧ u.get? "user" = some x ∧
      x.get? "exec" = some (.obj exec) := by
  obtain ⟨u, hu, hentry⟩ := Option.bind_eq_some_iff.mp h
  split at hentry
  · next exec' hexec =>
    obtain rfl := Option.some_inj.mp hentry
    obtain ⟨x, hx, hx'⟩ := Option.bind_eq_some_iff.mp hexec
    exact ⟨u, x, hu, hx, hx'⟩
  · cases hentry

/-- The exec entry that is there, written again. -/
theorem setUserExec_self (h : userExec doc userName = some exec) : setUserExec doc userName exec = doc := by
  obtain ⟨u, x, hu, hx, hexec⟩ := userExec_eq_some h
  rw [setUserExec, setExecIn_self hu hx hexec]
  cases doc with
  | obj mapping =>
    refine congrArg Json.obj (insertEntry_listAt fun hnil => ?_)
    rw [itemsAt, hnil] at hu
    cases hu
  | _ => rfl

/-- Where the pin is there already, the edit leaves the document as it is. -/
theorem editExec_pinned (path : String) (h : AlreadyPinned doc context identity) :
    editExec path doc context (fun exec => (writePin exec (trimmed identity)).map Prod.snd) = .ok doc := by
  obtain ⟨-, userName, exec, provider, huser, hsharing, hexec, hwrite⟩ := h
  rw [editExec, huser]
  dsimp only
  rw [if_neg (Nat.not_lt.mpr hsharing), hexec]
  dsimp only
  rw [hwrite]
  exact congrArg Except.ok (setUserExec_self hexec)

omit [DecidableEq δ] in
theorem apply_pinned {env : Env ν δ} {real : Loc δ} {raw : String} (hparse : env.parse raw = some doc)
    (h : AlreadyPinned doc context identity) :
    (env.print doc = none ∧ Edit.apply env real (.pin context identity) raw = .error .yaml) ∨
      ∃ text, env.print doc = some text ∧ Edit.apply env real (.pin context identity) raw = .ok text := by
  rw [Edit.apply, hparse]
  dsimp only
  rw [editExec_pinned _ h]
  dsimp only
  cases hprint : env.print doc with
  | none => exact Or.inl ⟨rfl, rfl⟩
  | some text => exact Or.inr ⟨text, rfl, rfl⟩

end Pinned

section Calls

variable {env : Env ν δ} {st : State δ} {call : PinCall δ}

/-- Where nobody else writes the file, the call is the step of a run of edits. -/
theorem editExecFile_eq_pinInFile (hnow : call.now = none) :
    ((editExecFile env st call).1, (editExecFile env st call).2.map Prod.fst) =
      pinInFile env st ⟨call.path, .pin call.context call.identity, call.backupFails, call.writeFails⟩ := by
  rw [editExecFile, pinInFile, hnow]
  dsimp only
  generalize (follow st.fs maxLinks call.path).getD call.path = real
  cases readFile st.fs maxLinks real with
  | none => rfl
  | some file =>
    obtain ⟨original, mode⟩ := file
    dsimp only
    cases Edit.apply env real (.pin call.context call.identity) original with
    | error e => rfl
    | ok text =>
      dsimp only
      by_cases hsame : text = original
      · rw [if_pos hsame, if_pos hsame]
        rfl
      · rw [if_neg hsame, if_neg hsame, Option.any_none, if_neg Bool.false_ne_true]
        split
        · congr 1
          dsimp only
          split
          · rfl
          · rfl
        · rfl

/-- A call that changes the state has begun a write. -/
theorem editExecFile_seq (env : Env ν δ) (st : State δ) (call : PinCall δ) :
    (editExecFile env st call).1 = st ∨ st.seq < (editExecFile env st call).1.seq := by
  rw [editExecFile]
  split
  · exact Or.inl rfl
  · split
    · exact Or.inl rfl
    · dsimp only
      split
      · exact Or.inl rfl
      · split
        · exact Or.inl rfl
        · split
          · exact Or.inr (Nat.lt_succ_of_lt (Nat.lt_succ_self _))
          · exact Or.inr (Nat.lt_succ_self _)

theorem pinIdentityAt_seq (env : Env ν δ) (st : State δ) (call : PinCall δ) :
    (pinIdentityAt env st call).1 = st ∨ st.seq < (pinIdentityAt env st call).1.seq := by
  rw [pinIdentityAt]
  split
  · exact Or.inl rfl
  · exact editExecFile_seq env st call

/-- What becomes of a call when the pin is there already: it depends on the text that is printed. -/
theorem pin_pinned {raw : String} {doc : Json ν} (htext : TextAt st call.path raw) (hparse : env.parse raw = some doc)
    (h : AlreadyPinned doc call.context call.identity) :
    (env.print doc = some raw ∧ (pinIdentityAt env st call).1 = st ∧
        ∃ report, (pinIdentityAt env st call).2 = .ok report ∧ report.written = false) ∨
      (env.print doc ≠ some raw ∧ ∀ report, (pinIdentityAt env st call).2 = .ok report → report.written = true) := by
  obtain ⟨mode, hread⟩ := htext
  have hpin : pinIdentityAt env st call =
      ((editExecFile env st call).1, (editExecFile env st call).2.map (reportOf call)) := by
    rw [pinIdentityAt, h.1]
  rw [hpin]
  dsimp only
  rw [editExecFile, hread]
  dsimp only
  rcases apply_pinned hparse h with ⟨hprint, happly⟩ | ⟨text, hprint, happly⟩
  · rw [happly, hprint]
    refine Or.inr ⟨by simp, fun report hreport => ?_⟩
    cases hreport
  · rw [happly, hprint]
    dsimp only
    by_cases hsame : text = raw
    · rw [if_pos hsame, hsame]
      exact Or.inl ⟨rfl, rfl, _, rfl, rfl⟩
    · rw [if_neg hsame]
      refine Or.inr ⟨mt Option.some_inj.mp hsame, fun report hreport => ?_⟩
      split at hreport
      · cases hreport
      · split at hreport
        · split at hreport
          · cases hreport
            rfl
          · cases hreport
        · cases hreport

/-- A pin of what is pinned already writes nothing exactly when the file is as the printer writes it. -/
theorem pinsOnce_iff (env : Env ν δ) (st : State δ) (call : PinCall δ) :
    PinsOnce env st call ↔ ∀ raw doc, TextAt st call.path raw → env.parse raw = some doc →
      AlreadyPinned doc call.context call.identity → env.print doc = some raw := by
  constructor
  · intro h raw doc htext hparse hpinned
    rcases pin_pinned htext hparse hpinned with ⟨hprint, -⟩ | ⟨-, hwritten⟩
    · exact hprint
    · obtain ⟨-, report, hreport, hnot⟩ := h.1 raw doc htext hparse hpinned
      exact absurd ((hwritten report hreport).symm.trans hnot) Bool.noConfusion
  · intro h
    constructor
    · intro raw doc htext hparse hpinned
      rcases pin_pinned htext hparse hpinned with ⟨-, hsame, hreport⟩ | ⟨hprint, -⟩
      · exact ⟨congrArg State.fs hsame, hreport⟩
      · exact absurd (h raw doc htext hparse hpinned) hprint
    · intro e _ hseq
      rcases pinIdentityAt_seq env st call with hsame | hlt
      · exact congrArg State.fs hsame
      · omega

end Calls

/-- A context whose user is pinned to the account `a`. -/
def pinnedDoc : Json Unit :=
  .obj [("contexts", .arr [.obj [("name", .str "dev"), ("context", .obj [("user", .str "u")])]]),
    ("users", .arr [.obj [("name", .str "u"), ("user", .obj [("exec",
      .obj [("command", .str "gke-gcloud-auth-plugin"), ("args", .arr [.str "--account=a"])])])]])]

def printedText : String :=
  "contexts:\n- name: dev\n  context:\n    user: u\nusers:\n- name: u\n  user:\n    exec:\n" ++
    "      command: gke-gcloud-auth-plugin\n      args:\n      - --account=a\n"

/-- The same document with a comment. -/
def commentedText : String := "# pinned by hand\n" ++ printedText

def commentedEnv : Env Unit Unit :=
  { parse := fun _ => some pinnedDoc
    print := fun _ => some printedText
    display := fun _ => ""
    umask := 0o022
    pid := 7 }

def pinnedLoc : Loc Unit := ⟨(), "config".toList⟩

def commentedState : State Unit :=
  { fs := fun p => if p = pinnedLoc then some (.file commentedText 0o600) else none
    seq := 0 }

def repin : PinCall Unit := ⟨pinnedLoc, "dev", "a", some commentedText, false, false, none, none⟩

theorem commentedText_ne : printedText ≠ commentedText := by
  intro h
  have hlength : printedText.length = commentedText.length := congrArg String.length h
  have happend : commentedText.length = "# pinned by hand\n".length + printedText.length := String.length_append _ _
  have hcomment : 0 < "# pinned by hand\n".length := by decide
  omega

theorem textAt_commented : TextAt commentedState repin.path commentedText := ⟨0o600, rfl⟩

theorem alreadyPinned_pinnedDoc : AlreadyPinned pinnedDoc repin.context repin.identity := by
  refine ⟨by decide, "u", _, .gcloud, rfl, by decide, rfl, by rfl⟩

/-- The comment is dropped from a file that is pinned already. -/
theorem not_pinsOnce_commented : ¬ PinsOnce commentedEnv commentedState repin := by
  intro h
  have hparse : commentedEnv.parse commentedText = some pinnedDoc := rfl
  obtain ⟨-, report, hreport, hnot⟩ := h.1 commentedText pinnedDoc textAt_commented hparse alreadyPinned_pinnedDoc
  rcases pin_pinned textAt_commented hparse alreadyPinned_pinnedDoc with ⟨hprint, -⟩ | ⟨-, hwritten⟩
  · have hprinted : commentedEnv.print pinnedDoc = some printedText := rfl
    rw [hprinted, Option.some_inj] at hprint
    exact commentedText_ne hprint
  · exact absurd ((hwritten report hreport).symm.trans hnot) Bool.noConfusion

end FerrisScope.KubeconfigEdits
