import FerrisScope.RepinnedIdentities

/-!
# The offer of a pin

A surface shows how a context picks its identity, what a pin would do, and why it would be refused. It looks for
other contexts of the user, where the pin counts the entries of the user. The two differ when the entry of the
context is there twice.
-/

namespace FerrisScope.IdentityPin
open Json

structure PinOffer where
  noun : String
  effects : List String
  deriving DecidableEq, Repr

/-- The identities that a provider's tool has configured, and the active one. -/
structure Identities where
  identities : List String
  active : Option String
  deriving DecidableEq, Repr

def Binding.pinnedIdentity : Binding → Option String
  | .pinned identity => some identity
  | .followsActive => none

/-- The active identity when it is listed and not pinned, else the first that is not pinned. -/
def suggestIdentity (identities : List String) (active pinned : Option String) : Option String :=
  let offered (i : String) : Bool := decide (some i ≠ pinned) && decide (i ∈ identities)
  (active.filter offered).or (identities.find? offered)

def keepBackup : String :=
  "keep a .ferrisscope-backup copy next to the kubeconfig it edits — if yours is a symlink, that is the real file's"
    ++ " directory, not the link's"

def rewriteFile : String :=
  "rewrite the file through a YAML parser, which drops comments and expands any anchors/aliases — the backup holds"
    ++ " the file as it was immediately before this edit, so comments an earlier pin already removed are not in it"
    ++ " either"

namespace Gcloud

def statusDetail : (pinned active : Option String) → String
  | some p, _ => "This context is pinned to " ++ p ++ ", whatever account gcloud has active. Pin another account to"
      ++ " switch it."
  | none, some a => "This context has no --account, so it authenticates as your active gcloud account — " ++ a
      ++ " right now — and changes whenever that does. Pin an account to fix it."
  | none, none => "This context has no --account, so it authenticates as whichever account gcloud has active. Pin an"
      ++ " account to fix it."

def pinOffer (repin : Bool) : PinOffer where
  noun := "account"
  effects :=
    [if repin then "replace the account this context's exec entry names — its --account flag, or"
        ++ " CLOUDSDK_CORE_ACCOUNT in its env block — in your kubeconfig"
      else "add --account to this context's exec entry in your kubeconfig",
      keepBackup,
      rewriteFile,
      "delete ~/.kube/gke_gcloud_auth_plugin_cache, which every gcloud-authenticated tool regenerates on its next run"]

end Gcloud

namespace Aws

def defaultProfile : String := "default"

def statusDetail (pinned active : Option String) : String :=
  match pinned with
  | some p => "This context is pinned to the " ++ p ++ " profile, whatever AWS_PROFILE says. Pin another profile to"
      ++ " switch it."
  | none => "This context names no profile, so it authenticates as " ++ active.getD defaultProfile ++ " — whatever"
      ++ " AWS_PROFILE is set to when the app launches, falling back to " ++ defaultProfile ++ ". Pin a profile to"
      ++ " fix it."

def pinOffer (repin : Bool) : PinOffer where
  noun := "profile"
  effects :=
    [if repin then "replace the profile this context's exec entry names — --profile, AWS_PROFILE or"
        ++ " AWS_DEFAULT_PROFILE, wherever it is set — in your kubeconfig"
      else "set AWS_PROFILE in this context's exec env block in your kubeconfig",
      keepBackup,
      rewriteFile]

end Aws

namespace Azure

def statusDetail (active : Option String) : String :=
  "kubelogin's azurecli mode has no per-context account: this context uses whichever account `az account set` last"
    ++ " selected" ++ (match active with
      | some a => " — " ++ a ++ " right now"
      | none => "")
    ++ ". Switch it with `az account set --subscription <id>` in a terminal, then reconnect."

end Azure

/-- What the surfaces say of an exec entry, and the offer if its provider has a pin. -/
def describe (provider : Provider) (pinned active : Option String) : String × Option PinOffer :=
  match provider with
  | .gcloud => (Gcloud.statusDetail pinned active, some (Gcloud.pinOffer pinned.isSome))
  | .aws => (Aws.statusDetail pinned active, some (Aws.pinOffer pinned.isSome))
  | .azure => (Azure.statusDetail active, none)

/-- The commands whose entries can be pinned. -/
def Pinnable (command : String) : Prop :=
  commandBasename command ∈ Gcloud.ownsCommands ∨ commandBasename command ∈ Aws.ownsCommands

instance (command : String) : Decidable (Pinnable command) := inferInstanceAs (Decidable (_ ∨ _))

section Commands

variable {ν : Type} {command : String} {args : List String} {env : List (String × String)}

/-- An offer is made for the commands that can be pinned. -/
theorem pinnable_of_offer {provider : Provider} {binding : Binding} (h : classify command args env = some (provider, binding))
    {pinned active : Option String} (hoffer : (describe provider pinned active).2.isSome = true) : Pinnable command := by
  by_contra hnot
  obtain ⟨hgcloud, haws⟩ := not_or.mp hnot
  have hazure : classify command args env =
      (Azure.bindingFor (commandBasename command) args env).map (Provider.azure, ·) := by
    simp [classify, Gcloud.bindingFor, Aws.bindingFor, hgcloud, haws]
  rw [hazure] at h
  obtain ⟨b, -, heq⟩ := Option.map_eq_some_iff.mp h
  cases heq
  cases hoffer

theorem classify_of_pinnable (h : Pinnable command) (args : List String) (env : List (String × String)) :
    ∃ provider binding, classify command args env = some (provider, binding) ∧
      ∀ pinned active, (describe provider pinned active).2.isSome = true := by
  by_cases hgcloud : commandBasename command ∈ Gcloud.ownsCommands
  · have hbinding : ∃ b, Gcloud.bindingFor (commandBasename command) args env = some b := by
      rw [Gcloud.bindingFor, if_pos hgcloud]
      split <;> exact ⟨_, rfl⟩
    obtain ⟨b, hb⟩ := hbinding
    exact ⟨.gcloud, b, by simp [classify, hb], fun _ _ => rfl⟩
  · have haws := h.resolve_left hgcloud
    have hbinding : ∃ b, Aws.bindingFor (commandBasename command) args env = some b := by
      rw [Aws.bindingFor, if_pos haws]
      split <;> exact ⟨_, rfl⟩
    obtain ⟨b, hb⟩ := hbinding
    exact ⟨.aws, b, by simp [classify, hb, Gcloud.bindingFor, hgcloud], fun _ _ => rfl⟩

theorem writePin_of_pinnable {exec : Fields ν} (h : Pinnable (commandOf exec)) (identity : String) :
    ∃ provider exec', writePin exec identity = .ok (provider, exec') := by
  rw [writePin]
  by_cases hgcloud : commandBasename (commandOf exec) ∈ Gcloud.ownsCommands
  · exact ⟨_, _, if_pos hgcloud⟩
  · rw [if_neg hgcloud, if_pos (h.resolve_left hgcloud)]
    exact ⟨_, _, rfl⟩

end Commands

end FerrisScope.IdentityPin

namespace FerrisScope.KubeconfigEdits
open Json IdentityPin LinkFiles

variable {ν δ : Type}

/-- A context's identity as it stands. -/
structure IdentityStatus where
  provider : Provider
  detail : String
  pinnedIdentity : Option String
  activeIdentity : Option String
  identities : List String
  suggestedIdentity : Option String
  pin : Option PinOffer
  pinBlocked : Option String
  deriving DecidableEq, Repr

section Documents

def blockedReason (userName context : String) (others : List String) : String :=
  "User '" ++ userName ++ "' is shared with " ++ ", ".intercalate others ++ ", so a pin here would re-point "
    ++ (if others.length = 1 then "it" else "them") ++ " too. Give '" ++ context
    ++ "' its own user entry in the kubeconfig first."

/-- The status of an entry whose provider is known. -/
def statusOf (doc : Json ν) (context userName : String) (provider : Provider) (binding : Binding) (ids : Identities) :
    IdentityStatus :=
  let pinned := binding.pinnedIdentity
  let described := describe provider pinned ids.active
  let others := (contextsUsingUser doc userName).filter fun c => c ≠ context
  { provider := provider
    detail := described.1
    pinnedIdentity := pinned
    activeIdentity := ids.active
    identities := ids.identities
    suggestedIdentity := suggestIdentity ids.identities ids.active pinned
    pin := described.2
    pinBlocked := if described.2.isSome && !others.isEmpty then some (blockedReason userName context others) else none }

def statusIn (doc : Json ν) (context : String) (probe : Provider → Identities) : Option IdentityStatus :=
  match contextUserName doc context with
  | none => none
  | some userName => match userExec doc userName with
      | none => none
      | some exec => match classify (commandOf exec) (execArgs exec) (execEnvPairs exec) with
          | none => none
          | some (provider, binding) => some (statusOf doc context userName provider binding (probe provider))

/-- The entries of a context's name that have the user. -/
def ownEntries (doc : Json ν) (userName context : String) : List (Json ν) :=
  (itemsAt "contexts" doc).filter fun e => contextField "user" e = some userName ∧ nameOf e = some context

/-- An entry of another name has the user. -/
def SharedUser (doc : Json ν) (userName context : String) : Prop :=
  ∃ e ∈ itemsAt "contexts" doc, contextField "user" e = some userName ∧ ∃ name, nameOf e = some name ∧ name ≠ context

end Documents

def identityStatusWith (env : Env ν δ) (st : State δ) (path : Loc δ) (context : String)
    (probe : Provider → Identities) : Except EditError (Option IdentityStatus) :=
  match readFile st.fs maxLinks path with
  | none => .error .io
  | some (raw, _) => match env.parse raw with
      | none => .error .yaml
      | some doc => .ok (statusIn doc context probe)

/-- The pin is turned down, for a reason that has to do with the document or the identity. -/
def Refused (result : Except EditError PinReport) : Prop := ∃ message, result = .error (.invalid message)

/-- Nobody else writes the file during the call. -/
def Undisturbed (st : State δ) (call : PinCall δ) : Prop :=
  ∀ raw, TextAt st call.path raw → ∀ now, call.now = some now → now = raw

/-- What the status says of a pin is what becomes of it. -/
structure OfferAgrees [DecidableEq δ] (env : Env ν δ) (st : State δ) (path : Loc δ) (context : String)
    (probe : Provider → Identities) : Prop where
  offered : ∀ status, identityStatusWith env st path context probe = .ok (some status) → status.pin.isSome = true →
    status.pinBlocked = none → ∀ call, call.path = path → call.context = context →
      validateIdentity (trimmed call.identity) = .ok () → Undisturbed st call → ¬ Refused (pinIdentityAt env st call).2
  blocked : ∀ status, identityStatusWith env st path context probe = .ok (some status) →
    status.pinBlocked.isSome = true → ∀ call, call.path = path → call.context = context →
      Refused (pinIdentityAt env st call).2 ∧ (pinIdentityAt env st call).1 = st

section Sharing

variable {doc : Json ν} {userName context : String}

theorem mem_contextsUsingUser {name : String} : name ∈ contextsUsingUser doc userName ↔
    ∃ e ∈ itemsAt "contexts" doc, contextField "user" e = some userName ∧ nameOf e = some name := by
  simp [contextsUsingUser, List.mem_filterMap, and_assoc]

theorem self_mem_contextsUsingUser (h : contextUserName doc context = some userName) :
    context ∈ contextsUsingUser doc userName := by
  obtain ⟨e, he, huser⟩ := Option.bind_eq_some_iff.mp h
  have hname := List.find?_some he
  exact mem_contextsUsingUser.mpr ⟨e, List.mem_of_find?_eq_some he, huser, of_decide_eq_true hname⟩

theorem sharedUser_iff : SharedUser doc userName context ↔
    (contextsUsingUser doc userName).filter (fun c => c ≠ context) ≠ [] := by
  constructor
  · rintro ⟨e, he, huser, name, hname, hne⟩
    exact List.ne_nil_of_mem (List.mem_filter.mpr ⟨mem_contextsUsingUser.mpr ⟨e, he, huser, hname⟩, by simpa using hne⟩)
  · intro hne
    obtain ⟨name, hmem⟩ := List.exists_mem_of_ne_nil _ hne
    obtain ⟨hmem, hne⟩ := List.mem_filter.mp hmem
    obtain ⟨e, he, huser, hname⟩ := mem_contextsUsingUser.mp hmem
    exact ⟨e, he, huser, name, hname, by simpa using hne⟩

theorem count_contextsUsingUser (doc : Json ν) (userName context : String) :
    (contextsUsingUser doc userName).count context = (ownEntries doc userName context).length := by
  rw [contextsUsingUser, ownEntries, List.count, List.countP_filterMap, List.countP_filter, List.countP_eq_length_filter]
  congr 1
  apply List.filter_congr
  intro e _
  cases nameOf e with
  | none => simp
  | some name => simp [and_comm, beq_eq_decide]

/-- A pin counts the entries of other names and those of the context's own name. -/
theorem shared_of_length (hself : contextUserName doc context = some userName) :
    1 < (contextsUsingUser doc userName).length ↔
      SharedUser doc userName context ∨ 1 < (ownEntries doc userName context).length := by
  have hmem := self_mem_contextsUsingUser hself
  rw [← count_contextsUsingUser, sharedUser_iff]
  generalize contextsUsingUser doc userName = names at hmem
  have hsplit : names.length = names.count context + (names.filter fun c => c ≠ context).length := by
    rw [List.length_eq_countP_add_countP (fun c => c == context), List.count, ← List.countP_eq_length_filter]
    congr 1
    apply List.countP_congr
    intro c _
    simp
  have hpos : 0 < names.count context := List.count_pos_iff.mpr hmem
  rw [← List.length_pos_iff]
  omega

end Sharing

section Edits

variable {doc : Json ν} {userName context : String}

theorem editExec_shared (path : String) (huser : contextUserName doc context = some userName)
    (hshared : 1 < (contextsUsingUser doc userName).length) (f : Fields ν → Except String (Fields ν)) :
    ∃ message, editExec path doc context f = .error (.invalid message) := by
  rw [editExec, huser]
  dsimp only
  rw [if_pos hshared]
  exact ⟨_, rfl⟩

theorem editExec_alone (path : String) {exec : Fields ν} (huser : contextUserName doc context = some userName)
    (halone : ¬ 1 < (contextsUsingUser doc userName).length) (hexec : userExec doc userName = some exec)
    (hpin : Pinnable (commandOf exec)) (identity : String) :
    ∃ doc', editExec path doc context (fun exec => (writePin exec identity).map Prod.snd) = .ok doc' := by
  obtain ⟨provider, exec', hwrite⟩ := writePin_of_pinnable hpin identity
  rw [editExec, huser]
  dsimp only
  rw [if_neg halone, hexec]
  dsimp only
  rw [hwrite]
  exact ⟨_, rfl⟩

variable {provider : Provider} {binding : Binding} {ids : Identities}

theorem pinBlocked_isSome : (statusOf doc context userName provider binding ids).pinBlocked.isSome = true ↔
    (statusOf doc context userName provider binding ids).pin.isSome = true ∧ SharedUser doc userName context := by
  rw [sharedUser_iff, statusOf]
  dsimp only
  generalize (contextsUsingUser doc userName).filter (fun c => c ≠ context) = others
  cases (describe provider binding.pinnedIdentity ids.active).2 with
  | none => simp
  | some offer => cases others <;> simp

theorem statusIn_eq {exec : Fields ν} (huser : contextUserName doc context = some userName)
    (hexec : userExec doc userName = some exec)
    (hclass : classify (commandOf exec) (execArgs exec) (execEnvPairs exec) = some (provider, binding))
    (probe : Provider → Identities) :
    statusIn doc context probe = some (statusOf doc context userName provider binding (probe provider)) := by
  rw [statusIn, huser]
  dsimp only
  rw [hexec]
  dsimp only
  rw [hclass]

theorem statusIn_eq_some {probe : Provider → Identities} {status : IdentityStatus}
    (h : statusIn doc context probe = some status) : ∃ userName exec provider binding,
      contextUserName doc context = some userName ∧ userExec doc userName = some exec ∧
      classify (commandOf exec) (execArgs exec) (execEnvPairs exec) = some (provider, binding) ∧
      status = statusOf doc context userName provider binding (probe provider) := by
  rw [statusIn] at h
  split at h
  · cases h
  · next userName huser =>
    split at h
    · cases h
    · next exec hexec =>
      split at h
      · cases h
      · next provider binding hclass =>
        exact ⟨userName, exec, provider, binding, huser, hexec, hclass, (Option.some_inj.mp h).symm⟩

end Edits

variable [DecidableEq δ] {env : Env ν δ} {st : State δ} {call : PinCall δ} {raw : String} {doc : Json ν}

/-- A file is read through its links, or at the place behind them. -/
theorem textAt_iff {path : Loc δ} : TextAt st path raw ↔ ∃ mode, readFile st.fs maxLinks path = some (raw, mode) := by
  rw [TextAt]
  cases hfollow : follow st.fs maxLinks path with
  | none => rfl
  | some q =>
    rw [Option.getD_some]
    constructor
    · rintro ⟨mode, hread⟩
      rcases follow_end hfollow with ⟨c, m, hfile⟩ | hother
      · rw [readFile_of_file hfile] at hread
        exact ⟨mode, hread ▸ readFile_of_follow hfollow hfile⟩
      · obtain ⟨r, hr, hfile⟩ := readFile_eq_some hread
        by_cases hne : q = r
        · rw [← hne, hother] at hfile
          cases hfile
        · obtain ⟨t, ht⟩ := exists_link_of_ne hr hne
          rw [hother] at ht
          cases ht
    · rintro ⟨mode, hread⟩
      obtain ⟨r, hr, hfile⟩ := readFile_eq_some hread
      obtain rfl := Option.some_inj.mp (hfollow.symm.trans hr)
      exact ⟨mode, readFile_of_file hfile maxLinks⟩

theorem identityStatusWith_eq_ok {path : Loc δ} {context : String} {probe : Provider → Identities}
    {status : IdentityStatus} : identityStatusWith env st path context probe = .ok (some status) ↔
      ∃ raw doc, TextAt st path raw ∧ env.parse raw = some doc ∧ statusIn doc context probe = some status := by
  rw [identityStatusWith]
  constructor
  · intro h
    split at h
    · cases h
    · next raw mode hread =>
      split at h
      · cases h
      · next doc hparse => exact ⟨raw, doc, textAt_iff.mpr ⟨mode, hread⟩, hparse, Except.ok.inj h⟩
  · rintro ⟨raw, doc, htext, hparse, hstatus⟩
    obtain ⟨mode, hread⟩ := textAt_iff.mp htext
    rw [hread]
    dsimp only
    rw [hparse]
    exact congrArg Except.ok hstatus

/-- An edit that is turned down leaves everything as it is. -/
theorem pin_refused (htext : TextAt st call.path raw) (hparse : env.parse raw = some doc)
    (hedit : ∀ path, ∃ message, editExec path doc call.context
      (fun exec => (writePin exec (trimmed call.identity)).map Prod.snd) = .error (.invalid message)) :
    Refused (pinIdentityAt env st call).2 ∧ (pinIdentityAt env st call).1 = st := by
  obtain ⟨mode, hread⟩ := htext
  rw [pinIdentityAt]
  cases validateIdentity (trimmed call.identity) with
  | error e => exact ⟨⟨e, rfl⟩, rfl⟩
  | ok _ =>
    obtain ⟨message, hmessage⟩ := hedit (env.display ((follow st.fs maxLinks call.path).getD call.path))
    have hfile : editExecFile env st call = (st, .error (.invalid message)) := by
      rw [editExecFile, hread]
      dsimp only
      rw [Edit.apply, hparse]
      dsimp only
      rw [hmessage]
    dsimp only
    rw [hfile]
    exact ⟨⟨message, rfl⟩, rfl⟩

/-- An edit that goes through can fail only by the printer, the disk or another writer. -/
theorem pin_not_refused (htext : TextAt st call.path raw) (hparse : env.parse raw = some doc)
    (hvalid : validateIdentity (trimmed call.identity) = .ok ()) (hcalm : Undisturbed st call)
    (hedit : ∀ path, ∃ doc', editExec path doc call.context
      (fun exec => (writePin exec (trimmed call.identity)).map Prod.snd) = .ok doc') :
    ¬ Refused (pinIdentityAt env st call).2 := by
  have hnow : call.now.any (· ≠ raw) = false := by
    rw [Option.any_eq_false]
    intro now hnow
    simpa using hcalm raw htext now hnow
  obtain ⟨mode, hread⟩ := htext
  rintro ⟨message, hmessage⟩
  rw [pinIdentityAt, hvalid] at hmessage
  dsimp only at hmessage
  rw [editExecFile, hread] at hmessage
  dsimp only at hmessage
  obtain ⟨doc', hdoc⟩ := hedit (env.display ((follow st.fs maxLinks call.path).getD call.path))
  rw [Edit.apply, hparse] at hmessage
  dsimp only at hmessage
  rw [hdoc] at hmessage
  dsimp only at hmessage
  cases hprint : env.print doc' with
  | none =>
    rw [hprint] at hmessage
    cases hmessage
  | some text =>
    rw [hprint] at hmessage
    dsimp only at hmessage
    rw [hnow, if_neg Bool.false_ne_true] at hmessage
    split at hmessage
    · cases hmessage
    · split at hmessage
      · split at hmessage
        · cases hmessage
        · cases hmessage
      · cases hmessage

/-- The offer agrees with the pin exactly when the context's entry is not repeated, or another context has its user. -/
theorem offerAgrees_iff (env : Env ν δ) (st : State δ) (path : Loc δ) (context : String)
    (probe : Provider → Identities) : OfferAgrees env st path context probe ↔
      ∀ raw doc userName exec, TextAt st path raw → env.parse raw = some doc →
        contextUserName doc context = some userName → userExec doc userName = some exec →
        Pinnable (commandOf exec) →
          SharedUser doc userName context ∨ (ownEntries doc userName context).length ≤ 1 := by
  constructor
  · intro h raw doc userName exec htext hparse huser hexec hpin
    by_contra hnot
    obtain ⟨hshared, hown⟩ := not_or.mp hnot
    obtain ⟨provider, binding, hclass, hoffer⟩ := classify_of_pinnable hpin (execArgs exec) (execEnvPairs exec)
    have hstatus := statusIn_eq huser hexec hclass probe
    have hblocked : (statusOf doc context userName provider binding (probe provider)).pinBlocked = none := by
      rw [← Option.not_isSome_iff_eq_none, pinBlocked_isSome]
      exact fun hb => hshared hb.2
    have hlength : 1 < (contextsUsingUser doc userName).length := (shared_of_length huser).mpr (Or.inr (Nat.not_le.mp hown))
    have hvalid : validateIdentity (trimmed "a") = .ok () := by decide
    refine h.offered _ (identityStatusWith_eq_ok.mpr ⟨raw, doc, htext, hparse, hstatus⟩) (hoffer _ _) hblocked
      ⟨path, context, "a", none, false, false, none, none⟩ rfl rfl hvalid (fun _ _ _ hnow => by cases hnow) ?_
    exact (pin_refused htext hparse fun path => editExec_shared path huser hlength _).1
  · intro h
    constructor
    case offered =>
      rintro status hstatus hoffer hblocked call rfl rfl hvalid hcalm
      obtain ⟨raw, doc, htext, hparse, hstatus⟩ := identityStatusWith_eq_ok.mp hstatus
      obtain ⟨userName, exec, provider, binding, huser, hexec, hclass, rfl⟩ := statusIn_eq_some hstatus
      have hpin : Pinnable (commandOf exec) := pinnable_of_offer hclass hoffer
      have hshared : ¬ SharedUser doc userName call.context := fun hs => by
        rw [← Option.not_isSome_iff_eq_none, pinBlocked_isSome] at hblocked
        exact hblocked ⟨hoffer, hs⟩
      have hown := (h raw doc userName exec htext hparse huser hexec hpin).resolve_left hshared
      have halone : ¬ 1 < (contextsUsingUser doc userName).length := by
        rw [shared_of_length huser]
        exact not_or.mpr ⟨hshared, Nat.not_lt.mpr hown⟩
      exact pin_not_refused htext hparse hvalid hcalm fun path => editExec_alone path huser halone hexec hpin _
    case blocked =>
      rintro status hstatus hblocked call rfl rfl
      obtain ⟨raw, doc, htext, hparse, hstatus⟩ := identityStatusWith_eq_ok.mp hstatus
      obtain ⟨userName, exec, provider, binding, huser, -, -, rfl⟩ := statusIn_eq_some hstatus
      have hlength := (shared_of_length huser).mpr (Or.inl (pinBlocked_isSome.mp hblocked).2)
      exact pin_refused htext hparse fun path => editExec_shared path huser hlength _

/-- A context that is there twice. -/
def twiceDoc : Json Unit :=
  .obj [("contexts", .arr [.obj [("name", .str "dev"), ("context", .obj [("user", .str "u")])],
      .obj [("name", .str "dev"), ("context", .obj [("user", .str "u")])]]),
    ("users", .arr [.obj [("name", .str "u"), ("user", .obj [("exec",
      .obj [("command", .str "gke-gcloud-auth-plugin")])])]])]

def twiceEnv : Env Unit Unit := { commentedEnv with parse := fun _ => some twiceDoc }

def twoAccounts : Identities := ⟨["a", "b"], some "a"⟩

/-- The user is offered a pin, and no identity can be pinned. -/
theorem not_offerAgrees_twice : ¬ OfferAgrees twiceEnv commentedState pinnedLoc "dev" fun _ => twoAccounts := by
  intro h
  have hstatus : identityStatusWith twiceEnv commentedState pinnedLoc "dev" (fun _ => twoAccounts) =
      .ok (some (statusOf twiceDoc "dev" "u" .gcloud .followsActive twoAccounts)) := rfl
  have hpin := h.offered _ hstatus rfl rfl repin rfl rfl (by decide) fun raw htext now hnow => by
    obtain ⟨mode, hread⟩ := htext
    obtain ⟨rfl, -⟩ := Prod.mk.inj (Option.some_inj.mp hread)
    exact (Option.some_inj.mp hnow).symm
  exact hpin (pin_refused textAt_commented rfl fun path => editExec_shared path rfl (by decide) _).1

end FerrisScope.KubeconfigEdits
