import FerrisScope.HostsFile
import FerrisScope.JsonValue

/-!
# Pinning a cloud identity

The exec entry of a kubeconfig user names an identity by a flag or by environment variables. The
classifier reads the first place with a value that is not blank; a pin writes to each place that
names one, and adds one when there is none. Writing and reading scan the arguments separately. A
mapping keeps its entries in the order of their insertion.
-/

namespace FerrisScope.IdentityPin
open Json
open HostsFile (trim isWhitespace)

variable {ν : Type}

inductive Provider where
  | gcloud
  | aws
  | azure
  deriving DecidableEq, Repr

inductive Binding where
  | pinned (identity : String)
  | followsActive
  deriving DecidableEq, Repr

def maxLen : Nat := 256

/-- The characters of the Unicode category `Cc`. -/
def isControl (c : Char) : Bool := c.toNat < 0x20 || (0x7F ≤ c.toNat && c.toNat ≤ 0x9F)

def validateIdentity (identity : String) : Except String Unit :=
  if identity = "" then .error "identity must not be empty"
  else if maxLen < identity.utf8ByteSize then
    .error ("identity is " ++ toString identity.utf8ByteSize ++ " bytes; the limit is " ++ toString maxLen)
  else if identity.toList.any isControl then
    .error "identity must not contain control characters or newlines"
  else .ok ()

def trimmed (s : String) : String := String.ofList (trim s.toList)

def stripPrefix (p s : String) : Option String :=
  if p.toList.isPrefixOf s.toList then some (String.ofList (s.toList.drop p.toList.length)) else none

/-- The last part of a path, without `.exe`. -/
def commandBasename (command : String) : String :=
  let base := (command.toList.reverse.takeWhile fun c => c ≠ '/' && c ≠ '\\').reverse
  String.ofList (if ".exe".toList.isSuffixOf base then base.take (base.length - 4) else base)

/-- The value of `--flag=x` or `--flag x`. -/
def flagValue (flag : String) : List String → Option String
  | [] => none
  | arg :: rest =>
    match stripPrefix (flag ++ "=") arg with
    | some value => if trimmed value = "" then flagValue flag rest else some (trimmed value)
    | none =>
      if arg = flag then
        match rest with
        | [] => none
        | value :: rest' => if trimmed value = "" then flagValue flag rest' else some (trimmed value)
      else flagValue flag rest

/-- The first value of a variable that is not blank. -/
def execEnv (env : List (String × String)) (key : String) : Option String :=
  (env.find? fun p => p.1 = key && trimmed p.2 ≠ "").map fun p => trimmed p.2

namespace Gcloud

def ownsCommands : List String := ["gke-gcloud-auth-plugin", "gcloud"]

def accountFlag : String := "--account"

def accountEnv : String := "CLOUDSDK_CORE_ACCOUNT"

def bindingFor (basename : String) (args : List String) (env : List (String × String)) : Option Binding :=
  if basename ∈ ownsCommands then
    match (flagValue accountFlag args).or (execEnv env accountEnv) with
    | some identity => some (.pinned identity)
    | none => some .followsActive
  else none

end Gcloud

namespace Aws

def ownsCommands : List String := ["aws", "aws-iam-authenticator"]

def profileFlag : String := "--profile"

def profileEnvs : List String := ["AWS_DEFAULT_PROFILE", "AWS_PROFILE"]

def bindingFor (basename : String) (args : List String) (env : List (String × String)) : Option Binding :=
  if basename ∈ ownsCommands then
    match ((flagValue profileFlag args).or (execEnv env "AWS_DEFAULT_PROFILE")).or (execEnv env "AWS_PROFILE") with
    | some identity => some (.pinned identity)
    | none => some .followsActive
  else none

end Aws

namespace Azure

def ownsCommands : List String := ["kubelogin"]

def azurecliLogin : String := "azurecli"

def bindingFor (basename : String) (args : List String) (env : List (String × String)) : Option Binding :=
  if basename ∈ ownsCommands then
    match ((flagValue "--login" args).or (flagValue "-l" args)).or (execEnv env "AAD_LOGIN_METHOD") with
    | some mode => if mode = azurecliLogin then some .followsActive else none
    | none => none
  else none

end Azure

/-- The provider of an exec entry, and how the entry decides on the identity. -/
def classify (command : String) (args : List String) (env : List (String × String)) : Option (Provider × Binding) :=
  let base := commandBasename command
  (((Gcloud.bindingFor base args env).map (Provider.gcloud, ·)).or
    ((Aws.bindingFor base args env).map (Provider.aws, ·))).or
    ((Azure.bindingFor base args env).map (Provider.azure, ·))

/-- Insertion into a mapping: in place, or at the end. -/
def insertEntry (k : String) (v : Json ν) : Fields ν → Fields ν
  | [] => [(k, v)]
  | (k', v') :: fs => if k' = k then (k', v) :: fs else (k', v') :: insertEntry k v fs

/-- The items of a list in a mapping. -/
def listAt (k : String) (fs : Fields ν) : List (Json ν) :=
  match find k fs with
  | some (.arr xs) => xs
  | _ => []

def commandOf (exec : Fields ν) : String := ((find "command" exec).bind asStr).getD ""

def execArgs (exec : Fields ν) : List String := (listAt "args" exec).filterMap asStr

/-- An entry of the environment block. -/
def pairOf (e : Json ν) : Option (String × String) :=
  match (e.get? "name").bind asStr, (e.get? "value").bind asStr with
  | some name, some value => some (name, value)
  | _, _ => none

def execEnvPairs (exec : Fields ν) : List (String × String) := (listAt "env" exec).filterMap pairOf

def isAssigned (flag arg : String) : Bool := (stripPrefix flag arg).any fun r => r.toList.head? = some '='

def hasFlag (flag : String) (args : List String) : Bool := args.any fun a => a = flag || isAssigned flag a

/-- The arguments that do not belong to the flag. -/
def withoutFlag (flag : String) : (skipNext : Bool) → List String → List String
  | _, [] => []
  | true, _ :: rest => withoutFlag flag false rest
  | false, arg :: rest =>
    if arg = flag then withoutFlag flag true rest
    else if isAssigned flag arg then withoutFlag flag false rest
    else arg :: withoutFlag flag false rest

def setFlagArg (args : List String) (flag value : String) : List String :=
  withoutFlag flag false args ++ [flag ++ "=" ++ value]

def setExecArgs (exec : Fields ν) (args : List String) : Fields ν := insertEntry "args" (.arr (args.map .str)) exec

def isNamed (key : String) (e : Json ν) : Bool := (e.get? "name").bind asStr = some key

/-- The value of an entry is replaced if it has the name. -/
def setEntry (key value : String) (e : Json ν) : Json ν :=
  if isNamed key e then
    match e with
    | .obj fs => .obj (insertEntry "value" (.str value) fs)
    | e => e
  else e

def newEntry (key value : String) : Json ν := .obj [("name", .str key), ("value", .str value)]

def setEntries (key value : String) (entries : List (Json ν)) : List (Json ν) :=
  entries.map (setEntry key value) ++ if entries.any (isNamed key) then [] else [newEntry key value]

def setExecEnv (exec : Fields ν) (key value : String) : Fields ν :=
  insertEntry "env" (.arr (setEntries key value (listAt "env" exec))) exec

/-- The flag and the variable are rewritten where they are, and the flag is added when there is no variable. -/
def Gcloud.writePin (exec : Fields ν) (identity : String) : Fields ν :=
  let args := execArgs exec
  let inEnv := (execEnv (execEnvPairs exec) accountEnv).isSome
  let exec := if inEnv then setExecEnv exec accountEnv identity else exec
  if !inEnv || hasFlag accountFlag args then setExecArgs exec (setFlagArg args accountFlag identity) else exec

/-- The flag and the variables are rewritten where they are, and `AWS_PROFILE` is added when there is none. -/
def Aws.writePin (exec : Fields ν) (identity : String) : Fields ν :=
  let args := execArgs exec
  let env := execEnvPairs exec
  let flagged := hasFlag profileFlag args
  let exec := if flagged then setExecArgs exec (setFlagArg args profileFlag identity) else exec
  let exec := profileEnvs.foldl
    (fun exec key => if (execEnv env key).isSome then setExecEnv exec key identity else exec) exec
  if flagged || profileEnvs.any (fun key => (execEnv env key).isSome) then exec
  else setExecEnv exec "AWS_PROFILE" identity

/-- A pin, by the provider of the command. -/
def writePin (exec : Fields ν) (identity : String) : Except String (Provider × Fields ν) :=
  let command := commandOf exec
  if commandBasename command ∈ Gcloud.ownsCommands then .ok (.gcloud, Gcloud.writePin exec identity)
  else if commandBasename command ∈ Aws.ownsCommands then .ok (.aws, Aws.writePin exec identity)
  else if commandBasename command ∈ Azure.ownsCommands then
    .error "kubelogin has no per-context account flag — switch with `az account set` instead"
  else .error ("exec plugin '" ++ command ++ "' has no cloud identity to pin")

def flagOf : Provider → String
  | .gcloud => Gcloud.accountFlag
  | .aws => Aws.profileFlag
  | .azure => "--login"

def envsOf : Provider → List String
  | .gcloud => [Gcloud.accountEnv]
  | .aws => Aws.profileEnvs
  | .azure => ["AAD_LOGIN_METHOD"]

/-- The arguments in order without the uses of a flag: `--flag=x`, `--flag x`, and `--flag` at the end. -/
inductive OtherArgs (flag : String) : (args others : List String) → Prop
  | nil : OtherArgs flag [] []
  | assigned {value rest others} (h : OtherArgs flag rest others) :
      OtherArgs flag ((flag ++ "=" ++ value) :: rest) others
  | separate {value rest others} (h : OtherArgs flag rest others) : OtherArgs flag (flag :: value :: rest) others
  | dangling : OtherArgs flag [flag] []
  | other {arg rest others} (hflag : arg ≠ flag) (hassigned : ∀ value, arg ≠ flag ++ "=" ++ value)
      (h : OtherArgs flag rest others) : OtherArgs flag (arg :: rest) (arg :: others)

/-- All arguments are strings. -/
def StringArgs (exec : Fields ν) : Prop := listAt "args" exec = (execArgs exec).map .str

/-- The entry names the identity wherever it names one, and nothing else has changed. -/
structure PinTakesEffect (p : Provider) (identity : String) (exec exec' : Fields ν) : Prop where
  pinned : classify (commandOf exec') (execArgs exec') (execEnvPairs exec') = some (p, .pinned identity)
  flag : ∀ v, flagValue (flagOf p) (execArgs exec') = some v → v = identity
  envs : ∀ q ∈ execEnvPairs exec', q.1 ∈ envsOf p → trimmed q.2 ≠ "" → trimmed q.2 = identity
  args : ∃ others, OtherArgs (flagOf p) (execArgs exec) others ∧ OtherArgs (flagOf p) (execArgs exec') others
  strings : StringArgs exec'
  entries : (listAt "env" exec').filter (fun e => !(envsOf p).any (isNamed · e)) =
    (listAt "env" exec).filter fun e => !(envsOf p).any (isNamed · e)
  rest : ∀ k, k ≠ "args" → k ≠ "env" → find k exec' = find k exec

section Args

variable {flag arg value : String} {args others : List String}

theorem stripPrefix_eq_some_iff {p s r : String} : stripPrefix p s = some r ↔ s = p ++ r := by
  unfold stripPrefix
  split
  · rename_i h
    obtain ⟨t, ht⟩ := List.isPrefixOf_iff_prefix.mp h
    rw [← ht, List.drop_left, Option.some.injEq]
    constructor
    · rintro rfl
      rw [← String.toList_inj, String.toList_append, String.toList_ofList, ht]
    · rintro rfl
      rw [String.toList_append] at ht
      rw [List.append_cancel_left ht, String.ofList_toList]
  · rename_i h
    refine iff_of_false (by simp) ?_
    rintro rfl
    exact h (List.isPrefixOf_iff_prefix.mpr (by rw [String.toList_append]; exact List.prefix_append ..))

theorem isAssigned_iff : isAssigned flag arg = true ↔ ∃ value, arg = flag ++ "=" ++ value := by
  unfold isAssigned
  rw [Option.any_eq_true]
  constructor
  · rintro ⟨r, hr, hhead⟩
    obtain ⟨tail, htail⟩ := List.head?_eq_some_iff.mp (of_decide_eq_true hhead)
    refine ⟨String.ofList tail, ?_⟩
    have hr' : r = "=" ++ String.ofList tail := by
      rw [← String.toList_inj, htail]
      simp
    rw [stripPrefix_eq_some_iff.mp hr, hr', String.append_assoc]
  · rintro ⟨value, rfl⟩
    refine ⟨"=" ++ value, stripPrefix_eq_some_iff.mpr (String.append_assoc ..), ?_⟩
    rw [String.toList_append]
    rfl

theorem stripPrefix_eq_none (h : ∀ value, arg ≠ flag ++ "=" ++ value) : stripPrefix (flag ++ "=") arg = none :=
  Option.eq_none_iff_forall_ne_some.mpr fun value hvalue => h value (stripPrefix_eq_some_iff.mp hvalue)

theorem otherArgs_withoutFlag (flag : String) : ∀ args, OtherArgs flag args (withoutFlag flag false args)
  | [] => .nil
  | [arg] => by
    rw [withoutFlag]
    split
    · rename_i harg
      exact harg ▸ .dangling
    · rename_i harg
      split
      · rename_i hassigned
        obtain ⟨value, rfl⟩ := isAssigned_iff.mp hassigned
        exact .assigned .nil
      · rename_i hassigned
        exact .other harg (fun value hvalue => hassigned (isAssigned_iff.mpr ⟨value, hvalue⟩)) .nil
  | arg :: next :: rest => by
    rw [withoutFlag]
    split
    · rename_i harg
      rw [harg, withoutFlag]
      exact .separate (otherArgs_withoutFlag flag rest)
    · rename_i harg
      split
      · rename_i hassigned
        obtain ⟨value, rfl⟩ := isAssigned_iff.mp hassigned
        exact .assigned (otherArgs_withoutFlag flag (next :: rest))
      · rename_i hassigned
        exact .other harg (fun value hvalue => hassigned (isAssigned_iff.mpr ⟨value, hvalue⟩))
          (otherArgs_withoutFlag flag (next :: rest))

/-- An argument that is no use of the flag. -/
def IsOther (flag arg : String) : Prop := arg ≠ flag ∧ ∀ value, arg ≠ flag ++ "=" ++ value

theorem isOther_of_otherArgs (h : OtherArgs flag args others) : ∀ a ∈ others, IsOther flag a := by
  induction h with
  | nil => exact List.forall_mem_nil _
  | assigned _ ih => exact ih
  | separate _ ih => exact ih
  | dangling => exact List.forall_mem_nil _
  | other hflag hassigned _ ih => exact List.forall_mem_cons.mpr ⟨⟨hflag, hassigned⟩, ih⟩

theorem otherArgs_append (h : ∀ a ∈ others, IsOther flag a) (value : String) :
    OtherArgs flag (others ++ [flag ++ "=" ++ value]) others := by
  induction others with
  | nil => exact .assigned .nil
  | cons a others ih =>
    obtain ⟨ha, hothers⟩ := List.forall_mem_cons.mp h
    exact .other ha.1 ha.2 (ih hothers)

theorem withoutFlag_of_otherArgs (h : OtherArgs flag args others) : withoutFlag flag false args = others := by
  induction h with
  | nil => rfl
  | @assigned value rest others _ ih =>
    rw [withoutFlag]
    split
    · rename_i heq
      have hlen := congrArg (fun s => s.toList.length) heq
      simp at hlen
    · rw [if_pos (isAssigned_iff.mpr ⟨value, rfl⟩), ih]
  | separate _ ih => rw [withoutFlag, if_pos rfl, withoutFlag, ih]
  | dangling => rw [withoutFlag, if_pos rfl, withoutFlag]
  | other hflag hassigned _ ih =>
    have hnot : ¬isAssigned flag _ = true := fun h => (isAssigned_iff.mp h).elim hassigned
    rw [withoutFlag, if_neg hflag, if_neg hnot, ih]

theorem flagValue_append (h : ∀ a ∈ others, IsOther flag a) (rest : List String) :
    flagValue flag (others ++ rest) = flagValue flag rest := by
  induction others with
  | nil => rfl
  | cons a others ih =>
    obtain ⟨ha, hothers⟩ := List.forall_mem_cons.mp h
    rw [List.cons_append, flagValue.eq_def]
    dsimp only
    rw [stripPrefix_eq_none ha.2]
    dsimp only
    rw [if_neg ha.1, ih hothers]

theorem flagValue_setFlagArg (hvalue : trimmed value ≠ "") : flagValue flag (setFlagArg args flag value) = some (trimmed value) := by
  have hothers := isOther_of_otherArgs (otherArgs_withoutFlag flag args)
  rw [setFlagArg, flagValue_append hothers, flagValue, stripPrefix_eq_some_iff.mpr rfl]
  dsimp only
  rw [if_neg hvalue]

theorem setFlagArg_idem (args : List String) (flag value : String) :
    setFlagArg (setFlagArg args flag value) flag value = setFlagArg args flag value := by
  have hothers := isOther_of_otherArgs (otherArgs_withoutFlag flag args)
  have hagain := withoutFlag_of_otherArgs (otherArgs_append hothers value)
  rw [setFlagArg, setFlagArg, hagain]

theorem hasFlag_setFlagArg (args : List String) (flag value : String) : hasFlag flag (setFlagArg args flag value) = true := by
  have hassigned : isAssigned flag (flag ++ "=" ++ value) = true := isAssigned_iff.mpr ⟨value, rfl⟩
  simp [hasFlag, setFlagArg, hassigned]

/-- Without the flag there is no value of it. -/
theorem flagValue_of_hasFlag (h : hasFlag flag args = false) : flagValue flag args = none := by
  have hothers : ∀ a ∈ args, IsOther flag a := by
    intro a ha
    have hnot := List.any_eq_false.mp h a ha
    simp only [Bool.or_eq_true, decide_eq_true_eq, not_or] at hnot
    exact ⟨hnot.1, fun value hvalue => hnot.2 (isAssigned_iff.mpr ⟨value, hvalue⟩)⟩
  have hend := flagValue_append hothers []
  rwa [List.append_nil, flagValue] at hend

end Args

section Entries

variable {k k' key key' value identity : String} {v : Json ν} {fs exec : Fields ν} {e : Json ν} {es : List (Json ν)}

@[simp] theorem find_insertEntry_self (k : String) (v : Json ν) (fs : Fields ν) : find k (insertEntry k v fs) = some v := by
  induction fs with
  | nil => simp [insertEntry, find_cons]
  | cons f fs ih =>
    obtain ⟨k', v'⟩ := f
    rw [insertEntry]
    split
    · rename_i hk
      rw [find_cons, if_pos hk]
    · rename_i hk
      rw [find_cons, if_neg hk, ih]

theorem find_insertEntry_of_ne (h : k' ≠ k) (v : Json ν) (fs : Fields ν) :
    find k' (insertEntry k v fs) = find k' fs := by
  induction fs with
  | nil => simp [insertEntry, find_cons, h.symm]
  | cons f fs ih =>
    obtain ⟨k₂, v₂⟩ := f
    rw [insertEntry]
    split
    · rename_i hk
      have hne : k₂ ≠ k' := fun he => h (he ▸ hk)
      rw [find_cons, find_cons, if_neg hne, if_neg hne]
    · rw [find_cons, find_cons, ih]

/-- Writing a value that is there changes nothing. -/
theorem insertEntry_of_find (h : find k fs = some v) : insertEntry k v fs = fs := by
  induction fs with
  | nil => cases h
  | cons f fs ih =>
    obtain ⟨k', v'⟩ := f
    rw [find_cons] at h
    rw [insertEntry]
    split
    · rename_i hk
      rw [if_pos hk] at h
      cases h
      rfl
    · rename_i hk
      rw [if_neg hk] at h
      rw [ih h]

@[simp] theorem listAt_insertEntry_self (k : String) (xs : List (Json ν)) (fs : Fields ν) :
    listAt k (insertEntry k (.arr xs) fs) = xs := by
  rw [listAt, find_insertEntry_self]

theorem listAt_insertEntry_of_ne (h : k' ≠ k) (v : Json ν) (fs : Fields ν) :
    listAt k' (insertEntry k v fs) = listAt k' fs := by
  rw [listAt, find_insertEntry_of_ne h, listAt]

/-- A list that is not empty is read as it is in the mapping. -/
theorem insertEntry_listAt (h : listAt k fs ≠ []) : insertEntry k (.arr (listAt k fs)) fs = fs := by
  refine insertEntry_of_find ?_
  unfold listAt at h ⊢
  split
  · assumption
  · rename_i hnot
    exact absurd (by split <;> simp_all) h

theorem execArgs_setExecArgs (exec : Fields ν) (args : List String) : execArgs (setExecArgs exec args) = args := by
  rw [execArgs, setExecArgs, listAt_insertEntry_self, List.filterMap_map]
  exact List.filterMap_some

theorem stringArgs_setExecArgs (exec : Fields ν) (args : List String) : StringArgs (setExecArgs exec args) := by
  rw [StringArgs, execArgs_setExecArgs, setExecArgs, listAt_insertEntry_self]

theorem find_setExecArgs (h : k ≠ "args") (exec : Fields ν) (args : List String) :
    find k (setExecArgs exec args) = find k exec := find_insertEntry_of_ne h ..

theorem find_setExecEnv (h : k ≠ "env") (exec : Fields ν) (key value : String) :
    find k (setExecEnv exec key value) = find k exec := find_insertEntry_of_ne h ..

@[simp] theorem env_setExecArgs (exec : Fields ν) (args : List String) :
    listAt "env" (setExecArgs exec args) = listAt "env" exec := listAt_insertEntry_of_ne (by decide) ..

@[simp] theorem env_setExecEnv (exec : Fields ν) (key value : String) :
    listAt "env" (setExecEnv exec key value) = setEntries key value (listAt "env" exec) := listAt_insertEntry_self ..

@[simp] theorem args_setExecEnv (exec : Fields ν) (key value : String) :
    listAt "args" (setExecEnv exec key value) = listAt "args" exec := listAt_insertEntry_of_ne (by decide) ..

@[simp] theorem execArgs_setExecEnv (exec : Fields ν) (key value : String) :
    execArgs (setExecEnv exec key value) = execArgs exec := by
  rw [execArgs, args_setExecEnv, execArgs]

theorem stringArgs_setExecEnv (h : StringArgs exec) (key value : String) : StringArgs (setExecEnv exec key value) := by
  rw [StringArgs, args_setExecEnv, execArgs_setExecEnv]
  exact h

/-- Writing the arguments that are there changes nothing. -/
theorem setExecArgs_self (h : StringArgs exec) (hne : execArgs exec ≠ []) : setExecArgs exec (execArgs exec) = exec := by
  rw [setExecArgs, ← h]
  refine insertEntry_listAt fun hnil => hne ?_
  rw [execArgs, hnil, List.filterMap_nil]

/-- An entry with the name is a mapping. -/
theorem exists_of_isNamed (h : isNamed key e = true) : ∃ fs, e = .obj fs ∧ find "name" fs = some (.str key) := by
  rw [isNamed, decide_eq_true_eq, Option.bind_eq_some_iff] at h
  obtain ⟨name, hname, hstr⟩ := h
  cases e with
  | obj fs =>
    cases name with
    | str s =>
      cases hstr
      exact ⟨fs, rfl, hname⟩
    | _ => cases hstr
  | _ => cases hname

theorem isNamed_obj : isNamed key (.obj fs) = decide ((find "name" fs).bind asStr = some key) := rfl

theorem setEntry_of_not (h : isNamed key e = false) : setEntry key value e = e := by
  unfold setEntry
  rw [h, if_neg Bool.false_ne_true]

theorem setEntry_of_isNamed (h : isNamed key (.obj fs) = true) :
    setEntry key value (.obj fs) = .obj (insertEntry "value" (.str value) fs) := by
  rw [setEntry, h, if_pos rfl]

@[simp] theorem isNamed_setEntry (k key value : String) (e : Json ν) : isNamed k (setEntry key value e) = isNamed k e := by
  cases h : isNamed key e with
  | false => rw [setEntry_of_not h]
  | true =>
    obtain ⟨fs, rfl, -⟩ := exists_of_isNamed h
    rw [setEntry_of_isNamed h, isNamed_obj, isNamed_obj, find_insertEntry_of_ne (by decide)]

theorem setEntry_idem (key value : String) (e : Json ν) :
    setEntry key value (setEntry key value e) = setEntry key value e := by
  cases h : isNamed key e with
  | false => rw [setEntry_of_not h, setEntry_of_not h]
  | true =>
    obtain ⟨fs, rfl, -⟩ := exists_of_isNamed h
    have h' : isNamed key (.obj (insertEntry "value" (.str value) fs)) = true := by
      rw [← setEntry_of_isNamed h, isNamed_setEntry, h]
    rw [setEntry_of_isNamed h, setEntry_of_isNamed h', insertEntry_of_find (find_insertEntry_self ..)]

/-- An entry has one name. -/
theorem isNamed_eq_false_of_ne (h : isNamed key e = true) (hne : key' ≠ key) : isNamed key' e = false := by
  obtain ⟨fs, rfl, hname⟩ := exists_of_isNamed h
  simp [isNamed_obj, hname, asStr, hne.symm]

theorem setEntry_comm (hne : key' ≠ key) (value value' : String) (e : Json ν) :
    setEntry key value (setEntry key' value' e) = setEntry key' value' (setEntry key value e) := by
  cases h : isNamed key e with
  | true =>
    have h' := isNamed_eq_false_of_ne h hne
    have hset : isNamed key' (setEntry key value e) = false := by rw [isNamed_setEntry, h']
    rw [setEntry_of_not h', setEntry_of_not hset]
  | false =>
    have hset : isNamed key (setEntry key' value' e) = false := by rw [isNamed_setEntry, h]
    rw [setEntry_of_not h, setEntry_of_not hset]

theorem isNamed_of_pairOf {q : String × String} (h : pairOf e = some q) : isNamed q.1 e = true := by
  unfold pairOf at h
  split at h
  · rename_i name value hname _
    cases h
    exact decide_eq_true hname
  · cases h

theorem pairOf_setEntry (h : isNamed key e = true) (value : String) : pairOf (setEntry key value e) = some (key, value) := by
  obtain ⟨fs, rfl, hname⟩ := exists_of_isNamed h
  rw [setEntry_of_isNamed h]
  simp [pairOf, get?, find_insertEntry_of_ne, hname, asStr]

/-- Some entry has the name, and all that do have the value. -/
def Settled (key value : String) (es : List (Json ν)) : Prop :=
  es.any (isNamed key) = true ∧ ∀ e ∈ es, setEntry key value e = e

theorem settled_setEntries (key value : String) (es : List (Json ν)) : Settled key value (setEntries key value es) := by
  have hnew : isNamed key (newEntry key value : Json ν) = true := decide_eq_true rfl
  refine ⟨?_, fun e he => ?_⟩
  · unfold setEntries
    split
    · rename_i hany
      obtain ⟨e, he, hnamed⟩ := List.any_eq_true.mp hany
      rw [List.append_nil]
      exact List.any_eq_true.mpr ⟨_, List.mem_map_of_mem he, by rw [isNamed_setEntry, hnamed]⟩
    · rw [List.any_append, List.any_cons, hnew, Bool.true_or, Bool.or_true]
  · rcases List.mem_append.mp he with he | he
    · obtain ⟨e', -, rfl⟩ := List.mem_map.mp he
      exact setEntry_idem ..
    · split at he
      · cases he
      · rw [List.mem_singleton.mp he]
        exact setEntry_of_isNamed hnew

theorem setEntries_of_settled (h : Settled key value es) : setEntries key value es = es := by
  rw [setEntries, h.1, if_pos rfl, List.append_nil]
  exact (List.map_congr_left h.2).trans (List.map_id' es)

theorem Settled.setEntries (h : Settled key value es) (hne : key' ≠ key) (value' : String) :
    Settled key value (setEntries key' value' es) := by
  refine ⟨?_, fun e he => ?_⟩
  · obtain ⟨e, he, hnamed⟩ := List.any_eq_true.mp h.1
    refine List.any_eq_true.mpr ⟨_, List.mem_append_left _ (List.mem_map_of_mem he), ?_⟩
    rw [isNamed_setEntry, hnamed]
  · rcases List.mem_append.mp he with he | he
    · obtain ⟨e', he', rfl⟩ := List.mem_map.mp he
      rw [setEntry_comm hne, h.2 e' he']
    · split at he
      · cases he
      · rw [List.mem_singleton.mp he]
        exact setEntry_of_not (isNamed_eq_false_of_ne (decide_eq_true rfl) hne.symm)

/-- The pairs of settled entries. -/
theorem Settled.pairs (h : Settled key value es) {q : String × String} (hq : q ∈ es.filterMap pairOf)
    (hkey : q.1 = key) : q.2 = value := by
  obtain ⟨e, he, hpair⟩ := List.mem_filterMap.mp hq
  have hset := pairOf_setEntry (hkey ▸ isNamed_of_pairOf hpair) value
  rw [h.2 e he, hpair, Option.some.injEq] at hset
  rw [hset]

theorem Settled.execEnv (h : Settled key value es) (hvalue : trimmed value ≠ "") :
    execEnv (es.filterMap pairOf) key = some (trimmed value) := by
  obtain ⟨e, he, hnamed⟩ := List.any_eq_true.mp h.1
  have hpair := pairOf_setEntry hnamed value
  rw [h.2 e he] at hpair
  have hmem : (key, value) ∈ es.filterMap pairOf := List.mem_filterMap.mpr ⟨e, he, hpair⟩
  unfold IdentityPin.execEnv
  cases hfind : (es.filterMap pairOf).find? (fun p => p.1 = key && trimmed p.2 ≠ "") with
  | none =>
    have hnone := List.find?_eq_none.mp hfind _ hmem
    simp [hvalue] at hnone
  | some q =>
    have hq := List.find?_some hfind
    simp only [Bool.and_eq_true, decide_eq_true_eq] at hq
    rw [Option.map_some, h.pairs (List.mem_of_find?_eq_some hfind) hq.1]

theorem execEnv_eq_none {env : List (String × String)} (h : execEnv env key = none) {q : String × String} (hq : q ∈ env)
    (hkey : q.1 = key) : trimmed q.2 = "" := by
  rw [execEnv, Option.map_eq_none_iff, List.find?_eq_none] at h
  simpa [hkey] using h q hq

/-- Only the entries with a name count for its value. -/
theorem execEnv_setEntries (hne : key' ≠ key) (value : String) (es : List (Json ν)) :
    execEnv ((setEntries key value es).filterMap pairOf) key' = execEnv (es.filterMap pairOf) key' := by
  have hfilter (ps : List (String × String)) :
      execEnv ps key' = execEnv (ps.filter fun p => p.1 = key') key' := by
    unfold execEnv
    rw [List.find?_filter]
    refine congrArg _ (congrFun (congrArg _ (funext fun p => ?_)) ps)
    by_cases hp : p.1 = key' <;> simp [hp]
  have hpair (e : Json ν) : (pairOf (setEntry key value e)).filter (fun p => p.1 = key') =
      (pairOf e).filter fun p => p.1 = key' := by
    cases h : isNamed key e with
    | false => rw [setEntry_of_not h]
    | true =>
      rw [pairOf_setEntry h]
      have hnone : (pairOf e).filter (fun p => p.1 = key') = none := by
        rw [Option.filter_eq_none_iff]
        intro q hq hkey
        have hnamed := isNamed_of_pairOf hq
        rw [of_decide_eq_true hkey, isNamed_eq_false_of_ne h hne] at hnamed
        cases hnamed
      rw [hnone]
      simp [hne.symm]
  have hnew : (pairOf (newEntry key value : Json ν)).filter (fun p => p.1 = key') = none := by
    simp [newEntry, pairOf, get?, find_cons, asStr, hne.symm]
  rw [hfilter, hfilter (es.filterMap pairOf), List.filter_filterMap, List.filter_filterMap, setEntries,
    List.filterMap_append, List.filterMap_map]
  have hsame := List.filterMap_congr (l := es) fun e _ => hpair e
  rw [show ((fun x => (pairOf x).filter fun p => p.1 = key') ∘ setEntry key value) =
    fun e => (pairOf (setEntry key value e)).filter fun p => p.1 = key' from rfl, hsame]
  split
  · rw [List.filterMap_nil, List.append_nil]
  · have hlast : [newEntry key value].filterMap (fun e : Json ν => (pairOf e).filter fun p => p.1 = key') = [] := by
      refine List.filterMap_eq_nil_iff.mpr fun e he => ?_
      rw [List.mem_singleton.mp he, hnew]
    rw [hlast, List.append_nil]

/-- Entries with other names are left alone. -/
theorem filter_setEntries {keys : List String} (hkey : key ∈ keys) (value : String) (es : List (Json ν)) :
    (setEntries key value es).filter (fun e => !keys.any (isNamed · e)) = es.filter fun e => !keys.any (isNamed · e) := by
  have hnew : (!keys.any (isNamed · (newEntry key value : Json ν))) = false := by
    rw [Bool.not_eq_false', List.any_eq_true]
    exact ⟨key, hkey, decide_eq_true rfl⟩
  have hmap : (es.map (setEntry key value)).filter (fun e => !keys.any (isNamed · e)) =
      es.filter fun e => !keys.any (isNamed · e) := by
    induction es with
    | nil => rfl
    | cons e es ih =>
      rw [List.map_cons, List.filter_cons, List.filter_cons, ih]
      simp only [isNamed_setEntry]
      split
      · rename_i hother
        have hnot : isNamed key e = false := by
          simp only [Bool.not_eq_true', List.any_eq_false, Bool.not_eq_true] at hother
          exact hother key hkey
        rw [setEntry_of_not hnot]
      · rfl
  rw [setEntries, List.filter_append, hmap]
  split
  · rw [List.filter_nil, List.append_nil]
  · rw [List.filter_cons_of_neg (by rw [hnew]; exact Bool.false_ne_true), List.filter_nil, List.append_nil]

end Entries

section Pinned

variable {exec exec' : Fields ν} {identity : String} {p : Provider}

/-- Every source of the identity that says anything says the same, and one does. -/
structure NamesOnly (p : Provider) (identity : String) (exec : Fields ν) : Prop where
  strings : StringArgs exec
  args : hasFlag (flagOf p) (execArgs exec) = true →
    setFlagArg (execArgs exec) (flagOf p) identity = execArgs exec
  envs : ∀ key ∈ envsOf p, Settled key identity (listAt "env" exec) ∨ execEnv (execEnvPairs exec) key = none
  named : hasFlag (flagOf p) (execArgs exec) = true ∨ ∃ key ∈ envsOf p, Settled key identity (listAt "env" exec)

theorem NamesOnly.flagValue (h : NamesOnly p identity exec) (hid : trimmed identity = identity) (hne : identity ≠ "") :
    flagValue (flagOf p) (execArgs exec) =
      if hasFlag (flagOf p) (execArgs exec) then some identity else none := by
  split
  · rename_i hflag
    rw [← h.args hflag, flagValue_setFlagArg (by rwa [hid]), hid]
  · rename_i hflag
    exact flagValue_of_hasFlag (Bool.eq_false_of_not_eq_true hflag)

theorem NamesOnly.execEnv (h : NamesOnly p identity exec) (hid : trimmed identity = identity) (hne : identity ≠ "")
    (key : String) (hkey : key ∈ envsOf p) :
    execEnv (execEnvPairs exec) key = some identity ∧ Settled key identity (listAt "env" exec) ∨
      execEnv (execEnvPairs exec) key = none ∧ ¬Settled key identity (listAt "env" exec) := by
  have hsome (hset : Settled key identity (listAt "env" exec)) : IdentityPin.execEnv (execEnvPairs exec) key = some identity := by
    rw [execEnvPairs, hset.execEnv (by rwa [hid]), hid]
  rcases h.envs key hkey with hset | hnone
  · exact .inl ⟨hsome hset, hset⟩
  · refine .inr ⟨hnone, fun hset => ?_⟩
    cases (hsome hset).symm.trans hnone

/-- An entry with all sources alike is pinned to what they say. -/
theorem NamesOnly.effect (h : NamesOnly p identity exec') (hid : trimmed identity = identity) (hne : identity ≠ "")
    (hcommand : (p = .gcloud ∧ commandBasename (commandOf exec') ∈ Gcloud.ownsCommands) ∨
      (p = .aws ∧ commandBasename (commandOf exec') ∈ Aws.ownsCommands))
    (hargs : ∃ others, OtherArgs (flagOf p) (execArgs exec) others ∧ OtherArgs (flagOf p) (execArgs exec') others)
    (hentries : (listAt "env" exec').filter (fun e => !(envsOf p).any (isNamed · e)) =
      (listAt "env" exec).filter fun e => !(envsOf p).any (isNamed · e))
    (hrest : ∀ k, k ≠ "args" → k ≠ "env" → find k exec' = find k exec) :
    PinTakesEffect p identity exec exec' where
  pinned := by
    rcases hcommand with ⟨rfl, howns⟩ | ⟨rfl, howns⟩
    · have hflag := h.flagValue hid hne
      have henv := h.execEnv hid hne Gcloud.accountEnv List.mem_cons_self
      have hbinding : Gcloud.bindingFor (commandBasename (commandOf exec')) (execArgs exec') (execEnvPairs exec') =
          some (.pinned identity) := by
        rw [Gcloud.bindingFor, if_pos howns, show Gcloud.accountFlag = flagOf .gcloud from rfl, hflag]
        split_ifs with hset
        · rfl
        · rcases henv with ⟨henv, -⟩ | ⟨-, hnot⟩
          · rw [henv]
            rfl
          · obtain ⟨key, hkey, hsettled⟩ := h.named.resolve_left hset
            exact absurd (List.mem_singleton.mp hkey ▸ hsettled) hnot
      rw [classify, hbinding]
      rfl
    · have hflag := h.flagValue hid hne
      have henv := h.execEnv hid hne "AWS_DEFAULT_PROFILE" List.mem_cons_self
      have henv' := h.execEnv hid hne "AWS_PROFILE" (List.mem_cons_of_mem _ List.mem_cons_self)
      have hbinding : Aws.bindingFor (commandBasename (commandOf exec')) (execArgs exec') (execEnvPairs exec') =
          some (.pinned identity) := by
        rw [Aws.bindingFor, if_pos howns, show Aws.profileFlag = flagOf .aws from rfl, hflag]
        split_ifs with hset
        · rfl
        · rcases henv with ⟨henv, -⟩ | ⟨henv, hnot⟩
          · rw [henv]
            rfl
          · rcases henv' with ⟨henv', -⟩ | ⟨-, hnot'⟩
            · rw [henv, henv']
              rfl
            · obtain ⟨key, hkey, hsettled⟩ := h.named.resolve_left hset
              rcases List.mem_cons.mp hkey with rfl | hkey
              · exact absurd hsettled hnot
              · exact absurd (List.mem_singleton.mp hkey ▸ hsettled) hnot'
      have hother : commandBasename (commandOf exec') ∉ Gcloud.ownsCommands := by
        intro hmem
        simp only [Gcloud.ownsCommands, Aws.ownsCommands, List.mem_cons, List.not_mem_nil, or_false] at hmem howns
        rcases howns with howns | howns <;> rw [howns] at hmem <;> revert hmem <;> decide
      rw [classify, hbinding, Gcloud.bindingFor, if_neg hother]
      rfl
  flag v hv := by
    rw [h.flagValue hid hne] at hv
    split_ifs at hv
    exact (Option.some.inj hv).symm
  envs q hq hkey hblank := by
    rcases h.envs q.1 hkey with hset | hnone
    · rw [hset.pairs hq rfl, hid]
    · exact absurd (execEnv_eq_none hnone hq rfl) hblank
  args := hargs
  strings := h.strings
  entries := hentries
  rest := hrest

/-- What a pin makes of the arguments and the entries, and of nothing else. -/
structure Writes (flag identity : String) (flagged : Bool) (es : List (Json ν)) (exec exec' : Fields ν) : Prop where
  args : execArgs exec' = if flagged then setFlagArg (execArgs exec) flag identity else execArgs exec
  unflagged : flagged = false → hasFlag flag (execArgs exec) = false
  strings : StringArgs exec → StringArgs exec'
  env : listAt "env" exec' = es
  rest : ∀ k, k ≠ "args" → k ≠ "env" → find k exec' = find k exec

variable {flag : String} {flagged : Bool} {es : List (Json ν)}

theorem Writes.hasFlag (h : Writes flag identity flagged es exec exec') :
    hasFlag flag (execArgs exec') = flagged := by
  rw [h.args]
  cases hb : flagged with
  | false => exact h.unflagged hb
  | true => exact hasFlag_setFlagArg ..

theorem Writes.setFlagArg (h : Writes flag identity flagged es exec exec') (hflag : IdentityPin.hasFlag flag (execArgs exec') = true) :
    setFlagArg (execArgs exec') flag identity = execArgs exec' := by
  rw [h.hasFlag] at hflag
  rw [h.args, hflag, if_pos rfl, setFlagArg_idem]

theorem Writes.otherArgs (h : Writes flag identity flagged es exec exec') :
    ∃ others, OtherArgs flag (execArgs exec) others ∧ OtherArgs flag (execArgs exec') others := by
  have hothers := otherArgs_withoutFlag flag (execArgs exec)
  refine ⟨_, hothers, ?_⟩
  rw [h.args]
  cases flagged with
  | false => exact hothers
  | true => exact otherArgs_append (isOther_of_otherArgs hothers) identity

theorem gcloud_writes (exec : Fields ν) (identity : String) :
    ∃ flagged, Writes Gcloud.accountFlag identity flagged
      (if (execEnv (execEnvPairs exec) Gcloud.accountEnv).isSome then
        setEntries Gcloud.accountEnv identity (listAt "env" exec) else listAt "env" exec)
      exec (Gcloud.writePin exec identity) ∧
      (flagged = true ∨ (execEnv (execEnvPairs exec) Gcloud.accountEnv).isSome = true) := by
  cases hin : (execEnv (execEnvPairs exec) Gcloud.accountEnv).isSome with
  | false =>
    refine ⟨true, ⟨?_, fun h => (by cases h), fun _ => ?_, ?_, fun k hk _ => ?_⟩, .inl rfl⟩
    all_goals simp only [Gcloud.writePin, hin, Bool.not_false, Bool.true_or, if_true, Bool.false_eq_true, if_false]
    · exact execArgs_setExecArgs ..
    · exact stringArgs_setExecArgs ..
    · exact env_setExecArgs ..
    · exact find_setExecArgs hk ..
  | true =>
    cases hflag : hasFlag Gcloud.accountFlag (execArgs exec) with
    | false =>
      refine ⟨false, ⟨?_, fun _ => hflag, fun hstrings => ?_, ?_, fun k _ hk => ?_⟩, .inr rfl⟩
      all_goals simp only [Gcloud.writePin, hin, hflag, Bool.not_true, Bool.or_false, if_true, Bool.false_eq_true, if_false]
      · exact execArgs_setExecEnv ..
      · exact stringArgs_setExecEnv hstrings ..
      · exact env_setExecEnv ..
      · exact find_setExecEnv hk ..
    | true =>
      refine ⟨true, ⟨?_, fun h => (by cases h), fun _ => ?_, ?_, fun k hk hk' => ?_⟩, .inl rfl⟩
      all_goals simp only [Gcloud.writePin, hin, hflag, Bool.or_true, if_true]
      · exact execArgs_setExecArgs ..
      · exact stringArgs_setExecArgs ..
      · rw [env_setExecArgs, env_setExecEnv]
      · rw [find_setExecArgs hk, find_setExecEnv hk']

theorem gcloud_namesOnly (hstrings : StringArgs exec) (identity : String) :
    NamesOnly .gcloud identity (Gcloud.writePin exec identity) := by
  obtain ⟨flagged, hwrites, hnamed⟩ := gcloud_writes exec identity
  have henv : (execEnv (execEnvPairs exec) Gcloud.accountEnv).isSome = true →
      Settled Gcloud.accountEnv identity (listAt "env" (Gcloud.writePin exec identity)) := by
    intro hin
    rw [hwrites.env, if_pos hin]
    exact settled_setEntries ..
  refine ⟨hwrites.strings hstrings, hwrites.setFlagArg, fun key hkey => ?_, ?_⟩
  · obtain rfl := List.mem_singleton.mp hkey
    cases hin : (execEnv (execEnvPairs exec) Gcloud.accountEnv).isSome with
    | true => exact .inl (henv hin)
    | false =>
      refine .inr ?_
      rw [execEnvPairs, hwrites.env, hin, if_neg Bool.false_ne_true]
      exact Option.isSome_eq_false_iff.mp hin |> Option.isNone_iff_eq_none.mp
  · rcases hnamed with rfl | hin
    · exact .inl hwrites.hasFlag
    · exact .inr ⟨_, List.mem_singleton_self _, henv hin⟩

theorem setExecEnv_of_settled {key : String} (h : Settled key identity (listAt "env" exec)) :
    setExecEnv exec key identity = exec := by
  rw [setExecEnv, setEntries_of_settled h]
  refine insertEntry_listAt fun hnil => ?_
  rw [hnil] at h
  cases h.1

/-- A flag that says the identity already is left as it is. -/
theorem NamesOnly.setExecArgs (h : NamesOnly p identity exec) (hflag : IdentityPin.hasFlag (flagOf p) (execArgs exec) = true) :
    setExecArgs exec (IdentityPin.setFlagArg (execArgs exec) (flagOf p) identity) = exec := by
  rw [h.args hflag]
  refine setExecArgs_self h.strings fun hnil => ?_
  rw [hnil] at hflag
  cases hflag

/-- A pin of an entry that says nothing else changes nothing. -/
theorem gcloud_writePin_self (h : NamesOnly .gcloud identity exec) (hid : trimmed identity = identity) (hne : identity ≠ "") :
    Gcloud.writePin exec identity = exec := by
  rcases h.execEnv hid hne Gcloud.accountEnv List.mem_cons_self with ⟨henv, hsettled⟩ | ⟨henv, hnot⟩
  · simp only [Gcloud.writePin, henv, Option.isSome_some, Bool.not_true, Bool.false_or, if_true, setExecEnv_of_settled hsettled]
    split
    · rename_i hflag
      exact h.setExecArgs hflag
    · rfl
  · have hflag := h.named.resolve_right fun ⟨key, hkey, hsettled⟩ => hnot (List.mem_singleton.mp hkey ▸ hsettled)
    simp only [Gcloud.writePin, henv, Option.isSome_none, Bool.not_false, Bool.true_or, if_true, Bool.false_eq_true, if_false]
    exact h.setExecArgs hflag

/-- The entries after the variables that have a value were set. -/
def rewriteEnvs (env : List (String × String)) (identity : String) (keys : List String) (es : List (Json ν)) : List (Json ν) :=
  keys.foldl (fun es key => if (execEnv env key).isSome then setEntries key identity es else es) es

theorem foldl_setExecEnv (env : List (String × String)) (identity : String) (keys : List String) (exec : Fields ν) :
    ∃ exec', keys.foldl (fun exec key => if (execEnv env key).isSome then setExecEnv exec key identity else exec) exec = exec' ∧
      execArgs exec' = execArgs exec ∧ (StringArgs exec → StringArgs exec') ∧
      listAt "env" exec' = rewriteEnvs env identity keys (listAt "env" exec) ∧ ∀ k, k ≠ "env" → find k exec' = find k exec := by
  induction keys generalizing exec with
  | nil => exact ⟨exec, rfl, rfl, id, rfl, fun _ _ => rfl⟩
  | cons key keys ih =>
    rw [List.foldl_cons, rewriteEnvs, List.foldl_cons]
    split
    · obtain ⟨exec', heq, hargs, hstrings, henv, hrest⟩ := ih (setExecEnv exec key identity)
      refine ⟨exec', heq, ?_, fun h => hstrings (stringArgs_setExecEnv h ..), ?_, fun k hk => ?_⟩
      · rw [hargs, execArgs_setExecEnv]
      · rw [henv, env_setExecEnv, rewriteEnvs]
      · rw [hrest k hk, find_setExecEnv hk]
    · exact ih exec

/-- The flag, or some variable, has a value. -/
def isNamedBy (exec : Fields ν) : Bool :=
  hasFlag Aws.profileFlag (execArgs exec) || Aws.profileEnvs.any fun key => (execEnv (execEnvPairs exec) key).isSome

theorem aws_writes (exec : Fields ν) (identity : String) :
    Writes Aws.profileFlag identity (hasFlag Aws.profileFlag (execArgs exec))
      (let es := rewriteEnvs (execEnvPairs exec) identity Aws.profileEnvs (listAt "env" exec)
        if isNamedBy exec then es else setEntries "AWS_PROFILE" identity es)
      exec (Aws.writePin exec identity) := by
  have hflagged : ∃ exec₁, (if hasFlag Aws.profileFlag (execArgs exec) then
      setExecArgs exec (setFlagArg (execArgs exec) Aws.profileFlag identity) else exec) = exec₁ ∧
      Writes Aws.profileFlag identity (hasFlag Aws.profileFlag (execArgs exec)) (listAt "env" exec) exec exec₁ := by
    refine ⟨_, rfl, ?_⟩
    cases hflag : hasFlag Aws.profileFlag (execArgs exec) with
    | false => exact ⟨rfl, fun _ => hflag, id, rfl, fun _ _ _ => rfl⟩
    | true =>
      exact ⟨execArgs_setExecArgs .., fun h => (by cases h), fun _ => stringArgs_setExecArgs .., env_setExecArgs ..,
        fun k hk _ => find_setExecArgs hk ..⟩
  obtain ⟨exec₁, heq₁, hwrites⟩ := hflagged
  obtain ⟨exec₂, heq₂, hargs, hstrings, henv, hrest⟩ :=
    foldl_setExecEnv (execEnvPairs exec) identity Aws.profileEnvs exec₁
  have hpin : Aws.writePin exec identity = if isNamedBy exec then exec₂ else setExecEnv exec₂ "AWS_PROFILE" identity := by
    rw [← heq₂, ← heq₁]
    rfl
  rw [hpin]
  split
  · refine ⟨hargs.trans hwrites.args, hwrites.unflagged, hstrings ∘ hwrites.strings, ?_, fun k hk hk' => ?_⟩
    · rw [henv, hwrites.env]
    · rw [hrest k hk', hwrites.rest k hk hk']
  · refine ⟨?_, hwrites.unflagged, fun h => stringArgs_setExecEnv (hstrings (hwrites.strings h)) .., ?_, fun k hk hk' => ?_⟩
    · rw [execArgs_setExecEnv, hargs, hwrites.args]
    · rw [env_setExecEnv, henv, hwrites.env]
    · rw [find_setExecEnv hk', hrest k hk', hwrites.rest k hk hk']

theorem settled_rewriteEnvs {env : List (String × String)} {keys : List String} {key : String}
    (h : Settled key identity es) : Settled key identity (rewriteEnvs env identity keys es) := by
  induction keys generalizing es with
  | nil => exact h
  | cons key' keys ih =>
    rw [rewriteEnvs, List.foldl_cons]
    refine ih ?_
    split
    · by_cases hkey : key' = key
      · exact hkey ▸ settled_setEntries ..
      · exact h.setEntries hkey identity
    · exact h

theorem settled_of_isSome {env : List (String × String)} {keys : List String} {key : String} (hkey : key ∈ keys)
    (h : (execEnv env key).isSome = true) (es : List (Json ν)) : Settled key identity (rewriteEnvs env identity keys es) := by
  induction keys generalizing es with
  | nil => cases hkey
  | cons key' keys ih =>
    rw [rewriteEnvs, List.foldl_cons]
    rcases List.mem_cons.mp hkey with rfl | hkey
    · rw [if_pos h]
      exact settled_rewriteEnvs (settled_setEntries ..)
    · exact ih hkey _

theorem execEnv_rewriteEnvs {env : List (String × String)} {key : String} (h : execEnv env key = none) (keys : List String)
    (es : List (Json ν)) :
    execEnv ((rewriteEnvs env identity keys es).filterMap pairOf) key = execEnv (es.filterMap pairOf) key := by
  induction keys generalizing es with
  | nil => rfl
  | cons key' keys ih =>
    rw [rewriteEnvs, List.foldl_cons]
    refine (ih _).trans ?_
    split
    · rename_i hsome
      have hne : key ≠ key' := by
        rintro rfl
        rw [h] at hsome
        cases hsome
      exact execEnv_setEntries hne ..
    · rfl

theorem filter_rewriteEnvs (env : List (String × String)) {keys all : List String} (hkeys : keys ⊆ all) (es : List (Json ν)) :
    (rewriteEnvs env identity keys es).filter (fun e => !all.any (isNamed · e)) = es.filter fun e => !all.any (isNamed · e) := by
  induction keys generalizing es with
  | nil => rfl
  | cons key keys ih =>
    obtain ⟨hkey, hkeys⟩ := List.cons_subset.mp hkeys
    rw [rewriteEnvs, List.foldl_cons]
    refine (ih hkeys _).trans ?_
    split
    · exact filter_setEntries hkey ..
    · rfl

theorem aws_namesOnly (hstrings : StringArgs exec) (identity : String) :
    NamesOnly .aws identity (Aws.writePin exec identity) := by
  have hwrites := aws_writes exec identity
  have hset {key : String} (hkey : key ∈ Aws.profileEnvs) (hsome : (execEnv (execEnvPairs exec) key).isSome = true) :
      Settled key identity (listAt "env" (Aws.writePin exec identity)) := by
    have hnamed : isNamedBy exec = true := by
      rw [isNamedBy, Bool.or_eq_true, List.any_eq_true]
      exact .inr ⟨key, hkey, hsome⟩
    rw [hwrites.env]
    dsimp only
    rw [if_pos hnamed]
    exact settled_of_isSome hkey hsome _
  refine ⟨hwrites.strings hstrings, hwrites.setFlagArg, fun key hkey => ?_, ?_⟩
  · cases hsome : (execEnv (execEnvPairs exec) key).isSome with
    | true => exact .inl (hset hkey hsome)
    | false =>
      have hnone := Option.isNone_iff_eq_none.mp (Option.isSome_eq_false_iff.mp hsome)
      rw [execEnvPairs, hwrites.env]
      dsimp only
      split
      · exact .inr ((execEnv_rewriteEnvs hnone ..).trans hnone)
      · by_cases hprofile : key = "AWS_PROFILE"
        · exact .inl (hprofile ▸ settled_setEntries ..)
        · exact .inr ((execEnv_setEntries hprofile ..).trans ((execEnv_rewriteEnvs hnone ..).trans hnone))
  · cases hnamed : isNamedBy exec with
    | false =>
      refine .inr ⟨"AWS_PROFILE", List.mem_cons_of_mem _ List.mem_cons_self, ?_⟩
      rw [hwrites.env]
      dsimp only
      rw [hnamed, if_neg Bool.false_ne_true]
      exact settled_setEntries ..
    | true =>
      rw [isNamedBy, Bool.or_eq_true, List.any_eq_true] at hnamed
      rcases hnamed with hflag | ⟨key, hkey, hsome⟩
      · exact .inl (hwrites.hasFlag.trans hflag)
      · exact .inr ⟨key, hkey, hset hkey hsome⟩

theorem aws_writePin_self (h : NamesOnly .aws identity exec) (hid : trimmed identity = identity) (hne : identity ≠ "") :
    Aws.writePin exec identity = exec := by
  have hargs : (if hasFlag Aws.profileFlag (execArgs exec) then
      setExecArgs exec (setFlagArg (execArgs exec) Aws.profileFlag identity) else exec) = exec := by
    split
    · rename_i hflag
      exact h.setExecArgs hflag
    · rfl
  have hfold (keys : List String) (hkeys : keys ⊆ Aws.profileEnvs) :
      keys.foldl (fun exec' key => if (execEnv (execEnvPairs exec) key).isSome then setExecEnv exec' key identity else exec')
        exec = exec := by
    induction keys with
    | nil => rfl
    | cons key keys ih =>
      obtain ⟨hkey, hkeys⟩ := List.cons_subset.mp hkeys
      rw [List.foldl_cons]
      rcases h.execEnv hid hne key hkey with ⟨henv, hsettled⟩ | ⟨henv, -⟩
      · rw [henv, if_pos Option.isSome_some, setExecEnv_of_settled hsettled]
        exact ih hkeys
      · rw [henv, if_neg (by simp)]
        exact ih hkeys
  have hnamed : (hasFlag Aws.profileFlag (execArgs exec) ||
      Aws.profileEnvs.any fun key => (execEnv (execEnvPairs exec) key).isSome) = true := by
    rw [Bool.or_eq_true, List.any_eq_true]
    refine h.named.imp id fun ⟨key, hkey, hsettled⟩ => ⟨key, hkey, ?_⟩
    rcases h.execEnv hid hne key hkey with ⟨henv, -⟩ | ⟨-, hnot⟩
    · rw [henv]
      rfl
    · exact absurd hsettled hnot
  unfold Aws.writePin
  dsimp only
  rw [hargs, hfold Aws.profileEnvs (List.Subset.refl _), hnamed, if_pos rfl]

theorem commandOf_of_writes (h : Writes flag identity flagged es exec exec') : commandOf exec' = commandOf exec := by
  rw [commandOf, h.rest "command" (by decide) (by decide), commandOf]

/-- A pin of an exec entry takes effect and touches nothing else, and a second one changes nothing. -/
theorem pin_takes_effect (hstrings : StringArgs exec) (htrim : trimmed identity = identity)
    (hvalid : validateIdentity identity = .ok ())
    (hcommand : commandBasename (commandOf exec) ∈ Gcloud.ownsCommands ++ Aws.ownsCommands) :
    ∃ p exec', writePin exec identity = .ok (p, exec') ∧ PinTakesEffect p identity exec exec' ∧
      writePin exec' identity = .ok (p, exec') := by
  have hne : identity ≠ "" := by
    rintro rfl
    cases hvalid
  by_cases hgcloud : commandBasename (commandOf exec) ∈ Gcloud.ownsCommands
  · obtain ⟨flagged, hwrites, -⟩ := gcloud_writes exec identity
    have hnames := gcloud_namesOnly hstrings identity
    have hsame := commandOf_of_writes hwrites
    refine ⟨.gcloud, Gcloud.writePin exec identity, ?_, ?_, ?_⟩
    · rw [writePin, if_pos hgcloud]
    · refine hnames.effect htrim hne (.inl ⟨rfl, by rwa [hsame]⟩) hwrites.otherArgs ?_ hwrites.rest
      rw [hwrites.env]
      split
      · exact filter_setEntries List.mem_cons_self ..
      · rfl
    · rw [writePin, hsame, if_pos hgcloud, gcloud_writePin_self hnames htrim hne]
  · have haws := (List.mem_append.mp hcommand).resolve_left hgcloud
    have hwrites := aws_writes exec identity
    have hnames := aws_namesOnly hstrings identity
    have hsame := commandOf_of_writes hwrites
    refine ⟨.aws, Aws.writePin exec identity, ?_, ?_, ?_⟩
    · rw [writePin, if_neg hgcloud, if_pos haws]
    · refine hnames.effect htrim hne (.inr ⟨rfl, by rwa [hsame]⟩) hwrites.otherArgs ?_ hwrites.rest
      rw [hwrites.env]
      dsimp only
      split
      · exact filter_rewriteEnvs _ (List.Subset.refl _) _
      · exact (filter_setEntries (List.mem_cons_of_mem _ List.mem_cons_self) ..).trans
          (filter_rewriteEnvs _ (List.Subset.refl _) _)
    · rw [writePin, hsame, if_neg hgcloud, if_pos haws, aws_writePin_self hnames htrim hne]

end Pinned

/-- An entry that names one account by the flag, another one by the variable, and has a blank flag. -/
def gkeExec : Fields Nat :=
  [("command", .str "/opt/sdk/bin/gke-gcloud-auth-plugin"),
    ("args", .arr [.str "--account", .str "ops@a.io", .str "--verbose", .str "--account="]),
    ("env", .arr [newEntry "CLOUDSDK_CORE_ACCOUNT" "old@a.io", newEntry "HTTP_PROXY" "proxy"])]

theorem gkeExec_pinned : ∃ p exec', writePin gkeExec "dev@a.io" = .ok (p, exec') ∧
    PinTakesEffect p "dev@a.io" gkeExec exec' ∧ writePin exec' "dev@a.io" = .ok (p, exec') :=
  pin_takes_effect rfl (by decide) (by decide) (by decide)

end FerrisScope.IdentityPin
