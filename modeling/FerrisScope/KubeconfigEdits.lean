import FerrisScope.IdentityPin
import FerrisScope.LinkFiles

/-!
# Edits of a kubeconfig file

A context is deleted, or made the current one, or an identity is pinned. Each edit reads the file,
changes the parsed document and writes it back whole. The parser and the printer are given to the
model, as is whether a write fails. A path is a place whose directory has been resolved.
-/

namespace FerrisScope.KubeconfigEdits
open Json IdentityPin LinkFiles

variable {ν δ : Type}

inductive EditError where
  | io
  | yaml
  | contextNotFound (name : String)
  | invalid (message : String)
  deriving DecidableEq, Repr

def maxLinks : ℕ := 40

def backupSuffix : List Char := ".ferrisscope-backup".toList

structure Env (ν δ : Type) where
  parse : String → Option (Json ν)
  print : Json ν → Option String
  display : Loc δ → String
  umask : Mode
  pid : ℕ

section Documents

def nameOf (e : Json ν) : Option String := (e.get? "name").bind asStr

/-- A text under the context of an entry. -/
def contextField (kind : String) (e : Json ν) : Option String :=
  ((e.get? "context").bind fun c => c.get? kind).bind asStr

def contextFieldStillUsed (mapping : Fields ν) (kind name : String) : Bool :=
  (listAt "contexts" mapping).any fun e => contextField kind e = some name

def pruneNamed (mapping : Fields ν) (listKey name : String) : Fields ν :=
  match find listKey mapping with
  | some (.arr xs) => insertEntry listKey (.arr (xs.filter fun e => nameOf e ≠ some name)) mapping
  | _ => mapping

/-- What the last removed entry that has a context says. -/
def removedField (kind : String) (removed : List (Json ν)) : Option String :=
  ((removed.filter fun e => (e.get? "context").isSome).getLast?).bind (contextField kind)

def pruneUnused (mapping : Fields ν) (kind listKey : String) (removed : List (Json ν)) : Fields ν :=
  match removedField kind removed with
  | some name => if contextFieldStillUsed mapping kind name then mapping else pruneNamed mapping listKey name
  | none => mapping

def notMapping : EditError := .invalid "kubeconfig is not a YAML mapping"

def deleteContext (doc : Json ν) (contextName : String) : Except EditError (Json ν) :=
  match doc with
  | .obj mapping => match find "contexts" mapping with
      | some (.arr contexts) =>
          let kept := contexts.filter fun e => nameOf e ≠ some contextName
          let removed := contexts.filter fun e => nameOf e = some contextName
          if kept.length = contexts.length then .error (.contextNotFound contextName)
          else if kept.isEmpty then
            .error (.invalid "removing this context would empty the kubeconfig — delete the file instead")
          else
            let mapping := insertEntry "contexts" (.arr kept) mapping
            let mapping := pruneUnused mapping "cluster" "clusters" removed
            let mapping := pruneUnused mapping "user" "users" removed
            if (find "current-context" mapping).bind asStr = some contextName then
              .ok (.obj (insertEntry "current-context" (.str "") mapping))
            else .ok (.obj mapping)
      | _ => .error (.contextNotFound contextName)
  | _ => .error notMapping

def setCurrentContext (doc : Json ν) (contextName : String) : Except EditError (Json ν) :=
  match doc with
  | .obj mapping =>
      if (listAt "contexts" mapping).any fun e => nameOf e = some contextName then
        .ok (.obj (insertEntry "current-context" (.str contextName) mapping))
      else .error (.contextNotFound contextName)
  | _ => .error notMapping

/-- The items of a list in a document. -/
def itemsAt (key : String) (doc : Json ν) : List (Json ν) :=
  match doc with
  | .obj mapping => listAt key mapping
  | _ => []

def contextsUsingUser (doc : Json ν) (userName : String) : List String :=
  ((itemsAt "contexts" doc).filter fun e => contextField "user" e = some userName).filterMap nameOf

def contextUserName (doc : Json ν) (context : String) : Option String :=
  ((itemsAt "contexts" doc).find? fun e => nameOf e = some context).bind (contextField "user")

/-- The exec entry of a user. -/
def userExec (doc : Json ν) (userName : String) : Option (Fields ν) :=
  ((itemsAt "users" doc).find? fun e => nameOf e = some userName).bind fun u =>
    match (u.get? "user").bind fun x => x.get? "exec" with
    | some (.obj exec) => some exec
    | _ => none

def setField (key : String) (value : Json ν) : Json ν → Json ν
  | .obj fs => .obj (insertEntry key value fs)
  | e => e

/-- The first entry of the name gets a new exec entry. -/
def setExecIn (userName : String) (exec : Fields ν) : List (Json ν) → List (Json ν)
  | [] => []
  | u :: us =>
      if nameOf u = some userName then
        setField "user" (setField "exec" (.obj exec) ((u.get? "user").getD .null)) u :: us
      else u :: setExecIn userName exec us

def setUserExec (doc : Json ν) (userName : String) (exec : Fields ν) : Json ν :=
  setField "users" (.arr (setExecIn userName exec (itemsAt "users" doc))) doc

/-- The document with the exec entry of the context's user edited. -/
def editExec (path : String) (doc : Json ν) (context : String)
    (f : Fields ν → Except String (Fields ν)) : Except EditError (Json ν) :=
  match contextUserName doc context with
  | none => .error (.invalid ("context '" ++ context ++ "' is not in " ++ path
      ++ " — if your KUBECONFIG lists several files, the context lives in a different one and must be pinned there"))
  | some userName =>
      let sharing := contextsUsingUser doc userName
      if 1 < sharing.length then
        .error (.invalid ("user '" ++ userName ++ "' is shared by " ++ toString sharing.length ++ " contexts ("
          ++ ", ".intercalate sharing ++ "), so pinning it here would also re-point "
          ++ ", ".intercalate (sharing.filter fun c => c ≠ context)
          ++ " — nothing was written. Give '" ++ context ++ "' its own user entry first."))
      else match userExec doc userName with
        | none => .error (.invalid ("user '" ++ userName ++ "' in " ++ path
            ++ " has no exec credential plugin to pin"))
        | some exec => match f exec with
            | .error e => .error (.invalid e)
            | .ok exec => .ok (setUserExec doc userName exec)

end Documents

inductive Edit where
  | deleteContext (name : String)
  | setCurrentContext (name : String)
  | pin (context identity : String)
  deriving DecidableEq, Repr

def Edit.isPin : Edit → Bool
  | .pin _ _ => true
  | _ => false

/-- The text that an edit makes of a text; `path` is where it was read. -/
def Edit.apply (env : Env ν δ) (path : Loc δ) (edit : Edit) (raw : String) : Except EditError String :=
  match env.parse raw with
  | none => .error .yaml
  | some doc =>
      let edited := match edit with
        | .deleteContext name => KubeconfigEdits.deleteContext doc name
        | .setCurrentContext name => KubeconfigEdits.setCurrentContext doc name
        | .pin context identity => editExec (env.display path) doc context fun exec =>
            (writePin exec (trimmed identity)).map Prod.snd
      match edited with
      | .error e => .error e
      | .ok doc => match env.print doc with
          | none => .error .yaml
          | some text => .ok text

/-- The files, and the counter of temporary names. -/
structure State (δ : Type) where
  fs : Fs δ
  seq : ℕ

/-- The edit of a path, and which of its writes fail. -/
structure Step (δ : Type) where
  path : Loc δ
  edit : Edit
  backupFails : Bool
  writeFails : Bool

def tmpSibling (pid seq : ℕ) (p : Loc δ) : Loc δ :=
  ⟨p.dir, '.' :: p.name ++ ".fs.".toList ++ (toString pid).toList ++ '.' :: (toString seq).toList
    ++ ".tmp".toList⟩

def backupPath (p : Loc δ) : Loc δ := ⟨p.dir, p.name ++ backupSuffix⟩

/-- The bits of the new file: those asked for, or the default ones. -/
def newMode (umask : Mode) (mode : Option Mode) : Mode := mode.getD (0o666 &&& ~~~umask)

variable [DecidableEq δ]

def atomicWriteSyncMode (env : Env ν δ) (st : State δ) (p : Loc δ) (content : String) (mode : Option Mode)
    (fails : Bool) : State δ × Bool :=
  let r := replaceFile st.fs (tmpSibling env.pid st.seq p) p content (newMode env.umask mode) fails
  (⟨r.1, st.seq + 1⟩, r.2)

def fileMode (fs : Fs δ) (p : Loc δ) : Option Mode := (readFile fs maxLinks p).map fun f => f.2.perm

/-- Delete a context or set the current one: the path is written as it is given. -/
def editInFile (env : Env ν δ) (st : State δ) (step : Step δ) : State δ × Except EditError Bool :=
  match readFile st.fs maxLinks step.path with
  | none => (st, .error .io)
  | some (raw, _) => match step.edit.apply env step.path raw with
      | .error e => (st, .error e)
      | .ok text =>
          let w := atomicWriteSyncMode env st step.path text none step.writeFails
          (w.1, if w.2 then .ok true else .error .io)

/-- Pin an identity: links are followed first, the mode is kept, and a backup is made. -/
def pinInFile (env : Env ν δ) (st : State δ) (step : Step δ) : State δ × Except EditError Bool :=
  let real := (follow st.fs maxLinks step.path).getD step.path
  match readFile st.fs maxLinks real with
  | none => (st, .error .io)
  | some (original, _) => match step.edit.apply env real original with
      | .error e => (st, .error e)
      | .ok text =>
          if text = original then (st, .ok false)
          else
            let mode := fileMode st.fs real
            let b := atomicWriteSyncMode env st (backupPath real) original mode step.backupFails
            if b.2 then
              let w := atomicWriteSyncMode env b.1 real text mode step.writeFails
              (w.1, if w.2 then .ok true else .error .io)
            else (b.1, .error .io)

def applyStep (env : Env ν δ) (st : State δ) (step : Step δ) : State δ × Except EditError Bool :=
  match step.edit with
  | .pin _ identity => match validateIdentity (trimmed identity) with
      | .error e => (st, .error (.invalid e))
      | .ok _ => pinInFile env st step
  | _ => editInFile env st step

/-- The state after some edits. -/
def runSteps (env : Env ν δ) (st : State δ) (steps : List (Step δ)) : State δ :=
  steps.foldl (fun st step => (applyStep env st step).1) st

end FerrisScope.KubeconfigEdits
