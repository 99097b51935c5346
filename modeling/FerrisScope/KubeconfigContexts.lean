import FerrisScope.SplitOnce
import Mathlib.Data.List.Basic

/-!
# Contexts of the kubeconfig sources

The default kubeconfig, single files, folders of files and SSH sources are read into one list of
contexts. The id of a context is the id of its source, the file name in a folder, and the name of
the context, written one after another. What the files hold is given to the model.
-/

namespace FerrisScope.KubeconfigContexts
open SplitOnce

abbrev Text := List Char

def defaultSourceId : Text := "default".toList

def defaultGroup : Text := "Default".toList

def maxKubeconfigBytes : ℕ := 1024 * 1024

/-- Between the source and the name in an id. -/
def idSep : Text := [':', ':']

inductive Component where
  | rootDir
  | curDir
  | parentDir
  | normal (name : Text)
  deriving DecidableEq, Repr

/-- Two paths are equal when their components are. -/
abbrev Path := List Component

/-- The components of a path's text: a `.` counts only in front, empty parts do not. -/
def components (text : Text) : List Component :=
  let parts := text.splitOn '/'
  let body := (parts.filter fun p => p ≠ [] ∧ p ≠ ['.']).map fun p =>
    if p = ['.', '.'] then .parentDir else .normal p
  if text.head? = some '/' then .rootDir :: body
  else if parts.head? = some ['.'] then .curDir :: body
  else body

/-- An absolute child replaces the path. -/
def Path.join (path : Path) (child : Text) : Path :=
  match components child with
  | .rootDir :: rest => .rootDir :: rest
  | .curDir :: rest => if path = [] then .curDir :: rest else path ++ rest
  | rest => path ++ rest

def Path.fileName (path : Path) : Option Text :=
  match path.getLast? with
  | some (.normal name) => some name
  | _ => none

/-- A name in a directory. -/
structure FileName where
  text : Text
  nonempty : text ≠ []
  noSlash : '/' ∉ text

structure Context where
  cluster : Text
  user : Option Text
  ns : Option Text
  deriving DecidableEq, Repr

structure NamedContext where
  name : Text
  context : Option Context
  deriving DecidableEq, Repr

/-- A parsed kubeconfig, with the cloud identities read off its exec entries. -/
structure Kubeconfig (ι : Type) where
  currentContext : Option Text
  contexts : List NamedContext
  identities : Text → Option ι

/-- A name is missing where it is not UTF-8; `kubeconfig` is what the scan's cache or a fresh read
gives. -/
structure DirEntry (ι : Type) where
  name : Option FileName
  isFile : Bool
  len : ℕ
  kubeconfig : Option (Kubeconfig ι)

inductive SourceKind where
  | file
  | folder
  | ssh
  deriving DecidableEq, Repr

structure SshSourceConfig where
  host : Text
  deriving DecidableEq, Repr

structure KubeconfigSource where
  id : Text
  path : Path
  kind : SourceKind
  groupOverride : Option Text
  enabled : Bool
  ssh : Option SshSourceConfig
  deriving DecidableEq, Repr

structure SourcesFile where
  defaultDisabled : Bool
  sources : List KubeconfigSource

/-- What the process can read. -/
structure Disk (ι : Type) where
  default : Option (Kubeconfig ι)
  defaultIdentities : Text → Option ι
  readFrom : Path → Option (Kubeconfig ι)
  readDir : Path → Option (List (DirEntry ι))
  sshCache : Text → Option (Kubeconfig ι)

structure ContextInfo (ι : Type) where
  id : Text
  name : Text
  cluster : Text
  user : Option Text
  ns : Option Text
  isCurrent : Bool
  group : Text
  sourceId : Text
  sourcePath : Option Path
  cloudIdentity : Option ι

variable {ι : Type}

def KubeconfigSource.effectiveGroup (src : KubeconfigSource) : Text :=
  match src.groupOverride with
  | some g => g
  | none => match src.kind with
      | .folder => src.path.fileName.getD "Folder".toList
      | .file => "Custom".toList
      | .ssh => (src.ssh.map SshSourceConfig.host).getD "SSH".toList

/-- The contexts of one kubeconfig. -/
def contextsOf (kc : Kubeconfig ι) (sourceId group : Text) (sourcePath : Option Path)
    (identities : Text → Option ι) : List (ContextInfo ι) :=
  let current := if sourceId = defaultSourceId then kc.currentContext else none
  kc.contexts.filterMap fun named => named.context.map fun ctx =>
    { id := sourceId ++ idSep ++ named.name
      isCurrent := current = some named.name
      name := named.name
      cluster := ctx.cluster
      cloudIdentity := identities named.name
      user := ctx.user
      ns := ctx.ns
      group := group
      sourceId := sourceId
      sourcePath := sourcePath }

def appendContexts (out : List (ContextInfo ι)) (kc : Kubeconfig ι) (sourceId group : Text)
    (sourcePath : Option Path) (identities : Text → Option ι) : List (ContextInfo ι) :=
  out ++ contextsOf kc sourceId group sourcePath identities

def loadFileInto (disk : Disk ι) (out : List (ContextInfo ι)) (path : Path) (sourceId group : Text) :
    List (ContextInfo ι) :=
  match disk.readFrom path with
  | some kc => appendContexts out kc sourceId group (some path) kc.identities
  | none => out

/-- What follows the last dot, unless the dot comes first. -/
def extension (name : Text) : Option Text :=
  match splitOnce ['.'] name.reverse with
  | some (after, before) => if before = [] then none else some after.reverse
  | none => none

local instance : LawfulBEq Text := inferInstanceAs (LawfulBEq (List Char))

def filenameIsCandidate (name : Option FileName) : Bool :=
  match name with
  | none => false
  | some name =>
      if name.text.head? = some '.' then false
      else if name.text.map Char.toLower = "config".toList then true
      else match extension name.text with
        | none => true
        | some ext => ext.map Char.toLower ∈ ["yaml", "yml", "conf", "kubeconfig"].map String.toList

/-- The file name and kubeconfig of an entry that the scan takes. -/
def DirEntry.taken (entry : DirEntry ι) : Option (FileName × Kubeconfig ι) :=
  if entry.isFile && filenameIsCandidate entry.name && entry.len ≠ 0 && entry.len ≤ maxKubeconfigBytes
  then entry.name.bind fun name => entry.kubeconfig.map fun kc => (name, kc)
  else none

def loadEntry (folder : Path) (prefixId group : Text) (out : List (ContextInfo ι))
    (entry : DirEntry ι) : List (ContextInfo ι) :=
  match entry.taken with
  | some (name, kc) =>
      appendContexts out kc (prefixId ++ '/' :: name.text) group (some (folder.join name.text)) kc.identities
  | none => out

def loadFolderInto (disk : Disk ι) (out : List (ContextInfo ι)) (folder : Path)
    (prefixId group : Text) : List (ContextInfo ι) :=
  match disk.readDir folder with
  | some entries => entries.foldl (loadEntry folder prefixId group) out
  | none => out

def loadSshInto (disk : Disk ι) (out : List (ContextInfo ι)) (src : KubeconfigSource)
    (group : Text) : List (ContextInfo ι) :=
  match src.ssh, disk.sshCache src.id with
  | some _, some kc => appendContexts out kc src.id group none fun _ => none
  | _, _ => out

def loadDefault (disk : Disk ι) (file : SourcesFile) : List (ContextInfo ι) :=
  if file.defaultDisabled then []
  else match disk.default with
    | some kc => appendContexts [] kc defaultSourceId defaultGroup none disk.defaultIdentities
    | none => []

def loadSource (disk : Disk ι) (out : List (ContextInfo ι)) (src : KubeconfigSource) :
    List (ContextInfo ι) :=
  if src.enabled then
    match src.kind with
    | .file => loadFileInto disk out src.path src.id src.effectiveGroup
    | .folder => loadFolderInto disk out src.path src.id src.effectiveGroup
    | .ssh => loadSshInto disk out src src.effectiveGroup
  else out

/-- The first context of an id stays; it is current when one of them is. -/
def keepFirst (deduped : List (ContextInfo ι)) (ctx : ContextInfo ι) : List (ContextInfo ι) :=
  if deduped.any fun c => c.id = ctx.id then
    deduped.map fun c => if c.id = ctx.id ∧ ctx.isCurrent then { c with isCurrent := true } else c
  else deduped ++ [ctx]

def collect (disk : Disk ι) (file : SourcesFile) : List (ContextInfo ι) :=
  file.sources.foldl (loadSource disk) (loadDefault disk file)

def listContexts (disk : Disk ι) (file : SourcesFile) : List (ContextInfo ι) :=
  (collect disk file).foldl keepFirst []

/-- The file behind a source id, which may be that of a file in a folder. -/
def pathOfSource (sourceId : Text) (file : SourcesFile) : Option Path :=
  if sourceId = defaultSourceId then none
  else
    let parts : Text × Option Text := match splitOnce ['/'] sourceId with
      | some (parentId, child) => (parentId, some child)
      | none => (sourceId, none)
    (file.sources.find? (·.id = parts.1)).bind fun src =>
      if src.kind = .ssh then none
      else match parts.2 with
        | none => some src.path
        | some child => match components child with
            | [.normal _] => some (src.path.join child)
            | _ => none

def sourcePathFor (id : Text) (file : SourcesFile) : Option Path :=
  match splitOnce idSep id with
  | some (sourceId, _) => pathOfSource sourceId file
  | none => none

def contextNameFromId (id : Text) : Text :=
  match splitOnce idSep id with
  | some (_, name) => name
  | none => id

end FerrisScope.KubeconfigContexts
