import FerrisScope.CronSchedules
import FerrisScope.FallibleActions
import FerrisScope.LinkFiles
import FerrisScope.SessionLog
import FerrisScope.Utf8Slices
import Mathlib.Logic.Function.Basic

/-!
# The managed binaries

Two programs are installed in the same way: the version is looked up, the expected digest is fetched, the file
is downloaded beside its place and checked, and then it takes the place of the one before. Each step may fail.
Helm comes in an archive, which is downloaded into a temporary directory and of which one entry is taken.
-/

namespace FerrisScope.ManagedInstalls
open HostsFile CronSchedules FallibleActions LinkFiles SessionLog

structure File where
  content : List UInt8
  mode : Mode

abbrev Fs (δ : Type) := Loc δ → Option File

inductive Os | linux | macos | windows
deriving DecidableEq

inductive Arch | x86_64 | aarch64
deriving DecidableEq

/-- The answer of a server. A body may break off. -/
inductive Response | status (code : ℕ) | transport (message : Text) | body (bytes : List UInt8) (complete : Bool)
deriving DecidableEq

/-- What a reader of an archive comes to: an entry, of which the content may break off, or an error. -/
inductive ArchiveItem | entry (path : Text) (content : List UInt8) (complete : Bool) | broken

/-- The steps that may fail by themselves. -/
inductive Step
  | createDirAll | tempdir | createDownload | copyDownload | readDownload | openArchive | createExtracted
  | copyExtracted | metadata | setPermissions | removeDownload | removeOld | rename | dropTempDir
deriving DecidableEq

inductive InstallError
  | noConfigDir
  | unsupported
  | io
  | http (code : ℕ)
  | transport (message : Text)
  | versionFormat (got : Text)
  | checksumFormat (url got : Text)
  | checksumMismatch (expected actual : Text)
  | archiveMissingEntry (entry : Text)

structure Installed (δ : Type) where
  path : Loc δ
  version : Text
  assetUrl : Text

/-- Everything that an installation meets. A step that fails after a number of bytes has written so many. -/
structure Env (δ : Type) where
  binDir : Option δ
  tempDir : δ
  /-- A temporary directory is a new one. -/
  temp_fresh : ∀ d ∈ binDir, tempDir ≠ d
  os : Option Os
  arch : Option Arch
  server : Text → Response
  sha256 : List UInt8 → Text
  readArchive : List UInt8 → List ArchiveItem
  fault : Step → Option ℕ
  newMode : Mode

variable {δ : Type} [DecidableEq δ]

abbrev Run (δ α : Type) := Action (Fs δ) InstallError α

/-! ## Steps -/

section
variable (E : Env δ)

/-- A step without an effect on files. -/
def attempt (step : Step) : Run δ Unit := .ofExcept (if E.fault step = none then .ok () else .error .io)

def httpGet (url : Text) : Except InstallError (List UInt8 × Bool) :=
  match E.server url with
  | .status code => .error (.http code)
  | .transport message => .error (.transport message)
  | .body bytes complete => .ok (bytes, complete)

def httpGetText (url : Text) : Except InstallError Text :=
  match httpGet E url with
  | .error e => .error e
  | .ok (bytes, complete) =>
    match (if complete then fromUtf8 bytes else none) with
    | some t => .ok t
    | none => .error .io

/-- A file is created, and bytes are copied into it as far as they come. -/
def writeFile (create copy : Step) (p : Loc δ) (bytes : List UInt8) (complete : Bool) : Run δ Unit := fun fs =>
  match E.fault create with
  | some _ => (.error .io, fs)
  | none =>
    let mode := ((fs p).map File.mode).getD E.newMode
    match E.fault copy with
    | some n => (.error .io, Function.update fs p (some ⟨bytes.take n, mode⟩))
    | none => (if complete then .ok () else .error .io, Function.update fs p (some ⟨bytes, mode⟩))

def downloadTo (url : Text) (p : Loc δ) : Run δ Unit := do
  let (bytes, complete) ← Action.ofExcept (httpGet E url)
  writeFile E .createDownload .copyDownload p bytes complete

def readFile (step : Step) (p : Loc δ) : Run δ (List UInt8) := fun fs =>
  match E.fault step, fs p with
  | none, some f => (.ok f.content, fs)
  | _, _ => (.error .io, fs)

def sha256OfFile (p : Loc δ) : Run δ Text := do
  let content ← readFile E .readDownload p
  pure (E.sha256 content)

def removeFile (step : Step) (p : Loc δ) : Run δ Unit := fun fs =>
  match E.fault step, fs p with
  | none, some _ => (.ok (), Function.update fs p none)
  | _, _ => (.error .io, fs)

def rename (p q : Loc δ) : Run δ Unit := fun fs =>
  match E.fault .rename, fs p with
  | none, some f => (.ok (), Function.update (Function.update fs p none) q (some f))
  | _, _ => (.error .io, fs)

def setMode (p : Loc δ) (mode : Mode) : Run δ Unit := fun fs =>
  match E.fault .setPermissions, fs p with
  | none, some f => (.ok (), Function.update fs p (some ⟨f.content, mode⟩))
  | _, _ => (.error .io, fs)

/-- Only where files have modes. -/
def makeExecutable (p : Loc δ) : Run δ Unit :=
  if E.os = some .windows then pure ()
  else do
    attempt E .metadata
    setMode E p 0o755

/-- The old binary is removed, and the new one takes its place. -/
def replaceBinary (tmp target : Loc δ) : Run δ Unit := do
  Action.ignore (removeFile E .removeOld target)
  rename E tmp target

end

/-! ## Names -/

def isSha256Hex (t : Text) : Bool := decide (Utf8Slices.byteLen t = 64) && t.all isAsciiHexDigit
where isAsciiHexDigit (c : Char) : Bool :=
  ('0' ≤ c && c ≤ '9') || ('a' ≤ c && c ≤ 'f') || ('A' ≤ c && c ≤ 'F')

def fetchVersion (E : Env δ) (url : Text) : Except InstallError Text :=
  (httpGetText E url).bind fun body =>
    let v := trim body
    if v.head? ≠ some 'v' ∨ Utf8Slices.byteLen v < 4 ∨ 24 < Utf8Slices.byteLen v then .error (.versionFormat v) else .ok v

def hostOs : Option Os → Except InstallError Text
  | some .linux => .ok "linux".toList
  | some .macos => .ok "darwin".toList
  | some .windows => .ok "windows".toList
  | none => .error .unsupported

def hostArch : Option Arch → Except InstallError Text
  | some .x86_64 => .ok "amd64".toList
  | some .aarch64 => .ok "arm64".toList
  | none => .error .unsupported

def executable (name : Text) (os : Option Os) : Text := if os = some .windows then name ++ ".exe".toList else name

/-- The name before its last dot. A dot at the beginning does not count. -/
def fileStem (name : Text) : Text :=
  match name.reverse.dropWhile fun c => c ≠ '.' with
  | _ :: c :: before => (c :: before).reverse
  | _ => name

def withExtension (p : Loc δ) (extension : Text) : Loc δ := ⟨p.dir, fileStem p.name ++ '.' :: extension⟩

def managedBinaryPath (E : Env δ) (name : Text) : Option (Loc δ) := E.binDir.map fun dir => ⟨dir, executable name E.os⟩

def targetOf (E : Env δ) (name : Text) : Except InstallError (Loc δ) :=
  match managedBinaryPath E name with
  | some p => .ok p
  | none => .error .noConfigDir

/-! ## Installations -/

/-- A file that is ready, its place, and what is reported of it. -/
structure Ready (δ : Type) where
  tmp : Loc δ
  target : Loc δ
  report : Installed δ

def replace (E : Env δ) (r : Ready δ) : Run δ (Installed δ) := do
  replaceBinary E r.tmp r.target
  pure r.report

namespace Kubectl

def stableTxt : Text := "https://dl.k8s.io/release/stable.txt".toList

def binaryName : Text := "kubectl".toList

def binaryUrl (version os arch name : Text) : Text :=
  "https://dl.k8s.io/release/".toList ++ version ++ "/bin/".toList ++ os ++ '/' :: arch ++ '/' :: name

def shaUrl (url : Text) : Text := url ++ ".sha256".toList

/-- The digest in the answer, and whether it is one. -/
def expectedSha (body : Text) : Text := (trim body).map Char.toLower

def checked (E : Env δ) (url : Text) : Except InstallError Text :=
  (httpGetText E (shaUrl url)).bind fun body =>
    if isSha256Hex (expectedSha body) then .ok (expectedSha body) else .error (.checksumFormat (shaUrl url) (expectedSha body))

/-- Everything before the old binary is touched. -/
def prepare (E : Env δ) : Run δ (Ready δ) := do
  let target ← Action.ofExcept (targetOf E binaryName)
  attempt E .createDirAll
  let version ← Action.ofExcept (fetchVersion E stableTxt)
  let os ← Action.ofExcept (hostOs E.os)
  let arch ← Action.ofExcept (hostArch E.arch)
  let url := binaryUrl version os arch (executable binaryName E.os)
  let expected ← Action.ofExcept (checked E url)
  let tmp := withExtension target "download".toList
  downloadTo E url tmp
  let actual ← sha256OfFile E tmp
  if actual ≠ expected then do
    Action.ignore (removeFile E .removeDownload tmp)
    Action.fail (.checksumMismatch expected actual)
  else do
    makeExecutable E tmp
    pure ⟨tmp, target, ⟨target, version, url⟩⟩

def installLatestBlocking (E : Env δ) : Run δ (Installed δ) := do
  let ready ← prepare E
  replace E ready

end Kubectl

namespace Helm

def latestVersionUrl : Text := "https://get.helm.sh/helm-latest-version".toList

def binaryName : Text := "helm".toList

def archiveName (version os arch : Text) : Text :=
  "helm-".toList ++ version ++ '-' :: os ++ '-' :: arch ++ '.' :: (if os = "windows".toList then "zip".toList else "tar.gz".toList)

def archiveHelmEntry (os arch : Text) : Text :=
  os ++ '-' :: arch ++ '/' :: (if os = "windows".toList then "helm.exe".toList else "helm".toList)

def archiveUrl (name : Text) : Text := "https://get.helm.sh/".toList ++ name

def shaUrl (url : Text) : Text := url ++ ".sha256sum".toList

def parseSha256sum (body : Text) : Option Text :=
  (lines body).head?.bind fun line =>
    (splitWhitespace (trim line)).head?.bind fun token =>
      let lowered := token.map Char.toLower
      if isSha256Hex lowered then some lowered else none

def checked (E : Env δ) (url : Text) : Except InstallError Text :=
  (httpGetText E (shaUrl url)).bind fun body =>
    match parseSha256sum body with
    | some sha => .ok sha
    | none => .error (.checksumFormat (shaUrl url) (trim body))

/-- A path is compared by its names. A dot counts only at the beginning. -/
def components (path : Text) : Bool × List Text :=
  (path.head? = some '/',
    match path.splitOn '/' with
    | [] => []
    | p :: ps => (if p = [] then [] else [p]) ++ ps.filter fun q => q ≠ [] && q ≠ ['.'])

/-- The content of the first entry with the path. -/
def extractEntry (E : Env δ) (entryPath : Text) (dest : Loc δ) : List ArchiveItem → Run δ Unit
  | [] => Action.fail (.archiveMissingEntry entryPath)
  | .broken :: _ => Action.fail .io
  | .entry path content complete :: items =>
    if components path = components entryPath then writeFile E .createExtracted .copyExtracted dest content complete
    else extractEntry E entryPath dest items

def extractHelmFromArchive (E : Env δ) (archive : Loc δ) (entryPath : Text) (dest : Loc δ) : Run δ Unit := do
  let bytes ← readFile E .openArchive archive
  extractEntry E entryPath dest (E.readArchive bytes)

/-- What is known when the temporary directory is made. -/
structure Plan (δ : Type) where
  target : Loc δ
  version : Text
  os : Text
  arch : Text
  expected : Text

def Plan.name (p : Plan δ) : Text := archiveName p.version p.os p.arch

def plan (E : Env δ) : Run δ (Plan δ) := do
  let target ← Action.ofExcept (targetOf E binaryName)
  attempt E .createDirAll
  let version ← Action.ofExcept (fetchVersion E latestVersionUrl)
  let os ← Action.ofExcept (hostOs E.os)
  let arch ← Action.ofExcept (hostArch E.arch)
  let expected ← Action.ofExcept (checked E (archiveUrl (archiveName version os arch)))
  attempt E .tempdir
  pure ⟨target, version, os, arch, expected⟩

/-- Everything in the temporary directory. -/
def prepare (E : Env δ) (p : Plan δ) : Run δ (Ready δ) := do
  let archiveTmp : Loc δ := ⟨E.tempDir, p.name⟩
  downloadTo E (archiveUrl p.name) archiveTmp
  let actual ← sha256OfFile E archiveTmp
  if actual ≠ p.expected then Action.fail (.checksumMismatch p.expected actual)
  else do
    let extractedTmp : Loc δ := ⟨E.tempDir, "helm.extracted".toList⟩
    extractHelmFromArchive E archiveTmp (archiveHelmEntry p.os p.arch) extractedTmp
    makeExecutable E extractedTmp
    pure ⟨extractedTmp, p.target, ⟨p.target, p.version, archiveUrl p.name⟩⟩

/-- The temporary directory is removed at the end, if that does not fail. -/
def dropTempDir (E : Env δ) {α : Type} (x : Run δ α) : Run δ α := fun fs =>
  ((x fs).1, if E.fault .dropTempDir = none then fun l => if l.dir = E.tempDir then none else (x fs).2 l else (x fs).2)

def installLatestBlocking (E : Env δ) : Run δ (Installed δ) := do
  let p ← plan E
  dropTempDir E (do
    let ready ← prepare E p
    replace E ready)

end Helm

/-! ## What the steps leave -/

section
variable (E : Env δ)

/-- What stands at the place of the managed binary. -/
def Holds (name : Text) (old : Option File) (fs : Fs δ) : Prop := ∀ t ∈ managedBinaryPath E name, fs t = old

/-- The place is none of the managed binary. -/
def Beside (name : Text) (p : Loc δ) : Prop := ∀ t ∈ managedBinaryPath E name, p ≠ t

variable {E} {name : Text} {old : Option File} {p : Loc δ}

theorem Holds.update {fs : Fs δ} (h : Holds E name old fs) (hp : Beside E name p) (f : Option File) :
    Holds E name old (Function.update fs p f) := by
  intro t ht
  rw [Function.update_of_ne (hp t ht).symm]
  exact h t ht

omit [DecidableEq δ] in
theorem attempt_triple {P : Fs δ → Prop} (step : Step) : Triple P (attempt E step) (fun _ => P) fun _ => P :=
  Triple.ofExcept (fun _ _ _ hs => hs) fun _ _ _ hs => hs

theorem writeFile_triple (create copy : Step) (hp : Beside E name p) (bytes : List UInt8) (complete : Bool) :
    Triple (Holds E name old) (writeFile E create copy p bytes complete)
      (fun _ s => Holds E name old s ∧ complete = true ∧ ∃ m, s p = some ⟨bytes, m⟩) fun _ => Holds E name old := by
  intro s hs
  unfold writeFile
  cases E.fault create with
  | some n => exact ⟨fun _ h => (nomatch h), fun _ _ => hs⟩
  | none =>
    cases E.fault copy with
    | some n => exact ⟨fun _ h => (nomatch h), fun _ _ => hs.update hp _⟩
    | none =>
      cases complete with
      | true => exact ⟨fun _ _ => ⟨hs.update hp _, rfl, _, Function.update_self p _ s⟩, fun _ _ => hs.update hp _⟩
      | false => exact ⟨fun _ h => (nomatch h), fun _ _ => hs.update hp _⟩

omit [DecidableEq δ] in
theorem readFile_triple {P : Fs δ → Prop} (step : Step) (p : Loc δ) :
    Triple P (readFile E step p) (fun c s => P s ∧ ∃ m, s p = some ⟨c, m⟩) fun _ => P := by
  intro s hs
  unfold readFile
  cases E.fault step with
  | some n => exact ⟨fun _ h => (nomatch h), fun _ _ => hs⟩
  | none =>
    cases hf : s p with
    | none => exact ⟨fun _ h => (nomatch h), fun _ _ => hs⟩
    | some f =>
      constructor
      · rintro c ⟨⟩
        exact ⟨hs, f.mode, hf⟩
      · exact fun _ h => nomatch h

theorem removeFile_triple (step : Step) (hp : Beside E name p) :
    Triple (Holds E name old) (removeFile E step p) (fun _ => Holds E name old) fun _ => Holds E name old := by
  intro s hs
  unfold removeFile
  cases E.fault step with
  | some n => exact ⟨fun _ _ => hs, fun _ _ => hs⟩
  | none =>
    cases s p with
    | none => exact ⟨fun _ _ => hs, fun _ _ => hs⟩
    | some f => exact ⟨fun _ _ => hs.update hp _, fun _ _ => hs.update hp _⟩

/-- A file that is ready to run. -/
def IsExecutable (E : Env δ) (f : File) : Prop := E.os ≠ some .windows → f.mode = 0o755

theorem makeExecutable_triple (hp : Beside E name p) (c : List UInt8) :
    Triple (fun s => Holds E name old s ∧ ∃ m, s p = some ⟨c, m⟩) (makeExecutable E p)
      (fun _ s => Holds E name old s ∧ ∃ m, s p = some ⟨c, m⟩ ∧ IsExecutable E ⟨c, m⟩) fun _ => Holds E name old := by
  apply Triple.ite
  · intro hwindows
    apply Triple.pure
    rintro s ⟨hs, m, hm⟩
    exact ⟨hs, m, hm, fun h => absurd hwindows h⟩
  · intro _
    have hmeta : Triple (fun s => Holds E name old s ∧ ∃ m, s p = some ⟨c, m⟩) (attempt E .metadata)
        (fun _ s => Holds E name old s ∧ ∃ m, s p = some ⟨c, m⟩) fun _ => Holds E name old :=
      (attempt_triple .metadata).mono (fun _ hs => hs) (fun _ _ hs => hs) fun _ _ hs => hs.1
    refine hmeta.bind ?_
    intro _ s hs
    obtain ⟨hs, m, hm⟩ := hs
    unfold setMode
    rw [hm]
    cases E.fault .setPermissions with
    | some n => exact ⟨fun _ h => (nomatch h), fun _ _ => hs⟩
    | none =>
      exact ⟨fun _ _ => ⟨hs.update hp _, _, Function.update_self p _ s, fun _ => rfl⟩, fun _ h => nomatch h⟩

theorem downloadTo_triple (hp : Beside E name p) (url : Text) :
    Triple (Holds E name old) (downloadTo E url p)
      (fun _ s => Holds E name old s ∧ ∃ bytes m, E.server url = .body bytes true ∧ s p = some ⟨bytes, m⟩)
      fun _ => Holds E name old := by
  refine (Triple.computed _).bind fun (bytes, complete) => Triple.assume fun hget => ?_
  refine (writeFile_triple _ _ hp bytes complete).mono (fun _ hs => hs) ?_ fun _ _ hs => hs
  rintro _ s ⟨hs, rfl, m, hm⟩
  refine ⟨hs, bytes, m, ?_, hm⟩
  unfold httpGet at hget
  split at hget
  · cases hget
  · cases hget
  · next hserver =>
    cases hget
    exact hserver

omit [DecidableEq δ] in
/-- The digest is the one of what was sent. -/
theorem sha256OfFile_triple (url : Text) :
    Triple (fun s => Holds E name old s ∧ ∃ bytes m, E.server url = .body bytes true ∧ s p = some ⟨bytes, m⟩)
      (sha256OfFile E p)
      (fun sha s => ∃ c, (sha = E.sha256 c ∧ E.server url = .body c true) ∧ Holds E name old s ∧ ∃ m, s p = some ⟨c, m⟩)
      fun _ => Holds E name old := by
  refine ((readFile_triple .readDownload p).mono (fun _ hs => hs) (fun _ _ hs => hs) fun _ _ hs => hs.1).bind fun c => ?_
  apply Triple.pure
  rintro s ⟨⟨hs, bytes, m, hserver, hm⟩, m', hm'⟩
  rw [hm] at hm'
  cases hm'
  exact ⟨c, ⟨rfl, hserver⟩, hs, m, hm⟩

omit [DecidableEq δ] in
theorem managedBinaryPath_of_targetOf {target : Loc δ} (h : targetOf E name = .ok target) :
    managedBinaryPath E name = some target := by
  unfold targetOf at h
  split at h
  · next hpath =>
    cases h
    exact hpath
  · cases h

/-- Everything is there to replace the binary. -/
structure IsReady (E : Env δ) (name : Text) (checked : File → Prop) (r : Ready δ) (s : Fs δ) : Prop where
  target : managedBinaryPath E name = some r.target
  beside : r.tmp ≠ r.target
  file : ∃ f, s r.tmp = some f ∧ checked f

end

namespace Kubectl

/-- The file is what the server sent, and its digest is the one that the server named. -/
def Checked (E : Env δ) (f : File) : Prop :=
  IsExecutable E f ∧ ∃ url, checked E url = .ok (E.sha256 f.content) ∧ E.server url = .body f.content true

omit [DecidableEq δ] in
theorem beside_download (E : Env δ) {target : Loc δ} (h : managedBinaryPath E binaryName = some target) :
    Beside E binaryName (withExtension target "download".toList) := by
  intro t ht
  rw [h] at ht
  cases ht
  obtain ⟨dir, -, rfl⟩ := Option.map_eq_some_iff.mp h
  have hname : ∀ os, fileStem (executable binaryName os) ++ '.' :: "download".toList ≠ executable binaryName os := by
    intro os
    unfold executable
    split <;> decide
  intro heq
  exact hname E.os (congrArg Loc.name heq)

theorem prepare_triple (E : Env δ) (old : Option File) :
    Triple (Holds E binaryName old) (prepare E)
      (fun r s => Holds E binaryName old s ∧ IsReady E binaryName (Checked E) r s) fun _ => Holds E binaryName old := by
  refine (Triple.computed _).bind fun target => Triple.assume fun htarget => ?_
  refine (attempt_triple _).bind fun _ => ?_
  refine (Triple.computed _).bind fun version => Triple.assume fun _ => ?_
  refine (Triple.computed _).bind fun os => Triple.assume fun _ => ?_
  refine (Triple.computed _).bind fun arch => Triple.assume fun _ => ?_
  refine (Triple.computed _).bind fun expected => Triple.assume fun hexpected => ?_
  have hpath := managedBinaryPath_of_targetOf htarget
  have hbeside := beside_download E hpath
  refine (downloadTo_triple hbeside _).bind fun _ => ?_
  refine (sha256OfFile_triple _).bind fun actual => Triple.exists_pre fun c => Triple.assume fun ⟨hactual, hserver⟩ => ?_
  refine Triple.ite (fun _ => ?_) fun heq => ?_
  · refine (((removeFile_triple .removeDownload hbeside).mono (fun _ hs => hs.1) (fun _ _ hs => hs) fun _ _ hs => hs).ignore
      ).bind fun _ => ?_
    exact Triple.fail fun _ hs => hs
  · refine (makeExecutable_triple hbeside c).bind fun _ => ?_
    apply Triple.pure
    rintro s ⟨hs, m, hm, hexec⟩
    have hsha : checked E (binaryUrl version os arch (executable binaryName E.os)) = .ok (E.sha256 c) := by rw [hexpected, ← not_ne_iff.mp heq, hactual]
    exact ⟨hs, hpath, hbeside _ hpath, _, hm, hexec, _, hsha, hserver⟩

end Kubectl

namespace Helm

/-- The content of the first entry with a path, if the archive can be read as far as its end. -/
def namedEntry (entryPath : Text) : List ArchiveItem → Option (List UInt8)
  | [] => none
  | .broken :: _ => none
  | .entry path content complete :: items =>
    if components path = components entryPath then (if complete then some content else none) else namedEntry entryPath items

/-- The file is the named entry of what the server sent, and the digest of that is the one that the server named. -/
def Checked (E : Env δ) (f : File) : Prop :=
  IsExecutable E f ∧ ∃ url archive os arch, checked E url = .ok (E.sha256 archive) ∧ E.server url = .body archive true ∧
    hostOs E.os = .ok os ∧ hostArch E.arch = .ok arch ∧
    namedEntry (archiveHelmEntry os arch) (E.readArchive archive) = some f.content

section
variable {E : Env δ} {old : Option File}

omit [DecidableEq δ] in
theorem beside_tempDir (name : Text) : Beside E binaryName ⟨E.tempDir, name⟩ := by
  intro t ht heq
  obtain ⟨dir, hdir, rfl⟩ := Option.map_eq_some_iff.mp ht
  exact E.temp_fresh dir hdir (congrArg Loc.dir heq)

theorem extractEntry_triple {dest : Loc δ} (hdest : Beside E binaryName dest) (entryPath : Text) (items : List ArchiveItem) :
    Triple (Holds E binaryName old) (extractEntry E entryPath dest items)
      (fun _ s => ∃ c, namedEntry entryPath items = some c ∧ Holds E binaryName old s ∧ ∃ m, s dest = some ⟨c, m⟩)
      fun _ => Holds E binaryName old := by
  induction items with
  | nil => exact Triple.fail fun _ hs => hs
  | cons item items ih =>
    cases item with
    | broken => exact Triple.fail fun _ hs => hs
    | entry path content complete =>
      rw [extractEntry, namedEntry]
      refine Triple.ite (fun heq => ?_) fun hne => ?_
      · refine (writeFile_triple _ _ hdest content complete).mono (fun _ hs => hs) ?_ fun _ _ hs => hs
        rintro _ s ⟨hs, rfl, hm⟩
        exact ⟨content, by rw [if_pos heq, if_pos rfl], hs, hm⟩
      · rw [if_neg hne]
        exact ih

theorem extractHelmFromArchive_triple {dest : Loc δ} (hdest : Beside E binaryName dest) (archive : Loc δ) (entryPath : Text)
    (bytes : List UInt8) :
    Triple (fun s => Holds E binaryName old s ∧ ∃ m, s archive = some ⟨bytes, m⟩)
      (extractHelmFromArchive E archive entryPath dest)
      (fun _ s => ∃ c, namedEntry entryPath (E.readArchive bytes) = some c ∧ Holds E binaryName old s ∧
        ∃ m, s dest = some ⟨c, m⟩)
      fun _ => Holds E binaryName old := by
  refine ((readFile_triple .openArchive archive).mono (fun _ hs => hs) (fun _ _ hs => hs) fun _ _ hs => hs.1).bind fun c => ?_
  rintro s ⟨⟨hs, m, hm⟩, m', hm'⟩
  rw [hm] at hm'
  cases hm'
  exact extractEntry_triple hdest entryPath (E.readArchive bytes) s hs

omit [DecidableEq δ] in
theorem plan_triple :
    Triple (Holds E binaryName old) (plan E)
      (fun p s => (managedBinaryPath E binaryName = some p.target ∧ hostOs E.os = .ok p.os ∧ hostArch E.arch = .ok p.arch ∧
        checked E (archiveUrl p.name) = .ok p.expected) ∧ Holds E binaryName old s)
      fun _ => Holds E binaryName old := by
  refine (Triple.computed _).bind fun target => Triple.assume fun htarget => ?_
  refine (attempt_triple _).bind fun _ => ?_
  refine (Triple.computed _).bind fun version => Triple.assume fun _ => ?_
  refine (Triple.computed _).bind fun os => Triple.assume fun hos => ?_
  refine (Triple.computed _).bind fun arch => Triple.assume fun harch => ?_
  refine (Triple.computed _).bind fun expected => Triple.assume fun hexpected => ?_
  refine (attempt_triple _).bind fun _ => ?_
  apply Triple.pure
  intro s hs
  exact ⟨⟨managedBinaryPath_of_targetOf htarget, hos, harch, hexpected⟩, hs⟩

theorem prepare_triple (p : Plan δ) :
    Triple (fun s => (managedBinaryPath E binaryName = some p.target ∧ hostOs E.os = .ok p.os ∧
        hostArch E.arch = .ok p.arch ∧ checked E (archiveUrl p.name) = .ok p.expected) ∧ Holds E binaryName old s)
      (prepare E p) (fun r s => Holds E binaryName old s ∧ IsReady E binaryName (Checked E) r s)
      fun _ => Holds E binaryName old := by
  refine Triple.assume fun ⟨hpath, hos, harch, hexpected⟩ => ?_
  refine (downloadTo_triple (beside_tempDir _) _).bind fun _ => ?_
  refine (sha256OfFile_triple _).bind fun actual => Triple.exists_pre fun c => Triple.assume fun ⟨hactual, hserver⟩ => ?_
  refine Triple.ite (fun _ => Triple.fail fun _ hs => hs.1) fun heq => ?_
  refine (extractHelmFromArchive_triple (beside_tempDir _) _ _ c).bind fun _ => ?_
  refine Triple.exists_pre fun content => Triple.assume fun hentry => ?_
  refine (makeExecutable_triple (beside_tempDir _) content).bind fun _ => ?_
  apply Triple.pure
  rintro s ⟨hs, m, hm, hexec⟩
  have hsha : checked E (archiveUrl p.name) = .ok (E.sha256 c) := by rw [hexpected, ← not_ne_iff.mp heq, hactual]
  exact ⟨hs, hpath, beside_tempDir _ _ hpath, _, hm, hexec, _, c, p.os, p.arch, hsha, hserver, hos, harch, hentry⟩

end

end Helm

/-! ## Both programs -/

inductive Tool | kubectl | helm
deriving DecidableEq

def Tool.binaryName : Tool → Text
  | .kubectl => Kubectl.binaryName
  | .helm => Helm.binaryName

def installLatestBlocking (E : Env δ) : Tool → Run δ (Installed δ)
  | .kubectl => Kubectl.installLatestBlocking E
  | .helm => Helm.installLatestBlocking E

/-- Everything before the old binary is touched. -/
def preparation (E : Env δ) : Tool → Run δ (Ready δ)
  | .kubectl => Kubectl.prepare E
  | .helm => do
    let p ← Helm.plan E
    Helm.prepare E p

def Checked (E : Env δ) : Tool → File → Prop
  | .kubectl => Kubectl.Checked E
  | .helm => Helm.Checked E

theorem preparation_triple (E : Env δ) (tool : Tool) (old : Option File) :
    Triple (Holds E tool.binaryName old) (preparation E tool)
      (fun r s => Holds E tool.binaryName old s ∧ IsReady E tool.binaryName (Checked E tool) r s)
      fun _ => Holds E tool.binaryName old := by
  cases tool with
  | kubectl => exact Kubectl.prepare_triple E old
  | helm => exact Helm.plan_triple.bind Helm.prepare_triple

/-- The replacement succeeds when the rename does. When the rename fails, the old binary is there only if it could
not be removed. -/
theorem replace_run (E : Env δ) {r : Ready δ} {s : Fs δ} {f : File} (hne : r.tmp ≠ r.target) (hf : s r.tmp = some f) :
    (E.fault .rename = none → (replace E r s).1 = .ok r.report ∧ (replace E r s).2 r.target = some f) ∧
      (E.fault .rename ≠ none → (replace E r s).1 = .error .io ∧
        (replace E r s).2 r.target = if E.fault .removeOld = none then none else s r.target) := by
  have hold : ∃ s', removeFile E .removeOld r.target s = ((removeFile E .removeOld r.target s).1, s') ∧
      s' r.tmp = some f ∧ s' r.target = if E.fault .removeOld = none then none else s r.target := by
    unfold removeFile
    cases E.fault .removeOld with
    | some n => exact ⟨s, rfl, hf, rfl⟩
    | none =>
      cases htarget : s r.target with
      | none => exact ⟨s, rfl, hf, htarget⟩
      | some g => exact ⟨_, rfl, by rw [Function.update_of_ne hne, hf], Function.update_self _ _ _⟩
  obtain ⟨s', hremove, htmp, htarget⟩ := hold
  have hrun : replace E r s = (rename E r.tmp r.target >>= fun _ => pure r.report) s' := by
    have hignore : Action.ignore (removeFile E .removeOld r.target) s = (.ok (), s') := by
      rw [Action.ignore, hremove]
    have hbinary : replaceBinary E r.tmp r.target s = rename E r.tmp r.target s' := bind_of_ok hignore
    change Action.bind _ _ s = Action.bind _ _ s'
    rw [Action.bind, Action.bind, hbinary]
  rw [hrun]
  constructor
  · intro hrename
    have hok : rename E r.tmp r.target s' =
        (.ok (), Function.update (Function.update s' r.tmp none) r.target (some f)) := by
      unfold rename
      rw [hrename, htmp]
    rw [bind_of_ok hok]
    exact ⟨rfl, Function.update_self _ _ _⟩
  · intro hrename
    have herror : rename E r.tmp r.target s' = (.error .io, s') := by
      unfold rename
      rw [htmp]
      cases hfault : E.fault .rename with
      | none => exact absurd hfault hrename
      | some n => rfl
    rw [bind_of_error herror]
    exact ⟨rfl, htarget⟩

/-- An installation is its preparation and the replacement, up to files in the temporary directory. -/
theorem installLatestBlocking_eq (E : Env δ) (tool : Tool) (fs : Fs δ) :
    (installLatestBlocking E tool fs).1 = ((preparation E tool >>= replace E) fs).1 ∧
      ∀ t ∈ managedBinaryPath E tool.binaryName,
        (installLatestBlocking E tool fs).2 t = ((preparation E tool >>= replace E) fs).2 t := by
  cases tool with
  | kubectl => exact ⟨rfl, fun _ _ => rfl⟩
  | helm =>
    have htarget : ∀ t ∈ managedBinaryPath E Helm.binaryName, t.dir ≠ E.tempDir := by
      intro t ht
      obtain ⟨dir, hdir, rfl⟩ := Option.map_eq_some_iff.mp ht
      exact (E.temp_fresh dir hdir).symm
    have hbind : (preparation E .helm >>= replace E) = (Helm.plan E >>= fun p => Helm.prepare E p >>= replace E) := by
      funext s
      change Action.bind (Action.bind _ _) _ s = Action.bind _ (fun p => Action.bind _ _) s
      unfold Action.bind
      generalize Helm.plan E s = r
      obtain ⟨r, s'⟩ := r
      cases r <;> rfl
    rw [hbind]
    change (Action.bind _ _ fs).1 = (Action.bind _ _ fs).1 ∧ ∀ t ∈ _, (Action.bind _ _ fs).2 t = (Action.bind _ _ fs).2 t
    unfold Action.bind
    generalize Helm.plan E fs = r
    obtain ⟨r, s⟩ := r
    cases r with
    | error e => exact ⟨rfl, fun _ _ => rfl⟩
    | ok p =>
      refine ⟨rfl, fun t ht => ?_⟩
      change (if E.fault .dropTempDir = none then _ else _ : Fs δ) t = _
      split
      · exact if_neg (htarget t ht)
      · rfl

/-- On an error the binary that was there is unchanged, and after success the file is the one that was checked. -/
structure Atomic (E : Env δ) (tool : Tool) (fs : Fs δ) : Prop where
  error : ∀ e, (installLatestBlocking E tool fs).1 = .error e →
    ∀ t ∈ managedBinaryPath E tool.binaryName, ∀ f, fs t = some f → (installLatestBlocking E tool fs).2 t = some f
  ok : ∀ r, (installLatestBlocking E tool fs).1 = .ok r →
    ∃ t ∈ managedBinaryPath E tool.binaryName, ∃ f, (installLatestBlocking E tool fs).2 t = some f ∧ Checked E tool f

section
variable {E : Env δ} {tool : Tool} {fs s : Fs δ} {r : Ready δ}

omit [DecidableEq δ] in
/-- What stands at the place of the binary at first, if it has a place. -/
theorem exists_holds (E : Env δ) (name : Text) (fs : Fs δ) : ∃ old, Holds E name old fs := by
  refine ⟨(managedBinaryPath E name).bind fs, fun t ht => ?_⟩
  rw [ht]
  rfl

theorem atomic_of_preparation_error {e : InstallError} (hrun : preparation E tool fs = (.error e, s)) :
    Atomic E tool fs := by
  obtain ⟨old, hold⟩ := exists_holds E tool.binaryName fs
  have hs := (preparation_triple E tool old fs hold).2 e (congrArg Prod.fst hrun)
  rw [hrun] at hs
  obtain ⟨hresult, hfiles⟩ := installLatestBlocking_eq E tool fs
  rw [bind_of_error hrun] at hresult hfiles
  constructor
  · intro _ _ t ht f hf
    rw [hfiles t ht, hs t ht, ← hold t ht, hf]
  · intro r hr
    rw [hresult] at hr
    cases hr

/-- How an installation ends when everything before the replacement succeeds. -/
theorem install_of_ready (hrun : preparation E tool fs = (.ok r, s)) :
    ∃ f, managedBinaryPath E tool.binaryName = some r.target ∧ Checked E tool f ∧
      (E.fault .rename = none → (installLatestBlocking E tool fs).1 = .ok r.report ∧
        (installLatestBlocking E tool fs).2 r.target = some f) ∧
      (E.fault .rename ≠ none → (installLatestBlocking E tool fs).1 = .error .io ∧
        (installLatestBlocking E tool fs).2 r.target = if E.fault .removeOld = none then none else fs r.target) := by
  obtain ⟨old, hold⟩ := exists_holds E tool.binaryName fs
  obtain ⟨hs, hpath, hne, f, hf, hchecked⟩ :=
    (preparation_triple E tool old fs hold).1 r (congrArg Prod.fst hrun)
  rw [hrun] at hs hf
  obtain ⟨hresult, hfiles⟩ := installLatestBlocking_eq E tool fs
  rw [bind_of_ok hrun] at hresult hfiles
  have hkept : fs r.target = s r.target := (hold _ hpath).trans (hs _ hpath).symm
  obtain ⟨hreplaced, hfailed⟩ := replace_run E hne hf
  rw [hresult, hfiles _ hpath, hkept]
  exact ⟨f, hpath, hchecked, hreplaced, hfailed⟩

/-- The old binary is lost when it is removed and the rename fails. -/
theorem not_atomic (hbinary : ∃ t ∈ managedBinaryPath E tool.binaryName, (fs t).isSome)
    (hrun : preparation E tool fs = (.ok r, s)) (hremove : E.fault .removeOld = none) (hrename : E.fault .rename ≠ none) :
    ¬ Atomic E tool fs := by
  intro h
  obtain ⟨t, ht, hsome⟩ := hbinary
  obtain ⟨f, hpath, -, -, hfailed⟩ := install_of_ready hrun
  obtain ⟨herror, hgone⟩ := hfailed hrename
  obtain rfl : r.target = t := Option.some.inj (hpath.symm.trans ht)
  obtain ⟨g, hg⟩ := Option.isSome_iff_exists.mp hsome
  have hsame := h.error .io herror _ hpath g hg
  rw [hgone, if_pos hremove] at hsame
  cases hsame

end

/-- An installation is atomic exactly when this does not come together: a binary is there, everything before the
replacement succeeds, the old binary can be removed, and the rename fails. -/
theorem install_atomic_iff (E : Env δ) (tool : Tool) (fs : Fs δ) :
    Atomic E tool fs ↔
      ((∃ t ∈ managedBinaryPath E tool.binaryName, (fs t).isSome) → (∃ r s, preparation E tool fs = (.ok r, s)) →
        E.fault .removeOld = none → E.fault .rename = none) := by
  constructor
  · rintro hatomic hbinary ⟨r, s, hrun⟩ hremove
    by_contra hrename
    exact not_atomic hbinary hrun hremove hrename hatomic
  · intro hcondition
    generalize hrun : preparation E tool fs = run at hcondition
    obtain ⟨result, s⟩ := run
    cases result with
    | error e => exact atomic_of_preparation_error hrun
    | ok r =>
      obtain ⟨f, hpath, hchecked, hreplaced, hfailed⟩ := install_of_ready hrun
      by_cases hrename : E.fault .rename = none
      · obtain ⟨hok, hfile⟩ := hreplaced hrename
        refine ⟨fun e he => ?_, fun _ _ => ⟨_, hpath, f, hfile, hchecked⟩⟩
        rw [hok] at he
        cases he
      · obtain ⟨herror, hfile⟩ := hfailed hrename
        refine ⟨fun _ _ t ht g hg => ?_, fun r' hr' => ?_⟩
        · obtain rfl : r.target = t := Option.some.inj (hpath.symm.trans ht)
          rw [hfile]
          split
          · next hremove =>
            have hsome : (fs r.target).isSome := by
              rw [hg]
              rfl
            exact absurd (hcondition ⟨_, hpath, hsome⟩ ⟨r, s, rfl⟩ hremove) hrename
          · exact hg
        · rw [herror] at hr'
          cases hr'

/-- A machine whose temporary directory is on another file system: files are not renamed into the other directory. -/
def twoFileSystems : Env Bool where
  binDir := some false
  tempDir := true
  temp_fresh := by decide
  os := some .linux
  arch := some .x86_64
  server url :=
    if url = Helm.latestVersionUrl then .body (toUtf8 "v3.18.0".toList) true
    else if url.getLast? = some 'm' then .body (toUtf8 (List.replicate 64 'a')) true
    else .body [1] true
  sha256 _ := List.replicate 64 'a'
  readArchive _ := [.entry "linux-amd64/helm".toList [2] true]
  fault step := if step = .rename then some 0 else none
  newMode := 0o644

def helmPlace : Loc Bool := ⟨false, "helm".toList⟩

def helmPlan : Helm.Plan Bool :=
  ⟨helmPlace, "v3.18.0".toList, "linux".toList, "amd64".toList, List.replicate 64 'a'⟩

def withOldHelm : Fs Bool := fun l => if l = helmPlace then some ⟨[0], 0o755⟩ else none

omit [DecidableEq δ] in
theorem httpGetText_of_body {E : Env δ} {url t : Text} (h : E.server url = .body (toUtf8 t) true) :
    httpGetText E url = .ok t := by
  unfold httpGetText httpGet
  rw [h]
  simp only [if_true, fromUtf8_toUtf8]

section
variable {E : Env δ}

theorem writeFile_run {create copy : Step} (hcreate : E.fault create = none) (hcopy : E.fault copy = none) (p : Loc δ)
    (bytes : List UInt8) (fs : Fs δ) :
    ∃ m, writeFile E create copy p bytes true fs = (.ok (), Function.update fs p (some ⟨bytes, m⟩)) := by
  unfold writeFile
  rw [hcreate, hcopy]
  exact ⟨_, rfl⟩

omit [DecidableEq δ] in
theorem readFile_run {step : Step} (hstep : E.fault step = none) {p : Loc δ} {f : File} {fs : Fs δ} (hf : fs p = some f) :
    readFile E step p fs = (.ok f.content, fs) := by
  unfold readFile
  rw [hstep, hf]

theorem makeExecutable_run (hfault : ∀ step, step ≠ .rename → E.fault step = none) {p : Loc δ} {f : File} {fs : Fs δ}
    (hf : fs p = some f) : ∃ s, makeExecutable E p fs = (.ok (), s) := by
  unfold makeExecutable
  split
  · exact ⟨fs, rfl⟩
  · have hmeta : attempt E .metadata fs = (.ok (), fs) := by
      rw [attempt, hfault _ (by decide), if_pos rfl]
      rfl
    have hset : setMode E p 0o755 fs = (.ok (), Function.update fs p (some ⟨f.content, 0o755⟩)) := by
      unfold setMode
      rw [hfault _ (by decide), hf]
    exact ⟨_, (bind_of_ok hmeta).trans hset⟩

/-- The archive is prepared when its digest is right, its first entry is the right one and no step fails. -/
theorem Helm.prepare_run (hfault : ∀ step, step ≠ .rename → E.fault step = none) {p : Helm.Plan δ} {c content : List UInt8}
    {path : Text} {rest : List ArchiveItem} (hserver : E.server (Helm.archiveUrl p.name) = .body c true)
    (hsha : E.sha256 c = p.expected) (harchive : E.readArchive c = .entry path content true :: rest)
    (hpath : Helm.components path = Helm.components (Helm.archiveHelmEntry p.os p.arch)) (fs : Fs δ) :
    ∃ r s, Helm.prepare E p fs = (.ok r, s) := by
  have hget : httpGet E (Helm.archiveUrl p.name) = .ok (c, true) := by
    unfold httpGet
    rw [hserver]
  obtain ⟨m, hwrite⟩ := writeFile_run (hfault .createDownload (by decide)) (hfault .copyDownload (by decide))
    ⟨E.tempDir, p.name⟩ c fs
  have hdownload : downloadTo E (Helm.archiveUrl p.name) ⟨E.tempDir, p.name⟩ fs = _ :=
    (bind_of_ok (congrArg (fun r => (r, fs)) hget)).trans hwrite
  generalize hfs₁ : Function.update fs (⟨E.tempDir, p.name⟩ : Loc δ) (some ⟨c, m⟩) = fs₁ at hdownload
  have harchiveFile : fs₁ ⟨E.tempDir, p.name⟩ = some ⟨c, m⟩ := by rw [← hfs₁, Function.update_self]
  have hdigest : sha256OfFile E ⟨E.tempDir, p.name⟩ fs₁ = (.ok p.expected, fs₁) :=
    (bind_of_ok (readFile_run (hfault .readDownload (by decide)) harchiveFile)).trans
      (congrArg (fun sha => (Except.ok sha, fs₁)) hsha)
  obtain ⟨m', hextract⟩ := writeFile_run (hfault .createExtracted (by decide)) (hfault .copyExtracted (by decide))
    ⟨E.tempDir, "helm.extracted".toList⟩ content fs₁
  generalize hfs₂ : Function.update fs₁ (⟨E.tempDir, "helm.extracted".toList⟩ : Loc δ) (some ⟨content, m'⟩) = fs₂ at hextract
  have hentry : Helm.extractHelmFromArchive E ⟨E.tempDir, p.name⟩ (Helm.archiveHelmEntry p.os p.arch)
      ⟨E.tempDir, "helm.extracted".toList⟩ fs₁ = (.ok (), fs₂) := by
    refine (bind_of_ok (readFile_run (hfault .openArchive (by decide)) harchiveFile)).trans ?_
    rw [harchive, Helm.extractEntry, if_pos hpath]
    exact hextract
  have hextracted : fs₂ ⟨E.tempDir, "helm.extracted".toList⟩ = some ⟨content, m'⟩ := by rw [← hfs₂, Function.update_self]
  obtain ⟨s, hexec⟩ := makeExecutable_run hfault hextracted
  refine ⟨⟨⟨E.tempDir, "helm.extracted".toList⟩, p.target, ⟨p.target, p.version, Helm.archiveUrl p.name⟩⟩, s, ?_⟩
  refine (bind_of_ok hdownload).trans ((bind_of_ok hdigest).trans ?_)
  rw [if_neg (not_ne_iff.mpr rfl)]
  exact (bind_of_ok hentry).trans ((bind_of_ok hexec).trans rfl)

end

theorem twoFileSystems_ready : ∃ r s, preparation twoFileSystems .helm withOldHelm = (.ok r, s) := by
  have hversion : fetchVersion twoFileSystems Helm.latestVersionUrl = .ok "v3.18.0".toList := by
    rw [fetchVersion, httpGetText_of_body (t := "v3.18.0".toList) rfl]
    rfl
  have hsha : Helm.checked twoFileSystems (Helm.archiveUrl (Helm.archiveName "v3.18.0".toList "linux".toList "amd64".toList)) =
      .ok (List.replicate 64 'a') := by
    rw [Helm.checked, httpGetText_of_body (t := List.replicate 64 'a') rfl]
    rfl
  have hplan : Helm.plan twoFileSystems withOldHelm = (.ok helmPlan, withOldHelm) := by
    refine (bind_of_ok (a := helmPlace) rfl).trans ?_
    refine (bind_of_ok (a := ()) rfl).trans ?_
    refine (bind_of_ok (congrArg (fun r => (r, withOldHelm)) hversion)).trans ?_
    refine (bind_of_ok (a := "linux".toList) rfl).trans ?_
    refine (bind_of_ok (a := "amd64".toList) rfl).trans ?_
    refine (bind_of_ok (congrArg (fun r => (r, withOldHelm)) hsha)).trans ?_
    exact bind_of_ok (a := ()) rfl
  have hfault : ∀ step, step ≠ .rename → twoFileSystems.fault step = none := fun step hstep => if_neg hstep
  have hserver : twoFileSystems.server (Helm.archiveUrl helmPlan.name) = .body [1] true := by decide
  have hpath : Helm.components "linux-amd64/helm".toList =
      Helm.components (Helm.archiveHelmEntry helmPlan.os helmPlan.arch) := by decide
  obtain ⟨r, s, hprepare⟩ := Helm.prepare_run hfault hserver rfl rfl hpath withOldHelm
  exact ⟨r, s, (bind_of_ok hplan).trans hprepare⟩

/-- The old binary is gone after an installation that failed. -/
theorem old_helm_lost : ¬ Atomic twoFileSystems .helm withOldHelm := by
  obtain ⟨r, s, hrun⟩ := twoFileSystems_ready
  have hthere : (withOldHelm helmPlace).isSome := by decide
  have hrename : twoFileSystems.fault .rename ≠ none := by decide
  exact not_atomic ⟨helmPlace, rfl, hthere⟩ hrun rfl hrename

end FerrisScope.ManagedInstalls
