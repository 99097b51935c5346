import Mathlib.Data.List.Dedup
import Mathlib.Data.List.DropRight
import Mathlib.Data.List.Sort
import FerrisScope.CronFields
import FerrisScope.SplitOnce

/-!
# Release notes

The bodies of published releases are parsed into change items, and the releases newer than the
installed version make up the bundle that is shown, newest first. Versions are those of a version type
with its parser and printer. In a development build the threshold is the second-newest release.
-/

namespace FerrisScope.ReleaseNotes
open HostsFile SplitOnce
open CronFields (toAsciiLowercase isDigit ofDigits)

section Bodies

structure ChangeItem where
  kind : String
  scope : Option String
  text : String
  pr : Option ℕ
  author : Option String
  deriving DecidableEq, Repr

/-- The parts before and after the last occurrence of the separator. -/
def rsplitOnce (sep t : Text) : Option (Text × Text) :=
  (splitOnce sep.reverse t.reverse).map fun e => (e.2.reverse, e.1.reverse)

def trimEndMatches (c : Char) (t : Text) : Text := t.rdropWhile fun d => d = c

def stripPrefix (p t : Text) : Option Text := if p.isPrefixOf t then some (t.drop p.length) else none

def parseU64 (t : Text) : Option ℕ :=
  let digits := if t.head? = some '+' then t.tail else t
  if digits.isEmpty || !digits.all isDigit then none
  else if ofDigits digits < 2 ^ 64 then some (ofDigits digits) else none

def kinds : List Text :=
  ["feat", "fix", "refactor", "perf", "docs", "chore", "test", "build", "ci", "style", "revert"].map String.toList

local instance : LawfulBEq Text := inferInstanceAs (LawfulBEq (List Char))

def normalizeKind (kind : Text) : Option Text :=
  let k := toAsciiLowercase (trim kind)
  if k ∈ kinds then some k else none

/-- The type and the scope before the colon, where both brackets are there in order. -/
def splitHead (head : Text) : Text × Option Text :=
  match splitOnce ['('] head, splitOnce [')'] head with
  | some (kind, rest), some (upToClose, _) =>
    if upToClose.length > kind.length then (kind, some (trim (rest.take (upToClose.length - kind.length - 1))))
    else (head, none)
  | _, _ => (head, none)

/-- Type, scope and subject of a title. -/
def splitConventional (text : Text) : Text × Option Text × Text :=
  let other := ("other".toList, none, trim text)
  match splitOnce [':', ' '] text with
  | none => other
  | some (head, subject) =>
    let (kindRaw, scope) := splitHead head
    match normalizeKind (trimEndMatches '!' kindRaw) with
    | some kind => (kind, scope.filter (fun s => !s.isEmpty), trim subject)
    | none => other

/-- The title of a bullet, its author and its number. -/
def splitTail (line : Text) : Text × Option Text × Option ℕ :=
  let text := trim line
  match rsplitOnce " by @".toList text with
  | some (title, tail) =>
    let tail := trim tail
    match splitOnce " in ".toList tail with
    | some (who, url) =>
      let who := trim who
      (trim title, if who.isEmpty then none else some who,
        ((trim url).splitOn '/').getLast?.bind fun n => parseU64 (trim n))
    | none => (trim title, if tail.isEmpty then none else some tail, none)
  | none =>
    match rsplitOnce ['(', '#'] text with
    | some (title, inner) =>
      match parseU64 (trim (trimEndMatches ')' inner)) with
      | some n => (trim title, none, some n)
      | none => (text, none, none)
    | none => (text, none, none)

def parseChangeLine (line : Text) : ChangeItem :=
  let (text, author, pr) := splitTail line
  let (kind, scope, subject) := splitConventional text
  { kind := String.ofList kind
    scope := scope.map String.ofList
    text := String.ofList subject
    pr := pr
    author := author.map String.ofList }

/-- The bullets up to the footer or the next section. -/
def parseBullets : List Text → List ChangeItem
  | [] => []
  | line :: rest =>
    let trimmed := trim line
    if trimmed.isEmpty then parseBullets rest
    else if ["**full changelog".toList, "full changelog".toList].any (·.isPrefixOf (toAsciiLowercase trimmed)) then []
    else if ['#'].isPrefixOf trimmed then []
    else
      match ((stripPrefix ['*', ' '] trimmed).or (stripPrefix ['-', ' '] trimmed)).or (stripPrefix ['•', ' '] trimmed) with
      | some bullet => parseChangeLine bullet :: parseBullets rest
      | none => parseBullets rest

def parseWhatsChanged (body : Text) : List ChangeItem :=
  match (splitOnce "what's changed".toList (toAsciiLowercase body)).or (splitOnce "what’s changed".toList (toAsciiLowercase body)) with
  | none => []
  | some (before, _) =>
    match splitOnce ['\n'] (body.drop before.length) with
    | none => []
    | some (_, after) => parseBullets (lines after)

end Bodies

structure GitHubRelease where
  tagName : String
  htmlUrl : String
  name : Option String
  body : Option String
  publishedAt : Option String
  prerelease : Bool
  draft : Bool
  deriving DecidableEq, Repr

structure ReleaseNote where
  version : String
  tag : String
  name : Option String
  publishedAt : Option String
  htmlUrl : String
  changes : List ChangeItem
  deriving DecidableEq, Repr

structure ReleaseNotesBundle where
  currentVersion : String
  latestVersion : Option String
  releases : List ReleaseNote
  fetchedAt : ℕ
  deriving DecidableEq, Repr

/-- How versions are read and written, and the least one without a label. -/
structure Versions (V : Type) where
  parse : String → Option V
  render : V → String
  floor : V

def normalizeVersion (tag : String) : Option String :=
  let normalized := (trim tag.toList).dropWhile fun c => c = 'v'
  if normalized.isEmpty then none else some (String.ofList normalized)

variable {V : Type} [LinearOrder V] (vs : Versions V)

/-- The note of a stable release with a version. -/
def noteOf (r : GitHubRelease) : Option (V × ReleaseNote) :=
  if r.draft || r.prerelease then none
  else (normalizeVersion r.tagName).bind fun vStr => (vs.parse vStr).map fun v => (v,
    { version := vStr
      tag := r.tagName
      name := r.name
      publishedAt := r.publishedAt
      htmlUrl := r.htmlUrl
      changes := (r.body.map fun b => parseWhatsChanged b.toList).getD [] })

/-- The threshold that shows the newest release only. -/
def previewThreshold (parsed : List (V × ReleaseNote)) : V :=
  let versions := ((parsed.map Prod.fst).mergeSort fun a b => a ≤ b).dedup
  (versions.reverse[1]?).getD vs.floor

def threshold (parsed : List (V × ReleaseNote)) (currentStr : String) (previewOneBehind : Bool) : Option V :=
  if previewOneBehind then some (previewThreshold vs parsed) else vs.parse currentStr

/-- The notes above the threshold, newest first. -/
def newerNotes (parsed : List (V × ReleaseNote)) (threshold : Option V) : List (V × ReleaseNote) :=
  (parsed.filter fun p => threshold.all fun t => t < p.1).mergeSort fun a b => b.1 ≤ a.1

def buildBundle (releases : List GitHubRelease) (currentStr : String) (fetchedAt : ℕ) (previewOneBehind : Bool) :
    ReleaseNotesBundle :=
  let parsed := releases.filterMap (noteOf vs)
  { currentVersion := currentStr
    latestVersion := (parsed.map Prod.fst).max?.map vs.render
    releases := (newerNotes parsed (threshold vs parsed currentStr previewOneBehind)).map Prod.snd
    fetchedAt := fetchedAt }

theorem mem_newerNotes {parsed : List (V × ReleaseNote)} {t : Option V} {p : V × ReleaseNote} :
    p ∈ newerNotes parsed t ↔ p ∈ parsed ∧ ∀ v ∈ t, v < p.1 := by
  rw [newerNotes, List.mem_mergeSort, List.mem_filter]
  cases t <;> simp

theorem newerNotes_sorted (parsed : List (V × ReleaseNote)) (t : Option V) :
    (newerNotes parsed t).Pairwise fun a b => b.1 ≤ a.1 := by
  have hsorted := @List.pairwise_mergeSort _ (fun a b : V × ReleaseNote => decide (b.1 ≤ a.1))
    (fun a b c hab hbc => by
      simp only [decide_eq_true_eq] at *
      exact hbc.trans hab)
    (fun a b => by
      simp only [Bool.or_eq_true, decide_eq_true_eq]
      exact le_total _ _)
    (parsed.filter fun p => t.all fun v => v < p.1)
  exact hsorted.imp fun h => by simpa using h

example : parseChangeLine "fix(watch)!: keepalive by @dev in https://x/pull/44".toList =
    ⟨"fix", some "watch", "keepalive", some 44, some "dev"⟩ := by decide +kernel

end FerrisScope.ReleaseNotes
