import Mathlib.Logic.Function.Basic
import FerrisScope.LabelledRuns
import FerrisScope.ReleaseNotes

/-!
# The cache of release notes

A call for the notes answers from the cache while that is fresh and of the installed version. Else it
asks the server for the list of releases, sending the tag of the cached one. The server confirms the
tag it last issued for the published list and otherwise sends the list. Calls run on threads of their
own: reading the cache, the server's answer and the write of the cache are steps apart. An upgrade
restarts the program, which ends its calls but leaves the cache.

Three fields record history: the tags issued with their lists, the server's answers, and the list that
was confirmed for a call.
-/

namespace FerrisScope.ReleaseNotesCache
open LabelledRuns ReleaseNotes

/-- Six hours in milliseconds. -/
def notesCacheTtlMs : ℕ := 6 * 60 * 60 * 1000

abbrev Releases := List GitHubRelease

structure NotesCacheEntry where
  etag : Option String
  fetchedAt : ℕ
  bundle : ReleaseNotesBundle
  deriving DecidableEq, Repr

inductive Response where
  | notModified
  | ok (releases : Releases) (etag : Option String)
  deriving DecidableEq, Repr

/-- A call of `fetch_release_notes`, with the time and the cache it has read. -/
inductive Call where
  | idle
  | requesting (now : ℕ) (cache : Option NotesCacheEntry)
  | answered (now : ℕ) (cache : Option NotesCacheEntry) (resp : Response)
  | returned (now : ℕ) (version : String) (reached : Bool) (result : Except String ReleaseNotesBundle)
  | dropped

/-- An answer of the server: the list in full, or the confirmation that it is the list still. -/
structure Answer where
  time : ℕ
  list : Releases
  full : Bool
  deriving DecidableEq, Repr

structure State where
  version : String
  now : ℕ
  cache : Option NotesCacheEntry
  published : Releases
  lastTag : Releases → Option String
  call : ℕ → Call
  issued : List (String × Releases)
  answers : List Answer
  confirmed : ℕ → Option Releases

def init (version : String) (published : Releases) : State where
  version := version
  now := 0
  cache := none
  published := published
  lastTag := fun _ => none
  call := fun _ => .idle
  issued := []
  answers := []
  confirmed := fun _ => none

/-- How a write of the cache ends. Its error is ignored. -/
inductive Written where
  | saved
  | kept
  | lost
  deriving DecidableEq, Repr

inductive Action where
  | tick (d : ℕ)
  | upgrade (version : String)
  | publish (releases : Releases)
  | start (c : ℕ) (force : Bool)
  | unreachable (c : ℕ) (e : String)
  | answer (c : ℕ) (etag : Option String)
  | finish (c : ℕ) (written : Written)
  deriving DecidableEq, Repr

namespace State

variable (s : State)

def setCall (c : ℕ) (x : Call) : State := { s with call := Function.update s.call c x }

/-- The bundle that is served without asking the server. -/
def freshBundle : Option ReleaseNotesBundle :=
  s.cache.bind fun c =>
    if s.now - c.fetchedAt < notesCacheTtlMs ∧ c.bundle.currentVersion = s.version then some c.bundle else none

def write (entry : Option NotesCacheEntry) (written : Written) : State :=
  match entry, written with
  | some e, .saved => { s with cache := some e }
  | some _, .lost => { s with cache := none }
  | _, _ => s

end State

def Call.restart : Call → Call
  | .requesting _ _ | .answered _ _ _ => .dropped
  | x => x

variable {V : Type} [LinearOrder V] (vs : Versions V) (dev : Bool)

/-- What becomes of a response: the result, and the entry to write. -/
def settle (version : String) (now : ℕ) (cache : Option NotesCacheEntry) :
    Response → Except String ReleaseNotesBundle × Option NotesCacheEntry
  | .notModified =>
    let unusable := (.error "GitHub returned 304 but no usable cached notes were available.", none)
    match cache with
    | some c =>
      if c.bundle.currentVersion = version then (.ok c.bundle, some { c with fetchedAt := now }) else unusable
    | none => unusable
  | .ok releases etag =>
    let bundle := buildBundle vs releases version now dev
    (.ok bundle, some ⟨etag, now, bundle⟩)

/-- A step of a call, of the server or of the world around. A tag is not issued for two lists. -/
def step (s : State) : Action → Option State
  | .tick d => some { s with now := s.now + d }
  | .upgrade version => some { s with version := version, call := fun c => (s.call c).restart }
  | .publish releases => some { s with published := releases }
  | .start c force =>
    match s.call c with
    | .idle =>
      match if force then none else s.freshBundle with
      | some bundle => some (s.setCall c (.returned s.now s.version false (.ok bundle)))
      | none => some (s.setCall c (.requesting s.now s.cache))
    | _ => none
  | .unreachable c e =>
    match s.call c with
    | .requesting now _ => some (s.setCall c (.returned now s.version false (.error e)))
    | _ => none
  | .answer c etag =>
    match s.call c with
    | .requesting now cache =>
      let sent := cache.bind NotesCacheEntry.etag
      if sent.isSome ∧ sent = s.lastTag s.published then
        some ({ s with
          answers := ⟨s.now, s.published, false⟩ :: s.answers
          confirmed := Function.update s.confirmed c (some s.published) }.setCall c (.answered now cache .notModified))
      else if ∀ x ∈ s.issued, some x.1 = etag → x.2 = s.published then
        some ({ s with
          answers := ⟨s.now, s.published, true⟩ :: s.answers
          issued := (etag.map fun t => (t, s.published)).toList ++ s.issued
          lastTag := Function.update s.lastTag s.published (etag.or (s.lastTag s.published))
          }.setCall c (.answered now cache (.ok s.published etag)))
      else none
    | _ => none
  | .finish c written =>
    match s.call c with
    | .answered now cache resp =>
      let r := settle vs dev s.version now cache resp
      some ((s.write r.2 written).setCall c (.returned now s.version true r.1))
    | _ => none

/-- The list was confirmed for this call, or it was served at most the cache lifetime ago. With
`confirmations`, a confirmation for another call counts as well. -/
def Current (confirmations : Bool) (s : State) (c now : ℕ) (list : Releases) : Prop :=
  s.confirmed c = some list ∨
    ∃ x ∈ s.answers, x.list = list ∧ now ≤ x.time + notesCacheTtlMs ∧ (x.full = true ∨ confirmations = true)

/-- Every call that reached the server succeeded, and every call returned the bundle of the version then
installed and a current list. -/
def Survives (confirmations : Bool) (s : State) : Prop :=
  ∀ c now version reached result, s.call c = .returned now version reached result →
    (reached = true → ∃ bundle, result = .ok bundle) ∧
      ∀ bundle, result = .ok bundle →
        ∃ list fetchedAt, bundle = buildBundle vs list version fetchedAt dev ∧ Current confirmations s c now list

/-- A bundle whose list the server confirms is of the installed version. Unless confirmations count, a
bundle served from the cache was fetched at most the cache lifetime ago. -/
def Usable (confirmations : Bool) (s : State) : Action → Prop
  | .finish c _ =>
    match s.call c with
    | .answered _ cache .notModified => ∀ e ∈ cache, e.bundle.currentVersion = s.version
    | _ => True
  | .start _ false => confirmations = true ∨ ∀ bundle ∈ s.freshBundle, s.now ≤ bundle.fetchedAt + notesCacheTtlMs
  | _ => True

/-- What an entry of the cache is made of. -/
structure Backed (s : State) (e : NotesCacheEntry) (list : Releases) : Prop where
  bundle : e.bundle = buildBundle vs list e.bundle.currentVersion e.bundle.fetchedAt dev
  etag : ∀ tag, e.etag = some tag → (tag, list) ∈ s.issued
  fetched : ∃ x ∈ s.answers, x.list = list ∧ x.full = true ∧ e.bundle.fetchedAt ≤ x.time
  stamped : ∃ x ∈ s.answers, x.list = list ∧ e.fetchedAt ≤ x.time

/-- Entries are backed by lists the server has served, and a tag stands for one list. -/
structure Inv (s : State) : Prop where
  cache : ∀ e, s.cache = some e → ∃ list, Backed vs dev s e list
  issued : ∀ x ∈ s.issued, ∀ y ∈ s.issued, x.1 = y.1 → x.2 = y.2
  lastTag : ∀ list tag, s.lastTag list = some tag → (tag, list) ∈ s.issued
  requesting : ∀ c now cache, s.call c = .requesting now cache →
    now ≤ s.now ∧ ∀ e, cache = some e → ∃ list, Backed vs dev s e list
  notModified : ∀ c now cache, s.call c = .answered now cache .notModified → ∃ e list, cache = some e ∧
    Backed vs dev s e list ∧ s.confirmed c = some list ∧ ∃ x ∈ s.answers, x.list = list ∧ now ≤ x.time
  ok : ∀ c now cache list etag, s.call c = .answered now cache (.ok list etag) →
    (∀ tag, etag = some tag → (tag, list) ∈ s.issued) ∧ ∃ x ∈ s.answers, x.list = list ∧ x.full = true ∧ now ≤ x.time

theorem inv_init (version : String) (published : Releases) : Inv vs dev (init version published) where
  cache := nofun
  issued := nofun
  lastTag := nofun
  requesting := nofun
  notModified := nofun
  ok := nofun

/-- The steps as a relation, one rule for each way an action can go. -/
inductive Step (s : State) : Action → State → Prop where
  | tick (d : ℕ) : Step s (.tick d) { s with now := s.now + d }
  | upgrade (version : String) :
      Step s (.upgrade version) { s with version := version, call := fun c => (s.call c).restart }
  | publish (releases : Releases) : Step s (.publish releases) { s with published := releases }
  | hit {c force bundle} (hforce : force = false) (hb : s.freshBundle = some bundle) :
      Step s (.start c force) (s.setCall c (.returned s.now s.version false (.ok bundle)))
  | request {c force} (hmiss : force = true ∨ s.freshBundle = none) :
      Step s (.start c force) (s.setCall c (.requesting s.now s.cache))
  | unreachable {c e now} : Step s (.unreachable c e) (s.setCall c (.returned now s.version false (.error e)))
  | confirmed {c etag now e tag} (hc : s.call c = .requesting now (some e)) (htag : e.etag = some tag)
      (hlast : s.lastTag s.published = some tag) : Step s (.answer c etag) ({ s with
        answers := ⟨s.now, s.published, false⟩ :: s.answers
        confirmed := Function.update s.confirmed c (some s.published) }.setCall c (.answered now (some e) .notModified))
  | served {c etag now cache} (hc : s.call c = .requesting now cache)
      (hfresh : ∀ x ∈ s.issued, some x.1 = etag → x.2 = s.published) : Step s (.answer c etag) ({ s with
        answers := ⟨s.now, s.published, true⟩ :: s.answers
        issued := (etag.map fun t => (t, s.published)).toList ++ s.issued
        lastTag := Function.update s.lastTag s.published (etag.or (s.lastTag s.published))
        }.setCall c (.answered now cache (.ok s.published etag)))
  | finish {c written now cache resp} (hc : s.call c = .answered now cache resp) : Step s (.finish c written)
      ((s.write (settle vs dev s.version now cache resp).2 written).setCall c
        (.returned now s.version true (settle vs dev s.version now cache resp).1))

section Steps

variable {vs} {dev} {s t : State} {c : ℕ} {a : Action}

theorem step_inv (h : step vs dev s a = some t) : Step vs dev s a t := by
  cases a with
  | tick d =>
    cases h
    exact .tick d
  | upgrade version =>
    cases h
    exact .upgrade version
  | publish releases =>
    cases h
    exact .publish releases
  | start c force =>
    simp only [step] at h
    split at h
    next =>
      split at h
      next bundle hb =>
        cases h
        cases force with
        | true => cases hb
        | false => exact .hit rfl hb
      next hmiss =>
        cases h
        cases force with
        | true => exact .request (.inl rfl)
        | false => exact .request (.inr hmiss)
    next => cases h
  | unreachable c e =>
    simp only [step] at h
    split at h
    next =>
      cases h
      exact .unreachable
    next => cases h
  | answer c etag =>
    simp only [step] at h
    split at h
    next now cache hc =>
      split_ifs at h with hsent hfresh
      · cases h
        obtain ⟨hsome, hlast⟩ := hsent
        obtain ⟨tag, htag⟩ := Option.isSome_iff_exists.mp hsome
        obtain ⟨e, rfl, htag'⟩ := Option.bind_eq_some_iff.mp htag
        exact .confirmed hc htag' (hlast.symm.trans htag)
      · cases h
        exact .served hc hfresh
    next => cases h
  | finish c written =>
    simp only [step] at h
    split at h
    next now cache resp hc =>
      cases h
      exact .finish hc
    next => cases h

theorem Backed.mono {e : NotesCacheEntry} {list : Releases} (hb : Backed vs dev s e list)
    (hissued : ∀ x ∈ s.issued, x ∈ t.issued) (hanswers : ∀ x ∈ s.answers, x ∈ t.answers) : Backed vs dev t e list where
  bundle := hb.bundle
  etag tag htag := hissued _ (hb.etag tag htag)
  fetched := hb.fetched.imp fun x hx => ⟨hanswers x hx.1, hx.2⟩
  stamped := hb.stamped.imp fun x hx => ⟨hanswers x hx.1, hx.2⟩

/-- A step of one call, after which the new facts are about that call. -/
theorem Inv.of_update (hs : Inv vs dev s) (hissued : ∀ x ∈ s.issued, x ∈ t.issued)
    (hanswers : ∀ x ∈ s.answers, x ∈ t.answers) (hnow : s.now ≤ t.now)
    (hcall : ∀ d, d ≠ c → t.call d = s.call d ∧ t.confirmed d = s.confirmed d)
    (hcache : ∀ e, t.cache = some e → ∃ list, Backed vs dev t e list)
    (htags : ∀ x ∈ t.issued, ∀ y ∈ t.issued, x.1 = y.1 → x.2 = y.2)
    (hlast : ∀ list tag, t.lastTag list = some tag → (tag, list) ∈ t.issued)
    (hrequesting : ∀ now cache, t.call c = .requesting now cache →
      now ≤ t.now ∧ ∀ e, cache = some e → ∃ list, Backed vs dev t e list)
    (hnotModified : ∀ now cache, t.call c = .answered now cache .notModified → ∃ e list, cache = some e ∧
      Backed vs dev t e list ∧ t.confirmed c = some list ∧ ∃ x ∈ t.answers, x.list = list ∧ now ≤ x.time)
    (hok : ∀ now cache list etag, t.call c = .answered now cache (.ok list etag) →
      (∀ tag, etag = some tag → (tag, list) ∈ t.issued) ∧
        ∃ x ∈ t.answers, x.list = list ∧ x.full = true ∧ now ≤ x.time) : Inv vs dev t where
  cache := hcache
  issued := htags
  lastTag := hlast
  requesting d now cache hd := by
    obtain rfl | hne := eq_or_ne d c
    · exact hrequesting now cache hd
    · obtain ⟨hle, hbacked⟩ := hs.requesting d now cache ((hcall d hne).1.symm.trans hd)
      exact ⟨hle.trans hnow, fun e he => (hbacked e he).imp fun _ hb => hb.mono hissued hanswers⟩
  notModified d now cache hd := by
    obtain rfl | hne := eq_or_ne d c
    · exact hnotModified now cache hd
    · obtain ⟨e, list, he, hb, hconf, x, hx, hlist⟩ := hs.notModified d now cache ((hcall d hne).1.symm.trans hd)
      exact ⟨e, list, he, hb.mono hissued hanswers, (hcall d hne).2.trans hconf, x, hanswers x hx, hlist⟩
  ok d now cache list etag hd := by
    obtain rfl | hne := eq_or_ne d c
    · exact hok now cache list etag hd
    · obtain ⟨htag, x, hx, hlist⟩ := hs.ok d now cache list etag ((hcall d hne).1.symm.trans hd)
      exact ⟨fun tag ht => hissued _ (htag tag ht), x, hanswers x hx, hlist⟩

/-- A call that has returned promises nothing more. -/
theorem Inv.setReturned {now : ℕ} {version : String} {reached : Bool} {result : Except String ReleaseNotesBundle}
    (hs : Inv vs dev s) : Inv vs dev (s.setCall c (.returned now version reached result)) := by
  have hself : (s.setCall c (.returned now version reached result)).call c = .returned now version reached result :=
    Function.update_self ..
  refine hs.of_update (c := c) (fun _ => id) (fun _ => id) le_rfl (fun d hd => ⟨Function.update_of_ne hd .., rfl⟩)
    (fun e he => (hs.cache e he).imp fun _ hb => hb.mono (fun _ => id) fun _ => id) hs.issued hs.lastTag
    (fun _ _ h => ?_) (fun _ _ h => ?_) fun _ _ _ _ h => ?_
  all_goals cases hself.symm.trans h

/-- What is written to the cache after a response is backed. -/
theorem Inv.write {now : ℕ} {cache : Option NotesCacheEntry} {resp : Response} {written : Written}
    (hs : Inv vs dev s) (hc : s.call c = .answered now cache resp) :
    Inv vs dev (s.write (settle vs dev s.version now cache resp).2 written) := by
  have hsame {x : Option NotesCacheEntry} (hx : ∀ e, x = some e → ∃ list, Backed vs dev s e list) :
      Inv vs dev { s with cache := x } :=
    ⟨fun e he => (hx e he).imp fun _ hb => hb.mono (fun _ => id) fun _ => id, hs.issued, hs.lastTag,
      fun d now cache hd => (hs.requesting d now cache hd).imp_right fun hall e he =>
        (hall e he).imp fun _ hb => hb.mono (fun _ => id) fun _ => id,
      fun d now cache hd => by
        obtain ⟨e, list, he, hb, hrest⟩ := hs.notModified d now cache hd
        exact ⟨e, list, he, hb.mono (fun _ => id) fun _ => id, hrest⟩,
      hs.ok⟩
  have hentry : ∀ e, (settle vs dev s.version now cache resp).2 = some e → ∃ list, Backed vs dev s e list := by
    intro e he
    cases resp with
    | notModified =>
      obtain ⟨e', list, rfl, hb, -, x, hx, hlist, hle⟩ := hs.notModified c now cache hc
      simp only [settle] at he
      split_ifs at he
      cases he
      exact ⟨list, hb.bundle, hb.etag, hb.fetched, x, hx, hlist, hle⟩
    | ok list etag =>
      obtain ⟨htag, x, hx, hlist, hfull, hle⟩ := hs.ok c now cache list etag hc
      cases he
      exact ⟨list, rfl, htag, ⟨x, hx, hlist, hfull, hle⟩, x, hx, hlist, hle⟩
  unfold State.write
  split
  next e he => exact hsame fun e' he' => hentry e' (he.trans he')
  next => exact hsame nofun
  next => exact hs

theorem inv_step (hs : Inv vs dev s) (h : step vs dev s a = some t) : Inv vs dev t := by
  cases step_inv h with
  | tick d =>
    have hmono {e : NotesCacheEntry} {list : Releases} (hb : Backed vs dev s e list) :
        Backed vs dev { s with now := s.now + d } e list := hb.mono (fun _ => id) fun _ => id
    refine ⟨fun e he => (hs.cache e he).imp fun _ => hmono, hs.issued, hs.lastTag, fun c now cache hc => ?_,
      fun c now cache hc => ?_, hs.ok⟩
    · obtain ⟨hle, hall⟩ := hs.requesting c now cache hc
      exact ⟨Nat.le_add_right_of_le hle, fun e he => (hall e he).imp fun _ => hmono⟩
    · obtain ⟨e, list, he, hb, hrest⟩ := hs.notModified c now cache hc
      exact ⟨e, list, he, hmono hb, hrest⟩
  | upgrade version =>
    have hdropped {c : ℕ} {x : Call} (hx : (s.call c).restart = x) :
        (∀ now cache, x ≠ .requesting now cache) ∧ ∀ now cache resp, x ≠ .answered now cache resp := by
      subst hx
      cases s.call c <;> simp [Call.restart]
    exact ⟨fun e he => (hs.cache e he).imp fun _ hb => hb.mono (fun _ => id) fun _ => id, hs.issued, hs.lastTag,
      fun c now cache hc => absurd rfl ((hdropped hc).1 now cache),
      fun c now cache hc => absurd rfl ((hdropped hc).2 now cache _),
      fun c now cache list etag hc => absurd rfl ((hdropped hc).2 now cache _)⟩
  | publish releases =>
    have hmono {e : NotesCacheEntry} {list : Releases} (hb : Backed vs dev s e list) :
        Backed vs dev { s with published := releases } e list := hb.mono (fun _ => id) fun _ => id
    refine ⟨fun e he => (hs.cache e he).imp fun _ => hmono, hs.issued, hs.lastTag, fun c now cache hc => ?_,
      fun c now cache hc => ?_, hs.ok⟩
    · exact (hs.requesting c now cache hc).imp_right fun hall e he => (hall e he).imp fun _ => hmono
    · obtain ⟨e, list, he, hb, hrest⟩ := hs.notModified c now cache hc
      exact ⟨e, list, he, hmono hb, hrest⟩
  | hit | unreachable => exact hs.setReturned
  | @request c force =>
    have hself : (s.setCall c (.requesting s.now s.cache)).call c = .requesting s.now s.cache := Function.update_self ..
    have hmono {e : NotesCacheEntry} (he : s.cache = some e) :
        ∃ list, Backed vs dev (s.setCall c (.requesting s.now s.cache)) e list :=
      (hs.cache e he).imp fun _ hb => hb.mono (fun _ => id) fun _ => id
    refine hs.of_update (c := c) (fun _ => id) (fun _ => id) le_rfl (fun d hd => ⟨Function.update_of_ne hd .., rfl⟩)
      (fun e he => hmono he) hs.issued hs.lastTag (fun now cache h => ?_) (fun _ _ h => ?_) fun _ _ _ _ h => ?_
    · cases hself.symm.trans h
      exact ⟨le_rfl, fun e he => hmono he⟩
    · cases hself.symm.trans h
    · cases hself.symm.trans h
  | @confirmed c etag now e tag hc htag hlast =>
    obtain ⟨hle, hbacked⟩ := hs.requesting c now (some e) hc
    obtain ⟨list, hb⟩ := hbacked e rfl
    obtain rfl : list = s.published := hs.issued _ (hb.etag tag htag) _ (hs.lastTag _ tag hlast) rfl
    have hmore {x : Answer} (hx : x ∈ s.answers) : x ∈ ⟨s.now, s.published, false⟩ :: s.answers :=
      List.mem_cons_of_mem _ hx
    refine hs.of_update (c := c) (fun _ => id) (fun _ => hmore) le_rfl
      (fun d hd => ⟨Function.update_of_ne hd .., Function.update_of_ne hd ..⟩)
      (fun e' he' => (hs.cache e' he').imp fun _ hb' => hb'.mono (fun _ => id) fun _ => hmore) hs.issued hs.lastTag
      (fun now' cache h => ?_) (fun now' cache h => ?_) fun now' cache list etag h => ?_
    · cases (Function.update_self c _ s.call).symm.trans h
    · cases (Function.update_self c _ s.call).symm.trans h
      exact ⟨e, s.published, rfl, hb.mono (fun _ => id) fun _ => hmore, Function.update_self ..,
        _, List.mem_cons_self, rfl, hle⟩
    · cases (Function.update_self c _ s.call).symm.trans h
  | @served c etag now cache hc hfresh =>
    obtain ⟨hle, -⟩ := hs.requesting c now cache hc
    have hmore {x : Answer} (hx : x ∈ s.answers) : x ∈ ⟨s.now, s.published, true⟩ :: s.answers :=
      List.mem_cons_of_mem _ hx
    have hissued (x : String × Releases) :
        x ∈ (etag.map fun t => (t, s.published)).toList ++ s.issued ↔ etag = some x.1 ∧ x.2 = s.published ∨ x ∈ s.issued := by
      obtain ⟨tag, list⟩ := x
      cases etag <;> simp [Prod.ext_iff, eq_comm]
    refine hs.of_update (c := c) (fun _ => List.mem_append_right _) (fun _ => hmore) le_rfl
      (fun d hd => ⟨Function.update_of_ne hd .., rfl⟩)
      (fun e' he' => (hs.cache e' he').imp fun _ hb' => hb'.mono (fun _ => List.mem_append_right _) fun _ => hmore)
      (fun x hx y hy hxy => ?_) (fun list tag htag => ?_) (fun now' cache' h => ?_) (fun now' cache' h => ?_)
      fun now' cache' list etag' h => ?_
    · obtain ⟨hx, hx'⟩ | hx := (hissued x).mp hx <;> obtain ⟨hy, hy'⟩ | hy := (hissued y).mp hy
      · rw [hx', hy']
      · rw [hx', hfresh y hy (by rw [← hxy, hx])]
      · rw [hy', hfresh x hx (by rw [hxy, hy])]
      · exact hs.issued x hx y hy hxy
    · refine (hissued _).mpr ?_
      obtain rfl | hne := eq_or_ne list s.published
      · simp only [State.setCall, Function.update_self] at htag
        cases etag with
        | none => exact .inr (hs.lastTag _ tag htag)
        | some tag' => exact .inl ⟨htag, rfl⟩
      · exact .inr (hs.lastTag list tag (by simpa [State.setCall, hne] using htag))
    · cases (Function.update_self c _ s.call).symm.trans h
    · cases (Function.update_self c _ s.call).symm.trans h
    · cases (Function.update_self c _ s.call).symm.trans h
      exact ⟨fun tag htag => (hissued _).mpr (.inl ⟨htag, rfl⟩), _, List.mem_cons_self, rfl, rfl, hle⟩
  | finish hc => exact (hs.write hc).setReturned

/-- What a step of one call has to show: that call's result. -/
theorem Survives.of_update {confirmations : Bool} (hp : Survives vs dev confirmations s)
    (hanswers : ∀ x ∈ s.answers, x ∈ t.answers)
    (hcall : ∀ d, d ≠ c → t.call d = s.call d ∧ t.confirmed d = s.confirmed d)
    (hc : ∀ now version reached result, t.call c = .returned now version reached result →
      (reached = true → ∃ bundle, result = .ok bundle) ∧ ∀ bundle, result = .ok bundle →
        ∃ list fetchedAt, bundle = buildBundle vs list version fetchedAt dev ∧ Current confirmations t c now list) :
    Survives vs dev confirmations t := by
  intro d now version reached result hd
  obtain rfl | hne := eq_or_ne d c
  · exact hc now version reached result hd
  · obtain ⟨hsame, hconf⟩ := hcall d hne
    obtain ⟨hreached, hbundle⟩ := hp d now version reached result (hsame.symm.trans hd)
    refine ⟨hreached, fun bundle hb => ?_⟩
    obtain ⟨list, fetchedAt, heq, hcurrent⟩ := hbundle bundle hb
    refine ⟨list, fetchedAt, heq, ?_⟩
    rw [Current, hconf]
    exact hcurrent.imp_right fun ⟨x, hx, hlist⟩ => ⟨x, hanswers x hx, hlist⟩

/-- The bundle of a fresh entry is of the installed version and of a list answered for a short time ago. -/
theorem Inv.freshBundle {confirmations : Bool} {bundle : ReleaseNotesBundle} (hs : Inv vs dev s)
    (hb : s.freshBundle = some bundle)
    (husable : confirmations = true ∨ s.now ≤ bundle.fetchedAt + notesCacheTtlMs) :
    ∃ list fetchedAt, bundle = buildBundle vs list s.version fetchedAt dev ∧ Current confirmations s c s.now list := by
  obtain ⟨e, he, hfresh⟩ := Option.bind_eq_some_iff.mp hb
  split_ifs at hfresh with hcond
  cases hfresh
  obtain ⟨list, hbacked⟩ := hs.cache e he
  refine ⟨list, e.bundle.fetchedAt, hcond.2 ▸ hbacked.bundle, .inr ?_⟩
  obtain hconf | hle := husable
  · obtain ⟨x, hx, hlist, hstamp⟩ := hbacked.stamped
    exact ⟨x, hx, hlist, by omega, .inr hconf⟩
  · obtain ⟨x, hx, hlist, hfull, hfetched⟩ := hbacked.fetched
    exact ⟨x, hx, hlist, by omega, .inl hfull⟩

/-- A step under the condition keeps what has been returned right. -/
theorem survives_step {confirmations : Bool} (hs : Inv vs dev s) (hp : Survives vs dev confirmations s)
    (husable : Usable confirmations s a) (h : step vs dev s a = some t) : Survives vs dev confirmations t := by
  cases step_inv h with
  | tick | publish => exact hp
  | upgrade version =>
    intro c now version' reached result hc
    refine hp c now version' reached result ?_
    cases hcall : s.call c <;> simp_all [Call.restart]
  | @hit c force bundle hforce hb =>
    subst hforce
    refine hp.of_update (c := c) (fun _ => id) (fun d hd => ⟨Function.update_of_ne hd .., rfl⟩)
      fun now version reached result hc => ?_
    cases (Function.update_self c _ s.call).symm.trans hc
    refine ⟨nofun, fun bundle' hb' => ?_⟩
    cases hb'
    exact hs.freshBundle hb (husable.imp_right fun hall => hall bundle hb)
  | @request c =>
    refine hp.of_update (c := c) (fun _ => id) (fun d hd => ⟨Function.update_of_ne hd .., rfl⟩)
      fun now version reached result hc => ?_
    cases (Function.update_self c _ s.call).symm.trans hc
  | @unreachable c =>
    refine hp.of_update (c := c) (fun _ => id) (fun d hd => ⟨Function.update_of_ne hd .., rfl⟩)
      fun now version reached result hc => ?_
    cases (Function.update_self c _ s.call).symm.trans hc
    exact ⟨nofun, nofun⟩
  | @confirmed c =>
    refine hp.of_update (c := c) (fun _ => List.mem_cons_of_mem _)
      (fun d hd => ⟨Function.update_of_ne hd .., Function.update_of_ne hd ..⟩) fun now version reached result hc => ?_
    cases (Function.update_self c _ s.call).symm.trans hc
  | @served c =>
    refine hp.of_update (c := c) (fun _ => List.mem_cons_of_mem _) (fun d hd => ⟨Function.update_of_ne hd .., rfl⟩)
      fun now version reached result hc => ?_
    cases (Function.update_self c _ s.call).symm.trans hc
  | @finish c written now cache resp hcall =>
    have hsame (entry : Option NotesCacheEntry) : (s.write entry written).call = s.call ∧
        (s.write entry written).confirmed = s.confirmed ∧ (s.write entry written).answers = s.answers := by
      unfold State.write
      split <;> exact ⟨rfl, rfl, rfl⟩
    obtain ⟨hcalls, hconf, hanswers⟩ := hsame (settle vs dev s.version now cache resp).2
    refine hp.of_update (c := c) (fun x hx => hanswers ▸ hx)
      (fun d hd => ⟨(Function.update_of_ne hd ..).trans (congrFun hcalls d), congrFun hconf d⟩)
      fun now' version reached result hc => ?_
    cases (Function.update_self c _ _).symm.trans hc
    cases resp with
    | notModified =>
      obtain ⟨e, list, rfl, hbacked, hconfirmed, -⟩ := hs.notModified c now cache hcall
      have hversion : e.bundle.currentVersion = s.version := by
        simp only [Usable, hcall] at husable
        exact husable e rfl
      simp only [settle, hversion, if_true]
      refine ⟨fun _ => ⟨_, rfl⟩, fun bundle hb => ?_⟩
      cases hb
      exact ⟨list, e.bundle.fetchedAt, hversion ▸ hbacked.bundle, .inl ((congrFun (hsame _).2.1 c).trans hconfirmed)⟩
    | ok list etag =>
      obtain ⟨-, x, hx, hlist, hfull, hle⟩ := hs.ok c now cache list etag hcall
      refine ⟨fun _ => ⟨_, rfl⟩, fun bundle hb => ?_⟩
      cases hb
      exact ⟨list, now, rfl, .inr ⟨x, hanswers.symm ▸ hx, hlist, Nat.le_add_right_of_le hle, .inl hfull⟩⟩

/-- A step after which all is right meets the condition, when confirmations count. -/
theorem usable_of_survives (h : step vs dev s a = some t) (ht : Survives vs dev true t) :
    Usable true s a := by
  cases a with
  | start c force =>
    cases force with
    | true => trivial
    | false => exact .inl rfl
  | finish c written =>
    cases step_inv h with
    | @finish _ _ now cache resp hcall =>
      cases resp with
      | ok => simp [Usable, hcall]
      | notModified =>
        simp only [Usable, hcall]
        rintro e rfl
        by_contra hversion
        have hresult := ht c now s.version true _ (Function.update_self ..)
        obtain ⟨bundle, hb⟩ := hresult.1 rfl
        simp [settle, hversion] at hb
  | _ => trivial

end Steps

/-- When confirmations count, all that is returned is right throughout a run exactly when no call finds an
entry of another version confirmed. When they do not count, it is right at the end of a run in which,
besides, no bundle is served from the cache later than its lifetime after it was fetched. -/
theorem survives_throughout {version : String} {published : Releases} {as : List Action} {s : State}
    (h : run (step vs dev) (init version published) as = some s) :
    ((∀ pre post t, as = pre ++ post → run (step vs dev) (init version published) pre = some t → Survives vs dev true t) ↔
        Meets (step vs dev) (Usable true) (init version published) as) ∧
      (Meets (step vs dev) (Usable false) (init version published) as → Survives vs dev false s) := by
  have hinit (confirmations : Bool) : Survives vs dev confirmations (init version published) := nofun
  refine ⟨forall_prefix_iff_meets (fun _ _ _ => inv_step)
    (fun _ _ _ hs hp h => ⟨usable_of_survives h, fun husable => survives_step hs hp husable h⟩)
    (inv_init vs dev version published) (hinit true) h, fun hm => ?_⟩
  have hboth : Inv vs dev s ∧ Survives vs dev false s :=
    @run_invariant_meets _ _ (step vs dev) (Usable false) (fun s => Inv vs dev s ∧ Survives vs dev false s)
      (fun _ _ _ husable hs h => ⟨inv_step hs.1 h, survives_step hs.1 hs.2 husable h⟩) _ _ _ hm
      ⟨inv_init vs dev version published, hinit false⟩ h
  exact hboth.2

instance decidableUsable (confirmations : Bool) (s : State) : (a : Action) → Decidable (Usable confirmations s a)
  | .finish c _ =>
    match h : s.call c with
    | .answered _ cache .notModified =>
      decidable_of_iff (∀ e ∈ cache, e.bundle.currentVersion = s.version) (by rw [Usable, h])
    | .answered _ _ (.ok _ _) | .idle | .requesting _ _ | .returned _ _ _ _ | .dropped =>
      .isTrue (by rw [Usable, h]; trivial)
  | .start _ false => inferInstanceAs (Decidable (_ ∨ ∀ bundle ∈ s.freshBundle, _))
  | .start _ true | .tick _ | .upgrade _ | .publish _ | .unreachable _ _ | .answer _ _ => .isTrue trivial

/-- Versions that are plain numbers. -/
def plainVersions : Versions ℕ := ⟨fun s => parseU64 s.toList, fun n => String.ofList (Nat.toDigits 10 n), 0⟩

/-- A list is fetched, and confirmed for a call that is forced. -/
theorem survives_throughout_confirmed :
    ∃ s, run (step plainVersions false) (init "1" []) [.start 0 false, .answer 0 (some "a"), .finish 0 .saved,
        .start 1 true, .answer 1 none, .finish 1 .saved] = some s ∧
      s.confirmed 1 = some [] ∧ Survives plainVersions false false s :=
  ⟨_, rfl, rfl, (@survives_throughout ℕ _ plainVersions false "1" [] [.start 0 false, .answer 0 (some "a"),
    .finish 0 .saved, .start 1 true, .answer 1 none, .finish 1 .saved] _ rfl).2 (by decide)⟩

/-- After an upgrade the server confirms the list of the old version's entry, and the call fails. -/
theorem upgraded_call_fails :
    ∃ s, run (step plainVersions false) (init "1" []) [.start 0 false, .answer 0 (some "a"), .finish 0 .saved,
        .upgrade "2", .start 1 false, .answer 1 none, .finish 1 .saved] = some s ∧
      s.call 1 = .returned 0 "2" true
        (.error "GitHub returned 304 but no usable cached notes were available.") ∧
      ∀ confirmations, ¬ Survives plainVersions false confirmations s := by
  refine ⟨_, rfl, rfl, fun confirmations hs => ?_⟩
  obtain ⟨bundle, hb⟩ := (hs 1 0 "2" true _ rfl).1 rfl
  cases hb

end FerrisScope.ReleaseNotesCache
