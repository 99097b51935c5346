import Mathlib.Data.List.Basic
import Mathlib.Logic.Function.Basic
import FerrisScope.LabelledRuns

/-!
# The debug pods of a chat's node shells

A call that opens a node shell creates a privileged pod and enters it in the table of the chat once it
runs. A call that closes a shell takes its session out of the table and then deletes the pod, and so
does the chat with all its sessions when it is closed. Every stretch between two awaits is a step, the
requests that create pods are served on their own, also after their call was dropped, and a call can be
dropped at every await.

A pod and its session bear the number of the call that opens them, as both have fresh random names.
The field `custody` is history: who has a pod in hand. Manifests and the output of commands are left out.
-/

namespace FerrisScope.NodeShellPods
open LabelledRuns

structure Site where
  clusterId : String
  ns : String
  deriving DecidableEq, Repr

structure Session where
  podName : ℕ
  site : Site
  deriving DecidableEq, Repr

/-- What the cluster knows of a pod. -/
inductive Pod where
  | absent
  | requested (site : Site)
  | refused
  | up (site : Site)
  | deleted
  deriving DecidableEq, Repr

def Pod.isUp : Pod → Bool
  | .up _ => true
  | _ => false

/-- A call of the tools that open a shell, run a command in it and close it. -/
inductive Call where
  | idle
  | opening (site : Site)
  | creating (site : Site)
  | starting (site : Site)
  | abandoning (site : Site)
  | inserting (site : Site)
  | execing (sess : Session)
  | closing (sess : Session)
  | deleting (sess : Session)
  | ended
  deriving DecidableEq, Repr

namespace Call

/-- An open call that is still running. -/
def opens : Call → Bool
  | .opening _ | .creating _ | .starting _ | .abandoning _ | .inserting _ => true
  | _ => false

/-- The session that a running close call has taken. -/
def held : Call → Option Session
  | .closing sess | .deleting sess => some sess
  | _ => none

/-- The site of a pod that was created. -/
def started : Call → Option Site
  | .starting site | .abandoning site | .inserting site => some site
  | _ => none

end Call

/-- The sessions that the closing chat has drained and not yet gone through. -/
inductive Chat where
  | active
  | closing (left : List Session)
  | closed
  deriving DecidableEq, Repr

def Chat.left : Chat → List Session
  | .closing left => left
  | _ => []

inductive Custody where
  | nobody
  | opener
  | table
  | closer (c : ℕ)
  | chatClose
  deriving DecidableEq, Repr

structure State where
  active : String
  table : List (ℕ × Session)
  pod : ℕ → Pod
  call : ℕ → Call
  chat : Chat
  deleteFailed : Bool
  custody : ℕ → Custody

def init (active : String) : State where
  active := active
  table := []
  pod := fun _ => .absent
  call := fun _ => .idle
  chat := .active
  deleteFailed := false
  custody := fun _ => .nobody

def defaultDebugNamespace : String := "default"

/-- How the closing chat fares with one session. -/
inductive Reaped where
  | unreachable
  | deleted
  | failed
  deriving DecidableEq, Repr

inductive Action where
  | switchContext (id : String)
  | opened (c : ℕ) (ns : Option String)
  | client (c : ℕ) (ok : Bool)
  | serve (c : ℕ) (ok : Bool)
  | reply (c : ℕ) (ok : Bool)
  | running (c : ℕ) (ok : Bool)
  | deleteStuck (c : ℕ) (ok : Bool)
  | insert (c : ℕ)
  | exec (c : ℕ) (sessionId : ℕ)
  | execDone (c : ℕ)
  | close (c : ℕ) (sessionId : ℕ)
  | closeClient (c : ℕ) (ok : Bool)
  | deletePod (c : ℕ) (ok : Bool)
  | drop (c : ℕ)
  | onChatClose
  | reap (p : ℕ) (how : Reaped)
  | chatClosed
  deriving DecidableEq, Repr

namespace State

variable (s : State)

def setCall (c : ℕ) (x : Call) : State := { s with call := Function.update s.call c x }

def setPod (p : ℕ) (x : Pod) : State := { s with pod := Function.update s.pod p x }

def give (p : ℕ) (x : Custody) : State := { s with custody := Function.update s.custody p x }

/-- The answer to a request to delete a pod. -/
def delete (p : ℕ) (ok : Bool) : State := if ok then s.setPod p .deleted else { s with deleteFailed := true }

def get (id : ℕ) : Option Session := (s.table.find? fun e => e.1 = id).map Prod.snd

def insert (id : ℕ) (sess : Session) : State :=
  { s with table := (id, sess) :: s.table.filter fun e => e.1 ≠ id }

def remove (id : ℕ) : State := { s with table := s.table.filter fun e => e.1 ≠ id }

end State

/-- One stretch of a call or of the chat's end, or one request served. -/
def step (s : State) : Action → Option State
  | .switchContext id => some { s with active := id }
  | .opened c ns =>
    match s.call c with
    | .idle => some ((s.setCall c (.opening ⟨s.active, ns.getD defaultDebugNamespace⟩)).give c .opener)
    | _ => none
  | .client c ok =>
    match s.call c with
    | .opening site =>
      if ok then some ((s.setPod c (.requested site)).setCall c (.creating site))
      else some ((s.setCall c .ended).give c .nobody)
    | _ => none
  | .serve c ok =>
    match s.pod c with
    | .requested site => some (s.setPod c (if ok then .up site else .refused))
    | _ => none
  | .reply c ok =>
    match s.call c with
    | .creating site =>
      if ok then if (s.pod c).isUp then some (s.setCall c (.starting site)) else none
      else some ((s.setCall c .ended).give c .nobody)
    | _ => none
  | .running c ok =>
    match s.call c with
    | .starting site => some (s.setCall c (if ok then .inserting site else .abandoning site))
    | _ => none
  | .deleteStuck c ok =>
    match s.call c with
    | .abandoning _ => some (((s.delete c ok).setCall c .ended).give c .nobody)
    | _ => none
  | .insert c =>
    match s.call c with
    | .inserting site => some (((s.insert c ⟨c, site⟩).setCall c .ended).give c .table)
    | _ => none
  | .exec c id =>
    match s.call c with
    | .idle => some (s.setCall c (match s.get id with
      | some sess => .execing sess
      | none => .ended))
    | _ => none
  | .execDone c =>
    match s.call c with
    | .execing _ => some (s.setCall c .ended)
    | _ => none
  | .close c id =>
    match s.call c with
    | .idle => match s.get id with
      | some sess => some (((s.remove id).setCall c (.closing sess)).give sess.podName (.closer c))
      | none => some (s.setCall c .ended)
    | _ => none
  | .closeClient c ok =>
    match s.call c with
    | .closing sess =>
      if ok then some (s.setCall c (.deleting sess)) else some ((s.setCall c .ended).give sess.podName .nobody)
    | _ => none
  | .deletePod c ok =>
    match s.call c with
    | .deleting sess => some (((s.delete sess.podName ok).setCall c .ended).give sess.podName .nobody)
    | _ => none
  | .drop c =>
    match s.call c with
    | .idle | .ended => none
    | .execing _ => some (s.setCall c .ended)
    | .closing sess | .deleting sess => some ((s.setCall c .ended).give sess.podName .nobody)
    | _ => some ((s.setCall c .ended).give c .nobody)
  | .onChatClose =>
    match s.chat with
    | .active => some { s with
        table := []
        chat := .closing (s.table.map Prod.snd)
        custody := fun p => if s.custody p = .table then .chatClose else s.custody p }
    | _ => none
  | .reap p how =>
    match s.chat with
    | .closing left =>
      if p ∈ left.map Session.podName then
        let s := match how with
          | .unreachable => s
          | .deleted => s.delete p true
          | .failed => s.delete p false
        some ({ s with chat := .closing (left.filter fun sess => sess.podName ≠ p) }.give p .nobody)
      else none
    | _ => none
  | .chatClosed => if s.chat = .closing [] then some { s with chat := .closed } else none

/-- Every pod that is up is recorded in the table under its site, or belongs to a running open call. With
`closing`, it may also be in the hands of a running close call or of the closing chat. -/
def Accounted (closing : Bool) (s : State) : Prop :=
  ∀ p site, s.pod p = .up site →
    (∃ id, (id, ⟨p, site⟩) ∈ s.table) ∨ (s.call p).opens = true ∨
      closing = true ∧ ((∃ c, ∃ sess ∈ (s.call c).held, sess.podName = p) ∨ ∃ sess ∈ s.chat.left, sess.podName = p)

/-- Once the chat has been closed and all calls have ended, and no delete has failed, no pod is up. -/
def Released (s : State) : Prop :=
  s.chat = .closed → (∀ c, s.call c = .idle ∨ s.call c = .ended) → s.deleteFailed = false →
    ∀ p, (s.pod p).isUp = false

/-- The pod that a running call has in hand. -/
def inHand (s : State) (c : ℕ) : Option ℕ :=
  if (s.call c).opens then some c else (s.call c).held.map Session.podName

/-- No call ends, and no session is given up, while its pod is up, and no pod comes up after its call has
ended. Unless running closes count, a session leaves the table only when its pod is not up. -/
def Kept (closing : Bool) (s : State) : Action → Prop
  | .serve c true => (s.call c).opens = true
  | .reply c false | .deleteStuck c false | .closeClient c false | .deletePod c false | .drop c =>
    ∀ p ∈ inHand s c, (s.pod p).isUp = false
  | .close _ id => closing = true ∨ ∀ sess ∈ s.get id, (s.pod sess.podName).isUp = false
  | .onChatClose => closing = true ∨ ∀ e ∈ s.table, (s.pod e.2.podName).isUp = false
  | .reap p .unreachable | .reap p .failed => (s.pod p).isUp = false
  | _ => True

/-- A session is entered in the table before the chat is closed. -/
def Timely (s : State) : Action → Prop
  | .insert _ => s.chat = .active
  | _ => True

namespace Custody

/-- The pod has been entered in the table once. -/
def entered : Custody → Bool
  | .table | .closer _ | .chatClose => true
  | _ => false

/-- Whether it counts as an account of a pod. -/
def accounts (closing : Bool) : Custody → Bool
  | .opener | .table => true
  | .closer _ | .chatClose => closing
  | .nobody => false

end Custody

/-- The custody of a pod is where the code has it. -/
structure Inv (s : State) : Prop where
  table : ∀ p, s.custody p = .table ↔ ∃ e ∈ s.table, e.2.podName = p
  ids : ∀ e ∈ s.table, e.1 = e.2.podName
  sites : ∀ e ∈ s.table, ∀ site, s.pod e.2.podName = .up site → e.2.site = site
  opener : ∀ p, s.custody p = .opener ↔ (s.call p).opens = true
  closer : ∀ p c, s.custody p = .closer c ↔ ∃ sess ∈ (s.call c).held, sess.podName = p
  left : ∀ p, s.custody p = .chatClose ↔ ∃ sess ∈ s.chat.left, sess.podName = p
  entered : ∀ p, (s.custody p).entered = true → s.call p = .ended ∧ ∀ site, s.pod p ≠ .requested site
  idle : ∀ c, s.call c = .idle → s.pod c = .absent ∧ s.custody c = .nobody
  opening : ∀ c site, s.call c = .opening site → s.pod c = .absent
  creating : ∀ c site, s.call c = .creating site →
    s.pod c = .requested site ∨ s.pod c = .refused ∨ s.pod c = .up site
  started : ∀ c site, (s.call c).started = some site → s.pod c = .up site

theorem inv_init (active : String) : Inv (init active) where
  table := by simp [init]
  ids := nofun
  sites := nofun
  opener := by simp [init, Call.opens]
  closer := by simp [init, Call.held]
  left := by simp [init, Chat.left]
  entered := nofun
  idle := fun _ _ => ⟨rfl, rfl⟩
  opening := nofun
  creating := nofun
  started := nofun

section Invariant

variable {s : State} {c p : ℕ}

/-- A session in the table is found under its pod's number. -/
theorem Inv.of_get {id : ℕ} {sess : Session} (hs : Inv s) (h : s.get id = some sess) :
    (id, sess) ∈ s.table ∧ id = sess.podName := by
  obtain ⟨e, he, rfl⟩ := Option.map_eq_some_iff.mp h
  have hid : e.1 = id := by simpa using List.find?_some he
  have hmem := List.mem_of_find?_eq_some he
  subst hid
  exact ⟨hmem, hs.ids e hmem⟩

/-- Who else has a pod is as before, when it passes from one custody to another. -/
theorem custody_give {x k : Custody} (hp : s.custody p ≠ k) (hx : x ≠ k) (q : ℕ) :
    (s.give p x).custody q = k ↔ s.custody q = k := by
  obtain rfl | hne := eq_or_ne q p
  · simp only [State.give, Function.update_self]
    exact iff_of_false hx hp
  · simp only [State.give, Function.update_of_ne hne]

theorem call_of_setCall {d : ℕ} {x y : Call} (h : (s.setCall c x).call d = y) (hx : x ≠ y) :
    d ≠ c ∧ s.call d = y := by
  have hne : d ≠ c := by
    rintro rfl
    exact hx ((Function.update_self ..).symm.trans h)
  exact ⟨hne, (Function.update_of_ne hne ..).symm.trans h⟩

theorem started_of_setCall {d : ℕ} {x : Call} {site : Site} (h : ((s.setCall c x).call d).started = some site)
    (hx : x.started = none) : d ≠ c ∧ (s.call d).started = some site := by
  have hother : x ≠ (s.setCall c x).call d := by
    intro heq
    rw [← heq, hx] at h
    cases h
  obtain ⟨hne, hcall⟩ := call_of_setCall rfl hother
  exact ⟨hne, hcall ▸ h⟩

theorem Inv.setCall {x : Call} (hs : Inv s) (hopens : x.opens = (s.call c).opens) (hheld : x.held = (s.call c).held)
    (hc : s.call c ≠ .ended) (hidle : x ≠ .idle) (hopening : ∀ site, x ≠ .opening site)
    (hcreating : ∀ site, x = .creating site → s.pod c = .requested site ∨ s.pod c = .refused ∨ s.pod c = .up site)
    (hstarted : ∀ site, x.started = some site → s.pod c = .up site) : Inv (s.setCall c x) where
  table := hs.table
  ids := hs.ids
  sites := hs.sites
  opener q := by
    obtain rfl | hne := eq_or_ne q c
    · simpa [State.setCall, hopens] using hs.opener q
    · simpa [State.setCall, hne] using hs.opener q
  closer q d := by
    obtain rfl | hne := eq_or_ne d c
    · simpa [State.setCall, hheld] using hs.closer q d
    · simpa [State.setCall, hne] using hs.closer q d
  left := hs.left
  entered q hq := by
    obtain ⟨hended, hpod⟩ := hs.entered q hq
    have hne : q ≠ c := by
      rintro rfl
      exact hc hended
    exact ⟨by simpa [State.setCall, hne] using hended, hpod⟩
  idle d hd := by
    obtain rfl | hne := eq_or_ne d c
    · exact absurd (by simpa [State.setCall] using hd) hidle
    · exact hs.idle d (by simpa [State.setCall, hne] using hd)
  opening d site hd := by
    obtain rfl | hne := eq_or_ne d c
    · exact absurd (by simpa [State.setCall] using hd) (hopening site)
    · exact hs.opening d site (by simpa [State.setCall, hne] using hd)
  creating d site hd := by
    obtain rfl | hne := eq_or_ne d c
    · exact hcreating site (by simpa [State.setCall] using hd)
    · exact hs.creating d site (by simpa [State.setCall, hne] using hd)
  started d site hd := by
    obtain rfl | hne := eq_or_ne d c
    · exact hstarted site (by simpa [State.setCall] using hd)
    · exact hs.started d site (by simpa [State.setCall, hne] using hd)

/-- An open call ends and lets go of its pod. -/
theorem Inv.endOpen (hs : Inv s) (hc : (s.call c).opens = true) : Inv ((s.setCall c .ended).give c .nobody) := by
  have howner : s.custody c = .opener := (hs.opener c).mpr hc
  have hcustody (k : Custody) (hk : .opener ≠ k) (hnobody : .nobody ≠ k) (q : ℕ) :
      ((s.setCall c .ended).give c .nobody).custody q = k ↔ s.custody q = k :=
    custody_give (s := s.setCall c .ended) (fun h => hk (howner.symm.trans h)) hnobody q
  refine ⟨fun q => (hcustody .table nofun nofun q).trans (hs.table q), hs.ids, hs.sites, fun q => ?_, fun q d => ?_,
    fun q => (hcustody .chatClose nofun nofun q).trans (hs.left q), fun q hq => ?_, fun d hd => ?_, fun d site hd => ?_,
    fun d site hd => ?_, fun d site hd => ?_⟩
  · obtain rfl | hne := eq_or_ne q c
    · simp [State.give, State.setCall, Call.opens]
    · simpa [State.give, State.setCall, hne] using hs.opener q
  · have hheld : (Function.update s.call c .ended d).held = (s.call d).held := by
      obtain rfl | hne := eq_or_ne d c
      · rw [Function.update_self]
        cases hcall : s.call d <;> simp_all [Call.opens, Call.held]
      · rw [Function.update_of_ne hne]
    rw [hcustody (.closer d) nofun nofun, hs.closer q d, ← hheld]
    rfl
  · obtain rfl | hne := eq_or_ne q c
    · simp [State.give, Custody.entered] at hq
    · simpa [State.give, State.setCall, hne] using hs.entered q (by simpa [State.give, State.setCall, hne] using hq)
  · obtain ⟨hne, hcall⟩ := call_of_setCall hd nofun
    simpa [State.give, State.setCall, hne] using hs.idle d hcall
  · exact hs.opening d site (call_of_setCall hd nofun).2
  · exact hs.creating d site (call_of_setCall hd nofun).2
  · exact hs.started d site (started_of_setCall hd rfl).2

/-- A close call ends and lets go of its pod. -/
theorem Inv.endHeld {sess : Session} (hs : Inv s) (hc : (s.call c).held = some sess) :
    Inv ((s.setCall c .ended).give sess.podName .nobody) := by
  have howner : s.custody sess.podName = .closer c := (hs.closer _ c).mpr ⟨sess, hc, rfl⟩
  have hcustody (k : Custody) (hk : .closer c ≠ k) (hnobody : .nobody ≠ k) (q : ℕ) :
      ((s.setCall c .ended).give sess.podName .nobody).custody q = k ↔ s.custody q = k :=
    custody_give (s := s.setCall c .ended) (fun h => hk (howner.symm.trans h)) hnobody q
  have hopens : (s.call c).opens = false := by
    cases hcall : s.call c <;> simp_all [Call.opens, Call.held]
  refine ⟨fun q => (hcustody .table nofun nofun q).trans (hs.table q), hs.ids, hs.sites, fun q => ?_, fun q d => ?_,
    fun q => (hcustody .chatClose nofun nofun q).trans (hs.left q), fun q hq => ?_, fun d hd => ?_, fun d site hd => ?_,
    fun d site hd => ?_, fun d site hd => ?_⟩
  · have hsame : (Function.update s.call c .ended q).opens = (s.call q).opens := by
      obtain rfl | hne := eq_or_ne q c
      · rw [Function.update_self, hopens]
        rfl
      · rw [Function.update_of_ne hne]
    rw [hcustody .opener nofun nofun, hs.opener q, ← hsame]
    rfl
  · have hold := hs.closer q d
    obtain rfl | hdc := eq_or_ne d c
    · obtain rfl | hne := eq_or_ne q sess.podName
      · simp [State.give, State.setCall, Call.held]
      · simp only [hc, Option.mem_some_iff, exists_eq_left', hne.symm, iff_false] at hold
        simpa [State.give, State.setCall, hne, Call.held] using hold
    · rw [hcustody (.closer d) (fun h => hdc (Custody.closer.inj h).symm) nofun, hold]
      simp [State.give, State.setCall, hdc]
  · have hne : q ≠ sess.podName := by
      rintro rfl
      simp [State.give, Custody.entered] at hq
    have hold := hs.entered q (by simpa [State.give, State.setCall, hne] using hq)
    obtain rfl | hqc := eq_or_ne q c
    · exact ⟨Function.update_self .., hold.2⟩
    · exact ⟨(Function.update_of_ne hqc ..).trans hold.1, hold.2⟩
  · obtain ⟨-, hcall⟩ := call_of_setCall hd nofun
    obtain ⟨hpod, hnobody⟩ := hs.idle d hcall
    have hne : d ≠ sess.podName := by
      rintro rfl
      cases howner.symm.trans hnobody
    exact ⟨hpod, (Function.update_of_ne hne ..).trans hnobody⟩
  · exact hs.opening d site (call_of_setCall hd nofun).2
  · exact hs.creating d site (call_of_setCall hd nofun).2
  · exact hs.started d site (started_of_setCall hd rfl).2

theorem Inv.delete (hs : Inv s) (hp : s.call p = .ended) (ok : Bool) : Inv (s.delete p ok) := by
  cases ok with
  | false =>
    exact ⟨hs.table, hs.ids, hs.sites, hs.opener, hs.closer, hs.left, hs.entered, hs.idle, hs.opening, hs.creating,
      hs.started⟩
  | true =>
    have hne {q : ℕ} (hq : s.call q ≠ .ended) : q ≠ p := by
      rintro rfl
      exact hq hp
    refine ⟨hs.table, hs.ids, fun e he site hup => ?_, hs.opener, hs.closer, hs.left, fun q hq => ?_, fun d hd => ?_,
      fun d site hd => ?_, fun d site hd => ?_, fun d site hd => ?_⟩
    · obtain heq | hne := eq_or_ne e.2.podName p
      · simp [State.delete, State.setPod, heq] at hup
      · exact hs.sites e he site (by simpa [State.delete, State.setPod, hne] using hup)
    · have hold := hs.entered q hq
      obtain rfl | hne := eq_or_ne q p
      · exact ⟨hold.1, by simp [State.delete, State.setPod]⟩
      · simpa [State.delete, State.setPod, hne] using hold
    · have hcall : s.call d = .idle := hd
      have hdp : d ≠ p := hne (by simp [hcall])
      simpa [State.delete, State.setPod, hdp] using hs.idle d hcall
    · have hcall : s.call d = .opening site := hd
      have hdp : d ≠ p := hne (by simp [hcall])
      simpa [State.delete, State.setPod, hdp] using hs.opening d site hcall
    · have hcall : s.call d = .creating site := hd
      have hdp : d ≠ p := hne (by simp [hcall])
      simpa [State.delete, State.setPod, hdp] using hs.creating d site hcall
    · have hcall : (s.call d).started = some site := hd
      have hdp : d ≠ p := hne (by rintro hend; simp [hend, Call.started] at hcall)
      simpa [State.delete, State.setPod, hdp] using hs.started d site hcall

/-- The pod of an open call that has ended enters the table. -/
theorem Inv.enter {site : Site} (hs : Inv s) (hcustody : s.custody c = .nobody) (hcall : s.call c = .ended)
    (hpod : s.pod c = .up site) : Inv ((s.insert c ⟨c, site⟩).give c .table) := by
  have hother (k : Custody) (hk : .nobody ≠ k) (htable : .table ≠ k) (q : ℕ) :
      ((s.insert c ⟨c, site⟩).give c .table).custody q = k ↔ s.custody q = k :=
    custody_give (s := s.insert c ⟨c, site⟩) (fun h => hk (hcustody.symm.trans h)) htable q
  have hmem (e : ℕ × Session) : e ∈ ((s.insert c ⟨c, site⟩).give c .table).table ↔
      e = (c, ⟨c, site⟩) ∨ e ∈ s.table := by
    have habsent : e ∈ s.table → e.1 ≠ c := by
      rintro he rfl
      have htable := (hs.table e.1).mpr ⟨e, he, (hs.ids e he).symm⟩
      rw [hcustody] at htable
      cases htable
    simp only [State.give, State.insert, List.mem_cons, List.mem_filter, decide_eq_true_eq]
    exact or_congr_right ⟨And.left, fun he => ⟨he, habsent he⟩⟩
  refine ⟨fun q => ?_, fun e he => ?_, fun e he site' hup => ?_, fun q => ?_, fun q d => ?_, fun q => ?_,
    fun q hq => ?_, fun d hd => ?_, hs.opening, hs.creating, hs.started⟩
  · simp only [hmem, or_and_right, exists_or, exists_eq_left]
    obtain rfl | hne := eq_or_ne q c
    · simp [State.give, State.insert]
    · simpa [State.give, State.insert, hne, hne.symm] using hs.table q
  · obtain rfl | hold := (hmem e).mp he
    · rfl
    · exact hs.ids e hold
  · obtain rfl | hold := (hmem e).mp he
    · exact Pod.up.inj (hpod.symm.trans hup)
    · exact hs.sites e hold site' hup
  · exact (hother .opener nofun nofun q).trans (hs.opener q)
  · exact (hother (.closer d) nofun nofun q).trans (hs.closer q d)
  · exact (hother .chatClose nofun nofun q).trans (hs.left q)
  · obtain rfl | hne := eq_or_ne q c
    · exact ⟨hcall, fun site' hreq => by cases hpod.symm.trans hreq⟩
    · exact hs.entered q (by simpa [State.give, State.insert, hne] using hq)
  · have hne : d ≠ c := by
      rintro rfl
      cases hcall.symm.trans hd
    simpa [State.give, State.insert, hne] using hs.idle d hd

/-- A close call takes a session out of the table. -/
theorem Inv.close {id : ℕ} {sess : Session} (hs : Inv s) (hc : s.call c = .idle) (hget : s.get id = some sess) :
    Inv (((s.remove id).setCall c (.closing sess)).give sess.podName (.closer c)) := by
  obtain ⟨hin, rfl⟩ := hs.of_get hget
  have htable : s.custody sess.podName = .table := (hs.table _).mpr ⟨_, hin, rfl⟩
  have hended : s.call sess.podName = .ended := (hs.entered _ (by rw [htable]; rfl)).1
  have hidle := hs.idle c hc
  have hcp : sess.podName ≠ c := by
    rintro rfl
    cases hended.symm.trans hc
  have hmem (e : ℕ × Session) : e ∈ (s.remove sess.podName).table ↔ e ∈ s.table ∧ e.2.podName ≠ sess.podName := by
    simp only [State.remove, List.mem_filter, decide_eq_true_eq]
    exact and_congr_right fun he => by rw [hs.ids e he]
  refine ⟨fun q => ?_, fun e he => hs.ids e ((hmem e).mp he).1, fun e he => hs.sites e ((hmem e).mp he).1, fun q => ?_,
    fun q d => ?_, fun q => ?_, fun q hq => ?_, fun d hd => ?_, fun d site hd => ?_, fun d site hd => ?_,
    fun d site hd => ?_⟩
  · have hold := hs.table q
    change _ ↔ ∃ e ∈ (s.remove sess.podName).table, _
    simp only [hmem]
    obtain rfl | hne := eq_or_ne q sess.podName
    · simp only [State.give, Function.update_self]
      exact iff_of_false nofun fun ⟨e, he, heq⟩ => he.2 heq
    · simp only [State.give, State.setCall, State.remove, Function.update_of_ne hne, hold]
      exact exists_congr fun e => ⟨fun h => ⟨⟨h.1, h.2.trans_ne hne⟩, h.2⟩, fun h => ⟨h.1.1, h.2⟩⟩
  · have hold := hs.opener q
    obtain rfl | hne := eq_or_ne q sess.podName
    · rw [htable] at hold
      simpa [State.give, State.setCall, State.remove, hcp] using hold
    · obtain rfl | hqc := eq_or_ne q c
      · simp [State.give, State.setCall, State.remove, hne, hidle.2, Call.opens]
      · simpa [State.give, State.setCall, State.remove, hne, hqc] using hold
  · have hold := hs.closer q d
    obtain rfl | hdc := eq_or_ne d c
    · obtain rfl | hne := eq_or_ne q sess.podName
      · simp [State.give, State.setCall, State.remove, Call.held]
      · simp only [hc, Call.held, Option.not_mem_none, false_and, exists_false, iff_false] at hold
        simpa [State.give, State.setCall, State.remove, hne, hne.symm, Call.held] using hold
    · obtain rfl | hne := eq_or_ne q sess.podName
      · rw [htable] at hold
        simpa [State.give, State.setCall, State.remove, hdc, hdc.symm] using hold
      · simpa [State.give, State.setCall, State.remove, hne, hdc] using hold
  · refine (custody_give (s := (s.remove sess.podName).setCall c (.closing sess)) (x := .closer c) (k := .chatClose)
      (fun h => ?_) nofun q).trans (hs.left q)
    cases htable.symm.trans h
  · obtain rfl | hne := eq_or_ne q sess.podName
    · simpa [State.give, State.setCall, State.remove, hcp] using hs.entered sess.podName (by rw [htable]; rfl)
    · have hold := hs.entered q (by simpa [State.give, State.setCall, State.remove, hne] using hq)
      have hqc : q ≠ c := by
        rintro rfl
        cases hold.1.symm.trans hc
      simpa [State.give, State.setCall, State.remove, hqc] using hold
  · have hdc : d ≠ c := by
      rintro rfl
      simp [State.give, State.setCall] at hd
    have hold := hs.idle d (by simpa [State.give, State.setCall, State.remove, hdc] using hd)
    have hne : d ≠ sess.podName := by
      rintro rfl
      cases htable.symm.trans hold.2
    simpa [State.give, State.setCall, State.remove, hne] using hold
  · exact hs.opening d site (call_of_setCall (s := s.remove _) hd nofun).2
  · exact hs.creating d site (call_of_setCall (s := s.remove _) hd nofun).2
  · exact hs.started d site (started_of_setCall (s := s.remove _) hd rfl).2

theorem Inv.opened {site : Site} (hs : Inv s) (hc : s.call c = .idle) :
    Inv ((s.setCall c (.opening site)).give c .opener) := by
  obtain ⟨hpod, hcustody⟩ := hs.idle c hc
  have hother (k : Custody) (hk : .nobody ≠ k) (hopener : .opener ≠ k) (q : ℕ) :
      ((s.setCall c (.opening site)).give c .opener).custody q = k ↔ s.custody q = k :=
    custody_give (s := s.setCall c (.opening site)) (fun h => hk (hcustody.symm.trans h)) hopener q
  refine ⟨fun q => ?_, hs.ids, hs.sites, fun q => ?_, fun q d => ?_, fun q => ?_, fun q hq => ?_, fun d hd => ?_,
    fun d site' hd => ?_, fun d site' hd => ?_, fun d site' hd => ?_⟩
  · exact (hother .table nofun nofun q).trans (hs.table q)
  · obtain rfl | hne := eq_or_ne q c
    · simp [State.give, State.setCall, Call.opens]
    · simpa [State.give, State.setCall, hne] using hs.opener q
  · have hheld : (Function.update s.call c (.opening site) d).held = (s.call d).held := by
      obtain rfl | hne := eq_or_ne d c
      · rw [Function.update_self, hc]
        rfl
      · rw [Function.update_of_ne hne]
    rw [hother (.closer d) nofun nofun, hs.closer q d, ← hheld]
    rfl
  · exact (hother .chatClose nofun nofun q).trans (hs.left q)
  · have hne : q ≠ c := by
      rintro rfl
      simp [State.give, Custody.entered] at hq
    simpa [State.give, State.setCall, hne] using hs.entered q (by simpa [State.give, State.setCall, hne] using hq)
  · have hne : d ≠ c := by
      rintro rfl
      simp [State.give, State.setCall] at hd
    simpa [State.give, State.setCall, hne] using hs.idle d (by simpa [State.give, State.setCall, hne] using hd)
  · obtain rfl | hne := eq_or_ne d c
    · exact hpod
    · exact hs.opening d site' (by simpa [State.give, State.setCall, hne] using hd)
  · exact hs.creating d site' (call_of_setCall hd nofun).2
  · exact hs.started d site' (started_of_setCall hd rfl).2

/-- The request to create a pod is sent. -/
theorem Inv.requested {site : Site} (hs : Inv s) (hc : s.call c = .opening site) :
    Inv ((s.setPod c (.requested site)).setCall c (.creating site)) := by
  have hcustody : s.custody c = .opener := (hs.opener c).mpr (by rw [hc]; rfl)
  refine ⟨hs.table, hs.ids, fun e he site' hup => ?_, fun q => ?_, fun q d => ?_, hs.left, fun q hq => ?_,
    fun d hd => ?_, fun d site' hd => ?_, fun d site' hd => ?_, fun d site' hd => ?_⟩
  · obtain heq | hne := eq_or_ne e.2.podName c
    · simp [State.setCall, State.setPod, heq] at hup
    · exact hs.sites e he site' (by simpa [State.setCall, State.setPod, hne] using hup)
  · obtain rfl | hne := eq_or_ne q c
    · simp [State.setCall, State.setPod, hcustody, Call.opens]
    · simpa [State.setCall, State.setPod, hne] using hs.opener q
  · have hold := hs.closer q d
    obtain rfl | hne := eq_or_ne d c
    · rw [hc] at hold
      simpa [State.setCall, State.setPod, Call.held] using hold
    · simpa [State.setCall, State.setPod, hne] using hold
  · have hold := hs.entered q hq
    have hne : q ≠ c := by
      rintro rfl
      cases hold.1.symm.trans hc
    simpa [State.setCall, State.setPod, hne] using hold
  · have hne : d ≠ c := by
      rintro rfl
      simp [State.setCall] at hd
    simpa [State.setCall, State.setPod, hne] using hs.idle d (by simpa [State.setCall, State.setPod, hne] using hd)
  · have hne : d ≠ c := by
      rintro rfl
      simp [State.setCall] at hd
    simpa [State.setCall, State.setPod, hne] using
      hs.opening d site' (by simpa [State.setCall, State.setPod, hne] using hd)
  · obtain rfl | hne := eq_or_ne d c
    · obtain rfl : site = site' := by simpa [State.setCall] using hd
      exact .inl (by simp [State.setCall, State.setPod])
    · simpa [State.setCall, State.setPod, hne] using
        hs.creating d site' (by simpa [State.setCall, State.setPod, hne] using hd)
  · have hne : d ≠ c := by
      rintro rfl
      simp [State.setCall, Call.started] at hd
    simpa [State.setCall, State.setPod, hne] using
      hs.started d site' (by simpa [State.setCall, State.setPod, hne] using hd)

/-- The request to create a pod is served. -/
theorem Inv.serve {site : Site} {x : Pod} (hs : Inv s) (hp : s.pod c = .requested site)
    (hx : x = .refused ∨ x = .up site) : Inv (s.setPod c x) := by
  refine ⟨hs.table, hs.ids, fun e he site' hup => ?_, hs.opener, hs.closer, hs.left, fun q hq => ?_, fun d hd => ?_,
    fun d site' hd => ?_, fun d site' hd => ?_, fun d site' hd => ?_⟩
  · have hne : e.2.podName ≠ c := by
      rintro rfl
      have htable : s.custody e.2.podName = .table := (hs.table _).mpr ⟨e, he, rfl⟩
      exact (hs.entered _ (by rw [htable]; rfl)).2 site hp
    exact hs.sites e he site' (by simpa [State.setPod, hne] using hup)
  · have hold := hs.entered q hq
    have hne : q ≠ c := by
      rintro rfl
      exact hold.2 site hp
    simpa [State.setPod, hne] using hold
  · have hold := hs.idle d hd
    have hne : d ≠ c := by
      rintro rfl
      cases hp.symm.trans hold.1
    simpa [State.setPod, hne] using hold
  · have hold := hs.opening d site' hd
    have hne : d ≠ c := by
      rintro rfl
      cases hp.symm.trans hold
    simpa [State.setPod, hne] using hold
  · have hold := hs.creating d site' hd
    obtain rfl | hne := eq_or_ne d c
    · rw [hp] at hold
      obtain rfl : site = site' := by simpa using hold
      simp only [State.setPod, Function.update_self]
      exact .inr hx
    · simpa [State.setPod, hne] using hold
  · have hold := hs.started d site' hd
    have hne : d ≠ c := by
      rintro rfl
      cases hp.symm.trans hold
    simpa [State.setPod, hne] using hold

/-- The chat drains the table. -/
theorem Inv.drain (hs : Inv s) (hchat : s.chat = .active) : Inv { s with
    table := []
    chat := .closing (s.table.map Prod.snd)
    custody := fun p => if s.custody p = .table then .chatClose else s.custody p } := by
  have hleft (q : ℕ) : s.custody q ≠ .chatClose := by
    intro hq
    have hold := (hs.left q).mp hq
    simp [hchat, Chat.left] at hold
  refine ⟨fun q => ?_, nofun, nofun, fun q => ?_, fun q d => ?_, fun q => ?_, fun q hq => ?_, fun d hd => ?_, hs.opening,
    hs.creating, hs.started⟩
  · simp only [List.not_mem_nil, false_and, exists_false, iff_false]
    split_ifs with h
    · nofun
    · exact h
  · rw [← hs.opener q]
    dsimp only
    split_ifs with h
    · simp [h]
    · rfl
  · rw [← hs.closer q d]
    dsimp only
    split_ifs with h
    · simp [h]
    · rfl
  · have hold := hs.table q
    simp only [Chat.left, List.mem_map, Prod.exists, exists_eq_right]
    split_ifs with h
    · obtain ⟨e, he, heq⟩ := hold.mp h
      exact iff_of_true rfl ⟨e.2, ⟨e.1, he⟩, heq⟩
    · exact iff_of_false (hleft q) fun ⟨sess, ⟨id, he⟩, heq⟩ => h (hold.mpr ⟨(id, sess), he, heq⟩)
  · refine hs.entered q ?_
    simp only at hq
    split_ifs at hq with h
    · rw [h]
      rfl
    · exact hq
  · obtain ⟨hpod, hcustody⟩ := hs.idle d hd
    exact ⟨hpod, by simp [hcustody]⟩

/-- The closing chat is done with a session. -/
theorem Inv.reap {left : List Session} (hs : Inv s) (hchat : s.chat = .closing left) (hp : s.custody p = .chatClose) :
    Inv ({ s with chat := .closing (left.filter fun sess => sess.podName ≠ p) }.give p .nobody) := by
  have hcustody (k : Custody) (hk : .chatClose ≠ k) (hnobody : .nobody ≠ k) (q : ℕ) :
      (s.give p .nobody).custody q = k ↔ s.custody q = k :=
    custody_give (fun h => hk (hp.symm.trans h)) hnobody q
  refine ⟨fun q => (hcustody .table nofun nofun q).trans (hs.table q), hs.ids, hs.sites,
    fun q => (hcustody .opener nofun nofun q).trans (hs.opener q), fun q d => (hcustody (.closer d) nofun nofun q).trans (hs.closer q d),
    fun q => ?_, fun q hq => ?_, fun d hd => ?_, hs.opening, hs.creating, hs.started⟩
  · have hold := hs.left q
    rw [hchat] at hold
    obtain rfl | hne := eq_or_ne q p
    · simp [State.give, Chat.left]
    · simp only [State.give, Function.update_of_ne hne, hold, Chat.left, List.mem_filter, decide_eq_true_eq]
      exact exists_congr fun sess => ⟨fun h => ⟨⟨h.1, h.2.trans_ne hne⟩, h.2⟩, fun h => ⟨h.1.1, h.2⟩⟩
  · have hne : q ≠ p := by
      rintro rfl
      simp [State.give, Custody.entered] at hq
    exact hs.entered q (by simpa [State.give, hne] using hq)
  · have hold := hs.idle d hd
    have hne : d ≠ p := by
      rintro rfl
      cases hp.symm.trans hold.2
    simpa [State.give, hne] using hold

end Invariant

/-- The steps as a relation, one rule for each kind of change. -/
inductive Step (s : State) : Action → State → Prop where
  | switchContext (id : String) : Step s (.switchContext id) { s with active := id }
  | opened {c ns site} (hc : s.call c = .idle) :
      Step s (.opened c ns) ((s.setCall c (.opening site)).give c .opener)
  | requested {c site} (hc : s.call c = .opening site) :
      Step s (.client c true) ((s.setPod c (.requested site)).setCall c (.creating site))
  | serve {c ok site} (hp : s.pod c = .requested site) :
      Step s (.serve c ok) (s.setPod c (if ok then .up site else .refused))
  | move {a c x} (hkept : ∀ b, Kept b s a) (hopens : x.opens = (s.call c).opens) (hheld : x.held = (s.call c).held)
      (hc : s.call c ≠ .ended) (hidle : x ≠ .idle) (hopening : ∀ site, x ≠ .opening site)
      (hcreating : ∀ site, x ≠ .creating site) (hstarted : ∀ site, x.started = some site → s.pod c = .up site) :
      Step s a (s.setCall c x)
  | endOpen {a c} (hc : (s.call c).opens = true) (hkept : ∀ b, Kept b s a ↔ (s.pod c).isUp = false) :
      Step s a ((s.setCall c .ended).give c .nobody)
  | deleteStuck {c ok site} (hc : s.call c = .abandoning site) :
      Step s (.deleteStuck c ok) (((s.delete c ok).setCall c .ended).give c .nobody)
  | insert {c site} (hc : s.call c = .inserting site) :
      Step s (.insert c) (((s.insert c ⟨c, site⟩).setCall c .ended).give c .table)
  | close {c id sess} (hc : s.call c = .idle) (hget : s.get id = some sess) :
      Step s (.close c id) (((s.remove id).setCall c (.closing sess)).give sess.podName (.closer c))
  | endHeld {a c sess} (hc : (s.call c).held = some sess) (hkept : ∀ b, Kept b s a ↔ (s.pod sess.podName).isUp = false) :
      Step s a ((s.setCall c .ended).give sess.podName .nobody)
  | deletePod {c ok sess} (hc : s.call c = .deleting sess) :
      Step s (.deletePod c ok) (((s.delete sess.podName ok).setCall c .ended).give sess.podName .nobody)
  | drain (hchat : s.chat = .active) : Step s .onChatClose { s with
      table := []
      chat := .closing (s.table.map Prod.snd)
      custody := fun p => if s.custody p = .table then .chatClose else s.custody p }
  | reap {p how left} (hchat : s.chat = .closing left) (hp : ∃ sess ∈ left, sess.podName = p) :
      Step s (.reap p how) ({ (match how with
        | .unreachable => s
        | .deleted => s.delete p true
        | .failed => s.delete p false) with
        chat := .closing (left.filter fun sess => sess.podName ≠ p) }.give p .nobody)
  | chatClosed (hchat : s.chat = .closing []) : Step s .chatClosed { s with chat := .closed }

theorem step_inv {s t : State} {a : Action} (hs : Inv s) (h : step s a = some t) : Step s a t := by
  have hmove {a : Action} {c : ℕ} {x : Call} (hkept : ∀ b, Kept b s a) (hold : (s.call c).opens = false)
      (hold' : (s.call c).held = none) (hc : s.call c ≠ .ended) (hx : x = .ended ∨ ∃ sess, x = .execing sess) :
      Step s a (s.setCall c x) := by
    obtain rfl | ⟨sess, rfl⟩ := hx <;>
      exact .move hkept hold.symm hold'.symm hc nofun (fun _ => nofun) (fun _ => nofun) fun _ => nofun
  cases a with
  | switchContext id =>
    cases h
    exact .switchContext id
  | opened c ns =>
    simp only [step] at h
    split at h
    next hc =>
      cases h
      exact .opened hc
    next => cases h
  | client c ok =>
    simp only [step] at h
    split at h
    next site hc =>
      split_ifs at h with hok
      · cases h
        subst hok
        exact .requested hc
      · cases h
        refine .endOpen (by rw [hc]; rfl) fun b => iff_of_true trivial ?_
        rw [hs.opening c site hc]
        rfl
    next => cases h
  | serve c ok =>
    simp only [step] at h
    split at h
    next site hp =>
      cases h
      exact .serve hp
    next => cases h
  | reply c ok =>
    simp only [step] at h
    split at h
    next site hc =>
      split_ifs at h with hok hup
      · cases h
        subst hok
        refine .move (fun _ => trivial) (by rw [hc]; rfl) (by rw [hc]; rfl) (by rw [hc]; nofun) nofun (fun _ => nofun)
          (fun _ => nofun) fun site' hsite => ?_
        cases hsite
        obtain hreq | href | hpod := hs.creating c site hc
        · simp [hreq, Pod.isUp] at hup
        · simp [href, Pod.isUp] at hup
        · exact hpod
      · cases h
        obtain rfl : ok = false := by simpa using hok
        exact .endOpen (by rw [hc]; rfl) fun b => by simp [Kept, inHand, hc, Call.opens]
    next => cases h
  | running c ok =>
    simp only [step] at h
    split at h
    next site hc =>
      cases h
      have hpod : s.pod c = .up site := hs.started c site (by rw [hc]; rfl)
      cases ok with
      | true =>
        refine .move (fun _ => trivial) (by rw [hc]; rfl) (by rw [hc]; rfl) (by rw [hc]; nofun) nofun (fun _ => nofun)
          (fun _ => nofun) fun site' hsite => ?_
        cases hsite
        exact hpod
      | false =>
        refine .move (fun _ => trivial) (by rw [hc]; rfl) (by rw [hc]; rfl) (by rw [hc]; nofun) nofun (fun _ => nofun)
          (fun _ => nofun) fun site' hsite => ?_
        cases hsite
        exact hpod
    next => cases h
  | deleteStuck c ok =>
    simp only [step] at h
    split at h
    next site hc =>
      cases h
      exact .deleteStuck hc
    next => cases h
  | insert c =>
    simp only [step] at h
    split at h
    next site hc =>
      cases h
      exact .insert hc
    next => cases h
  | exec c id =>
    simp only [step] at h
    split at h
    next hc =>
      cases h
      refine hmove (fun _ => trivial) (by rw [hc]; rfl) (by rw [hc]; rfl) (by rw [hc]; nofun) ?_
      cases s.get id with
      | none => exact .inl rfl
      | some sess => exact .inr ⟨sess, rfl⟩
    next => cases h
  | execDone c =>
    simp only [step] at h
    split at h
    next sess hc =>
      cases h
      exact hmove (fun _ => trivial) (by rw [hc]; rfl) (by rw [hc]; rfl) (by rw [hc]; nofun) (.inl rfl)
    next => cases h
  | close c id =>
    simp only [step] at h
    split at h
    next hc =>
      split at h
      next sess hget =>
        cases h
        exact .close hc hget
      next hget =>
        cases h
        exact hmove (fun _ => by simp [Kept, hget]) (by rw [hc]; rfl) (by rw [hc]; rfl) (by rw [hc]; nofun) (.inl rfl)
    next => cases h
  | closeClient c ok =>
    simp only [step] at h
    split at h
    next sess hc =>
      split_ifs at h with hok
      · cases h
        subst hok
        exact .move (fun _ => trivial) (by rw [hc]; rfl) (by rw [hc]; rfl) (by rw [hc]; nofun) nofun (fun _ => nofun)
          (fun _ => nofun) fun _ => nofun
      · cases h
        obtain rfl : ok = false := by simpa using hok
        exact .endHeld (by rw [hc]; rfl) fun b => by simp [Kept, inHand, hc, Call.opens, Call.held]
    next => cases h
  | deletePod c ok =>
    simp only [step] at h
    split at h
    next sess hc =>
      cases h
      exact .deletePod hc
    next => cases h
  | drop c =>
    simp only [step] at h
    split at h
    next => cases h
    next => cases h
    next sess hc =>
      cases h
      exact hmove (fun _ => by simp [Kept, inHand, hc, Call.opens, Call.held]) (by rw [hc]; rfl) (by rw [hc]; rfl)
        (by rw [hc]; nofun) (.inl rfl)
    next sess hc =>
      cases h
      exact .endHeld (by rw [hc]; rfl) fun b => by simp [Kept, inHand, hc, Call.opens, Call.held]
    next sess hc =>
      cases h
      exact .endHeld (by rw [hc]; rfl) fun b => by simp [Kept, inHand, hc, Call.opens, Call.held]
    next hidle hended hexec hclosing hdeleting =>
      cases h
      have hopens : (s.call c).opens = true := by
        cases hc : s.call c <;> simp_all [Call.opens]
      exact .endOpen hopens fun b => by simp [Kept, inHand, hopens]
  | onChatClose =>
    simp only [step] at h
    split at h
    next hchat =>
      cases h
      exact .drain hchat
    next => cases h
  | reap p how =>
    simp only [step] at h
    split at h
    next left hchat =>
      split_ifs at h with hp
      cases h
      exact .reap hchat (List.mem_map.mp hp)
    next => cases h
  | chatClosed =>
    simp only [step] at h
    split_ifs at h with hchat
    cases h
    exact .chatClosed hchat

theorem inv_step {s t : State} {a : Action} (hs : Inv s) (h : step s a = some t) : Inv t := by
  cases step_inv hs h with
  | switchContext =>
    exact ⟨hs.table, hs.ids, hs.sites, hs.opener, hs.closer, hs.left, hs.entered, hs.idle, hs.opening, hs.creating,
      hs.started⟩
  | opened hc => exact hs.opened hc
  | requested hc => exact hs.requested hc
  | @serve c ok site hp =>
    refine hs.serve hp ?_
    cases ok with
    | true => exact .inr rfl
    | false => exact .inl rfl
  | move _ hopens hheld hc hidle hopening hcreating hstarted =>
    exact hs.setCall hopens hheld hc hidle hopening (fun site hx => absurd hx (hcreating site)) hstarted
  | endOpen hc => exact hs.endOpen hc
  | @deleteStuck c ok site hc =>
    have hended := (hs.endOpen (c := c) (by rw [hc]; rfl)).delete (p := c) (by simp [State.give, State.setCall]) ok
    cases ok <;> exact hended
  | @insert c site hc =>
    have hended : Inv ((s.setCall c .ended).give c .nobody) := hs.endOpen (by rw [hc]; rfl)
    have henter := hended.enter (c := c) (by simp [State.give]) (by simp [State.give, State.setCall])
      (hs.started c site (by rw [hc]; rfl))
    simpa [State.give, State.setCall, State.insert] using henter
  | close hc hget => exact hs.close hc hget
  | endHeld hc => exact hs.endHeld hc
  | @deletePod c ok sess hc =>
    have hheld : (s.call c).held = some sess := by rw [hc]; rfl
    have hcustody := (hs.closer sess.podName c).mpr ⟨sess, hheld, rfl⟩
    have hended := (hs.entered sess.podName (by rw [hcustody]; rfl)).1
    have hne : sess.podName ≠ c := by
      intro heq
      rw [heq] at hended
      cases hended.symm.trans hc
    have hdel := (hs.endHeld hheld).delete (p := sess.podName) (by simp [State.give, State.setCall, hne, hended]) ok
    cases ok <;> exact hdel
  | drain hchat => exact hs.drain hchat
  | @reap p how left hchat hp =>
    have hcustody : s.custody p = .chatClose := (hs.left p).mpr (by rw [hchat]; exact hp)
    have hended := (hs.entered p (by rw [hcustody]; rfl)).1
    have hreap := hs.reap hchat hcustody
    cases how with
    | unreachable => exact hreap
    | deleted => exact hreap.delete (p := p) hended true
    | failed => exact hreap.delete (p := p) hended false
  | chatClosed hchat =>
    refine ⟨hs.table, hs.ids, hs.sites, hs.opener, hs.closer, fun q => ?_, hs.entered, hs.idle, hs.opening, hs.creating,
      hs.started⟩
    have hold := hs.left q
    simpa [hchat, Chat.left] using hold

section Accounts

variable {closing : Bool} {s t : State}

theorem Pod.isUp_iff {x : Pod} : x.isUp = true ↔ ∃ site, x = .up site := by
  cases x <;> simp [Pod.isUp]

/-- The pods are accounted for exactly when the custody of each one that is up counts. -/
theorem accounted_iff (hs : Inv s) :
    Accounted closing s ↔ ∀ p, (s.pod p).isUp = true → (s.custody p).accounts closing = true := by
  constructor
  · intro hacc p hup
    obtain ⟨site, hp⟩ := Pod.isUp_iff.mp hup
    obtain ⟨id, hin⟩ | hopens | ⟨rfl, ⟨c, hheld⟩ | hleft⟩ := hacc p site hp
    · rw [(hs.table p).mpr ⟨_, hin, rfl⟩]
      rfl
    · rw [(hs.opener p).mpr hopens]
      rfl
    · rw [(hs.closer p c).mpr hheld]
      rfl
    · rw [(hs.left p).mpr hleft]
      rfl
  · intro hall p site hp
    have hcounts := hall p (by rw [hp]; rfl)
    cases hcustody : s.custody p with
    | nobody => simp [hcustody, Custody.accounts] at hcounts
    | opener => exact .inr (.inl ((hs.opener p).mp hcustody))
    | table =>
      obtain ⟨⟨id, sess⟩, hin, rfl⟩ := (hs.table p).mp hcustody
      refine .inl ⟨id, ?_⟩
      have hsite := hs.sites _ hin site hp
      simp only at hsite
      rw [← hsite]
      exact hin
    | closer c =>
      rw [hcustody] at hcounts
      exact .inr (.inr ⟨hcounts, .inl ⟨c, (hs.closer p c).mp hcustody⟩⟩)
    | chatClose =>
      rw [hcustody] at hcounts
      exact .inr (.inr ⟨hcounts, .inr ((hs.left p).mp hcustody)⟩)

/-- After a change at one pod, only that one has to be accounted for. -/
theorem accounted_iff_at (hs : Inv s) (ht : Inv t) (hacc : Accounted closing s) (p : ℕ)
    (hother : ∀ q, q ≠ p → t.pod q = s.pod q ∧ t.custody q = s.custody q) :
    Accounted closing t ↔ ((t.pod p).isUp = true → (t.custody p).accounts closing = true) := by
  rw [accounted_iff ht]
  refine ⟨fun hall => hall p, fun hp q hup => ?_⟩
  obtain rfl | hne := eq_or_ne q p
  · exact hp hup
  · obtain ⟨hpod, hcustody⟩ := hother q hne
    rw [hpod] at hup
    rw [hcustody]
    exact (accounted_iff hs).mp hacc q hup

/-- A pod that is given up has to be down. -/
theorem accounted_iff_givenUp (hs : Inv s) (ht : Inv t) (hacc : Accounted closing s) {p : ℕ}
    (hother : ∀ q, q ≠ p → t.pod q = s.pod q ∧ t.custody q = s.custody q) (hp : t.custody p = .nobody) :
    Accounted closing t ↔ (t.pod p).isUp = false := by
  rw [accounted_iff_at hs ht hacc p hother, hp]
  simp [Custody.accounts]

theorem accounted_of_same (hs : Inv s) (ht : Inv t) (hacc : Accounted closing s) (hpod : t.pod = s.pod)
    (hcustody : t.custody = s.custody) : Accounted closing t := by
  rw [accounted_iff ht, hpod, hcustody]
  exact (accounted_iff hs).mp hacc

theorem custody_delete {p : ℕ} {ok : Bool} : (s.delete p ok).custody = s.custody := by
  cases ok <;> rfl

theorem pod_delete_of_ne {p q : ℕ} {ok : Bool} (hne : q ≠ p) : (s.delete p ok).pod q = s.pod q := by
  cases ok with
  | true => exact Function.update_of_ne hne ..
  | false => rfl

theorem isUp_delete {p : ℕ} {ok : Bool} (hup : (s.pod p).isUp = true) :
    ((s.delete p ok).pod p).isUp = false ↔ ok = true := by
  cases ok with
  | true => simp [State.delete, State.setPod, Pod.isUp]
  | false => simp [State.delete, hup]

/-- A step keeps the pods accounted for exactly under the condition on it. -/
theorem accounted_step_iff {a : Action} (hs : Inv s) (hacc : Accounted closing s) (h : step s a = some t) :
    Accounted closing t ↔ Kept closing s a := by
  have ht : Inv t := inv_step hs h
  cases step_inv hs h with
  | switchContext => exact iff_of_true (accounted_of_same hs ht hacc rfl rfl) trivial
  | @opened c ns site hc =>
    refine iff_of_true ((accounted_iff_at hs ht hacc c fun q hq => ?_).mpr fun _ => ?_) trivial
    · simp [State.give, State.setCall, hq]
    · simp [State.give, Custody.accounts]
  | @requested c site hc =>
    refine iff_of_true ((accounted_iff_at hs ht hacc c fun q hq => ?_).mpr fun hup => ?_) trivial
    · simp [State.setPod, State.setCall, hq]
    · simp [State.setPod, State.setCall, Pod.isUp] at hup
  | @serve c ok site hp =>
    have hiff := accounted_iff_at (t := s.setPod c (if ok then .up site else .refused)) hs ht hacc c fun q hq => by
      simp [State.setPod, hq]
    cases ok with
    | false =>
      refine iff_of_true (hiff.mpr fun hup => ?_) trivial
      simp [State.setPod, Pod.isUp] at hup
    | true =>
      rw [hiff]
      simp only [Kept, ← hs.opener c]
      have hentered : (s.custody c).entered = true → False := fun hin => (hs.entered c hin).2 site hp
      constructor
      · intro hcounts
        have hcount := hcounts (by simp [State.setPod, Pod.isUp])
        cases hcustody : s.custody c with
        | opener => rfl
        | nobody => simp [State.setPod, hcustody, Custody.accounts] at hcount
        | table | closer | chatClose => exact (hentered (by rw [hcustody]; rfl)).elim
      · intro hopener _
        simp [State.setPod, hopener, Custody.accounts]
  | move hkept => exact iff_of_true (accounted_of_same hs ht hacc rfl rfl) (hkept closing)
  | @endOpen a c hc hkept =>
    rw [hkept, accounted_iff_givenUp hs ht hacc (p := c) (fun q hq => by simp [State.give, State.setCall, hq])
      (by simp [State.give])]
    rfl
  | @deleteStuck c ok site hc =>
    have hup : (s.pod c).isUp = true := by rw [hs.started c site (by rw [hc]; rfl)]; rfl
    rw [accounted_iff_givenUp hs ht hacc (p := c)
      (fun q hq => ⟨pod_delete_of_ne hq, by simp [State.give, State.setCall, custody_delete, hq]⟩) (by simp [State.give])]
    refine (isUp_delete hup).trans ?_
    cases ok with
    | true => exact iff_of_true rfl trivial
    | false => simp [Kept, inHand, hc, Call.opens, hup]
  | @insert c site hc =>
    refine iff_of_true ((accounted_iff_at hs ht hacc c fun q hq => ?_).mpr fun _ => ?_) trivial
    · simp [State.give, State.setCall, State.insert, hq]
    · simp [State.give, Custody.accounts]
  | @close c id sess hc hget =>
    rw [accounted_iff_at hs ht hacc sess.podName fun q hq => by
      simp [State.give, State.setCall, State.remove, hq]]
    simp only [Kept, hget, Option.mem_some_iff, forall_eq', State.give, State.setCall, State.remove,
      Function.update_self, Custody.accounts]
    cases closing <;> simp
  | @endHeld a c sess hc hkept =>
    rw [hkept, accounted_iff_givenUp hs ht hacc (p := sess.podName)
      (fun q hq => by simp [State.give, State.setCall, hq]) (by simp [State.give])]
    rfl
  | @deletePod c ok sess hc =>
    rw [accounted_iff_givenUp hs ht hacc (p := sess.podName)
      (fun q hq => ⟨pod_delete_of_ne hq, by simp [State.give, State.setCall, custody_delete, hq]⟩) (by simp [State.give])]
    cases ok with
    | true => exact iff_of_true (by simp [State.give, State.setCall, State.delete, State.setPod, Pod.isUp]) trivial
    | false => simp [Kept, inHand, hc, Call.opens, Call.held, State.give, State.setCall, State.delete]
  | drain hchat =>
    rw [accounted_iff ht]
    have hold := (accounted_iff hs).mp hacc
    simp only [Kept]
    constructor
    · intro hall
      refine or_iff_not_imp_left.mpr fun hclosing e he => Bool.eq_false_iff.mpr fun hup => hclosing ?_
      have htable := (hs.table e.2.podName).mpr ⟨e, he, rfl⟩
      simpa [htable, Custody.accounts] using hall e.2.podName hup
    · rintro hkept p hup
      split_ifs with htable
      · obtain rfl | hdown := hkept
        · rfl
        · obtain ⟨e, he, rfl⟩ := (hs.table p).mp htable
          exact absurd hup (by simpa using hdown e he)
      · exact hold p hup
  | @reap p how left hchat hp =>
    cases how with
    | unreachable =>
      rw [accounted_iff_givenUp hs ht hacc (p := p) (fun q hq => by simp [State.give, hq]) (by simp [State.give])]
      rfl
    | deleted =>
      rw [accounted_iff_givenUp hs ht hacc (p := p)
        (fun q hq => by simp [State.give, State.delete, State.setPod, hq]) (by simp [State.give])]
      exact iff_of_true (by simp [State.give, State.delete, State.setPod, Pod.isUp]) trivial
    | failed =>
      rw [accounted_iff_givenUp hs ht hacc (p := p)
        (fun q hq => by simp [State.give, State.delete, hq]) (by simp [State.give])]
      rfl
  | chatClosed => exact iff_of_true (accounted_of_same hs ht hacc rfl rfl) trivial

/-- The table of a chat that is being closed stays empty. -/
def Drained (s : State) : Prop := s.chat ≠ .active → s.table = []

theorem drained_step {a : Action} (hs : Inv s) (htimely : Timely s a) (hd : Drained s) (h : step s a = some t) :
    Drained t := by
  cases step_inv hs h with
  | switchContext | opened | requested | serve | move | endOpen | endHeld => exact hd
  | @deleteStuck c ok => cases ok <;> exact hd
  | @deletePod c ok => cases ok <;> exact hd
  | insert =>
    intro hchat
    exact absurd htimely hchat
  | close =>
    intro hchat
    have hempty := hd hchat
    simp [State.give, State.setCall, State.remove, hempty]
  | drain =>
    intro _
    rfl
  | @reap p how left hchat =>
    intro _
    have hempty := hd (by rw [hchat]; nofun)
    cases how <;> exact hempty
  | chatClosed hchat =>
    intro _
    exact hd (by rw [hchat]; nofun)

/-- When the table is drained and every call has ended, an account is the end of the pod. -/
theorem released_of_accounted (hacc : Accounted closing s) (hd : Drained s) : Released s := by
  intro hchat hended _ p
  refine Bool.eq_false_iff.mpr fun hup => ?_
  obtain ⟨site, hp⟩ := Pod.isUp_iff.mp hup
  have hidle (c : ℕ) : (s.call c).opens = false ∧ (s.call c).held = none := by
    obtain hc | hc := hended c <;> rw [hc] <;> exact ⟨rfl, rfl⟩
  obtain ⟨id, hin⟩ | hopens | ⟨-, ⟨c, sess, hheld, -⟩ | ⟨sess, hleft, -⟩⟩ := hacc p site hp
  · rw [hd (by rw [hchat]; nofun)] at hin
    cases hin
  · rw [(hidle p).1] at hopens
    cases hopens
  · rw [(hidle c).2] at hheld
    cases hheld
  · rw [hchat] at hleft
    cases hleft

end Accounts

/-- Throughout a run every pod is accounted for exactly when every step keeps it so. If sessions are also
entered only before the chat is closed, nothing is left of a closed chat. -/
theorem accounted_throughout_iff (closing : Bool) {active : String} {as : List Action} {s : State}
    (h : run step (init active) as = some s) :
    ((∀ pre post t, as = pre ++ post → run step (init active) pre = some t → Accounted closing t) ↔
        Meets step (Kept closing) (init active) as) ∧
      (Meets step (Kept closing) (init active) as → Meets step Timely (init active) as → Released s) := by
  have hinit : Accounted closing (init active) := nofun
  have hiff := forall_prefix_iff_meets (fun _ _ _ => inv_step) (fun _ _ _ => accounted_step_iff) (inv_init active) hinit h
  refine ⟨hiff, fun hkept htimely => released_of_accounted (hiff.mpr hkept as [] s (List.append_nil as).symm h) ?_⟩
  have hboth : Inv s ∧ Drained s :=
    @run_invariant_meets _ _ step Timely (fun s => Inv s ∧ Drained s)
      (fun _ _ _ htimely hs h => ⟨inv_step hs.1 h, drained_step hs.1 htimely hs.2 h⟩) _ _ _ htimely
      ⟨inv_init active, fun hchat => absurd rfl hchat⟩ h
  exact hboth.2

instance decidableKept (closing : Bool) (s : State) : (a : Action) → Decidable (Kept closing s a)
  | .serve _ true => inferInstanceAs (Decidable (_ = _))
  | .reply c false | .deleteStuck c false | .closeClient c false | .deletePod c false | .drop c =>
    inferInstanceAs (Decidable (∀ p ∈ inHand s c, _))
  | .close _ id => inferInstanceAs (Decidable (_ ∨ ∀ sess ∈ s.get id, _))
  | .onChatClose => inferInstanceAs (Decidable (_ ∨ ∀ e ∈ s.table, _))
  | .reap _ .unreachable | .reap _ .failed => inferInstanceAs (Decidable (_ = _))
  | .serve _ false | .reply _ true | .deleteStuck _ true | .closeClient _ true | .deletePod _ true
  | .switchContext _ | .opened _ _ | .client _ _ | .running _ _ | .insert _ | .exec _ _ | .execDone _
  | .reap _ .deleted | .chatClosed => .isTrue trivial

instance decidableTimely (s : State) : (a : Action) → Decidable (Timely s a)
  | .insert _ => inferInstanceAs (Decidable (_ = _))
  | .switchContext _ | .opened _ _ | .client _ _ | .serve _ _ | .reply _ _ | .running _ _ | .deleteStuck _ _
  | .exec _ _ | .execDone _ | .close _ _ | .closeClient _ _ | .deletePod _ _ | .drop _ | .onChatClose | .reap _ _
  | .chatClosed => .isTrue trivial

/-- A shell is opened, the chat switches its cluster, and its end deletes the pod where it was created. -/
theorem accounted_throughout_iff_shell :
    ∃ s, run step (init "east") [.opened 0 none, .client 0 true, .serve 0 true, .reply 0 true, .running 0 true,
        .insert 0, .switchContext "west", .exec 1 0, .execDone 1, .onChatClose, .reap 0 .deleted, .chatClosed] = some s ∧
      Released s :=
  ⟨_, rfl, (@accounted_throughout_iff true "east" [.opened 0 none, .client 0 true, .serve 0 true, .reply 0 true,
    .running 0 true, .insert 0, .switchContext "west", .exec 1 0, .execDone 1, .onChatClose, .reap 0 .deleted,
    .chatClosed] _ rfl).2 (by decide) (by decide)⟩

/-- A call is dropped while it waits for its pod to run, and the pod is left behind. -/
theorem dropped_open_leaks :
    ∃ s, run step (init "east") [.opened 0 none, .client 0 true, .serve 0 true, .reply 0 true, .drop 0,
        .onChatClose, .chatClosed] = some s ∧
      s.deleteFailed = false ∧ s.chat = .closed ∧ s.pod 0 = .up ⟨"east", "default"⟩ ∧ ∀ closing, ¬ Accounted closing s := by
  refine ⟨_, rfl, rfl, rfl, rfl, fun closing hacc => ?_⟩
  obtain ⟨id, hin⟩ | hopens | ⟨-, ⟨c, sess, hheld, -⟩ | ⟨sess, hleft, -⟩⟩ := hacc 0 _ rfl
  · cases hin
  · cases hopens
  · cases c <;> cases hheld
  · cases hleft

end FerrisScope.NodeShellPods
