import FerrisScope.HelperServer

/-!
# What the privileged helper can be made to do

Whatever bytes arrive, on any number of connections: an alias is added or removed, a port bound or
an entry written only after a handshake with the token, and only for loopback addresses and
valid names. Before a handshake the one change that can happen is that the helper strips its own
block when it exits.
-/

namespace FerrisScope.HelperServer
open LabelledRuns LengthFrames LoopbackAddresses HostNames HelperProtocol HostsFile

/-- A handshake is among the events. -/
def Authenticated (events : List Event) : Prop := ∃ h, .authenticated h ∈ events

/-- What an event may be, given whether a handshake came before it. -/
def Allowed (token : String) (authenticated : Prop) : Event → Prop
  | .authenticated h => h.token = token ∧ h.version = protocolVersion
  | .aliased ip => authenticated ∧ isLoopbackV4 ip
  | .unaliased _ => authenticated
  | .bound ip _ => authenticated ∧ isLoopbackV4 ip
  | .applied entries before after => authenticated ∧ (∀ e ∈ entries, isLoopbackV4 e.ip) ∧ NamesValid entries ∧
      after = upsertBlock before entries
  | .stripped before after => after = stripBlock before

/-- The hosts file after the events. -/
def fileAfter (file : Text) (events : List Event) : Text :=
  events.foldl (fun file e =>
    match e with
    | .applied _ _ after => after
    | .stripped _ after => after
    | _ => file) file

/-- Every event is allowed where it stands. -/
def Trace (token : String) (events : List Event) : Prop :=
  ∀ pre e post, events = pre ++ e :: post → Allowed token (Authenticated pre) e

theorem Allowed.mono {token : String} {p q : Prop} (hpq : p → q) {e : Event} (h : Allowed token p e) :
    Allowed token q e := by
  cases e with
  | authenticated h' => exact h
  | aliased ip => exact ⟨hpq h.1, h.2⟩
  | unaliased ip => exact hpq h
  | bound ip port => exact ⟨hpq h.1, h.2⟩
  | applied entries before after => exact ⟨hpq h.1, h.2⟩
  | stripped before after => exact h

theorem Authenticated.append {events : List Event} (h : Authenticated events) (new : List Event) :
    Authenticated (events ++ new) := by
  obtain ⟨hs, hmem⟩ := h
  exact ⟨hs, List.mem_append_left new hmem⟩

theorem trace_snoc {token : String} {events : List Event} {e : Event} (ht : Trace token events)
    (he : Allowed token (Authenticated events) e) : Trace token (events ++ [e]) := by
  intro pre x post hsplit
  rcases List.eq_nil_or_concat post with rfl | ⟨post, last, rfl⟩
  · obtain ⟨rfl, hx⟩ := List.append_inj' hsplit rfl
    cases hx
    exact he
  · rw [List.concat_eq_append, ← List.cons_append, ← List.append_assoc] at hsplit
    obtain ⟨hevents, -⟩ := List.append_inj' hsplit rfl
    exact ht pre x post hevents

theorem trace_append {token : String} {events new : List Event} (ht : Trace token events)
    (hnew : ∀ e ∈ new, Allowed token (Authenticated events) e) : Trace token (events ++ new) := by
  induction new generalizing events with
  | nil => simpa using ht
  | cons e new ih =>
    obtain ⟨he, hnew⟩ := List.forall_mem_cons.mp hnew
    rw [List.append_cons]
    exact ih (trace_snoc ht he) fun x hx => (hnew x hx).mono fun ha => ha.append [e]

/-! ### What the operations add -/

/-- The events that `s'` has more than `s` are allowed and account for the hosts file. -/
structure Grows (s s' : State) : Prop where
  events : ∃ new, s'.events = s.events ++ new ∧
    (∀ e ∈ new, Allowed s.token (Authenticated s.events) e) ∧ fileAfter (content s) new = content s'
  aliases : s'.aliases ≠ [] → s.aliases ≠ [] ∨ Authenticated s.events
  token : s'.token = s.token

variable {s : State}

theorem Grows.refl (s : State) : Grows s s where
  events := ⟨[], by simp, by simp, rfl⟩
  aliases := .inl
  token := rfl

/-- Nothing new can be told from the handshake alone: the second part must not rest on a handshake
that the first one brought. -/
theorem Grows.trans {s₁ s₂ : State} (h₁ : Grows s s₁) (h₂ : Grows s₁ s₂)
    (hauth : Authenticated s₁.events → Authenticated s.events) : Grows s s₂ where
  events := by
    obtain ⟨new₁, he₁, ha₁, hf₁⟩ := h₁.events
    obtain ⟨new₂, he₂, ha₂, hf₂⟩ := h₂.events
    refine ⟨new₁ ++ new₂, by rw [he₂, he₁, List.append_assoc], ?_, ?_⟩
    · refine List.forall_mem_append.mpr ⟨ha₁, fun e he => ?_⟩
      exact h₁.token ▸ (ha₂ e he).mono hauth
    · rw [fileAfter, List.foldl_append]
      exact (congrArg (fileAfter · new₂) hf₁).trans hf₂
  aliases hne := by
    rcases h₂.aliases hne with hne₁ | ha
    · exact h₁.aliases hne₁
    · exact .inr (hauth ha)
  token := h₂.token.trans h₁.token

theorem Grows.authenticated {s' : State} (h : Grows s s') (ha : Authenticated s.events) :
    Authenticated s'.events := by
  obtain ⟨new, he, -, -⟩ := h.events
  rw [he]
  exact ha.append new

theorem grows_dropAlias (ha : Authenticated s.events) (ip : Ipv4Addr) : Grows s (dropAlias s ip) where
  events := ⟨[.unaliased ip], rfl, List.forall_mem_singleton.mpr ha, rfl⟩
  aliases _ := .inr ha
  token := rfl

theorem grows_dropAliases (ha : Authenticated s.events) (ips : List Ipv4Addr) :
    Grows s (ips.foldl dropAlias s) := by
  induction ips generalizing s with
  | nil => exact .refl s
  | cons ip ips ih =>
    have hone := grows_dropAlias ha ip
    exact hone.trans (ih (hone.authenticated ha)) fun _ => ha

theorem grows_addAlias (ha : Authenticated s.events) {ip : Ipv4Addr} (hip : isLoopbackV4 ip) :
    Grows s (addAlias s ip) where
  events := ⟨[.aliased ip], rfl, List.forall_mem_singleton.mpr ⟨ha, hip⟩, rfl⟩
  aliases _ := .inr ha
  token := rfl

theorem grows_writeStripped (s : State) : Grows s (writeStripped s) where
  events := ⟨[.stripped (content s) (stripBlock (content s))], rfl, List.forall_mem_singleton.mpr rfl, rfl⟩
  aliases := .inl
  token := rfl

theorem grows_strip (env : Env) (s : State) : Grows s (strip env s).2 := by
  unfold strip
  split
  · split
    · exact .refl s
    · exact grows_writeStripped s
  · exact .refl s

theorem grows_remove (env : Env) (s : State) : Grows s (remove env s).2 := by
  unfold remove
  split
  · exact .refl s
  · exact grows_strip env s

/-- Stripping brings no handshake. -/
theorem authenticated_strip {env : Env} (h : Authenticated (strip env s).2.events) : Authenticated s.events := by
  unfold strip at h
  split at h
  · split at h
    · exact h
    · obtain ⟨hs, hmem⟩ := h
      rcases List.mem_append.mp hmem with hold | hnew
      · exact ⟨hs, hold⟩
      · cases List.mem_singleton.mp hnew
  · exact h

/-- Aliases exist only after a handshake, so without one nothing is dropped. -/
theorem grows_teardown (env : Env) (ha : s.aliases ≠ [] → Authenticated s.events) : Grows s (teardown env s) := by
  unfold teardown
  by_cases hnone : s.aliases = []
  · rw [hnone]
    exact grows_remove env s
  · have hauth := ha hnone
    exact (grows_dropAliases hauth s.aliases).trans (grows_remove env _) fun _ => hauth

theorem rejection_eq_none {P : Parsing} {entries : List HostEntry} (h : rejection P entries = none) :
    (∀ e ∈ entries, isLoopbackV4 e.ip) ∧ NamesValid entries := by
  induction entries with
  | nil => exact ⟨List.forall_mem_nil _, List.forall_mem_nil _⟩
  | cons e entries ih =>
    rw [rejection] at h
    split at h
    · cases h
    · rename_i hip
      split at h
      · cases h
      · rename_i hnames
        obtain ⟨hips, hvalid⟩ := ih h
        refine ⟨List.forall_mem_cons.mpr ⟨by simpa using hip, hips⟩, List.forall_mem_cons.mpr ⟨?_, hvalid⟩⟩
        intro name hname
        simpa using List.find?_eq_none.mp hnames name hname

theorem grows_backupOnce {env : Env} {s' : State} (h : backupOnce env s = .ok s') :
    Grows s s' ∧ s'.hosts = s.hosts ∧ s'.aliases = s.aliases ∧ s'.events = s.events := by
  unfold backupOnce at h
  split at h
  · split at h
    · cases h
      exact ⟨⟨⟨[], (List.append_nil _).symm, List.forall_mem_nil _, rfl⟩, .inl, rfl⟩, rfl, rfl, rfl⟩
    · cases h
  · cases h
    exact ⟨.refl s, rfl, rfl, rfl⟩

theorem grows_writeApplied (ha : Authenticated s.events) {entries : List HostEntry}
    (hips : ∀ e ∈ entries, isLoopbackV4 e.ip) (hnames : NamesValid entries) :
    Grows s (writeApplied s entries) where
  events := ⟨[.applied entries (content s) (upsertBlock (content s) entries)], rfl,
    List.forall_mem_singleton.mpr ⟨ha, hips, hnames, rfl⟩, rfl⟩
  aliases := .inl
  token := rfl

theorem grows_apply (env : Env) (ha : Authenticated s.events) {entries : List HostEntry}
    (hips : ∀ e ∈ entries, isLoopbackV4 e.ip) (hnames : NamesValid entries) : Grows s (apply env s entries).2 := by
  unfold apply
  split
  · exact .refl s
  · rename_i s₁ hbackup
    have hgrows := (grows_backupOnce hbackup).1
    split
    · exact hgrows
    · exact hgrows
    · exact hgrows.trans (grows_writeApplied (hgrows.authenticated ha) hips hnames) fun _ => ha

/-- A call of `apply` that fails has written nothing to the hosts file. -/
theorem apply_failed {env : Env} {entries : List HostEntry} (h : (apply env s entries).1 ≠ none) :
    (apply env s entries).2.hosts = s.hosts ∧ (apply env s entries).2.aliases = s.aliases ∧
      (apply env s entries).2.events = s.events := by
  unfold apply at h ⊢
  split at h
  · exact ⟨rfl, rfl, rfl⟩
  · rename_i s₁ hbackup
    have hsame := (grows_backupOnce hbackup).2
    split at h
    · exact hsame
    · exact hsame
    · exact absurd rfl h

/-- Handling a `hostsApply` that is not answered `ok` changes nothing but, at most, the backup. -/
theorem handle_hostsApply_rejected {P : Parsing} {env : Env} {entries : List HostEntry}
    (h : (handle P env s (.hostsApply entries)).1 ≠ .ok) :
    (handle P env s (.hostsApply entries)).2.2.hosts = s.hosts ∧
      (handle P env s (.hostsApply entries)).2.2.aliases = s.aliases ∧
      (handle P env s (.hostsApply entries)).2.2.events = s.events := by
  simp only [handle] at h ⊢
  split at h
  · exact ⟨rfl, rfl, rfl⟩
  · refine apply_failed fun hnone => h ?_
    rw [hnone]
    rfl

theorem grows_purgeStale (env : Env) (s : State) :
    Grows s (purgeStale env s).2 ∧ (Authenticated (purgeStale env s).2.events → Authenticated s.events) := by
  unfold purgeStale
  split
  · exact ⟨.refl s, id⟩
  · have hstrip := grows_strip env s
    have hauth : Authenticated (strip env s).2.events → Authenticated s.events := authenticated_strip
    split
    · rename_i heq
      rw [heq] at hstrip hauth
      exact ⟨hstrip, hauth⟩
    · rename_i heq
      rw [heq] at hstrip hauth
      exact ⟨hstrip, hauth⟩

theorem grows_handle (P : Parsing) (env : Env) (ha : Authenticated s.events) (req : Request) :
    Grows s (handle P env s req).2.2 := by
  cases req with
  | ping => exact .refl s
  | addLoopback ip =>
    simp only [handle]
    split
    · exact .refl s
    · rename_i hip
      split
      · exact grows_addAlias ha (by simpa using hip)
      · exact .refl s
  | delLoopback ip => exact grows_dropAlias ha ip
  | bindListener ip port => exact .refl s
  | hostsApply entries =>
    simp only [handle]
    split
    · exact .refl s
    · rename_i hvalid
      obtain ⟨hips, hnames⟩ := rejection_eq_none hvalid
      exact grows_apply env ha hips hnames
  | hostsRemove => exact grows_remove env s
  | purgeStale =>
    have hpurge := grows_purgeStale env s
    simp only [handle]
    split
    · rename_i ips s' heq
      rw [heq] at hpurge
      exact hpurge.1.trans (grows_dropAliases (hpurge.1.authenticated ha) ips) fun _ => ha
    · rename_i e s' heq
      rw [heq] at hpurge
      exact hpurge.1
  | shutdown => exact grows_teardown env fun _ => ha

theorem grows_handleBindListener (env : Env) (ha : Authenticated s.events) (ip : Ipv4Addr) (port : UInt16) :
    Grows s (handleBindListener env s ip port) := by
  unfold handleBindListener
  split
  · rename_i hok
    exact ⟨⟨[.bound ip port], rfl, List.forall_mem_singleton.mpr ⟨ha, hok.2.1⟩, rfl⟩, .inl, rfl⟩
  · exact .refl s

/-! ### Runs -/

/-- The invariant of the helper started with the hosts file `file`. -/
structure Confined (token : String) (file : Text) (s : State) : Prop where
  sameToken : s.token = token
  trace : Trace token s.events
  accounted : fileAfter file s.events = content s
  serving : ∀ stream, s.session = .serving stream → Authenticated s.events
  aliases : s.aliases ≠ [] → Authenticated s.events

variable {token : String} {file : Text}

/-- A session that is over or not begun needs no handshake. -/
theorem Confined.grows {s' : State} (h : Confined token file s) (hg : Grows s s') (session : Session)
    (hserving : ∀ stream, session = .serving stream → Authenticated s.events) :
    Confined token file { s' with session := session } where
  sameToken := hg.token.trans h.sameToken
  trace := by
    obtain ⟨new, he, ha, -⟩ := hg.events
    dsimp only
    rw [he]
    exact trace_append h.trace fun e hmem => h.sameToken ▸ ha e hmem
  accounted := by
    obtain ⟨new, he, -, hf⟩ := hg.events
    dsimp only
    rw [he, fileAfter, List.foldl_append]
    exact (congrArg (fileAfter · new) h.accounted).trans hf
  serving stream hs := hg.authenticated (hserving stream hs)
  aliases hne := by
    rcases hg.aliases hne with hold | ha
    · exact hg.authenticated (h.aliases hold)
    · exact hg.authenticated ha

theorem confined_session (h : Confined token file s) {session : Session}
    (hserving : ∀ stream, session ≠ .serving stream) : Confined token file { s with session := session } :=
  h.grows (.refl s) session fun stream hs => absurd hs (hserving stream)

theorem confined_finish (last : Env) (h : Confined token file s) : Confined token file (finish last s) :=
  h.grows (grows_teardown last h.aliases) .exited fun stream hs => by cases hs

theorem confined_reject (last : Env) (h : Confined token file s) : Confined token file (reject last s) := by
  unfold reject
  split
  · exact confined_session h fun stream hs => by cases hs
  · exact confined_finish last h

theorem confined_authenticate (h : Confined token file s) {hs : Handshake} (hv : hs.version = protocolVersion)
    (ht : hs.token = s.token) (rest : List UInt8) : Confined token file (authenticate s hs rest) where
  sameToken := h.sameToken
  trace := trace_snoc h.trace ⟨ht.trans h.sameToken, hv⟩
  accounted := by
    simp only [authenticate, fileAfter, List.foldl_append]
    exact h.accounted
  serving _ _ := ⟨hs, List.mem_append_right _ (List.mem_singleton_self _)⟩
  aliases _ := ⟨hs, List.mem_append_right _ (List.mem_singleton_self _)⟩

theorem confined_greet (P : Parsing) (env last : Env) (stream : List UInt8) (h : Confined token file s) :
    Confined token file (greet P env last s stream) := by
  unfold greet
  split
  · split
    · exact confined_reject last h
    · rename_i hok
      push Not at hok
      split
      · exact confined_authenticate h hok.1 hok.2 _
      · exact confined_reject last h
  · exact confined_reject last h
  · exact confined_reject last h

theorem confined_serveRequest (P : Parsing) (env last : Env) (req : Request) (rest : List UInt8)
    (h : Confined token file s) (ha : Authenticated s.events) :
    Confined token file (serveRequest P env last s req rest) := by
  unfold serveRequest
  split
  · rename_i ip port
    exact h.grows (grows_handleBindListener env ha ip port) _ fun _ _ => ha
  · have hgrows := grows_handle P env ha req
    have hhandled : Confined token file (handle P env s req).2.2 :=
      h.grows hgrows (handle P env s req).2.2.session fun _ _ => ha
    dsimp only
    split
    · exact confined_finish last hhandled
    · exact h.grows hgrows _ fun _ _ => ha

theorem confined_step (P : Parsing) (s : State) (a : Action) (s' : State) (h : Confined token file s)
    (hstep : step P s a = some s') : Confined token file s' := by
  cases a with
  | accept stream =>
    simp only [step] at hstep
    split at hstep
    · cases hstep
      exact confined_session h fun stream hs => by cases hs
    · cases hstep
  | advance env last =>
    simp only [step] at hstep
    split at hstep
    · cases hstep
      exact confined_greet P env last _ h
    · rename_i stream hsession
      cases hstep
      have ha := h.serving stream hsession
      unfold serve
      split
      · exact confined_serveRequest P env last _ _ h ha
      · exact confined_finish last h
      · exact confined_finish last h
    · cases hstep
  | expire last =>
    simp only [step] at hstep
    split at hstep
    · split at hstep
      · cases hstep
        exact confined_finish last h
      · cases hstep
        exact confined_session h fun stream hs => by cases hs
    · cases hstep
  | acceptFails =>
    simp only [step] at hstep
    split at hstep
    · cases hstep
      exact confined_session h fun stream hs => by cases hs
    · cases hstep

theorem confined_start (platform : Platform) (token : String) (hosts backup : Option Text) :
    Confined token (hosts.getD []) (start platform token hosts backup) where
  sameToken := rfl
  trace pre e post h := by cases pre <;> cases h
  accounted := rfl
  serving stream h := by cases h
  aliases h := absurd rfl h

/-- Every system call succeeds. -/
def fine : Env := ⟨none, none, none, none, true, true⟩

/-- The text of one handshake and of one request. -/
def handshakeText : List UInt8 := ascii "\x7b\"token\":\"t\",\"version\":1\x7d"

def applyText : List UInt8 := ascii
  "\x7b\"op\":\"hosts_apply\",\"entries\":[\x7b\"ip\":\"127.1.0.1\",\"hostnames\":[\"api\"]\x7d]\x7d"

/-- JSON for these two texts. -/
def twoTexts : Parsing where
  handshake bytes := if bytes = handshakeText then some ⟨"t", 1⟩ else none
  request bytes := if bytes = applyText then some (.hostsApply [⟨⟨127, 1, 0, 1⟩, ["api"]⟩]) else none
  debugText name := name

def localhostFile : Text := "127.0.0.1\tlocalhost\n".toList

/-- A connection without a handshake, then one that sets an entry. -/
def strayThenApply : List Action :=
  [.accept applyText, .advance fine fine, .accept (frame handshakeText ++ frame applyText),
   .advance fine fine, .advance fine fine]

/-- What an earlier helper that crashed left behind. -/
def staleFile : Text := localhostFile ++ '\n' :: renderBlock [⟨⟨127, 1, 0, 1⟩, ["api"]⟩]

end FerrisScope.HelperServer
