import FerrisScope.AgentSettings
import FerrisScope.LabelledRuns

/-!
# Credentials of the providers

A credential is kept in the secret storage of the platform, or as plain text where there is none and the operator
allows it. An index on disk says which providers have one, so that the storage is asked for no other, and a
cache in memory answers every later read of the same process. The storage can fail at any time.
-/

namespace FerrisScope.CredentialStore
open AgentSettings LabelledRuns

inductive Credential where
  | apiKey (key : String)
  | oAuth (access refresh : String) (expiresAtUnixMs : Int64) (accountId : Option String)
  deriving DecidableEq

/-- The platform: whether it has secret storage, and the text form of a credential. -/
structure Platform where
  available : Bool
  encode : Credential → String
  decode : String → Option Credential
  decode_encode : ∀ c, decode (encode c) = some c

structure World where
  /-- What the secret storage holds. -/
  secrets : KindMap Credential
  persisted : PersistedSettings
  /-- Per provider: never looked up, nothing stored, or found. -/
  cache : ProviderKind → Option (Option Credential)

variable {P : Platform}

def cacheSet (w : World) (kind : ProviderKind) (value : Option Credential) : World :=
  { w with cache := Function.update w.cache kind (some value) }

/-- `fails` are the providers for which the storage gives an error that it need not give. -/
def getCredential (P : Platform) (w : World) (fails : ProviderKind → Bool) (kind : ProviderKind) : Option Credential :=
  if P.available && !fails kind then w.secrets kind else none

/-- The secret storage, or the plain text if the operator allows it. -/
def lookup (P : Platform) (w : World) (fails : ProviderKind → Bool) (kind : ProviderKind) : Option Credential :=
  match getCredential P w fails kind with
  | some c => some c
  | none =>
    if w.persisted.settings.allowPlaintextApiKey then (w.persisted.plaintextCredentials kind).bind P.decode else none

/-- One sweep over all providers, for installs that predate the index. -/
def backfillCredentialIndex (P : Platform) (w : World) (fails : ProviderKind → Bool) : World :=
  { w with
    persisted := { w.persisted with
      configuredProviders := fun kind => w.persisted.configuredProviders kind || (lookup P w fails kind).isSome
      keychainIndexInitialized := true }
    cache := fun kind => some (lookup P w fails kind) }

def readCredential (P : Platform) (w : World) (fails : ProviderKind → Bool) (kind : ProviderKind) :
    Option Credential × World :=
  match w.cache kind with
  | some slot => (slot, w)
  | none =>
    if !w.persisted.keychainIndexInitialized then
      (lookup P w fails kind, backfillCredentialIndex P w fails)
    else if !w.persisted.configuredProviders kind then (none, cacheSet w kind none)
    else (lookup P w fails kind, cacheSet w kind (lookup P w fails kind))

def noStorage : String := "no secret storage backend available and plaintext storage is not enabled"

/-- `fails` is the error of the storage, if it has one. -/
def writeCredential (P : Platform) (w : World) (kind : ProviderKind) (cred : Credential) (fails : Option String) :
    Except String World :=
  let configured := Function.update w.persisted.configuredProviders kind true
  if P.available then
    match fails with
    | some e => .error e
    | none =>
      let p := { w.persisted with
        plaintextCredentials := Function.update w.persisted.plaintextCredentials kind none
        configuredProviders := configured
        keychainIndexInitialized := true }
      .ok (cacheSet { w with secrets := Function.update w.secrets kind (some cred), persisted := p } kind (some cred))
  else if !w.persisted.settings.allowPlaintextApiKey then .error noStorage
  else
    let p := { w.persisted with
      plaintextCredentials := Function.update w.persisted.plaintextCredentials kind (some (P.encode cred))
      configuredProviders := configured
      keychainIndexInitialized := true }
    .ok (cacheSet { w with persisted := p } kind (some cred))

/-- An error of the storage is ignored. -/
def clearCredential (P : Platform) (w : World) (kind : ProviderKind) (fails : Bool) : World :=
  let secrets := if P.available && !fails then Function.update w.secrets kind none else w.secrets
  let p := { w.persisted with
    plaintextCredentials := Function.update w.persisted.plaintextCredentials kind none
    configuredProviders := Function.update w.persisted.configuredProviders kind false }
  cacheSet { w with secrets := secrets, persisted := p } kind none

def publicFallbackKey : ProviderKind → Option String
  | .opencodeZen => some "public"
  | _ => none

def displayName : ProviderKind → String
  | .openAI => "OpenAI"
  | .anthropic => "Anthropic"
  | .google => "Google Gemini"
  | .openRouter => "OpenRouter"
  | .zai => "Z.AI"
  | .minimax => "MiniMax"
  | .groq => "Groq"
  | .deepseek => "DeepSeek"
  | .moonshot => "Moonshot (Kimi)"
  | .kimiCoding => "Kimi For Coding"
  | .mistral => "Mistral"
  | .together => "Together"
  | .opencodeZen => "OpenCode Zen"
  | .opencodeGo => "OpenCode Go"
  | .ollama => "Ollama"
  | .customOpenAi => "Custom (OpenAI-compatible)"
  | .customAnthropic => "Custom (Anthropic-compatible)"

def ensureEnabled (kind : ProviderKind) (settings : AgentSettings) : Except String Unit :=
  if settings.isProviderEnabled kind then .ok ()
  else .error (displayName kind ++ " is disabled — enable it in Settings → AI")

def effectiveCredential (P : Platform) (w : World) (fails : ProviderKind → Bool) (kind : ProviderKind) :
    Option Credential × World :=
  match readCredential P w fails kind with
  | (some c, w) => (some c, w)
  | (none, w) => ((publicFallbackKey kind).map .apiKey, w)

/-- What a chat uses. -/
def resolveCredential (P : Platform) (w : World) (fails : ProviderKind → Bool) (kind : ProviderKind) :
    Except String Credential × World :=
  match ensureEnabled kind w.persisted.settings with
  | .error e => (.error e, w)
  | .ok () =>
    match effectiveCredential P w fails kind with
    | (some c, w) => (.ok c, w)
    | (none, w) =>
      (.error ("no credential configured for " ++ displayName kind ++ " — open Settings → AI to connect it"), w)

/-! ## Runs -/

inductive Action where
  | read (kind : ProviderKind) (fails : ProviderKind → Bool)
  | resolve (kind : ProviderKind) (fails : ProviderKind → Bool)
  | write (kind : ProviderKind) (cred : Credential) (fails : Option String)
  | clear (kind : ProviderKind) (fails : Bool)
  | editSettings (f : AgentSettings → AgentSettings)
  /-- The process ends and another one starts. -/
  | restart

def perform (P : Platform) (w : World) : Action → World
  | .read kind fails => (readCredential P w fails kind).2
  | .resolve kind fails => (resolveCredential P w fails kind).2
  | .write kind cred fails =>
    match writeCredential P w kind cred fails with
    | .ok w => w
    | .error _ => w
  | .clear kind fails => clearCredential P w kind fails
  | .editSettings f => { w with persisted := { w.persisted with settings := f w.persisted.settings } }
  | .restart => { w with cache := fun _ => none }

/-- What the operator has last stored: the credentials that were written with success and not cleared since. -/
def record (P : Platform) (w : World) (latest : KindMap Credential) : Action → KindMap Credential
  | .write kind cred fails =>
    match writeCredential P w kind cred fails with
    | .ok _ => Function.update latest kind (some cred)
    | .error _ => latest
  | .clear kind _ => Function.update latest kind none
  | _ => latest

structure Recorded where
  world : World
  latest : KindMap Credential

def step (P : Platform) (r : Recorded) (a : Action) : Option Recorded :=
  some ⟨perform P r.world a, record P r.world r.latest a⟩

/-- What is stored and indexed is what was recorded. Secrets that could not be deleted are in no index. -/
structure Settled (P : Platform) (r : Recorded) : Prop where
  cached : ∀ k c, r.world.cache k = some (some c) → r.latest k = some c
  unindexed : r.world.persisted.keychainIndexInitialized = false → ∀ k, r.latest k = none ∧ r.world.secrets k = none
  configured : ∀ k, r.world.persisted.configuredProviders k = (r.latest k).isSome
  plaintext : ∀ k, r.world.persisted.plaintextCredentials k = if P.available then none else (r.latest k).map P.encode
  secrets : P.available = true → ∀ k c, r.latest k = some c → r.world.secrets k = some c

/-- Nothing that is stored has been looked up without being found. -/
def FoundAll (r : Recorded) : Prop := ∀ k, r.world.cache k = some none → r.latest k = none

/-- The storage answers, or the operator allows plain text. -/
def Answers (P : Platform) (w : World) (fails : ProviderKind → Bool) : Prop :=
  if P.available then ∀ k, fails k = false else w.persisted.settings.allowPlaintextApiKey = true

/-- Every lookup of the action is answered. -/
def Reliable (P : Platform) (r : Recorded) : Action → Prop
  | .read _ fails => Answers P r.world fails
  | .resolve _ fails => Answers P r.world fails
  | _ => True

variable {r : Recorded} {k kind : ProviderKind} {fails : ProviderKind → Bool}

/-- Where a lookup is made, it finds what is recorded or nothing. -/
theorem lookup_sound (fails : ProviderKind → Bool) (h : Settled P r)
    (hk : (r.latest k).isSome = true ∨ r.world.persisted.keychainIndexInitialized = false) :
    lookup P r.world fails k = none ∨ lookup P r.world fails k = r.latest k := by
  have hplain := h.plaintext k
  unfold lookup getCredential
  cases hP : P.available with
  | true =>
    rw [hP, if_pos rfl] at hplain
    by_cases hf : fails k = true
    · simp [hf, hplain]
    · cases hs : r.world.secrets k with
      | none => simp [hf, hplain]
      | some c =>
        rcases hk with hsome | hno
        · obtain ⟨c', hc'⟩ := Option.isSome_iff_exists.mp hsome
          have hsame := h.secrets hP k c' hc'
          rw [hs] at hsame
          right
          simp [hf, hc', Option.some.inj hsame]
        · rw [(h.unindexed hno k).2] at hs
          cases hs
  | false =>
    rw [hP, if_neg (by simp)] at hplain
    by_cases hallow : r.world.persisted.settings.allowPlaintextApiKey = true
    · right
      cases hl : r.latest k with
      | none => simp [hallow, hplain, hl]
      | some c => simp [hallow, hplain, hl, P.decode_encode]
    · left
      simp [hallow]

theorem lookup_complete (h : Settled P r) (ha : Answers P r.world fails)
    (hk : (r.latest k).isSome = true ∨ r.world.persisted.keychainIndexInitialized = false) :
    lookup P r.world fails k = r.latest k := by
  rcases lookup_sound fails h hk with hnone | hsame
  · rw [hnone]
    unfold lookup getCredential Answers at *
    cases hl : r.latest k with
    | none => rfl
    | some c =>
      have hplain := h.plaintext k
      cases hP : P.available with
      | true =>
        rw [hP, if_pos rfl] at ha
        simp [hP, ha k, h.secrets hP k c hl] at hnone
      | false =>
        rw [hP, if_neg (by simp)] at ha hplain
        simp [hP, ha, hplain, hl, P.decode_encode] at hnone
  · exact hsame

/-- A read finds what is recorded or nothing, and what it finds first is cached. -/
theorem read_sound (h : Settled P r) (kind : ProviderKind) (fails : ProviderKind → Bool) :
    ((readCredential P r.world fails kind).1 = none ∨ (readCredential P r.world fails kind).1 = r.latest kind) ∧
      Settled P ⟨(readCredential P r.world fails kind).2, r.latest⟩ := by
  unfold readCredential
  cases hc : r.world.cache kind with
  | some slot =>
    refine ⟨?_, h⟩
    cases slot with
    | none => exact .inl rfl
    | some c => exact .inr (h.cached kind c hc).symm
  | none =>
    dsimp only
    split_ifs with hindexed hconf
    · -- The sweep of an install without an index: nothing is recorded yet.
      have hno : r.world.persisted.keychainIndexInitialized = false := by simpa using hindexed
      have hnone : ∀ k, lookup P r.world fails k = none := fun k => by
        rcases lookup_sound (k := k) fails h (.inr hno) with hn | hs
        · exact hn
        · rw [hs, (h.unindexed hno k).1]
      refine ⟨.inl (hnone kind), ?_, ?_, ?_, h.plaintext, h.secrets⟩
      · intro k c hcache
        have : some (lookup P r.world fails k) = some (some c) := hcache
        rw [hnone k] at this
        cases this
      · intro habs
        cases habs
      · intro k
        show (r.world.persisted.configuredProviders k || (lookup P r.world fails k).isSome) = _
        rw [hnone k, h.configured k, Option.isSome_none, Bool.or_false]
    · refine ⟨.inl rfl, ?_, h.unindexed, h.configured, h.plaintext, h.secrets⟩
      intro k c hcache
      simp only [cacheSet, Function.update_apply] at hcache
      split_ifs at hcache with hk
      · cases hcache
      · exact h.cached k c hcache
    · have hsome : (r.latest kind).isSome = true := by rw [← h.configured kind]; simpa using hconf
      have hsound := lookup_sound fails h (.inl hsome)
      refine ⟨hsound, ?_, h.unindexed, h.configured, h.plaintext, h.secrets⟩
      intro k c hcache
      simp only [cacheSet, Function.update_apply] at hcache
      split_ifs at hcache with hk
      · rcases hsound with hn | hs
        · rw [hn] at hcache
          cases hcache
        · rw [hs] at hcache
          rw [hk]
          exact Option.some.inj hcache
      · exact h.cached k c hcache

theorem read_complete (h : Settled P r) (hfound : FoundAll r) (ha : Answers P r.world fails) :
    (readCredential P r.world fails kind).1 = r.latest kind ∧
      FoundAll ⟨(readCredential P r.world fails kind).2, r.latest⟩ := by
  unfold readCredential
  cases hc : r.world.cache kind with
  | some slot =>
    refine ⟨?_, hfound⟩
    cases slot with
    | none => exact (hfound kind hc).symm
    | some c => exact (h.cached kind c hc).symm
  | none =>
    dsimp only
    split_ifs with hindexed hconf
    · have hno : r.world.persisted.keychainIndexInitialized = false := by simpa using hindexed
      exact ⟨lookup_complete h ha (.inr hno), fun k _ => (h.unindexed hno k).1⟩
    · have hnone : r.latest kind = none := by
        have := h.configured kind
        cases hl : r.latest kind with
        | none => rfl
        | some c =>
          rw [hl] at this
          simp [this] at hconf
      refine ⟨hnone.symm, fun k hcache => ?_⟩
      simp only [cacheSet, Function.update_apply] at hcache
      split_ifs at hcache with hk
      · rw [hk, hnone]
      · exact hfound k hcache
    · have hsome : (r.latest kind).isSome = true := by rw [← h.configured kind]; simpa using hconf
      have hsame := lookup_complete h ha (.inl hsome)
      refine ⟨hsame, fun k hcache => ?_⟩
      simp only [cacheSet, Function.update_apply] at hcache
      split_ifs at hcache with hk
      · rw [hsame] at hcache
        rw [hk]
        exact Option.some.inj hcache
      · exact hfound k hcache

theorem perform_resolve (P : Platform) (w : World) (kind : ProviderKind) (fails : ProviderKind → Bool) :
    (resolveCredential P w fails kind).2 = w ∨
      (resolveCredential P w fails kind).2 = (readCredential P w fails kind).2 := by
  unfold resolveCredential
  split
  · exact .inl rfl
  · right
    unfold effectiveCredential
    rcases readCredential P w fails kind with ⟨_ | c, w'⟩
    · dsimp only
      cases publicFallbackKey kind <;> rfl
    · rfl

/-- A credential that a chat gets is that of an enabled provider, and the recorded or the public one. -/
theorem resolve_sound (h : Settled P r) {c : Credential} (hr : (resolveCredential P r.world fails kind).1 = .ok c) :
    r.world.persisted.settings.isProviderEnabled kind = true ∧
      (r.latest kind = some c ∨ (publicFallbackKey kind).map .apiKey = some c) := by
  have hread := (read_sound h kind fails).1
  unfold resolveCredential ensureEnabled at hr
  split_ifs at hr with henabled
  · refine ⟨henabled, ?_⟩
    dsimp only at hr
    unfold effectiveCredential at hr
    rcases hsplit : readCredential P r.world fails kind with ⟨_ | c', w'⟩
    · rw [hsplit] at hr
      dsimp only at hr
      right
      cases hp : publicFallbackKey kind with
      | none =>
        rw [hp] at hr
        cases hr
      | some key =>
        rw [hp] at hr
        cases hr
        rfl
    · rw [hsplit] at hr hread
      cases hr
      left
      rcases hread with hn | hs
      · cases hn
      · exact hs.symm

theorem settled_write (h : Settled P r) (cred : Credential) (err : Option String) {w : World}
    (hw : writeCredential P r.world kind cred err = .ok w) :
    Settled P ⟨w, Function.update r.latest kind (some cred)⟩ ∧
      (FoundAll r → FoundAll ⟨w, Function.update r.latest kind (some cred)⟩) := by
  have hfields : w.cache = Function.update r.world.cache kind (some (some cred)) ∧
      w.persisted.keychainIndexInitialized = true ∧
      w.persisted.configuredProviders = Function.update r.world.persisted.configuredProviders kind true ∧
      w.persisted.plaintextCredentials = Function.update r.world.persisted.plaintextCredentials kind
        (if P.available then none else some (P.encode cred)) ∧
      (P.available = true → w.secrets = Function.update r.world.secrets kind (some cred)) := by
    unfold writeCredential at hw
    dsimp only at hw
    cases hP : P.available with
    | true =>
      rw [hP, if_pos rfl] at hw
      cases err with
      | some e => cases hw
      | none =>
        cases hw
        exact ⟨rfl, rfl, rfl, rfl, fun _ => rfl⟩
    | false =>
      rw [hP, if_neg (by simp)] at hw
      split_ifs at hw
      cases hw
      exact ⟨rfl, rfl, rfl, rfl, fun habs => by cases habs⟩
  obtain ⟨hcache, hinit, hconf, hplain, hsecrets⟩ := hfields
  refine ⟨⟨fun k c hc => ?_, fun habs => ?_, fun k => ?_, fun k => ?_, fun hP k c hc => ?_⟩, fun hfound k hc => ?_⟩
  · rw [hcache] at hc
    simp only [Function.update_apply] at hc ⊢
    split_ifs at hc ⊢ with hk
    · exact Option.some.inj hc
    · exact h.cached k c hc
  · rw [hinit] at habs
    cases habs
  · rw [hconf]
    simp only [Function.update_apply]
    split_ifs
    · rfl
    · exact h.configured k
  · rw [hplain]
    simp only [Function.update_apply]
    by_cases hk : k = kind
    · simp [hk]
    · simp only [hk, if_false]
      exact h.plaintext k
  · rw [hsecrets hP]
    simp only [Function.update_apply] at hc ⊢
    split_ifs at hc ⊢ with hk
    · exact hc
    · exact h.secrets hP k c hc
  · rw [hcache] at hc
    simp only [Function.update_apply] at hc ⊢
    split_ifs at hc ⊢ with hk
    · cases hc
    · exact hfound k hc

theorem settled_clear (h : Settled P r) (kind : ProviderKind) (failed : Bool) :
    Settled P ⟨clearCredential P r.world kind failed, Function.update r.latest kind none⟩ ∧
      (FoundAll r → FoundAll ⟨clearCredential P r.world kind failed, Function.update r.latest kind none⟩) := by
  refine ⟨⟨fun k c hc => ?_, fun hno k => ?_, fun k => ?_, fun k => ?_, fun hP k c hc => ?_⟩, fun hfound k hc => ?_⟩
  · simp only [clearCredential, cacheSet, Function.update_apply] at hc ⊢
    split_ifs at hc ⊢ with hk
    · cases hc
    · exact h.cached k c hc
  · obtain ⟨hl, hs⟩ := h.unindexed hno k
    refine ⟨?_, ?_⟩
    · simp only [Function.update_apply]
      split_ifs
      · rfl
      · exact hl
    · simp only [clearCredential, cacheSet]
      split_ifs
      · simp only [Function.update_apply]
        split_ifs
        · rfl
        · exact hs
      · exact hs
  · simp only [clearCredential, cacheSet, Function.update_apply]
    split_ifs
    · rfl
    · exact h.configured k
  · simp only [clearCredential, cacheSet, Function.update_apply]
    by_cases hk : k = kind
    · simp [hk]
    · simp only [hk, if_false]
      exact h.plaintext k
  · simp only [Function.update_apply] at hc
    split_ifs at hc with hk
    have hs := h.secrets hP k c hc
    simp only [clearCredential, cacheSet]
    split_ifs
    · simpa only [Function.update_apply, if_neg hk] using hs
    · exact hs
  · simp only [clearCredential, cacheSet, Function.update_apply] at hc ⊢
    split_ifs at hc ⊢ with hk
    · rfl
    · exact hfound k hc

theorem settled_perform (h : Settled P r) (a : Action) :
    Settled P ⟨perform P r.world a, record P r.world r.latest a⟩ := by
  cases a with
  | read kind fails => exact (read_sound h kind fails).2
  | resolve kind fails =>
    show Settled P ⟨(resolveCredential P r.world fails kind).2, r.latest⟩
    rcases perform_resolve P r.world kind fails with hsame | hread
    · rw [hsame]
      exact h
    · rw [hread]
      exact (read_sound h kind fails).2
  | write kind cred err =>
    simp only [perform, record]
    cases hw : writeCredential P r.world kind cred err with
    | ok w => exact (settled_write h cred err hw).1
    | error e => exact h
  | clear kind failed => exact (settled_clear h kind failed).1
  | editSettings f => exact ⟨h.cached, h.unindexed, h.configured, h.plaintext, h.secrets⟩
  | restart => exact ⟨fun k c hc => (by cases hc), h.unindexed, h.configured, h.plaintext, h.secrets⟩

theorem foundAll_perform (h : Settled P r) (hfound : FoundAll r) {a : Action} (hr : Reliable P r a) :
    FoundAll ⟨perform P r.world a, record P r.world r.latest a⟩ := by
  cases a with
  | read kind fails => exact (read_complete h hfound hr).2
  | resolve kind fails =>
    show FoundAll ⟨(resolveCredential P r.world fails kind).2, r.latest⟩
    rcases perform_resolve P r.world kind fails with hsame | hread
    · rw [hsame]
      exact hfound
    · rw [hread]
      exact (read_complete h hfound hr).2
  | write kind cred err =>
    simp only [perform, record]
    cases hw : writeCredential P r.world kind cred err with
    | ok w => exact (settled_write h cred err hw).2 hfound
    | error e => exact hfound
  | clear kind failed => exact (settled_clear h kind failed).2 hfound
  | editSettings f => exact hfound
  | restart => exact fun k hc => (by cases hc)

/-- A fresh install: no settings are stored, no secrets and no plain text. -/
def fresh : Recorded := ⟨⟨fun _ => none, .default, fun _ => none⟩, fun _ => none⟩

theorem settled_fresh (P : Platform) : Settled P fresh where
  cached k c hc := by cases hc
  unindexed _ k := ⟨rfl, rfl⟩
  configured k := rfl
  plaintext k := by
    show none = if P.available = true then none else none
    split <;> rfl
  secrets _ k c hc := by cases hc

/-! ## A platform -/

/-- The fields of a credential, each character marked and each field ended. -/
def fields : Credential → List (List Char)
  | .apiKey key => [key.toList]
  | .oAuth access refresh expires accountId =>
    [access.toList, refresh.toList, List.replicate expires.toBitVec.toNat 'n'] ++ (accountId.map String.toList).toList

def ofFields : List (List Char) → Option Credential
  | [key] => some (.apiKey (String.ofList key))
  | [access, refresh, expires] =>
    some (.oAuth (String.ofList access) (String.ofList refresh) (.ofBitVec (BitVec.ofNat 64 expires.length)) none)
  | [access, refresh, expires, accountId] =>
    some (.oAuth (String.ofList access) (String.ofList refresh) (.ofBitVec (BitVec.ofNat 64 expires.length))
      (some (String.ofList accountId)))
  | _ => none

def marked (field : List Char) : List Char := field.flatMap (fun c => ['c', c]) ++ ['e']

def unmark : List Char → List Char → List (List Char)
  | field, 'c' :: c :: cs => unmark (field ++ [c]) cs
  | field, 'e' :: cs => field :: unmark [] cs
  | _, _ => []

theorem unmark_marked (before field rest : List Char) : unmark before (marked field ++ rest) = (before ++ field) :: unmark [] rest := by
  induction field generalizing before with
  | nil => simp [marked, unmark]
  | cons c cs ih =>
    have := ih (before ++ [c])
    simp only [marked, List.flatMap_cons, List.cons_append, List.nil_append, List.append_assoc] at this ⊢
    rw [unmark, this]

theorem unmark_flatMap (fs : List (List Char)) : unmark [] (fs.flatMap marked) = fs := by
  induction fs with
  | nil => rfl
  | cons f fs ih => rw [List.flatMap_cons, unmark_marked, ih, List.nil_append]

theorem ofFields_fields (c : Credential) : ofFields (fields c) = some c := by
  cases c with
  | apiKey key => simp [fields, ofFields]
  | oAuth access refresh expires accountId =>
    cases accountId with
    | none => simp [fields, ofFields]
    | some id => simp [fields, ofFields]

/-- A platform with secret storage. -/
def withStorage : Platform where
  available := true
  encode c := String.ofList ((fields c).flatMap marked)
  decode s := ofFields (unmark [] s.toList)
  decode_encode c := by rw [String.toList_ofList, unmark_flatMap, ofFields_fields]

/-- A key is written, the storage refuses a second, and after a restart a third is cleared though it stays in the storage. -/
def rotated : List Action :=
  [.write .openAI (.apiKey "a") none, .write .openAI (.apiKey "b") (some "locked"), .restart,
   .write .groq (.apiKey "c") none, .clear .groq true, .restart]

end FerrisScope.CredentialStore
