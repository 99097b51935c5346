import FerrisScope.AgentSettings
import FerrisScope.JsonPointers
import FerrisScope.JsonText

/-!
# Old settings of the agent

Settings of older versions are brought to the present form when they are loaded: the key and the provider of the time
when there was one provider only, the free tier that had no switch, and the reasoning that was set for all providers.
Each step changes what the next ones read. The key is put under the active provider before the old provider becomes the
active one, and the active provider may still be left for another one when the reasoning has been handed out.
-/

namespace FerrisScope.SettingsMigration
open Json ChatMessages DerivedCodecs AgentSettings JsonPointers

def KindMap.insert {α : Type} (m : KindMap α) (k : ProviderKind) (a : α) : KindMap α := fun l => if l = k then some a else m l

/-- An entry that is there is kept. -/
def KindMap.orInsert {α : Type} (m : KindMap α) (k : ProviderKind) (a : α) : KindMap α :=
  if (m k).isSome then m else insert m k a

/-- `Credential::ApiKey`, as it is stored. -/
def credentialText (key : String) : String := stringify (.obj [("type", .str "api_key"), ("key", .str key)])

def legacyKey (raw : Value) : Option String := ((raw.get? "api_key_plaintext").bind asStr).filter fun key => key ≠ ""

def legacyProvider (raw : Value) : Option Value := pointer raw "/settings/provider".toList

def legacyKind (raw : Value) : Option ProviderKind :=
  ((legacyProvider raw).bind fun j => (j.get? "kind").bind asStr).bind ProviderKind.fromId

def legacyBaseUrl (raw : Value) : Option String :=
  ((legacyProvider raw).bind fun j => (j.get? "base_url").bind asStr).filter fun url => url ≠ ""

def migrateKey (raw : Value) (p : PersistedSettings) : PersistedSettings :=
  match legacyKey raw with
  | some key => { p with
      plaintextCredentials := KindMap.orInsert p.plaintextCredentials p.settings.activeProvider (credentialText key) }
  | none => p

def migrateProvider (raw : Value) (p : PersistedSettings) : PersistedSettings :=
  match legacyKind raw with
  | some kind => { p with
      settings := { p.settings with
        activeProvider := kind
        providers := KindMap.orInsert p.settings.providers kind { ProviderConfig.default with baseUrl := legacyBaseUrl raw } } }
  | none => p

def migrateZenOptIn (p : PersistedSettings) : PersistedSettings :=
  let undecided := ((p.settings.providers .opencodeZen).bind ProviderConfig.enabled).isNone
  let inUse := decide (p.settings.activeProvider = .opencodeZen) || p.configuredProviders .opencodeZen ||
    (p.plaintextCredentials .opencodeZen).isSome
  if undecided && inUse then { p with
    settings := { p.settings with
      providers := KindMap.insert p.settings.providers .opencodeZen
        { (p.settings.providers .opencodeZen).getD .default with enabled := some true } } }
  else p

/-- The reasoning of all providers is handed to one that has no choice of its own. -/
def handReasoning (s : AgentSettings) (k : ProviderKind) : AgentSettings :=
  if (s.providerReasoning k).isSome then s
  else { s with providerReasoning := KindMap.insert s.providerReasoning k (s.effectiveReasoning k) }

def migrateGlobalReasoning (p : PersistedSettings) : PersistedSettings :=
  if p.settings.reasoning.isEmpty then p
  else
    let targets := ProviderKind.all.filter p.configuredProviders ++ [p.settings.activeProvider]
    { p with settings := { targets.foldl handReasoning p.settings with reasoning := .default } }

def normalizeActiveProvider (p : PersistedSettings) : PersistedSettings :=
  if p.settings.isProviderEnabled p.settings.activeProvider then p
  else
    let enabled := ProviderKind.all.filter p.settings.isProviderEnabled
    match (enabled.find? p.configuredProviders).or enabled.head? with
    | some next => { p with settings := { p.settings with activeProvider := next, defaultModel := none } }
    | none => p

def migrated (raw : Value) (p : PersistedSettings) : PersistedSettings :=
  normalizeActiveProvider (migrateGlobalReasoning (migrateZenOptIn (migrateProvider raw (migrateKey raw p))))

/-- What a file has in it: a JSON document, or bytes that are none. -/
inductive Content
  | json (raw : Value)
  | bytes (data : List UInt8)

/-- The settings that are read from it. -/
def Content.settings : Content → Option PersistedSettings
  | .json raw => persistedSettings.read raw
  | .bytes _ => none

/-- The settings file and the backup beside it. -/
structure Disk where
  file : Option Content
  backup : Option Content

def loadPersistedAt (d : Disk) (copyFails : Bool) : PersistedSettings × Disk :=
  match d.file with
  | none | some (.bytes []) => (.default, d)
  | some (.bytes (b :: rest)) => (.default, if copyFails then d else { d with backup := some (.bytes (b :: rest)) })
  | some (.json raw) =>
    match persistedSettings.read raw with
    | some p => (migrated raw p, d)
    | none => (.default, if copyFails then d else { d with backup := some (.json raw) })

def savePersisted (p : PersistedSettings) (d : Disk) : Disk := { d with file := some (.json (persistedSettings.write p)) }

/-! ## The steps -/

section Steps
variable (raw : Value) (p : PersistedSettings)

theorem orInsert_apply {α : Type} (m : KindMap α) (k l : ProviderKind) (a : α) :
    KindMap.orInsert m k a l = if l = k then some ((m k).getD a) else m l := by
  unfold KindMap.orInsert
  by_cases hl : l = k
  · subst hl
    cases hm : m l with
    | none => simp [KindMap.insert]
    | some b => simp [hm]
  · rw [if_neg hl]
    split
    · rfl
    · exact if_neg hl

/-- What a document of one provider leaves. -/
def credentialsOf (k : ProviderKind) : Option String :=
  if k = p.settings.activeProvider then (p.plaintextCredentials k).or ((legacyKey raw).map credentialText)
  else p.plaintextCredentials k

theorem migrateKey_eq : migrateKey raw p = { p with plaintextCredentials := credentialsOf raw p } := by
  have hcredentials : (migrateKey raw p).plaintextCredentials = credentialsOf raw p := by
    funext k
    unfold migrateKey credentialsOf
    cases legacyKey raw with
    | none => simp
    | some key =>
      dsimp only
      rw [orInsert_apply]
      by_cases hk : k = p.settings.activeProvider
      · subst hk
        cases p.plaintextCredentials p.settings.activeProvider <;> simp
      · simp [hk]
  rw [← hcredentials]
  unfold migrateKey
  split <;> rfl

/-- The provider that the document makes the active one. -/
def activeOf : ProviderKind := (legacyKind raw).getD p.settings.activeProvider

def providersOf (k : ProviderKind) : Option ProviderConfig :=
  if legacyKind raw = some k then
    some ((p.settings.providers k).getD { ProviderConfig.default with baseUrl := legacyBaseUrl raw })
  else p.settings.providers k

theorem migrateProvider_eq : migrateProvider raw p = { p with
    settings := { p.settings with activeProvider := activeOf raw p, providers := providersOf raw p } } := by
  have hproviders : (migrateProvider raw p).settings.providers = providersOf raw p := by
    funext k
    unfold migrateProvider providersOf
    cases legacyKind raw with
    | none => simp
    | some kind =>
      dsimp only
      rw [orInsert_apply]
      by_cases hk : k = kind
      · subst hk
        simp
      · simp [hk, Ne.symm hk]
  rw [← hproviders]
  unfold migrateProvider activeOf
  split
  · next kind hkind => rw [hkind, Option.getD_some]
  · next hkind => rw [hkind, Option.getD_none]

/-- The free tier is in use, whether or not it has been switched on. -/
def UsesZen : Prop :=
  p.settings.activeProvider = .opencodeZen ∨ p.configuredProviders .opencodeZen = true ∨
    p.plaintextCredentials .opencodeZen ≠ none

instance : Decidable (UsesZen p) := inferInstanceAs (Decidable (_ ∨ _ ∨ _))

def switchedProviders (k : ProviderKind) : Option ProviderConfig :=
  if k = .opencodeZen ∧ (p.settings.providers k).bind ProviderConfig.enabled = none ∧ UsesZen p then
    some { (p.settings.providers k).getD .default with enabled := some true }
  else p.settings.providers k

theorem migrateZenOptIn_eq : migrateZenOptIn p = { p with
    settings := { p.settings with providers := switchedProviders p } } := by
  have huses : (decide (p.settings.activeProvider = .opencodeZen) || p.configuredProviders .opencodeZen ||
      (p.plaintextCredentials .opencodeZen).isSome) = decide (UsesZen p) := by
    rw [Bool.eq_iff_iff, decide_eq_true_iff]
    simp [UsesZen, or_assoc, Option.isSome_iff_ne_none]
  unfold migrateZenOptIn
  dsimp only
  rw [huses]
  by_cases h : ((p.settings.providers .opencodeZen).bind ProviderConfig.enabled).isNone ∧ UsesZen p
  · rw [if_pos (by simpa using h)]
    congr 2
    funext k
    unfold KindMap.insert switchedProviders
    by_cases hk : k = .opencodeZen
    · subst hk
      have hnone := Option.isNone_iff_eq_none.mp h.1
      rw [if_pos rfl, if_pos ⟨rfl, hnone, h.2⟩]
    · rw [if_neg hk, if_neg fun hall => hk hall.1]
  · rw [if_neg (by simpa using h)]
    have hsame : switchedProviders p = p.settings.providers := by
      funext k
      unfold switchedProviders
      refine if_neg fun hall => h ⟨?_, hall.2.2⟩
      rw [← hall.1, hall.2.1]
      rfl
    rw [hsame]

/-- The choices after the reasoning has been handed out. -/
def handedReasoning (k : ProviderKind) : Option ProviderReasoning :=
  if p.settings.reasoning.isEmpty = false ∧ (p.configuredProviders k = true ∨ k = p.settings.activeProvider) then
    some (p.settings.effectiveReasoning k)
  else p.settings.providerReasoning k

theorem handReasoning_foldl (s : AgentSettings) (ks : List ProviderKind) : ks.foldl handReasoning s = { s with
    providerReasoning := fun k => if k ∈ ks then some (s.effectiveReasoning k) else s.providerReasoning k } := by
  induction ks using List.reverseRecOn with
  | nil => simp
  | append_singleton ks l ih =>
    rw [List.foldl_concat, ih]
    unfold handReasoning
    split
    · next hown =>
      dsimp only at hown
      congr 1
      funext k
      by_cases hk : k = l
      · subst hk
        by_cases hmem : k ∈ ks
        · simp [hmem]
        · obtain ⟨own, hown⟩ := Option.isSome_iff_exists.mp hown
          rw [if_neg hmem] at hown
          simp [hmem, hown, AgentSettings.effectiveReasoning]
      · simp [hk]
    · next hown =>
      dsimp only at hown
      have hmem : l ∉ ks := fun hmem => hown (by rw [if_pos hmem]; rfl)
      rw [if_neg hmem] at hown
      have hnone := Option.not_isSome_iff_eq_none.mp hown
      congr 1
      funext k
      unfold KindMap.insert
      by_cases hk : k = l
      · subst hk
        simp [hmem, hnone, AgentSettings.effectiveReasoning]
      · simp [hk]

theorem migrateGlobalReasoning_eq : migrateGlobalReasoning p = { p with
    settings := { p.settings with reasoning := .default, providerReasoning := handedReasoning p } } := by
  unfold migrateGlobalReasoning
  by_cases hempty : p.settings.reasoning.isEmpty = true
  · have hsame : handedReasoning p = p.settings.providerReasoning := by
      funext k
      exact if_neg fun h => by simp [hempty] at h
    rw [if_pos hempty, hsame, ← ReasoningSettings.eq_default_of_isEmpty hempty]
  · rw [if_neg hempty]
    dsimp only
    rw [handReasoning_foldl]
    congr 2
    funext k
    have hmem : k ∈ ProviderKind.all.filter p.configuredProviders ++ [p.settings.activeProvider] ↔
        p.settings.reasoning.isEmpty = false ∧ (p.configuredProviders k = true ∨ k = p.settings.activeProvider) := by
      simp [ProviderKind.mem_all, Bool.eq_false_iff.mpr hempty]
    exact if_congr hmem rfl rfl

/-- The provider that is moved to. -/
def nextProvider : Option ProviderKind :=
  ((ProviderKind.all.filter p.settings.isProviderEnabled).find? p.configuredProviders).or
    (ProviderKind.all.filter p.settings.isProviderEnabled).head?

theorem nextProvider_enabled {k : ProviderKind} (h : nextProvider p = some k) : p.settings.isProviderEnabled k = true := by
  have hmem : k ∈ ProviderKind.all.filter p.settings.isProviderEnabled := by
    rcases Option.or_eq_some_iff.mp h with hfind | ⟨-, hhead⟩
    · exact List.mem_of_find?_eq_some hfind
    · exact List.mem_of_head? hhead
  exact (List.mem_filter.mp hmem).2

theorem nextProvider_eq_none (h : nextProvider p = none) (k : ProviderKind) : p.settings.isProviderEnabled k = false := by
  have hnil : ProviderKind.all.filter p.settings.isProviderEnabled = [] :=
    List.head?_eq_none_iff.mp (Option.or_eq_none_iff.mp h).2
  exact Bool.eq_false_iff.mpr (List.filter_eq_nil_iff.mp hnil k (ProviderKind.mem_all k))

theorem normalize_of_enabled (h : p.settings.isProviderEnabled p.settings.activeProvider = true) :
    normalizeActiveProvider p = p := if_pos h

theorem normalize_of_next {k : ProviderKind} (h : p.settings.isProviderEnabled p.settings.activeProvider = false)
    (hnext : nextProvider p = some k) :
    normalizeActiveProvider p = { p with settings := { p.settings with activeProvider := k, defaultModel := none } } := by
  rw [normalizeActiveProvider, if_neg (by simp [h])]
  dsimp only
  rw [show ((ProviderKind.all.filter p.settings.isProviderEnabled).find? p.configuredProviders).or
    (ProviderKind.all.filter p.settings.isProviderEnabled).head? = some k from hnext]

theorem normalize_of_none (h : p.settings.isProviderEnabled p.settings.activeProvider = false)
    (hnext : nextProvider p = none) : normalizeActiveProvider p = p := by
  rw [normalizeActiveProvider, if_neg (by simp [h])]
  dsimp only
  rw [show ((ProviderKind.all.filter p.settings.isProviderEnabled).find? p.configuredProviders).or
    (ProviderKind.all.filter p.settings.isProviderEnabled).head? = none from hnext]

/-- The active provider and the model are all that changes. -/
theorem normalize_cases : ∃ k model, normalizeActiveProvider p = { p with
    settings := { p.settings with activeProvider := k, defaultModel := model } } := by
  by_cases h : p.settings.isProviderEnabled p.settings.activeProvider = true
  · exact ⟨_, _, normalize_of_enabled p h⟩
  · rw [Bool.not_eq_true] at h
    cases hnext : nextProvider p with
    | none => exact ⟨_, _, normalize_of_none p h hnext⟩
    | some k => exact ⟨_, _, normalize_of_next p h hnext⟩

end Steps

/-! ## All steps -/

section Whole
variable (raw : Value) (p : PersistedSettings)

/-- The free tier will be in use when its switch is decided. -/
def WillUseZen : Prop :=
  activeOf raw p = .opencodeZen ∨ p.configuredProviders .opencodeZen = true ∨ credentialsOf raw p .opencodeZen ≠ none

instance : Decidable (WillUseZen raw p) := inferInstanceAs (Decidable (_ ∨ _ ∨ _))

/-- The provider will be enabled when the active one is checked. -/
def willBeEnabled (k : ProviderKind) : Bool :=
  ((p.settings.providers k).bind ProviderConfig.enabled).getD (decide (k ≠ .opencodeZen ∨ WillUseZen raw p))

/-- Everything but the last step. -/
def beforeMove : PersistedSettings :=
  migrateGlobalReasoning (migrateZenOptIn (migrateProvider raw (migrateKey raw p)))

theorem enabled_providersOf (k : ProviderKind) :
    (providersOf raw p k).bind ProviderConfig.enabled = (p.settings.providers k).bind ProviderConfig.enabled := by
  unfold providersOf
  split
  · cases p.settings.providers k <;> rfl
  · rfl

/-- The state in which the switch of the free tier is decided. -/
def beforeSwitch : PersistedSettings := { p with
  plaintextCredentials := credentialsOf raw p
  settings := { p.settings with activeProvider := activeOf raw p, providers := providersOf raw p } }

theorem beforeSwitch_eq : migrateProvider raw (migrateKey raw p) = beforeSwitch raw p := by
  rw [migrateProvider_eq, migrateKey_eq]
  rfl

theorem beforeMove_eq : beforeMove raw p = { beforeSwitch raw p with
    settings := { (beforeSwitch raw p).settings with
      providers := switchedProviders (beforeSwitch raw p)
      reasoning := .default
      providerReasoning := handedReasoning (beforeSwitch raw p) } } := by
  rw [beforeMove, beforeSwitch_eq, migrateZenOptIn_eq, migrateGlobalReasoning_eq]
  rfl

theorem enabled_beforeMove (k : ProviderKind) :
    (beforeMove raw p).settings.isProviderEnabled k = willBeEnabled raw p k := by
  have hproviders : (beforeMove raw p).settings.providers k = switchedProviders (beforeSwitch raw p) k := by
    rw [beforeMove_eq]
  have hown : ((beforeSwitch raw p).settings.providers k).bind ProviderConfig.enabled =
      (p.settings.providers k).bind ProviderConfig.enabled := enabled_providersOf raw p k
  unfold AgentSettings.isProviderEnabled willBeEnabled
  rw [hproviders, switchedProviders, hown]
  cases hchoice : (p.settings.providers k).bind ProviderConfig.enabled with
  | some b =>
    rw [if_neg (by simp), hown, hchoice]
    rfl
  | none =>
    by_cases hzen : k = .opencodeZen
    · subst hzen
      by_cases huses : WillUseZen raw p
      · rw [if_pos ⟨rfl, rfl, huses⟩]
        simp [huses]
      · rw [if_neg fun h => huses h.2.2, hown, hchoice]
        simp [huses, ProviderKind.defaultEnabled, ProviderKind.supportsPublicFallback]
    · rw [if_neg fun h => hzen h.1, hown, hchoice]
      simp [hzen, ProviderKind.defaultEnabled, ProviderKind.supportsPublicFallback]

theorem effectiveReasoning_of_none {s : AgentSettings} {k : ProviderKind} (h : s.providerReasoning k = none) :
    s.effectiveReasoning k = ⟨s.reasoning.effort.map ReasoningEffort.asStr, s.reasoning.budgetTokens⟩ := by
  rw [AgentSettings.effectiveReasoning, h]

/-- Without a choice of its own a provider has the reasoning of no choice at all only if there is none for all. -/
theorem effectiveReasoning_eq_none_iff {s : AgentSettings} {k : ProviderKind} (h : s.providerReasoning k = none) :
    ⟨none, none⟩ = s.effectiveReasoning k ↔ s.reasoning.isEmpty = true := by
  rw [effectiveReasoning_of_none h]
  constructor
  · intro heq
    obtain ⟨heffort, hbudget⟩ := ProviderReasoning.mk.inj heq
    rw [ReasoningSettings.isEmpty, ← hbudget, Option.map_eq_none_iff.mp heffort.symm]
    rfl
  · intro hempty
    rw [ReasoningSettings.eq_default_of_isEmpty hempty]
    rfl

theorem effectiveReasoning_beforeMove (k : ProviderKind) :
    (beforeMove raw p).settings.effectiveReasoning k = (handedReasoning (beforeSwitch raw p) k).getD ⟨none, none⟩ := by
  have hchoice : (beforeMove raw p).settings.providerReasoning k = handedReasoning (beforeSwitch raw p) k := by
    rw [beforeMove_eq]
  have hglobal : (beforeMove raw p).settings.reasoning = .default := by rw [beforeMove_eq]
  unfold AgentSettings.effectiveReasoning
  rw [hchoice, hglobal]
  cases handedReasoning (beforeSwitch raw p) k <;> rfl

/-- The reasoning of a provider after all steps but the last. -/
theorem effective_beforeMove (k : ProviderKind) :
    (p.settings.reasoning.isEmpty = true ∨ (p.settings.providerReasoning k).isSome = true ∨
        p.configuredProviders k = true ∨ k = activeOf raw p) ↔
      (beforeMove raw p).settings.effectiveReasoning k = p.settings.effectiveReasoning k := by
  have hhanded : handedReasoning (beforeSwitch raw p) k =
      if p.settings.reasoning.isEmpty = false ∧ (p.configuredProviders k = true ∨ k = activeOf raw p) then
        some (p.settings.effectiveReasoning k)
      else p.settings.providerReasoning k := rfl
  rw [effectiveReasoning_beforeMove, hhanded]
  by_cases htarget : p.settings.reasoning.isEmpty = false ∧ (p.configuredProviders k = true ∨ k = activeOf raw p)
  · rw [if_pos htarget]
    exact iff_of_true (.inr (.inr htarget.2)) rfl
  · rw [if_neg htarget]
    cases hown : p.settings.providerReasoning k with
    | some own =>
      refine iff_of_true (.inr (.inl rfl)) ?_
      rw [AgentSettings.effectiveReasoning, hown, Option.getD_some]
    | none =>
      rw [Option.getD_none, effectiveReasoning_eq_none_iff hown]
      constructor
      · rintro (h | h | h)
        · exact h
        · cases h
        · by_contra hempty
          exact htarget ⟨Bool.eq_false_iff.mpr hempty, h⟩
      · exact .inl

theorem isProviderEnabled_beforeMove : (beforeMove raw p).settings.isProviderEnabled = willBeEnabled raw p :=
  funext (enabled_beforeMove raw p)

theorem nextProvider_beforeMove : nextProvider (beforeMove raw p) =
    ((ProviderKind.all.filter (willBeEnabled raw p)).find? p.configuredProviders).or
      (ProviderKind.all.find? (willBeEnabled raw p)) := by
  have hconfigured : (beforeMove raw p).configuredProviders = p.configuredProviders := by
    rw [beforeMove_eq]
    rfl
  rw [nextProvider, isProviderEnabled_beforeMove, hconfigured, List.head?_filter]

/-- The providers, the credentials and the reasoning are not touched by the last step. -/
theorem migrated_cases : ∃ k model, migrated raw p = { beforeMove raw p with
    settings := { (beforeMove raw p).settings with activeProvider := k, defaultModel := model } } :=
  normalize_cases (beforeMove raw p)

theorem providers_migrated : (migrated raw p).settings.providers = switchedProviders (beforeSwitch raw p) := by
  obtain ⟨active, model, heq⟩ := migrated_cases raw p
  rw [heq, beforeMove_eq]

theorem active_migrated : (migrated raw p).settings.activeProvider =
    if willBeEnabled raw p (activeOf raw p) then activeOf raw p
    else (nextProvider (beforeMove raw p)).getD (activeOf raw p) := by
  have hactive : (beforeMove raw p).settings.activeProvider = activeOf raw p := by
    rw [beforeMove_eq]
    rfl
  have henabled := enabled_beforeMove raw p (activeOf raw p)
  rw [← hactive] at henabled
  change (normalizeActiveProvider (beforeMove raw p)).settings.activeProvider = _
  cases h : willBeEnabled raw p (activeOf raw p) with
  | true =>
    rw [hactive, h] at henabled
    rw [normalize_of_enabled _ (hactive ▸ henabled), hactive, if_pos rfl]
  | false =>
    rw [hactive, h] at henabled
    rw [if_neg Bool.false_ne_true]
    cases hnext : nextProvider (beforeMove raw p) with
    | none => rw [normalize_of_none _ (hactive ▸ henabled) hnext, hactive, Option.getD_none]
    | some k => rw [normalize_of_next _ (hactive ▸ henabled) hnext, Option.getD_some]

/-- Whenever a provider is enabled, the active one is. -/
theorem active_enabled {k : ProviderKind} (h : (migrated raw p).settings.isProviderEnabled k = true) :
    (migrated raw p).settings.isProviderEnabled (migrated raw p).settings.activeProvider = true := by
  have hsame : ∀ l, (migrated raw p).settings.isProviderEnabled l = (beforeMove raw p).settings.isProviderEnabled l := by
    obtain ⟨active, model, heq⟩ := migrated_cases raw p
    intro l
    rw [heq]
    rfl
  rw [hsame] at h ⊢
  rw [active_migrated]
  split
  · next henabled => rw [enabled_beforeMove, henabled]
  · cases hnext : nextProvider (beforeMove raw p) with
    | none =>
      rw [nextProvider_eq_none _ hnext] at h
      cases h
    | some l => exact nextProvider_enabled _ hnext

/-! ## Loading again -/

theorem migrateZenOptIn_migrated : migrateZenOptIn (migrated raw p) = migrated raw p := by
  have husers : UsesZen (migrated raw p) → (migrated raw p).settings.activeProvider = .opencodeZen ∨
      UsesZen (beforeSwitch raw p) := by
    obtain ⟨active, model, heq⟩ := migrated_cases raw p
    rw [heq, beforeMove_eq]
    rintro (h | h | h)
    · exact .inl h
    · exact .inr (.inr (.inl h))
    · exact .inr (.inr (.inr h))
  -- A switch that is still undecided belongs to a tier that is not in use.
  have hsettled : ((migrated raw p).settings.providers .opencodeZen).bind ProviderConfig.enabled = none →
      ¬ UsesZen (migrated raw p) := by
    intro hundecided huses
    rw [providers_migrated, switchedProviders] at hundecided
    split at hundecided
    · cases hundecided
    · next hfree =>
      have hnot : ¬ UsesZen (beforeSwitch raw p) := fun h => hfree ⟨rfl, hundecided, h⟩
      have hzen := (husers huses).resolve_right hnot
      rw [active_migrated] at hzen
      have hdisabled : willBeEnabled raw p .opencodeZen = false := by
        have hown := enabled_providersOf raw p .opencodeZen
        rw [show (providersOf raw p .opencodeZen).bind ProviderConfig.enabled = none from hundecided] at hown
        have hwill : ¬ WillUseZen raw p := hnot
        simp [willBeEnabled, ← hown, hwill]
      split at hzen
      · exact hnot (.inl hzen)
      · cases hnext : nextProvider (beforeMove raw p) with
        | none =>
          rw [hnext, Option.getD_none] at hzen
          exact hnot (.inl hzen)
        | some k =>
          rw [hnext, Option.getD_some] at hzen
          have henabled := nextProvider_enabled _ hnext
          rw [hzen, enabled_beforeMove, hdisabled] at henabled
          cases henabled
  rw [migrateZenOptIn_eq]
  have hsame : switchedProviders (migrated raw p) = (migrated raw p).settings.providers := by
    funext k
    unfold switchedProviders
    refine if_neg fun h => hsettled ?_ h.2.2
    rw [← h.1]
    exact h.2.1
  rw [hsame]

theorem migrateGlobalReasoning_migrated : migrateGlobalReasoning (migrated raw p) = migrated raw p := by
  have hempty : (migrated raw p).settings.reasoning.isEmpty = true := by
    obtain ⟨active, model, heq⟩ := migrated_cases raw p
    rw [heq, beforeMove_eq]
    rfl
  exact if_pos hempty

theorem normalize_migrated : normalizeActiveProvider (migrated raw p) = migrated raw p := by
  by_cases h : (migrated raw p).settings.isProviderEnabled (migrated raw p).settings.activeProvider = true
  · exact normalize_of_enabled _ h
  · apply normalize_of_none _ (Bool.eq_false_iff.mpr h)
    cases hnext : nextProvider (migrated raw p) with
    | none => rfl
    | some k => exact absurd (active_enabled raw p (nextProvider_enabled _ hnext)) h

theorem legacy_write (q : PersistedSettings) :
    legacyKey (persistedSettings.write q) = none ∧ legacyKind (persistedSettings.write q) = none := by
  have hprovider : legacyProvider (persistedSettings.write q) = none := by
    have hpath : legacyProvider (persistedSettings.write q) =
        getPath (persistedSettings.write q) ["settings", "provider"] := pointer_eq_getPath (by decide) (by decide) _
    have hsettings : (persistedSettings.write q).get? "settings" = some (agentSettings.write q.settings) := rfl
    have hfield : (agentSettings.write q.settings).get? "provider" = none := by
      change find "provider" (settingsEntries q.settings) = none
      simp [settingsEntries, find_cons]
    rw [hpath, getPath_cons, hsettings, Option.bind_some, getPath_cons, hfield, Option.bind_none]
  constructor
  · rfl
  · rw [legacyKind, hprovider]
    rfl

/-- Loading what has been loaded and saved changes nothing more. -/
theorem migrated_write : migrated (persistedSettings.write (migrated raw p)) (migrated raw p) = migrated raw p := by
  obtain ⟨hkey, hkind⟩ := legacy_write (migrated raw p)
  have hfirst : migrateKey (persistedSettings.write (migrated raw p)) (migrated raw p) = migrated raw p := by
    rw [migrateKey, hkey]
  have hsecond : migrateProvider (persistedSettings.write (migrated raw p)) (migrated raw p) = migrated raw p := by
    rw [migrateProvider, hkind]
  rw [migrated, hfirst, hsecond, migrateZenOptIn_migrated, migrateGlobalReasoning_migrated, normalize_migrated]

end Whole

/-! ## What is kept -/

/-- The loaded settings have the key where it belongs, the base URL of the old provider, an active provider that is
enabled, and the reasoning that was in effect. -/
structure Migrated (raw : Value) (p q : PersistedSettings) : Prop where
  key : ∀ key kind, legacyKey raw = some key → legacyKind raw = some kind → p.plaintextCredentials kind = none →
    ∀ k, q.plaintextCredentials k = if k = kind then some (credentialText key) else p.plaintextCredentials k
  base_url : ∀ kind, legacyKind raw = some kind → (q.settings.providers kind).bind ProviderConfig.baseUrl =
    match p.settings.providers kind with
    | some c => c.baseUrl
    | none => legacyBaseUrl raw
  active : (∃ k, q.settings.isProviderEnabled k = true) → q.settings.isProviderEnabled q.settings.activeProvider = true
  reasoning : ∀ k, q.configuredProviders k = true ∨ k = activeOf raw p ∨ k = q.settings.activeProvider →
    p.settings.providerReasoning k = none → q.settings.effectiveReasoning k = p.settings.effectiveReasoning k

/-- The key belongs to the active provider, and an active provider that has to be left is left for one that has its
reasoning. -/
structure Settled (raw : Value) (p : PersistedSettings) : Prop where
  key : ∀ key kind, legacyKey raw = some key → legacyKind raw = some kind → p.plaintextCredentials kind = none →
    p.settings.activeProvider = kind
  reasoning : p.settings.reasoning.isEmpty = false → willBeEnabled raw p (activeOf raw p) = false →
    (∃ k, p.configuredProviders k = true ∧ willBeEnabled raw p k = true) ∨
      ∀ k, ProviderKind.all.find? (willBeEnabled raw p) = some k → (p.settings.providerReasoning k).isSome = true

section Kept
variable {raw : Value} {p : PersistedSettings}

theorem plaintext_migrated : (migrated raw p).plaintextCredentials = credentialsOf raw p := by
  obtain ⟨active, model, heq⟩ := migrated_cases raw p
  rw [heq, beforeMove_eq]
  rfl

theorem configured_migrated : (migrated raw p).configuredProviders = p.configuredProviders := by
  obtain ⟨active, model, heq⟩ := migrated_cases raw p
  rw [heq, beforeMove_eq]
  rfl

theorem effective_migrated (k : ProviderKind) :
    (migrated raw p).settings.effectiveReasoning k = (beforeMove raw p).settings.effectiveReasoning k := by
  obtain ⟨active, model, heq⟩ := migrated_cases raw p
  rw [heq]
  rfl

theorem base_url_migrated {kind : ProviderKind} (h : legacyKind raw = some kind) :
    ((migrated raw p).settings.providers kind).bind ProviderConfig.baseUrl =
      match p.settings.providers kind with
      | some c => c.baseUrl
      | none => legacyBaseUrl raw := by
  have hentry : (beforeSwitch raw p).settings.providers kind =
      some ((p.settings.providers kind).getD { ProviderConfig.default with baseUrl := legacyBaseUrl raw }) := if_pos h
  have hurl : (switchedProviders (beforeSwitch raw p) kind).bind ProviderConfig.baseUrl =
      ((beforeSwitch raw p).settings.providers kind).bind ProviderConfig.baseUrl := by
    unfold switchedProviders
    split
    · next hzen =>
      rw [hentry]
      rfl
    · rfl
  rw [providers_migrated, hurl, hentry]
  cases p.settings.providers kind <;> rfl

/-- Where the next provider is found: among those that are connected, and else the first one. -/
theorem nextProvider_cases {k : ProviderKind} (h : nextProvider (beforeMove raw p) = some k) :
    p.configuredProviders k = true ∨ (∀ l, p.configuredProviders l = true → willBeEnabled raw p l = false) ∧
      ProviderKind.all.find? (willBeEnabled raw p) = some k := by
  rw [nextProvider_beforeMove] at h
  rcases Option.or_eq_some_iff.mp h with hfind | ⟨hnone, hfirst⟩
  · exact .inl (List.find?_some hfind)
  · refine .inr ⟨fun l hl => ?_, hfirst⟩
    by_contra henabled
    have hmem : l ∈ ProviderKind.all.filter (willBeEnabled raw p) :=
      List.mem_filter.mpr ⟨ProviderKind.mem_all l, Bool.not_eq_false _ ▸ henabled⟩
    exact List.find?_eq_none.mp hnone l hmem hl

/-- The provider that is moved to where none of those that will be enabled is connected. -/
theorem nextProvider_of_disconnected {k : ProviderKind} (hfirst : ProviderKind.all.find? (willBeEnabled raw p) = some k)
    (hconnected : ∀ l, p.configuredProviders l = true → ¬ willBeEnabled raw p l = true) :
    nextProvider (beforeMove raw p) = some k := by
  have hnone : (ProviderKind.all.filter (willBeEnabled raw p)).find? p.configuredProviders = none :=
    List.find?_eq_none.mpr fun l hl hconf => hconnected l hconf (List.mem_filter.mp hl).2
  rw [nextProvider_beforeMove, hnone, Option.none_or, hfirst]

theorem settled_of_migrated (h : Migrated raw p (migrated raw p)) : Settled raw p where
  key := by
    intro key kind hkey hkind hfree
    have hheld := h.key key kind hkey hkind hfree kind
    rw [if_pos rfl, plaintext_migrated, credentialsOf] at hheld
    by_contra hne
    rw [if_neg (Ne.symm hne), hfree] at hheld
    cases hheld
  reasoning := by
    intro hglobal hleft
    by_contra hlost
    push Not at hlost
    obtain ⟨hconnected, k, hfirst, hown⟩ := hlost
    have hchoice : p.settings.providerReasoning k = none := by simpa using hown
    have henabled : willBeEnabled raw p k = true := List.find?_some hfirst
    have hactive : (migrated raw p).settings.activeProvider = k := by
      rw [active_migrated, hleft, if_neg Bool.false_ne_true, nextProvider_of_disconnected hfirst hconnected,
        Option.getD_some]
    have hkept := h.reasoning k (.inr (.inr hactive.symm)) hchoice
    rw [effective_migrated] at hkept
    rcases (effective_beforeMove raw p k).mpr hkept with hempty | hsome | hconf | rfl
    · rw [hglobal] at hempty
      cases hempty
    · rw [hchoice] at hsome
      cases hsome
    · exact hconnected k hconf henabled
    · rw [hleft] at henabled
      cases henabled

/-- The provider that is active in the end has its reasoning from somewhere. -/
theorem chosen_of_settled (h : Settled raw p) :
    p.settings.reasoning.isEmpty = true ∨
      (p.settings.providerReasoning (migrated raw p).settings.activeProvider).isSome = true ∨
      p.configuredProviders (migrated raw p).settings.activeProvider = true ∨
      (migrated raw p).settings.activeProvider = activeOf raw p := by
  rw [active_migrated]
  split
  · exact .inr (.inr (.inr rfl))
  · next hleft =>
    cases hnext : nextProvider (beforeMove raw p) with
    | none => exact .inr (.inr (.inr rfl))
    | some k =>
      rw [Option.getD_some]
      cases hempty : p.settings.reasoning.isEmpty with
      | true => exact .inl rfl
      | false =>
        rcases nextProvider_cases hnext with hconf | ⟨hnone, hfirst⟩
        · exact .inr (.inr (.inl hconf))
        · rcases h.reasoning hempty (Bool.eq_false_iff.mpr hleft) with ⟨j, hj, henabled⟩ | hown
          · rw [hnone j hj] at henabled
            cases henabled
          · exact .inr (.inl (hown k hfirst))

theorem migrated_of_settled (h : Settled raw p) : Migrated raw p (migrated raw p) where
  key := by
    intro key kind hkey hkind hfree k
    rw [plaintext_migrated, credentialsOf, h.key key kind hkey hkind hfree]
    by_cases hk : k = kind
    · rw [if_pos hk, if_pos hk, hk, hfree, hkey]
      rfl
    · rw [if_neg hk, if_neg hk]
  base_url kind hkind := base_url_migrated hkind
  active := by
    rintro ⟨k, hk⟩
    exact active_enabled raw p hk
  reasoning := by
    intro k hk hchoice
    rw [effective_migrated]
    apply (effective_beforeMove raw p k).mp
    rw [configured_migrated] at hk
    rcases hk with hconf | hk | rfl
    · exact .inr (.inr (.inl hconf))
    · exact .inr (.inr (.inr hk))
    · exact chosen_of_settled h

theorem migrated_iff : Migrated raw p (migrated raw p) ↔ Settled raw p := ⟨settled_of_migrated, migrated_of_settled⟩

end Kept

/-- When the old settings are kept as they should be. Saving and loading again never changes anything more, and a
document that cannot be read is kept in the backup. -/
theorem settings_migrated_iff (d : Disk) (copyFails : Bool) :
    (∀ raw p, d.file = some (.json raw) → persistedSettings.read raw = some p →
      ((Migrated raw p (loadPersistedAt d copyFails).1 ∧
        ∀ d' copyFails', (loadPersistedAt (savePersisted (loadPersistedAt d copyFails).1 d') copyFails').1 =
          (loadPersistedAt d copyFails).1) ↔ Settled raw p)) ∧
    ∀ c, d.file = some c → c.settings = none → c ≠ .bytes [] → copyFails = false →
      (loadPersistedAt d copyFails).2.backup = some c := by
  constructor
  · intro raw p hfile hread
    have hload : (loadPersistedAt d copyFails).1 = migrated raw p := by
      simp only [loadPersistedAt, hfile, hread]
    have hagain : ∀ d' copyFails', (loadPersistedAt (savePersisted (migrated raw p) d') copyFails').1 = migrated raw p := by
      intro d' copyFails'
      have hback : persistedSettings.read (persistedSettings.write (migrated raw p)) = some (migrated raw p) :=
        persistedSettings_exact _
      simp only [loadPersistedAt, savePersisted, hback]
      exact migrated_write raw p
    rw [hload, and_iff_left hagain]
    exact migrated_iff
  · rintro c hfile hread hne rfl
    cases c with
    | json raw =>
      change persistedSettings.read raw = none at hread
      simp [loadPersistedAt, hfile, hread]
    | bytes data =>
      cases data with
      | nil => exact absurd rfl hne
      | cons b rest => simp [loadPersistedAt, hfile]

/-- A document of the time when there was one provider, with its key. -/
def oneProvider : Value :=
  .obj [("api_key_plaintext", .str "sk-1"),
    ("settings", .obj [("default_approval_mode", .str "approve_per_write"), ("provider", .obj [("kind", .str "anthropic")])])]

theorem key_under_other_provider : ∃ p, persistedSettings.read oneProvider = some p ∧
    ¬ Migrated oneProvider p (loadPersistedAt ⟨some (.json oneProvider), none⟩ false).1 := by
  have hread : persistedSettings.read oneProvider = some .default := rfl
  refine ⟨.default, hread, fun h => ?_⟩
  have hload : (loadPersistedAt ⟨some (.json oneProvider), none⟩ false).1 = migrated oneProvider .default := by
    simp only [loadPersistedAt, hread]
  rw [hload] at h
  have hkind : legacyKind oneProvider = some .anthropic := by decide
  have hheld := h.key "sk-1" .anthropic (by decide) hkind rfl .anthropic
  rw [plaintext_migrated, if_pos rfl] at hheld
  cases hheld

end FerrisScope.SettingsMigration
