import FerrisScope.SessionCodec

/-!
# Settings of the agent

The settings are kept in one JSON document. Providers go by names: entries of a provider this build does not know are
read and left out, and an active provider it does not know is the default one. What is written is read back as it was.
-/

namespace FerrisScope.AgentSettings
open Json ChatMessages SessionEvents SessionCodec DerivedCodecs

/-- In the order in which they are shown. -/
inductive ProviderKind
  | openAI | anthropic | google | openRouter | zai | minimax | groq | deepseek | moonshot | kimiCoding | mistral | together
  | opencodeZen | opencodeGo | ollama | customOpenAi | customAnthropic
  deriving DecidableEq

namespace ProviderKind

def all : List ProviderKind :=
  [.openAI, .anthropic, .google, .openRouter, .zai, .minimax, .groq, .deepseek, .moonshot, .kimiCoding, .mistral,
    .together, .opencodeZen, .opencodeGo, .ollama, .customOpenAi, .customAnthropic]

def id : ProviderKind → String
  | .openAI => "openai"
  | .anthropic => "anthropic"
  | .google => "google"
  | .openRouter => "open_router"
  | .zai => "zai"
  | .minimax => "minimax"
  | .groq => "groq"
  | .deepseek => "deepseek"
  | .moonshot => "moonshot"
  | .kimiCoding => "kimi_coding"
  | .mistral => "mistral"
  | .together => "together"
  | .opencodeZen => "opencode_zen"
  | .opencodeGo => "opencode_go"
  | .ollama => "ollama"
  | .customOpenAi => "custom_openai"
  | .customAnthropic => "custom_anthropic"

def fromId (id : String) : Option ProviderKind := all.find? fun k => k.id = id

def supportsPublicFallback (k : ProviderKind) : Bool := k = .opencodeZen

def defaultEnabled (k : ProviderKind) : Bool := !k.supportsPublicFallback

theorem mem_all (k : ProviderKind) : k ∈ all := by
  cases k <;> decide

theorem fromId_id (k : ProviderKind) : fromId k.id = some k := by
  cases k <;> decide

theorem id_injective : Function.Injective id := by
  intro a b h
  have hsome : some a = some b := by rw [← fromId_id a, ← fromId_id b, h]
  exact Option.some.inj hsome

end ProviderKind

/-- A map with providers as keys. -/
abbrev KindMap (α : Type) := ProviderKind → Option α

structure ProviderConfig where
  baseUrl : Option String
  customModels : List String
  enabled : Option Bool

def ProviderConfig.default : ProviderConfig := ⟨none, [], none⟩

inductive ReasoningEffort | low | medium | high
  deriving DecidableEq

def ReasoningEffort.asStr : ReasoningEffort → String
  | .low => "low"
  | .medium => "medium"
  | .high => "high"

structure ProviderReasoning where
  effort : Option String
  budgetTokens : Option UInt32

structure ReasoningSettings where
  effort : Option ReasoningEffort
  budgetTokens : Option UInt32

def ReasoningSettings.default : ReasoningSettings := ⟨none, none⟩

def ReasoningSettings.isEmpty (r : ReasoningSettings) : Bool := !(r.effort.isSome || r.budgetTokens.isSome)

theorem ReasoningSettings.eq_default_of_isEmpty {r : ReasoningSettings} (h : r.isEmpty = true) : r = .default := by
  obtain ⟨effort, budget⟩ := r
  simp only [isEmpty, Bool.not_eq_true', Bool.or_eq_false_iff, Option.isSome_eq_false_iff, Option.isNone_iff_eq_none] at h
  rw [h.1, h.2]
  rfl

inductive McpTransport | stdio | sse | http
  deriving DecidableEq

structure McpServerConfig where
  id : String
  name : String
  transport : McpTransport
  command : String
  url : Option String
  args : List String
  env : Dictionary String
  headers : Dictionary String
  trustAsRead : Bool
  enabled : Bool

structure AgentSettings where
  activeProvider : ProviderKind
  providers : KindMap ProviderConfig
  defaultModel : Option String
  defaultApprovalMode : ApprovalMode
  systemPromptOverride : Option String
  allowPlaintextApiKey : Bool
  mcpServers : List McpServerConfig
  mcpBinaryPath : Option String
  reasoning : ReasoningSettings
  providerReasoning : KindMap ProviderReasoning

structure PersistedSettings where
  settings : AgentSettings
  plaintextCredentials : KindMap String
  configuredProviders : ProviderKind → Bool
  keychainIndexInitialized : Bool

def AgentSettings.default : AgentSettings where
  activeProvider := .openAI
  providers _ := none
  defaultModel := none
  defaultApprovalMode := .approvePerWrite
  systemPromptOverride := none
  allowPlaintextApiKey := false
  mcpServers := []
  mcpBinaryPath := none
  reasoning := .default
  providerReasoning _ := none

def PersistedSettings.default : PersistedSettings := ⟨.default, fun _ => none, fun _ => false, false⟩

/-- The choice of a provider, or the one that was made for all of them. -/
def AgentSettings.effectiveReasoning (s : AgentSettings) (k : ProviderKind) : ProviderReasoning :=
  match s.providerReasoning k with
  | some own => own
  | none => ⟨s.reasoning.effort.map ReasoningEffort.asStr, s.reasoning.budgetTokens⟩

def AgentSettings.isProviderEnabled (s : AgentSettings) (k : ProviderKind) : Bool :=
  ((s.providers k).bind ProviderConfig.enabled).getD k.defaultEnabled

/-! ## The document -/

/-- An unknown provider is read as the default one. -/
def lenientKind : Shape Number ProviderKind where
  write k := .str k.id
  read j := (asStr j).map fun id => (ProviderKind.fromId id).getD .openAI

def lenientKindMap {α : Type} (S : Shape Number α) : Shape Number (KindMap α) := table ProviderKind.id ProviderKind.all S

def lenientKindSet : Shape Number (ProviderKind → Bool) := nameSet ProviderKind.id ProviderKind.all

def approvalMode : Shape Number ApprovalMode := unitVariants modeName [.approvePerWrite, .allowAllWrites]

def reasoningEffort : Shape Number ReasoningEffort := unitVariants ReasoningEffort.asStr [.low, .medium, .high]

def transportName : McpTransport → String
  | .stdio => "stdio"
  | .sse => "sse"
  | .http => "http"

def mcpTransport : Shape Number McpTransport := unitVariants transportName [.stdio, .sse, .http]

def configEntries (c : ProviderConfig) : Fields Number :=
  entryIfSome string "base_url" c.baseUrl ++ entryIfAny string "custom_models" c.customModels ++
    entryIfSome boolean "enabled" c.enabled

def readConfig (fs : Fields Number) : Option ProviderConfig := do
  let baseUrl ← orDefault (option string) "base_url" none fs
  let customModels ← orDefault (list string) "custom_models" [] fs
  let enabled ← orDefault (option boolean) "enabled" none fs
  return ⟨baseUrl, customModels, enabled⟩

def providerConfig : Shape Number ProviderConfig := struct ["base_url", "custom_models", "enabled"] configEntries readConfig

def choiceEntries (r : ProviderReasoning) : Fields Number :=
  entryIfSome string "effort" r.effort ++ entryIfSome uint32 "budget_tokens" r.budgetTokens

def readChoice (fs : Fields Number) : Option ProviderReasoning := do
  let effort ← orDefault (option string) "effort" none fs
  let budgetTokens ← orDefault (option uint32) "budget_tokens" none fs
  return ⟨effort, budgetTokens⟩

def providerReasoning : Shape Number ProviderReasoning := struct ["effort", "budget_tokens"] choiceEntries readChoice

def reasoningEntries (r : ReasoningSettings) : Fields Number :=
  entryIfSome reasoningEffort "effort" r.effort ++ entryIfSome uint32 "budget_tokens" r.budgetTokens

def readReasoning (fs : Fields Number) : Option ReasoningSettings := do
  let effort ← orDefault (option reasoningEffort) "effort" none fs
  let budgetTokens ← orDefault (option uint32) "budget_tokens" none fs
  return ⟨effort, budgetTokens⟩

def reasoningSettings : Shape Number ReasoningSettings := struct ["effort", "budget_tokens"] reasoningEntries readReasoning

def serverEntries (c : McpServerConfig) : Fields Number :=
  [("id", .str c.id), ("name", .str c.name), ("transport", mcpTransport.write c.transport), ("command", .str c.command)] ++
    entryIfSome string "url" c.url ++
    [("args", (list string).write c.args), ("env", (dictionary string).write c.env),
      ("headers", (dictionary string).write c.headers), ("trust_as_read", .bool c.trustAsRead), ("enabled", .bool c.enabled)]

def readServer (fs : Fields Number) : Option McpServerConfig := do
  let id ← required string "id" fs
  let name ← required string "name" fs
  let transport ← orDefault mcpTransport "transport" .stdio fs
  let command ← orDefault string "command" "" fs
  let url ← orDefault (option string) "url" none fs
  let args ← orDefault (list string) "args" [] fs
  let env ← orDefault (dictionary string) "env" ⟨[], List.nodup_nil⟩ fs
  let headers ← orDefault (dictionary string) "headers" ⟨[], List.nodup_nil⟩ fs
  let trustAsRead ← orDefault boolean "trust_as_read" false fs
  let enabled ← orDefault boolean "enabled" true fs
  return ⟨id, name, transport, command, url, args, env, headers, trustAsRead, enabled⟩

def mcpServerConfig : Shape Number McpServerConfig :=
  struct ["id", "name", "transport", "command", "url", "args", "env", "headers", "trust_as_read", "enabled"] serverEntries
    readServer

def settingsEntries (s : AgentSettings) : Fields Number :=
  [("active_provider", lenientKind.write s.activeProvider),
    ("providers", (lenientKindMap providerConfig).write s.providers)] ++
    entryIfSome string "default_model" s.defaultModel ++
    [("default_approval_mode", approvalMode.write s.defaultApprovalMode)] ++
    entryIfSome string "system_prompt_override" s.systemPromptOverride ++
    [("allow_plaintext_api_key", .bool s.allowPlaintextApiKey), ("mcp_servers", (list mcpServerConfig).write s.mcpServers)] ++
    entryIfSome string "mcp_binary_path" s.mcpBinaryPath ++
    entryUnless s.reasoning.isEmpty "reasoning" (reasoningSettings.write s.reasoning) ++
    [("provider_reasoning", (lenientKindMap providerReasoning).write s.providerReasoning)]

def readSettings (fs : Fields Number) : Option AgentSettings := do
  let activeProvider ← orDefault lenientKind "active_provider" .openAI fs
  let providers ← orDefault (lenientKindMap providerConfig) "providers" (fun _ => none) fs
  let defaultModel ← orDefault (option string) "default_model" none fs
  let defaultApprovalMode ← required approvalMode "default_approval_mode" fs
  let systemPromptOverride ← orDefault (option string) "system_prompt_override" none fs
  let allowPlaintextApiKey ← orDefault boolean "allow_plaintext_api_key" false fs
  let mcpServers ← orDefault (list mcpServerConfig) "mcp_servers" [] fs
  let mcpBinaryPath ← orDefault (option string) "mcp_binary_path" none fs
  let reasoning ← orDefault reasoningSettings "reasoning" .default fs
  let choices ← orDefault (lenientKindMap providerReasoning) "provider_reasoning" (fun _ => none) fs
  return ⟨activeProvider, providers, defaultModel, defaultApprovalMode, systemPromptOverride, allowPlaintextApiKey,
    mcpServers, mcpBinaryPath, reasoning, choices⟩

def agentSettings : Shape Number AgentSettings :=
  struct ["active_provider", "providers", "default_model", "default_approval_mode", "system_prompt_override",
    "allow_plaintext_api_key", "mcp_servers", "mcp_binary_path", "reasoning", "provider_reasoning"] settingsEntries
    readSettings

def persistedEntries (p : PersistedSettings) : Fields Number :=
  [("settings", agentSettings.write p.settings),
    ("plaintext_credentials", (lenientKindMap string).write p.plaintextCredentials),
    ("configured_providers", lenientKindSet.write p.configuredProviders),
    ("keychain_index_initialized", .bool p.keychainIndexInitialized)]

def readPersisted (fs : Fields Number) : Option PersistedSettings := do
  let settings ← orDefault agentSettings "settings" .default fs
  let plaintextCredentials ← orDefault (lenientKindMap string) "plaintext_credentials" (fun _ => none) fs
  let configuredProviders ← orDefault lenientKindSet "configured_providers" (fun _ => false) fs
  let keychainIndexInitialized ← orDefault boolean "keychain_index_initialized" false fs
  return ⟨settings, plaintextCredentials, configuredProviders, keychainIndexInitialized⟩

def persistedSettings : Shape Number PersistedSettings :=
  struct ["settings", "plaintext_credentials", "configured_providers", "keychain_index_initialized"] persistedEntries
    readPersisted

/-! ## What is written is read back -/

section Exact

theorem lenientKind_exact (k : ProviderKind) : lenientKind.Exact k := by
  change some ((ProviderKind.fromId k.id).getD .openAI) = some k
  rw [ProviderKind.fromId_id, Option.getD_some]

theorem lenientKindMap_exact {α : Type} {S : Shape Number α} (h : ∀ a, S.Exact a) (m : KindMap α) :
    (lenientKindMap S).Exact m := table_exact ProviderKind.id_injective ProviderKind.mem_all h m

theorem lenientKindSet_exact (m : ProviderKind → Bool) : lenientKindSet.Exact m :=
  nameSet_exact ProviderKind.id_injective ProviderKind.mem_all m

theorem boolean_solid (b : Bool) : (boolean : Shape Number Bool).Exact b ∧ boolean.write b ≠ (.null : Value) :=
  ⟨boolean_exact b, by intro h; cases h⟩

theorem uint32_solid (n : UInt32) : uint32.Exact n ∧ uint32.write n ≠ .null := ⟨uint32_exact n, by intro h; cases h⟩

theorem reasoningEffort_solid (e : ReasoningEffort) : reasoningEffort.Exact e ∧ reasoningEffort.write e ≠ .null :=
  ⟨by cases e <;> rfl, by intro h; cases h⟩

theorem approvalMode_exact (m : ApprovalMode) : approvalMode.Exact m := by
  cases m <;> rfl

theorem mcpTransport_exact (t : McpTransport) : mcpTransport.Exact t := by
  cases t <;> rfl

theorem providerConfig_exact (c : ProviderConfig) : providerConfig.Exact c := by
  have hurl : orDefault (option string) "base_url" none (configEntries c) = some c.baseUrl :=
    orDefault_ifSome string_solid (by simp [configEntries])
  have hmodels : orDefault (list string) "custom_models" [] (configEntries c) = some c.customModels :=
    orDefault_ifAny string_exact (by simp [configEntries])
  have henabled : orDefault (option boolean) "enabled" none (configEntries c) = some c.enabled :=
    orDefault_ifSome boolean_solid (by simp [configEntries])
  change readConfig (configEntries c) = some c
  rw [readConfig, hurl, hmodels, henabled]
  rfl

theorem providerReasoning_exact (r : ProviderReasoning) : providerReasoning.Exact r := by
  have heffort : orDefault (option string) "effort" none (choiceEntries r) = some r.effort :=
    orDefault_ifSome string_solid (by simp [choiceEntries])
  have hbudget : orDefault (option uint32) "budget_tokens" none (choiceEntries r) = some r.budgetTokens :=
    orDefault_ifSome uint32_solid (by simp [choiceEntries])
  change readChoice (choiceEntries r) = some r
  rw [readChoice, heffort, hbudget]
  rfl

theorem reasoningSettings_exact (r : ReasoningSettings) : reasoningSettings.Exact r := by
  have heffort : orDefault (option reasoningEffort) "effort" none (reasoningEntries r) = some r.effort :=
    orDefault_ifSome reasoningEffort_solid (by simp [reasoningEntries])
  have hbudget : orDefault (option uint32) "budget_tokens" none (reasoningEntries r) = some r.budgetTokens :=
    orDefault_ifSome uint32_solid (by simp [reasoningEntries])
  change readReasoning (reasoningEntries r) = some r
  rw [readReasoning, heffort, hbudget]
  rfl

theorem mcpServerConfig_exact (c : McpServerConfig) : mcpServerConfig.Exact c := by
  have htransport : orDefault mcpTransport "transport" .stdio (serverEntries c) = some c.transport :=
    orDefault_of_find (by simp [serverEntries, find_cons]) (mcpTransport_exact c.transport)
  have hcommand : orDefault string "command" "" (serverEntries c) = some c.command :=
    orDefault_of_find (by simp [serverEntries, find_cons, string]) (string_exact c.command)
  have hurl : orDefault (option string) "url" none (serverEntries c) = some c.url :=
    orDefault_ifSome string_solid (by simp [serverEntries, find_cons])
  have hargs : orDefault (list string) "args" [] (serverEntries c) = some c.args :=
    orDefault_of_find (by simp [serverEntries, find_cons]) (list_exact fun s _ => string_exact s)
  have henv : orDefault (dictionary string) "env" ⟨[], List.nodup_nil⟩ (serverEntries c) = some c.env :=
    orDefault_of_find (by simp [serverEntries, find_cons]) (dictionary_exact string_exact c.env)
  have hheaders : orDefault (dictionary string) "headers" ⟨[], List.nodup_nil⟩ (serverEntries c) = some c.headers :=
    orDefault_of_find (by simp [serverEntries, find_cons]) (dictionary_exact string_exact c.headers)
  have htrust : orDefault boolean "trust_as_read" false (serverEntries c) = some c.trustAsRead :=
    orDefault_of_find (by simp [serverEntries, find_cons, boolean]) (boolean_exact c.trustAsRead)
  have henabled : orDefault boolean "enabled" true (serverEntries c) = some c.enabled :=
    orDefault_of_find (by simp [serverEntries, find_cons, boolean]) (boolean_exact c.enabled)
  have hid : required string "id" (serverEntries c) = some c.id := rfl
  have hname : required string "name" (serverEntries c) = some c.name := rfl
  change readServer (serverEntries c) = some c
  rw [readServer, hid, hname, htransport, hcommand, hurl, hargs, henv, hheaders, htrust, henabled]
  rfl

theorem agentSettings_exact (s : AgentSettings) : agentSettings.Exact s := by
  have hactive : orDefault lenientKind "active_provider" .openAI (settingsEntries s) = some s.activeProvider :=
    orDefault_of_find (by simp [settingsEntries, find_cons]) (lenientKind_exact s.activeProvider)
  have hproviders : orDefault (lenientKindMap providerConfig) "providers" (fun _ => none) (settingsEntries s) =
      some s.providers :=
    orDefault_of_find (by simp [settingsEntries, find_cons]) (lenientKindMap_exact providerConfig_exact s.providers)
  have hmodel : orDefault (option string) "default_model" none (settingsEntries s) = some s.defaultModel :=
    orDefault_ifSome string_solid (by simp [settingsEntries, find_cons])
  have hmode : required approvalMode "default_approval_mode" (settingsEntries s) = some s.defaultApprovalMode :=
    required_of_find (by simp [settingsEntries, find_cons]) (approvalMode_exact s.defaultApprovalMode)
  have hprompt : orDefault (option string) "system_prompt_override" none (settingsEntries s) =
      some s.systemPromptOverride := orDefault_ifSome string_solid (by simp [settingsEntries, find_cons])
  have hplaintext : orDefault boolean "allow_plaintext_api_key" false (settingsEntries s) = some s.allowPlaintextApiKey :=
    orDefault_of_find (by simp [settingsEntries, find_cons, boolean]) (boolean_exact s.allowPlaintextApiKey)
  have hservers : orDefault (list mcpServerConfig) "mcp_servers" [] (settingsEntries s) = some s.mcpServers :=
    orDefault_of_find (by simp [settingsEntries, find_cons]) (list_exact fun c _ => mcpServerConfig_exact c)
  have hpath : orDefault (option string) "mcp_binary_path" none (settingsEntries s) = some s.mcpBinaryPath :=
    orDefault_ifSome string_solid (by simp [settingsEntries, find_cons])
  have hreasoning : orDefault reasoningSettings "reasoning" .default (settingsEntries s) = some s.reasoning :=
    orDefault_unless (reasoningSettings_exact s.reasoning) ReasoningSettings.eq_default_of_isEmpty
      (by simp [settingsEntries, find_cons])
  have hchoices : orDefault (lenientKindMap providerReasoning) "provider_reasoning" (fun _ => none) (settingsEntries s) =
      some s.providerReasoning :=
    orDefault_of_find (by simp [settingsEntries, find_cons])
      (lenientKindMap_exact providerReasoning_exact s.providerReasoning)
  change readSettings (settingsEntries s) = some s
  rw [readSettings, hactive, hproviders, hmodel, hmode, hprompt, hplaintext, hservers, hpath, hreasoning, hchoices]
  rfl

/-- Settings that are saved are read back as they were. -/
theorem persistedSettings_exact (p : PersistedSettings) : persistedSettings.Exact p := by
  have hsettings : orDefault agentSettings "settings" .default (persistedEntries p) = some p.settings :=
    orDefault_of_find rfl (agentSettings_exact p.settings)
  have hplaintext : orDefault (lenientKindMap string) "plaintext_credentials" (fun _ => none) (persistedEntries p) =
      some p.plaintextCredentials :=
    orDefault_of_find rfl (lenientKindMap_exact string_exact p.plaintextCredentials)
  have hconfigured : orDefault lenientKindSet "configured_providers" (fun _ => false) (persistedEntries p) =
      some p.configuredProviders := orDefault_of_find rfl (lenientKindSet_exact p.configuredProviders)
  have hindex : orDefault boolean "keychain_index_initialized" false (persistedEntries p) =
      some p.keychainIndexInitialized := orDefault_of_find rfl (boolean_exact p.keychainIndexInitialized)
  change readPersisted (persistedEntries p) = some p
  rw [readPersisted, hsettings, hplaintext, hconfigured, hindex]
  rfl

end Exact

end FerrisScope.AgentSettings
