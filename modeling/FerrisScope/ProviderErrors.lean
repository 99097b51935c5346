import FerrisScope.ApprovalGate
import FerrisScope.HostsFile

/-!
# Errors of a provider

What a provider call can fail with, how the turn loop sorts the failures, and the redaction of
secrets from a text that is kept. A usage limit ends the turn, an overflow is answered by a
compaction, a transient failure by another try, and everything else ends the turn. The sorting reads
the text as the provider sent it, also the parts that the redaction takes out.
-/

namespace FerrisScope.ProviderErrors
open HostsFile (Text)
open ApprovalGate (containsText)

inductive ProviderError where
  | http (status : Option UInt16) (body : Text)
  | auth (text : Text)
  | invalidResponse (text : Text)
  | cancelled
  | io (text : Text)
  | decode (text : Text)
  deriving DecidableEq

def decimal (n : UInt16) : Text := Nat.toDigits 10 n.toNat

/-- The text of an error. -/
def display : ProviderError → Text
  | .http none body => "http error: ".toList ++ body
  | .http (some status) body => "http error ".toList ++ decimal status ++ ": ".toList ++ body
  | .auth text => "auth error: ".toList ++ text
  | .invalidResponse text => "provider returned an invalid response: ".toList ++ text
  | .cancelled => "operation cancelled".toList
  | .io text => "io: ".toList ++ text
  | .decode text => "decode: ".toList ++ text

def toAsciiLowercase (t : Text) : Text := t.map Char.toLower

def containsAny (t : Text) (markers : List String) : Bool := markers.any fun m => containsText t m.toList

def rateLimitCodes : List String :=
  ["rate_limit_exceeded", "rate_limit_reached_error", "server_is_overloaded", "engine_overloaded",
    "rate_limit_error", "overloaded_error"]

def resetPhrases : List String :=
  ["upstream connect error", "disconnect/reset before headers", "connection reset", "connection refused",
    "no healthy upstream"]

/-- The reason to try again. A status decides alone; without one the text does. -/
def isTransientError : ProviderError → Option Text
  | .auth _ => none
  | .http (some code) _ =>
    if code = 429 then some "rate limited".toList
    else if 500 ≤ code then some ("upstream ".toList ++ decimal code)
    else none
  | e =>
    let s := toAsciiLowercase (display e)
    if containsAny s rateLimitCodes then some "rate limited".toList
    else if containsAny s resetPhrases then some "upstream connection reset".toList
    else if containsAny s ["timed out", "operation timeout"] then some "request timeout".toList
    else none

def codeMarkers : List String :=
  ["insufficient_quota", "billing_hard_limit_reached", "usage_not_included", "freeusagelimiterror",
    "gousagelimiterror", "exceeded_current_quota", "tpd limit reached", "billing_error"]

def proseMarkers : List String :=
  ["usage limit", "credit balance", "quota is insufficient", "balance is insufficient", "quota exceeded",
    "exceeded your current quota", "exceed your quota", "spend limit", "billing"]

def limitOfStatus (code : UInt16) : Text :=
  if code = 429 then "usage limit / quota exhausted (HTTP 429)".toList
  else if code = 403 then "access denied — quota or plan restriction (HTTP 403)".toList
  else "account limit reached (HTTP ".toList ++ decimal code ++ ")".toList

/-- The label of a usage limit, if the error is one. -/
def classifyUsageLimit : ProviderError → Option Text
  | .http status body =>
    let code := status.getD 0
    let lower := toAsciiLowercase body
    let perMinute := containsText lower "perminute".toList && !containsText lower "perday".toList
    if code = 402 then some "billing / payment required (HTTP 402)".toList
    else if containsAny lower codeMarkers then
      some (if code = 0 then "account limit reached (usage quota exhausted)".toList else limitOfStatus code)
    else if !perMinute && 400 ≤ code && code < 500 && containsAny lower proseMarkers then some (limitOfStatus code)
    else none
  | _ => none

def overflowMarkers : List String :=
  ["no tool output found for function call", "context_length_exceeded", "context length", "context window",
    "maximum context", "exceeds the maximum", "input is too long", "input too large", "prompt is too long",
    "exceed the model", "token limit", "tokens exceed"]

def isContextOverflowError : ProviderError → Bool
  | .http _ body => containsAny (toAsciiLowercase body) overflowMarkers
  | e => containsAny (toAsciiLowercase (display e)) overflowMarkers

/-- What the turn loop makes of a failed call. -/
inductive FailureClass where
  | cancelled
  | usageLimited (reason : Text)
  | overflow
  | transient
  | other
  deriving DecidableEq

/-- The checks in their order. -/
def classOf (e : ProviderError) : FailureClass :=
  if e = .cancelled then .cancelled
  else match classifyUsageLimit e with
  | some reason => .usageLimited reason
  | none =>
    if isContextOverflowError e then .overflow
    else if (isTransientError e).isSome then .transient
    else .other

def redacted : Text := "<redacted>".toList

def keyPrefixes : List String := ["sk-ant-", "sk-", "aiza", "ghp_", "gho_", "xoxb-", "xoxp-"]

def valueTriggers : List String :=
  ["bearer ", "authorization=", "access_token=", "refresh_token=", "api_key=", "api-key=", "apikey=", "token=",
    "secret=", "password=", "key="]

def isSecretChar (c : Char) : Bool := c.isAlphanum || ['-', '_', '.', '+', '/', '=', '~'].contains c

def isWordChar (c : Char) : Bool := c.isAlphanum || ['_', '-'].contains c

/-- What is written for a trigger and the value behind it, and how long both are. -/
def valueAt (t : Text) (trigger : String) : Option (Text × Nat) :=
  let n := trigger.length
  if trigger.toList.isPrefixOf (toAsciiLowercase t) then
    let value := (t.drop n).takeWhile isSecretChar
    some (t.take n ++ (if value = [] then [] else redacted), n + value.length)
  else none

/-- The same for a token that starts like a key and goes on for eight characters or more. -/
def keyAt (t : Text) (start : String) : Option (Text × Nat) :=
  let n := start.length
  let token := (t.drop n).takeWhile isSecretChar
  if start.toList.isPrefixOf (toAsciiLowercase t) && 8 ≤ token.length then some (redacted, n + token.length) else none

def secretAt (t : Text) : Option (Text × Nat) :=
  (valueTriggers.findSome? (valueAt t)).or (keyPrefixes.findSome? (keyAt t))

/-- The rest of a text: whether a word can start here, and how many characters have been dealt with. -/
def redactFrom (boundary : Bool) (skip : Nat) : Text → Text
  | [] => []
  | c :: rest =>
    match skip, if boundary then secretAt (c :: rest) else none with
    | skip + 1, _ => redactFrom (!isWordChar c) skip rest
    | 0, some (shown, n) => shown ++ redactFrom (!isWordChar c) (n - 1) rest
    | 0, none => c :: redactFrom (!isWordChar c) 0 rest

def redactSecrets (input : Text) : Text := redactFrom true 0 input

example : redactSecrets "Authorization=Bearer abc, task-force sk-ant-0123456789".toList =
    "Authorization=<redacted> abc, task-force <redacted>".toList := by decide +kernel

end FerrisScope.ProviderErrors
