import FerrisScope.HostsFile
import FerrisScope.LabelledRuns

/-!
# The privileged helper

The helper accepts connections until one sends a valid handshake, serves the requests of that one
and exits. Every request is checked again before anything is done: addresses must be loopback
addresses, names must be valid hostnames. When it exits it removes its aliases and strips its
block from the hosts file, also when nobody ever authenticated.

A step reads one message from a byte stream that is fixed when the connection is made. What the
system answers to the helper's own calls is part of the action.
-/

namespace FerrisScope.HelperServer
open LabelledRuns LengthFrames LoopbackAddresses HostNames HelperProtocol HostsFile

/-- JSON, and the debug form of a string. -/
structure Parsing where
  handshake : List UInt8 → Option Handshake
  request : List UInt8 → Option Request
  debugText : String → String

/-- The outcomes of the system calls made for one message; `none` is success. -/
structure Env where
  aliasError : Option String
  backupError : Option String
  readError : Option String
  writeError : Option String
  binds : Bool
  replied : Bool
  deriving DecidableEq, Repr

inductive Platform where
  | unix
  | windows
  deriving DecidableEq, Repr

inductive Outcome where
  | continues
  | shutdown
  deriving DecidableEq, Repr

inductive Session where
  | listening
  | handshaking (stream : List UInt8)
  | serving (stream : List UInt8)
  | exited
  deriving DecidableEq, Repr

/-- What the helper did with its privilege. -/
inductive Event where
  | authenticated (handshake : Handshake)
  | aliased (ip : Ipv4Addr)
  | unaliased (ip : Ipv4Addr)
  | bound (ip : Ipv4Addr) (port : UInt16)
  | applied (entries : List HostEntry) (before after : Text)
  | stripped (before after : Text)
  deriving DecidableEq, Repr

structure State where
  platform : Platform
  token : String
  hosts : Option Text
  backup : Option Text
  aliases : List Ipv4Addr
  session : Session
  events : List Event
  deriving DecidableEq, Repr

def start (platform : Platform) (token : String) (hosts backup : Option Text) : State where
  platform := platform
  token := token
  hosts := hosts
  backup := backup
  aliases := []
  session := .listening
  events := []

/-- A missing file reads as empty. -/
def content (s : State) : Text := s.hosts.getD []

def backupOnce (env : Env) (s : State) : Except String State :=
  match s.backup, env.readError, s.hosts with
  | none, none, some original =>
    match env.backupError with
    | none => .ok { s with backup := some original }
    | some e => .error e
  | _, _, _ => .ok s

def writeApplied (s : State) (entries : List HostEntry) : State := { s with
  hosts := some (upsertBlock (content s) entries)
  events := s.events ++ [.applied entries (content s) (upsertBlock (content s) entries)] }

def writeStripped (s : State) : State := { s with
  hosts := some (stripBlock (content s))
  events := s.events ++ [.stripped (content s) (stripBlock (content s))] }

def apply (env : Env) (s : State) (entries : List HostEntry) : Option String × State :=
  match backupOnce env s with
  | .error e => (some e, s)
  | .ok s =>
    match env.readError, env.writeError with
    | some e, _ => (some e, s)
    | none, some e => (some e, s)
    | none, none => (none, writeApplied s entries)

/-- Strip the block if there is one. -/
def strip (env : Env) (s : State) : Option String × State :=
  if hasBlock (content s) then
    match env.writeError with
    | some e => (some e, s)
    | none => (none, writeStripped s)
  else (none, s)

def remove (env : Env) (s : State) : Option String × State :=
  match env.readError with
  | some e => (some e, s)
  | none => strip env s

def purgeStale (env : Env) (s : State) : Except String (List Ipv4Addr) × State :=
  match env.readError with
  | some e => (.error e, s)
  | none =>
    match strip env s with
    | (some e, s') => (.error e, s')
    | (none, s') => (.ok (blockIps (content s)), s')

def dropAlias (s : State) (ip : Ipv4Addr) : State := { s with
  aliases := s.aliases.filter (· ≠ ip)
  events := s.events ++ [.unaliased ip] }

def addAlias (s : State) (ip : Ipv4Addr) : State := { s with
  aliases := s.aliases.insert ip
  events := s.events ++ [.aliased ip] }

/-- The aliases are dropped in some order. -/
def teardown (env : Env) (s : State) : State := (remove env (s.aliases.foldl dropAlias s)).2

/-- Why a set of entries is refused. -/
def rejection (P : Parsing) : List HostEntry → Option String
  | [] => none
  | e :: entries =>
    if ¬isLoopbackV4 e.ip then some ("non-loopback ip " ++ String.ofList (ipText e.ip))
    else
      match e.hostnames.find? fun h => !isValidHostname h with
      | some h => some ("invalid hostname " ++ P.debugText h)
      | none => rejection P entries

/-- A response for a call that succeeds or fails with a message. -/
def reply : Option String → Response
  | none => .ok
  | some e => .error e

def handle (P : Parsing) (env : Env) (s : State) : Request → Response × Outcome × State
  | .ping => (.pong, .continues, s)
  | .addLoopback ip =>
    if ¬isLoopbackV4 ip then (.error (String.ofList (ipText ip) ++ " is not a loopback address"), .continues, s)
    else
      match env.aliasError with
      | none => (.ok, .continues, addAlias s ip)
      | some e => (.error e, .continues, s)
  | .delLoopback ip => (.ok, .continues, dropAlias s ip)
  | .hostsApply entries =>
    match rejection P entries with
    | some message => (.error message, .continues, s)
    | none => (reply (apply env s entries).1, .continues, (apply env s entries).2)
  | .hostsRemove => (reply (remove env s).1, .continues, (remove env s).2)
  | .purgeStale =>
    match purgeStale env s with
    | (.ok ips, s') => (.purged ips, .continues, ips.foldl dropAlias s')
    | (.error e, s') => (.error e, .continues, s')
  | .shutdown => (.ok, .shutdown, teardown env s)
  | .bindListener _ _ => (.error "bind_listener must be handled inline", .continues, s)

/-- Only Unix passes descriptors. -/
def handleBindListener (env : Env) (s : State) (ip : Ipv4Addr) (port : UInt16) : State :=
  if s.platform = .unix ∧ isLoopbackV4 ip ∧ env.binds then { s with events := s.events ++ [.bound ip port] } else s

inductive Message (α : Type) where
  | eof
  | failed
  | message (m : α) (rest : List UInt8)
  deriving DecidableEq, Repr

def readMessage {α : Type} (decode : List UInt8 → Option α) (stream : List UInt8) : Message α :=
  match readFrame maxFrame stream with
  | .more => if stream.length < 4 then .eof else .failed
  | .tooLarge _ => .failed
  | .payload bytes rest =>
    match decode bytes with
    | some m => .message m rest
    | none => .failed

/-- Tear down and exit. -/
def finish (last : Env) (s : State) : State := { teardown last s with session := .exited }

/-- On Unix a stray connection is ignored; on Windows there is only one. -/
def reject (last : Env) (s : State) : State :=
  match s.platform with
  | .unix => { s with session := .listening }
  | .windows => finish last s

def authenticate (s : State) (h : Handshake) (rest : List UInt8) : State := { s with
  session := .serving rest
  events := s.events ++ [.authenticated h] }

def greet (P : Parsing) (env last : Env) (s : State) (stream : List UInt8) : State :=
  match readMessage P.handshake stream with
  | .message h rest =>
    if h.version ≠ protocolVersion ∨ h.token ≠ s.token then reject last s
    else if env.replied then authenticate s h rest
    else reject last s
  | .eof => reject last s
  | .failed => reject last s

def serveRequest (P : Parsing) (env last : Env) (s : State) (req : Request) (rest : List UInt8) : State :=
  match req with
  | .bindListener ip port => { handleBindListener env s ip port with session := .serving rest }
  | req =>
    let (_, outcome, s') := handle P env s req
    if env.replied = false ∨ outcome = .shutdown then finish last s' else { s' with session := .serving rest }

def serve (P : Parsing) (env last : Env) (s : State) (stream : List UInt8) : State :=
  match readMessage P.request stream with
  | .message req rest => serveRequest P env last s req rest
  | .eof => finish last s
  | .failed => finish last s

inductive Action where
  | accept (stream : List UInt8)
  | advance (env last : Env)
  | expire (last : Env)
  | acceptFails
  deriving DecidableEq, Repr

def step (P : Parsing) (s : State) : Action → Option State
  | .accept stream => if s.session = .listening then some { s with session := .handshaking stream } else none
  | .advance env last =>
    match s.session with
    | .handshaking stream => some (greet P env last s stream)
    | .serving stream => some (serve P env last s stream)
    | _ => none
  | .expire last =>
    if s.session = .listening then
      match s.platform with
      | .unix => some (finish last s)
      | .windows => some { s with session := .exited }
    else none
  | .acceptFails => if s.session = .listening then some { s with session := .exited } else none

end FerrisScope.HelperServer
