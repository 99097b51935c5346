import FerrisScope.LengthFrames
import FerrisScope.LoopbackAddresses

/-!
# Messages between the app and the privileged helper

A closed set of requests and responses, each in a frame of its JSON text. JSON itself is a
parameter. The reply to `bindListener` is not a frame but one status byte, with the listening
socket attached on success.
-/

namespace FerrisScope.HelperProtocol
open LengthFrames LoopbackAddresses

def maxFrame : Nat := 1024 * 1024

structure Handshake where
  token : String
  version : Nat
  deriving DecidableEq, Repr

def protocolVersion : Nat := 1

structure HostEntry where
  ip : Ipv4Addr
  hostnames : List String
  deriving DecidableEq, Repr

inductive Request where
  | ping
  | addLoopback (ip : Ipv4Addr)
  | delLoopback (ip : Ipv4Addr)
  | bindListener (ip : Ipv4Addr) (port : UInt16)
  | hostsApply (entries : List HostEntry)
  | hostsRemove
  | purgeStale
  | shutdown
  deriving DecidableEq, Repr

inductive Response where
  | ok
  | pong
  | purged (ips : List Ipv4Addr)
  | error (message : String)
  deriving DecidableEq, Repr

/-- Whether the reply is a status byte. -/
def Request.isBind : Request → Bool
  | .bindListener _ _ => true
  | _ => false

def statusOk : UInt8 := 1

def statusErr : UInt8 := 0

/-- The bytes of a text of single-byte characters. -/
def ascii (text : String) : List UInt8 := text.toList.map fun c => UInt8.ofNat c.toNat

end FerrisScope.HelperProtocol
