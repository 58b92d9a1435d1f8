/-
What a driver is seen to do.

The results about runs speak of sessions started, packets encrypted and opened, messages
accepted.  None of this is kept by the code, so each driver's state carries a log of
it beside the code's own fields, newest entry first.  No function reads the log.
-/
import NuttxWireguard.Noise

namespace NuttxWireguard

open Lib

/-- One observable action towards one of `n` peers. -/
inductive Obs (n : Nat)
  /-- A session was derived, with its sending key. -/
  | started (x : Fin n) (sid : Nat) (initiator : Bool) (key : Key) (time : Nat)
  /-- A transport packet was encrypted. -/
  | encrypted (x : Fin n) (sid : Nat) (initiator : Bool) (key : Key) (counter : U64) (time : Nat)
  /-- A transport datagram authenticated; `fresh` is the replay window's verdict. -/
  | opened (x : Fin n) (sid : Nat) (counter : U64) (fresh : Bool) (time : Nat)
  /-- A handshake initiation was sent. -/
  | initiation (x : Fin n) (ip : U32) (port : U16) (time : Nat)
  /-- A handshake initiation was accepted. -/
  | initAccepted (x : Fin n) (timestamp : Bytes 12)
  /-- A handshake response was accepted. -/
  | responseAccepted (x : Fin n)
  /-- A cookie reply was accepted. -/
  | cookieAccepted (x : Fin n)
  /-- A decrypted packet was handed to the network stack. -/
  | injected (x : Fin n) (packet : List Byte)
  deriving DecidableEq

/-- Whom the authenticated datagram came from that an entry says was accepted, if it does. -/
def Obs.authenticatedFrom {n : Nat} : Obs n → Option (Fin n)
  | .opened x _ _ true _ => some x
  | .initAccepted x _ => some x
  | .responseAccepted x => some x
  | _ => none

end NuttxWireguard
