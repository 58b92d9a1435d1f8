/-
The flat port's own half of the protocol core (`wireguard.c`).

What one step of the port reads from the platform is its environment: the clock, the
random bytes and the timestamp each peer's handshake would draw, whether each datagram
handed to the socket is taken, and what the network stack answers.  Drawing an index
repeats until an index is free, so it is a recursion over the values drawn; a step whose
draws run out has not come to an end, and there is no such step.
-/
import NuttxWireguard.Noise

namespace NuttxWireguard.Flat

open Lib

/-- What one step reads from the platform. -/
structure Env (cfg : Config) where
  /-- Milliseconds since boot, read once in a step. -/
  time : Nat
  /-- `wireguard_tai64n_now`, when building an initiation to a peer. -/
  timestamp : Fin cfg.maxPeers → Bytes 12
  /-- `wireguard_random_bytes`, when generating a peer's ephemeral key. -/
  ephemeral : Fin cfg.maxPeers → Key
  /-- `wireguard_random_bytes`, when drawing an index for a peer. -/
  draws : Fin cfg.maxPeers → List (Bytes 4)
  /-- `wireguard_random_bytes`, for a cookie reply's nonce. -/
  cookieNonce : Bytes 24
  /-- `wireguard_random_bytes`, for a new cookie secret. -/
  cookieSecret : Key
  /-- Whether the `k`-th datagram handed to `psock_sendto` is taken. -/
  sendto : Nat → Bool
  /-- `netdev_iob_prepare` succeeds. -/
  iobPrepare : Bool
  /-- `iob_trycopyin` succeeds. -/
  iobCopyin : Bool
  /-- What `ipv4_input` leaves in the device buffer; nothing if there is no reply. -/
  ipv4Input : List Byte → List Byte

variable {cfg : Config} (c : Crypto)

/-- `wireguard_sys_now`. -/
def Env.now (env : Env cfg) : U32 := sysNow env.time

/-- `wireguard_generate_unique_index`.  The loop over the peers overwrites `existing` each
time round, so what it ends with is the answer for the last peer. -/
def wireguardGenerateUniqueIndex (d : Device cfg) : List (Bytes 4) → Option U32
  | [] => none
  | buf :: draws =>
    let result := readLe 32 buf.toList
    if result = 0 ∨ result = 0xFFFFFFFF then wireguardGenerateUniqueIndex d draws
    else
      let existing := (List.finRange cfg.maxPeers).foldl
        (fun _ x =>
          let p := d.peers x
          decide (result = p.currKeypair.localIndex) ||
            decide (result = p.prevKeypair.localIndex) ||
            decide (result = p.nextKeypair.localIndex) ||
            decide (result = p.handshake.localIndex))
        false
      if existing then wireguardGenerateUniqueIndex d draws else some result

/-- `wireguard_start_session`; the handshake keeps its role. -/
def wireguardStartSession (now : U32) (sid born : Nat) (p : Peer cfg) (initiator : Bool) :
    Peer cfg :=
  let kp := sessionKeypair c now sid born p.handshake initiator
  addKeypair { p with handshake := { Handshake.zero with initiator := p.handshake.initiator } } kp

/-- `wireguard_process_initiation_message`: the peer, if the message is accepted.  The
second comparison guards the copy of the timestamp. -/
def wireguardProcessInitiationMessage (now : U32) (d : Device cfg) (msg : MsgInit) :
    Option (Device cfg × Fin cfg.maxPeers) := do
  let o ← openInit c d msg
  let p := d.peers o.peer
  let replay := timestampReplayed p o.timestamp
  let rateLimit := rateLimited now p
  if ¬replay ∧ ¬rateLimit then
    let timestamp :=
      if memcmp o.timestamp.toList p.greatestTimestamp.toList > 0 then o.timestamp
      else p.greatestTimestamp
    some (d.setPeer o.peer { acceptInit now p msg o with greatestTimestamp := timestamp }, o.peer)
  else none

/-- `wireguard_create_handshake_initiation`. -/
def wireguardCreateHandshakeInitiation (env : Env cfg) (d : Device cfg)
    (x : Fin cfg.maxPeers) : Option (Device cfg × Option MsgInit) :=
  let p := d.peers x
  let hs := { p.handshake with
    chainingKey := c.constructionHash
    hash := c.mixHash c.identifierHash p.publicKey.toList
    ephemeralPrivate := Crypto.clamp (env.ephemeral x) }
  match c.generatePublicKey hs.ephemeralPrivate with
  | none => some (d.setPeer x { p with handshake := hs }, none)
  | some ephemeral =>
    match initiate c d p hs ephemeral (env.timestamp x) with
    | (hs, none) => some (d.setPeer x { p with handshake := hs }, none)
    | (hs, some enc) =>
      match wireguardGenerateUniqueIndex d (env.draws x) with
      | none => none
      | some sender =>
        let hs := { hs with valid := true, initiator := true, localIndex := sender }
        some (d.setPeer x { p with handshake := hs },
          some (signInit c env.now p sender ephemeral enc))

/-- `wireguard_create_handshake_response`. -/
def wireguardCreateHandshakeResponse (env : Env cfg) (d : Device cfg)
    (x : Fin cfg.maxPeers) : Option (Device cfg × Option MsgResponse) :=
  let p := d.peers x
  if ¬(p.handshake.valid ∧ ¬p.handshake.initiator) then some (d, none)
  else
    let hs := { p.handshake with ephemeralPrivate := Crypto.clamp (env.ephemeral x) }
    match c.generatePublicKey hs.ephemeralPrivate with
    | none => some (d.setPeer x { p with handshake := hs }, none)
    | some ephemeral =>
      match respond c p hs ephemeral with
      | (hs, none) => some (d.setPeer x { p with handshake := hs }, none)
      | (hs, some encEmpty) =>
        match wireguardGenerateUniqueIndex d (env.draws x) with
        | none => none
        | some sender =>
          let hs := { hs with localIndex := sender }
          some (d.setPeer x { p with handshake := hs },
            some (signResponse c env.now p sender hs.remoteIndex ephemeral encEmpty))

/-- `wireguard_create_cookie_reply`. -/
def wireguardCreateCookieReply (env : Env cfg) (d : Device cfg) (mac1 : Bytes 16) (index : U32)
    (source : List Byte) : Device cfg × MsgCookie :=
  let (d, cookie) := peerCookie c env.now env.cookieSecret d source
  (d, { receiver := index
        nonce := env.cookieNonce
        encCookie := slice (c.xaeadEncrypt cookie.toList mac1.toList env.cookieNonce
          d.labelCookieKey) 0 32 })

/-- `wireguard_peer_init`: the record it leaves, valid if it succeeded. -/
def wireguardPeerInit (d : Device cfg) (publicKey : Key) (presharedKey : Option Key) :
    Peer cfg :=
  if ¬d.valid then Peer.zero
  else
    let p := { Peer.zero with
      publicKey := publicKey
      presharedKey := presharedKey.getD (Bytes.zero 32) }
    match c.dh d.privateKey p.publicKey with
    | none => p
    | some dh => { p with
        publicKeyDh := dh
        labelMac1Key := c.macKey p.publicKey Crypto.labelMac1
        labelCookieKey := c.macKey p.publicKey Crypto.labelCookie
        valid := true }

/-- `wireguard_device_init`, on a cleared device.  The public key is derived from the key
as given; X25519 clamps its scalar itself. -/
def wireguardDeviceInit (env : Env cfg) (privateKey : Key) : Option (Device cfg) :=
  match c.generatePublicKey privateKey with
  | none => none
  | some publicKey => some { Device.zero with
      privateKey := Crypto.clamp privateKey
      publicKey := publicKey
      valid := true
      cookieSecret := env.cookieSecret
      cookieSecretMillis := env.now
      labelMac1Key := c.macKey publicKey Crypto.labelMac1
      labelCookieKey := c.macKey publicKey Crypto.labelCookie }

end NuttxWireguard.Flat
