/-
The in-kernel driver's own half of the protocol core (`wg_noise.c`).

Where the flat port carries on, the driver may fail: a timestamp or random bytes may not
be there.  The environment of a step says which, and what a failed read left in the
buffer.  A started session wipes the whole handshake record, and an index is checked
against every peer.

A loop that draws random indices is a recursion over the values drawn, as in the flat
port; a step whose draws run out has not come to an end.
-/
import NuttxWireguard.Noise

namespace NuttxWireguard.Kernel

open Lib

/-- The error codes the driver returns. -/
inductive Errno
  | enoent
  | eagain
  | enomem
  | ebusy
  | eexist
  | einval
  | enospc
  | emsgsize
  | etimedout
  | enokey
  /-- Passed on from the socket layer or the scheduler. -/
  | other (code : Nat)
  deriving DecidableEq

/-- What one step reads from the platform. -/
structure Env (cfg : Config) where
  /-- Milliseconds since boot, read once in a step. -/
  time : Nat
  /-- `wg_tai64n`, when building an initiation to a peer. -/
  tai64n : Fin cfg.maxPeers → Option (Bytes 12)
  /-- `wg_random`, when generating a peer's ephemeral key: whether it filled the buffer, and
  what the buffer holds. -/
  ephemeral : Fin cfg.maxPeers → Bool × Key
  /-- `wg_random`, when drawing an index for a peer. -/
  draws : Fin cfg.maxPeers → List (Bytes 4)
  /-- `wg_random`, for a cookie reply's nonce. -/
  cookieNonce : Option (Bytes 24)
  /-- What `wg_random` leaves in the cookie secret; the result is not looked at. -/
  cookieSecret : Key
  /-- Whether the `k`-th `kmm_malloc` of a datagram succeeds. -/
  malloc : Nat → Bool
  /-- `netpkt_alloc` succeeds. -/
  netpktAlloc : Bool
  /-- `netpkt_copyin` succeeds. -/
  netpktCopyin : Bool
  /-- `netpkt_tryadd_queue` succeeds. -/
  netpktTryadd : Bool
  /-- `kmm_malloc` of the peers' snapshot succeeds. -/
  savedMalloc : Bool
  /-- `psock_socket` and `psock_bind`: the error, if there is one. -/
  psockSocket : Option Errno
  psockBind : Option Errno
  /-- `kthread_create`: a process id, which is not zero. -/
  kthreadCreate : Except Errno { pid : Nat // pid ≠ 0 }

variable {cfg : Config} (c : Crypto)

/-- `wg_now`. -/
def Env.now (env : Env cfg) : U32 := sysNow env.time

/-- `wg_unique_index`. -/
def wgUniqueIndex (d : Device cfg) : List (Bytes 4) → Option U32
  | [] => none
  | buf :: draws =>
    let result := readLe 32 buf.toList
    if result = 0 ∨ result = 0xFFFFFFFF then wgUniqueIndex d draws
    else
      let existing := (List.finRange cfg.maxPeers).any fun x =>
        let p := d.peers x
        decide (result = p.currKeypair.localIndex) ||
          decide (result = p.prevKeypair.localIndex) ||
          decide (result = p.nextKeypair.localIndex) ||
          decide (result = p.handshake.localIndex)
      if existing then wgUniqueIndex d draws else some result

/-- `wg_start_session`. -/
def wgStartSession (now : U32) (sid born : Nat) (p : Peer cfg) (initiator : Bool) : Peer cfg :=
  let kp := sessionKeypair c now sid born p.handshake initiator
  addKeypair { p with handshake := Handshake.zero } kp

/-- `wg_process_init`: the peer, if the message is accepted. -/
def wgProcessInit (now : U32) (d : Device cfg) (msg : MsgInit) :
    Option (Device cfg × Fin cfg.maxPeers) := do
  let o ← openInit c d msg
  let p := d.peers o.peer
  if timestampReplayed p o.timestamp then none
  else if rateLimited now p then none
  else some (d.setPeer o.peer (acceptInit now p msg o), o.peer)

/-- `wg_generate_private_key`: whether it succeeded, and what it leaves. -/
def wgGeneratePrivateKey (env : Env cfg) (x : Fin cfg.maxPeers) : Bool × Key :=
  let r := env.ephemeral x
  if r.1 then (true, Crypto.clamp r.2) else r

/-- `wg_create_init`. -/
def wgCreateInit (env : Env cfg) (d : Device cfg) (x : Fin cfg.maxPeers) :
    Option (Device cfg × Option MsgInit) :=
  match env.tai64n x with
  | none => some (d, none)
  | some timestamp =>
    let p := d.peers x
    let (ok, ephemeralPrivate) := wgGeneratePrivateKey env x
    let hs := { p.handshake with
      chainingKey := c.constructionHash
      hash := c.mixHash c.identifierHash p.publicKey.toList
      ephemeralPrivate := ephemeralPrivate }
    if ¬ok then some (d.setPeer x { p with handshake := hs }, none)
    else
      match c.generatePublicKey hs.ephemeralPrivate with
      | none => some (d.setPeer x { p with handshake := hs }, none)
      | some ephemeral =>
        match initiate c d p hs ephemeral timestamp with
        | (hs, none) => some (d.setPeer x { p with handshake := hs }, none)
        | (hs, some enc) =>
          match wgUniqueIndex d (env.draws x) with
          | none => none
          | some sender =>
            let hs := { hs with valid := true, initiator := true, localIndex := sender }
            some (d.setPeer x { p with handshake := hs },
              some (signInit c env.now p sender ephemeral enc))

/-- `wg_create_response`. -/
def wgCreateResponse (env : Env cfg) (d : Device cfg) (x : Fin cfg.maxPeers) :
    Option (Device cfg × Option MsgResponse) :=
  let p := d.peers x
  if ¬(p.handshake.valid ∧ ¬p.handshake.initiator) then some (d, none)
  else
    let (ok, ephemeralPrivate) := wgGeneratePrivateKey env x
    let hs := { p.handshake with ephemeralPrivate := ephemeralPrivate }
    if ¬ok then some (d.setPeer x { p with handshake := hs }, none)
    else
      match c.generatePublicKey hs.ephemeralPrivate with
      | none => some (d.setPeer x { p with handshake := hs }, none)
      | some ephemeral =>
        match respond c p hs ephemeral with
        | (hs, none) => some (d.setPeer x { p with handshake := hs }, none)
        | (hs, some encEmpty) =>
          match wgUniqueIndex d (env.draws x) with
          | none => none
          | some sender =>
            let hs := { hs with localIndex := sender }
            some (d.setPeer x { p with handshake := hs },
              some (signResponse c env.now p sender hs.remoteIndex ephemeral encEmpty))

/-- `wg_create_cookie`. -/
def wgCreateCookie (env : Env cfg) (d : Device cfg) (mac1 : Bytes 16) (index : U32)
    (source : List Byte) : Device cfg × Option MsgCookie :=
  match env.cookieNonce with
  | none => (d, none)
  | some nonce =>
    let (d, cookie) := peerCookie c env.now env.cookieSecret d source
    (d, some
      { receiver := index
        nonce := nonce
        encCookie := slice (c.xaeadEncrypt cookie.toList mac1.toList nonce d.labelCookieKey) 0 32 })

/-- `wg_peer_init`: the record it leaves, valid if it succeeded. -/
def wgPeerInit (d : Device cfg) (publicKey : Key) (presharedKey : Option Key) : Peer cfg :=
  if ¬d.valid then Peer.zero
  else
    match c.dh d.privateKey publicKey with
    | none => Peer.zero
    | some dh => { Peer.zero with
        publicKey := publicKey
        presharedKey := presharedKey.getD (Bytes.zero 32)
        publicKeyDh := dh
        labelMac1Key := c.macKey publicKey Crypto.labelMac1
        labelCookieKey := c.macKey publicKey Crypto.labelCookie
        valid := true }

/-- `wg_device_init`, on a cleared device: the device it leaves, valid if it succeeded. -/
def wgDeviceInit (env : Env cfg) (privateKey : Key) : Device cfg :=
  let privateKey := Crypto.clamp privateKey
  match c.generatePublicKey privateKey with
  | none => Device.zero
  | some publicKey => { Device.zero with
      privateKey := privateKey
      publicKey := publicKey
      valid := true
      cookieSecret := env.cookieSecret
      cookieSecretMillis := env.now
      labelMac1Key := c.macKey publicKey Crypto.labelMac1
      labelCookieKey := c.macKey publicKey Crypto.labelCookie }

/-- `wg_peer_clear_sessions`. -/
def wgPeerClearSessions (p : Peer cfg) : Peer cfg :=
  let p := keypairDestroy (keypairDestroy (keypairDestroy p .curr) .prev) .next
  { p with
    handshake := Handshake.zero
    handshakeMac1Valid := false
    sendHandshake := false
    active := false }

end NuttxWireguard.Kernel
