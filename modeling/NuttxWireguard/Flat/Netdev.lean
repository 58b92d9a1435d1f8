/-
The flat port's glue (`nuttx-wireguardif.c`).

`Netdev` is `struct wg_netdev_s` less the sockets and work items that only carry it.
The functions below are the code's, in the code's order of checks; each returns the
device it leaves.  One that may draw an index can fail to come to an end, and returns
`none` then.  Datagrams handed to the socket are kept in `sent`, in order.

The carrier state of the interface is left out: nothing modelled reads it.
-/
import NuttxWireguard.Flat.Noise
import NuttxWireguard.Session
import NuttxWireguard.Lib.Run

namespace NuttxWireguard.Flat

open Lib

/-- `WG_MAX_PACKET`. -/
def wgMaxPacket : Nat := 1500

/-- `WG_CRYPT_BUFSIZE`. -/
def wgCryptBufsize : Nat := 16 + wgMaxPacket + authtagLen

/-- `struct wg_netdev_s`. -/
structure Netdev (cfg : Config) where
  wg : Device cfg
  bifup : Bool
  plainbuf : List Byte
  initWindowStart : U32
  initCount : U32
  /-- What was handed to `psock_sendto`, oldest first. -/
  sent : List Outbound
  /-- Sessions are numbered as they start; not in the code. -/
  nextSid : Nat
  /-- What was seen; not in the code. -/
  log : List (Obs cfg.maxPeers)

variable {cfg : Config} (c : Crypto) (env : Env cfg)

namespace Netdev

def peer (n : Netdev cfg) (x : Fin cfg.maxPeers) : Peer cfg := n.wg.peers x

def setPeer (n : Netdev cfg) (x : Fin cfg.maxPeers) (p : Peer cfg) : Netdev cfg :=
  { n with wg := n.wg.setPeer x p }

def observe (n : Netdev cfg) (o : Obs cfg.maxPeers) : Netdev cfg := { n with log := o :: n.log }

end Netdev

/-- `psock_sendto`. -/
def psockSendto (n : Netdev cfg) (data : List Byte) (ip : U32) (port : U16) :
    Netdev cfg × Bool :=
  ({ n with sent := n.sent ++ [⟨data, ip, port⟩] }, env.sendto n.sent.length)

/-- `wg_encrypt_and_send`. -/
def wgEncryptAndSend (n : Netdev cfg) (x : Fin cfg.maxPeers) (plaintext : List Byte) :
    Netdev cfg × Bool :=
  let p := n.peer x
  let s := sendingSlot p.keypair
  let kp := p.keypair s
  if ¬sendingUsable kp then (n, false)
  else if sendingExhausted env.now kp then (n.setPeer x (keypairDestroy p s), false)
  else
    let totalLen := 16 + paddedLen plaintext.length + authtagLen
    if totalLen > wgCryptBufsize then (n, false)
    else
      let hdr := dataHeader kp.remoteIndex kp.sendingCounter
      let (kp', enc) := encryptPacket c kp (padPayload plaintext)
      let n := n.observe (.encrypted x kp.sid kp.initiator kp.sendingKey kp.sendingCounter env.time)
      let (n, ok) := psockSendto env n (hdr ++ enc) p.ip p.port
      let p := p.setKeypair s kp'
      let p :=
        if ok then
          { p.setKeypair s { kp' with lastTx := env.now } with
            lastTx := env.now
            txBytes := p.txBytes + BitVec.ofNat 64 (totalLen - 16) }
        else p
      let p := if rekeyDue env.now kp' then { p with sendHandshake := true } else p
      (n.setPeer x p, ok)

/-- `wg_send_keepalive`. -/
def wgSendKeepalive (n : Netdev cfg) (x : Fin cfg.maxPeers) : Netdev cfg :=
  (wgEncryptAndSend c env n x []).1

/-- `wg_start_handshake`. -/
def wgStartHandshake (n : Netdev cfg) (x : Fin cfg.maxPeers) : Option (Netdev cfg) :=
  match wireguardCreateHandshakeInitiation c env n.wg x with
  | none => none
  | some (wg, none) => some { n with wg := wg }
  | some (wg, some msg) =>
    let n := { n with wg := wg }
    let p := n.peer x
    let n := n.observe (.initiation x p.ip p.port env.time)
    let n := (psockSendto env n msg.bytes p.ip p.port).1
    some (n.setPeer x { p with
      sendHandshake := false
      lastInitiationTx := env.now
      handshakeMac1 := msg.mac1
      handshakeMac1Valid := true })

/-- `wireguard_start_session`, with the session numbered and seen. -/
def startSession (n : Netdev cfg) (x : Fin cfg.maxPeers) (initiator : Bool) : Netdev cfg :=
  let p := n.peer x
  let kp : Keypair cfg := sessionKeypair c env.now n.nextSid env.time p.handshake initiator
  let n := n.setPeer x (wireguardStartSession c env.now n.nextSid env.time p initiator)
  let n := n.observe (.started x n.nextSid initiator kp.sendingKey env.time)
  { n with nextSid := n.nextSid + 1 }

/-- `wg_send_handshake_response`. -/
def wgSendHandshakeResponse (n : Netdev cfg) (x : Fin cfg.maxPeers) : Option (Netdev cfg) :=
  match wireguardCreateHandshakeResponse c env n.wg x with
  | none => none
  | some (wg, none) => some { n with wg := wg }
  | some (wg, some packet) =>
    let n := startSession c env { n with wg := wg } x false
    let p := n.peer x
    some (psockSendto env n packet.bytes p.ip p.port).1

/-- `wg_under_load`. -/
def wgUnderLoad (n : Netdev cfg) : Netdev cfg × Bool :=
  let n :=
    if env.now - n.initWindowStart ≥ 1000 then
      { n with initWindowStart := env.now, initCount := 0 }
    else n
  let n := { n with initCount := n.initCount + 1 }
  (n, decide (n.initCount > cfg.loadThreshold))

/-- `wg_send_cookie_reply`. -/
def wgSendCookieReply (n : Netdev cfg) (mac1 : Bytes 16) (senderIndex : U32) (addr : U32)
    (port : U16) : Netdev cfg :=
  let (wg, reply) :=
    wireguardCreateCookieReply c env n.wg mac1 senderIndex (sourceBytes addr port)
  (psockSendto env { n with wg := wg } reply.bytes addr port).1

/-- `wg_inject_plaintext`, for a packet from peer `x`. -/
def wgInjectPlaintext (n : Netdev cfg) (x : Fin cfg.maxPeers) (plaintext : List Byte) :
    Netdev cfg :=
  if plaintext.length = 0 ∨ plaintext.length > wgMaxPacket ∨ ¬n.bifup then n
  else if ¬env.iobPrepare then n
  else if ¬env.iobCopyin then n
  else
    let n := n.observe (.injected x plaintext)
    let reply := env.ipv4Input plaintext
    if reply.length > 0 ∧ reply.length ≤ wgMaxPacket then
      let n := { n with plainbuf := overwrite n.plainbuf reply }
      match peerForDest n.wg (ipDest n.plainbuf) with
      | some y => (wgEncryptAndSend c env n y (n.plainbuf.take reply.length)).1
      | none => n
    else n

/-- The inner packet of an authenticated datagram: the end of `wg_process_data_message`. -/
def wgProcessInner (n : Netdev cfg) (x : Fin cfg.maxPeers) (dataLen : Nat) : Netdev cfg :=
  if dataLen > authtagLen then
    let pktlen := dataLen - authtagLen
    if ipVersion n.plainbuf = 4 then
      let srcip := ipSource n.plainbuf
      let totlen := ipTotalLen n.plainbuf
      if sourceAllowed (n.peer x) srcip ∧ totlen ≤ pktlen then
        wgInjectPlaintext c env n x (n.plainbuf.take totlen)
      else n
    else n
  else n

/-- `wg_process_data_message`; `data` is the whole datagram and `data_len` what follows the
16-byte header. -/
def wgProcessDataMessage (n : Netdev cfg) (x : Fin cfg.maxPeers) (data : List Byte) (addr : U32)
    (port : U16) : Netdev cfg :=
  let dataLen := data.length - 16
  let p := n.peer x
  match keypairByIndex p (dataReceiver data) with
  | none => n
  | some s =>
    let kp := p.keypair s
    if receivingExhausted env.now kp then n.setPeer x (keypairDestroy p s)
    else if dataLen < authtagLen ∨ dataLen - authtagLen > wgMaxPacket then n
    else
      let nonce := dataCounter data
      let zeroed := List.replicate wgMaxPacket 0
      match decryptPacket c kp (data.drop 16) nonce with
      | none => { n with plainbuf := zeroed }
      | some plain =>
        let n := { n with plainbuf := overwrite zeroed plain }
        let (fresh, kp') := wireguardCheckReplay kp nonce
        let n := n.observe (.opened x kp.sid nonce fresh env.time)
        if ¬fresh then n.setPeer x (p.setKeypair s kp')
        else
          let p := acceptPacket env.now p s kp' addr port dataLen
          wgProcessInner c env (n.setPeer x p) x dataLen

/-- An initiation that passed mac1 and, under load, mac2. -/
def wgProcessInitiation (n : Netdev cfg) (msg : MsgInit) (addr : U32) (port : U16) :
    Option (Netdev cfg) :=
  match wireguardProcessInitiationMessage c env.now n.wg msg with
  | none => some n
  | some (wg, x) =>
    let n := { n with wg := wg }
    let n := n.observe (.initAccepted x (n.peer x).greatestTimestamp)
    let n := n.setPeer x { n.peer x with ip := addr, port := port }
    wgSendHandshakeResponse c env n x

/-- `wg_process_udp_packet`. -/
def wgProcessUdpPacket (n : Netdev cfg) (data : List Byte) (addr : U32) (port : U16) :
    Option (Netdev cfg) :=
  if messageType data = messageHandshakeInitiation then
    let msg := MsgInit.parse data
    if ¬checkMac1 c n.wg (data.take (msgInitLen - 32)) msg.mac1 then some n
    else
      let (n, load) := wgUnderLoad env n
      if load then
        let (wg, ok) := checkMac2 c env.now env.cookieSecret n.wg (data.take (msgInitLen - 16))
          (sourceBytes addr port) msg.mac2
        let n := { n with wg := wg }
        if ¬ok then some (wgSendCookieReply c env n msg.mac1 msg.sender addr port)
        else wgProcessInitiation c env n msg addr port
      else wgProcessInitiation c env n msg addr port
  else if messageType data = messageHandshakeResponse then
    let msg := MsgResponse.parse data
    if ¬checkMac1 c n.wg (data.take (msgResponseLen - 32)) msg.mac1 then some n
    else
      match peerByHandshake n.wg msg.receiver with
      | none => some n
      | some x =>
        match processResponse c n.wg (n.peer x) msg with
        | none => some n
        | some p =>
          let n := n.observe (.responseAccepted x)
          let n := n.setPeer x { p with ip := addr, port := port }
          let n := startSession c env n x true
          some (wgSendKeepalive c env n x)
  else if messageType data = messageCookieReply then
    let msg := MsgCookie.parse data
    match peerByHandshake n.wg msg.receiver with
    | none => some n
    | some x =>
      match processCookie c env.now (n.peer x) msg with
      | none => some n
      | some p => wgStartHandshake c env ((n.observe (.cookieAccepted x)).setPeer x p) x
  else if messageType data = messageTransportData then
    match peerByReceiver n.wg (dataReceiver data) with
    | none => some n
    | some x => some (wgProcessDataMessage c env n x data addr port)
  else some n

/-! ### Timers -/

/-- One turn of the loop of `wg_run_timers`. -/
def wgRunTimersPeer (n : Netdev cfg) (x : Fin cfg.maxPeers) : Option (Netdev cfg) :=
  if ¬(n.peer x).valid then some n
  else
    let n := n.setPeer x (wgExpirePeer env.now (n.peer x))
    let n := if keepaliveDue env.now (n.peer x) then wgSendKeepalive c env n x else n
    if shouldInitiate env.now (n.peer x) then wgStartHandshake c env n x else some n

/-- `wg_run_timers`. -/
def wgRunTimers (n : Netdev cfg) : Option (Netdev cfg) :=
  (List.finRange cfg.maxPeers).foldlM (wgRunTimersPeer c env) n

/-! ### Sending and the interface state -/

/-- `wg_txpoll`, for a packet the stack has queued. -/
def wgTxpoll (n : Netdev cfg) (packet : List Byte) : Netdev cfg :=
  if packet.length > 0 ∧ packet.length ≤ wgMaxPacket then
    let n := { n with plainbuf := overwrite n.plainbuf packet }
    match peerForDest n.wg (ipDest n.plainbuf) with
    | some x => (wgEncryptAndSend c env n x (n.plainbuf.take packet.length)).1
    | none => n
  else n

/-- `wg_ifup`. -/
def wgIfup (n : Netdev cfg) : Netdev cfg :=
  { n with bifup := true, wg := { n.wg with peers := fun x => wgIfupPeer (n.peer x) } }

/-- The peers' half of `wg_ifdown`. -/
def wgIfdownPeer (p : Peer cfg) : Peer cfg :=
  if ¬p.valid then p
  else
    let p := keypairDestroy (keypairDestroy (keypairDestroy p .curr) .prev) .next
    { p with
      handshake := Handshake.zero
      handshakeMac1Valid := false
      active := false
      sendHandshake := false
      ip := p.connectIp
      port := p.connectPort }

/-- `wg_ifdown`. -/
def wgIfdown (n : Netdev cfg) : Netdev cfg :=
  { n with bifup := false, wg := { n.wg with peers := fun x => wgIfdownPeer (n.peer x) } }

end NuttxWireguard.Flat
