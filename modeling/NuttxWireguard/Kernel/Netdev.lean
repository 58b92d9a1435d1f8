/-
The in-kernel driver (`wireguard.c`): packets, timers and the interface state.

`Netdev` is `struct wg_netdev_s` with the socket and the completion semaphore reduced to
whether they are there, and beside it what the receive thread owns: whether it is alive
and the datagram it has taken off the queue.  The functions below are the code's, in the
code's order of checks; each returns the device it leaves and, where the code has one, its
error, `none` for success.

The transmit scratch buffer is left out: every use clears what it then fills.  So are the
carrier state, the error counters and the semaphore that only wakes the thread.
-/
import NuttxWireguard.Kernel.Noise
import NuttxWireguard.Session
import NuttxWireguard.Lib.Run

namespace NuttxWireguard.Kernel

open Lib

/-- `WG_TX_QUOTA`. -/
def wgTxQuota : U32 := 4

/-- `WG_CRYPT_BUFSIZE`. -/
def wgCryptBufsize (cfg : Config) : Nat := msgDataLen + paddedLen cfg.pktsize + authtagLen

/-- `struct wg_netdev_s`. -/
structure Netdev (cfg : Config) where
  wg : Device cfg
  /-- The UDP socket is open. -/
  psock : Bool
  listenPort : U16
  bifup : Bool
  running : Bool
  reaping : Bool
  rxpid : Nat
  /-- The count of the completion semaphore, if it exists. -/
  rxdone : Option Nat
  txqueue : List Outbound
  ntx : U32
  rxqueue : List (List Byte)
  initWindowStart : U32
  initCount : U32
  plainbuf : List Byte
  /-- `d_ipaddr`, `d_netmask`. -/
  ipaddr : U32
  netmask : U32
  /-- The receive thread has not left its function. -/
  worker : Bool
  /-- The datagram `wg_flush_tx` has removed and not yet freed. -/
  inflight : Option Outbound
  /-- What was handed to `psock_sendto`, oldest first. -/
  sent : List Outbound
  /-- Datagrams allocated so far; not in the code. -/
  mallocs : Nat
  /-- Sessions are numbered as they start; not in the code. -/
  nextSid : Nat
  /-- What was seen; not in the code. -/
  log : List (Obs cfg.maxPeers)

variable {cfg : Config} (c : Crypto) (env : Env cfg)

namespace Netdev

def peer (n : Netdev cfg) (x : Fin cfg.maxPeers) : Peer cfg := n.wg.peers x

def setPeer (n : Netdev cfg) (x : Fin cfg.maxPeers) (p : Peer cfg) : Netdev cfg :=
  { n with wg := n.wg.setPeer x p }

def observe (n : Netdev cfg) (o : Obs cfg.maxPeers) : Netdev cfg := { n with log := o :: n.log }

end Netdev

/-! ### Sending -/

/-- `wg_tx_enqueue`. -/
def wgTxEnqueue (n : Netdev cfg) (data : List Byte) (ip : U32) (port : U16) :
    Netdev cfg × Option Errno :=
  if ¬n.running ∨ n.ntx ≥ wgTxQuota then (n, some .eagain)
  else
    let ok := env.malloc n.mallocs
    let n := { n with mallocs := n.mallocs + 1 }
    if ¬ok then (n, some .enomem)
    else ({ n with txqueue := n.txqueue ++ [⟨data, ip, port⟩], ntx := n.ntx + 1 }, none)

/-- `wg_send_data`. -/
def wgSendData (n : Netdev cfg) (x : Fin cfg.maxPeers) (plaintext : List Byte) :
    Netdev cfg × Option Errno :=
  let p := n.peer x
  let s := sendingSlot p.keypair
  let kp := p.keypair s
  if ¬sendingUsable kp then (n, some .enokey)
  else if sendingExhausted env.now kp then (n.setPeer x (keypairDestroy p s), some .enokey)
  else
    let total := msgDataLen + paddedLen plaintext.length + authtagLen
    if total > wgCryptBufsize cfg then (n, some .emsgsize)
    else
      let hdr := dataHeader kp.remoteIndex kp.sendingCounter
      let (kp', enc) := encryptPacket c kp (padPayload plaintext)
      let n := n.observe (.encrypted x kp.sid kp.initiator kp.sendingKey kp.sendingCounter env.time)
      let (n, ret) := wgTxEnqueue env n (hdr ++ enc) p.ip p.port
      let p := p.setKeypair s kp'
      let p :=
        if ret = none then
          { p.setKeypair s { kp' with lastTx := env.now } with
            lastTx := env.now
            txBytes := p.txBytes + BitVec.ofNat 64 (total - msgDataLen) }
        else p
      let p := if rekeyDue env.now kp' then { p with sendHandshake := true } else p
      (n.setPeer x p, ret)

/-- `wg_send_initiation`. -/
def wgSendInitiation (n : Netdev cfg) (x : Fin cfg.maxPeers) : Option (Netdev cfg) :=
  if (n.peer x).ip = 0 ∨ (n.peer x).port = 0 then some n
  else
    match wgCreateInit c env n.wg x with
    | none => none
    | some (wg, none) => some { n with wg := wg }
    | some (wg, some msg) =>
      let n := { n with wg := wg }
      let p := n.peer x
      let (n, ret) := wgTxEnqueue env n msg.bytes p.ip p.port
      let n := if ret = none then n.observe (.initiation x p.ip p.port env.time) else n
      some (n.setPeer x { p with
        sendHandshake := false
        lastInitiationTx := env.now
        handshakeMac1 := msg.mac1
        handshakeMac1Valid := true })

/-- `wg_start_session`, with the session numbered and seen. -/
def startSession (n : Netdev cfg) (x : Fin cfg.maxPeers) (initiator : Bool) : Netdev cfg :=
  let p := n.peer x
  let kp : Keypair cfg := sessionKeypair c env.now n.nextSid env.time p.handshake initiator
  let n := n.setPeer x (wgStartSession c env.now n.nextSid env.time p initiator)
  let n := n.observe (.started x n.nextSid initiator kp.sendingKey env.time)
  { n with nextSid := n.nextSid + 1 }

/-- `wg_send_response`. -/
def wgSendResponse (n : Netdev cfg) (x : Fin cfg.maxPeers) : Option (Netdev cfg) :=
  match wgCreateResponse c env n.wg x with
  | none => none
  | some (wg, none) => some { n with wg := wg }
  | some (wg, some msg) =>
    let n := startSession c env { n with wg := wg } x false
    let p := n.peer x
    some (wgTxEnqueue env n msg.bytes p.ip p.port).1

/-- `wg_send_cookie`. -/
def wgSendCookie (n : Netdev cfg) (mac1 : Bytes 16) (sender ip : U32) (port : U16) :
    Netdev cfg :=
  match wgCreateCookie c env n.wg mac1 sender (sourceBytes ip port) with
  | (wg, none) => { n with wg := wg }
  | (wg, some msg) => (wgTxEnqueue env { n with wg := wg } msg.bytes ip port).1

/-! ### Receiving -/

/-- `wg_under_load`. -/
def wgUnderLoad (n : Netdev cfg) : Netdev cfg × Bool :=
  let n :=
    if env.now - n.initWindowStart ≥ 1000 then
      { n with initWindowStart := env.now, initCount := 0 }
    else n
  let n := { n with initCount := n.initCount + 1 }
  (n, decide (n.initCount > cfg.loadThreshold))

/-- `wg_deliver`, for a packet from peer `x`. -/
def wgDeliver (n : Netdev cfg) (x : Fin cfg.maxPeers) (data : List Byte) : Netdev cfg :=
  if ¬env.netpktAlloc then n
  else if ¬env.netpktCopyin then n
  else if ¬env.netpktTryadd then n
  else { n.observe (.injected x data) with rxqueue := n.rxqueue ++ [data] }

/-- The inner packet of an authenticated datagram: the end of `wg_process_data`. -/
def wgProcessInner (n : Netdev cfg) (x : Fin cfg.maxPeers) (datalen : Nat) : Netdev cfg :=
  if datalen > authtagLen then
    let pktlen := datalen - authtagLen
    if ipVersion n.plainbuf ≠ 4 then n
    else
      let totlen := ipTotalLen n.plainbuf
      if totlen > pktlen ∨ totlen < ipv4HdrLen then n
      else if ¬sourceAllowed (n.peer x) (ipSource n.plainbuf) then n
      else wgDeliver env n x (n.plainbuf.take totlen)
  else n

/-- `wg_process_data`; `data` is the whole datagram and `datalen` what follows the header. -/
def wgProcessData (n : Netdev cfg) (x : Fin cfg.maxPeers) (data : List Byte) (ip : U32)
    (port : U16) : Netdev cfg :=
  let datalen := data.length - msgDataLen
  let p := n.peer x
  match keypairByIndex p (dataReceiver data) with
  | none => n
  | some s =>
    let kp := p.keypair s
    if receivingExhausted env.now kp then n.setPeer x (keypairDestroy p s)
    else if datalen < authtagLen ∨ datalen - authtagLen > cfg.pktsize then n
    else
      let counter := dataCounter data
      match decryptPacket c kp (data.drop msgDataLen) counter with
      | none => n
      | some plain =>
        let n := { n with plainbuf := overwrite n.plainbuf plain }
        let (fresh, kp') := wgCheckReplay kp counter
        let n := n.observe (.opened x kp.sid counter fresh env.time)
        if ¬fresh then n.setPeer x (p.setKeypair s kp')
        else
          let p := acceptPacket env.now p s kp' ip port datalen
          wgProcessInner env (n.setPeer x p) x datalen

/-- An initiation that passed mac1 and, under load, mac2. -/
def wgProcessInitiation (n : Netdev cfg) (msg : MsgInit) (ip : U32) (port : U16) :
    Option (Netdev cfg) :=
  match wgProcessInit c env.now n.wg msg with
  | none => some n
  | some (wg, x) =>
    let n := { n with wg := wg }
    let n := n.observe (.initAccepted x (n.peer x).greatestTimestamp)
    let n := n.setPeer x { n.peer x with ip := ip, port := port }
    wgSendResponse c env n x

/-- `wg_process_datagram`. -/
def wgProcessDatagram (n : Netdev cfg) (data : List Byte) (ip : U32) (port : U16) :
    Option (Netdev cfg) :=
  if messageType data = messageHandshakeInitiation then
    let msg := MsgInit.parse data
    if ¬checkMac1 c n.wg (data.take (msgInitLen - 32)) msg.mac1 then some n
    else
      let (n, load) := wgUnderLoad env n
      if load then
        let (wg, ok) := checkMac2 c env.now env.cookieSecret n.wg (data.take (msgInitLen - 16))
          (sourceBytes ip port) msg.mac2
        let n := { n with wg := wg }
        if ¬ok then some (wgSendCookie c env n msg.mac1 msg.sender ip port)
        else wgProcessInitiation c env n msg ip port
      else wgProcessInitiation c env n msg ip port
  else if messageType data = messageHandshakeResponse then
    let msg := MsgResponse.parse data
    if ¬checkMac1 c n.wg (data.take (msgResponseLen - 32)) msg.mac1 then some n
    else
      match peerByHandshake n.wg msg.receiver with
      | none => some n
      | some x =>
        match processResponse c n.wg (n.peer x) msg with
        | none => some n
        | some p =>
          let n := n.observe (.responseAccepted x)
          let n := n.setPeer x { p with ip := ip, port := port }
          let n := startSession c env n x true
          some (wgSendData c env n x []).1
  else if messageType data = messageCookieReply then
    let msg := MsgCookie.parse data
    match peerByHandshake n.wg msg.receiver with
    | none => some n
    | some x =>
      match processCookie c env.now (n.peer x) msg with
      | none => some n
      | some p => wgSendInitiation c env ((n.observe (.cookieAccepted x)).setPeer x p) x
  else if messageType data = messageTransportData then
    match peerByReceiver n.wg (dataReceiver data) with
    | none => some n
    | some x => some (wgProcessData c env n x data ip port)
  else some n

/-! ### Timers -/

/-- One turn of the loop of `wg_run_timers`. -/
def wgRunTimersPeer (n : Netdev cfg) (x : Fin cfg.maxPeers) : Option (Netdev cfg) :=
  if ¬(n.peer x).valid then some n
  else
    let n := n.setPeer x (wgExpirePeer env.now (n.peer x))
    let n := if keepaliveDue env.now (n.peer x) then (wgSendData c env n x []).1 else n
    if shouldInitiate env.now (n.peer x) then wgSendInitiation c env n x else some n

/-- `wg_run_timers`. -/
def wgRunTimers (n : Netdev cfg) : Option (Netdev cfg) :=
  (List.finRange cfg.maxPeers).foldlM (wgRunTimersPeer c env) n

/-! ### The transmit queue

`wg_flush_tx` gives up the device lock while it sends, so it is two steps: one takes a
datagram off the queue, the other sends and frees it.
-/

/-- `sq_remfirst` under the lock. -/
def wgFlushTake (n : Netdev cfg) : Netdev cfg :=
  if ¬n.running then n
  else
    match n.txqueue with
    | [] => n
    | out :: rest => { n with txqueue := rest, inflight := some out }

/-- `psock_sendto` and what follows it. -/
def wgFlushSend (n : Netdev cfg) (out : Outbound) : Netdev cfg :=
  { n with sent := n.sent ++ [out], inflight := none, ntx := n.ntx - 1 }

/-! ### Transmitting and the interface state -/

/-- `wg_transmit`, for a packet of the stack. -/
def wgTransmit (n : Netdev cfg) (packet : List Byte) : Option (Netdev cfg) :=
  if ¬n.bifup ∨ packet.length < ipv4HdrLen ∨ packet.length > cfg.pktsize then some n
  else
    let n := { n with plainbuf := overwrite n.plainbuf packet }
    if ipVersion n.plainbuf ≠ 4 then some n
    else
      match peerForDest n.wg (ipDest n.plainbuf) with
      | none => some n
      | some x =>
        let (n, ret) := wgSendData c env n x (n.plainbuf.take packet.length)
        if ret = some .enokey then
          let n := n.setPeer x { n.peer x with active := true }
          let p := n.peer x
          if p.lastInitiationTx = 0 ∨ expired env.now p.lastInitiationTx rekeyTimeout = true then
            wgSendInitiation c env n x
          else some (n.setPeer x { p with sendHandshake := true })
        else some n

/-- `wg_receive`: the packet, if there is one, is the stack's. -/
def wgReceive (n : Netdev cfg) : Netdev cfg := { n with rxqueue := n.rxqueue.tail }

/-- What `wg_down_finish` does to each peer. -/
def wgDownPeer (p : Peer cfg) : Peer cfg :=
  if p.valid then { wgPeerClearSessions p with ip := p.connectIp, port := p.connectPort } else p

/-- `wg_down_finish`. -/
def wgDownFinish (n : Netdev cfg) : Netdev cfg :=
  { n with
    txqueue := []
    ntx := 0
    wg := { n.wg with peers := fun x => wgDownPeer (n.peer x) }
    rxqueue := [] }

/-- `wg_ifup`. -/
def wgIfup (n : Netdev cfg) : Netdev cfg × Option Errno :=
  if n.bifup then (n, none)
  else if n.rxpid > 0 then (n, some .ebusy)
  else if ¬n.wg.valid then (n, some .einval)
  else
    match env.psockSocket with
    | some err => (n, some err)
    | none =>
      match env.psockBind with
      | some err => ({ n with psock := false }, some err)
      | none =>
        let n := { n with wg := { n.wg with peers := fun x => wgIfupPeer (n.peer x) } }
        match env.kthreadCreate with
        | .error err => ({ n with running := false, rxdone := none, psock := false }, some err)
        | .ok pid => ({ n with
            psock := true
            running := true
            rxdone := some 0
            rxpid := pid
            worker := true
            bifup := true }, none)

/-- What a call that may wait for the receive thread comes to. -/
inductive Outcome
  | returned (err : Option Errno)
  /-- It waits in `wg_rx_teardown`, without the lock. -/
  | waiting
  deriving DecidableEq

/-- `wg_ifdown`, up to the wait of `wg_rx_teardown`. -/
def wgIfdown (n : Netdev cfg) : Netdev cfg × Outcome :=
  if ¬n.bifup ∧ n.rxpid = 0 then (n, .returned none)
  else
    let n := { n with bifup := false }
    if n.rxpid = 0 then (wgDownFinish n, .returned none)
    else if n.reaping then (n, .returned (some .ebusy))
    else ({ n with reaping := true, running := false }, .waiting)

/-- The rest of it, after the thread's completion was seen. -/
def wgIfdownDone (n : Netdev cfg) : Netdev cfg :=
  wgDownFinish { n with reaping := false, rxpid := 0, rxdone := none, psock := false }

/-- And after the wait gave up. -/
def wgIfdownTimeout (n : Netdev cfg) : Netdev cfg := { n with reaping := false }

/-- The receive thread leaves its loop and posts its completion. -/
def wgRxExit (n : Netdev cfg) : Netdev cfg :=
  { n with worker := false, rxdone := n.rxdone.map (· + 1) }

end NuttxWireguard.Kernel
