/-
The in-kernel driver as a machine.

`wireguard_initialize` leaves a cleared device without a key.  After it the administrator
sends requests and takes the interface up and down, the stack hands packets over and
takes them, and while the interface is up the receive thread reads datagrams, runs the
timers and empties the transmit queue.  All of these run under the device lock, so each is
an event; what gives the lock up in the middle is two.

A datagram and a timer pass belong to the receive thread, which holds no datagram of the
transmit queue while it handles one.
-/
import NuttxWireguard.Kernel.Ioctl
import NuttxWireguard.Sample

namespace NuttxWireguard.Kernel

open Lib

variable {cfg : Config} (c : Crypto)

/-- `wireguard_initialize`, for interface `i`. -/
def wireguardInitialize (i : Nat) : Netdev cfg where
  wg := Device.zero
  psock := false
  listenPort := BitVec.ofNat 16 (51820 + i)
  bifup := false
  running := false
  reaping := false
  rxpid := 0
  rxdone := none
  txqueue := []
  ntx := 0
  rxqueue := []
  initWindowStart := 0
  initCount := 0
  plainbuf := List.replicate cfg.pktsize 0
  ipaddr := 0
  netmask := 0
  worker := false
  inflight := none
  sent := []
  mallocs := 0
  nextSid := 0
  log := []

/-- What happens to the device. -/
inductive Event (cfg : Config)
  /-- `SIOCSWGIF`. -/
  | setIf (env : Env cfg) (req : IfReq)
  /-- `SIOCSWGPEER`. -/
  | setPeer (req : PeerReq)
  /-- `SIOCDWGPEER`. -/
  | delPeer (publicKey : Key)
  | ifup (env : Env cfg)
  | ifdown
  /-- The thread's completion ends the wait of an `ifdown`. -/
  | ifdownDone
  | ifdownTimeout
  /-- The stack hands a packet over. -/
  | transmit (env : Env cfg) (packet : List Byte)
  /-- The stack takes a packet. -/
  | receive
  /-- The receive thread reads a datagram. -/
  | datagram (env : Env cfg) (data : List Byte) (ip : U32) (port : U16)
  /-- The receive thread runs the timers. -/
  | timers (env : Env cfg)
  | flushTake
  | flushSend
  | rxExit

/-- The receive thread is in its loop and between two datagrams it sends. -/
def Netdev.idle (n : Netdev cfg) : Prop := n.worker = true ∧ n.inflight = none

instance (n : Netdev cfg) : Decidable n.idle := inferInstanceAs (Decidable (_ ∧ _))

/-- One step. -/
def step (n : Netdev cfg) : Event cfg → Option (Netdev cfg)
  | .setIf env req => some (wgSetIf c env n req).1
  | .setPeer req => some (wgSetPeer c n req).1
  | .delPeer publicKey => some (wgDelPeer n publicKey).1
  | .ifup env => some (wgIfup env n).1
  | .ifdown => some (wgIfdown n).1
  | .ifdownDone => if n.reaping ∧ n.rxdone.any (· > 0) then some (wgIfdownDone n) else none
  | .ifdownTimeout => if n.reaping then some (wgIfdownTimeout n) else none
  | .transmit env packet => wgTransmit c env n packet
  | .receive => some (wgReceive n)
  | .datagram env data ip port =>
    if ¬n.idle then none
    else if data = [] ∨ ¬n.running then some n
    else wgProcessDatagram c env n (data.take (wgCryptBufsize cfg)) ip port
  | .timers env =>
    if ¬n.idle then none else if ¬n.running then some n else wgRunTimers c env n
  | .flushTake => if ¬n.idle then none else some (wgFlushTake n)
  | .flushSend => n.inflight.map (wgFlushSend n)
  | .rxExit => if n.idle ∧ ¬n.running then some (wgRxExit n) else none

/-- What `wireguard_initialize` leaves. -/
def Initial (n : Netdev cfg) : Prop := ∃ i, n = wireguardInitialize i

/-- The states of every run. -/
def ReachableState (n : Netdev cfg) : Prop := Reachable Initial (step c) n

/-! ### The small network

One peer, for `10.0.0.0/24`, configured while the interface is down.
-/

namespace Sample

open NuttxWireguard.Sample

/-- Nothing fails. -/
def env (time : Nat) : Env config where
  time := time
  tai64n := fun _ => some (timestamp 1)
  ephemeral := fun _ => (true, key 16 64)
  draws := fun _ => [draw 1, draw 2]
  cookieNonce := some (Bytes.zero 24)
  cookieSecret := key 1 1
  malloc := fun _ => true
  netpktAlloc := true
  netpktCopyin := true
  netpktTryadd := true
  savedMalloc := true
  psockSocket := none
  psockBind := none
  kthreadCreate := .ok ⟨1, Nat.one_ne_zero⟩

/-- The device's private key is set. -/
def setKey (time : Nat) : Event config :=
  .setIf (env time)
    { flags := wgIfHasPrivateKey, privateKey := key 8 64, listenPort := 0, addr := 0, netmask := 0 }

/-- The peer is given its network and, by `endpoint`, where to find it. -/
def firstReq (endpoint : Option (U32 × U16)) : PeerReq where
  flags := wgPeerHasAips ||| wgPeerReplaceAips |||
    if endpoint.isSome then wgPeerHasEndpoint else 0
  keepalive := 0
  publicKey := key 3 0
  presharedKey := Bytes.zero 32
  sinFamily := afInet
  sinPort := (endpoint.map (·.2)).getD 0
  sinAddr := (endpoint.map (·.1)).getD 0
  naips := 1
  aips := fun _ => ⟨address 10 0 0 0, 24⟩

def setFirst (endpoint : Option (U32 × U16)) : Event config := .setPeer (firstReq endpoint)

/-- The way up. -/
def bringUp : List (Event config) := [setKey 1000, setFirst none, .ifup (env 1000)]

/-- Where a list of events leads. -/
def state (events : List (Event config)) : Option (Netdev config) :=
  (steps (step Crypto.plain) (wireguardInitialize 0) events).map (·.2)

theorem reachable {events : List (Event config)} {n : Netdev config} (h : state events = some n) :
    ReachableState Crypto.plain n := by
  obtain ⟨⟨ts, m⟩, hsteps, rfl⟩ := Option.map_eq_some_iff.mp h
  exact ⟨_, ts, ⟨0, rfl⟩, .of_steps hsteps⟩

/-- What a closed run shows of the state it ends in. -/
theorem exists_reachable (events : List (Event config)) (p : Netdev config → Bool)
    (h : (state events).any p = true) : ∃ n, ReachableState Crypto.plain n ∧ p n = true := by
  obtain ⟨n, hn, hp⟩ := (Option.any_eq_true _ _).mp h
  exact ⟨n, reachable hn, hp⟩

/-- What a closed run shows of its steps, from the state `events` lead to. -/
theorem exists_run (events more : List (Event config))
    (p : Netdev config → List (Taken (Netdev config) (Event config)) → Netdev config → Bool)
    (h : ((state events).any fun n =>
      (steps (step Crypto.plain) n more).any fun r => p n r.1 r.2) = true) :
    ∃ n ts m, ReachableState Crypto.plain n ∧ Run (step Crypto.plain) n ts m ∧ p n ts m = true := by
  obtain ⟨n, hn, h⟩ := (Option.any_eq_true _ _).mp h
  obtain ⟨⟨ts, m⟩, hsteps, hp⟩ := (Option.any_eq_true _ _).mp h
  exact ⟨n, ts, m, reachable hn, .of_steps hsteps, hp⟩

/-- The peer's initiation, from `9.9.9.9`. -/
def rxInitiation (time : Nat) : Event config :=
  .datagram (env time) initiation.bytes (address 9 9 9 9) 1234

/-- Data in the session it led to. -/
def rxData (time : Nat) (counter : U64) (payload : List Byte) : Event config :=
  .datagram (env time) (datagram counter payload) (address 9 9 9 9) 1234

end Sample

end NuttxWireguard.Kernel
