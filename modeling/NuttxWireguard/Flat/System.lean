/-
The flat port as a machine.

`wg_initialize` builds the device from the configuration; after it the receive task
handles one datagram or one timer pass at a time, the work queue one outgoing packet,
and the stack takes the interface up and down, all under the network lock.  Each of
these is an event and carries the environment of its step.

A configuration is the list of peers with their strings already decoded.  A call that
fails before the device exists leaves nothing to run.
-/
import NuttxWireguard.Flat.Netdev
import NuttxWireguard.Sample

namespace NuttxWireguard.Flat

open Lib

variable {cfg : Config} (c : Crypto)

/-! ### Bringing the device up -/

/-- One staged peer, decoded: what `wg_add_peer` reads out of it. -/
structure PeerConfig where
  /-- `wg_decode_key`. -/
  publicKey : Option Key
  keepalive : U16
  /-- `inet_pton` of the allowed address and of its mask. -/
  allowedIp : Option U32
  allowedMask : Option U32
  /-- `inet_pton` of the endpoint, if one is given. -/
  endpointIp : Option U32
  endpointPort : U16

/-- The first allowed-ip of a configured peer; valid when both halves parsed. -/
def PeerConfig.allowed (pc : PeerConfig) : AllowedIp :=
  match pc.allowedIp, pc.allowedMask with
  | some ip, some mask => ⟨true, ip, mask⟩
  | some ip, none => ⟨false, ip, 0⟩
  | none, _ => AllowedIp.zero

/-- The record `wg_add_peer` fills in after `wireguard_peer_init`. -/
def PeerConfig.configure (pc : PeerConfig) (p : Peer cfg) : Peer cfg :=
  let p := { p with
    keepaliveInterval := pc.keepalive
    allowedSourceIps := fun y =>
      if (y : Nat) = 0 then pc.allowed else p.allowedSourceIps y }
  match pc.endpointIp with
  | none => p
  | some ip => { p with
      connectIp := ip
      connectPort := pc.endpointPort
      ip := ip
      port := pc.endpointPort }

/-- `wg_add_peer`. -/
def wgAddPeer (d : Device cfg) (pc : PeerConfig) : Device cfg :=
  match pc.publicKey with
  | none => d
  | some publicKey =>
    match peerAlloc d with
    | none => d
    | some x =>
      let p := wireguardPeerInit c d publicKey none
      if p.valid then d.setPeer x (pc.configure p) else d.setPeer x p

/-- `wg_initialize`, down to `netdev_ifup`, for a decoded private key; `probe` is what the
random source fills the entropy probe with. -/
def wgInitialize (env : Env cfg) (probe privateKey : Key) (peers : List PeerConfig) :
    Option (Netdev cfg) :=
  if probe = Bytes.zero 32 then none
  else
    match wireguardDeviceInit c env privateKey with
    | none => none
    | some d => some (wgIfup
        { wg := peers.foldl (wgAddPeer c) d
          bifup := false
          plainbuf := List.replicate wgMaxPacket 0
          initWindowStart := 0
          initCount := 0
          sent := []
          nextSid := 0
          log := [] })

/-! ### Steps -/

/-- What happens to the device. -/
inductive Event (cfg : Config)
  /-- The receive task reads a datagram. -/
  | rx (env : Env cfg) (data : List Byte) (addr : U32) (port : U16)
  /-- The receive task runs the timers. -/
  | timers (env : Env cfg)
  /-- The work queue polls the stack for a packet. -/
  | txpoll (env : Env cfg) (packet : List Byte)
  | ifup
  | ifdown

/-- One step.  The receive buffer holds `WG_MAX_PACKET` bytes and an empty read ends the
task's loop. -/
def step (n : Netdev cfg) : Event cfg → Option (Netdev cfg)
  | .rx env data addr port =>
    if data = [] then some n
    else wgProcessUdpPacket c env n (data.take wgMaxPacket) addr port
  | .timers env => wgRunTimers c env n
  | .txpoll env packet => some (if n.bifup then wgTxpoll c env n packet else n)
  | .ifup => some (wgIfup n)
  | .ifdown => some (wgIfdown n)

/-- What `wg_initialize` leaves. -/
def Initial (n : Netdev cfg) : Prop :=
  ∃ env probe privateKey peers, wgInitialize c env probe privateKey peers = some n

/-- The states of every run. -/
def ReachableState (n : Netdev cfg) : Prop := Reachable (Initial c) (step c) n

/-! ### The small network

Two peers without endpoints, the second inside the first one's network.
-/

namespace Sample

open NuttxWireguard.Sample

/-- Nothing fails, and the stack answers nothing. -/
def env (time : Nat) : Env config where
  time := time
  timestamp := fun _ => timestamp 1
  ephemeral := fun _ => key 16 64
  draws := fun _ => [draw 1]
  cookieNonce := Bytes.zero 24
  cookieSecret := key 1 1
  sendto := fun _ => true
  iobPrepare := true
  iobCopyin := true
  ipv4Input := fun _ => []

def peers : List PeerConfig :=
  [{ publicKey := some (key 3 0)
     keepalive := 0
     allowedIp := some (address 10 0 0 0)
     allowedMask := some (address 255 255 255 0)
     endpointIp := none
     endpointPort := 0 },
   { publicKey := some (key 4 0)
     keepalive := 0
     allowedIp := some (address 10 0 0 5)
     allowedMask := some (address 255 255 255 255)
     endpointIp := none
     endpointPort := 0 }]

def initial : Option (Netdev config) :=
  wgInitialize Crypto.plain (env 1000) (key 1 0) (key 8 64) peers

/-- Where a list of events leads. -/
def state (events : List (Event config)) : Option (Netdev config) :=
  initial.bind fun n => (steps (step Crypto.plain) n events).map (·.2)

theorem reachable {events : List (Event config)} {n : Netdev config} (h : state events = some n) :
    ReachableState Crypto.plain n := by
  obtain ⟨n₀, h₀, h⟩ := Option.bind_eq_some_iff.mp h
  obtain ⟨⟨ts, m⟩, hsteps, rfl⟩ := Option.map_eq_some_iff.mp h
  exact ⟨n₀, ts, ⟨_, _, _, _, h₀⟩, .of_steps hsteps⟩

/-- What a closed run shows of the state it ends in. -/
theorem exists_reachable (events : List (Event config)) (p : Netdev config → Bool)
    (h : (state events).any p = true) : ∃ n, ReachableState Crypto.plain n ∧ p n = true := by
  obtain ⟨n, hn, hp⟩ := (Option.any_eq_true _ _).mp h
  exact ⟨n, reachable hn, hp⟩

/-- The first peer's initiation, from `9.9.9.9`. -/
def rxInitiation (time : Nat) : Event config :=
  .rx (env time) initiation.bytes (address 9 9 9 9) 1234

/-- Data in the session it led to. -/
def rxData (time : Nat) (counter : U64) (payload : List Byte) : Event config :=
  .rx (env time) (datagram counter payload) (address 9 9 9 9) 1234

def send (time : Nat) : Event config := .txpoll (env time) (packet 1)

end Sample

end NuttxWireguard.Flat
