/-
The records both drivers keep, and the messages they exchange.

`wireguard.h` and `wg_noise.h` declare the same keypair, handshake, peer and device
records field for field, so they are one family of structures here, sized by the
build's configuration.  An array is a function on its index type.  Integers have the
width of the C types; an IPv4 address is kept as the raw 32-bit word the code keeps,
on a little-endian host, so `ntohl` is a byte swap.

A keypair carries two fields the code does not have: the number of the session it
belongs to and the time that session was started.  No function of the code reads
them; they let the results speak about one session while it moves between slots.
-/
import NuttxWireguard.Crypto
import NuttxWireguard.Lib.Rotation

namespace NuttxWireguard

open Lib

/-- The build's limits (Kconfig). -/
structure Config where
  /-- `CONFIG_NET_WIREGUARD_MAX_PEERS`. -/
  maxPeers : Nat
  /-- `CONFIG_NET_WIREGUARD_MAX_SRC_IPS`, `CONFIG_NET_WIREGUARD_MAX_AIPS`. -/
  maxAips : Nat
  /-- `CONFIG_NET_WIREGUARD_REPLAY_WINDOW / 64`. -/
  replayWords : Nat
  /-- `CONFIG_NET_WIREGUARD_PKTSIZE`. -/
  pktsize : Nat
  /-- `CONFIG_NET_WIREGUARD_LOAD_THRESHOLD`. -/
  loadThreshold : U32
  replayWords_pos : 0 < replayWords
  /-- The window size is a 64-bit constant. -/
  replayWindow_lt : replayWords * 64 < 2 ^ 64

/-! ### Timers and limits -/

def cookieSecretMaxAge : U32 := 2 * 60
def rekeyAfterMessages : U64 := 1#64 <<< 60
def rejectAfterMessages : U64 := 0xFFFFFFFFFFFFFFFF - (1#64 <<< 13)
def rekeyAfterTime : U32 := 120
def rejectAfterTime : U32 := 180
def rekeyTimeout : U32 := 5
def maxInitiationsPerSecond : U32 := 2

/-- `wireguard_sys_now`, `wg_now`: milliseconds in 32 bits, never zero. -/
def sysNow (time : Nat) : U32 :=
  let ms := BitVec.ofNat 32 time
  if ms = 0 then 1 else ms

/-- `wireguard_expired`, `wg_expired`, for a clock that reads `now`. -/
def expired (now createdMillis validSeconds : U32) : Bool :=
  let diff := now - createdMillis
  validSeconds * 1000 ≤ diff

/-- Byte order of a 32-bit address. -/
def ntohl (a : U32) : U32 :=
  a.extractLsb' 0 8 ++ a.extractLsb' 8 8 ++ a.extractLsb' 16 8 ++ a.extractLsb' 24 8

/-- The mask of the first `len` bits, in network byte order. -/
def netmask (len : Nat) : U32 := ntohl (BitVec.allOnes 32 <<< (32 - len))

/-! ### Sessions -/

/-- `struct wireguard_keypair`, `struct wg_keypair_s`. -/
structure Keypair (cfg : Config) where
  valid : Bool
  initiator : Bool
  keypairMillis : U32
  sendingKey : Key
  sendingValid : Bool
  sendingCounter : U64
  receivingKey : Key
  receivingValid : Bool
  lastTx : U32
  lastRx : U32
  replayBitmap : Fin cfg.replayWords → U64
  replayCounter : U64
  localIndex : U32
  remoteIndex : U32
  /-- Which session this is; not in the code. -/
  sid : Nat
  /-- When that session was started; not in the code. -/
  born : Nat

/-- `struct wireguard_handshake`, `struct wg_handshake_s`. -/
structure Handshake where
  valid : Bool
  initiator : Bool
  localIndex : U32
  remoteIndex : U32
  ephemeralPrivate : Key
  remoteEphemeral : Key
  hash : Key
  chainingKey : Key

/-- `struct wireguard_allowed_ip`, `struct wg_allowed_s`. -/
structure AllowedIp where
  valid : Bool
  ip : U32
  mask : U32
  deriving DecidableEq

/-- `struct wireguard_peer`, `struct wg_peer_s`. -/
structure Peer (cfg : Config) where
  valid : Bool
  active : Bool
  connectIp : U32
  connectPort : U16
  ip : U32
  port : U16
  keepaliveInterval : U16
  allowedSourceIps : Fin cfg.maxAips → AllowedIp
  publicKey : Key
  presharedKey : Key
  publicKeyDh : Key
  currKeypair : Keypair cfg
  prevKeypair : Keypair cfg
  nextKeypair : Keypair cfg
  greatestTimestamp : Bytes 12
  handshake : Handshake
  cookieMillis : U32
  cookie : Bytes 16
  handshakeMac1Valid : Bool
  handshakeMac1 : Bytes 16
  labelCookieKey : Key
  labelMac1Key : Key
  lastInitiationRx : U32
  lastInitiationTx : U32
  lastTx : U32
  lastRx : U32
  sendHandshake : Bool
  /-- `rx_bytes`; the flat port keeps it as `peer_rx_bytes[]` beside the peers. -/
  rxBytes : U64
  /-- `tx_bytes`, likewise. -/
  txBytes : U64

/-- `struct wireguard_device`, `struct wg_device_s`. -/
structure Device (cfg : Config) where
  valid : Bool
  publicKey : Key
  privateKey : Key
  cookieSecret : Key
  cookieSecretMillis : U32
  labelCookieKey : Key
  labelMac1Key : Key
  peers : Fin cfg.maxPeers → Peer cfg

variable {cfg : Config}

/-- The zeroed record. -/
def Keypair.zero : Keypair cfg where
  valid := false
  initiator := false
  keypairMillis := 0
  sendingKey := Bytes.zero 32
  sendingValid := false
  sendingCounter := 0
  receivingKey := Bytes.zero 32
  receivingValid := false
  lastTx := 0
  lastRx := 0
  replayBitmap := fun _ => 0
  replayCounter := 0
  localIndex := 0
  remoteIndex := 0
  sid := 0
  born := 0

def Handshake.zero : Handshake where
  valid := false
  initiator := false
  localIndex := 0
  remoteIndex := 0
  ephemeralPrivate := Bytes.zero 32
  remoteEphemeral := Bytes.zero 32
  hash := Bytes.zero 32
  chainingKey := Bytes.zero 32

def AllowedIp.zero : AllowedIp where
  valid := false
  ip := 0
  mask := 0

def Peer.zero : Peer cfg where
  valid := false
  active := false
  connectIp := 0
  connectPort := 0
  ip := 0
  port := 0
  keepaliveInterval := 0
  allowedSourceIps := fun _ => AllowedIp.zero
  publicKey := Bytes.zero 32
  presharedKey := Bytes.zero 32
  publicKeyDh := Bytes.zero 32
  currKeypair := Keypair.zero
  prevKeypair := Keypair.zero
  nextKeypair := Keypair.zero
  greatestTimestamp := Bytes.zero 12
  handshake := Handshake.zero
  cookieMillis := 0
  cookie := Bytes.zero 16
  handshakeMac1Valid := false
  handshakeMac1 := Bytes.zero 16
  labelCookieKey := Bytes.zero 32
  labelMac1Key := Bytes.zero 32
  lastInitiationRx := 0
  lastInitiationTx := 0
  lastTx := 0
  lastRx := 0
  sendHandshake := false
  rxBytes := 0
  txBytes := 0

def Device.zero : Device cfg where
  valid := false
  publicKey := Bytes.zero 32
  privateKey := Bytes.zero 32
  cookieSecret := Bytes.zero 32
  cookieSecretMillis := 0
  labelCookieKey := Bytes.zero 32
  labelMac1Key := Bytes.zero 32
  peers := fun _ => Peer.zero

/-! ### Slots

The code passes a pointer to one of the three keypairs of a peer; here it is the name
of the slot, and the keypair behind it is read again after every update of the peer.
-/

namespace Peer

/-- The keypair a slot pointer points to. -/
def keypair (p : Peer cfg) : Slots (Keypair cfg)
  | .curr => p.currKeypair
  | .prev => p.prevKeypair
  | .next => p.nextKeypair

/-- Write through a slot pointer. -/
def setKeypair (p : Peer cfg) (s : Slot) (kp : Keypair cfg) : Peer cfg :=
  match s with
  | .curr => { p with currKeypair := kp }
  | .prev => { p with prevKeypair := kp }
  | .next => { p with nextKeypair := kp }

@[simp] theorem keypair_setKeypair_self (p : Peer cfg) (s : Slot) (kp : Keypair cfg) :
    (p.setKeypair s kp).keypair s = kp := by
  cases s <;> rfl

theorem keypair_setKeypair_of_ne (p : Peer cfg) {s t : Slot} (kp : Keypair cfg) (h : t ≠ s) :
    (p.setKeypair s kp).keypair t = p.keypair t := by
  cases s <;> cases t <;> first | rfl | exact absurd rfl h

@[simp] theorem setKeypair_self (p : Peer cfg) (s : Slot) : p.setKeypair s (p.keypair s) = p := by
  cases s <;> rfl

@[simp] theorem setKeypair_setKeypair (p : Peer cfg) (s : Slot) (a b : Keypair cfg) :
    (p.setKeypair s a).setKeypair s b = p.setKeypair s b := by
  cases s <;> rfl

end Peer

namespace Device

/-- Write one peer of the table. -/
def setPeer (d : Device cfg) (x : Fin cfg.maxPeers) (p : Peer cfg) : Device cfg :=
  { d with peers := Function.update d.peers x p }

@[simp] theorem setPeer_peers_self (d : Device cfg) (x : Fin cfg.maxPeers) (p : Peer cfg) :
    (d.setPeer x p).peers x = p := by
  simp [setPeer]

theorem setPeer_peers_of_ne (d : Device cfg) {x y : Fin cfg.maxPeers} (p : Peer cfg)
    (h : y ≠ x) : (d.setPeer x p).peers y = d.peers y := by
  simp [setPeer, h]

@[simp] theorem setPeer_setPeer (d : Device cfg) (x : Fin cfg.maxPeers) (p q : Peer cfg) :
    (d.setPeer x p).setPeer x q = d.setPeer x q := by
  simp [setPeer]

@[simp] theorem setPeer_self (d : Device cfg) (x : Fin cfg.maxPeers) :
    d.setPeer x (d.peers x) = d := by
  simp [setPeer]

end Device

/-! ### Messages

The wire structures are packed.  A message is built as a record and sent as its bytes;
a received one is read at the fields' offsets.
-/

def messageInvalid : Byte := 0
def messageHandshakeInitiation : Byte := 1
def messageHandshakeResponse : Byte := 2
def messageCookieReply : Byte := 3
def messageTransportData : Byte := 4

/-- `struct message_handshake_initiation`, `struct wg_msg_init_s`. -/
structure MsgInit where
  sender : U32
  ephemeral : Key
  encStatic : Bytes 48
  encTimestamp : Bytes 28
  mac1 : Bytes 16
  mac2 : Bytes 16

/-- `struct message_handshake_response`, `struct wg_msg_response_s`. -/
structure MsgResponse where
  sender : U32
  receiver : U32
  ephemeral : Key
  encEmpty : Bytes 16
  mac1 : Bytes 16
  mac2 : Bytes 16

/-- `struct message_cookie_reply`, `struct wg_msg_cookie_s`. -/
structure MsgCookie where
  receiver : U32
  nonce : Bytes 24
  encCookie : Bytes 32

/-- Sizes of the wire structures. -/
def msgInitLen : Nat := 148
def msgResponseLen : Nat := 92
def msgCookieLen : Nat := 64
def msgDataLen : Nat := 16

/-- Type byte and reserved bytes. -/
def msgHeader (type : Byte) : List Byte := [type, 0, 0, 0]

namespace MsgInit

/-- The message up to mac1. -/
def body (m : MsgInit) : List Byte :=
  msgHeader messageHandshakeInitiation ++ ((writeLe 4 m.sender).toList ++
    (m.ephemeral.toList ++ (m.encStatic.toList ++ m.encTimestamp.toList)))

def bytes (m : MsgInit) : List Byte := m.body ++ (m.mac1.toList ++ m.mac2.toList)

def parse (data : List Byte) : MsgInit where
  sender := readLe 32 (slice data 4 4).toList
  ephemeral := slice data 8 32
  encStatic := slice data 40 48
  encTimestamp := slice data 88 28
  mac1 := slice data 116 16
  mac2 := slice data 132 16

theorem body_length (m : MsgInit) : m.body.length = 116 := by
  simp [body, msgHeader]

@[simp] theorem bytes_length (m : MsgInit) : m.bytes.length = msgInitLen := by
  simp [bytes, body_length, msgInitLen]

end MsgInit

namespace MsgResponse

/-- The message up to mac1. -/
def body (m : MsgResponse) : List Byte :=
  msgHeader messageHandshakeResponse ++ ((writeLe 4 m.sender).toList ++
    ((writeLe 4 m.receiver).toList ++ (m.ephemeral.toList ++ m.encEmpty.toList)))

def bytes (m : MsgResponse) : List Byte := m.body ++ (m.mac1.toList ++ m.mac2.toList)

def parse (data : List Byte) : MsgResponse where
  sender := readLe 32 (slice data 4 4).toList
  receiver := readLe 32 (slice data 8 4).toList
  ephemeral := slice data 12 32
  encEmpty := slice data 44 16
  mac1 := slice data 60 16
  mac2 := slice data 76 16

theorem body_length (m : MsgResponse) : m.body.length = 60 := by
  simp [body, msgHeader]

@[simp] theorem bytes_length (m : MsgResponse) : m.bytes.length = msgResponseLen := by
  simp [bytes, body_length, msgResponseLen]

end MsgResponse

namespace MsgCookie

def bytes (m : MsgCookie) : List Byte :=
  msgHeader messageCookieReply ++ ((writeLe 4 m.receiver).toList ++
    (m.nonce.toList ++ m.encCookie.toList))

def parse (data : List Byte) : MsgCookie where
  receiver := readLe 32 (slice data 4 4).toList
  nonce := slice data 8 24
  encCookie := slice data 32 32

@[simp] theorem bytes_length (m : MsgCookie) : m.bytes.length = msgCookieLen := by
  simp [bytes, msgHeader, msgCookieLen]

end MsgCookie

/-- The header of a transport data message. -/
def dataHeader (receiver : U32) (counter : U64) : List Byte :=
  msgHeader messageTransportData ++ ((writeLe 4 receiver).toList ++ (writeLe 8 counter).toList)

@[simp] theorem dataHeader_length (receiver : U32) (counter : U64) :
    (dataHeader receiver counter).length = msgDataLen := by
  simp [dataHeader, msgHeader, msgDataLen]

/-- `hdr->receiver`. -/
def dataReceiver (data : List Byte) : U32 := readLe 32 (slice data 4 4).toList

/-- `hdr->counter`. -/
def dataCounter (data : List Byte) : U64 := readLe 64 (slice data 8 8).toList

end NuttxWireguard
