/-
A handshake between two ends, whatever driver each of them runs.

`Driver` is what a handshake asks of an end: to start one, to read a datagram, and four laws, one
for each message, that say what the state holds afterwards and which datagram was handed over.
The laws speak of one end only and of messages as they come in.

That two ends then come to share a session is proved once, for any two drivers
(`Driver.connects`).  The flat port and the in-kernel driver are each shown to be one, so it holds
of two of a kind and of one of each.
-/
import NuttxWireguard.Kernel.Handshake

namespace NuttxWireguard

namespace Interop

open Lib
open Kernel (FreeIndex Mirrored Promoted)

/-! ### What an end holds after each message -/

section Ends

variable {cfg : Config} (c : Crypto)

/-- What an initiation to peer `x` seals; `es` is the agreement with the peer's static key. -/
def initSeal (d : Device cfg) (x : Fin cfg.maxPeers) (ephemeral es : Key) (t : Bytes 12) :
    SealedInit :=
  sealedInit c (d.peers x).publicKey (c.publicKey ephemeral) d.publicKey es (d.peers x).publicKeyDh t

/-- What the response to an opened initiation seals; `ee` and `se` are the agreements with the two
keys of the initiator. -/
def responseSeal (p : Peer cfg) (o : OpenedInit cfg) (ephemeral ee se : Key) : SealedResponse :=
  sealedResponse c o.hash o.chainingKey (c.publicKey ephemeral) ee se p.presharedKey

/-- The initiation under index `i`, from what it seals. -/
def initiation (now : U32) (p : Peer cfg) (i : U32) (ephemeral : Key) (m : SealedInit) : MsgInit :=
  signInit c now p i (c.publicKey ephemeral) (m.encStatic, m.encTimestamp)

/-- The peer that was sent it. -/
def awaiting (now : U32) (p : Peer cfg) (i : U32) (ephemeral : Key) (m : SealedInit) : Peer cfg :=
  { p with
    handshake := { p.handshake with
      valid := true
      initiator := true
      localIndex := i
      ephemeralPrivate := ephemeral
      chainingKey := m.chainingKey
      hash := m.hash }
    sendHandshake := false
    lastInitiationTx := now
    handshakeMac1 := (initiation c now p i ephemeral m).mac1
    handshakeMac1Valid := true }

/-- The response under index `j` to an initiation under index `i`. -/
def response (now : U32) (p : Peer cfg) (j i : U32) (ephemeral : Key) (m : SealedResponse) :
    MsgResponse :=
  signResponse c now p j i (c.publicKey ephemeral) m.encEmpty

/-- The peer that sent an accepted initiation. -/
def opened (now : U32) (p : Peer cfg) (msg : MsgInit) (o : OpenedInit cfg) (addr : U32)
    (port : U16) : Peer cfg :=
  { acceptInit now p msg o with ip := addr, port := port }

/-- What its handshake record holds once the response under index `i` is built. -/
def responding (now : U32) (p : Peer cfg) (msg : MsgInit) (o : OpenedInit cfg) (ephemeral : Key)
    (i : U32) (m : SealedResponse) : Handshake :=
  { (acceptInit now p msg o).handshake with
    ephemeralPrivate := ephemeral
    chainingKey := m.chainingKey
    hash := c.mixHash m.hash m.encEmpty.toList
    localIndex := i }

/-- The session between indices `own` and `remote` under a chaining key. -/
def session (now : U32) (sid born : Nat) (own remote : U32) (chainingKey : Key)
    (initiator : Bool) : Keypair cfg :=
  sessionKeypair c now sid born
    { Handshake.zero with localIndex := own, remoteIndex := remote, chainingKey := chainingKey }
    initiator

/-- A session depends on the handshake through its indices and the chaining key. -/
theorem sessionKeypair_eq (now : U32) (sid born : Nat) (hs : Handshake) (initiator : Bool) :
    (sessionKeypair c now sid born hs initiator : Keypair cfg)
      = session c now sid born hs.localIndex hs.remoteIndex hs.chainingKey initiator :=
  rfl

/-- The first datagram of a session, empty. -/
def firstData (kp : Keypair cfg) : List Byte :=
  dataHeader kp.remoteIndex 0 ++ c.aeadEncrypt [] [] 0 kp.sendingKey

/-- The peer has been heard from this address. -/
def HeardFrom (p : Peer cfg) (addr : U32) (port : U16) : Prop := p.ip = addr ∧ p.port = port

/-- No keypair has the index. -/
def UnusedIndex (d : Device cfg) (i : U32) : Prop := ∀ x s, ((d.peers x).keypair s).localIndex ≠ i

theorem UnusedIndex.setPeer {d : Device cfg} {i : U32} (h : UnusedIndex d i) {x : Fin cfg.maxPeers}
    {p : Peer cfg} (hp : p.keypair = (d.peers x).keypair) : UnusedIndex (d.setPeer x p) i := by
  intro y s
  by_cases hy : y = x
  · rw [hy, Device.setPeer_peers_self, hp]
    exact h x s
  · rw [Device.setPeer_peers_of_ne d p hy]
    exact h y s

/-- What an end knows of an initiation it is about to accept from peer `y`. -/
structure Acceptable (now : U32) (d : Device cfg) (y : Fin cfg.maxPeers) (msg : MsgInit)
    (o : OpenedInit cfg) : Prop where
  mac1 : msg.mac1 = c.mac msg.body d.labelMac1Key.toList
  opens : openInit c d msg = some o
  peer : o.peer = y
  newer : beNat (d.peers y).greatestTimestamp.toList < beNat o.timestamp.toList
  admitted : rateLimited now (d.peers y) = false

/-- What an end that started a handshake knows of the response to it. -/
structure Completes (d : Device cfg) (x : Fin cfg.maxPeers) (msg : MsgResponse) (q : Peer cfg) :
    Prop where
  mac1 : msg.mac1 = c.mac msg.body d.labelMac1Key.toList
  pending : peerByHandshake d msg.receiver = some x
  completes : processResponse c d (d.peers x) msg = some q
  unused : UnusedIndex d q.handshake.localIndex

section

variable {c}

theorem Acceptable.checkMac1 {now : U32} {d : Device cfg} {y : Fin cfg.maxPeers} {msg : MsgInit}
    {o : OpenedInit cfg} (h : Acceptable c now d y msg o) :
    checkMac1 c d (msg.bytes.take (msgInitLen - 32)) msg.mac1 = true := by
  rw [msg.take_bytes]
  exact decide_eq_true h.mac1.symm

theorem Acceptable.fresh {now : U32} {d : Device cfg} {y : Fin cfg.maxPeers} {msg : MsgInit}
    {o : OpenedInit cfg} (h : Acceptable c now d y msg o) :
    timestampReplayed (d.peers y) o.timestamp = false := by
  refine decide_eq_false fun hle => ?_
  have hpos := (memcmp_pos o.timestamp.toList (d.peers y).greatestTimestamp.toList
    (by simp)).mpr h.newer
  omega

theorem Completes.checkMac1 {d : Device cfg} {x : Fin cfg.maxPeers} {msg : MsgResponse}
    {q : Peer cfg} (h : Completes c d x msg q) :
    checkMac1 c d (msg.bytes.take (msgResponseLen - 32)) msg.mac1 = true := by
  rw [show msg.bytes.take (msgResponseLen - 32) = msg.body from List.take_left' msg.body_length]
  exact decide_eq_true h.mac1.symm

end

theorem processResponse_remoteIndex {c : Crypto} {d : Device cfg} {p q : Peer cfg}
    {msg : MsgResponse} (h : processResponse c d p msg = some q) :
    q.handshake.remoteIndex = msg.sender := by
  unfold processResponse at h
  dsimp only at h
  split at h
  · cases h
  · simp only [Option.bind_eq_bind, Option.bind_eq_some_iff, Option.some.injEq] at h
    obtain ⟨_, _, _, _, _, _, rfl⟩ := h
    rfl

end Ends

/-! ### Whose index it is -/

section Index

variable {cfg : Config} {d : Device cfg} {x : Fin cfg.maxPeers} {p : Peer cfg} {i : U32}

/-- An index stays with its slot while the slots of its peer keep theirs. -/
theorem holdsIndex_setPeer {s : Slot} (h : HoldsIndex d x s i) (hvalid : p.valid = true)
    (hslots : ∀ t, (p.keypair t).valid = ((d.peers x).keypair t).valid ∧
      (p.keypair t).localIndex = ((d.peers x).keypair t).localIndex) :
    HoldsIndex (d.setPeer x p) x s i := by
  refine ⟨?_, ?_, ?_, fun y t hy hfull ht => ?_⟩
  · rw [Device.setPeer_peers_self]
    exact hvalid
  · rw [Device.setPeer_peers_self, (hslots s).1]
    exact h.keypair
  · rw [Device.setPeer_peers_self, (hslots s).2]
    exact h.index
  · by_cases hyx : y = x
    · rw [hyx, Device.setPeer_peers_self] at hfull ht
      rw [(hslots t).1] at hfull
      rw [(hslots t).2] at ht
      rw [hyx]
      exact h.only x t h.peer hfull ht
    · rw [Device.setPeer_peers_of_ne d p hyx] at hy hfull ht
      exact h.only y t hy hfull ht

/-- A keypair added under an index no other has, current at once, is the one found by it. -/
theorem UnusedIndex.holdsIndex (h : UnusedIndex d i) {kp : Keypair cfg} (hvalid : p.valid = true)
    (hslots : p.keypair = (d.peers x).keypair) (hkp : kp.valid = true)
    (hinitiator : kp.initiator = true) (hindex : kp.localIndex = i) :
    HoldsIndex (d.setPeer x (addKeypair p kp)) x .curr i := by
  have hview := addKeypair_view p kp
  rw [if_pos hinitiator] at hview
  have hadded : (addKeypair p kp).keypair = p.keypair.installCurr Keypair.zero full kp :=
    congrArg PeerView.slots hview
  refine ⟨?_, ?_, ?_, fun y t _ hfull ht => ?_⟩
  · rw [Device.setPeer_peers_self]
    exact (congrArg PeerView.valid hview).trans hvalid
  · rw [Device.setPeer_peers_self, hadded]
    exact hkp
  · rw [Device.setPeer_peers_self, hadded]
    exact hindex
  · by_cases hyx : y = x
    · rw [hyx, Device.setPeer_peers_self, hadded] at hfull ht
      rcases Slots.full_installCurr full_zero hfull with ⟨hcurr, -⟩ | ⟨-, u, hu⟩
      · exact ⟨hyx, hcurr⟩
      · rw [hu, hslots] at ht
        exact absurd ht (h x u)
    · rw [Device.setPeer_peers_of_ne d _ hyx] at ht
      exact absurd ht (h y t)

/-- A promoted keypair keeps its index. -/
theorem holdsIndex_promoted (h : HoldsIndex d x .next i) (hvalid : p.valid = true)
    (hpromoted : Promoted (d.peers x) p) : HoldsIndex (d.setPeer x p) x .curr i := by
  refine ⟨?_, ?_, ?_, fun y t hy hfull ht => ?_⟩
  · rw [Device.setPeer_peers_self]
    exact hvalid
  · rw [Device.setPeer_peers_self]
    exact hpromoted.valid
  · rw [Device.setPeer_peers_self]
    exact hpromoted.localIndex.trans h.index
  · by_cases hyx : y = x
    · rw [hyx, Device.setPeer_peers_self] at hfull ht
      cases t with
      | curr => exact ⟨hyx, rfl⟩
      | prev =>
          -- the keypair that was current had another index
          have hprev : p.keypair .prev = (d.peers x).keypair .curr := hpromoted.prev
          rw [hprev] at hfull ht
          exact nomatch (h.only x .curr h.peer hfull ht).2
      | next =>
          have hnext : p.keypair .next = Keypair.zero := hpromoted.next
          rw [hnext] at hfull
          cases hfull
    · rw [Device.setPeer_peers_of_ne d p hyx] at hy hfull ht
      exact absurd (h.only y t hy hfull ht).1 hyx

end Index

/-! ### What the steps of either driver come to -/

section Shared

variable {cfg : Config} {c : Crypto} {d : Device cfg} {x : Fin cfg.maxPeers} {p q : Peer cfg}
  {kp : Keypair cfg} {addr : U32} {port : U16}

/-- The session of a completed handshake is added, and the peer heard from. -/
theorem Completes.added {msg : MsgResponse} (h : Completes c d x msg q) (p : Peer cfg)
    (kp : Keypair cfg) (addr : U32) (port : U16)
    (hp : p.view = { q.view with ip := addr, port := port }) (hvalid : kp.valid = true)
    (hinitiator : kp.initiator = true) (hindex : kp.localIndex = q.handshake.localIndex) :
    let d' := d.setPeer x (addKeypair p kp)
    (d'.peers x).currKeypair = kp ∧ HoldsIndex d' x .curr kp.localIndex ∧
      HeardFrom (d'.peers x) addr port := by
  intro d'
  have hview := processResponse_view h.completes
  have hadded := addKeypair_view p kp
  rw [if_pos hinitiator] at hadded
  have hself : d'.peers x = addKeypair p kp := Device.setPeer_peers_self d x _
  refine ⟨?_, ?_, ?_, ?_⟩
  · rw [hself]
    exact congrFun (congrArg PeerView.slots hadded) .curr
  · refine UnusedIndex.holdsIndex (hindex ▸ h.unused) ?_ ?_ hvalid hinitiator rfl
    · exact (congrArg PeerView.valid hp).trans
        ((congrArg PeerView.valid hview).trans (valid_of_peerByHandshake h.pending))
    · exact (congrArg PeerView.slots hp).trans (congrArg PeerView.slots hview)
  · rw [hself]
    exact (congrArg PeerView.ip hadded).trans (congrArg PeerView.ip hp)
  · rw [hself]
    exact (congrArg PeerView.port hadded).trans (congrArg PeerView.port hp)

/-- The first datagram of a session is sent. -/
theorem sent_first (hcurr : (d.peers x).currKeypair = kp)
    (hholds : HoldsIndex d x .curr kp.localIndex) (hheard : HeardFrom (d.peers x) addr port)
    {lastTx : U32} (hp : p.view = { (d.peers x).view with
      slots := (d.peers x).keypair.put .curr { kp with sendingCounter := 1, lastTx := lastTx } }) :
    let d' := d.setPeer x p
    (d'.peers x).currKeypair = { kp with sendingCounter := 1, lastTx := lastTx } ∧
      HoldsIndex d' x .curr kp.localIndex ∧ HeardFrom (d'.peers x) addr port := by
  intro d'
  have hslots : p.keypair
      = (d.peers x).keypair.put .curr { kp with sendingCounter := 1, lastTx := lastTx } :=
    congrArg PeerView.slots hp
  have hself : d'.peers x = p := Device.setPeer_peers_self d x p
  refine ⟨?_, ?_, ?_, ?_⟩
  · rw [hself]
    exact congrFun hslots .curr
  · refine holdsIndex_setPeer hholds ((congrArg PeerView.valid hp).trans hholds.peer) fun t => ?_
    rw [hslots]
    cases t with
    | curr =>
        rw [show (d.peers x).keypair .curr = kp from hcurr]
        exact ⟨rfl, rfl⟩
    | prev => exact ⟨rfl, rfl⟩
    | next => exact ⟨rfl, rfl⟩
  · rw [hself]
    exact (congrArg PeerView.ip hp).trans hheard.1
  · rw [hself]
    exact (congrArg PeerView.port hp).trans hheard.2

/-- A session that waits takes the first counter until its time is over. -/
theorem session_takes (cfg : Config) (c : Crypto) {now started : U32} (sid born : Nat) (own remote : U32) (chainingKey : Key)
    (hlive : expired now started rejectAfterTime = false) :
    let kp : Keypair cfg := session c started sid born own remote chainingKey false
    kp.valid = true ∧ receivingExhausted now kp = false ∧
      (Kernel.wgCheckReplay kp 0).1 = true := by
  refine ⟨rfl, ?_, Kernel.wgCheckReplay_fresh rfl rfl⟩
  show (!true || expired now started rejectAfterTime || decide ((0 : U64) ≥ rejectAfterMessages))
    = false
  rw [hlive]
  decide

/-- The first datagram under the keypair that waits is accepted. -/
theorem accepted_first {own : U32} (hholds : HoldsIndex d x .next own) (now : U32) (addr : U32)
    (port : U16) (len : Nat) :
    let d' := d.setPeer x (acceptPacket now (d.peers x) .next
      (Kernel.wgCheckReplay (d.peers x).nextKeypair 0).2 addr port len)
    Promoted (d.peers x) (d'.peers x) ∧ HoldsIndex d' x .curr own ∧
      HeardFrom (d'.peers x) addr port := by
  intro d'
  have hpromoted := Kernel.promoted_of_acceptPacket (d.peers x) now 0 addr port len hholds.keypair
  have hview := acceptPacket_view (d.peers x) .next now 0 addr port len
  have hself := Device.setPeer_peers_self d x (acceptPacket now (d.peers x) .next
    (Kernel.wgCheckReplay (d.peers x).nextKeypair 0).2 addr port len)
  refine ⟨?_, ?_, ?_⟩
  · exact hself.symm ▸ hpromoted
  · exact holdsIndex_promoted hholds ((congrArg PeerView.valid hview).trans hholds.peer) hpromoted
  · exact hself.symm ▸ ⟨congrArg PeerView.ip hview, congrArg PeerView.port hview⟩

end Shared

section FirstData

variable {cfg : Config} (own : U32) (c : Crypto) (kp : Keypair cfg)

/-- What an end that waits under index `own` reads of the first datagram. -/
def firstDatagram : List Byte := dataHeader own 0 ++ c.aeadEncrypt [] [] 0 kp.receivingKey

theorem firstDatagram_length : (firstDatagram own c kp).length = 31 + 1 := by
  unfold firstDatagram
  rw [List.length_append, dataHeader_length, c.aeadEncrypt_length]
  rfl

theorem dataReceiver_firstDatagram : dataReceiver (firstDatagram own c kp) = own :=
  dataReceiver_dataHeader _ _ _

theorem dataCounter_firstDatagram : dataCounter (firstDatagram own c kp) = 0 :=
  dataCounter_dataHeader _ _ _

theorem messageType_firstDatagram :
    messageType (firstDatagram own c kp) = messageTransportData :=
  messageType_dataHeader _ _ _ (by rw [c.aeadEncrypt_length]; exact Nat.le_add_left _ _)

variable {c}

theorem decrypt_firstDatagram (haead : c.AeadCorrect) :
    decryptPacket c kp ((firstDatagram own c kp).drop msgDataLen) 0 = some [] := by
  unfold firstDatagram
  rw [drop_dataHeader]
  exact haead [] [] 0 _

end FirstData

/-! ### The interface -/

/-- An end of a handshake. -/
structure Driver (c : Crypto) (cfg : Config) where
  State : Type
  /-- What one step reads from the platform. -/
  Env : Type
  device : State → Device cfg
  /-- The datagrams handed over so far. -/
  out : State → List Outbound
  now : Env → U32
  /-- The TAI64N time, if there is one. -/
  timestamp : Env → Fin cfg.maxPeers → Option (Bytes 12)
  /-- The private key an ephemeral key pair gets. -/
  ephemeral : Env → Fin cfg.maxPeers → Key
  /-- A handshake with the peer is started. -/
  start : Env → State → Fin cfg.maxPeers → Option State
  /-- A datagram is read. -/
  receive : Env → State → List Byte → U32 → U16 → Option State
  /-- The platform does not stand in the way of starting a handshake, -/
  CanStart : Env → State → Fin cfg.maxPeers → Prop
  /-- of answering an initiation, -/
  CanAnswer : Env → State → Fin cfg.maxPeers → Prop
  /-- of completing a handshake and sending a first datagram, -/
  CanComplete : Env → State → Prop
  /-- and of reading a datagram. -/
  CanRead : Env → State → Prop
  starts : ∀ {env s x t es}, CanStart env s x → ((device s).peers x).valid = true →
    timestamp env x = some t → c.publicKey (ephemeral env x) ≠ Bytes.zero 32 →
    c.dh (ephemeral env x) ((device s).peers x).publicKey = some es →
    let p := (device s).peers x
    let m := initSeal c (device s) x (ephemeral env x) es t
    ∃ s' i, start env s x = some s' ∧ FreeIndex (device s) i ∧
      device s' = (device s).setPeer x (awaiting c (now env) p i (ephemeral env x) m) ∧
      out s' = out s ++ [⟨(initiation c (now env) p i (ephemeral env x) m).bytes, p.ip, p.port⟩]
  answers : ∀ {env s y msg o ee se}, CanAnswer env s y →
    Acceptable c (now env) (device s) y msg o →
    c.publicKey (ephemeral env y) ≠ Bytes.zero 32 →
    c.dh (ephemeral env y) msg.ephemeral = some ee →
    c.dh (ephemeral env y) ((device s).peers y).publicKey = some se → ∀ addr port,
    let p := (device s).peers y
    let m := responseSeal c p o (ephemeral env y) ee se
    ∃ s' j sid born, receive env s msg.bytes addr port = some s' ∧
      out s' = out s ++
        [⟨(response c (now env) p j msg.sender (ephemeral env y) m).bytes, addr, port⟩] ∧
      ((device s').peers y).nextKeypair
        = session c (now env) sid born j msg.sender m.chainingKey false ∧
      HoldsIndex (device s') y .next j
  completes : ∀ {env s x msg q}, CanComplete env s → Completes c (device s) x msg q →
    ∀ addr port, ∃ s' sid born lastTx,
      let kp : Keypair cfg := session c (now env) sid born q.handshake.localIndex msg.sender
        q.handshake.chainingKey true
      receive env s msg.bytes addr port = some s' ∧
      out s' = out s ++ [⟨firstData c kp, addr, port⟩] ∧
      ((device s').peers x).currKeypair = { kp with sendingCounter := 1, lastTx := lastTx } ∧
      HoldsIndex (device s') x .curr kp.localIndex ∧
      HeardFrom ((device s').peers x) addr port
  confirms : ∀ {env s y started sid born own remote chainingKey}, CanRead env s →
    ((device s).peers y).nextKeypair
      = session c started sid born own remote chainingKey false →
    HoldsIndex (device s) y .next own → expired (now env) started rejectAfterTime = false →
    ∀ addr port,
    let kp := ((device s).peers y).nextKeypair
    ∃ s', receive env s (firstDatagram own c kp) addr port = some s' ∧
      Promoted ((device s).peers y) ((device s').peers y) ∧ HoldsIndex (device s') y .curr own ∧
      HeardFrom ((device s').peers y) addr port

/-! ### The conversation -/

section Conversation

variable {c : Crypto} {cfgA cfgB : Config}

/-- Each device has the other as its peer, with one pre-shared key, and computes MACs with the
other's keys. -/
structure Acquainted (c : Crypto) (a : Device cfgA) (x : Fin cfgA.maxPeers) (b : Device cfgB)
    (y : Fin cfgB.maxPeers) : Prop where
  initiator : ConfiguredFor c a x b.publicKey
  responder : ConfiguredFor c b y a.publicKey
  presharedKey : (a.peers x).presharedKey = (b.peers y).presharedKey
  label : (a.peers x).labelMac1Key = b.labelMac1Key
  label' : (b.peers y).labelMac1Key = a.labelMac1Key
  ss : KeysAgree c a.privateKey b.privateKey

/-- What a device holds of itself and of peer `x` belongs to the keys beside it. -/
structure Coherent (c : Crypto) (a : Device cfgA) (x : Fin cfgA.maxPeers) : Prop where
  own : a.publicKey = c.publicKey a.privateKey
  label : a.labelMac1Key = c.macKey a.publicKey Crypto.labelMac1
  dh : (a.peers x).publicKeyDh = c.x25519 a.privateKey (a.peers x).publicKey
  peerLabel : (a.peers x).labelMac1Key = c.macKey (a.peers x).publicKey Crypto.labelMac1

/-- Each device finds the other in its table, with one pre-shared key. -/
structure Knows (a : Device cfgA) (x : Fin cfgA.maxPeers) (b : Device cfgB)
    (y : Fin cfgB.maxPeers) : Prop where
  there : peerByPubkey a b.publicKey = some x
  back : peerByPubkey b a.publicKey = some y
  presharedKey : (a.peers x).presharedKey = (b.peers y).presharedKey

theorem peerByPubkey_of_setup {d e : Device cfg} (h : ∀ x, (e.peers x).setup = (d.peers x).setup)
    (publicKey : Key) : peerByPubkey e publicKey = peerByPubkey d publicKey := by
  unfold peerByPubkey
  congr 1
  funext x
  have hvalid : (e.peers x).valid = (d.peers x).valid := congrArg Setup.valid (h x)
  have hkey : (e.peers x).publicKey = (d.peers x).publicKey := congrArg Setup.publicKey (h x)
  rw [hvalid, hkey]

/-- What is known of a device is told by its key and by what configuration decided. -/
theorem Knows.of_setup {a : Device cfgA} {x : Fin cfgA.maxPeers} {b d : Device cfgB}
    {y : Fin cfgB.maxPeers} (h : Knows a x b y) (hkey : d.publicKey = b.publicKey)
    (hsetup : ∀ z, (d.peers z).setup = (b.peers z).setup) : Knows a x d y where
  there := by rw [hkey]; exact h.there
  back := by rw [peerByPubkey_of_setup hsetup]; exact h.back
  presharedKey := h.presharedKey.trans (congrArg Setup.presharedKey (hsetup y)).symm

theorem Knows.acquainted {a : Device cfgA} {x : Fin cfgA.maxPeers} {b : Device cfgB}
    {y : Fin cfgB.maxPeers} (h : Knows a x b y) (ha : Coherent c a x) (hb : Coherent c b y)
    (hss : KeysAgree c a.privateKey b.privateKey) : Acquainted c a x b y where
  initiator := ⟨ha.own, h.there, by rw [ha.dh, key_of_peerByPubkey h.there]⟩
  responder := ⟨hb.own, h.back, by rw [hb.dh, key_of_peerByPubkey h.back]⟩
  presharedKey := h.presharedKey
  label := by rw [ha.peerLabel, hb.label, key_of_peerByPubkey h.there]
  label' := by rw [hb.peerLabel, ha.label, key_of_peerByPubkey h.back]
  ss := hss

/-- The two devices share a session both may use: it is each one's current one, what one seals the
other opens, each finds it by the index the other sends with, and each knows where the other
is. -/
structure Connected (a : Device cfgA) (x : Fin cfgA.maxPeers) (b : Device cfgB)
    (y : Fin cfgB.maxPeers) (addrA : U32) (portA : U16) (addrB : U32) (portB : U16) : Prop where
  mirrored : Mirrored (a.peers x).currKeypair (b.peers y).currKeypair
  heldA : HoldsIndex a x .curr (b.peers y).currKeypair.remoteIndex
  heldB : HoldsIndex b y .curr (a.peers x).currKeypair.remoteIndex
  heardA : HeardFrom (b.peers y) addrA portA
  heardB : HeardFrom (a.peers x) addrB portB

/-- What one end seals the other opens, in both directions. -/
theorem Connected.opens {a : Device cfgA} {x : Fin cfgA.maxPeers} {b : Device cfgB}
    {y : Fin cfgB.maxPeers} {addrA addrB : U32} {portA portB : U16}
    (h : Connected a x b y addrA portA addrB portB) (haead : c.AeadCorrect) (src : List Byte)
    (counter : U64) :
    decryptPacket c (b.peers y).currKeypair
        (c.aeadEncrypt src [] counter (a.peers x).currKeypair.sendingKey) counter = some src ∧
      decryptPacket c (a.peers x).currKeypair
        (c.aeadEncrypt src [] counter (b.peers y).currKeypair.sendingKey) counter = some src := by
  unfold decryptPacket
  rw [h.mirrored.sending, ← h.mirrored.receiving]
  exact ⟨haead _ _ _ _, haead _ _ _ _⟩

section Messages

variable {a : Device cfgA} {x : Fin cfgA.maxPeers} {b : Device cfgB} {y : Fin cfgB.maxPeers}
  (h : Acquainted c a x b y) {eA eB : Key} {t : Bytes 12} {i j : U32}

include h

theorem Acquainted.dh_static : (b.peers y).publicKeyDh = (a.peers x).publicKeyDh := by
  rw [h.responder.dh, h.initiator.dh, h.initiator.own, h.responder.own]
  exact h.ss.comm.symm

/-- The initiator's ephemeral key agrees with the key of its peer. -/
theorem Acquainted.es (hes : KeysAgree c eA b.privateKey) :
    c.dh eA (a.peers x).publicKey = some (c.x25519 eA b.publicKey) := by
  rw [h.initiator.key, h.responder.own]
  exact hes.dh

/-- And the responder's with the key of its peer. -/
theorem Acquainted.se (hse : KeysAgree c a.privateKey eB) :
    c.dh eB (b.peers y).publicKey = some (c.x25519 a.privateKey (c.publicKey eB)) := by
  rw [h.responder.key, h.initiator.own]
  exact hse.dh_symm

/-- **The responder opens what the initiator sealed.** -/
theorem Acquainted.acceptable (haead : c.AeadCorrect) (hes : KeysAgree c eA b.privateKey)
    {now now' : U32} (hnewer : beNat (b.peers y).greatestTimestamp.toList < beNat t.toList)
    (hrate : rateLimited now' (b.peers y) = false) :
    let m := initSeal c a x eA (c.x25519 eA b.publicKey) t
    Acceptable c now' b y (initiation c now (a.peers x) i eA m) ⟨y, t, m.hash, m.chainingKey⟩ := by
  refine ⟨?_, ?_, rfl, hnewer, hrate⟩
  · rw [← h.label]
    rfl
  · have hopened : c.dh b.privateKey (c.publicKey eA) = some (c.x25519 eA b.publicKey) := by
      rw [h.responder.own]
      exact hes.dh_symm
    unfold initiation signInit initSeal
    dsimp only
    rw [h.initiator.key]
    exact openInit_eq haead hopened h.responder.peer h.dh_static t i _ _

/-- **The initiator opens what the responder sealed**, whichever other way its device went on. -/
theorem Acquainted.completes (haead : c.AeadCorrect) (hee : KeysAgree c eA eB)
    (hse : KeysAgree c a.privateKey eB) (hfree : FreeIndex a i) (now now' : U32) (m : SealedInit) :
    let o : OpenedInit cfgB := ⟨y, t, m.hash, m.chainingKey⟩
    let m' := responseSeal c (b.peers y) o eB (c.x25519 eA (c.publicKey eB))
      (c.x25519 a.privateKey (c.publicKey eB))
    let p := awaiting c now (a.peers x) i eA m
    Completes c (a.setPeer x p) x (response c now' (b.peers y) j i eB m')
      { p with handshake := { p.handshake with
          remoteEphemeral := c.publicKey eB
          hash := m'.hash
          chainingKey := m'.chainingKey
          remoteIndex := j } } := by
  refine ⟨?_, hfree.peerByHandshake h.initiator.valid ⟨rfl, rfl⟩ rfl, ?_,
    UnusedIndex.setPeer hfree.keypair rfl⟩
  · show _ = c.mac _ a.labelMac1Key.toList
    rw [← h.label']
    rfl
  · rw [Device.setPeer_peers_self]
    exact processResponse_eq (p := awaiting c now (a.peers x) i eA m) haead rfl rfl h.presharedKey
      hee.dh hse.dh j i _ _

end Messages

variable (A : Driver c cfgA) (B : Driver c cfgB) {s : A.State} {r : B.State} {x : Fin cfgA.maxPeers}
  {y : Fin cfgB.maxPeers}

/-- The initiator can start: it has a time that is new to the responder, and its ephemeral key
agrees with the responder's static one. -/
structure Starts (env : A.Env) (s : A.State) (r : B.State) (x : Fin cfgA.maxPeers)
    (y : Fin cfgB.maxPeers) (t : Bytes 12) : Prop where
  able : A.CanStart env s x
  timestamp : A.timestamp env x = some t
  newer : beNat ((B.device r).peers y).greatestTimestamp.toList < beNat t.toList
  publicKey : c.publicKey (A.ephemeral env x) ≠ Bytes.zero 32
  es : KeysAgree c (A.ephemeral env x) (B.device r).privateKey

/-- The responder can answer, and its ephemeral key agrees with both keys of the initiator. -/
structure Answers (env : B.Env) (s : A.State) (r : B.State) (y : Fin cfgB.maxPeers)
    (ephemeral : Key) : Prop where
  able : B.CanAnswer env r y
  admitted : rateLimited (B.now env) ((B.device r).peers y) = false
  publicKey : c.publicKey (B.ephemeral env y) ≠ Bytes.zero 32
  ee : KeysAgree c ephemeral (B.ephemeral env y)
  se : KeysAgree c (A.device s).privateKey (B.ephemeral env y)

/-- Whatever the messages of a handshake find on their way, the two ends come to share a session:
the initiator hands over one datagram; as the responder reads it, in any environment that `Admits`
it, it answers with one; as the initiator reads that, it sends one more; and when the responder has
read this one the two are connected.  Each later step asks only that the platform lets the end take
it. -/
def Driver.Shakes (envA : A.Env) (s : A.State) (r : B.State) (x : Fin cfgA.maxPeers)
    (y : Fin cfgB.maxPeers) (Admits : B.Env → Prop) : Prop :=
  ∃ s₁ init, A.start envA s x = some s₁ ∧
    A.out s₁ = A.out s ++ [⟨init, ((A.device s).peers x).ip, ((A.device s).peers x).port⟩] ∧
    ∀ envB addrA portA, Admits envB →
    ∃ r₁ resp, B.receive envB r init addrA portA = some r₁ ∧
      B.out r₁ = B.out r ++ [⟨resp, addrA, portA⟩] ∧
      ∀ envA' addrB portB, A.CanComplete envA' s₁ →
      ∃ s₂ data, A.receive envA' s₁ resp addrB portB = some s₂ ∧
        A.out s₂ = A.out s₁ ++ [⟨data, addrB, portB⟩] ∧
        ∀ envB' addrA' portA', B.CanRead envB' r₁ →
        expired (B.now envB') (B.now envB) rejectAfterTime = false →
        ∃ r₂, B.receive envB' r₁ data addrA' portA' = some r₂ ∧
          Connected (A.device s₂) x (B.device r₂) y addrA' portA' addrB portB

/-- **Two ends come to share a session**, whatever keypairs they held. -/
theorem Driver.connects (haead : c.AeadCorrect)
    (hknown : Acquainted c (A.device s) x (B.device r) y) {envA : A.Env} {t : Bytes 12}
    (hstart : Starts A B envA s r x y t) :
    A.Shakes B envA s r x y (fun envB => Answers A B envB s r y (A.ephemeral envA x)) := by
  obtain ⟨s₁, i, hs₁, hfree, hdevice, hout⟩ := A.starts hstart.able hknown.initiator.valid
    hstart.timestamp hstart.publicKey (hknown.es hstart.es)
  refine ⟨s₁, _, hs₁, hout, fun envB addrA portA hanswer => ?_⟩
  obtain ⟨r₁, j, sid, born, hr₁, hout₁, hnext, hholds⟩ := B.answers hanswer.able
    (hknown.acceptable haead hstart.es hstart.newer hanswer.admitted) hanswer.publicKey
    hanswer.ee.dh_symm (hknown.se hanswer.se) addrA portA
  refine ⟨r₁, _, hr₁, hout₁, fun envA' addrB portB hcomplete => ?_⟩
  have hcompletes := hknown.completes (t := t) (j := j) haead hanswer.ee hanswer.se hfree
    (A.now envA) (B.now envB) (initSeal c (A.device s) x (A.ephemeral envA x)
      (c.x25519 (A.ephemeral envA x) (B.device r).publicKey) t)
  dsimp only at hcompletes
  rw [← hdevice] at hcompletes
  obtain ⟨s₂, sid', born', lastTx, hs₂, hout₂, hcurr, hheldA, hheardB⟩ :=
    A.completes hcomplete hcompletes addrB portB
  refine ⟨s₂, _, hs₂, hout₂, fun envB' addrA' portA' hread hlive => ?_⟩
  obtain ⟨r₂, hr₂, hpromoted, hheldB, hheardA⟩ :=
    B.confirms hread hnext hholds hlive addrA' portA'
  rw [hnext] at hr₂
  refine ⟨r₂, hr₂, ?_, ?_, ?_, hheardA, hheardB⟩
  · refine ⟨⟨?_, hpromoted.valid⟩, ?_, ?_, ?_, ?_⟩
    · rw [hcurr]
      rfl
    · rw [hcurr, hpromoted.receiving, hnext]
      rfl
    · rw [hcurr, hpromoted.sending, hnext]
      rfl
    · rw [hcurr, hpromoted.localIndex, hnext]
      rfl
    · rw [hcurr, hpromoted.remoteIndex, hnext]
      rfl
  · rw [hpromoted.remoteIndex, hnext]
    exact hheldA
  · rw [hcurr]
    exact hheldB

end Conversation

end Interop

end NuttxWireguard
