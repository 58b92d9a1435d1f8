/-
The handshake, from one device to the other.

The initiator builds an initiation, the responder opens it and answers, and the initiator
opens the answer.  If each device has the other as its peer, every step succeeds, whatever
keypairs the two hold already, and the sessions they start mirror each other.  The first
datagram the initiator then sends has the responder take its session into use.

An index drawn is free, which is why the answer finds the handshake it is for, and the first
datagram its session.
-/
import NuttxWireguard.Kernel.RoundTrip
import NuttxWireguard.Kernel.Indices
import NuttxWireguard.Transcript

namespace NuttxWireguard.Kernel

open Lib

/-! ### The four steps -/

/-- The private key an ephemeral key pair gets. -/
def Env.ephemeralPrivate {cfg : Config} (env : Env cfg) (x : Fin cfg.maxPeers) : Key :=
  Crypto.clamp (env.ephemeral x).2

/-- What it takes for device `a` to shake hands with its peer `x`, which is device `b`, at the
TAI64N time `t`; of `b`, device `a` is peer `y`. -/
structure Exchange {cfgA cfgB : Config} (c : Crypto) (envA : Env cfgA) (envB : Env cfgB)
    (a : Device cfgA) (b : Device cfgB) (x : Fin cfgA.maxPeers) (y : Fin cfgB.maxPeers)
    (t : Bytes 12) : Prop where
  initiator : ConfiguredFor c a x b.publicKey
  responder : ConfiguredFor c b y a.publicKey
  presharedKey : (a.peers x).presharedKey = (b.peers y).presharedKey
  timestamp : envA.tai64n x = some t
  newer : beNat (b.peers y).greatestTimestamp.toList < beNat t.toList
  admitted : rateLimited envB.now (b.peers y) = false
  /-- Random bytes are available, and among the indices drawn is a free one. -/
  randomA : (envA.ephemeral x).1 = true
  randomB : (envB.ephemeral y).1 = true
  drawsA : ∃ buf ∈ envA.draws x, FreeIndex a (readLe 32 buf.toList)
  drawsB : ∃ buf ∈ envB.draws y, FreeIndex b (readLe 32 buf.toList)
  publicA : c.publicKey (envA.ephemeralPrivate x) ≠ Bytes.zero 32
  publicB : c.publicKey (envB.ephemeralPrivate y) ≠ Bytes.zero 32
  /-- The key agreements of the protocol: initiator's key first, `e` for ephemeral and `s` for
  static. -/
  es : KeysAgree c (envA.ephemeralPrivate x) b.privateKey
  ss : KeysAgree c a.privateKey b.privateKey
  ee : KeysAgree c (envA.ephemeralPrivate x) (envB.ephemeralPrivate y)
  se : KeysAgree c a.privateKey (envB.ephemeralPrivate y)

section Steps

variable {cfgA cfgB : Config} {c : Crypto} {envA : Env cfgA} {envB : Env cfgB} {a : Device cfgA}
  {b : Device cfgB} {x : Fin cfgA.maxPeers} {y : Fin cfgB.maxPeers} {t : Bytes 12} {i j : U32}

theorem wgGeneratePrivateKey_eq {cfg : Config} {env : Env cfg} {x : Fin cfg.maxPeers}
    (h : (env.ephemeral x).1 = true) :
    wgGeneratePrivateKey env x = (true, env.ephemeralPrivate x) :=
  if_pos h

theorem generate_ephemeral {cfg : Config} {env : Env cfg} {x : Fin cfg.maxPeers}
    (h : c.publicKey (env.ephemeralPrivate x) ≠ Bytes.zero 32) :
    c.generatePublicKey (env.ephemeralPrivate x) = some (c.publicKey (env.ephemeralPrivate x)) :=
  generatePublicKey_eq (clamp_ne_zero _) h

variable (c envA envB a b x y t i j)

/-- What the initiation of an exchange seals. -/
def initSeal : SealedInit :=
  sealedInit c b.publicKey (c.publicKey (envA.ephemeralPrivate x)) a.publicKey
    (c.x25519 (envA.ephemeralPrivate x) b.publicKey) (c.x25519 a.privateKey b.publicKey) t

/-- The initiation, under index `i`. -/
def initMsg : MsgInit :=
  signInit c envA.now (a.peers x) i (c.publicKey (envA.ephemeralPrivate x))
    ((initSeal c envA a b x t).encStatic, (initSeal c envA a b x t).encTimestamp)

/-- The peer of the initiator, waiting for the response. -/
def awaiting : Peer cfgA :=
  { a.peers x with handshake := { (a.peers x).handshake with
      valid := true
      initiator := true
      localIndex := i
      ephemeralPrivate := envA.ephemeralPrivate x
      chainingKey := (initSeal c envA a b x t).chainingKey
      hash := (initSeal c envA a b x t).hash } }

/-- The peer of the responder, once it has the initiation. -/
def answering : Peer cfgB :=
  acceptInit envB.now (b.peers y) (initMsg c envA a b x t i)
    ⟨y, t, (initSeal c envA a b x t).hash, (initSeal c envA a b x t).chainingKey⟩

/-- What the response of an exchange seals. -/
def responseSeal : SealedResponse :=
  sealedResponse c (initSeal c envA a b x t).hash (initSeal c envA a b x t).chainingKey
    (c.publicKey (envB.ephemeralPrivate y))
    (c.x25519 (envA.ephemeralPrivate x) (c.publicKey (envB.ephemeralPrivate y)))
    (c.x25519 a.privateKey (c.publicKey (envB.ephemeralPrivate y))) (b.peers y).presharedKey

/-- The response, under index `j`. -/
def responseMsg : MsgResponse :=
  signResponse c envB.now (answering c envA envB a b x y t i) j i
    (c.publicKey (envB.ephemeralPrivate y)) (responseSeal c envA envB a b x y t).encEmpty

/-- The peer of the responder, once it has answered. -/
def answered : Peer cfgB :=
  { answering c envA envB a b x y t i with handshake :=
      { (answering c envA envB a b x y t i).handshake with
        ephemeralPrivate := envB.ephemeralPrivate y
        chainingKey := (responseSeal c envA envB a b x y t).chainingKey
        hash := c.mixHash (responseSeal c envA envB a b x y t).hash
          (responseSeal c envA envB a b x y t).encEmpty.toList
        localIndex := j } }

/-- The peer of the initiator, once it has the response. -/
def finished : Peer cfgA :=
  { awaiting c envA a b x t i with handshake :=
      { (awaiting c envA a b x t i).handshake with
        remoteEphemeral := c.publicKey (envB.ephemeralPrivate y)
        hash := (responseSeal c envA envB a b x y t).hash
        chainingKey := (responseSeal c envA envB a b x y t).chainingKey
        remoteIndex := j } }

variable {c envA envB a b x y t i j}

namespace Exchange

variable (h : Exchange c envA envB a b x y t)

include h

/-- Both sides precomputed the same agreement of their static keys. -/
theorem publicKeyDh : (a.peers x).publicKeyDh = c.x25519 a.privateKey b.publicKey ∧
    (b.peers y).publicKeyDh = c.x25519 a.privateKey b.publicKey := by
  refine ⟨h.initiator.dh, ?_⟩
  rw [h.responder.dh, h.initiator.own, h.responder.own]
  exact h.ss.comm.symm

/-- The initiator builds its initiation. -/
theorem createInit (hi : wgUniqueIndex a (envA.draws x) = some i) :
    wgCreateInit c envA a x
      = some (a.setPeer x (awaiting c envA a b x t i), some (initMsg c envA a b x t i)) := by
  have hes : c.dh (envA.ephemeralPrivate x) (a.peers x).publicKey
      = some (c.x25519 (envA.ephemeralPrivate x) b.publicKey) := by
    rw [h.initiator.key, h.responder.own]
    exact h.es.dh
  unfold wgCreateInit
  rw [h.timestamp, wgGeneratePrivateKey_eq h.randomA]
  dsimp only
  rw [if_neg (by decide), generate_ephemeral h.publicA]
  dsimp only
  rw [initiate_eq rfl rfl hes h.publicKeyDh.1, hi]
  unfold awaiting initMsg initSeal
  rw [← h.initiator.key]

/-- The responder accepts it. -/
theorem processInit (haead : c.AeadCorrect) :
    wgProcessInit c envB.now b (initMsg c envA a b x t i)
      = some (b.setPeer y (answering c envA envB a b x y t i), y) := by
  have hes : c.dh b.privateKey (c.publicKey (envA.ephemeralPrivate x))
      = some (c.x25519 (envA.ephemeralPrivate x) b.publicKey) := by
    rw [h.responder.own]
    exact h.es.dh_symm
  have hopen : openInit c b (initMsg c envA a b x t i)
      = some ⟨y, t, (initSeal c envA a b x t).hash, (initSeal c envA a b x t).chainingKey⟩ :=
    openInit_eq haead hes h.responder.peer h.publicKeyDh.2 t i _ _
  have hnewer : timestampReplayed (b.peers y) t = false := by
    refine decide_eq_false fun hle => ?_
    have hpos := (memcmp_pos t.toList (b.peers y).greatestTimestamp.toList (by simp)).mpr h.newer
    omega
  unfold wgProcessInit
  rw [hopen]
  simp only [Option.bind_eq_bind, Option.bind_some]
  rw [if_neg (by rw [hnewer]; decide), if_neg (by rw [h.admitted]; decide)]
  rfl

/-- It builds its response. -/
theorem createResponse
    (hj : wgUniqueIndex (b.setPeer y (answering c envA envB a b x y t i)) (envB.draws y) = some j) :
    wgCreateResponse c envB (b.setPeer y (answering c envA envB a b x y t i)) y
      = some (b.setPeer y (answered c envA envB a b x y t i j),
          some (responseMsg c envA envB a b x y t i j)) := by
  have hee : c.dh (envB.ephemeralPrivate y) (c.publicKey (envA.ephemeralPrivate x))
      = some (c.x25519 (envA.ephemeralPrivate x) (c.publicKey (envB.ephemeralPrivate y))) :=
    h.ee.dh_symm
  have hse : c.dh (envB.ephemeralPrivate y) (b.peers y).publicKey
      = some (c.x25519 a.privateKey (c.publicKey (envB.ephemeralPrivate y))) := by
    rw [h.responder.key, h.initiator.own]
    exact h.se.dh_symm
  unfold wgCreateResponse
  dsimp only
  rw [Device.setPeer_peers_self, if_neg (by simp [answering, acceptInit]),
    wgGeneratePrivateKey_eq h.randomB]
  dsimp only
  rw [if_neg (by decide), generate_ephemeral h.publicB]
  dsimp only
  rw [respond_eq hee hse, hj,
    ← b.setPeer_setPeer y (answering c envA envB a b x y t i) (answered c envA envB a b x y t i j)]
  rfl

/-- The initiator accepts it. -/
theorem processResponse (haead : c.AeadCorrect) :
    processResponse c (a.setPeer x (awaiting c envA a b x t i)) (awaiting c envA a b x t i)
        (responseMsg c envA envB a b x y t i j)
      = some (finished c envA envB a b x y t i j) :=
  processResponse_eq (p := awaiting c envA a b x t i) haead rfl rfl h.presharedKey h.ee.dh h.se.dh
    j i _ _

end Exchange

end Steps

/-! ### The two sessions -/

/-- What one keypair sends with the other receives with, and each has the other's index. -/
structure Mirrored {cfgA cfgB : Config} (kp : Keypair cfgA) (kp' : Keypair cfgB) : Prop where
  valid : kp.valid = true ∧ kp'.valid = true
  sending : kp.sendingKey = kp'.receivingKey
  receiving : kp.receivingKey = kp'.sendingKey
  remote : kp.remoteIndex = kp'.localIndex
  remote' : kp'.remoteIndex = kp.localIndex

/-- The keypair that waited in `p` is the current one of `q`, its keys and indices as they were;
the one before it is the previous one. -/
structure Promoted {cfg : Config} (p q : Peer cfg) : Prop where
  valid : q.currKeypair.valid = true
  sending : q.currKeypair.sendingKey = p.nextKeypair.sendingKey
  receiving : q.currKeypair.receivingKey = p.nextKeypair.receivingKey
  localIndex : q.currKeypair.localIndex = p.nextKeypair.localIndex
  remoteIndex : q.currKeypair.remoteIndex = p.nextKeypair.remoteIndex
  session : q.currKeypair.sid = p.nextKeypair.sid
  next : q.nextKeypair = Keypair.zero
  prev : q.prevKeypair = p.currKeypair

section Sessions

variable {cfg : Config} {c : Crypto} {env : Env cfg} {n : Netdev cfg} {x : Fin cfg.maxPeers}

@[simp] theorem startSession_peer (initiator : Bool) :
    (startSession c env n x initiator).peer x
      = wgStartSession c env.now n.nextSid env.time (n.peer x) initiator :=
  n.wg.setPeer_peers_self x _

/-- Handshakes that agree lead to mirrored sessions. -/
theorem mirrored_of_agree {cfg' : Config} {hs hs' : Handshake}
    (hck : hs.chainingKey = hs'.chainingKey) (hremote : hs.remoteIndex = hs'.localIndex)
    (hremote' : hs'.remoteIndex = hs.localIndex) (now now' : U32) (sid born sid' born' : Nat) :
    Mirrored (sessionKeypair c now sid born hs true : Keypair cfg)
      (sessionKeypair c now' sid' born' hs' false : Keypair cfg') where
  valid := ⟨rfl, rfl⟩
  sending := congrArg (fun k => (c.kdf2 k []).1) hck
  receiving := congrArg (fun k => (c.kdf2 k []).2) hck
  remote := hremote
  remote' := hremote'

/-- A session is live until its reject time. -/
theorem not_sendingExhausted {now : U32} {kp : Keypair cfg} (hcounter : kp.sendingCounter = 0)
    (hlive : expired now kp.keypairMillis rejectAfterTime = false) :
    sendingExhausted now kp = false := by
  unfold sendingExhausted
  rw [hcounter, hlive]
  decide

/-- The transmit queue takes one more datagram. -/
structure HasRoom (env : Env cfg) (n : Netdev cfg) : Prop where
  running : n.running = true
  quota : n.ntx < wgTxQuota
  alloc : env.malloc n.mallocs = true

theorem HasRoom.wgTxEnqueue (h : HasRoom env n) (data : List Byte) (ip : U32) (port : U16) :
    wgTxEnqueue env n data ip port
      = ({ n with
          mallocs := n.mallocs + 1
          txqueue := n.txqueue ++ [⟨data, ip, port⟩]
          ntx := n.ntx + 1 }, none) := by
  unfold Kernel.wgTxEnqueue
  rw [if_neg (by simpa [h.running] using h.quota)]
  dsimp only
  rw [if_neg (by simp [h.alloc])]

/-- The initiator of a session may send on it at once. -/
theorem wgSendData_keepalive {kp : Keypair cfg} (hkp : (n.peer x).currKeypair = kp)
    (hvalid : kp.valid = true) (hinitiator : kp.initiator = true) (hcounter : kp.sendingCounter = 0)
    (hlive : expired env.now kp.keypairMillis rejectAfterTime = false) (hroom : HasRoom env n) :
    ∃ n', wgSendData c env n x [] = (n', none) ∧
      n'.txqueue = n.txqueue ++
        [⟨dataHeader kp.remoteIndex 0 ++ c.aeadEncrypt [] [] 0 kp.sendingKey, (n.peer x).ip,
          (n.peer x).port⟩] := by
  have hslot : sendingSlot (n.peer x).keypair = .curr := by
    refine if_neg fun hc => hc.2.1 ?_
    show (n.peer x).currKeypair.initiator = true
    rw [hkp, hinitiator]
  have hcurr : (n.peer x).keypair .curr = kp := hkp
  have husable : sendingUsable kp = true := by simp [sendingUsable, hvalid, hinitiator]
  have hfits : ¬msgDataLen + paddedLen ([] : List Byte).length + authtagLen > wgCryptBufsize cfg := by
    have hmono := paddedLen_mono (Nat.zero_le cfg.pktsize)
    unfold wgCryptBufsize
    rw [List.length_nil]
    omega
  have hroom' : HasRoom env
      (n.observe (.encrypted x kp.sid kp.initiator kp.sendingKey 0 env.time)) :=
    ⟨hroom.running, hroom.quota, hroom.alloc⟩
  unfold wgSendData
  dsimp only
  rw [hslot, hcurr, if_neg (by simp [husable]),
    if_neg (by simp [not_sendingExhausted hcounter hlive]), if_neg hfits]
  simp only [encryptPacket, hcounter]
  rw [hroom'.wgTxEnqueue]
  exact ⟨_, rfl, rfl⟩

/-- A session nothing was received on takes the first counter. -/
theorem wgCheckReplay_fresh {kp : Keypair cfg} (hbitmap : kp.replayBitmap = fun _ => 0)
    (htop : kp.replayCounter = 0) : (wgCheckReplay kp 0).1 = true := by
  have htracks : kp.Tracks [] := by
    unfold Keypair.Tracks
    rw [hbitmap, htop]
    exact Window.tracks_nil
  refine (wgCheckReplay_spec htracks 0).1.mpr ⟨by decide, ?_⟩
  have hpos := cfg.replayWords_pos
  exact Window.tracks_nil.accepts_of_ge (n := cfg.replayWords) (Nat.zero_le _) (by omega)

/-- Accepting a packet under the keypair that waits promotes it. -/
theorem promoted_of_acceptPacket (p : Peer cfg) (now : U32) (counter : U64) (ip : U32) (port : U16)
    (len : Nat) (hvalid : p.nextKeypair.valid = true) :
    Promoted p (acceptPacket now p .next (wgCheckReplay p.nextKeypair counter).2 ip port len) := by
  have hslots := congrArg PeerView.slots (acceptPacket_view p .next now counter ip port len)
  obtain ⟨bitmap, top, hreceived⟩ := receivedKeypair_cases now p.nextKeypair counter
  have hcurr : (acceptPacket now p .next (wgCheckReplay p.nextKeypair counter).2 ip port
      len).currKeypair = receivedKeypair now p.nextKeypair counter := congrFun hslots .curr
  rw [hreceived] at hcurr
  refine ⟨?_, ?_, ?_, ?_, ?_, ?_, congrFun hslots .next, congrFun hslots .prev⟩
  all_goals rw [hcurr]
  exact hvalid

/-- The first datagram of a session that waits, empty, is accepted and promotes it. -/
structure Confirms (c : Crypto) (env : Env cfg) (m : Netdev cfg) (y : Fin cfg.maxPeers)
    (data : List Byte) (ip : U32) (port : U16) : Prop where
  found : peerByReceiver m.wg (dataReceiver data) = some y
  accepted : (wgProcessData c env m y data ip port).log
    = .opened y (m.peer y).nextKeypair.sid 0 true env.time :: m.log
  promoted : Promoted (m.peer y) ((wgProcessData c env m y data ip port).peer y)

theorem confirms_of_waiting (haead : c.AeadCorrect) {kp : Keypair cfg}
    (hkp : (n.peer x).nextKeypair = kp) (hholds : HoldsIndex n.wg x .next kp.localIndex)
    (hnew : NewSession kp.sid kp.born kp)
    (hlive : expired env.now kp.keypairMillis rejectAfterTime = false) (ip : U32) (port : U16) :
    Confirms c env n x (dataHeader kp.localIndex 0 ++ c.aeadEncrypt [] [] 0 kp.receivingKey) ip
      port := by
  have hnext : (n.peer x).keypair .next = kp := hkp
  have hlimit : receivingExhausted env.now ((n.peer x).keypair .next) = false := by
    unfold receivingExhausted
    rw [hnext, hnew.receivingValid, hlive, hnew.replayCounter]
    decide
  have hfresh : (wgCheckReplay ((n.peer x).keypair .next) 0).1 = true := by
    rw [hnext]
    exact wgCheckReplay_fresh hnew.replayBitmap hnew.replayCounter
  have hdata := wgProcessData_sealed haead hholds.keypairByIndex hlimit 0 [] ip port hfresh
  rw [if_neg (by simp)] at hdata
  have hinner : ∀ m : Netdev cfg,
      wgProcessInner env m x (([] : List Byte).length + authtagLen) = m :=
    fun m => if_neg (by simp)
  rw [hinner, hnext] at hdata
  refine ⟨?_, ?_, ?_⟩
  · rw [dataReceiver_dataHeader]
    exact hholds.peerByReceiver
  · rw [hdata, hkp]
    rfl
  · rw [hdata, setPeer_peer_self, ← hkp]
    refine promoted_of_acceptPacket _ _ _ _ _ _ ?_
    rw [hkp]
    exact hnew.valid

end Sessions

/-! ### The whole exchange -/

section Exchange

variable {cfgA cfgB : Config} {c : Crypto} {envA : Env cfgA} {envB : Env cfgB} {n : Netdev cfgA}
  {m : Netdev cfgB} {x : Fin cfgA.maxPeers} {y : Fin cfgB.maxPeers} {t : Bytes 12}

/-- The responder's session is found by the index it drew. -/
theorem Exchange.holdsIndex (h : Exchange c envA envB n.wg m.wg x y t) {i j : U32}
    (hj : FreeIndex (m.wg.setPeer y (answering c envA envB n.wg m.wg x y t i)) j) :
    HoldsIndex (startSession c envB
        { m with wg := m.wg.setPeer y (answered c envA envB n.wg m.wg x y t i j) } y false).wg
      y .next j := by
  have hstarted : ∀ q : Peer cfgB,
      (m.wg.setPeer y (answered c envA envB n.wg m.wg x y t i j)).setPeer y q
        = (m.wg.setPeer y (answering c envA envB n.wg m.wg x y t i)).setPeer y q := by
    intro q
    rw [Device.setPeer_setPeer, Device.setPeer_setPeer]
  unfold startSession wgStartSession
  dsimp only [Netdev.peer, Netdev.setPeer, Netdev.observe]
  rw [hstarted, Device.setPeer_peers_self]
  refine hj.holdsIndex h.responder.valid ?_ rfl rfl rfl
  rw [Device.setPeer_peers_self]
  rfl

@[simp] theorem expired_self (now : U32) : expired now now rejectAfterTime = false := by
  unfold expired
  rw [BitVec.sub_self]
  decide

/-- **A handshake completes**: every step succeeds, the sessions mirror each other, and the
initiator's first datagram has the responder take its session into use. -/
theorem handshake_completes (h : Exchange c envA envB n.wg m.wg x y t) (haead : c.AeadCorrect) :
    ∃ (a : Device cfgA) (init : MsgInit) (b b' : Device cfgB) (resp : MsgResponse) (p : Peer cfgA),
      wgCreateInit c envA n.wg x = some (a, some init) ∧
      wgProcessInit c envB.now m.wg (MsgInit.parse init.bytes) = some (b, y) ∧
      wgCreateResponse c envB b y = some (b', some resp) ∧
      peerByHandshake a (MsgResponse.parse resp.bytes).receiver = some x ∧
      processResponse c a (a.peers x) (MsgResponse.parse resp.bytes) = some p ∧
      ∀ env : Env cfgA,
        let n' := startSession c env (({ n with wg := a } : Netdev cfgA).setPeer x p) x true
        let m' := startSession c envB { m with wg := b' } y false
        Mirrored (n'.peer x).currKeypair (m'.peer y).nextKeypair ∧
        (HasRoom env n → ∃ n'' out, wgSendData c env n' x [] = (n'', none) ∧
          n''.txqueue = n'.txqueue ++ [out] ∧
          ∀ (env' : Env cfgB) (ip : U32) (port : U16),
            expired env'.now envB.now rejectAfterTime = false →
            Confirms c env' m' y out.data ip port) := by
  obtain ⟨i, hi⟩ := exists_wgUniqueIndex_iff.mpr h.drawsA
  have hfreeA := wgUniqueIndex_free hi
  obtain ⟨buf, hmem, hbuf⟩ := h.drawsB
  have hdraws : ∃ buf ∈ envB.draws y,
      FreeIndex (m.wg.setPeer y (answering c envA envB n.wg m.wg x y t i))
        (readLe 32 buf.toList) := ⟨buf, hmem, hbuf.setPeer rfl rfl⟩
  obtain ⟨j, hj⟩ := exists_wgUniqueIndex_iff.mpr hdraws
  have hfreeB := wgUniqueIndex_free hj
  refine ⟨_, _, _, _, _, finished c envA envB n.wg m.wg x y t i j, h.createInit hi, ?_,
    h.createResponse hj, ?_, ?_, fun env => ?_⟩
  · rw [MsgInit.parse_bytes]
    exact h.processInit haead
  · rw [MsgResponse.parse_bytes]
    exact hfreeA.peerByHandshake h.initiator.valid ⟨rfl, rfl⟩ rfl
  · rw [MsgResponse.parse_bytes, Device.setPeer_peers_self]
    exact h.processResponse haead
  intro n' m'
  have hinit : (n'.peer x).currKeypair = sessionKeypair c env.now n.nextSid env.time
      (finished c envA envB n.wg m.wg x y t i j).handshake true := by
    rw [startSession_peer, setPeer_peer_self]
    rfl
  have hresp : (m'.peer y).nextKeypair = sessionKeypair c envB.now m.nextSid envB.time
      (answered c envA envB n.wg m.wg x y t i j).handshake false := by
    rw [startSession_peer]
    exact congrArg (fun p : Peer cfgB => (wgStartSession c envB.now m.nextSid envB.time p
      false).nextKeypair) (m.wg.setPeer_peers_self y _)
  have hmirrored : Mirrored (n'.peer x).currKeypair (m'.peer y).nextKeypair := by
    rw [hinit, hresp]
    refine mirrored_of_agree ?_ ?_ ?_ _ _ _ _ _ _
    all_goals rfl
  refine ⟨hmirrored, fun hroom => ?_⟩
  obtain ⟨n'', hsent, hqueue⟩ := wgSendData_keepalive (c := c) hinit rfl rfl rfl
    (expired_self env.now) (⟨hroom.running, hroom.quota, hroom.alloc⟩ : HasRoom env n')
  refine ⟨n'', _, hsent, hqueue, fun env' ip port hlive => ?_⟩
  rw [← hinit, hmirrored.remote, hmirrored.sending, hresp]
  exact confirms_of_waiting haead hresp (h.holdsIndex hfreeB) (sessionKeypair_new c _ _ _ _) hlive
    ip port

end Exchange

namespace Sample

open NuttxWireguard.Sample

/-- A device brought up with private key `own` and one peer, with public key `other`. -/
def bringUpWith (own other : Key) : List (Event config) :=
  [.setIf (env 1000)
      { flags := wgIfHasPrivateKey, privateKey := own, listenPort := 0, addr := 0, netmask := 0 },
    .setPeer { firstReq none with publicKey := other }, .ifup (env 1000)]

/-- What the two sides draw. -/
def drawing (ephemeral : Key) : Env config := { env 1001 with ephemeral := fun _ => (true, ephemeral) }

/-- Two devices that are each other's peer, as their commands leave them. -/
theorem exchange : ∃ n m, ReachableState Crypto.plain n ∧ ReachableState Crypto.plain m ∧
    HasRoom (env 1002) n ∧
    Exchange Crypto.plain (drawing (key 24 64)) (drawing (key 32 64)) n.wg m.wg first first
      (timestamp 1) := by
  have hpair : ((state (bringUpWith (key 8 64) (key 25 64))).any fun n =>
      (state (bringUpWith (key 16 64) (key 1 64))).any fun m =>
        decide (n.running = true ∧ n.ntx < wgTxQuota) &&
        decide (n.wg.privateKey = key 8 64 ∧ m.wg.privateKey = key 16 64) &&
        decide (n.wg.publicKey = key 1 64 ∧ m.wg.publicKey = key 25 64) &&
        decide (peerByPubkey n.wg (key 25 64) = some first ∧
          peerByPubkey m.wg (key 1 64) = some first) &&
        decide ((n.wg.peers first).publicKeyDh = Crypto.plain.x25519 (key 8 64) (key 25 64) ∧
          (m.wg.peers first).publicKeyDh = Crypto.plain.x25519 (key 16 64) (key 1 64)) &&
        decide ((n.wg.peers first).presharedKey = (m.wg.peers first).presharedKey) &&
        decide (beNat (m.wg.peers first).greatestTimestamp.toList < beNat (timestamp 1).toList) &&
        !rateLimited (sysNow 1001) (m.wg.peers first) &&
        decide (wgUniqueIndex n.wg ((env 1001).draws first) = some 1 ∧
          wgUniqueIndex m.wg ((env 1001).draws first) = some 1)) = true := by
    decide +kernel
  obtain ⟨n, hn, hpair⟩ := (Option.any_eq_true _ _).mp hpair
  obtain ⟨m, hm, hpair⟩ := (Option.any_eq_true _ _).mp hpair
  simp only [Bool.and_eq_true, decide_eq_true_eq, Bool.not_eq_true'] at hpair
  obtain ⟨⟨⟨⟨⟨⟨⟨⟨hroom, hpriv⟩, hpub⟩, hpeer⟩, hdh⟩, hpsk⟩, hnewer⟩, hrate⟩, hdraws⟩ := hpair
  refine ⟨n, m, reachable hn, reachable hm, ⟨hroom.1, hroom.2, rfl⟩, ?_⟩
  have hagree : KeysAgree Crypto.plain (Crypto.clamp (key 24 64)) (key 16 64) ∧
      KeysAgree Crypto.plain (key 8 64) (key 16 64) ∧
      KeysAgree Crypto.plain (Crypto.clamp (key 24 64)) (Crypto.clamp (key 32 64)) ∧
      KeysAgree Crypto.plain (key 8 64) (Crypto.clamp (key 32 64)) := by
    refine ⟨⟨?_, ?_⟩, ⟨?_, ?_⟩, ⟨?_, ?_⟩, ⟨?_, ?_⟩⟩
    all_goals decide +kernel
  exact {
    initiator := {
      own := by
        rw [hpub.1, hpriv.1]
        decide +kernel
      peer := by rw [hpub.2]; exact hpeer.1
      dh := by rw [hpub.2, hpriv.1]; exact hdh.1 }
    responder := {
      own := by
        rw [hpub.2, hpriv.2]
        decide +kernel
      peer := by rw [hpub.1]; exact hpeer.2
      dh := by rw [hpub.1, hpriv.2]; exact hdh.2 }
    presharedKey := hpsk
    timestamp := rfl
    newer := hnewer
    admitted := hrate
    randomA := rfl
    randomB := rfl
    drawsA := exists_wgUniqueIndex_iff.mp ⟨1, hdraws.1⟩
    drawsB := exists_wgUniqueIndex_iff.mp ⟨1, hdraws.2⟩
    publicA := by decide +kernel
    publicB := by decide +kernel
    es := hpriv.2 ▸ hagree.1
    ss := hpriv.1 ▸ hpriv.2 ▸ hagree.2.1
    ee := hagree.2.2.1
    se := hpriv.1 ▸ hagree.2.2.2 }

end Sample

/-- Two devices as their configuration commands leave them. -/
theorem handshake_completes_sample : ∃ (n m : Netdev Sample.config) (a b b' : Device Sample.config)
    (init : MsgInit) (resp : MsgResponse) (p : Peer Sample.config),
    ReachableState Crypto.plain n ∧ ReachableState Crypto.plain m ∧
      wgCreateInit Crypto.plain (Sample.drawing (Sample.key 24 64)) n.wg Sample.first
        = some (a, some init) ∧
      wgProcessInit Crypto.plain (sysNow 1001) m.wg (MsgInit.parse init.bytes)
        = some (b, Sample.first) ∧
      wgCreateResponse Crypto.plain (Sample.drawing (Sample.key 32 64)) b Sample.first
        = some (b', some resp) ∧
      processResponse Crypto.plain a (a.peers Sample.first) (MsgResponse.parse resp.bytes)
        = some p ∧
      ∃ (n'' : Netdev Sample.config) (out : Outbound), wgSendData Crypto.plain (Sample.env 1002)
          (startSession Crypto.plain (Sample.env 1002)
            (({ n with wg := a } : Netdev Sample.config).setPeer Sample.first p) Sample.first true)
          Sample.first [] = (n'', none) ∧
        Confirms Crypto.plain (Sample.env 1003)
          (startSession Crypto.plain (Sample.drawing (Sample.key 32 64)) { m with wg := b' }
            Sample.first false)
          Sample.first out.data (Sample.address 9 9 9 9) 1234 := by
  obtain ⟨n, m, hn, hm, hroom, h⟩ := Sample.exchange
  obtain ⟨a, init, b, b', resp, p, hinit, hopen, hresp, -, hdone, hsessions⟩ :=
    handshake_completes h Crypto.plain_aeadCorrect
  obtain ⟨-, hkeepalive⟩ := hsessions (Sample.env 1002)
  obtain ⟨n'', out, hsent, -, hconfirms⟩ := hkeepalive hroom
  exact ⟨n, m, a, b, b', init, resp, p, hn, hm, hinit, hopen, hresp, hdone, n'', out, hsent,
    hconfirms (Sample.env 1003) _ _ (by decide)⟩

end NuttxWireguard.Kernel
