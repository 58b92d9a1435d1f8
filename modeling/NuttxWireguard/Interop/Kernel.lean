/-
The in-kernel driver as an end of a handshake.

An index it draws is free.  What can stand in its way is its own: a peer it has no address of, a
transmit queue without room, a random source that fails.  What it hands over is in its transmit
queue until the flush sends it.
-/
import NuttxWireguard.Kernel.Handshake
import NuttxWireguard.Interop.Driver

namespace NuttxWireguard.Kernel

open Lib
open Interop

variable {cfg : Config} {c : Crypto} {env : Env cfg} {n : Netdev cfg} {d : Device cfg}
  {x : Fin cfg.maxPeers}

/-- Random bytes are available, and among the indices drawn is a free one. -/
structure DrawsFree (env : Env cfg) (d : Device cfg) (x : Fin cfg.maxPeers) : Prop where
  random : (env.ephemeral x).1 = true
  index : ∃ buf ∈ env.draws x, FreeIndex d (readLe 32 buf.toList)

/-- The datagrams handed over, sent or not. -/
def Netdev.handedOver (n : Netdev cfg) : List Outbound := n.sent ++ n.inflight.toList ++ n.txqueue

/-- The transmit queue has room whatever becomes of the device. -/
theorem HasRoom.congr {m : Netdev cfg} (h : HasRoom env n) (hrunning : m.running = n.running)
    (hntx : m.ntx = n.ntx) (hmallocs : m.mallocs = n.mallocs) : HasRoom env m :=
  ⟨hrunning.trans h.running, hntx ▸ h.quota, hmallocs ▸ h.alloc⟩

/-! ### Starting -/

theorem createInit_eq {t : Bytes 12} {es : Key} {i : U32} (ht : env.tai64n x = some t)
    (hrandom : (env.ephemeral x).1 = true)
    (hpublic : c.publicKey (env.ephemeralPrivate x) ≠ Bytes.zero 32)
    (hes : c.dh (env.ephemeralPrivate x) (d.peers x).publicKey = some es)
    (hi : wgUniqueIndex d (env.draws x) = some i) :
    let p := d.peers x
    let m := Interop.initSeal c d x (env.ephemeralPrivate x) es t
    wgCreateInit c env d x
      = some (d.setPeer x { p with handshake :=
          (Interop.awaiting c env.now p i (env.ephemeralPrivate x) m).handshake },
        some (initiation c env.now p i (env.ephemeralPrivate x) m)) := by
  unfold wgCreateInit
  rw [ht, wgGeneratePrivateKey_eq hrandom]
  dsimp only
  rw [if_neg (by decide), generate_ephemeral hpublic]
  dsimp only
  rw [initiate_eq rfl rfl hes rfl, hi]
  rfl

/-- **The driver starts a handshake.** -/
theorem wgSendInitiation_starts {t : Bytes 12} {es : Key}
    (haddr : (n.wg.peers x).ip ≠ 0 ∧ (n.wg.peers x).port ≠ 0) (hroom : HasRoom env n)
    (hfree : DrawsFree env n.wg x) (ht : env.tai64n x = some t)
    (hpublic : c.publicKey (env.ephemeralPrivate x) ≠ Bytes.zero 32)
    (hes : c.dh (env.ephemeralPrivate x) (n.wg.peers x).publicKey = some es) :
    let p := n.wg.peers x
    let m := Interop.initSeal c n.wg x (env.ephemeralPrivate x) es t
    ∃ n' i, wgSendInitiation c env n x = some n' ∧ FreeIndex n.wg i ∧
      n'.wg = n.wg.setPeer x (Interop.awaiting c env.now p i (env.ephemeralPrivate x) m) ∧
      n'.handedOver = n.handedOver ++
        [⟨(initiation c env.now p i (env.ephemeralPrivate x) m).bytes, p.ip, p.port⟩] := by
  obtain ⟨i, hi⟩ := exists_wgUniqueIndex_iff.mpr hfree.index
  have hcreate := createInit_eq (c := c) ht hfree.random hpublic hes hi
  dsimp only at hcreate ⊢
  generalize Interop.initSeal c n.wg x (env.ephemeralPrivate x) es t = m at hcreate ⊢
  unfold wgSendInitiation
  rw [if_neg (by rintro (h | h); exacts [haddr.1 h, haddr.2 h]), hcreate]
  dsimp only
  rw [(hroom.congr (m := { n with wg := n.wg.setPeer x _ }) rfl rfl rfl).wgTxEnqueue]
  refine ⟨_, i, rfl, wgUniqueIndex_free hi, ?_, ?_⟩
  · simp only [Netdev.setPeer, Netdev.observe, Netdev.peer, Device.setPeer_peers_self,
      Device.setPeer_setPeer, if_true]
    rfl
  · simp only [Netdev.handedOver, Netdev.setPeer, Netdev.observe, Netdev.peer,
      Device.setPeer_peers_self, if_true, List.append_assoc]

/-! ### Answering -/

section Answer

variable {msg : MsgInit} {o : OpenedInit cfg} {ee se : Key}

theorem processInit_eq {now : U32} (h : Acceptable c now d x msg o) :
    wgProcessInit c now d msg = some (d.setPeer x (acceptInit now (d.peers x) msg o), x) := by
  have hnew := h.fresh
  obtain ⟨-, hopen, rfl, -, hrate⟩ := h
  unfold wgProcessInit
  rw [hopen]
  simp only [Option.bind_eq_bind, Option.bind_some]
  rw [if_neg (by rw [hnew]; decide), if_neg (by rw [hrate]; decide)]

theorem createResponse_eq {ip : U32} {port : U16} {i : U32} (hrandom : (env.ephemeral x).1 = true)
    (hpublic : c.publicKey (env.ephemeralPrivate x) ≠ Bytes.zero 32)
    (hee : c.dh (env.ephemeralPrivate x) msg.ephemeral = some ee)
    (hse : c.dh (env.ephemeralPrivate x) (d.peers x).publicKey = some se)
    (hi : wgUniqueIndex (d.setPeer x (opened env.now (d.peers x) msg o ip port)) (env.draws x)
      = some i) :
    let m := Interop.responseSeal c (d.peers x) o (env.ephemeralPrivate x) ee se
    wgCreateResponse c env (d.setPeer x (opened env.now (d.peers x) msg o ip port)) x
      = some (d.setPeer x { opened env.now (d.peers x) msg o ip port with
            handshake := responding c env.now (d.peers x) msg o (env.ephemeralPrivate x) i m },
          some (response c env.now (d.peers x) i msg.sender (env.ephemeralPrivate x) m)) := by
  have hresponder : (opened env.now (d.peers x) msg o ip port).handshake.valid = true ∧
      ¬(opened env.now (d.peers x) msg o ip port).handshake.initiator = true :=
    ⟨rfl, Bool.false_ne_true⟩
  have hrespond := @respond_eq cfg c (opened env.now (d.peers x) msg o ip port)
    { (opened env.now (d.peers x) msg o ip port).handshake with
      ephemeralPrivate := env.ephemeralPrivate x } ee se hee hse (c.publicKey (env.ephemeralPrivate x))
  unfold wgCreateResponse
  dsimp only
  rw [Device.setPeer_peers_self, if_neg (not_not.mpr hresponder), wgGeneratePrivateKey_eq hrandom]
  dsimp only
  rw [if_neg (by decide), generate_ephemeral hpublic]
  dsimp only at hrespond ⊢
  rw [hrespond]
  dsimp only
  rw [hi]
  dsimp only
  rw [Device.setPeer_setPeer]
  rfl

/-- **The driver answers an initiation.** -/
theorem wgProcessInitiation_answers (h : Acceptable c env.now n.wg x msg o)
    (hroom : HasRoom env n) (hfree : DrawsFree env n.wg x)
    (hpublic : c.publicKey (env.ephemeralPrivate x) ≠ Bytes.zero 32)
    (hee : c.dh (env.ephemeralPrivate x) msg.ephemeral = some ee)
    (hse : c.dh (env.ephemeralPrivate x) (n.wg.peers x).publicKey = some se) (ip : U32)
    (port : U16) :
    let p := n.wg.peers x
    let m := Interop.responseSeal c p o (env.ephemeralPrivate x) ee se
    ∃ n' j, wgProcessInitiation c env n msg ip port = some n' ∧
      n'.handedOver = n.handedOver ++
        [⟨(response c env.now p j msg.sender (env.ephemeralPrivate x) m).bytes, ip, port⟩] ∧
      (n'.wg.peers x).nextKeypair
        = session c env.now n.nextSid env.time j msg.sender m.chainingKey false ∧
      HoldsIndex n'.wg x .next j := by
  have hvalid : (n.wg.peers x).valid = true := h.peer ▸ openInit_valid h.opens
  obtain ⟨buf, hmem, hbuf⟩ := hfree.index
  obtain ⟨j, hj⟩ := exists_wgUniqueIndex_iff.mpr ⟨buf, hmem,
    hbuf.setPeer (p := opened env.now (n.wg.peers x) msg o ip port) rfl rfl⟩
  have hproper := wgUniqueIndex_free hj
  have hcreate := createResponse_eq hfree.random hpublic hee hse hj
  dsimp only at hcreate ⊢
  generalize Interop.responseSeal c (n.wg.peers x) o (env.ephemeralPrivate x) ee se = m
    at hcreate ⊢
  set p := opened env.now (n.wg.peers x) msg o ip port with hp
  set q : Peer cfg :=
    { p with handshake := responding c env.now (n.wg.peers x) msg o (env.ephemeralPrivate x) j m }
  have haccept : wgProcessInitiation c env n msg ip port
      = wgSendResponse c env { n with
          wg := n.wg.setPeer x p
          log := .initAccepted x o.timestamp :: n.log } x := by
    unfold wgProcessInitiation
    rw [processInit_eq h]
    simp only [Netdev.setPeer, Netdev.observe, Netdev.peer, Device.setPeer_peers_self,
      Device.setPeer_setPeer]
    rfl
  rw [haccept]
  unfold wgSendResponse
  dsimp only
  rw [hcreate]
  dsimp only
  rw [(hroom.congr (m := startSession c env { n with
    wg := n.wg.setPeer x q, log := .initAccepted x o.timestamp :: n.log } x false)
    rfl rfl rfl).wgTxEnqueue]
  refine ⟨_, j, rfl, ?_, ?_, ?_⟩
  · simp only [Netdev.handedOver, startSession, Netdev.setPeer, Netdev.observe, Netdev.peer,
      Device.setPeer_peers_self, List.append_assoc]
    rfl
  · simp only [startSession, Netdev.setPeer, Netdev.observe, Netdev.peer,
      Device.setPeer_peers_self]
    rfl
  · simp only [startSession, Netdev.setPeer, Netdev.observe, Netdev.peer,
      Device.setPeer_peers_self, Device.setPeer_setPeer]
    rw [← Device.setPeer_setPeer n.wg x p]
    refine hproper.holdsIndex hvalid ?_ rfl rfl rfl
    rw [Device.setPeer_peers_self]
    rfl

end Answer

/-! ### Reading a datagram -/

/-- The receive thread reads, and its buffer has room for any message of a handshake. -/
structure Reads (n : Netdev cfg) : Prop where
  idle : n.idle
  running : n.running = true
  fits : msgInitLen ≤ wgCryptBufsize cfg

section Read

variable {data : List Byte}

theorem step_datagram (h : Reads n) {k : Nat} (hlen : data.length = k + 1)
    (hfits : k + 1 ≤ msgInitLen) (ip : U32) (port : U16) :
    step c n (.datagram env data ip port) = wgProcessDatagram c env n data ip port := by
  have hne : data ≠ [] := by
    rintro rfl
    cases hlen
  have htake : data.take (wgCryptBufsize cfg) = data :=
    List.take_of_length_le (hlen ▸ hfits.trans h.fits)
  simp only [step]
  rw [if_neg (not_not.mpr h.idle), if_neg (by simp [hne, h.running]), htake]

theorem wgUnderLoad_device (env : Env cfg) (n : Netdev cfg) : (wgUnderLoad env n).1.wg = n.wg := by
  unfold wgUnderLoad
  dsimp only
  split <;> rfl

theorem wgUnderLoad_handedOver (env : Env cfg) (n : Netdev cfg) :
    (wgUnderLoad env n).1.handedOver = n.handedOver := by
  unfold wgUnderLoad
  dsimp only
  split <;> rfl

theorem HasRoom.wgUnderLoad (h : HasRoom env n) : HasRoom env (wgUnderLoad env n).1 := by
  unfold Kernel.wgUnderLoad
  dsimp only
  split <;> exact h.congr rfl rfl rfl

/-- **An initiation is answered** unless the driver is under load. -/
theorem datagram_answers {msg : MsgInit} {o : OpenedInit cfg} {ee se : Key} (hreads : Reads n)
    (h : Acceptable c env.now n.wg x msg o) (hload : (wgUnderLoad env n).2 = false)
    (hroom : HasRoom env n) (hfree : DrawsFree env n.wg x)
    (hpublic : c.publicKey (env.ephemeralPrivate x) ≠ Bytes.zero 32)
    (hee : c.dh (env.ephemeralPrivate x) msg.ephemeral = some ee)
    (hse : c.dh (env.ephemeralPrivate x) (n.wg.peers x).publicKey = some se) (ip : U32)
    (port : U16) :
    let p := n.wg.peers x
    let m := Interop.responseSeal c p o (env.ephemeralPrivate x) ee se
    ∃ n' j sid born, step c n (.datagram env msg.bytes ip port) = some n' ∧
      n'.handedOver = n.handedOver ++
        [⟨(response c env.now p j msg.sender (env.ephemeralPrivate x) m).bytes, ip, port⟩] ∧
      (n'.wg.peers x).nextKeypair
        = session c env.now sid born j msg.sender m.chainingKey false ∧
      HoldsIndex n'.wg x .next j := by
  have hwg := wgUnderLoad_device env n
  have hout := wgUnderLoad_handedOver env n
  have hstep : step c n (.datagram env msg.bytes ip port)
      = wgProcessInitiation c env (wgUnderLoad env n).1 msg ip port := by
    rw [step_datagram hreads msg.bytes_length (by decide)]
    unfold wgProcessDatagram
    rw [msg.messageType_bytes, if_pos rfl, msg.parse_bytes]
    dsimp only
    rw [h.checkMac1, if_neg (by simp), hload, if_neg (by decide)]
  rw [hstep]
  rw [← hwg] at h hfree hse
  obtain ⟨n', j, hn', hsent, hnext, hholds⟩ :=
    wgProcessInitiation_answers h hroom.wgUnderLoad hfree hpublic hee hse ip port
  rw [hwg] at hsent hnext
  rw [hout] at hsent
  exact ⟨n', j, _, _, hn', hsent, hnext, hholds⟩

end Read

/-! ### Completing -/

section Complete

/-- The first datagram of a session its initiator sends. -/
theorem wgSendData_first (c : Crypto) (env : Env cfg) {kp : Keypair cfg} (hkp : (n.wg.peers x).currKeypair = kp)
    (hvalid : kp.valid = true) (hinitiator : kp.initiator = true) (hcounter : kp.sendingCounter = 0)
    (hlive : expired env.now kp.keypairMillis rejectAfterTime = false) (hroom : HasRoom env n) :
    ∃ p lastTx, (wgSendData c env n x []).1.wg = n.wg.setPeer x p ∧
      (wgSendData c env n x []).1.handedOver
        = n.handedOver ++ [⟨firstData c kp, (n.wg.peers x).ip, (n.wg.peers x).port⟩] ∧
      p.view = { (n.wg.peers x).view with
        slots := (n.wg.peers x).keypair.put .curr
          { kp with sendingCounter := 1, lastTx := lastTx } } := by
  have hslot : sendingSlot (n.peer x).keypair = .curr := by
    refine if_neg fun hc => hc.2.1 ?_
    show (n.wg.peers x).currKeypair.initiator = true
    rw [hkp, hinitiator]
  have hcurr : (n.peer x).keypair .curr = kp := hkp
  have husable : sendingUsable kp = true := by simp [sendingUsable, hvalid, hinitiator]
  have hnot := not_sendingExhausted hcounter hlive
  obtain ⟨m, hm, -⟩ := wgSendData_keepalive (c := c) hkp hvalid hinitiator hcounter hlive hroom
  rcases wgSendData_cases c env n x [] with ⟨-, err, herr⟩ | ⟨-, hyes, -⟩ | ⟨-, -, -, p, lastTx, hp, hsend⟩
  · rw [hm] at herr
    cases herr
  · rw [hslot, hcurr] at hyes
    exact absurd (hyes.symm.trans hnot) (by decide)
  · rw [hslot, hcurr] at hp hsend
    rw [(hroom.congr (m := n.observe _) rfl rfl rfl).wgTxEnqueue] at hsend
    rw [hcounter] at hp
    refine ⟨p, lastTx, ?_, ?_, hp⟩
    · rw [hsend]
      rfl
    · rw [hsend, hcounter]
      simp only [Netdev.handedOver, Netdev.setPeer, Netdev.observe, List.append_assoc]
      rfl

/-- **A response is followed by the first datagram.** -/
theorem datagram_completes {msg : MsgResponse} {q : Peer cfg} (hreads : Reads n)
    (hroom : HasRoom env n) (h : Completes c n.wg x msg q) (ip : U32) (port : U16) :
    ∃ n' sid born lastTx,
      let kp : Keypair cfg := session c env.now sid born q.handshake.localIndex msg.sender
        q.handshake.chainingKey true
      step c n (.datagram env msg.bytes ip port) = some n' ∧
      n'.handedOver = n.handedOver ++ [⟨firstData c kp, ip, port⟩] ∧
      (n'.wg.peers x).currKeypair = { kp with sendingCounter := 1, lastTx := lastTx } ∧
      HoldsIndex n'.wg x .curr kp.localIndex ∧ HeardFrom (n'.wg.peers x) ip port := by
  have hremote := processResponse_remoteIndex h.completes
  set m : Netdev cfg :=
    startSession c env ((n.observe (.responseAccepted x)).setPeer x { q with ip := ip, port := port })
      x true with hm
  have hstep : step c n (.datagram env msg.bytes ip port) = some (wgSendData c env m x []).1 := by
    rw [step_datagram hreads msg.bytes_length (by decide)]
    unfold wgProcessDatagram
    rw [msg.messageType_bytes, if_neg (by decide), if_pos rfl, msg.parse_bytes]
    dsimp only
    rw [h.checkMac1, if_neg (by simp), h.pending]
    dsimp only
    rw [show n.peer x = n.wg.peers x from rfl, h.completes]
  set kp : Keypair cfg := session c env.now n.nextSid env.time q.handshake.localIndex msg.sender
    q.handshake.chainingKey true with hkp
  set p : Peer cfg := { q with
    ip := ip
    port := port
    handshake := Handshake.zero } with hp
  have hwg : m.wg = n.wg.setPeer x (addKeypair p kp) := by
    rw [hm]
    simp only [startSession, wgStartSession, Netdev.setPeer, Netdev.observe, Netdev.peer,
      Device.setPeer_peers_self, Device.setPeer_setPeer, sessionKeypair_eq, hremote]
    rfl
  have hadded := h.added p kp ip port rfl rfl rfl rfl
  dsimp only at hadded
  rw [← hwg] at hadded
  obtain ⟨hcurr, hholds, hheard⟩ := hadded
  have hout : m.handedOver = n.handedOver := rfl
  obtain ⟨p', lastTx, hwg', hsent, hview⟩ := wgSendData_first c env hcurr rfl
    rfl rfl (expired_self env.now) (hroom.congr (m := m) rfl rfl rfl)
  refine ⟨_, n.nextSid, env.time, lastTx, hstep, ?_, ?_⟩
  · rw [hsent, hout, hheard.1, hheard.2]
  · rw [hwg']
    exact sent_first hcurr hholds hheard hview

/-- **The first datagram is read.** -/
theorem datagram_confirms (hreads : Reads n) (haead : c.AeadCorrect) {started : U32}
    {sid born : Nat} {own remote : U32} {chainingKey : Key}
    (hkp : (n.wg.peers x).nextKeypair = session c started sid born own remote chainingKey false)
    (hholds : HoldsIndex n.wg x .next own) (hlive : expired env.now started rejectAfterTime = false)
    (ip : U32) (port : U16) :
    let kp := (n.wg.peers x).nextKeypair
    ∃ n', step c n (.datagram env (firstDatagram own c kp) ip port) = some n' ∧
      Promoted (n.wg.peers x) (n'.wg.peers x) ∧ HoldsIndex n'.wg x .curr own ∧
      HeardFrom (n'.wg.peers x) ip port := by
  intro kp
  have hreceiver := dataReceiver_firstDatagram own c kp
  obtain ⟨-, hlimit, hfresh⟩ := session_takes cfg c sid born own remote chainingKey
    hlive
  rw [← hkp] at hlimit hfresh
  have hstep : step c n (.datagram env (firstDatagram own c kp) ip port)
      = some (wgProcessData c env n x (firstDatagram own c kp) ip port) := by
    rw [step_datagram hreads (firstDatagram_length own c kp) (by decide)]
    refine wgProcessDatagram_data (messageType_firstDatagram own c kp) ?_ ip port
    rw [hreceiver]
    exact hholds.peerByReceiver
  have haccepted := wgProcessData_sealed haead (s := .next) hholds.keypairByIndex
    hlimit 0 [] ip port hfresh
  -- there is no packet in it
  have hinner : ∀ m : Netdev cfg,
      wgProcessInner env m x (([] : List Byte).length + authtagLen) = m :=
    fun m => if_neg (by simp)
  rw [if_neg (by simp), hinner] at haccepted
  refine ⟨_, hstep, ?_⟩
  rw [show firstDatagram own c kp = dataHeader own 0 ++
    c.aeadEncrypt [] [] 0 ((n.peer x).keypair .next).receivingKey from rfl, haccepted]
  exact accepted_first hholds env.now ip port _

end Complete

/-! ### The driver -/

/-- **The in-kernel driver is one end of a handshake.** -/
def driver (c : Crypto) (haead : c.AeadCorrect) (cfg : Config) : Driver c cfg where
  State := Netdev cfg
  Env := Env cfg
  device n := n.wg
  out n := n.handedOver
  now env := env.now
  timestamp env x := env.tai64n x
  ephemeral env x := env.ephemeralPrivate x
  start env n x := wgSendInitiation c env n x
  receive env n data ip port := step c n (.datagram env data ip port)
  CanStart env n x := ((n.wg.peers x).ip ≠ 0 ∧ (n.wg.peers x).port ≠ 0) ∧ HasRoom env n ∧
    DrawsFree env n.wg x
  CanAnswer env n y := Reads n ∧ (wgUnderLoad env n).2 = false ∧ HasRoom env n ∧
    DrawsFree env n.wg y
  CanComplete env n := Reads n ∧ HasRoom env n
  CanRead _ n := Reads n
  starts hable _ ht hpublic hes :=
    wgSendInitiation_starts hable.1 hable.2.1 hable.2.2 ht hpublic hes
  answers hable h hpublic hee hse :=
    datagram_answers hable.1 h hable.2.1 hable.2.2.1 hable.2.2.2 hpublic hee hse
  completes hable h := datagram_completes hable.1 hable.2 h
  confirms hable hkp hholds hlive := datagram_confirms hable haead hkp hholds hlive

end NuttxWireguard.Kernel
