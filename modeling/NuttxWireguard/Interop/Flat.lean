/-
The flat port as an end of a handshake.

An index the port draws may be one another of its peers holds, so that it is free is a condition
here, and so is that the port is not under load as an initiation comes in.  Nothing else on its
platform can keep a handshake from going on: what it hands to the socket is gone.
-/
import NuttxWireguard.Flat.CookieReply
import NuttxWireguard.Flat.RoundTrip
import NuttxWireguard.Interop.Driver

namespace NuttxWireguard.Flat

open Lib
open Kernel (FreeIndex Promoted promoted_of_acceptPacket wgCheckReplay_fresh expired_self)
open Interop

variable {cfg : Config} {c : Crypto} {env : Env cfg} {n : Netdev cfg} {d : Device cfg}
  {x : Fin cfg.maxPeers}

/-! ### Starting -/

/-- The private key an ephemeral key pair gets. -/
def Env.ephemeralPrivate (env : Env cfg) (x : Fin cfg.maxPeers) : Key :=
  Crypto.clamp (env.ephemeral x)

/-- An index is drawn, and it is free. -/
def DrawsUnused (env : Env cfg) (d : Device cfg) (x : Fin cfg.maxPeers) : Prop :=
  ∃ i, wireguardGenerateUniqueIndex d (env.draws x) = some i ∧ FreeIndex d i

/-- What is drawn depends on the indices held. -/
theorem generateUniqueIndex_congr {e : Device cfg}
    (h : ∀ y a, (e.peers y).indices.token a = (d.peers y).indices.token a)
    (draws : List (Bytes 4)) :
    wireguardGenerateUniqueIndex e draws = wireguardGenerateUniqueIndex d draws := by
  refine Option.ext fun i => ?_
  rw [generateUniqueIndex_iff, generateUniqueIndex_iff]
  unfold Redrawn HeldByLast
  simp only [h]

/-- A port that has just been brought up takes the first value that is an index. -/
theorem drawsUnused_of_blank {env : Env cfg} {d : Device cfg} {buf : Bytes 4}
    {draws : List (Bytes 4)} (hblank : ∀ y, (d.peers y).Blank) (hdraws : env.draws x = buf :: draws)
    (hproper : ¬(readLe 32 buf.toList = 0 ∨ readLe 32 buf.toList = 0xFFFFFFFF)) :
    DrawsUnused env d x := by
  have hzero : ∀ a, d.indices.token a = 0 := by
    rintro ⟨y, a⟩
    cases a with
    | keypair s => exact congrArg Keypair.localIndex (congrFun (hblank y).slots s)
    | handshake => exact congrArg Handshake.localIndex (hblank y).handshake
  have hfirst : ¬Redrawn d (readLe 32 buf.toList) := by
    rintro (hc | ⟨y, -, a, ha⟩)
    · exact hproper hc
    · exact hproper (Or.inl (ha.symm.trans (hzero (y, a))))
  have hdraw : wireguardGenerateUniqueIndex d (env.draws x) = some (readLe 32 buf.toList) := by
    rw [hdraws]
    exact generateUniqueIndex_taken hfirst draws
  exact ⟨_, hdraw, generateUniqueIndex_free (not_shadowed_of_zero hzero) hdraw⟩

theorem createInitiation_eq {t : Bytes 12} {es : Key} {i : U32} (ht : env.timestamp x = t)
    (hpublic : c.publicKey (env.ephemeralPrivate x) ≠ Bytes.zero 32)
    (hes : c.dh (env.ephemeralPrivate x) (d.peers x).publicKey = some es)
    (hi : wireguardGenerateUniqueIndex d (env.draws x) = some i) :
    let p := d.peers x
    let m := initSeal c d x (env.ephemeralPrivate x) es t
    wireguardCreateHandshakeInitiation c env d x
      = some (d.setPeer x { p with handshake :=
          (awaiting c env.now p i (env.ephemeralPrivate x) m).handshake },
        some (initiation c env.now p i (env.ephemeralPrivate x) m)) := by
  have hpair : c.generatePublicKey (env.ephemeralPrivate x)
      = some (c.publicKey (env.ephemeralPrivate x)) :=
    generatePublicKey_eq (clamp_ne_zero _) hpublic
  unfold wireguardCreateHandshakeInitiation
  dsimp only
  rw [show Crypto.clamp (env.ephemeral x) = env.ephemeralPrivate x from rfl, hpair]
  dsimp only
  rw [initiate_eq rfl rfl hes rfl, hi, ht]
  rfl

/-- **The port starts a handshake.** -/
theorem wgStartHandshake_starts {t : Bytes 12} {es : Key} (hfree : DrawsUnused env n.wg x)
    (ht : env.timestamp x = t) (hpublic : c.publicKey (env.ephemeralPrivate x) ≠ Bytes.zero 32)
    (hes : c.dh (env.ephemeralPrivate x) (n.wg.peers x).publicKey = some es) :
    let p := n.wg.peers x
    let m := initSeal c n.wg x (env.ephemeralPrivate x) es t
    ∃ n' i, wgStartHandshake c env n x = some n' ∧ FreeIndex n.wg i ∧
      n'.wg = n.wg.setPeer x (awaiting c env.now p i (env.ephemeralPrivate x) m) ∧
      n'.sent = n.sent ++
        [⟨(initiation c env.now p i (env.ephemeralPrivate x) m).bytes, p.ip, p.port⟩] := by
  obtain ⟨i, hi, hproper⟩ := hfree
  have hcreate := createInitiation_eq (c := c) (d := n.wg) ht hpublic hes hi
  dsimp only at hcreate ⊢
  generalize initSeal c n.wg x (env.ephemeralPrivate x) es t = m at hcreate ⊢
  unfold wgStartHandshake
  rw [hcreate]
  refine ⟨_, i, rfl, hproper, ?_, ?_⟩
  · simp only [Netdev.setPeer, Netdev.observe, psockSendto, Netdev.peer, Device.setPeer_peers_self,
      Device.setPeer_setPeer]
    rfl
  · simp only [Netdev.setPeer, Netdev.observe, psockSendto, Netdev.peer, Device.setPeer_peers_self]

/-! ### Answering -/

section Answer

variable {msg : MsgInit} {o : OpenedInit cfg} {ee se : Key}

theorem processInitiationMessage_eq {now : U32} (h : Acceptable c now d x msg o) :
    wireguardProcessInitiationMessage c now d msg
      = some (d.setPeer x (acceptInit now (d.peers x) msg o), x) := by
  have hnew := h.fresh
  obtain ⟨-, hopen, rfl, hnewer, hrate⟩ := h
  have hpos := (memcmp_pos o.timestamp.toList (d.peers o.peer).greatestTimestamp.toList
    (by simp)).mpr hnewer
  unfold wireguardProcessInitiationMessage
  rw [hopen]
  simp only [Option.bind_eq_bind, Option.bind_some]
  rw [if_pos ⟨by rw [hnew]; decide, by rw [hrate]; decide⟩, if_pos hpos]
  rfl

theorem token_opened (p : Peer cfg) (msg : MsgInit) (o : OpenedInit cfg) (addr : U32) (port : U16)
    (a : Holder) :
    (opened env.now p msg o addr port).indices.token a = p.indices.token a := by
  cases a <;> rfl

theorem createResponse_eq {addr : U32} {port : U16} {i : U32}
    (hpublic : c.publicKey (env.ephemeralPrivate x) ≠ Bytes.zero 32)
    (hee : c.dh (env.ephemeralPrivate x) msg.ephemeral = some ee)
    (hse : c.dh (env.ephemeralPrivate x) (d.peers x).publicKey = some se)
    (hi : wireguardGenerateUniqueIndex (d.setPeer x (opened env.now (d.peers x) msg o addr port))
      (env.draws x) = some i) :
    let m := responseSeal c (d.peers x) o (env.ephemeralPrivate x) ee se
    wireguardCreateHandshakeResponse c env
        (d.setPeer x (opened env.now (d.peers x) msg o addr port)) x
      = some (d.setPeer x { opened env.now (d.peers x) msg o addr port with
            handshake := responding c env.now (d.peers x) msg o (env.ephemeralPrivate x) i m },
          some (response c env.now (d.peers x) i msg.sender (env.ephemeralPrivate x) m)) := by
  have hpair : c.generatePublicKey (env.ephemeralPrivate x)
      = some (c.publicKey (env.ephemeralPrivate x)) :=
    generatePublicKey_eq (clamp_ne_zero _) hpublic
  have hresponder : (opened env.now (d.peers x) msg o addr port).handshake.valid = true ∧
      ¬(opened env.now (d.peers x) msg o addr port).handshake.initiator = true :=
    ⟨rfl, Bool.false_ne_true⟩
  have hrespond := @respond_eq cfg c (opened env.now (d.peers x) msg o addr port)
    { (opened env.now (d.peers x) msg o addr port).handshake with
      ephemeralPrivate := env.ephemeralPrivate x } ee se hee hse (c.publicKey (env.ephemeralPrivate x))
  unfold wireguardCreateHandshakeResponse
  dsimp only
  rw [Device.setPeer_peers_self, if_neg (not_not.mpr hresponder),
    show Crypto.clamp (env.ephemeral x) = env.ephemeralPrivate x from rfl, hpair]
  dsimp only at hrespond ⊢
  rw [hrespond]
  dsimp only
  rw [hi]
  dsimp only
  rw [Device.setPeer_setPeer]
  rfl

/-- **The port answers an initiation.** -/
theorem wgProcessInitiation_answers (h : Acceptable c env.now n.wg x msg o)
    (hfree : DrawsUnused env n.wg x)
    (hpublic : c.publicKey (env.ephemeralPrivate x) ≠ Bytes.zero 32)
    (hee : c.dh (env.ephemeralPrivate x) msg.ephemeral = some ee)
    (hse : c.dh (env.ephemeralPrivate x) (n.wg.peers x).publicKey = some se) (addr : U32)
    (port : U16) :
    let p := n.wg.peers x
    let m := responseSeal c p o (env.ephemeralPrivate x) ee se
    ∃ n' j, wgProcessInitiation c env n msg addr port = some n' ∧
      n'.sent = n.sent ++
        [⟨(response c env.now p j msg.sender (env.ephemeralPrivate x) m).bytes, addr, port⟩] ∧
      (n'.wg.peers x).nextKeypair
        = session c env.now n.nextSid env.time j msg.sender m.chainingKey false ∧
      HoldsIndex n'.wg x .next j := by
  obtain ⟨j, hj, hproper⟩ := hfree
  have hvalid : (n.wg.peers x).valid = true := h.peer ▸ openInit_valid h.opens
  rw [← generateUniqueIndex_congr (e := n.wg.setPeer x (opened env.now (n.wg.peers x) msg o addr port))
    (fun y a => by
      by_cases hy : y = x
      · rw [hy, Device.setPeer_peers_self, token_opened]
      · rw [Device.setPeer_peers_of_ne _ _ hy])] at hj
  have hcreate := createResponse_eq hpublic hee hse hj
  dsimp only at hcreate ⊢
  generalize responseSeal c (n.wg.peers x) o (env.ephemeralPrivate x) ee se = m at hcreate ⊢
  set p := opened env.now (n.wg.peers x) msg o addr port with hp
  set q : Peer cfg :=
    { p with handshake := responding c env.now (n.wg.peers x) msg o (env.ephemeralPrivate x) j m }
  have haccept : wgProcessInitiation c env n msg addr port
      = wgSendHandshakeResponse c env { n with
          wg := n.wg.setPeer x p
          log := .initAccepted x o.timestamp :: n.log } x := by
    unfold wgProcessInitiation
    rw [processInitiationMessage_eq h]
    simp only [Netdev.setPeer, Netdev.observe, Netdev.peer, Device.setPeer_peers_self,
      Device.setPeer_setPeer]
    rfl
  rw [haccept]
  unfold wgSendHandshakeResponse
  dsimp only
  rw [hcreate]
  refine ⟨_, j, rfl, ?_, ?_, ?_⟩
  · simp only [psockSendto, startSession, Netdev.setPeer, Netdev.observe, Netdev.peer,
      Device.setPeer_peers_self]
    rfl
  · simp only [psockSendto, startSession, Netdev.setPeer, Netdev.observe, Netdev.peer,
      Device.setPeer_peers_self]
    rfl
  · simp only [psockSendto, startSession, Netdev.setPeer, Netdev.observe, Netdev.peer,
      Device.setPeer_peers_self, Device.setPeer_setPeer]
    exact hproper.holdsIndex hvalid rfl rfl rfl rfl

end Answer

/-! ### Reading a datagram -/

section Read

variable {data : List Byte}

theorem step_rx (hne : data ≠ []) (hfits : data.length ≤ wgMaxPacket) (addr : U32) (port : U16) :
    step c n (.rx env data addr port) = wgProcessUdpPacket c env n data addr port := by
  simp only [step]
  rw [if_neg hne, List.take_of_length_le hfits]

theorem ne_nil_of_length {k : Nat} (h : data.length = k + 1) : data ≠ [] := by
  rintro rfl
  cases h

theorem wgUnderLoad_sent (env : Env cfg) (n : Netdev cfg) : (wgUnderLoad env n).1.sent = n.sent := by
  unfold wgUnderLoad
  dsimp only
  split <;> rfl

/-- **An initiation is answered** unless the port is under load. -/
theorem rx_answers {msg : MsgInit} {o : OpenedInit cfg} {ee se : Key}
    (h : Acceptable c env.now n.wg x msg o) (hload : (wgUnderLoad env n).2 = false)
    (hfree : DrawsUnused env n.wg x)
    (hpublic : c.publicKey (env.ephemeralPrivate x) ≠ Bytes.zero 32)
    (hee : c.dh (env.ephemeralPrivate x) msg.ephemeral = some ee)
    (hse : c.dh (env.ephemeralPrivate x) (n.wg.peers x).publicKey = some se) (addr : U32)
    (port : U16) :
    let p := n.wg.peers x
    let m := responseSeal c p o (env.ephemeralPrivate x) ee se
    ∃ n' j sid born, step c n (.rx env msg.bytes addr port) = some n' ∧
      n'.sent = n.sent ++
        [⟨(response c env.now p j msg.sender (env.ephemeralPrivate x) m).bytes, addr, port⟩] ∧
      (n'.wg.peers x).nextKeypair
        = session c env.now sid born j msg.sender m.chainingKey false ∧
      HoldsIndex n'.wg x .next j := by
  have hwg := wgUnderLoad_wg env n
  have hsent := wgUnderLoad_sent env n
  have hstep : step c n (.rx env msg.bytes addr port)
      = wgProcessInitiation c env (wgUnderLoad env n).1 msg addr port := by
    rw [step_rx (ne_nil_of_length msg.bytes_length) (by rw [msg.bytes_length]; decide)]
    unfold wgProcessUdpPacket
    rw [msg.messageType_bytes, if_pos rfl, msg.parse_bytes]
    dsimp only
    rw [h.checkMac1, if_neg (by simp), hload, if_neg (by decide)]
  rw [hstep]
  rw [← hwg] at h hfree hse
  obtain ⟨n', j, hn', hout, hnext, hholds⟩ :=
    wgProcessInitiation_answers h hfree hpublic hee hse addr port
  rw [hwg] at hout hnext
  rw [hsent] at hout
  exact ⟨n', j, _, _, hn', hout, hnext, hholds⟩

end Read

/-! ### Completing -/

section Complete

/-- The first datagram of a session its initiator sends. -/
theorem wgSendKeepalive_first (c : Crypto) (env : Env cfg) {kp : Keypair cfg} (hkp : (n.wg.peers x).currKeypair = kp)
    (hvalid : kp.valid = true) (hinitiator : kp.initiator = true) (hcounter : kp.sendingCounter = 0)
    (hlive : expired env.now kp.keypairMillis rejectAfterTime = false) :
    ∃ p lastTx, (wgSendKeepalive c env n x).wg = n.wg.setPeer x p ∧
      (wgSendKeepalive c env n x).sent
        = n.sent ++ [⟨firstData c kp, (n.wg.peers x).ip, (n.wg.peers x).port⟩] ∧
      p.view = { (n.wg.peers x).view with
        slots := (n.wg.peers x).keypair.put .curr
          { kp with sendingCounter := 1, lastTx := lastTx } } := by
  have hslot : sendingSlot (n.peer x).keypair = .curr := by
    refine if_neg fun hc => hc.2.1 ?_
    show (n.wg.peers x).currKeypair.initiator = true
    rw [hkp, hinitiator]
  have hkeypair : n.sendingKeypair x = kp := by
    unfold Netdev.sendingKeypair
    rw [hslot]
    exact hkp
  have husable : sendingUsable (n.sendingKeypair x) = true := by
    simp [hkeypair, sendingUsable, hvalid, hinitiator]
  have hnot : sendingExhausted env.now (n.sendingKeypair x) = false := by
    rw [hkeypair]
    exact Kernel.not_sendingExhausted hcounter hlive
  have hsent := wgEncryptAndSend_sent (c := c) n [] husable hnot
  rw [if_neg (by decide), hkeypair] at hsent
  rcases wgEncryptAndSend_cases c env n x [] with hnone | ⟨-, hyes, -⟩ | ⟨-, -, p, lastTx, hp, hsend⟩
  · rw [hnone] at hsent
    simpa using congrArg List.length hsent
  · exact absurd (hyes.symm.trans hnot) (by decide)
  · refine ⟨p, lastTx, ?_, ?_, ?_⟩
    · unfold wgSendKeepalive
      rw [hsend]
      rfl
    · unfold wgSendKeepalive firstData
      rw [hsent]
      unfold sealed
      rw [hcounter]
      rfl
    · have hcurr : (n.peer x).keypair .curr = kp := hkp
      rw [hslot, hcurr, hcounter] at hp
      exact hp

/-- **A response is followed by the first datagram.** -/
theorem rx_completes {msg : MsgResponse} {q : Peer cfg} (h : Completes c n.wg x msg q) (addr : U32)
    (port : U16) :
    ∃ n' sid born lastTx,
      let kp : Keypair cfg := session c env.now sid born q.handshake.localIndex msg.sender
        q.handshake.chainingKey true
      step c n (.rx env msg.bytes addr port) = some n' ∧
      n'.sent = n.sent ++ [⟨firstData c kp, addr, port⟩] ∧
      (n'.wg.peers x).currKeypair = { kp with sendingCounter := 1, lastTx := lastTx } ∧
      HoldsIndex n'.wg x .curr kp.localIndex ∧ HeardFrom (n'.wg.peers x) addr port := by
  have hremote := processResponse_remoteIndex h.completes
  set m : Netdev cfg :=
    startSession c env ((n.observe (.responseAccepted x)).setPeer x { q with ip := addr, port := port })
      x true with hm
  have hstep : step c n (.rx env msg.bytes addr port) = some (wgSendKeepalive c env m x) := by
    rw [step_rx (ne_nil_of_length msg.bytes_length) (by rw [msg.bytes_length]; decide)]
    unfold wgProcessUdpPacket
    rw [msg.messageType_bytes, if_neg (by decide), if_pos rfl, msg.parse_bytes]
    dsimp only
    rw [h.checkMac1, if_neg (by simp), h.pending]
    dsimp only
    rw [show n.peer x = n.wg.peers x from rfl, h.completes]
  set kp : Keypair cfg := session c env.now n.nextSid env.time q.handshake.localIndex msg.sender
    q.handshake.chainingKey true with hkp
  set p : Peer cfg := { q with
    ip := addr
    port := port
    handshake := { Handshake.zero with initiator := q.handshake.initiator } } with hp
  have hwg : m.wg = n.wg.setPeer x (addKeypair p kp) := by
    rw [hm]
    simp only [startSession, wireguardStartSession, Netdev.setPeer, Netdev.observe, Netdev.peer,
      Device.setPeer_peers_self, Device.setPeer_setPeer, sessionKeypair_eq, hremote]
    rfl
  have hadded := h.added p kp addr port rfl rfl rfl rfl
  dsimp only at hadded
  rw [← hwg] at hadded
  obtain ⟨hcurr, hholds, hheard⟩ := hadded
  have hsent : m.sent = n.sent := rfl
  obtain ⟨p', lastTx, hwg', hsent', hview⟩ := wgSendKeepalive_first c env hcurr rfl
    rfl rfl (expired_self env.now)
  refine ⟨_, n.nextSid, env.time, lastTx, hstep, ?_, ?_⟩
  · rw [hsent', hsent, hheard.1, hheard.2]
  · rw [hwg']
    exact sent_first hcurr hholds hheard hview

/-- **The first datagram is read.** -/
theorem rx_confirms (haead : c.AeadCorrect) {started : U32} {sid born : Nat} {own remote : U32}
    {chainingKey : Key}
    (hkp : (n.wg.peers x).nextKeypair = session c started sid born own remote chainingKey false)
    (hholds : HoldsIndex n.wg x .next own) (hlive : expired env.now started rejectAfterTime = false)
    (addr : U32) (port : U16) :
    let kp := (n.wg.peers x).nextKeypair
    ∃ n', step c n (.rx env (firstDatagram own c kp) addr port) = some n' ∧
      Promoted (n.wg.peers x) (n'.wg.peers x) ∧ HoldsIndex n'.wg x .curr own ∧
      HeardFrom (n'.wg.peers x) addr port := by
  intro kp
  have hlen := firstDatagram_length own c kp
  have hreceiver := dataReceiver_firstDatagram own c kp
  have hcounter := dataCounter_firstDatagram own c kp
  obtain ⟨-, hlimit, hfresh⟩ := session_takes cfg c sid born own remote chainingKey
    hlive
  rw [← hkp] at hlimit hfresh
  have hstep : step c n (.rx env (firstDatagram own c kp) addr port)
      = some (wgProcessDataMessage c env n x (firstDatagram own c kp) addr port) := by
    rw [step_rx (ne_nil_of_length hlen) (by rw [hlen]; decide)]
    unfold wgProcessUdpPacket
    rw [messageType_firstDatagram, if_neg (by decide), if_neg (by decide), if_neg (by decide),
      if_pos rfl, hreceiver, hholds.peerByReceiver]
  have haccepted := wgProcessDataMessage_accepted c env (n := n) (x := x) addr port (s := .next)
    (by rw [hreceiver]; exact hholds.keypairByIndex) hlimit (by rw [hlen]; decide)
    (by rw [hcounter]; exact decrypt_firstDatagram own kp haead) (by rw [hcounter]; exact hfresh)
  -- there is no packet in it
  have hinner : ∀ m : Netdev cfg,
      wgProcessInner c env m x ((firstDatagram own c kp).length - 16) = m :=
    fun m => if_neg (by rw [hlen]; decide)
  rw [hinner, hcounter] at haccepted
  refine ⟨_, hstep, ?_⟩
  rw [haccepted]
  exact accepted_first hholds env.now addr port _

end Complete

/-! ### The driver -/

/-- **The flat port is one end of a handshake.** -/
def driver (c : Crypto) (haead : c.AeadCorrect) (cfg : Config) : Driver c cfg where
  State := Netdev cfg
  Env := Env cfg
  device n := n.wg
  out n := n.sent
  now env := env.now
  timestamp env x := some (env.timestamp x)
  ephemeral env x := env.ephemeralPrivate x
  start env n x := wgStartHandshake c env n x
  receive env n data addr port := step c n (.rx env data addr port)
  CanStart env n x := DrawsUnused env n.wg x
  CanAnswer env n y := (wgUnderLoad env n).2 = false ∧ DrawsUnused env n.wg y
  CanComplete _ _ := True
  CanRead _ _ := True
  starts hable _ ht hpublic hes := wgStartHandshake_starts hable (Option.some.inj ht) hpublic hes
  answers hable h hpublic hee hse := rx_answers h hable.1 hable.2 hpublic hee hse
  completes _ h := rx_completes h
  confirms _ hkp hholds hlive := rx_confirms haead hkp hholds hlive

end NuttxWireguard.Flat
