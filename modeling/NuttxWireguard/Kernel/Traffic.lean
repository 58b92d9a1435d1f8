/-
What packets and timers do to the driver's setup and indices.

There is one lemma for each function: the peers' setup, the device's keys and the state of
the interface stay as they are, and indices that were unambiguous stay unambiguous.  A new
index is issued only for an initiation or a response, from `wg_unique_index`; everything
else moves the indices there are, or forgets them.
-/
import NuttxWireguard.Kernel.Steps
import NuttxWireguard.Kernel.Indices
import NuttxWireguard.Routing

namespace NuttxWireguard.Kernel

open Lib

variable {cfg : Config} (c : Crypto) (env : Env cfg)

/-- What packets and timers only read of the driver, besides its device. -/
structure Link where
  psock : Bool
  listenPort : U16
  bifup : Bool
  running : Bool
  reaping : Bool
  rxpid : Nat
  rxdone : Option Nat
  ipaddr : U32
  netmask : U32
  worker : Bool
  inflight : Option Outbound
  sent : List Outbound

def Netdev.link (n : Netdev cfg) : Link where
  psock := n.psock
  listenPort := n.listenPort
  bifup := n.bifup
  running := n.running
  reaping := n.reaping
  rxpid := n.rxpid
  rxdone := n.rxdone
  ipaddr := n.ipaddr
  netmask := n.netmask
  worker := n.worker
  inflight := n.inflight
  sent := n.sent

/-- `m` is `n` after traffic. -/
structure Netdev.Carried (n m : Netdev cfg) : Prop where
  device : n.wg.Carried m.wg
  link : m.link = n.link

namespace Netdev.Carried

variable {n m k : Netdev cfg}

theorem refl (n : Netdev cfg) : n.Carried n := ⟨.refl _, rfl⟩

theorem trans (h : n.Carried m) (h' : m.Carried k) : n.Carried k :=
  ⟨h.device.trans h'.device, h'.link.trans h.link⟩

/-- The device was left alone. -/
theorem of_wg (hwg : m.wg = n.wg) (hlink : m.link = n.link) : n.Carried m := by
  refine ⟨?_, hlink⟩
  rw [hwg]
  exact .refl _

/-- Only the device was written. -/
theorem of_device {d : Device cfg} (h : n.wg.Carried d) : n.Carried { n with wg := d } := ⟨h, rfl⟩

theorem observe (n : Netdev cfg) (o : Obs cfg.maxPeers) : n.Carried (n.observe o) := .of_wg rfl rfl

/-- One peer was written. -/
theorem setPeer {x : Fin cfg.maxPeers} {p : Peer cfg} (hvalid : (n.peer x).valid = true)
    (h : (n.peer x).Carried p) : n.Carried (n.setPeer x p) :=
  .of_device (.setPeer hvalid h)

/-- A peer was written beside its slots and its handshake. -/
theorem setPeer_same {x : Fin cfg.maxPeers} {p : Peer cfg} (hvalid : (n.peer x).valid = true)
    (hsetup : p.setup = (n.peer x).setup) (hslots : p.keypair = (n.peer x).keypair)
    (hhandshake : p.handshake = (n.peer x).handshake) : n.Carried (n.setPeer x p) :=
  setPeer hvalid (.of_same hsetup hslots hhandshake)

theorem valid (h : n.Carried m) (x : Fin cfg.maxPeers) : (m.peer x).valid = (n.peer x).valid :=
  h.device.valid x

end Netdev.Carried

/-! ### Sending -/

theorem wgTxEnqueue_carried (n : Netdev cfg) (data : List Byte) (ip : U32) (port : U16) :
    n.Carried (wgTxEnqueue env n data ip port).1 := by
  rcases wgTxEnqueue_cases env n data ip port with ⟨k, err, -, h⟩ | h
  · rw [h]
    exact .of_wg rfl rfl
  · rw [h]
    exact .of_wg rfl rfl

theorem wgSendData_carried {n : Netdev cfg} {x : Fin cfg.maxPeers} (hvalid : (n.peer x).valid = true)
    (plaintext : List Byte) : n.Carried (wgSendData c env n x plaintext).1 := by
  unfold wgSendData
  dsimp only [encryptPacket]
  generalize sendingSlot (n.peer x).keypair = s
  split
  · exact .refl n
  split
  · exact .setPeer hvalid (keypairDestroy_carried _ s)
  split
  · exact .refl n
  · -- the datagram is encrypted and handed to the queue, then the peer is written
    generalize hm : n.observe _ = m
    have hobserve : n.Carried m := by
      rw [← hm]
      exact .observe n _
    have hpeer : (m.peer x) = n.peer x := by
      rw [← hm]
      rfl
    generalize dataHeader _ _ ++ _ = data
    have hqueue := wgTxEnqueue_carried env m data (n.peer x).ip (n.peer x).port
    have hqueued : (wgTxEnqueue env m data (n.peer x).ip (n.peer x).port).1.peer x = n.peer x :=
      (congrFun (congrArg Device.peers (wgTxEnqueue_wg env m data _ _)) x).trans hpeer
    generalize wgTxEnqueue env m data (n.peer x).ip (n.peer x).port = r at hqueue hqueued ⊢
    refine (hobserve.trans hqueue).trans (.setPeer (hqueued.symm ▸ hvalid) ?_)
    rw [hqueued]
    have hsend : ∀ (b : Bool) (q : Peer cfg),
        q.Carried (if b then { q with sendHandshake := true } else q) := by
      intro b q
      cases b
      · exact .refl q
      · exact .of_same rfl rfl rfl
    refine Peer.Carried.trans ?_ (hsend _ _)
    split
    · rw [Peer.setKeypair_setKeypair]
      refine (setKeypair_carried (n.peer x) (s := s) ?_ ?_).trans (.of_same rfl rfl rfl)
      · rfl
      · exact id
    · refine setKeypair_carried (n.peer x) ?_ ?_
      · rfl
      · exact id

/-- Building an initiation gives the handshake a free index or leaves it its own. -/
theorem wgCreateInit_carried {d d' : Device cfg} {x : Fin cfg.maxPeers} {r : Option MsgInit}
    (hvalid : (d.peers x).valid = true) (h : wgCreateInit c env d x = some (d', r)) : d.Carried d' := by
  have hsame : ∀ {hs : Handshake}, hs.localIndex = (d.peers x).handshake.localIndex →
      hs.valid = (d.peers x).handshake.valid → hs.initiator = (d.peers x).handshake.initiator →
      d.Carried (d.setPeer x { d.peers x with handshake := hs }) :=
    fun hi hv hr => .setPeer hvalid (setHandshake_carried hi hv hr)
  unfold wgCreateInit at h
  dsimp only at h
  split at h
  · cases h
    exact .refl d
  · split at h
    · cases h
      exact hsame rfl rfl rfl
    · split at h
      · cases h
        exact hsame rfl rfl rfl
      · split at h
        · rename_i hs hinitiate
          cases h
          obtain ⟨hindex, hlive, hinitiator⟩ := initiate_handshake hinitiate
          exact hsame hindex hlive hinitiator
        · split at h
          · cases h
          · rename_i sender hdraw
            cases h
            exact .write hvalid rfl fun hd => (wgUniqueIndex_free hdraw).unambiguous hd rfl

/-- So does building a response. -/
theorem wgCreateResponse_carried {d d' : Device cfg} {x : Fin cfg.maxPeers}
    {r : Option MsgResponse} (hvalid : (d.peers x).valid = true)
    (h : wgCreateResponse c env d x = some (d', r)) : d.Carried d' := by
  have hsame : ∀ {hs : Handshake}, hs.localIndex = (d.peers x).handshake.localIndex →
      hs.valid = (d.peers x).handshake.valid → hs.initiator = (d.peers x).handshake.initiator →
      d.Carried (d.setPeer x { d.peers x with handshake := hs }) :=
    fun hi hv hr => .setPeer hvalid (setHandshake_carried hi hv hr)
  unfold wgCreateResponse at h
  dsimp only at h
  split at h
  · cases h
    exact .refl d
  · split at h
    · cases h
      exact hsame rfl rfl rfl
    · split at h
      · cases h
        exact hsame rfl rfl rfl
      · split at h
        · rename_i hs hrespond
          cases h
          obtain ⟨hindex, hlive, hinitiator⟩ := respond_handshake hrespond
          exact hsame hindex hlive hinitiator
        · split at h
          · cases h
          · rename_i sender hdraw
            cases h
            exact .write hvalid rfl fun hd => (wgUniqueIndex_free hdraw).unambiguous hd rfl

/-- A response that is built has an index. -/
theorem wgCreateResponse_index {d d' : Device cfg} {x : Fin cfg.maxPeers} {msg : MsgResponse}
    (h : wgCreateResponse c env d x = some (d', some msg)) :
    (d'.peers x).handshake.localIndex ≠ 0 := by
  unfold wgCreateResponse at h
  dsimp only at h
  split at h
  · cases h
  · split at h
    · cases h
    · split at h
      · cases h
      · split at h
        · cases h
        · split at h
          · cases h
          · rename_i sender hdraw
            cases h
            rw [Device.setPeer_peers_self]
            exact fun hzero => (wgUniqueIndex_free hdraw).proper (Or.inl hzero)

theorem wgSendInitiation_carried {n n' : Netdev cfg} {x : Fin cfg.maxPeers}
    (hvalid : (n.peer x).valid = true) (h : wgSendInitiation c env n x = some n') : n.Carried n' := by
  unfold wgSendInitiation at h
  dsimp only at h
  split at h
  · cases h
    exact .refl n
  split at h
  · cases h
  · rename_i wg hcreate
    cases h
    exact .of_device (wgCreateInit_carried c env hvalid hcreate)
  · rename_i wg msg hcreate
    have hbuilt : n.Carried { n with wg := wg } := .of_device (wgCreateInit_carried c env hvalid hcreate)
    generalize ({ n with wg := wg } : Netdev cfg) = m at hbuilt h
    have hqueue := wgTxEnqueue_carried env m msg.bytes (m.peer x).ip (m.peer x).port
    have hwg := wgTxEnqueue_wg env m msg.bytes (m.peer x).ip (m.peer x).port
    generalize wgTxEnqueue env m msg.bytes (m.peer x).ip (m.peer x).port = r at hqueue hwg h
    have hpeer : r.1.peer x = m.peer x := congrFun (congrArg Device.peers hwg) x
    have hthere : (r.1.peer x).valid = true := ((hbuilt.trans hqueue).valid x).trans hvalid
    cases h
    refine (hbuilt.trans hqueue).trans ?_
    split
    · refine Netdev.Carried.trans (.observe r.1 (.initiation x (m.peer x).ip (m.peer x).port env.time))
        (.setPeer_same hthere ?_ ?_ ?_) <;> rw [observe_peer, hpeer] <;> rfl
    · refine .setPeer_same hthere ?_ ?_ ?_ <;> rw [hpeer] <;> rfl

/-- A session is started from a handshake that has an index. -/
theorem startSession_carried {n : Netdev cfg} {x : Fin cfg.maxPeers}
    (hvalid : (n.peer x).valid = true) (initiator : Bool)
    (hindex : n.wg.Unambiguous → (n.peer x).handshake.localIndex ≠ 0) :
    n.Carried (startSession c env n x initiator) := by
  have hdevice : n.wg.Carried (n.wg.setPeer x
      (wgStartSession c env.now n.nextSid env.time (n.peer x) initiator)) :=
    .write hvalid (addKeypair_setup _ _) fun hn => hn.setPeer (addKeypair_carried (n.peer x) c
      env.now n.nextSid env.time initiator (hindex hn) (rfl : Handshake.zero.localIndex = 0) rfl).indices
  exact ⟨hdevice, rfl⟩

theorem wgSendResponse_carried {n n' : Netdev cfg} {x : Fin cfg.maxPeers}
    (hvalid : (n.peer x).valid = true) (h : wgSendResponse c env n x = some n') : n.Carried n' := by
  unfold wgSendResponse at h
  split at h
  · cases h
  · rename_i wg hcreate
    cases h
    exact .of_device (wgCreateResponse_carried c env hvalid hcreate)
  · rename_i wg msg hcreate
    cases h
    have hbuilt : n.Carried { n with wg := wg } := .of_device (wgCreateResponse_carried c env hvalid hcreate)
    exact (hbuilt.trans (startSession_carried c env ((hbuilt.valid x).trans hvalid) false
      fun _ => wgCreateResponse_index c env hcreate)).trans
      (wgTxEnqueue_carried env _ _ _ _)

/-- The device changed, but for its cookie secret, not at all. -/
theorem peerCookie_carried (d : Device cfg) (source : List Byte) :
    d.Carried (peerCookie c env.now env.cookieSecret d source).1 := by
  unfold peerCookie
  dsimp only
  split
  · exact .of_peers rfl rfl
  · exact .refl d

theorem wgSendCookie_carried (n : Netdev cfg) (mac1 : Bytes 16) (sender ip : U32) (port : U16) :
    n.Carried (wgSendCookie c env n mac1 sender ip port) := by
  have hcookie : n.Carried
      { n with wg := (wgCreateCookie c env n.wg mac1 sender (sourceBytes ip port)).1 } := by
    unfold wgCreateCookie
    split
    · exact .refl n
    · exact .of_device (peerCookie_carried c env n.wg (sourceBytes ip port))
  unfold wgSendCookie
  split
  · rename_i wg hcreate
    rw [hcreate] at hcookie
    exact hcookie
  · rename_i wg msg hcreate
    rw [hcreate] at hcookie
    exact hcookie.trans (wgTxEnqueue_carried env _ _ _ _)

/-! ### Receiving -/

theorem wgProcessInner_carried (n : Netdev cfg) (x : Fin cfg.maxPeers) (datalen : Nat) :
    n.Carried (wgProcessInner env n x datalen) := by
  rcases wgProcessInner_cases env n x datalen with h | ⟨packet, q, h⟩
  · rw [h]
    exact .refl n
  · rw [h]
    exact .of_wg rfl rfl

theorem wgProcessData_carried {n : Netdev cfg} {x : Fin cfg.maxPeers}
    (hvalid : (n.peer x).valid = true) (data : List Byte) (ip : U32) (port : U16) :
    n.Carried (wgProcessData c env n x data ip port) := by
  rcases wgProcessData_cases c env n x data ip port with
    h | ⟨s, hs, ⟨-, h⟩ | ⟨hlimit, -, plain, -, ⟨hstale, h⟩ | ⟨hfresh, h⟩⟩⟩
  · rw [h]
    exact .refl n
  · rw [h]
    exact .setPeer hvalid (keypairDestroy_carried _ s)
  · rw [h]
    exact .of_wg rfl rfl
  · rw [h]
    have hopened : n.Carried ({ n with plainbuf := overwrite n.plainbuf plain }.observe
        (.opened x ((n.peer x).keypair s).sid (dataCounter data) true env.time)) :=
      .of_wg rfl rfl
    refine (hopened.trans (.setPeer hvalid ?_)).trans (wgProcessInner_carried env _ x _)
    exact acceptPacket_carried (n.peer x) env.now ip port _ (wgCheckReplay_keeps _ _).1
      (wgCheckReplay_keeps _ _).2

theorem wgProcessInitiation_carried {n n' : Netdev cfg} {msg : MsgInit} {ip : U32} {port : U16}
    (h : wgProcessInitiation c env n msg ip port = some n') : n.Carried n' := by
  unfold wgProcessInitiation at h
  split at h
  · cases h
    exact .refl n
  · rename_i x hinit
    obtain ⟨o, hopen, rfl, -, -, rfl⟩ := wgProcessInit_some c hinit
    have hvalid : (n.peer o.peer).valid = true := openInit_valid hopen
    dsimp only at h
    have hopened : n.wg.Carried
        (n.wg.setPeer o.peer (acceptInit env.now (n.wg.peers o.peer) msg o)) :=
      .setPeer hvalid (acceptInit_carried (n.peer o.peer) env.now msg o)
    generalize n.wg.setPeer o.peer (acceptInit env.now (n.wg.peers o.peer) msg o) = d at hopened h
    have hinit : n.Carried { n with wg := d } := .of_device hopened
    generalize ({ n with wg := d } : Netdev cfg) = m at hinit h
    have hthere := (hinit.valid o.peer).trans hvalid
    have haccepted : m.Carried ((m.observe (.initAccepted o.peer (m.peer o.peer).greatestTimestamp)).setPeer
        o.peer { m.peer o.peer with ip := ip, port := port }) := by
      refine (Netdev.Carried.observe m _).trans (.setPeer_same hthere rfl ?_ rfl)
      funext s
      cases s <;> rfl
    exact (hinit.trans haccepted).trans
      (wgSendResponse_carried c env ((haccepted.valid o.peer).trans hthere) h)

theorem wgUnderLoad_carried (n : Netdev cfg) : n.Carried (wgUnderLoad env n).1 := by
  unfold wgUnderLoad
  dsimp only
  split <;> exact .of_wg rfl rfl

theorem wgProcessDatagram_carried {n n' : Netdev cfg} {data : List Byte} {ip : U32} {port : U16}
    (h : wgProcessDatagram c env n data ip port = some n') : n.Carried n' := by
  unfold wgProcessDatagram at h
  dsimp only at h
  split at h
  · split at h
    · cases h
      exact .refl n
    · refine (wgUnderLoad_carried env n).trans ?_
      generalize wgUnderLoad env n = r at h
      split at h
      · refine (Netdev.Carried.of_device (peerCookie_carried c env r.1.wg (sourceBytes ip port))).trans ?_
        split at h
        · cases h
          exact wgSendCookie_carried c env _ _ _ _ _
        · exact wgProcessInitiation_carried c env h
      · exact wgProcessInitiation_carried c env h
  split at h
  · split at h
    · cases h
      exact .refl n
    · split at h
      · cases h
        exact .refl n
      · rename_i x hx
        have hvalid : (n.peer x).valid = true := valid_of_peerByHandshake hx
        split at h
        · cases h
          exact .refl n
        · rename_i p hp
          obtain rfl := Option.some.inj h
          obtain ⟨hcarried, hlive⟩ := processResponse_carried (n.peer x) hp
          have hanswered : n.Carried
              ((n.observe (.responseAccepted x)).setPeer x { p with ip := ip, port := port }) := by
            refine (Netdev.Carried.observe n _).trans
              (.setPeer hvalid (hcarried.trans (.of_same rfl ?_ rfl)))
            funext s
            cases s <;> rfl
          have hthere := (hanswered.valid x).trans hvalid
          have hstarted := startSession_carried c env hthere true fun hn => ?_
          · exact (hanswered.trans hstarted).trans
              (wgSendData_carried c env ((hstarted.valid x).trans hthere) [])
          -- the handshake that was answered is live
          refine hn.held (x, .handshake) ?_
          show (Netdev.peer _ x).indices.live .handshake
          rw [setPeer_peer_self]
          exact hlive
  split at h
  · split at h
    · cases h
      exact .refl n
    · rename_i x hx
      have hvalid : (n.peer x).valid = true := valid_of_peerByHandshake hx
      split at h
      · cases h
        exact .refl n
      · rename_i p hp
        have haccepted : n.Carried ((n.observe (.cookieAccepted x)).setPeer x p) :=
          (Netdev.Carried.observe n _).trans (.setPeer hvalid (processCookie_carried (n.peer x) hp))
        exact haccepted.trans
          (wgSendInitiation_carried c env ((haccepted.valid x).trans hvalid) h)
  split at h
  · split at h
    · cases h
      exact .refl n
    · rename_i x hx
      obtain rfl := Option.some.inj h
      exact wgProcessData_carried c env (peerByReceiver_valid hx) data ip port
  · cases h
    exact .refl n

/-! ### Timers and transmitting -/

theorem wgRunTimersPeer_carried {n n' : Netdev cfg} {x : Fin cfg.maxPeers}
    (h : wgRunTimersPeer c env n x = some n') : n.Carried n' := by
  unfold wgRunTimersPeer at h
  split at h
  · cases h
    exact .refl n
  · rename_i hvalid
    dsimp only at h
    have hexpired : n.Carried (n.setPeer x (wgExpirePeer env.now (n.peer x))) :=
      .setPeer (not_not.mp hvalid) (wgExpirePeer_carried (n.peer x) env.now)
    have hthere := (hexpired.valid x).trans (not_not.mp hvalid)
    refine hexpired.trans ?_
    generalize n.setPeer x (wgExpirePeer env.now (n.peer x)) = m at hthere h ⊢
    have hkeep : m.Carried
        (if keepaliveDue env.now (m.peer x) then (wgSendData c env m x []).1 else m) := by
      split
      · exact wgSendData_carried c env hthere []
      · exact .refl m
    refine hkeep.trans ?_
    replace hthere := (hkeep.valid x).trans hthere
    generalize (if keepaliveDue env.now (m.peer x) then (wgSendData c env m x []).1 else m) = m'
      at hthere h ⊢
    split at h
    · exact wgSendInitiation_carried c env hthere h
    · cases h
      exact .refl _

theorem wgRunTimers_carried {n n' : Netdev cfg} (h : wgRunTimers c env n = some n') :
    n.Carried n' :=
  foldlM_relates (R := Netdev.Carried) .refl .trans
    (fun _ _ _ hs => wgRunTimersPeer_carried c env hs) _ h

theorem wgTransmit_carried {n n' : Netdev cfg} {packet : List Byte}
    (h : wgTransmit c env n packet = some n') : n.Carried n' := by
  unfold wgTransmit at h
  dsimp only at h
  split at h
  · cases h
    exact .refl n
  have hplain : n.Carried { n with plainbuf := overwrite n.plainbuf packet } := .of_wg rfl rfl
  split at h
  · cases h
    exact hplain
  split at h
  · cases h
    exact hplain
  · rename_i x hx
    have hvalid : (n.peer x).valid = true := (peerForDest_some hx).1
    have hsent := hplain.trans (wgSendData_carried c env ((hplain.valid x).trans hvalid)
      ((overwrite n.plainbuf packet).take packet.length))
    have hthere := (hsent.valid x).trans hvalid
    refine hsent.trans ?_
    generalize wgSendData c env { n with plainbuf := overwrite n.plainbuf packet } x
      ((overwrite n.plainbuf packet).take packet.length) = r at hthere h
    split at h
    · have hactive : r.1.Carried (r.1.setPeer x { r.1.peer x with active := true }) := by
        refine .setPeer_same hthere rfl ?_ rfl
        funext s
        cases s <;> rfl
      replace hthere := (hactive.valid x).trans hthere
      refine hactive.trans ?_
      generalize r.1.setPeer x { r.1.peer x with active := true } = k at hthere h
      split at h
      · exact wgSendInitiation_carried c env hthere h
      · cases h
        refine .setPeer_same hthere rfl ?_ rfl
        funext s
        cases s <;> rfl
    · cases h
      exact .refl _

/-! ### Up and down -/

theorem wgPeerClearSessions_carried (p : Peer cfg) :
    p.Carried (wgPeerClearSessions p) := by
  refine .of_slots (fun _ => none) rfl (fun _ _ u hs => absurd hs.symm (Option.some_ne_none u))
    (fun s => Or.inl ?_) (Or.inr rfl)
  cases s <;> rfl

theorem wgDownPeer_carried (p : Peer cfg) : p.Carried (wgDownPeer p) := by
  unfold wgDownPeer
  split
  · refine (wgPeerClearSessions_carried p).trans (.of_same rfl ?_ rfl)
    funext s
    cases s <;> rfl
  · exact .refl p

theorem wgIfup_device (n : Netdev cfg) : n.wg.Carried (wgIfup env n).1.wg := by
  have hup : n.wg.Carried { n.wg with peers := fun x => wgIfupPeer (n.peer x) } :=
    .each rfl (fun x => wgIfupPeer_carried (n.peer x)) fun x hx =>
      if_neg fun hvalid => Bool.false_ne_true (hx.symm.trans hvalid.1)
  unfold wgIfup
  dsimp only
  split
  · exact .refl _
  split
  · exact .refl _
  split
  · exact .refl _
  split
  · exact .refl _
  split
  · exact .refl _
  split
  · exact hup
  · exact hup

theorem wgDownFinish_device (n : Netdev cfg) : n.wg.Carried (wgDownFinish n).wg :=
  .each rfl (fun x => wgDownPeer_carried (n.peer x)) fun _ hx =>
    if_neg fun hvalid => Bool.false_ne_true (hx.symm.trans hvalid)

theorem wgIfdown_device (n : Netdev cfg) : n.wg.Carried (wgIfdown n).1.wg := by
  unfold wgIfdown
  dsimp only
  split
  · exact .refl _
  split
  · exact wgDownFinish_device { n with bifup := false }
  split
  · exact .refl _
  · exact .refl _

theorem setPortAddr_cases (n : Netdev cfg) (req : IfReq) : ∃ port addr mask,
    setPortAddr n req = { n with listenPort := port, ipaddr := addr, netmask := mask } := by
  unfold setPortAddr
  dsimp only
  split <;> split <;> exact ⟨_, _, _, rfl⟩

theorem setPortAddr_wg (n : Netdev cfg) (req : IfReq) : (setPortAddr n req).wg = n.wg := by
  obtain ⟨port, addr, mask, h⟩ := setPortAddr_cases n req
  rw [h]

/-! ### Requests -/

/-- The setup a request leaves its peer with. -/
def requestedSetup (req : PeerReq) (allowed : List AllowedIp) (s : Setup cfg) : Setup cfg :=
  { s with
    connectIp := if req.has wgPeerHasEndpoint then req.sinAddr else s.connectIp
    connectPort := if req.has wgPeerHasEndpoint then ntohs req.sinPort else s.connectPort
    keepaliveInterval := if req.has wgPeerHasKeepalive then req.keepalive else s.keepaliveInterval
    allowedSourceIps :=
      if req.has wgPeerHasAips then fun y => allowed.getD y AllowedIp.zero else s.allowedSourceIps }

theorem applyPeerReq_setup (n : Netdev cfg) (req : PeerReq) (created : Bool)
    (allowed : List AllowedIp) (p : Peer cfg) :
    (applyPeerReq n req created allowed p).setup = requestedSetup req allowed p.setup := by
  have haips : ∀ (b : Bool) (q : Peer cfg) (f : Fin cfg.maxAips → AllowedIp),
      (if b then { q with allowedSourceIps := f } else q).setup
        = { q.setup with allowedSourceIps := if b then f else q.setup.allowedSourceIps } := by
    intro b q f
    cases b <;> rfl
  have hkeepalive : ∀ (b : Bool) (q : Peer cfg) (k : U16),
      (if b then { q with keepaliveInterval := k } else q).setup
        = { q.setup with keepaliveInterval := if b then k else q.setup.keepaliveInterval } := by
    intro b q k
    cases b <;> rfl
  unfold applyPeerReq requestedSetup
  dsimp only
  rw [haips, hkeepalive]
  cases req.has wgPeerHasEndpoint
  · rfl
  · simp only [if_true]
    split <;> split <;> rfl

/-! ### Steps -/

/-- A step of the stack or of the receive thread on packets or time. -/
def Event.traffic : Event cfg → Bool
  | .transmit .. => true
  | .receive => true
  | .datagram .. => true
  | .timers .. => true
  | _ => false

/-- **Traffic leaves the driver carried.** -/
theorem step_carried {n n' : Netdev cfg} {e : Event cfg} (he : e.traffic = true)
    (h : step c n e = some n') : n.Carried n' := by
  cases e with
  | transmit env packet => exact wgTransmit_carried c env h
  | receive =>
      cases h
      exact .of_wg rfl rfl
  | datagram env data ip port =>
      simp only [step] at h
      split at h
      · cases h
      split at h
      · cases h
        exact .refl n
      · exact wgProcessDatagram_carried c env h
  | timers env =>
      simp only [step] at h
      split at h
      · cases h
      split at h
      · cases h
        exact .refl n
      · exact wgRunTimers_carried c env h
  | _ => cases he

/-- `SIOCSWGIF` sets the private key up, and carries the device on from there. -/
theorem wgSetIf_device (n : Netdev cfg) (req : IfReq) :
    n.wg.Carried (wgSetIf c env n req).1.wg ∨
      (setPrivateKey c env n req.privateKey).1.wg.Carried (wgSetIf c env n req).1.wg := by
  have hrest : ∀ m : Netdev cfg, m.wg.Carried
      (if req.has wgIfUp then
        ((wgIfup env (setPortAddr m req)).1, Outcome.returned (wgIfup env (setPortAddr m req)).2)
      else if req.has wgIfDown then wgIfdown (setPortAddr m req)
      else (setPortAddr m req, .returned none)).1.wg := by
    intro m
    have hport : m.wg.Carried (setPortAddr m req).wg := by
      rw [setPortAddr_wg]
      exact .refl _
    split
    · exact hport.trans (wgIfup_device env _)
    split
    · exact hport.trans (wgIfdown_device _)
    · exact hport
  unfold wgSetIf
  dsimp only
  split
  · exact Or.inl (.refl _)
  split
  · exact Or.inl (.refl _)
  by_cases hkey : req.has wgIfHasPrivateKey = true
  · rw [if_pos hkey]
    refine Or.inr ?_
    split
    · exact .refl _
    · exact hrest _
  · rw [if_neg hkey]
    exact Or.inl (hrest n)

/-- What its parts keep, `SIOCSWGIF` keeps. -/
theorem wgSetIf_invariant {I : Netdev cfg → Prop}
    (hkey : ∀ n privateKey, I n → I (setPrivateKey c env n privateKey).1)
    (hport : ∀ n req, I n → I (setPortAddr n req)) (hup : ∀ n, I n → I (wgIfup env n).1)
    (hdown : ∀ n, I n → I (wgIfdown n).1) {n : Netdev cfg} (req : IfReq) (hn : I n) :
    I (wgSetIf c env n req).1 := by
  have hrest : ∀ m : Netdev cfg, I m →
      I (if req.has wgIfUp then
        ((wgIfup env (setPortAddr m req)).1, Outcome.returned (wgIfup env (setPortAddr m req)).2)
      else if req.has wgIfDown then wgIfdown (setPortAddr m req)
      else (setPortAddr m req, .returned none)).1 := by
    intro m hm
    split
    · exact hup _ (hport m req hm)
    split
    · exact hdown _ (hport m req hm)
    · exact hport m req hm
  unfold wgSetIf
  dsimp only
  split
  · exact hn
  split
  · exact hn
  by_cases hset : req.has wgIfHasPrivateKey = true
  · rw [if_pos hset]
    split
    · exact hkey n req.privateKey hn
    · exact hrest _ (hkey n req.privateKey hn)
  · rw [if_neg hset]
    exact hrest n hn

/-- **What a step does to the device**: it carries it on, unless it is a request. -/
theorem step_device {n n' : Netdev cfg} {e : Event cfg} (h : step c n e = some n') :
    n.wg.Carried n'.wg ∨
    (∃ env req, e = .setIf env req ∧ n' = (wgSetIf c env n req).1) ∨
    (∃ req, e = .setPeer req ∧ n' = (wgSetPeer c n req).1) ∨
    ∃ publicKey, e = .delPeer publicKey ∧ n' = (wgDelPeer n publicKey).1 := by
  by_cases he : e.traffic = true
  · exact Or.inl (step_carried c he h).device
  cases e with
  | setIf env req =>
      cases h
      exact Or.inr (Or.inl ⟨env, req, rfl, rfl⟩)
  | setPeer req =>
      cases h
      exact Or.inr (Or.inr (Or.inl ⟨req, rfl, rfl⟩))
  | delPeer publicKey =>
      cases h
      exact Or.inr (Or.inr (Or.inr ⟨publicKey, rfl, rfl⟩))
  | ifup env =>
      cases h
      exact Or.inl (wgIfup_device env n)
  | ifdown =>
      cases h
      exact Or.inl (wgIfdown_device n)
  | ifdownDone =>
      simp only [step] at h
      split at h
      · cases h
        exact Or.inl (wgDownFinish_device
          { n with reaping := false, rxpid := 0, rxdone := none, psock := false })
      · cases h
  | ifdownTimeout =>
      simp only [step] at h
      split at h
      · cases h
        exact Or.inl (.refl _)
      · cases h
  | flushTake =>
      simp only [step] at h
      split at h
      · cases h
      · cases h
        unfold wgFlushTake
        split
        · exact Or.inl (.refl _)
        · split <;> exact Or.inl (.refl _)
  | flushSend =>
      obtain ⟨out, -, rfl⟩ := Option.map_eq_some_iff.mp h
      exact Or.inl (.refl _)
  | rxExit =>
      simp only [step] at h
      split at h
      · cases h
        exact Or.inl (.refl _)
      · cases h
  | _ => exact absurd rfl he

/-- What traffic and the requests keep of a device, every step keeps. -/
theorem step_device_invariant {I : Device cfg → Prop}
    (hcarried : ∀ d e : Device cfg, d.Carried e → I d → I e)
    (hkey : ∀ env n privateKey, I n.wg → I (setPrivateKey c env n privateKey).1.wg)
    (hpeer : ∀ n req, I n.wg → I (wgSetPeer c n req).1.wg)
    (hdel : ∀ n publicKey, I n.wg → I (wgDelPeer n publicKey).1.wg)
    {n n' : Netdev cfg} {e : Event cfg} (h : step c n e = some n') (hn : I n.wg) : I n'.wg := by
  rcases step_device c h with hdevice | ⟨env, req, -, rfl⟩ | ⟨req, -, rfl⟩ | ⟨publicKey, -, rfl⟩
  · exact hcarried _ _ hdevice hn
  · rcases wgSetIf_device c env n req with hdevice | hdevice
    · exact hcarried _ _ hdevice hn
    · exact hcarried _ _ hdevice (hkey env n req.privateKey hn)
  · exact hpeer n req hn
  · exact hdel n publicKey hn

end NuttxWireguard.Kernel
