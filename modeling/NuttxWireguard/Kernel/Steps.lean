/-
The driver takes only the steps of the session model, and configuration.

As for the flat port there is one lemma for each function, and `step_path` puts them
together.  The control commands do what no `Micro` step does: they edit a peer beside its
sessions, or replace a peer by one without sessions.  `Reconf` lists these two, and an
invariant of both relations is an invariant of the driver.
-/
import NuttxWireguard.Kernel.System
import NuttxWireguard.Roles

namespace NuttxWireguard

open Lib

variable {cfg : Config}

/-- What configuration does to a view. -/
inductive Reconf : View cfg → View cfg → Prop
  /-- A peer is edited beside its sessions. -/
  | edit (v : View cfg) (x : Fin cfg.maxPeers) (p : PeerView cfg)
      (hslots : p.slots = (v.peers x).slots)
      (hgreatest : p.greatestTimestamp = (v.peers x).greatestTimestamp) :
      Reconf v (v.setPeer x p)
  /-- A peer is replaced by one without sessions. -/
  | reset (v : View cfg) (x : Fin cfg.maxPeers) (p : PeerView cfg)
      (hslots : p.slots = fun _ => Keypair.zero) : Reconf v (v.setPeer x p)

theorem Reconf.numbered {v w : View cfg} (h : Reconf v w) (hv : v.Numbered) : w.Numbered := by
  cases h with
  | edit x p hslots => exact hv.setPeer_of_slots_eq x hslots
  | reset x p hslots => exact hv.clear x hslots

theorem Reconf.each {P : KeypairProperty cfg} {v w : View cfg} (h : Reconf v w) (hv : v.Each P) :
    w.Each P := by
  cases h with
  | edit x p hslots => exact hv.setPeer_of_slots_eq x hslots
  | reset x p hslots => exact hv.clear x hslots

theorem Reconf.log_eq {v w : View cfg} (h : Reconf v w) : w.log = v.log := by
  cases h <;> rfl

namespace Kernel

variable (c : Crypto) (env : Env cfg)

/-- The view of the driver. -/
def Netdev.view (n : Netdev cfg) : View cfg where
  peers := fun x => (n.peer x).view
  nextSid := n.nextSid
  log := n.log

section Frame

variable (n : Netdev cfg) (x : Fin cfg.maxPeers)

@[simp] theorem view_peers : n.view.peers x = (n.peer x).view := rfl

@[simp] theorem setPeer_peer_self (p : Peer cfg) : (n.setPeer x p).peer x = p :=
  Device.setPeer_peers_self _ _ _

theorem setPeer_peer_of_ne {y : Fin cfg.maxPeers} (p : Peer cfg) (h : y ≠ x) :
    (n.setPeer x p).peer y = n.peer y :=
  Device.setPeer_peers_of_ne _ _ h

@[simp] theorem setPeer_self : n.setPeer x (n.peer x) = n := by
  show { n with wg := n.wg.setPeer x (n.wg.peers x) } = n
  rw [Device.setPeer_self]

@[simp] theorem view_setPeer (p : Peer cfg) :
    (n.setPeer x p).view = n.view.setPeer x p.view := by
  simp only [Netdev.view, View.setPeer, View.mk.injEq]
  refine ⟨?_, rfl, rfl⟩
  funext y
  by_cases h : y = x
  · subst h; simp
  · simp [h, setPeer_peer_of_ne]

@[simp] theorem view_observe (o : Obs cfg.maxPeers) :
    (n.observe o).view = n.view.observe o := rfl

@[simp] theorem observe_peer (o : Obs cfg.maxPeers) : (n.observe o).peer x = n.peer x := rfl

/-- A peer changed outside its view leaves the view. -/
theorem view_setPeer_of_view_eq {p : Peer cfg} (h : p.view = (n.peer x).view) :
    (n.setPeer x p).view = n.view := by
  rw [view_setPeer, h]
  exact View.setPeer_self n.view x

theorem view_of_peers_eq {d : Device cfg} (h : d.peers = n.wg.peers) :
    { n with wg := d }.view = n.view := by
  simp only [Netdev.view, View.mk.injEq, and_self, and_true]
  funext y
  show (d.peers y).view = _
  rw [h]
  rfl

end Frame

/-! ### Sending -/

/-- Enqueueing a datagram touches the queue only. -/
theorem wgTxEnqueue_cases (n : Netdev cfg) (data : List Byte) (ip : U32) (port : U16) :
    (∃ k err, err ≠ .enokey ∧
      wgTxEnqueue env n data ip port = ({ n with mallocs := k }, some err)) ∨
    wgTxEnqueue env n data ip port =
      ({ n with
        mallocs := n.mallocs + 1
        txqueue := n.txqueue ++ [⟨data, ip, port⟩]
        ntx := n.ntx + 1 }, none) := by
  unfold wgTxEnqueue
  dsimp only
  split
  · exact Or.inl ⟨n.mallocs, .eagain, by decide, rfl⟩
  · split
    · exact Or.inl ⟨n.mallocs + 1, .enomem, by decide, rfl⟩
    · exact Or.inr rfl

@[simp] theorem wgTxEnqueue_wg (n : Netdev cfg) (data : List Byte) (ip : U32) (port : U16) :
    (wgTxEnqueue env n data ip port).1.wg = n.wg := by
  rcases wgTxEnqueue_cases env n data ip port with ⟨k, err, -, h⟩ | h <;> rw [h]

@[simp] theorem wgTxEnqueue_view (n : Netdev cfg) (data : List Byte) (ip : U32) (port : U16) :
    (wgTxEnqueue env n data ip port).1.view = n.view := by
  rcases wgTxEnqueue_cases env n data ip port with ⟨k, err, -, h⟩ | h <;> rw [h] <;> rfl

/-- What `wg_send_data` can do: nothing, destroy an exhausted keypair, or encrypt one packet
under a usable one and hand it to the queue. -/
theorem wgSendData_cases (n : Netdev cfg) (x : Fin cfg.maxPeers) (plaintext : List Byte) :
    let s := sendingSlot (n.peer x).keypair
    let kp := (n.peer x).keypair s
    ((sendingUsable kp = false ∨
        wgCryptBufsize cfg < msgDataLen + paddedLen plaintext.length + authtagLen) ∧
      ∃ err, wgSendData c env n x plaintext = (n, some err)) ∨
    (sendingUsable kp = true ∧ sendingExhausted env.now kp = true ∧
      wgSendData c env n x plaintext
        = (n.setPeer x (keypairDestroy (n.peer x) s), some .enokey)) ∨
    (sendingUsable kp = true ∧ sendingExhausted env.now kp = false ∧
      msgDataLen + paddedLen plaintext.length + authtagLen ≤ wgCryptBufsize cfg ∧
      let r := wgTxEnqueue env
        (n.observe (.encrypted x kp.sid kp.initiator kp.sendingKey kp.sendingCounter env.time))
        (dataHeader kp.remoteIndex kp.sendingCounter ++
          c.aeadEncrypt (padPayload plaintext) [] kp.sendingCounter kp.sendingKey)
        (n.peer x).ip (n.peer x).port
      ∃ p lastTx, p.view = { (n.peer x).view with
          slots := (n.peer x).keypair.put s
            { kp with sendingCounter := kp.sendingCounter + 1, lastTx := lastTx } } ∧
        wgSendData c env n x plaintext = (r.1.setPeer x p, r.2)) := by
  unfold wgSendData
  dsimp only [encryptPacket]
  generalize sendingSlot (n.peer x).keypair = s
  generalize (n.peer x).keypair s = kp
  by_cases husable : sendingUsable kp = true
  · rw [if_neg (by simpa using husable)]
    by_cases hlimit : sendingExhausted env.now kp = true
    · rw [if_pos hlimit]
      exact Or.inr (Or.inl ⟨husable, hlimit, rfl⟩)
    · rw [if_neg hlimit]
      split
      · rename_i hsize
        exact Or.inl ⟨Or.inr hsize, _, rfl⟩
      · rename_i hsize
        have hview : ∀ (b : Bool) (p : Peer cfg),
            (if b then { p with sendHandshake := true } else p).view = p.view := by
          intro b p
          cases b <;> rfl
        refine Or.inr (Or.inr ⟨husable, by simpa using hlimit, Nat.not_lt.mp hsize, ?_⟩)
        generalize wgTxEnqueue env (n.observe _) _ _ _ = r
        by_cases hret : r.2 = none
        · refine ⟨_, env.now, ?_, rfl⟩
          rw [hview, if_pos hret, Peer.setKeypair_setKeypair]
          exact setKeypair_view (n.peer x) s { kp with
            sendingCounter := kp.sendingCounter + 1, lastTx := env.now }
        · refine ⟨_, kp.lastTx, ?_, rfl⟩
          rw [hview, if_neg hret]
          exact setKeypair_view (n.peer x) s { kp with
            sendingCounter := kp.sendingCounter + 1, lastTx := kp.lastTx }
  · rw [if_pos (by simpa using husable)]
    exact Or.inl ⟨Or.inl (by simpa using husable), _, rfl⟩

theorem wgSendData_path (n : Netdev cfg) (x : Fin cfg.maxPeers) (plaintext : List Byte) :
    Path env.time n.view (wgSendData c env n x plaintext).1.view := by
  rcases wgSendData_cases c env n x plaintext with
    ⟨-, err, h⟩ | ⟨-, -, h⟩ | ⟨hu, hl, -, p, tx, hp, h⟩
  · rw [h]
  · rw [h, view_setPeer, keypairDestroy_view]
    exact .single (.drop _ _ _)
  · rw [h, view_setPeer, hp, wgTxEnqueue_view]
    exact .single (.encrypt n.view x _ tx rfl hu hl)

/-- Building an initiation writes the handshake record only. -/
theorem wgCreateInit_device {d d' : Device cfg} {x : Fin cfg.maxPeers} {r : Option MsgInit}
    (h : wgCreateInit c env d x = some (d', r)) :
    ∃ hs, d' = d.setPeer x { d.peers x with handshake := hs } := by
  unfold wgCreateInit at h
  dsimp only at h
  split at h
  · cases h
    exact ⟨(d.peers x).handshake, (Device.setPeer_self d x).symm⟩
  · split at h
    · cases h; exact ⟨_, rfl⟩
    · split at h
      · cases h; exact ⟨_, rfl⟩
      · split at h
        · cases h; exact ⟨_, rfl⟩
        · split at h
          · cases h
          · cases h; exact ⟨_, rfl⟩

/-- So does building a response. -/
theorem wgCreateResponse_device {d d' : Device cfg} {x : Fin cfg.maxPeers}
    {r : Option MsgResponse} (h : wgCreateResponse c env d x = some (d', r)) :
    ∃ hs, d' = d.setPeer x { d.peers x with handshake := hs } := by
  unfold wgCreateResponse at h
  dsimp only at h
  split at h
  · cases h
    exact ⟨(d.peers x).handshake, (Device.setPeer_self d x).symm⟩
  · split at h
    · cases h; exact ⟨_, rfl⟩
    · split at h
      · cases h; exact ⟨_, rfl⟩
      · split at h
        · cases h; exact ⟨_, rfl⟩
        · split at h
          · cases h
          · cases h; exact ⟨_, rfl⟩

/-- A device changed in one handshake record looks the same. -/
theorem view_handshake (n : Netdev cfg) (x : Fin cfg.maxPeers) (hs : Handshake) :
    { n with wg := n.wg.setPeer x { n.wg.peers x with handshake := hs } }.view = n.view :=
  view_setPeer_of_view_eq n x rfl

/-- Sending an initiation leaves the peers alone and is seen at most once. -/
theorem wgSendInitiation_view {n n' : Netdev cfg} {x : Fin cfg.maxPeers}
    (h : wgSendInitiation c env n x = some n') :
    n'.view = n.view ∨
      n'.view = n.view.observe (.initiation x (n.peer x).ip (n.peer x).port env.time) := by
  unfold wgSendInitiation at h
  dsimp only at h
  split at h
  · cases h
    exact Or.inl rfl
  · split at h
    · cases h
    · rename_i wg hcreate
      obtain ⟨hs, rfl⟩ := wgCreateInit_device c env hcreate
      cases h
      exact Or.inl (view_handshake n x hs)
    · rename_i wg msg hcreate
      obtain ⟨hs, rfl⟩ := wgCreateInit_device c env hcreate
      have hv := view_handshake n x hs
      have hp : ∀ m : Netdev cfg, m.view = n.view →
          (m.peer x).ip = (n.peer x).ip ∧ (m.peer x).port = (n.peer x).port := by
        intro m hm
        have hx : (m.peer x).view = (n.peer x).view := congrFun (congrArg View.peers hm) x
        exact ⟨congrArg PeerView.ip hx, congrArg PeerView.port hx⟩
      generalize { n with wg := n.wg.setPeer x { n.wg.peers x with handshake := hs } } = m
        at hv h
      have hq := wgTxEnqueue_view env m msg.bytes (m.peer x).ip (m.peer x).port
      have hw : (wgTxEnqueue env m msg.bytes (m.peer x).ip (m.peer x).port).1.peer x = m.peer x :=
        congrFun (congrArg Device.peers (wgTxEnqueue_wg env m msg.bytes _ _)) x
      generalize wgTxEnqueue env m msg.bytes (m.peer x).ip (m.peer x).port = r at h hq hw
      obtain rfl := Option.some.inj h
      rw [← hv, ← (hp m hv).1, ← (hp m hv).2]
      split
      · right
        rw [view_setPeer_of_view_eq _ x (by rw [observe_peer, hw]; rfl), view_observe, hq]
      · left
        rw [view_setPeer_of_view_eq _ x (by rw [hw]; rfl), hq]

theorem wgSendInitiation_path {n n' : Netdev cfg} {x : Fin cfg.maxPeers}
    (h : wgSendInitiation c env n x = some n') : Path env.time n.view n'.view := by
  rcases wgSendInitiation_view c env h with hv | hv
  · rw [hv]
  · rw [hv]
    exact .single (.initiation n.view x)

theorem startSession_path (n : Netdev cfg) (x : Fin cfg.maxPeers) (initiator : Bool) :
    Path env.time n.view (startSession c env n x initiator).view := by
  have hnew : NewSession n.nextSid env.time
      (sessionKeypair c env.now n.nextSid env.time (n.peer x).handshake initiator : Keypair cfg) :=
    sessionKeypair_new c n.nextSid env.time (n.peer x).handshake initiator
  have hstep := Micro.start n.view x _ hnew
  have hview : (wgStartSession c env.now n.nextSid env.time (n.peer x) initiator).view
      = { (n.peer x).view with
          slots :=
            if initiator then (n.peer x).keypair.installCurr Keypair.zero full
              (sessionKeypair c env.now n.nextSid env.time (n.peer x).handshake initiator)
            else (n.peer x).keypair.installNext Keypair.zero
              (sessionKeypair c env.now n.nextSid env.time (n.peer x).handshake initiator) } :=
    addKeypair_view _ _
  refine Path.trans_eq (.single hstep) ?_
  show { (((n.setPeer x _).observe _).view) with nextSid := n.nextSid + 1 } = _
  rw [view_observe, view_setPeer, hview]
  rfl

theorem wgSendResponse_path {n n' : Netdev cfg} {x : Fin cfg.maxPeers}
    (h : wgSendResponse c env n x = some n') : Path env.time n.view n'.view := by
  unfold wgSendResponse at h
  split at h
  · cases h
  · rename_i wg hcreate
    obtain ⟨hs, rfl⟩ := wgCreateResponse_device c env hcreate
    cases h
    rw [view_handshake]
  · rename_i wg msg hcreate
    obtain ⟨hs, rfl⟩ := wgCreateResponse_device c env hcreate
    cases h
    rw [← view_handshake n x hs, wgTxEnqueue_view]
    exact startSession_path c env _ x false

theorem wgSendCookie_view (n : Netdev cfg) (mac1 : Bytes 16) (sender ip : U32) (port : U16) :
    (wgSendCookie c env n mac1 sender ip port).view = n.view := by
  have hpeers : (wgCreateCookie c env n.wg mac1 sender (sourceBytes ip port)).1.peers
      = n.wg.peers := by
    unfold wgCreateCookie
    split
    · rfl
    · exact peerCookie_peers c env.now env.cookieSecret n.wg (sourceBytes ip port)
  unfold wgSendCookie
  split
  · rename_i wg hcreate
    rw [hcreate] at hpeers
    exact view_of_peers_eq n hpeers
  · rename_i wg msg hcreate
    rw [hcreate] at hpeers
    rw [wgTxEnqueue_view]
    exact view_of_peers_eq n hpeers

/-! ### Receiving -/

/-- Whatever the inner packet, it is at most queued for the stack. -/
theorem wgProcessInner_cases (n : Netdev cfg) (x : Fin cfg.maxPeers) (datalen : Nat) :
    wgProcessInner env n x datalen = n ∨
      ∃ packet q, wgProcessInner env n x datalen
        = { n.observe (.injected x packet) with rxqueue := q } := by
  have hdeliver : ∀ packet, wgDeliver env n x packet = n ∨
      ∃ q, wgDeliver env n x packet = { n.observe (.injected x packet) with rxqueue := q } := by
    intro packet
    unfold wgDeliver
    split
    · exact Or.inl rfl
    split
    · exact Or.inl rfl
    split
    · exact Or.inl rfl
    · exact Or.inr ⟨_, rfl⟩
  unfold wgProcessInner
  dsimp only
  split
  · split
    · exact Or.inl rfl
    split
    · exact Or.inl rfl
    split
    · exact Or.inl rfl
    · rcases hdeliver (n.plainbuf.take (ipTotalLen n.plainbuf)) with h | ⟨q, h⟩
      · exact Or.inl h
      · exact Or.inr ⟨_, q, h⟩
  · exact Or.inl rfl

theorem wgProcessInner_path {time : Nat} (n : Netdev cfg) (x : Fin cfg.maxPeers) (datalen : Nat) :
    Path time n.view (wgProcessInner env n x datalen).view := by
  rcases wgProcessInner_cases env n x datalen with h | ⟨packet, q, h⟩
  · rw [h]
  · rw [h]
    exact .single (.inject n.view x packet)

/-- What `wg_process_data` can do. -/
theorem wgProcessData_cases (n : Netdev cfg) (x : Fin cfg.maxPeers) (data : List Byte) (ip : U32)
    (port : U16) :
    let p := n.peer x
    let counter := dataCounter data
    let r := wgProcessData c env n x data ip port
    -- no keypair, a length out of range, or a datagram that does not authenticate
    r = n ∨
    ∃ s, keypairByIndex p (dataReceiver data) = some s ∧
      -- the keypair is past its limits
      ((receivingExhausted env.now (p.keypair s) = true ∧ r = n.setPeer x (keypairDestroy p s)) ∨
      (receivingExhausted env.now (p.keypair s) = false ∧
        data.length - msgDataLen - authtagLen ≤ cfg.pktsize ∧
        ∃ plain, decryptPacket c (p.keypair s) (data.drop msgDataLen) counter = some plain ∧
          let m : Netdev cfg := { n with plainbuf := overwrite n.plainbuf plain }
          -- the replay window refuses the counter
          ((wgCheckReplay (p.keypair s) counter).1 = false ∧
            r = m.observe (.opened x (p.keypair s).sid counter false env.time)) ∨
          -- the datagram is accepted
          ((wgCheckReplay (p.keypair s) counter).1 = true ∧
            r = wgProcessInner env
              ((m.observe (.opened x (p.keypair s).sid counter true env.time)).setPeer x
                (acceptPacket env.now p s (wgCheckReplay (p.keypair s) counter).2 ip port
                  (data.length - msgDataLen)))
              x (data.length - msgDataLen)))) := by
  intro p counter r
  simp only [r]
  unfold wgProcessData
  dsimp only
  cases hs : keypairByIndex p (dataReceiver data) with
  | none => exact Or.inl rfl
  | some s =>
      dsimp only
      by_cases hlimit : receivingExhausted env.now (p.keypair s) = true
      · exact Or.inr ⟨s, rfl, Or.inl ⟨hlimit, if_pos hlimit⟩⟩
      rw [if_neg hlimit]
      by_cases hlen : data.length - msgDataLen < authtagLen ∨
          data.length - msgDataLen - authtagLen > cfg.pktsize
      · exact Or.inl (if_pos hlen)
      rw [if_neg hlen]
      have hlimit' : receivingExhausted env.now (p.keypair s) = false := by simpa using hlimit
      cases hplain : decryptPacket c (p.keypair s) (data.drop msgDataLen) counter with
      | none => exact Or.inl rfl
      | some plain =>
          refine Or.inr ⟨s, rfl, Or.inr ⟨hlimit', by omega, plain, hplain, ?_⟩⟩
          dsimp only
          by_cases hfresh : (wgCheckReplay (p.keypair s) counter).1 = true
          · rw [if_neg (by simpa using hfresh), hfresh]
            exact Or.inr ⟨rfl, rfl⟩
          · have hstale : (wgCheckReplay (p.keypair s) counter).1 = false := by simpa using hfresh
            rw [if_pos (by simpa using hstale), hstale, wgCheckReplay_refused hstale,
              Peer.setKeypair_self]
            exact Or.inl ⟨rfl, setPeer_self _ x⟩

theorem wgProcessData_path (n : Netdev cfg) (x : Fin cfg.maxPeers) (data : List Byte) (ip : U32)
    (port : U16) : Path env.time n.view (wgProcessData c env n x data ip port).view := by
  rcases wgProcessData_cases c env n x data ip port with
    h | ⟨s, hs, ⟨-, h⟩ | ⟨hlimit, -, plain, -, ⟨hstale, h⟩ | ⟨hfresh, h⟩⟩⟩
  · rw [h]
  · rw [h, view_setPeer, keypairDestroy_view]
    exact .single (.drop _ _ _)
  · rw [h]
    exact .single (.refuse n.view x s _ _ rfl (keypairByIndex_some hs).1 hstale)
  · rw [h]
    refine (Path.trans_eq (.single (.accept n.view x s _ (dataCounter data) ip port rfl
      (keypairByIndex_some hs).1 hlimit hfresh)) ?_).trans (wgProcessInner_path env _ x _)
    rw [view_setPeer, acceptPacket_view]
    rfl

/-! ### Messages -/

/-- An initiation is accepted if it opens, is newer than every one before it and comes
within the rate. -/
theorem wgProcessInit_some {now : U32} {d d' : Device cfg} {msg : MsgInit}
    {x : Fin cfg.maxPeers} (h : wgProcessInit c now d msg = some (d', x)) :
    ∃ o, openInit c d msg = some o ∧ o.peer = x ∧
      timestampReplayed (d.peers x) o.timestamp = false ∧ rateLimited now (d.peers x) = false ∧
      d' = d.setPeer x (acceptInit now (d.peers x) msg o) := by
  unfold wgProcessInit at h
  obtain ⟨o, ho, h⟩ := Option.bind_eq_some_iff.mp h
  dsimp only at h
  split at h
  · cases h
  · rename_i hts
    split at h
    · cases h
    · rename_i hrate
      cases h
      exact ⟨o, ho, rfl, by simpa using hts, by simpa using hrate, rfl⟩

theorem wgProcessInitiation_path {n n' : Netdev cfg} {msg : MsgInit} {ip : U32} {port : U16}
    (h : wgProcessInitiation c env n msg ip port = some n') :
    Path env.time n.view n'.view := by
  unfold wgProcessInitiation at h
  split at h
  · cases h; rfl
  · rename_i d x hinit
    obtain ⟨o, -, rfl, hts, -, rfl⟩ := wgProcessInit_some c hinit
    refine Relation.ReflTransGen.trans ?_ (wgSendResponse_path c env h)
    refine Path.trans_eq (.single (.acceptInit n.view o.peer o.timestamp ip port
      (lt_of_not_timestampReplayed hts))) ?_
    generalize hm : { n with wg := n.wg.setPeer o.peer (acceptInit env.now (n.wg.peers o.peer) msg o) }
      = m
    have hmview : m.view = n.view.setPeer o.peer
        { (n.peer o.peer).view with greatestTimestamp := o.timestamp } := by
      rw [← hm]
      exact view_setPeer n o.peer (acceptInit env.now (n.peer o.peer) msg o)
    have hmpeer : (m.peer o.peer).view
        = { (n.peer o.peer).view with greatestTimestamp := o.timestamp } := by
      have hx := congrFun (congrArg View.peers hmview) o.peer
      rw [View.setPeer_peers_self] at hx
      exact hx
    rw [view_setPeer, view_observe, hmview]
    have hgreatest : (m.peer o.peer).greatestTimestamp = o.timestamp :=
      congrArg PeerView.greatestTimestamp hmpeer
    rw [hgreatest]
    have hend : ({ m.peer o.peer with ip := ip, port := port } : Peer cfg).view
        = { (n.peer o.peer).view with ip := ip, port := port, greatestTimestamp := o.timestamp } := by
      show { (m.peer o.peer).view with ip := ip, port := port } = _
      rw [hmpeer]
    rw [observe_peer, hend]
    show View.setPeer (View.observe _ _) _ _ = _
    simp only [View.observe, View.setPeer, Function.update_idem]
    rfl

theorem responseAccepted_path (n : Netdev cfg) (x : Fin cfg.maxPeers) {p : Peer cfg} (ip : U32)
    (port : U16) (hp : p.view = (n.peer x).view) :
    Path env.time n.view (wgSendData c env (startSession c env
      ((n.observe (.responseAccepted x)).setPeer x { p with ip := ip, port := port }) x true)
      x []).1.view := by
  have haccept : Path env.time n.view
      ((n.observe (.responseAccepted x)).setPeer x { p with ip := ip, port := port }).view := by
    refine Path.trans_eq (.single (.acceptResponse n.view x ip port)) ?_
    have hview : ({ p with ip := ip, port := port } : Peer cfg).view
        = { (n.peer x).view with ip := ip, port := port } := by
      rw [← hp]
      rfl
    rw [view_setPeer, hview]
    rfl
  exact (haccept.trans (startSession_path c env _ x true)).trans (wgSendData_path c env _ x [])

theorem wgUnderLoad_view (n : Netdev cfg) : (wgUnderLoad env n).1.view = n.view := by
  unfold wgUnderLoad
  dsimp only
  split <;> rfl

theorem wgProcessDatagram_path {n n' : Netdev cfg} {data : List Byte} {ip : U32} {port : U16}
    (h : wgProcessDatagram c env n data ip port = some n') : Path env.time n.view n'.view := by
  unfold wgProcessDatagram at h
  dsimp only at h
  split at h
  · split at h
    · cases h; rfl
    · have hload : Path env.time n.view (wgUnderLoad env n).1.view := by rw [wgUnderLoad_view]
      refine hload.trans ?_
      generalize wgUnderLoad env n = r at h
      split at h
      · -- under load the cookie secret may be renewed first
        have hcookie : Path env.time r.1.view { r.1 with wg := (checkMac2 c env.now env.cookieSecret
            r.1.wg (data.take (msgInitLen - 16)) (sourceBytes ip port)
            (MsgInit.parse data).mac2).1 }.view :=
          Path.trans_eq .refl
            (view_of_peers_eq r.1 (peerCookie_peers c env.now env.cookieSecret r.1.wg (sourceBytes ip port)))
        refine hcookie.trans ?_
        split at h
        · cases h
          rw [wgSendCookie_view]
        · exact wgProcessInitiation_path c env h
      · exact wgProcessInitiation_path c env h
  split at h
  · split at h
    · cases h; rfl
    · split at h
      · cases h; rfl
      · rename_i x hx
        split at h
        · cases h; rfl
        · rename_i p hp
          obtain rfl := Option.some.inj h
          exact responseAccepted_path c env n x ip port (processResponse_view hp)
  split at h
  · split at h
    · cases h; rfl
    · rename_i x hx
      split at h
      · cases h; rfl
      · rename_i p hp
        have hcookie : Path env.time n.view ((n.observe (.cookieAccepted x)).setPeer x p).view :=
          Path.trans_eq (.single (.acceptCookie n.view x))
            (view_setPeer_of_view_eq (n.observe (.cookieAccepted x)) x (processCookie_view hp))
        exact hcookie.trans (wgSendInitiation_path c env h)
  split at h
  · split at h
    · cases h; rfl
    · rename_i x hx
      obtain rfl := Option.some.inj h
      exact wgProcessData_path c env n x data ip port
  · cases h; rfl

/-! ### Timers, transmitting and the interface state -/

theorem wgExpirePeer_path (n : Netdev cfg) (x : Fin cfg.maxPeers) :
    Path env.time n.view (n.setPeer x (wgExpirePeer env.now (n.peer x))).view := by
  rw [view_setPeer]
  exact expirePeer_path env.now n.view x rfl

theorem wgRunTimersPeer_path {n n' : Netdev cfg} {x : Fin cfg.maxPeers}
    (h : wgRunTimersPeer c env n x = some n') : Path env.time n.view n'.view := by
  unfold wgRunTimersPeer at h
  split at h
  · cases h; rfl
  · dsimp only at h
    refine (wgExpirePeer_path env n x).trans ?_
    generalize n.setPeer x (wgExpirePeer env.now (n.peer x)) = m at h ⊢
    have hkeep : Path env.time m.view
        (if keepaliveDue env.now (m.peer x) then (wgSendData c env m x []).1 else m).view := by
      split
      · exact wgSendData_path c env m x []
      · rfl
    refine hkeep.trans ?_
    generalize (if keepaliveDue env.now (m.peer x) then (wgSendData c env m x []).1 else m) = m'
      at h ⊢
    split at h
    · exact wgSendInitiation_path c env h
    · cases h; rfl

theorem wgRunTimers_path {n n' : Netdev cfg} (h : wgRunTimers c env n = some n') :
    Path env.time n.view n'.view :=
  foldlM_relates (R := fun a b : Netdev cfg => Path env.time a.view b.view)
    (fun _ => .refl) .trans (fun _ _ _ hs => wgRunTimersPeer_path c env hs) _ h

theorem wgTransmit_path {n n' : Netdev cfg} {packet : List Byte}
    (h : wgTransmit c env n packet = some n') : Path env.time n.view n'.view := by
  unfold wgTransmit at h
  dsimp only at h
  split at h
  · cases h; rfl
  split at h
  · cases h; rfl
  split at h
  · cases h; rfl
  · rename_i x hx
    have hsend := wgSendData_path c env { n with plainbuf := overwrite n.plainbuf packet } x
      ((overwrite n.plainbuf packet).take packet.length)
    refine Relation.ReflTransGen.trans hsend ?_
    generalize wgSendData c env { n with plainbuf := overwrite n.plainbuf packet } x
      ((overwrite n.plainbuf packet).take packet.length) = r at h
    split at h
    · have hactive : Path env.time r.1.view
          (r.1.setPeer x { r.1.peer x with active := true }).view :=
        Path.trans_eq .refl (view_setPeer_of_view_eq r.1 x rfl)
      refine hactive.trans ?_
      generalize r.1.setPeer x { r.1.peer x with active := true } = m at h
      split at h
      · exact wgSendInitiation_path c env h
      · cases h
        exact Path.trans_eq .refl (view_setPeer_of_view_eq m x rfl)
    · cases h; rfl

theorem wgPeerClearSessions_view (p : Peer cfg) :
    (wgPeerClearSessions p).view = { p.view with slots := fun _ => Keypair.zero } := by
  simp only [wgPeerClearSessions, Peer.view, keypairDestroy, Peer.setKeypair, PeerView.mk.injEq,
    true_and, and_self, and_true]
  funext s
  cases s <;> rfl

theorem wgDownFinish_path (time : Nat) (n : Netdev cfg) :
    Path time n.view (wgDownFinish n).view := by
  refine View.each_peer (fun x => (wgDownPeer (n.peer x)).view) fun x u hu => ?_
  unfold wgDownPeer
  split
  · refine Path.trans_eq (forget_path u x) ?_
    rw [hu]
    refine congrArg (u.setPeer x) ?_
    show { (wgPeerClearSessions (n.peer x)).view with
      ip := (n.peer x).connectIp, port := (n.peer x).connectPort } = _
    rw [wgPeerClearSessions_view]
    rfl
  · exact Path.trans_eq .refl ((congrArg (u.setPeer x) hu.symm).trans (View.setPeer_self u x))

theorem wgIfup_path (time : Nat) (n : Netdev cfg) : Path time n.view (wgIfup env n).1.view := by
  have hup : Path time n.view
      { n with wg := { n.wg with peers := fun x => wgIfupPeer (n.peer x) } }.view :=
    View.each_peer (fun x => (wgIfupPeer (n.peer x)).view) fun x _ hu => ifupPeer_path x hu
  unfold wgIfup
  dsimp only
  split
  · rfl
  split
  · rfl
  split
  · rfl
  split
  · rfl
  split
  · rfl
  split
  · exact hup
  · exact hup

theorem wgIfdown_path (time : Nat) (n : Netdev cfg) : Path time n.view (wgIfdown n).1.view := by
  unfold wgIfdown
  dsimp only
  split
  · rfl
  split
  · exact wgDownFinish_path time { n with bifup := false }
  split
  · rfl
  · rfl

/-! ### Configuration -/

theorem wgPeerInit_unused (d : Device cfg) (publicKey : Key) (psk : Option Key) :
    Unused (wgPeerInit c d publicKey psk) := by
  unfold wgPeerInit
  split
  · exact unused_zero
  · split <;> exact unused_zero

theorem restorePeer_unused (d : Device cfg) (saved : Peer cfg) :
    Unused (restorePeer c d saved) := by
  unfold restorePeer
  dsimp only
  generalize (if saved.presharedKey = Bytes.zero 32 then none else some saved.presharedKey) = psk
  have hinit := wgPeerInit_unused c d saved.publicKey psk
  split
  · exact unused_zero
  · split
    · exact hinit
    · exact hinit

/-- A peer that is set up again is at its configured endpoint. -/
theorem restorePeer_endpoint {d : Device cfg} {saved : Peer cfg}
    (h : (restorePeer c d saved).valid = true) :
    (restorePeer c d saved).connectIp = saved.connectIp ∧
      (restorePeer c d saved).connectPort = saved.connectPort ∧
      (restorePeer c d saved).ip = saved.connectIp ∧
      (restorePeer c d saved).port = saved.connectPort := by
  unfold restorePeer at h ⊢
  dsimp only at h ⊢
  generalize (if saved.presharedKey = Bytes.zero 32 then none else some saved.presharedKey) = psk
    at h ⊢
  split
  · rename_i hsaved
    rw [if_pos hsaved] at h
    cases h
  · rename_i hsaved
    rw [if_neg hsaved] at h
    split
    · exact ⟨rfl, rfl, rfl, rfl⟩
    · rename_i hinit
      rw [if_neg hinit] at h
      exact absurd h hinit

theorem wgDeviceInit_peers (privateKey : Key) :
    (wgDeviceInit c env privateKey).peers = fun _ => Peer.zero := by
  unfold wgDeviceInit
  dsimp only
  split <;> rfl

/-- What a private key does: nothing, remove every peer, or set every peer up again. -/
theorem setPrivateKey_cases (n : Netdev cfg) (privateKey : Key) :
    (¬(privateKey ≠ Bytes.zero 32 ∧ env.savedMalloc = true) ∧
      ∃ err, setPrivateKey c env n privateKey = (n, some err)) ∨
    ((privateKey ≠ Bytes.zero 32 ∧ env.savedMalloc = true) ∧
      ∃ d err, setPrivateKey c env n privateKey = ({ n with wg := d }, err) ∧
        (d.peers = (fun _ => Peer.zero) ∨
          ∃ d', d.peers = fun x => restorePeer c d' (n.peer x))) := by
  unfold setPrivateKey
  dsimp only
  split
  · rename_i hzero
    exact Or.inl ⟨fun h => h.1 hzero, _, rfl⟩
  rename_i hkey
  split
  · rename_i hmalloc
    exact Or.inl ⟨fun h => hmalloc h.2, _, rfl⟩
  rename_i hmalloc
  refine Or.inr ⟨⟨hkey, by simpa using hmalloc⟩, ?_⟩
  split
  · exact ⟨_, _, rfl, Or.inl (wgDeviceInit_peers c env privateKey)⟩
  · exact ⟨_, _, rfl, Or.inr ⟨_, rfl⟩⟩

/-- Either way the peers it leaves have neither sessions nor a timestamp. -/
theorem setPrivateKey_unused {n : Netdev cfg} {d : Device cfg}
    (hd : d.peers = (fun _ => Peer.zero) ∨ ∃ d', d.peers = fun x => restorePeer c d' (n.peer x))
    (x : Fin cfg.maxPeers) : Unused (d.peers x) := by
  rcases hd with hd | ⟨d', hd⟩
  · rw [hd]
    exact unused_zero
  · rw [hd]
    exact restorePeer_unused c d' (n.peer x)

theorem setPortAddr_view (n : Netdev cfg) (req : IfReq) : (setPortAddr n req).view = n.view := by
  unfold setPortAddr
  dsimp only
  split <;> split <;> rfl

/-- Going up or down forgets no timestamp. -/
theorem wgIfup_greatestTimestamp (n : Netdev cfg) (x : Fin cfg.maxPeers) :
    ((wgIfup env n).1.peer x).greatestTimestamp = (n.peer x).greatestTimestamp := by
  have hup : (wgIfupPeer (n.peer x)).greatestTimestamp = (n.peer x).greatestTimestamp := by
    unfold wgIfupPeer
    split <;> rfl
  unfold wgIfup
  dsimp only
  split
  · rfl
  split
  · rfl
  split
  · rfl
  split
  · rfl
  split
  · rfl
  split
  · exact hup
  · exact hup

theorem wgIfdown_greatestTimestamp (n : Netdev cfg) (x : Fin cfg.maxPeers) :
    ((wgIfdown n).1.peer x).greatestTimestamp = (n.peer x).greatestTimestamp := by
  have hdown : (wgDownPeer (n.peer x)).greatestTimestamp = (n.peer x).greatestTimestamp := by
    unfold wgDownPeer
    split <;> rfl
  unfold wgIfdown
  dsimp only
  split
  · rfl
  split
  · exact hdown
  split
  · rfl
  · rfl

/-- **What `SIOCSWGIF` does**: only a private key, while the interface is down, touches the
peers' records; what follows is a step like any other and forgets no timestamp. -/
theorem wgSetIf_cases (n : Netdev cfg) (req : IfReq) :
    ∃ m : Netdev cfg, (∀ time, Path time m.view (wgSetIf c env n req).1.view) ∧
      (∀ x, ((wgSetIf c env n req).1.peer x).greatestTimestamp = (m.peer x).greatestTimestamp) ∧
      ((¬(req.has wgIfHasPrivateKey = true ∧ n.bifup = false ∧ n.rxpid = 0) ∧ m.view = n.view) ∨
        (req.has wgIfHasPrivateKey = true ∧ n.bifup = false ∧ n.rxpid = 0) ∧
          m.view = (setPrivateKey c env n req.privateKey).1.view) := by
  let rest : Netdev cfg → Netdev cfg := fun m =>
    (if req.has wgIfUp then
      ((wgIfup env (setPortAddr m req)).1, Outcome.returned (wgIfup env (setPortAddr m req)).2)
    else if req.has wgIfDown then wgIfdown (setPortAddr m req)
    else (setPortAddr m req, .returned none)).1
  have hpath : ∀ m time, Path time m.view (rest m).view := by
    intro m time
    rw [← setPortAddr_view m req]
    unfold rest
    split
    · exact wgIfup_path env time _
    split
    · exact wgIfdown_path time _
    · rfl
  have hgreatest : ∀ m x, ((rest m).peer x).greatestTimestamp = (m.peer x).greatestTimestamp := by
    intro m x
    have hport : ((setPortAddr m req).peer x).greatestTimestamp = (m.peer x).greatestTimestamp :=
      congrArg (fun v : View cfg => (v.peers x).greatestTimestamp) (setPortAddr_view m req)
    rw [← hport]
    unfold rest
    split
    · exact wgIfup_greatestTimestamp env _ x
    split
    · exact wgIfdown_greatestTimestamp _ x
    · rfl
  unfold wgSetIf
  dsimp only
  split
  · rename_i hbusy
    exact ⟨n, fun _ => .refl, fun _ => rfl, Or.inl ⟨fun h => hbusy.2.2 h.2.2, rfl⟩⟩
  split
  · rename_i hbusy
    refine ⟨n, fun _ => .refl, fun _ => rfl, Or.inl ⟨fun h => ?_, rfl⟩⟩
    rcases hbusy.2 with hup | hpid
    · rw [h.2.1] at hup; cases hup
    · exact hpid h.2.2
  rename_i hdown
  by_cases hkey : req.has wgIfHasPrivateKey = true
  · have hstopped : n.bifup = false ∧ n.rxpid = 0 := by
      constructor
      · by_contra hup
        exact hdown ⟨Or.inl hkey, Or.inl (by simpa using hup)⟩
      · by_contra hpid
        exact hdown ⟨Or.inl hkey, Or.inr hpid⟩
    rw [if_pos hkey]
    generalize setPrivateKey c env n req.privateKey = r
    refine ⟨r.1, fun time => ?_, fun x => ?_, Or.inr ⟨⟨hkey, hstopped⟩, rfl⟩⟩
    · split
      · rfl
      · exact hpath r.1 time
    · split
      · rfl
      · exact hgreatest r.1 x
  · rw [if_neg hkey]
    refine ⟨n, fun time => ?_, fun x => ?_, Or.inl ⟨fun h => hkey h.1, rfl⟩⟩
    · split
      · rfl
      · exact hpath n time
    · split
      · rfl
      · exact hgreatest n x

/-- What a request edits: the configured endpoint, and the live one where no session is
using it. -/
theorem applyPeerReq_view (n : Netdev cfg) (req : PeerReq) (created : Bool)
    (allowed : List AllowedIp) (p : Peer cfg) :
    (applyPeerReq n req created allowed p).view =
      if req.has wgPeerHasEndpoint then { p.view with
        connectIp := req.sinAddr
        connectPort := ntohs req.sinPort
        ip := if created ∨ ¬p.currKeypair.valid then req.sinAddr else p.ip
        port := if created ∨ ¬p.currKeypair.valid then ntohs req.sinPort else p.port }
      else p.view := by
  have hrest : ∀ (b b' : Bool) (k : U16) (f : Fin cfg.maxAips → AllowedIp) (q : Peer cfg),
      (if b' then
        { (if b then { q with keepaliveInterval := k } else q) with allowedSourceIps := f }
      else (if b then { q with keepaliveInterval := k } else q)).view = q.view := by
    intro b b' k f q
    cases b <;> cases b' <;> rfl
  unfold applyPeerReq
  dsimp only
  rw [hrest]
  split
  · split <;> split <;> rfl
  · rfl

/-- What a request asks for can be, whichever peer it is about. -/
structure PeerReq.Accepted (n : Netdev cfg) (req : PeerReq) : Prop where
  valid : n.wg.valid = true
  nonzero : req.publicKey ≠ Bytes.zero 32
  foreign : req.publicKey ≠ n.wg.publicKey
  endpoint : req.has wgPeerHasEndpoint = true → endpointOk req = true

/-- The named peer, under the pre-shared key of the request if it has one. -/
def rekeyedPeer (req : PeerReq) (p : Peer cfg) : Peer cfg :=
  if req.has wgPeerHasPsk then { p with presharedKey := req.presharedKey } else p

/-- The peer a request creates. -/
def createdPeer (n : Netdev cfg) (req : PeerReq) : Peer cfg :=
  wgPeerInit c n.wg req.publicKey (if req.has wgPeerHasPsk then some req.presharedKey else none)

/-- **What `SIOCSWGPEER` can come to.** -/
theorem wgSetPeer_outcomes (n : Netdev cfg) (req : PeerReq) :
    (∃ err, wgSetPeer c n req = (n, some err)) ∨
    ∃ x allowed, req.Accepted n ∧
      requestedAips n (peerByPubkey n.wg req.publicKey) req = .ok allowed ∧
      ((peerByPubkey n.wg req.publicKey = some x ∧
          wgSetPeer c n req
            = (n.setPeer x (applyPeerReq n req false allowed (rekeyedPeer req (n.peer x))), none)) ∨
        (peerByPubkey n.wg req.publicKey = none ∧ peerAlloc n.wg = some x ∧
          (createdPeer c n req).valid = true ∧
          wgSetPeer c n req
            = (n.setPeer x (applyPeerReq n req true allowed (createdPeer c n req)), none)) ∨
        (peerByPubkey n.wg req.publicKey = none ∧ peerAlloc n.wg = some x ∧
          (createdPeer c n req).valid = false ∧
          wgSetPeer c n req = (n.setPeer x (createdPeer c n req), some .einval))) := by
  unfold wgSetPeer
  dsimp only
  by_cases hvalid : n.wg.valid = true
  · rw [if_neg (not_not.mpr hvalid)]
    by_cases hkey : req.publicKey = Bytes.zero 32 ∨ req.publicKey = n.wg.publicKey
    · rw [if_pos hkey]
      exact Or.inl ⟨_, rfl⟩
    rw [if_neg hkey]
    by_cases hendpoint : req.has wgPeerHasEndpoint = true ∧ ¬endpointOk req = true
    · rw [if_pos hendpoint]
      exact Or.inl ⟨_, rfl⟩
    rw [if_neg hendpoint]
    have haccepted : req.Accepted n :=
      ⟨hvalid, fun h => hkey (Or.inl h), fun h => hkey (Or.inr h),
        fun h => by_contra fun hc => hendpoint ⟨h, hc⟩⟩
    cases haips : requestedAips n (peerByPubkey n.wg req.publicKey) req with
    | error err => exact Or.inl ⟨err, rfl⟩
    | ok allowed =>
        dsimp only
        cases hself : peerByPubkey n.wg req.publicKey with
        | some x => exact Or.inr ⟨x, allowed, haccepted, rfl, Or.inl ⟨rfl, rfl⟩⟩
        | none =>
            dsimp only
            cases halloc : peerAlloc n.wg with
            | none => exact Or.inl ⟨_, rfl⟩
            | some x =>
                refine Or.inr ⟨x, allowed, haccepted, rfl, Or.inr ?_⟩
                by_cases hcreated : (createdPeer c n req).valid = true
                · exact Or.inl ⟨rfl, rfl, hcreated, if_neg (not_not.mpr hcreated)⟩
                · exact Or.inr ⟨rfl, rfl, by simpa using hcreated, if_pos hcreated⟩
  · rw [if_pos hvalid]
    exact Or.inl ⟨_, rfl⟩

/-- In terms of views: nothing is done, the peer that is named is edited, or a new one is
written over an unused record. -/
theorem wgSetPeer_cases (n : Netdev cfg) (req : PeerReq) :
    (∃ err, wgSetPeer c n req = (n, some err)) ∨
    (∃ x p allowed, peerByPubkey n.wg req.publicKey = some x ∧ p.view = (n.peer x).view ∧
      wgSetPeer c n req = (n.setPeer x (applyPeerReq n req false allowed p), none)) ∨
    ∃ x p err, peerByPubkey n.wg req.publicKey = none ∧ peerAlloc n.wg = some x ∧
      wgSetPeer c n req = (n.setPeer x p, err) ∧ Unused p ∧
      (err = none → p.valid = true ∧ (req.has wgPeerHasEndpoint = true →
        p.connectIp = req.sinAddr ∧ p.connectPort = ntohs req.sinPort ∧
          p.ip = req.sinAddr ∧ p.port = ntohs req.sinPort)) := by
  have hunused : Unused (createdPeer c n req) := wgPeerInit_unused c _ _ _
  rcases wgSetPeer_outcomes c n req with h | ⟨x, allowed, -, -, ⟨hself, h⟩ | ⟨hself, halloc, hcreated, h⟩ |
    ⟨hself, halloc, -, h⟩⟩
  · exact Or.inl h
  · refine Or.inr (Or.inl ⟨x, _, allowed, hself, ?_, h⟩)
    unfold rekeyedPeer
    split <;> rfl
  · refine Or.inr (Or.inr ⟨x, _, none, hself, halloc, h, ?_, fun _ => ⟨?_, fun hendpoint => ?_⟩⟩)
    all_goals
      have hview := applyPeerReq_view n req true allowed (createdPeer c n req)
    · constructor
      · refine (congrArg PeerView.slots hview).trans (Eq.trans ?_ hunused.1)
        split <;> rfl
      · refine (congrArg PeerView.greatestTimestamp hview).trans (Eq.trans ?_ hunused.2)
        split <;> rfl
    · refine (congrArg PeerView.valid hview).trans (Eq.trans ?_ hcreated)
      split <;> rfl
    · rw [if_pos hendpoint] at hview
      exact ⟨congrArg PeerView.connectIp hview, congrArg PeerView.connectPort hview,
        congrArg PeerView.ip hview, congrArg PeerView.port hview⟩
  · exact Or.inr (Or.inr ⟨x, _, _, hself, halloc, h, hunused, fun herr => nomatch herr⟩)

/-! ### Steps -/

/-- The time of an event, if it reads the clock. -/
def Event.time : Event cfg → Option Nat
  | .setIf env _ => some env.time
  | .ifup env => some env.time
  | .transmit env _ => some env.time
  | .datagram env .. => some env.time
  | .timers env => some env.time
  | _ => none

/-- A control command. -/
def Event.configures : Event cfg → Bool
  | .setIf .. => true
  | .setPeer .. => true
  | .delPeer .. => true
  | _ => false

/-- **Every step but a control command is a path of the session model.** -/
theorem step_path {n n' : Netdev cfg} {e : Event cfg} {time : Nat} (he : e.configures = false)
    (ht : ∀ t ∈ e.time, t = time) (h : step c n e = some n') : Path time n.view n'.view := by
  cases e with
  | setIf env req => cases he
  | setPeer req => cases he
  | delPeer publicKey => cases he
  | ifup env => cases h; exact wgIfup_path env time n
  | ifdown => cases h; exact wgIfdown_path time n
  | ifdownDone =>
      simp only [step] at h
      split at h
      · cases h
        exact wgDownFinish_path time
          { n with reaping := false, rxpid := 0, rxdone := none, psock := false }
      · cases h
  | ifdownTimeout =>
      simp only [step] at h
      split at h
      · cases h; rfl
      · cases h
  | transmit env packet =>
      cases ht _ rfl
      exact wgTransmit_path c env h
  | receive => cases h; rfl
  | datagram env data ip port =>
      cases ht _ rfl
      simp only [step] at h
      split at h
      · cases h
      split at h
      · cases h; rfl
      · exact wgProcessDatagram_path c env h
  | timers env =>
      cases ht _ rfl
      simp only [step] at h
      split at h
      · cases h
      split at h
      · cases h; rfl
      · exact wgRunTimers_path c env h
  | flushTake =>
      simp only [step] at h
      split at h
      · cases h
      · cases h
        unfold wgFlushTake
        split
        · rfl
        · split <;> rfl
  | flushSend =>
      obtain ⟨out, -, rfl⟩ := Option.map_eq_some_iff.mp h
      rfl
  | rxExit =>
      simp only [step] at h
      split at h
      · cases h; rfl
      · cases h

/-- The same of a step whatever its time. -/
theorem exists_path {n n' : Netdev cfg} {e : Event cfg} (he : e.configures = false)
    (h : step c n e = some n') : ∃ time, Path time n.view n'.view :=
  ⟨e.time.getD 0, step_path c he (fun t ht => by rw [Option.mem_def.mp ht]; rfl) h⟩

/-- Steps of the session model and of configuration. -/
abbrev Moves (time : Nat) : View cfg → View cfg → Prop :=
  Relation.ReflTransGen fun v w => Micro time v w ∨ Reconf v w

theorem Moves.of_path {time : Nat} {v w : View cfg} (h : Path time v w) : Moves time v w :=
  Relation.ReflTransGen.mono (fun _ _ => Or.inl) _ _ h

/-- What both keep, they keep together. -/
theorem Moves.invariant {time : Nat} {I : View cfg → Prop} {v w : View cfg} (h : Moves time v w)
    (hmicro : ∀ v w, Micro time v w → I v → I w) (hreconf : ∀ v w, Reconf v w → I v → I w)
    (hv : I v) : I w := by
  induction h with
  | refl => exact hv
  | tail _ hs ih =>
      rcases hs with hs | hs
      · exact hmicro _ _ hs ih
      · exact hreconf _ _ hs ih

/-- Replacing every record by an unused one. -/
theorem unused_moves {time : Nat} (n : Netdev cfg) {d : Device cfg}
    (h : ∀ x, Unused (d.peers x)) : Moves time n.view { n with wg := d }.view :=
  View.each_peer (fun x => (d.peers x).view) fun x u _ => .single (Or.inr (.reset u x _ (h x).1))

theorem setPrivateKey_moves {time : Nat} (n : Netdev cfg) (privateKey : Key) :
    Moves time n.view (setPrivateKey c env n privateKey).1.view := by
  rcases setPrivateKey_cases c env n privateKey with ⟨-, err, h⟩ | ⟨-, d, err, h, hd⟩
  · rw [h]
  · rw [h]
    exact unused_moves n (setPrivateKey_unused c hd)

theorem wgSetPeer_moves {time : Nat} (n : Netdev cfg) (req : PeerReq) :
    Moves time n.view (wgSetPeer c n req).1.view := by
  rcases wgSetPeer_cases c n req with
    ⟨err, h⟩ | ⟨x, p, allowed, -, hp, h⟩ | ⟨x, p, err, -, -, h, hunused, -⟩
  · rw [h]
  · rw [h, view_setPeer, applyPeerReq_view]
    have hslots : p.view.slots = (n.peer x).view.slots := congrArg PeerView.slots hp
    have hgreatest : p.view.greatestTimestamp = (n.peer x).view.greatestTimestamp :=
      congrArg PeerView.greatestTimestamp hp
    refine .single (Or.inr (.edit n.view x _ ?_ ?_))
    · split <;> exact hslots
    · split <;> exact hgreatest
  · rw [h, view_setPeer]
    exact .single (Or.inr (.reset n.view x _ hunused.1))

theorem wgDelPeer_moves {time : Nat} (n : Netdev cfg) (publicKey : Key) :
    Moves time n.view (wgDelPeer n publicKey).1.view := by
  unfold wgDelPeer
  split
  · rfl
  split
  · rfl
  · rename_i x hx
    rw [view_setPeer]
    exact .single (Or.inr (.reset n.view x _ unused_zero.1))

/-- **Every step of the driver.** -/
theorem step_moves {n n' : Netdev cfg} {e : Event cfg} {time : Nat}
    (ht : ∀ t ∈ e.time, t = time) (h : step c n e = some n') : Moves time n.view n'.view := by
  cases he : e.configures with
  | false => exact .of_path (step_path c he ht h)
  | true =>
      cases e with
      | setIf env req =>
          cases h
          obtain ⟨m, hpath, -, hm⟩ := wgSetIf_cases c env n req
          refine Relation.ReflTransGen.trans ?_ (Moves.of_path (hpath time))
          rcases hm with ⟨-, hm⟩ | ⟨-, hm⟩
          · rw [hm]
          · rw [hm]
            exact setPrivateKey_moves c env n req.privateKey
      | setPeer req => cases h; exact wgSetPeer_moves c n req
      | delPeer publicKey => cases h; exact wgDelPeer_moves n publicKey
      | _ => cases he

/-! ### Reachable states -/

theorem Initial.fresh {n : Netdev cfg} (h : Initial n) : n.view.Fresh := by
  obtain ⟨i, rfl⟩ := h
  refine ⟨fun x => ?_, fun x => rfl, rfl⟩
  exact unused_zero.1

theorem step_invariant {I : View cfg → Prop} {n n' : Netdev cfg} {e : Event cfg}
    (hmicro : ∀ time v w, Micro time v w → I v → I w) (hreconf : ∀ v w, Reconf v w → I v → I w)
    (h : step c n e = some n') (hn : I n.view) : I n'.view := by
  have hmoves : Moves (e.time.getD 0) n.view n'.view :=
    step_moves c (fun t ht => by rw [Option.mem_def.mp ht]; rfl) h
  exact hmoves.invariant (hmicro _) hreconf hn

/-- **What the session model and configuration keep, every reachable state of the driver
has.** -/
theorem ReachableState.view_invariant {I : View cfg → Prop} {n : Netdev cfg}
    (h : ReachableState c n) (hfresh : ∀ v, v.Fresh → I v)
    (hmicro : ∀ time v w, Micro time v w → I v → I w)
    (hreconf : ∀ v w, Reconf v w → I v → I w) : I n.view :=
  Reachable.invariant (I := fun n : Netdev cfg => I n.view) h
    (fun _ hn => hfresh _ hn.fresh)
    (fun _ _ _ hs hn => step_invariant c hmicro hreconf hs hn)

end Kernel

end NuttxWireguard
