/-
When an index names one session, on the flat port.

The port issues an index for each initiation it sends and each one it answers.  `Draws`
lists these places: the device as it is when the index is drawn, and the values the random
source is about to deliver.  So long as no such draw is shadowed, the indices of the device
stay unambiguous; one that is shadowed returns an index that is in use.
-/
import NuttxWireguard.Flat.Steps
import NuttxWireguard.Flat.Indices
import NuttxWireguard.Routing

namespace NuttxWireguard.Flat

open Lib

variable {cfg : Config} (c : Crypto) (env : Env cfg)

/-! ### Where an index is drawn -/

/-- The port before `wg_run_timers` asks whether to start a handshake with `x`. -/
def timersBeforeHandshake (n : Netdev cfg) (x : Fin cfg.maxPeers) : Netdev cfg :=
  let n := n.setPeer x (wgExpirePeer env.now (n.peer x))
  if keepaliveDue env.now (n.peer x) then wgSendKeepalive c env n x else n

/-- An initiation to `x` is built up to its index. -/
def InitiationSealed (d : Device cfg) (x : Fin cfg.maxPeers) : Prop :=
  ∃ ephemeral hs enc,
    c.generatePublicKey (Crypto.clamp (env.ephemeral x)) = some ephemeral ∧
    initiate c d (d.peers x) { (d.peers x).handshake with
      chainingKey := c.constructionHash
      hash := c.mixHash c.identifierHash (d.peers x).publicKey.toList
      ephemeralPrivate := Crypto.clamp (env.ephemeral x) } ephemeral (env.timestamp x)
      = (hs, some enc)

/-- A response to `x` is built up to its index. -/
def ResponseSealed (d : Device cfg) (x : Fin cfg.maxPeers) : Prop :=
  ((d.peers x).handshake.valid = true ∧ ¬(d.peers x).handshake.initiator = true) ∧
  ∃ ephemeral hs enc,
    c.generatePublicKey (Crypto.clamp (env.ephemeral x)) = some ephemeral ∧
    respond c (d.peers x) { (d.peers x).handshake with
      ephemeralPrivate := Crypto.clamp (env.ephemeral x) } ephemeral = (hs, some enc)

/-- In the step on an event an index is drawn, from a device and the values delivered. -/
inductive Draws (n : Netdev cfg) : Event cfg → Device cfg → List (Bytes 4) → Prop
  /-- An initiation is answered. -/
  | response {env : Env cfg} {data : List Byte} {addr : U32} {port : U16} {o : OpenedInit cfg}
      (hdata : data ≠ [])
      (hadmitted : InitiationAdmitted c env n (data.take wgMaxPacket) addr port)
      (hopen : openInit c n.wg (MsgInit.parse (data.take wgMaxPacket)) = some o)
      (hgreater : timestampReplayed (n.peer o.peer) o.timestamp = false)
      (hrate : rateLimited env.now (n.peer o.peer) = false)
      (hsealed : ResponseSealed c env (initiationAccepted env n
        (MsgInit.parse (data.take wgMaxPacket)) o addr port).wg o.peer) :
      Draws n (.rx env data addr port)
        (initiationAccepted env n (MsgInit.parse (data.take wgMaxPacket)) o addr port).wg
        (env.draws o.peer)
  /-- An initiation is sent again, with the cookie that came for it. -/
  | retry {env : Env cfg} {data : List Byte} {addr : U32} {port : U16} {x : Fin cfg.maxPeers}
      {p : Peer cfg} (hdata : data ≠ [])
      (htype : messageType (data.take wgMaxPacket) = messageCookieReply)
      (hx : peerByHandshake n.wg (MsgCookie.parse (data.take wgMaxPacket)).receiver = some x)
      (hp : processCookie c env.now (n.peer x) (MsgCookie.parse (data.take wgMaxPacket)) = some p)
      (hsealed : InitiationSealed c env (n.wg.setPeer x p) x) :
      Draws n (.rx env data addr port) (n.wg.setPeer x p) (env.draws x)
  /-- A handshake is due, after the timers have seen to the peers before. -/
  | timer {env : Env cfg} {seen rest : List (Fin cfg.maxPeers)} {x : Fin cfg.maxPeers}
      {m : Netdev cfg} (hsplit : List.finRange cfg.maxPeers = seen ++ x :: rest)
      (hm : seen.foldlM (wgRunTimersPeer c env) n = some m) (hvalid : (m.peer x).valid = true)
      (hdue : shouldInitiate env.now ((timersBeforeHandshake c env m x).peer x) = true)
      (hsealed : InitiationSealed c env (timersBeforeHandshake c env m x).wg x) :
      Draws n (.timers env) (timersBeforeHandshake c env m x).wg (env.draws x)

/-! ### Configuration -/

theorem wireguardPeerInit_blank (d : Device cfg) (publicKey : Key) (psk : Option Key) :
    (wireguardPeerInit c d publicKey psk).Blank := by
  have hset : ∀ p : Peer cfg, p.keypair = (Peer.zero : Peer cfg).keypair →
      p.handshake = Handshake.zero → p.Blank :=
    fun p hslots hhandshake => ⟨hslots.trans Peer.blank_zero.slots, hhandshake⟩
  unfold wireguardPeerInit
  dsimp only
  split
  · exact Peer.blank_zero
  · split
    · exact hset _ rfl rfl
    · exact hset _ rfl rfl

theorem configure_blank (pc : PeerConfig) {p : Peer cfg} (h : p.Blank) :
    (pc.configure p).Blank := by
  unfold PeerConfig.configure
  dsimp only
  split
  · exact ⟨h.slots, h.handshake⟩
  · exact ⟨h.slots, h.handshake⟩

theorem wgIfup_carried (n : Netdev cfg) : n.wg.Carried (wgIfup n).wg :=
  .each rfl (fun x => wgIfupPeer_carried (n.peer x)) fun _ hx =>
    if_neg fun hvalid => Bool.false_ne_true (hx.symm.trans hvalid.1)

/-- The port starts without sessions of any peer. -/
theorem Initial.blank {n : Netdev cfg} (h : Initial c n) (x : Fin cfg.maxPeers) :
    (n.peer x).Blank := by
  refine h.each c Peer.blank_zero (fun d key => wireguardPeerInit_blank c d key none)
    (fun pc _ hp => configure_blank pc hp) (fun p hp => ?_) x
  unfold wgIfupPeer
  split
  · exact ⟨hp.slots, hp.handshake⟩
  · exact hp

/-! ### Sending -/

theorem wgEncryptAndSend_carried {n : Netdev cfg} {x : Fin cfg.maxPeers}
    (hvalid : (n.peer x).valid = true) (plaintext : List Byte) :
    n.wg.Carried (wgEncryptAndSend c env n x plaintext).1.wg := by
  unfold wgEncryptAndSend
  dsimp only [encryptPacket]
  generalize sendingSlot (n.peer x).keypair = s
  split
  · exact .refl _
  split
  · exact .setPeer hvalid (keypairDestroy_carried _ s)
  split
  · exact .refl _
  · refine .setPeer hvalid ?_
    have hsend : ∀ (b : Bool) (q : Peer cfg),
        q.Carried (if b then { q with sendHandshake := true } else q) := by
      intro b q
      cases b
      · exact .refl q
      · exact .of_same rfl rfl rfl
    refine Peer.Carried.trans ?_ (hsend _ _)
    split
    · rw [Peer.setKeypair_setKeypair]
      refine (setKeypair_carried (n.peer x) (s := s) ?_ ?_).trans (.of_same rfl rfl rfl)
      · rfl
      · exact id
    · refine setKeypair_carried (n.peer x) ?_ ?_
      · rfl
      · exact id

/-- Building an initiation gives the handshake a free index or leaves it its own. -/
theorem createInitiation_carried {d d' : Device cfg} {x : Fin cfg.maxPeers} {r : Option MsgInit}
    (hvalid : (d.peers x).valid = true)
    (hclear : InitiationSealed c env d x → ¬Shadowed d (env.draws x))
    (h : wireguardCreateHandshakeInitiation c env d x = some (d', r)) : d.Carried d' := by
  have hsame : ∀ {hs : Handshake}, hs.localIndex = (d.peers x).handshake.localIndex →
      hs.valid = (d.peers x).handshake.valid → hs.initiator = (d.peers x).handshake.initiator →
      d.Carried (d.setPeer x { d.peers x with handshake := hs }) :=
    fun hi hv hr => .setPeer hvalid (setHandshake_carried hi hv hr)
  unfold wireguardCreateHandshakeInitiation at h
  dsimp only at h
  split at h
  · cases h
    exact hsame rfl rfl rfl
  · rename_i ephemeral hephemeral
    split at h
    · rename_i hs hinitiate
      cases h
      obtain ⟨hindex, hlive, hinitiator⟩ := initiate_handshake hinitiate
      exact hsame hindex hlive hinitiator
    · rename_i hs enc hinitiate
      split at h
      · cases h
      · rename_i sender hdraw
        cases h
        have hfree := generateUniqueIndex_free
          (hclear ⟨ephemeral, hs, enc, hephemeral, hinitiate⟩) hdraw
        exact .write hvalid rfl fun hd => hfree.unambiguous hd rfl

/-- So does building a response, and one that is built has an index. -/
theorem createResponse_carried {d d' : Device cfg} {x : Fin cfg.maxPeers}
    {r : Option MsgResponse} (hvalid : (d.peers x).valid = true)
    (hclear : ResponseSealed c env d x → ¬Shadowed d (env.draws x))
    (h : wireguardCreateHandshakeResponse c env d x = some (d', r)) :
    d.Carried d' ∧ (r.isSome = true → (d'.peers x).handshake.localIndex ≠ 0) := by
  have hsame : ∀ {hs : Handshake}, hs.localIndex = (d.peers x).handshake.localIndex →
      hs.valid = (d.peers x).handshake.valid → hs.initiator = (d.peers x).handshake.initiator →
      d.Carried (d.setPeer x { d.peers x with handshake := hs }) :=
    fun hi hv hr => .setPeer hvalid (setHandshake_carried hi hv hr)
  have hnone : (none : Option MsgResponse).isSome = true → (d'.peers x).handshake.localIndex ≠ 0 :=
    fun hc => absurd hc Bool.false_ne_true
  unfold wireguardCreateHandshakeResponse at h
  dsimp only at h
  split at h
  · cases h
    exact ⟨.refl d, hnone⟩
  · rename_i hawaits
    split at h
    · cases h
      exact ⟨hsame rfl rfl rfl, hnone⟩
    · rename_i ephemeral hephemeral
      split at h
      · rename_i hs hrespond
        cases h
        obtain ⟨hindex, hlive, hinitiator⟩ := respond_handshake hrespond
        exact ⟨hsame hindex hlive hinitiator, hnone⟩
      · rename_i hs enc hrespond
        split at h
        · cases h
        · rename_i sender hdraw
          cases h
          have hfree := generateUniqueIndex_free
            (hclear ⟨not_not.mp hawaits, ephemeral, hs, enc, hephemeral, hrespond⟩) hdraw
          refine ⟨.write hvalid rfl fun hd => hfree.unambiguous hd rfl, fun _ hzero => ?_⟩
          rw [Device.setPeer_peers_self] at hzero
          exact hfree.proper (Or.inl hzero)

theorem wgStartHandshake_carried {n n' : Netdev cfg} {x : Fin cfg.maxPeers}
    (hvalid : (n.peer x).valid = true)
    (hclear : InitiationSealed c env n.wg x → ¬Shadowed n.wg (env.draws x))
    (h : wgStartHandshake c env n x = some n') : n.wg.Carried n'.wg := by
  unfold wgStartHandshake at h
  split at h
  · cases h
  · rename_i wg hcreate
    cases h
    exact createInitiation_carried c env hvalid hclear hcreate
  · rename_i wg msg hcreate
    cases h
    have hbuilt := createInitiation_carried c env hvalid hclear hcreate
    refine hbuilt.trans (.setPeer ((hbuilt.valid x).trans hvalid) (.of_same rfl ?_ rfl))
    funext s
    cases s <;> rfl

/-- A session is started from a handshake that has an index. -/
theorem startSession_carried {n : Netdev cfg} {x : Fin cfg.maxPeers}
    (hvalid : (n.peer x).valid = true) (initiator : Bool)
    (hindex : n.wg.Unambiguous → (n.peer x).handshake.localIndex ≠ 0) :
    n.wg.Carried (startSession c env n x initiator).wg := by
  refine .write hvalid (addKeypair_setup _ _) fun hn => hn.setPeer ?_
  unfold wireguardStartSession
  exact (addKeypair_carried (n.peer x) c env.now n.nextSid env.time initiator (hindex hn) rfl
    rfl).indices

theorem wgSendHandshakeResponse_carried {n n' : Netdev cfg} {x : Fin cfg.maxPeers}
    (hvalid : (n.peer x).valid = true)
    (hclear : ResponseSealed c env n.wg x → ¬Shadowed n.wg (env.draws x))
    (h : wgSendHandshakeResponse c env n x = some n') : n.wg.Carried n'.wg := by
  unfold wgSendHandshakeResponse at h
  split at h
  · cases h
  · rename_i wg hcreate
    cases h
    exact (createResponse_carried c env hvalid hclear hcreate).1
  · rename_i wg msg hcreate
    cases h
    obtain ⟨hbuilt, hindex⟩ := createResponse_carried c env hvalid hclear hcreate
    have hthere := (hbuilt.valid x).trans hvalid
    exact hbuilt.trans (startSession_carried c env (n := { n with wg := wg }) hthere false
      fun _ => hindex rfl)

/-! ### Receiving -/

theorem wgInjectPlaintext_carried (n : Netdev cfg) (x : Fin cfg.maxPeers) (plaintext : List Byte) :
    n.wg.Carried (wgInjectPlaintext c env n x plaintext).wg := by
  unfold wgInjectPlaintext
  dsimp only
  split
  · exact .refl _
  split
  · exact .refl _
  split
  · exact .refl _
  split
  · split
    · rename_i y hy
      exact wgEncryptAndSend_carried c env (n := { n.observe (.injected x plaintext) with
        plainbuf := overwrite n.plainbuf (env.ipv4Input plaintext) }) (peerForDest_some hy).1 _
    · exact .refl _
  · exact .refl _

theorem wgProcessInner_carried (n : Netdev cfg) (x : Fin cfg.maxPeers) (dataLen : Nat) :
    n.wg.Carried (wgProcessInner c env n x dataLen).wg := by
  unfold wgProcessInner
  dsimp only
  split
  · split
    · split
      · exact wgInjectPlaintext_carried c env n x _
      · exact .refl _
    · exact .refl _
  · exact .refl _

theorem wgProcessDataMessage_carried {n : Netdev cfg} {x : Fin cfg.maxPeers}
    (hvalid : (n.peer x).valid = true) (data : List Byte) (addr : U32) (port : U16) :
    n.wg.Carried (wgProcessDataMessage c env n x data addr port).wg := by
  rcases wgProcessDataMessage_cases c env n x data addr port with
    ⟨b, h⟩ | ⟨s, hs, ⟨-, h⟩ | ⟨-, -, plain, -, ⟨-, h⟩ | ⟨-, h⟩⟩⟩
  · rw [h]
    exact .refl _
  · rw [h]
    exact .setPeer hvalid (keypairDestroy_carried _ s)
  · rw [h]
    exact .refl _
  · rw [h]
    generalize hm : Netdev.setPeer _ x _ = m
    have haccepted : n.wg.Carried m.wg := by
      rw [← hm]
      exact .setPeer hvalid (acceptPacket_carried (n.peer x) env.now addr port _
        (wgCheckReplay_keeps _ _).1 (wgCheckReplay_keeps _ _).2)
    exact haccepted.trans (wgProcessInner_carried c env m x _)

/-- A response is accepted for a handshake that has an index. -/
theorem responseAccepted_carried {n : Netdev cfg} {x : Fin cfg.maxPeers} {p : Peer cfg}
    {msg : MsgResponse} (hvalid : (n.peer x).valid = true)
    (hp : processResponse c n.wg (n.peer x) msg = some p) (addr : U32) (port : U16) :
    n.wg.Carried (responseAccepted c env n x p addr port).wg := by
  obtain ⟨hcarried, hlive⟩ := processResponse_carried (n.peer x) hp
  have hanswered : n.wg.Carried
      ((n.observe (.responseAccepted x)).setPeer x { p with ip := addr, port := port }).wg := by
    refine .setPeer hvalid (hcarried.trans (.of_same rfl ?_ rfl))
    funext s
    cases s <;> rfl
  have hthere := (hanswered.valid x).trans hvalid
  have hstarted := startSession_carried c env
    (n := (n.observe (.responseAccepted x)).setPeer x { p with ip := addr, port := port }) hthere
    true fun hn => ?_
  · exact (hanswered.trans hstarted).trans
      (wgEncryptAndSend_carried c env ((hstarted.valid x).trans hthere) [])
  -- the handshake that was answered is live
  refine hn.held (x, .handshake) ?_
  show (Netdev.peer _ x).indices.live .handshake
  rw [setPeer_peer_self]
  exact hlive

/-! ### Steps -/

theorem wgRunTimersPeer_unambiguous {n n' : Netdev cfg} {x : Fin cfg.maxPeers}
    (hclear : (n.peer x).valid = true →
      shouldInitiate env.now ((timersBeforeHandshake c env n x).peer x) = true →
      InitiationSealed c env (timersBeforeHandshake c env n x).wg x →
      ¬Shadowed (timersBeforeHandshake c env n x).wg (env.draws x))
    (h : wgRunTimersPeer c env n x = some n') (hn : n.wg.Unambiguous) : n'.wg.Unambiguous := by
  have hready : wgRunTimersPeer c env n x = if ¬(n.peer x).valid then some n
      else if shouldInitiate env.now ((timersBeforeHandshake c env n x).peer x) then
        wgStartHandshake c env (timersBeforeHandshake c env n x) x
      else some (timersBeforeHandshake c env n x) := rfl
  rw [hready] at h
  split at h
  · cases h
    exact hn
  · rename_i hvalid
    have hvalid := not_not.mp hvalid
    have hbefore : n.wg.Carried (timersBeforeHandshake c env n x).wg := by
      have hexpired : n.wg.Carried (n.setPeer x (wgExpirePeer env.now (n.peer x))).wg :=
        .setPeer hvalid (wgExpirePeer_carried (n.peer x) env.now)
      refine hexpired.trans ?_
      unfold timersBeforeHandshake
      dsimp only
      split
      · exact wgEncryptAndSend_carried c env ((hexpired.valid x).trans hvalid) []
      · exact .refl _
    generalize timersBeforeHandshake c env n x = m at hclear h hbefore
    split at h
    · rename_i hdue
      have hthere := (hbefore.valid x).trans hvalid
      have hstarted := wgStartHandshake_carried c env hthere (hclear hvalid hdue) h
      exact hstarted.indices (hbefore.indices hn)
    · cases h
      exact hbefore.indices hn

theorem wgRunTimers_unambiguous {n n' : Netdev cfg}
    (hclear : ∀ d draws, Draws c n (.timers env) d draws → ¬Shadowed d draws)
    (h : wgRunTimers c env n = some n') (hn : n.wg.Unambiguous) : n'.wg.Unambiguous := by
  refine foldlM_invariant_at (I := fun m : Netdev cfg => m.wg.Unambiguous)
    (List.finRange cfg.maxPeers) [] rfl h ?_ hn
  intro seen x rest m m' hsplit hm hturn
  exact wgRunTimersPeer_unambiguous c env
    (fun hvalid hdue hsealed => hclear _ _ (.timer hsplit hm hvalid hdue hsealed)) hturn

theorem unambiguous_congr {d e : Device cfg} (h : e.peers = d.peers) :
    e.Unambiguous ↔ d.Unambiguous := by
  unfold Device.Unambiguous Device.indices
  rw [h]

theorem rx_unambiguous {n n' : Netdev cfg} {data : List Byte} {addr : U32} {port : U16}
    (hdata : data ≠ [])
    (hclear : ∀ d draws, Draws c n (.rx env data addr port) d draws → ¬Shadowed d draws)
    (h : wgProcessUdpPacket c env n (data.take wgMaxPacket) addr port = some n')
    (hn : n.wg.Unambiguous) : n'.wg.Unambiguous := by
  rcases wgProcessUdpPacket_cases c env n (data.take wgMaxPacket) addr port with
    ⟨m, hq, hr⟩ | ⟨m, o, hq, hlet, hopen, hts, hrate, hr⟩ | ⟨-, -, x, p, hx, hp, hr⟩ |
      ⟨htype, x, p, hx, hp, hr⟩ | ⟨-, x, hx, hr⟩
  · cases hr.symm.trans h
    exact (unambiguous_congr hq.peers).mpr hn
  · have hvalid : (n.peer o.peer).valid = true := openInit_valid hopen
    have haccepted : ∀ k : Netdev cfg, (k.peer o.peer).valid = true → k.wg.Carried
        (initiationAccepted env k (MsgInit.parse (data.take wgMaxPacket)) o addr port).wg := by
      intro k hk
      refine .setPeer hk ((acceptInit_carried (k.peer o.peer) env.now _ o).trans
        (.of_same rfl ?_ rfl))
      funext s
      cases s <;> rfl
    -- what else was written, besides peers, decides nothing here
    have hpeers :
        (initiationAccepted env m (MsgInit.parse (data.take wgMaxPacket)) o addr port).wg.peers =
          (initiationAccepted env n (MsgInit.parse (data.take wgMaxPacket)) o addr port).wg.peers := by
      show Function.update m.wg.peers o.peer _ = Function.update n.wg.peers o.peer _
      rw [hq.peers, hq.peer]
    have hm : m.wg.Unambiguous := (unambiguous_congr hq.peers).mpr hn
    have hthere : (m.peer o.peer).valid = true := (hq.peer o.peer).symm ▸ hvalid
    refine (wgSendHandshakeResponse_carried c env (((haccepted m hthere).valid o.peer).trans hthere)
      (fun hsealed => ?_) (hr.symm.trans h)).indices ((haccepted m hthere).indices hm)
    rw [shadowed_congr hpeers]
    refine hclear _ _ (.response hdata hlet hopen hts hrate ?_)
    unfold ResponseSealed at hsealed ⊢
    rwa [hpeers] at hsealed
  · cases hr.symm.trans h
    exact (responseAccepted_carried c env (valid_of_peerByHandshake hx) hp addr port).indices hn
  · have hvalid : (n.peer x).valid = true := valid_of_peerByHandshake hx
    have hcookie : n.wg.Carried (n.wg.setPeer x p) :=
      .setPeer hvalid (processCookie_carried (n.peer x) hp)
    exact (wgStartHandshake_carried c env (n := (n.observe (.cookieAccepted x)).setPeer x p)
      ((hcookie.valid x).trans hvalid)
      (fun hsealed => hclear _ _ (.retry hdata htype hx hp hsealed)) (hr.symm.trans h)).indices
      (hcookie.indices hn)
  · cases hr.symm.trans h
    exact (wgProcessDataMessage_carried c env (peerByReceiver_valid hx) _ addr port).indices hn

theorem wgIfdownPeer_carried (p : Peer cfg) : p.Carried (wgIfdownPeer p) := by
  unfold wgIfdownPeer
  split
  · exact .refl p
  · have hdestroy := ((keypairDestroy_carried p .curr).trans (keypairDestroy_carried _ .prev)).trans
      (keypairDestroy_carried _ .next)
    refine hdestroy.trans (.of_slots some rfl
      (fun _ _ _ hs ht => Option.some.inj (hs.trans ht.symm)) (fun s => Or.inr ⟨s, rfl, ?_⟩)
      (Or.inr rfl))
    cases s <;> rfl

/-- **A step whose draws are not shadowed keeps the indices unambiguous.** -/
theorem step_unambiguous {n n' : Netdev cfg} {e : Event cfg}
    (hclear : ∀ d draws, Draws c n e d draws → ¬Shadowed d draws) (h : step c n e = some n')
    (hn : n.wg.Unambiguous) : n'.wg.Unambiguous := by
  cases e with
  | rx env data addr port =>
      simp only [step] at h
      split at h
      · cases h
        exact hn
      · rename_i hdata
        exact rx_unambiguous c env hdata hclear h hn
  | timers env => exact wgRunTimers_unambiguous c env hclear h hn
  | txpoll env packet =>
      cases h
      split
      · unfold wgTxpoll
        dsimp only
        split
        · split
          · rename_i x hx
            exact (wgEncryptAndSend_carried c env
              (n := { n with plainbuf := overwrite n.plainbuf packet })
              (peerForDest_some hx).1 _).indices hn
          · exact hn
        · exact hn
      · exact hn
  | ifup =>
      cases h
      exact (wgIfup_carried n).indices hn
  | ifdown =>
      cases h
      exact hn.each fun x => wgIfdownPeer_carried (n.peer x)

/-! ### Runs -/

/-- No index is drawn in the run that shadows another. -/
def Clear (ts : List (Taken (Netdev cfg) (Event cfg))) : Prop :=
  ∀ k ∈ ts, ∀ d draws, Draws c k.before k.event d draws → ¬Shadowed d draws

/-- Every index drawn in the run was free. -/
def DrawsFree (ts : List (Taken (Netdev cfg) (Event cfg))) : Prop :=
  ∀ k ∈ ts, ∀ d draws index, Draws c k.before k.event d draws →
    wireguardGenerateUniqueIndex d draws = some index → ¬InUse d index

theorem clear_iff_drawsFree {ts : List (Taken (Netdev cfg) (Event cfg))} :
    Clear c ts ↔ DrawsFree c ts := by
  refine forall₂_congr fun k _ => forall₂_congr fun d draws => ?_
  rw [shadowed_iff]
  constructor
  · intro h index hdraw hindex huse
    exact h hdraw ⟨index, hindex, huse⟩
  · rintro h hdraw ⟨index, hindex, huse⟩
    exact h index hdraw hindex huse

/-- With one peer every run is clear. -/
theorem clear_of_one (hone : cfg.maxPeers = 1) (ts : List (Taken (Netdev cfg) (Event cfg))) :
    Clear c ts :=
  fun _ _ _ _ _ => not_shadowed_of_one hone

/-- **Received indices are told apart in a run without shadowed draws**, and those draws are
exactly the ones that return an index in use. -/
theorem demultiplexes_of_clear {n₀ n : Netdev cfg} {ts : List (Taken (Netdev cfg) (Event cfg))}
    (hinit : Initial c n₀) (hrun : Run (step c) n₀ ts n) :
    (Clear c ts ↔ DrawsFree c ts) ∧
    (Clear c ts → Demultiplexes n.wg ∧
      ∀ k ∈ ts, Demultiplexes k.before.wg ∧ Demultiplexes k.after.wg) := by
  refine ⟨clear_iff_drawsFree c, fun hclear => ?_⟩
  obtain ⟨hn, hall⟩ := hrun.invariant (I := fun n : Netdev cfg => n.wg.Unambiguous)
    (.of_blank hinit.blank) fun k hk => step_unambiguous c (hclear k hk)
  exact ⟨.of_unambiguous hn,
    fun k hk => ⟨.of_unambiguous (hall k hk).1, .of_unambiguous (hall k hk).2⟩⟩

/-- The indices of a port without any are told apart after the first datagram. -/
theorem Draws.not_shadowed_of_blank {n : Netdev cfg} {data : List Byte} {addr : U32} {port : U16}
    {d : Device cfg} {draws : List (Bytes 4)} (hdraw : Draws c n (.rx env data addr port) d draws)
    (hn : ∀ x, (n.peer x).Blank) : ¬Shadowed d draws := by
  cases hdraw with
  | response hdata hadmitted hopen hgreater hrate hsealed =>
      rename_i o
      refine not_shadowed_of_zero ?_
      rintro ⟨x, a⟩
      show ((initiationAccepted env n _ o addr port).peer x).indices.token a = 0
      unfold initiationAccepted
      by_cases hx : x = o.peer
      · rw [hx, setPeer_peer_self]
        cases a with
        | keypair s =>
            have hslot := congrArg Keypair.localIndex (congrFun (hn o.peer).slots s)
            cases s <;> exact hslot
        | handshake => exact congrArg Handshake.localIndex (hn o.peer).handshake
      · rw [setPeer_peer_of_ne _ _ _ hx]
        cases a with
        | keypair s => exact congrArg Keypair.localIndex (congrFun (hn x).slots s)
        | handshake => exact congrArg Handshake.localIndex (hn x).handshake
  | retry hdata htype hx hp hsealed =>
      rename_i x p
      have hlive := List.find?_some hx
      simp only [Bool.and_eq_true] at hlive
      have hvalid : (n.peer x).handshake.valid = true := hlive.1.1.2
      rw [(hn x).handshake] at hvalid
      exact absurd hvalid Bool.false_ne_true

/-- One datagram is read, and a session waits under its index. -/
theorem demultiplexes_of_clear_sample : ∃ n₀ n : Netdev Sample.config,
    Run (step Crypto.plain) n₀ [⟨n₀, Sample.rxInitiation 1001, n⟩] n ∧
      Clear Crypto.plain [⟨n₀, Sample.rxInitiation 1001, n⟩] ∧
      Answers n.wg Sample.first .next 1 ∧ Demultiplexes n.wg := by
  have hrun : (Sample.initial.bind fun n₀ => (step Crypto.plain n₀ (Sample.rxInitiation 1001)).map
      fun n => (n₀, n)).any (fun r => (r.2.peer Sample.first).valid &&
        (r.2.peer Sample.first).nextKeypair.valid &&
        decide ((r.2.peer Sample.first).nextKeypair.localIndex = 1)) = true := by
    decide +kernel
  obtain ⟨⟨n₀, n⟩, hsteps, hp⟩ := (Option.any_eq_true _ _).mp hrun
  simp only [Bool.and_eq_true, decide_eq_true_eq] at hp
  obtain ⟨n₁, hinitial, hstep⟩ := Option.bind_eq_some_iff.mp hsteps
  obtain ⟨n₂, hstep, heq⟩ := Option.map_eq_some_iff.mp hstep
  cases heq
  have hinit : Initial Crypto.plain n₀ := ⟨_, _, _, _, hinitial⟩
  have hone : Run (step Crypto.plain) n₀ [⟨n₀, Sample.rxInitiation 1001, n⟩] n := .snoc .nil hstep
  have hclear : Clear Crypto.plain [⟨n₀, Sample.rxInitiation 1001, n⟩] := by
    intro k hk d draws hdraw
    rw [List.mem_singleton.mp hk] at hdraw
    exact hdraw.not_shadowed_of_blank Crypto.plain _ hinit.blank
  exact ⟨n₀, n, hone, hclear, ⟨hp.1.1, hp.1.2, hp.2⟩,
    ((demultiplexes_of_clear Crypto.plain hinit hone).2 hclear).1⟩

namespace Sample

open NuttxWireguard.Sample

/-- The second peer's initiation, from `8.8.8.8`. -/
def rxInitiationSecond (time : Nat) : Event config :=
  .rx (Flat.Sample.env time) { initiation with
    encStatic := Crypto.plain.encryptField (key 4 0) (Bytes.zero 32) (Bytes.zero 32) }.bytes
    (address 8 8 8 8) 4321

end Sample

/-- Both peers' initiations are answered with one index, and the lookup finds the first. -/
theorem not_demultiplexes_colliding : ∃ n : Netdev Sample.config,
    ReachableState Crypto.plain n ∧ Answers n.wg Sample.first .next 1 ∧
      Answers n.wg Sample.second .next 1 ∧ peerByReceiver n.wg 1 = some Sample.first ∧
      ¬Demultiplexes n.wg := by
  obtain ⟨n, hn, hp⟩ := Sample.exists_reachable
    [Sample.rxInitiation 1001, Sample.rxInitiationSecond 1002]
    (fun n =>
      (n.peer Sample.first).valid && (n.peer Sample.first).nextKeypair.valid &&
      decide ((n.peer Sample.first).nextKeypair.localIndex = 1) &&
      (n.peer Sample.second).valid && (n.peer Sample.second).nextKeypair.valid &&
      decide ((n.peer Sample.second).nextKeypair.localIndex = 1) &&
      decide (peerByReceiver n.wg 1 = some Sample.first))
    (by decide +kernel)
  simp only [Bool.and_eq_true, decide_eq_true_eq] at hp
  obtain ⟨⟨⟨⟨⟨⟨hv, hk⟩, hi⟩, hv'⟩, hk'⟩, hi'⟩, hfound⟩ := hp
  refine ⟨n, hn, ⟨hv, hk, hi⟩, ⟨hv', hk', hi'⟩, hfound, fun hd => ?_⟩
  have hsecond := ((hd.keypair 1 Sample.second .next).mp ⟨hv', hk', hi'⟩).1
  rw [hfound] at hsecond
  exact absurd (Option.some.inj hsecond) (by decide)

end NuttxWireguard.Flat
