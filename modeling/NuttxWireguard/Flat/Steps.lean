/-
The flat port takes only the steps of the session model.

One lemma for each function: the view of the device it leaves is reached by `Micro`
steps from the view it found.  `step_path` puts them together, and every invariant of
`Micro` is then an invariant of the port.
-/
import NuttxWireguard.Flat.System

namespace NuttxWireguard

open Lib

variable {cfg : Config}

namespace Flat

variable (c : Crypto) (env : Env cfg)

/-- The view of the port. -/
def Netdev.view (n : Netdev cfg) : View cfg where
  peers := fun x => (n.peer x).view
  nextSid := n.nextSid
  log := n.log

section Frame

variable (n : Netdev cfg) (x : Fin cfg.maxPeers)

@[simp] theorem view_peers : n.view.peers x = (n.peer x).view := rfl

@[simp] theorem setPeer_peer_self (p : Peer cfg) : (n.setPeer x p).peer x = p :=
  Device.setPeer_peers_self _ _ _

theorem setPeer_peer_of_ne {y : Fin cfg.maxPeers} (p : Peer cfg) (h : y ≠ x) :
    (n.setPeer x p).peer y = n.peer y :=
  Device.setPeer_peers_of_ne _ _ h

@[simp] theorem setPeer_self : n.setPeer x (n.peer x) = n := by
  show { n with wg := n.wg.setPeer x (n.wg.peers x) } = n
  rw [Device.setPeer_self]

@[simp] theorem view_setPeer (p : Peer cfg) :
    (n.setPeer x p).view = n.view.setPeer x p.view := by
  simp only [Netdev.view, View.setPeer, View.mk.injEq]
  refine ⟨?_, rfl, rfl⟩
  funext y
  by_cases h : y = x
  · subst h; simp
  · simp [h, setPeer_peer_of_ne]

@[simp] theorem view_observe (o : Obs cfg.maxPeers) :
    (n.observe o).view = n.view.observe o := rfl

@[simp] theorem observe_peer (o : Obs cfg.maxPeers) : (n.observe o).peer x = n.peer x := rfl

@[simp] theorem view_plainbuf (b : List Byte) : { n with plainbuf := b }.view = n.view := rfl

@[simp] theorem psockSendto_view (data : List Byte) (ip : U32) (port : U16) :
    (psockSendto env n data ip port).1.view = n.view := rfl

@[simp] theorem psockSendto_peer (data : List Byte) (ip : U32) (port : U16) :
    (psockSendto env n data ip port).1.peer x = n.peer x := rfl

/-- A peer changed outside its view leaves the view. -/
theorem view_setPeer_of_view_eq {p : Peer cfg} (h : p.view = (n.peer x).view) :
    (n.setPeer x p).view = n.view := by
  rw [view_setPeer, h]
  exact View.setPeer_self n.view x

end Frame

/-! ### Sending -/

/-- What `wg_encrypt_and_send` can do: nothing, destroy an exhausted keypair, or encrypt
one packet under a usable one and hand it to the socket. -/
theorem wgEncryptAndSend_cases (n : Netdev cfg) (x : Fin cfg.maxPeers) (plaintext : List Byte) :
    let s := sendingSlot (n.peer x).keypair
    let kp := (n.peer x).keypair s
    wgEncryptAndSend c env n x plaintext = (n, false) ∨
    (sendingUsable kp = true ∧ sendingExhausted env.now kp = true ∧
      wgEncryptAndSend c env n x plaintext
        = (n.setPeer x (keypairDestroy (n.peer x) s), false)) ∨
    (sendingUsable kp = true ∧ sendingExhausted env.now kp = false ∧
      ∃ p lastTx, p.view = { (n.peer x).view with
          slots := (n.peer x).keypair.put s
            { kp with sendingCounter := kp.sendingCounter + 1, lastTx := lastTx } } ∧
        wgEncryptAndSend c env n x plaintext =
          (((psockSendto env
              (n.observe (.encrypted x kp.sid kp.initiator kp.sendingKey kp.sendingCounter env.time))
              (dataHeader kp.remoteIndex kp.sendingCounter ++
                c.aeadEncrypt (padPayload plaintext) [] kp.sendingCounter kp.sendingKey)
              (n.peer x).ip (n.peer x).port).1.setPeer x p), env.sendto n.sent.length)) := by
  intro s kp
  unfold wgEncryptAndSend
  dsimp only
  by_cases husable : sendingUsable kp = true
  · rw [if_neg (by simpa using husable)]
    by_cases hlimit : sendingExhausted env.now kp = true
    · rw [if_pos hlimit]
      exact Or.inr (Or.inl ⟨husable, hlimit, rfl⟩)
    · rw [if_neg hlimit]
      split
      · exact Or.inl rfl
      · refine Or.inr (Or.inr ⟨husable, by simpa using hlimit, _,
          if env.sendto n.sent.length then env.now else kp.lastTx, ?_, rfl⟩)
        have hview : ∀ (b : Bool) (p : Peer cfg),
            (if b then { p with sendHandshake := true } else p).view = p.view := by
          intro b p
          cases b <;> rfl
        rw [hview]
        cases hok : env.sendto n.sent.length with
        | true =>
            simp only [psockSendto, Netdev.observe, hok, if_true, Peer.setKeypair_setKeypair]
            exact setKeypair_view (n.peer x) s { kp with
              sendingCounter := kp.sendingCounter + 1, lastTx := env.now }
        | false =>
            simp only [psockSendto, Netdev.observe, hok, Bool.false_eq_true, if_false]
            exact setKeypair_view (n.peer x) s { kp with
              sendingCounter := kp.sendingCounter + 1, lastTx := kp.lastTx }
  · rw [if_pos (by simpa using husable)]
    exact Or.inl rfl

theorem wgEncryptAndSend_path (n : Netdev cfg) (x : Fin cfg.maxPeers) (plaintext : List Byte) :
    Path env.time n.view (wgEncryptAndSend c env n x plaintext).1.view := by
  rcases wgEncryptAndSend_cases c env n x plaintext with h | ⟨-, -, h⟩ | ⟨hu, hl, p, tx, hp, h⟩
  · rw [h]
  · rw [h, view_setPeer, keypairDestroy_view]
    exact .single (.drop _ _ _)
  · rw [h, view_setPeer, hp]
    exact .single (.encrypt n.view x _ tx rfl hu hl)

/-- Building an initiation writes the handshake record only. -/
theorem createInitiation_device {d d' : Device cfg} {x : Fin cfg.maxPeers} {r : Option MsgInit}
    (h : wireguardCreateHandshakeInitiation c env d x = some (d', r)) :
    ∃ hs, d' = d.setPeer x { d.peers x with handshake := hs } := by
  unfold wireguardCreateHandshakeInitiation at h
  dsimp only at h
  split at h
  · cases h; exact ⟨_, rfl⟩
  · split at h
    · cases h; exact ⟨_, rfl⟩
    · split at h
      · cases h
      · cases h; exact ⟨_, rfl⟩

/-- So does building a response. -/
theorem createResponse_device {d d' : Device cfg} {x : Fin cfg.maxPeers}
    {r : Option MsgResponse} (h : wireguardCreateHandshakeResponse c env d x = some (d', r)) :
    ∃ hs, d' = d.setPeer x { d.peers x with handshake := hs } := by
  unfold wireguardCreateHandshakeResponse at h
  dsimp only at h
  split at h
  · cases h
    exact ⟨(d.peers x).handshake, (Device.setPeer_self d x).symm⟩
  · split at h
    · cases h; exact ⟨_, rfl⟩
    · split at h
      · cases h; exact ⟨_, rfl⟩
      · split at h
        · cases h
        · cases h; exact ⟨_, rfl⟩

/-- A device changed in one handshake record looks the same. -/
theorem view_handshake (n : Netdev cfg) (x : Fin cfg.maxPeers) (hs : Handshake) :
    { n with wg := n.wg.setPeer x { n.wg.peers x with handshake := hs } }.view = n.view :=
  view_setPeer_of_view_eq n x rfl

/-- Starting a handshake leaves the peers alone and sends at most one initiation. -/
theorem wgStartHandshake_view {n n' : Netdev cfg} {x : Fin cfg.maxPeers}
    (h : wgStartHandshake c env n x = some n') :
    n'.view = n.view ∨
      n'.view = n.view.observe (.initiation x (n.peer x).ip (n.peer x).port env.time) := by
  unfold wgStartHandshake at h
  split at h
  · cases h
  · rename_i wg hcreate
    obtain ⟨hs, rfl⟩ := createInitiation_device c env hcreate
    cases h
    exact Or.inl (view_handshake n x hs)
  · rename_i wg msg hcreate
    obtain ⟨hs, rfl⟩ := createInitiation_device c env hcreate
    cases h
    have hv := view_handshake n x hs
    have hp : ∀ m : Netdev cfg, m.view = n.view →
        (m.peer x).ip = (n.peer x).ip ∧ (m.peer x).port = (n.peer x).port := by
      intro m hm
      have hx : (m.peer x).view = (n.peer x).view := congrFun (congrArg View.peers hm) x
      exact ⟨congrArg PeerView.ip hx, congrArg PeerView.port hx⟩
    generalize { n with wg := n.wg.setPeer x { n.wg.peers x with handshake := hs } } = m at hv ⊢
    rw [← hv, ← (hp m hv).1, ← (hp m hv).2]
    exact Or.inr (view_setPeer_of_view_eq _ x rfl)

theorem wgStartHandshake_path {n n' : Netdev cfg} {x : Fin cfg.maxPeers}
    (h : wgStartHandshake c env n x = some n') : Path env.time n.view n'.view := by
  rcases wgStartHandshake_view c env h with hv | hv
  · rw [hv]
  · rw [hv]
    exact .single (.initiation n.view x)

theorem startSession_path (n : Netdev cfg) (x : Fin cfg.maxPeers) (initiator : Bool) :
    Path env.time n.view (startSession c env n x initiator).view := by
  have hnew : NewSession n.nextSid env.time
      (sessionKeypair c env.now n.nextSid env.time (n.peer x).handshake initiator : Keypair cfg) :=
    sessionKeypair_new c n.nextSid env.time (n.peer x).handshake initiator
  have hstep := Micro.start n.view x _ hnew
  have hview : (wireguardStartSession c env.now n.nextSid env.time (n.peer x) initiator).view
      = { (n.peer x).view with
          slots :=
            if initiator then (n.peer x).keypair.installCurr Keypair.zero full
              (sessionKeypair c env.now n.nextSid env.time (n.peer x).handshake initiator)
            else (n.peer x).keypair.installNext Keypair.zero
              (sessionKeypair c env.now n.nextSid env.time (n.peer x).handshake initiator) } :=
    addKeypair_view _ _
  refine Path.trans_eq (.single hstep) ?_
  show { (((n.setPeer x _).observe _).view) with nextSid := n.nextSid + 1 } = _
  rw [view_observe, view_setPeer, hview]
  rfl

theorem wgSendHandshakeResponse_path {n n' : Netdev cfg} {x : Fin cfg.maxPeers}
    (h : wgSendHandshakeResponse c env n x = some n') : Path env.time n.view n'.view := by
  unfold wgSendHandshakeResponse at h
  split at h
  · cases h
  · rename_i wg hcreate
    obtain ⟨hs, rfl⟩ := createResponse_device c env hcreate
    cases h
    rw [view_handshake]
  · rename_i wg msg hcreate
    obtain ⟨hs, rfl⟩ := createResponse_device c env hcreate
    cases h
    rw [← view_handshake n x hs]
    exact startSession_path c env _ x false

/-! ### Receiving -/

/-- What `wg_inject_plaintext` can do: nothing, hand the packet over, or hand it over and
send the stack's reply. -/
theorem wgInjectPlaintext_cases (n : Netdev cfg) (x : Fin cfg.maxPeers) (plaintext : List Byte) :
    wgInjectPlaintext c env n x plaintext = n ∨
    ∃ b, wgInjectPlaintext c env n x plaintext
        = { n.observe (.injected x plaintext) with plainbuf := b } ∨
      ∃ y reply, wgInjectPlaintext c env n x plaintext
        = (wgEncryptAndSend c env { n.observe (.injected x plaintext) with plainbuf := b } y
            reply).1 := by
  unfold wgInjectPlaintext
  dsimp only
  split
  · exact Or.inl rfl
  split
  · exact Or.inl rfl
  split
  · exact Or.inl rfl
  split
  · split
    · exact Or.inr ⟨_, Or.inr ⟨_, _, rfl⟩⟩
    · exact Or.inr ⟨_, Or.inl rfl⟩
  · exact Or.inr ⟨n.plainbuf, Or.inl rfl⟩

theorem wgInjectPlaintext_path (n : Netdev cfg) (x : Fin cfg.maxPeers) (plaintext : List Byte) :
    Path env.time n.view (wgInjectPlaintext c env n x plaintext).view := by
  have hinject : ∀ b, Path env.time n.view
      { n.observe (.injected x plaintext) with plainbuf := b }.view :=
    fun b => .single (.inject n.view x plaintext)
  rcases wgInjectPlaintext_cases c env n x plaintext with h | ⟨b, h | ⟨y, reply, h⟩⟩
  · rw [h]
  · rw [h]
    exact hinject b
  · rw [h]
    exact (hinject b).trans (wgEncryptAndSend_path c env _ y reply)

theorem wgProcessInner_path (n : Netdev cfg) (x : Fin cfg.maxPeers) (dataLen : Nat) :
    Path env.time n.view (wgProcessInner c env n x dataLen).view := by
  unfold wgProcessInner
  dsimp only
  split
  · split
    · split
      · exact wgInjectPlaintext_path c env n x _
      · exact .refl
    · exact .refl
  · exact .refl

/-- What `wg_process_data_message` can do. -/
theorem wgProcessDataMessage_cases (n : Netdev cfg) (x : Fin cfg.maxPeers) (data : List Byte)
    (addr : U32) (port : U16) :
    let p := n.peer x
    let counter := dataCounter data
    let r := wgProcessDataMessage c env n x data addr port
    -- no keypair, or a datagram that does not authenticate
    (∃ b, r = { n with plainbuf := b }) ∨
    ∃ s, keypairByIndex p (dataReceiver data) = some s ∧
      -- the keypair is past its limits
      ((receivingExhausted env.now (p.keypair s) = true ∧ r = n.setPeer x (keypairDestroy p s)) ∨
      (receivingExhausted env.now (p.keypair s) = false ∧
        data.length - msgDataLen ≤ wgMaxPacket + authtagLen ∧
        ∃ plain, decryptPacket c (p.keypair s) (data.drop 16) counter = some plain ∧
          let m : Netdev cfg := { n with plainbuf := overwrite (List.replicate wgMaxPacket 0) plain }
          -- the replay window refuses the counter
          ((Kernel.wgCheckReplay (p.keypair s) counter).1 = false ∧
            r = m.observe (.opened x (p.keypair s).sid counter false env.time)) ∨
          -- the datagram is accepted
          ((Kernel.wgCheckReplay (p.keypair s) counter).1 = true ∧
            r = wgProcessInner c env
              ((m.observe (.opened x (p.keypair s).sid counter true env.time)).setPeer x
                (acceptPacket env.now p s (Kernel.wgCheckReplay (p.keypair s) counter).2 addr port
                  (data.length - 16)))
              x (data.length - 16)))) := by
  intro p counter r
  simp only [r]
  unfold wgProcessDataMessage
  dsimp only
  cases hs : keypairByIndex p (dataReceiver data) with
  | none => exact Or.inl ⟨n.plainbuf, rfl⟩
  | some s =>
      dsimp only
      by_cases hlimit : receivingExhausted env.now (p.keypair s) = true
      · exact Or.inr ⟨s, rfl, Or.inl ⟨hlimit, if_pos hlimit⟩⟩
      rw [if_neg hlimit]
      by_cases hlen : data.length - 16 < authtagLen ∨ data.length - 16 - authtagLen > wgMaxPacket
      · exact Or.inl ⟨n.plainbuf, if_pos hlen⟩
      rw [if_neg hlen]
      have hlimit' : receivingExhausted env.now (p.keypair s) = false := by simpa using hlimit
      cases hplain : decryptPacket c (p.keypair s) (data.drop 16) counter with
      | none => exact Or.inl ⟨_, rfl⟩
      | some plain =>
          dsimp only
          have hfits : data.length - msgDataLen ≤ wgMaxPacket + authtagLen := by
            unfold msgDataLen
            omega
          refine Or.inr ⟨s, rfl, Or.inr ⟨hlimit', hfits, plain, hplain, ?_⟩⟩
          rw [wireguardCheckReplay_eq]
          cases hfresh : (Kernel.wgCheckReplay (p.keypair s) counter).1 with
          | false =>
              rw [if_pos (by simp)]
              refine Or.inl ⟨rfl, ?_⟩
              rw [wgCheckReplay_refused hfresh, Peer.setKeypair_self]
              exact setPeer_self _ x
          | true =>
              rw [if_neg (by simp)]
              exact Or.inr ⟨rfl, rfl⟩

/-- An accepted datagram is seen. -/
theorem wgProcessDataMessage_accepted {n : Netdev cfg} {x : Fin cfg.maxPeers} {data : List Byte}
    (addr : U32) (port : U16) {s : Slot} {plain : List Byte}
    (hs : keypairByIndex (n.peer x) (dataReceiver data) = some s)
    (hlimit : receivingExhausted env.now ((n.peer x).keypair s) = false)
    (hfits : data.length - msgDataLen ≤ wgMaxPacket + authtagLen)
    (hplain : decryptPacket c ((n.peer x).keypair s) (data.drop 16) (dataCounter data) = some plain)
    (hfresh : (Kernel.wgCheckReplay ((n.peer x).keypair s) (dataCounter data)).1 = true) :
    wgProcessDataMessage c env n x data addr port = wgProcessInner c env
      ((({ n with plainbuf := overwrite (List.replicate wgMaxPacket 0) plain } : Netdev cfg).observe
        (.opened x ((n.peer x).keypair s).sid (dataCounter data) true env.time)).setPeer x
          (acceptPacket env.now (n.peer x) s
            (Kernel.wgCheckReplay ((n.peer x).keypair s) (dataCounter data)).2 addr port
            (data.length - 16))) x (data.length - 16) := by
  have hlen := c.aeadDecrypt_length _ _ _ _ _ hplain
  rw [List.length_drop] at hlen
  have hok : ¬(data.length - 16 < authtagLen ∨ data.length - 16 - authtagLen > wgMaxPacket) := by
    unfold msgDataLen at hfits
    omega
  unfold wgProcessDataMessage
  dsimp only
  rw [hs]
  dsimp only
  rw [if_neg (by rw [hlimit]; decide), if_neg hok, hplain]
  dsimp only
  rw [wireguardCheckReplay_eq, hfresh, if_neg (by simp)]

theorem wgProcessDataMessage_path (n : Netdev cfg) (x : Fin cfg.maxPeers) (data : List Byte)
    (addr : U32) (port : U16) :
    Path env.time n.view (wgProcessDataMessage c env n x data addr port).view := by
  rcases wgProcessDataMessage_cases c env n x data addr port with
    ⟨b, h⟩ | ⟨s, hs, ⟨-, h⟩ | ⟨hlimit, -, plain, -, ⟨hstale, h⟩ | ⟨hfresh, h⟩⟩⟩
  · rw [h]; rfl
  · rw [h, view_setPeer, keypairDestroy_view]
    exact .single (.drop n.view x s)
  · rw [h]
    exact .single (.refuse n.view x s _ _ rfl (keypairByIndex_some hs).1 hstale)
  · rw [h]
    refine Relation.ReflTransGen.trans ?_ (wgProcessInner_path c env _ x _)
    refine Path.trans_eq (.single (.accept n.view x s _ _ addr port rfl (keypairByIndex_some hs).1
      hlimit hfresh)) ?_
    rw [view_setPeer, acceptPacket_view]
    rfl

/-! ### Messages -/

/-- Nothing that matters for sessions differs. -/
structure Quiet (n m : Netdev cfg) : Prop where
  peers : m.wg.peers = n.wg.peers
  publicKey : m.wg.publicKey = n.wg.publicKey
  privateKey : m.wg.privateKey = n.wg.privateKey
  nextSid : m.nextSid = n.nextSid
  log : m.log = n.log

theorem Quiet.refl (n : Netdev cfg) : Quiet n n := ⟨rfl, rfl, rfl, rfl, rfl⟩

theorem Quiet.peer {n m : Netdev cfg} (h : Quiet n m) (x : Fin cfg.maxPeers) :
    m.peer x = n.peer x := congrFun h.peers x

theorem Quiet.view {n m : Netdev cfg} (h : Quiet n m) : m.view = n.view := by
  simp only [Netdev.view, View.mk.injEq]
  exact ⟨funext fun x => by rw [h.peer x], h.nextSid, h.log⟩

theorem Quiet.openInit {n m : Netdev cfg} (h : Quiet n m) (msg : MsgInit) :
    openInit c m.wg msg = openInit c n.wg msg := by
  unfold NuttxWireguard.openInit peerByPubkey
  rw [h.peers, h.publicKey, h.privateKey]

/-- Nor do the keys the device checks and seals MACs and cookies with. -/
structure Silent (n m : Netdev cfg) : Prop extends Quiet n m where
  labelMac1Key : m.wg.labelMac1Key = n.wg.labelMac1Key
  labelCookieKey : m.wg.labelCookieKey = n.wg.labelCookieKey

theorem Silent.refl (n : Netdev cfg) : Silent n n := ⟨.refl n, rfl, rfl⟩

theorem wgUnderLoad_silent (n : Netdev cfg) : Silent n (wgUnderLoad env n).1 := by
  unfold wgUnderLoad
  dsimp only
  split <;> exact ⟨⟨rfl, rfl, rfl, rfl, rfl⟩, rfl, rfl⟩

theorem wgUnderLoad_wg (n : Netdev cfg) : (wgUnderLoad env n).1.wg = n.wg := by
  unfold wgUnderLoad
  dsimp only
  split <;> rfl

/-- The cookie secret is no session state. -/
theorem Silent.peerCookie {n m : Netdev cfg} (h : Silent n m) (now : U32) (secret : Key)
    (source : List Byte) :
    Silent n { m with wg := (NuttxWireguard.peerCookie c now secret m.wg source).1 } := by
  unfold NuttxWireguard.peerCookie
  dsimp only
  split <;> exact ⟨⟨h.peers, h.publicKey, h.privateKey, h.nextSid, h.log⟩, h.labelMac1Key,
    h.labelCookieKey⟩

theorem Silent.cookieReply {n m : Netdev cfg} (h : Silent n m) (mac1 : Bytes 16)
    (sender addr : U32) (port : U16) :
    Silent n (wgSendCookieReply c env m mac1 sender addr port) := by
  have hp := h.peerCookie c env.now env.cookieSecret (sourceBytes addr port)
  exact ⟨⟨hp.peers, hp.publicKey, hp.privateKey, hp.nextSid, hp.log⟩, hp.labelMac1Key,
    hp.labelCookieKey⟩

/-- What an accepted initiation does to the device; the second comparison of the
timestamps decides nothing the first has not. -/
theorem processInitiation_cases (now : U32) (d : Device cfg) (msg : MsgInit) :
    wireguardProcessInitiationMessage c now d msg = none ∨
    ∃ o, openInit c d msg = some o ∧
      timestampReplayed (d.peers o.peer) o.timestamp = false ∧
      rateLimited now (d.peers o.peer) = false ∧
      wireguardProcessInitiationMessage c now d msg
        = some (d.setPeer o.peer (acceptInit now (d.peers o.peer) msg o), o.peer) := by
  unfold wireguardProcessInitiationMessage
  cases ho : openInit c d msg with
  | none => exact Or.inl rfl
  | some o =>
      simp only [Option.bind_eq_bind, Option.bind_some]
      split
      · rename_i hok
        refine Or.inr ⟨o, rfl, by simpa using hok.1, by simpa using hok.2, ?_⟩
        have hgt : memcmp o.timestamp.toList (d.peers o.peer).greatestTimestamp.toList > 0 := by
          have := hok.1
          unfold timestampReplayed at this
          simpa using this
        rw [if_pos hgt]
        rfl
      · exact Or.inl rfl

/-- An initiation that gets as far as the Diffie-Hellman work: mac1 and, under load, mac2. -/
def InitiationAdmitted (n : Netdev cfg) (data : List Byte) (addr : U32) (port : U16) : Prop :=
  messageType data = messageHandshakeInitiation ∧
  checkMac1 c n.wg (data.take (msgInitLen - 32)) (MsgInit.parse data).mac1 = true ∧
  ((wgUnderLoad env n).2 = false ∨
    (checkMac2 c env.now env.cookieSecret n.wg (data.take (msgInitLen - 16))
      (sourceBytes addr port) (MsgInit.parse data).mac2).2 = true)

/-- The port after it took the timestamp and the endpoint of an initiation from `o.peer`. -/
def initiationAccepted (m : Netdev cfg) (msg : MsgInit) (o : OpenedInit cfg) (addr : U32)
    (port : U16) : Netdev cfg :=
  (m.observe (.initAccepted o.peer o.timestamp)).setPeer o.peer
    { acceptInit env.now (m.peer o.peer) msg o with ip := addr, port := port }

/-- The port after it finished a handshake of its own with `x`, whose record is `p` now. -/
def responseAccepted (n : Netdev cfg) (x : Fin cfg.maxPeers) (p : Peer cfg) (addr : U32)
    (port : U16) : Netdev cfg :=
  wgSendKeepalive c env
    (startSession c env ((n.observe (.responseAccepted x)).setPeer x
      { p with ip := addr, port := port }) x true) x

/-- What an initiation that was admitted leads to. -/
theorem wgProcessInitiation_cases {n m : Netdev cfg} (hq : Quiet n m) (msg : MsgInit)
    (addr : U32) (port : U16) :
    wgProcessInitiation c env m msg addr port = some m ∨
    ∃ o, openInit c n.wg msg = some o ∧
      timestampReplayed (n.peer o.peer) o.timestamp = false ∧
      rateLimited env.now (n.peer o.peer) = false ∧
      wgProcessInitiation c env m msg addr port
        = wgSendHandshakeResponse c env (initiationAccepted env m msg o addr port) o.peer := by
  unfold wgProcessInitiation
  rcases processInitiation_cases c env.now m.wg msg with h | ⟨o, ho, hts, hrate, h⟩
  · rw [h]
    exact Or.inl rfl
  · refine Or.inr ⟨o, by rw [← hq.openInit]; exact ho, by rw [← hq.peer]; exact hts,
      by rw [← hq.peer]; exact hrate, ?_⟩
    rw [h]
    dsimp only
    congr 1
    unfold initiationAccepted
    simp only [Netdev.setPeer, Netdev.observe, Netdev.peer, Device.setPeer_peers_self,
      Device.setPeer_setPeer]
    rfl

/-- **What a datagram can lead to**: nothing, or one of the four kinds of message that
passed all its checks up to the keypair. -/
theorem wgProcessUdpPacket_cases (n : Netdev cfg) (data : List Byte) (addr : U32) (port : U16) :
    let r := wgProcessUdpPacket c env n data addr port
    (∃ m, Silent n m ∧ r = some m) ∨
    (∃ m o, Silent n m ∧ InitiationAdmitted c env n data addr port ∧
      openInit c n.wg (MsgInit.parse data) = some o ∧
      timestampReplayed (n.peer o.peer) o.timestamp = false ∧
      rateLimited env.now (n.peer o.peer) = false ∧
      r = wgSendHandshakeResponse c env
        (initiationAccepted env m (MsgInit.parse data) o addr port) o.peer) ∨
    (messageType data = messageHandshakeResponse ∧
      checkMac1 c n.wg (data.take (msgResponseLen - 32)) (MsgResponse.parse data).mac1 = true ∧
      ∃ x p, peerByHandshake n.wg (MsgResponse.parse data).receiver = some x ∧
        processResponse c n.wg (n.peer x) (MsgResponse.parse data) = some p ∧
        r = some (responseAccepted c env n x p addr port)) ∨
    (messageType data = messageCookieReply ∧
      ∃ x p, peerByHandshake n.wg (MsgCookie.parse data).receiver = some x ∧
        processCookie c env.now (n.peer x) (MsgCookie.parse data) = some p ∧
        r = wgStartHandshake c env ((n.observe (.cookieAccepted x)).setPeer x p) x) ∨
    (messageType data = messageTransportData ∧
      ∃ x, peerByReceiver n.wg (dataReceiver data) = some x ∧
        r = some (wgProcessDataMessage c env n x data addr port)) := by
  intro r
  simp only [r]
  unfold wgProcessUdpPacket
  by_cases hinit : messageType data = messageHandshakeInitiation
  · rw [if_pos hinit]
    dsimp only
    by_cases hmac : checkMac1 c n.wg (data.take (msgInitLen - 32)) (MsgInit.parse data).mac1 = true
    swap
    · rw [if_pos (by simpa using hmac)]
      exact Or.inl ⟨n, .refl n, rfl⟩
    rw [if_neg (by simpa using hmac)]
    have hquiet := wgUnderLoad_silent env n
    by_cases hload : (wgUnderLoad env n).2 = true
    · rw [if_pos hload, wgUnderLoad_wg]
      have hq2 := hquiet.peerCookie c env.now env.cookieSecret (sourceBytes addr port)
      rw [wgUnderLoad_wg] at hq2
      by_cases hmac2 : (checkMac2 c env.now env.cookieSecret n.wg (data.take (msgInitLen - 16))
          (sourceBytes addr port) (MsgInit.parse data).mac2).2 = true
      · rw [if_neg (by simpa using hmac2)]
        rcases wgProcessInitiation_cases c env hq2.toQuiet (MsgInit.parse data) addr port with
          h | ⟨o, ho, hts, hrate, h⟩
        · exact Or.inl ⟨_, hq2, h⟩
        · exact Or.inr (Or.inl ⟨_, o, hq2, ⟨hinit, hmac, Or.inr hmac2⟩, ho, hts, hrate, h⟩)
      · rw [if_pos (by simpa using hmac2)]
        exact Or.inl ⟨_, hq2.cookieReply c env _ _ addr port, rfl⟩
    · rw [if_neg hload]
      rcases wgProcessInitiation_cases c env hquiet.toQuiet (MsgInit.parse data) addr port with
        h | ⟨o, ho, hts, hrate, h⟩
      · exact Or.inl ⟨_, hquiet, h⟩
      · exact Or.inr (Or.inl ⟨_, o, hquiet, ⟨hinit, hmac, Or.inl (by simpa using hload)⟩, ho, hts,
          hrate, h⟩)
  rw [if_neg hinit]
  by_cases hresp : messageType data = messageHandshakeResponse
  · rw [if_pos hresp]
    dsimp only
    by_cases hmac : checkMac1 c n.wg (data.take (msgResponseLen - 32))
        (MsgResponse.parse data).mac1 = true
    swap
    · rw [if_pos (by simpa using hmac)]
      exact Or.inl ⟨n, .refl n, rfl⟩
    rw [if_neg (by simpa using hmac)]
    cases hx : peerByHandshake n.wg (MsgResponse.parse data).receiver with
    | none => exact Or.inl ⟨n, .refl n, rfl⟩
    | some x =>
        dsimp only
        cases hp : processResponse c n.wg (n.peer x) (MsgResponse.parse data) with
        | none => exact Or.inl ⟨n, .refl n, rfl⟩
        | some p => exact Or.inr (Or.inr (Or.inl ⟨hresp, hmac, x, p, rfl, hp, rfl⟩))
  rw [if_neg hresp]
  by_cases hcookie : messageType data = messageCookieReply
  · rw [if_pos hcookie]
    dsimp only
    cases hx : peerByHandshake n.wg (MsgCookie.parse data).receiver with
    | none => exact Or.inl ⟨n, .refl n, rfl⟩
    | some x =>
        dsimp only
        cases hp : processCookie c env.now (n.peer x) (MsgCookie.parse data) with
        | none => exact Or.inl ⟨n, .refl n, rfl⟩
        | some p => exact Or.inr (Or.inr (Or.inr (Or.inl ⟨hcookie, x, p, rfl, hp, rfl⟩)))
  rw [if_neg hcookie]
  by_cases hdata : messageType data = messageTransportData
  · rw [if_pos hdata]
    cases hx : peerByReceiver n.wg (dataReceiver data) with
    | none => exact Or.inl ⟨n, .refl n, rfl⟩
    | some x => exact Or.inr (Or.inr (Or.inr (Or.inr ⟨hdata, x, rfl, rfl⟩)))
  rw [if_neg hdata]
  exact Or.inl ⟨n, .refl n, rfl⟩

theorem initiationAccepted_path (m : Netdev cfg) (msg : MsgInit) (o : OpenedInit cfg) (addr : U32)
    (port : U16) (hts : timestampReplayed (m.peer o.peer) o.timestamp = false) :
    Path env.time m.view (initiationAccepted env m msg o addr port).view := by
  refine Path.trans_eq (.single (.acceptInit m.view o.peer o.timestamp addr port
    (lt_of_not_timestampReplayed hts))) ?_
  unfold initiationAccepted
  rw [view_setPeer]
  rfl

theorem responseAccepted_path (n : Netdev cfg) (x : Fin cfg.maxPeers) {p : Peer cfg} (addr : U32)
    (port : U16) (hp : p.view = (n.peer x).view) :
    Path env.time n.view (responseAccepted c env n x p addr port).view := by
  have haccept : Path env.time n.view
      ((n.observe (.responseAccepted x)).setPeer x { p with ip := addr, port := port }).view := by
    refine Path.trans_eq (.single (.acceptResponse n.view x addr port)) ?_
    have hview : ({ p with ip := addr, port := port } : Peer cfg).view
        = { (n.peer x).view with ip := addr, port := port } := by
      rw [← hp]
      rfl
    rw [view_setPeer, hview]
    rfl
  exact (haccept.trans (startSession_path c env _ x true)).trans
    (wgEncryptAndSend_path c env _ x [])

theorem wgProcessUdpPacket_path {n n' : Netdev cfg} {data : List Byte} {addr : U32} {port : U16}
    (h : wgProcessUdpPacket c env n data addr port = some n') :
    Path env.time n.view n'.view := by
  rcases wgProcessUdpPacket_cases c env n data addr port with
    ⟨m, hq, hr⟩ | ⟨m, o, hq, -, -, hts, -, hr⟩ | ⟨-, -, x, p, -, hp, hr⟩ | ⟨-, x, p, -, hp, hr⟩ |
      ⟨-, x, -, hr⟩
  · cases hr.symm.trans h
    rw [hq.view]
  · have hts' : timestampReplayed (m.peer o.peer) o.timestamp = false := by rw [hq.peer]; exact hts
    have hpath := initiationAccepted_path env m (MsgInit.parse data) o addr port hts'
    rw [hq.view] at hpath
    exact hpath.trans (wgSendHandshakeResponse_path c env (hr.symm.trans h))
  · cases hr.symm.trans h
    exact responseAccepted_path c env n x addr port (processResponse_view hp)
  · have hcookie : Path env.time n.view
        ((n.observe (.cookieAccepted x)).setPeer x p).view := by
      exact Path.trans_eq (.single (.acceptCookie n.view x))
        (view_setPeer_of_view_eq (n.observe (.cookieAccepted x)) x (processCookie_view hp))
    exact hcookie.trans (wgStartHandshake_path c env (hr.symm.trans h))
  · cases hr.symm.trans h
    exact wgProcessDataMessage_path c env n x data addr port

/-! ### Timers, sending and the interface state -/

theorem wgExpirePeer_path (n : Netdev cfg) (x : Fin cfg.maxPeers) :
    Path env.time n.view (n.setPeer x (wgExpirePeer env.now (n.peer x))).view := by
  rw [view_setPeer]
  exact expirePeer_path env.now n.view x rfl

theorem wgRunTimersPeer_path {n n' : Netdev cfg} {x : Fin cfg.maxPeers}
    (h : wgRunTimersPeer c env n x = some n') : Path env.time n.view n'.view := by
  unfold wgRunTimersPeer at h
  split at h
  · cases h; rfl
  · dsimp only at h
    refine (wgExpirePeer_path env n x).trans ?_
    generalize n.setPeer x (wgExpirePeer env.now (n.peer x)) = m at h ⊢
    have hkeep : Path env.time m.view
        (if keepaliveDue env.now (m.peer x) then wgSendKeepalive c env m x else m).view := by
      split
      · exact wgEncryptAndSend_path c env m x []
      · rfl
    refine hkeep.trans ?_
    generalize (if keepaliveDue env.now (m.peer x) then wgSendKeepalive c env m x else m) = m'
      at h ⊢
    split at h
    · exact wgStartHandshake_path c env h
    · cases h; rfl

theorem wgRunTimers_path {n n' : Netdev cfg} (h : wgRunTimers c env n = some n') :
    Path env.time n.view n'.view :=
  foldlM_relates (R := fun a b : Netdev cfg => Path env.time a.view b.view)
    (fun _ => .refl) .trans (fun _ _ _ hs => wgRunTimersPeer_path c env hs) _ h

theorem wgTxpoll_path (n : Netdev cfg) (packet : List Byte) :
    Path env.time n.view (wgTxpoll c env n packet).view := by
  unfold wgTxpoll
  dsimp only
  split
  · split
    · exact wgEncryptAndSend_path c env { n with plainbuf := overwrite n.plainbuf packet } _ _
    · rfl
  · rfl

theorem wgIfup_path (time : Nat) (n : Netdev cfg) : Path time n.view (wgIfup n).view :=
  View.each_peer (fun x => (wgIfupPeer (n.peer x)).view) fun x _ hu => ifupPeer_path x hu

theorem wgIfdown_path (time : Nat) (n : Netdev cfg) : Path time n.view (wgIfdown n).view := by
  refine View.each_peer (fun x => (wgIfdownPeer (n.peer x)).view) fun x u hu => ?_
  unfold wgIfdownPeer
  split
  · exact Path.trans_eq .refl ((congrArg (u.setPeer x) hu.symm).trans (View.setPeer_self u x))
  · refine Path.trans_eq (forget_path u x) ?_
    rw [hu]
    refine congrArg (u.setPeer x) ?_
    simp only [Peer.view, view_peers, keypairDestroy, Peer.setKeypair, PeerView.mk.injEq, true_and,
      and_self, and_true]
    funext s
    cases s <;> rfl

/-- The time of an event; taking the interface up or down has none. -/
def Event.time : Event cfg → Option Nat
  | .rx env .. => some env.time
  | .timers env => some env.time
  | .txpoll env _ => some env.time
  | .ifup => none
  | .ifdown => none

/-- **Every step of the port is a path of the session model.** -/
theorem step_path {n n' : Netdev cfg} {e : Event cfg} {time : Nat}
    (ht : ∀ t ∈ e.time, t = time) (h : step c n e = some n') : Path time n.view n'.view := by
  cases e with
  | rx env data addr port =>
      cases ht _ rfl
      simp only [step] at h
      split at h
      · cases h; rfl
      · exact wgProcessUdpPacket_path c env h
  | timers env =>
      cases ht _ rfl
      exact wgRunTimers_path c env h
  | txpoll env packet =>
      cases ht _ rfl
      cases h
      split
      · exact wgTxpoll_path c env n packet
      · rfl
  | ifup => cases h; exact wgIfup_path time n
  | ifdown => cases h; exact wgIfdown_path time n

/-! ### Reachable states -/

theorem wireguardPeerInit_unused (d : Device cfg) (publicKey : Key) (psk : Option Key) :
    Unused (wireguardPeerInit c d publicKey psk) := by
  unfold wireguardPeerInit
  split
  · exact unused_zero
  · dsimp only
    split <;> exact unused_zero

theorem configure_unused (pc : PeerConfig) {p : Peer cfg} (h : Unused p) :
    Unused (pc.configure p) := by
  unfold PeerConfig.configure
  split <;> exact h

/-- What a record has from the start and configuration keeps, every peer has. -/
theorem wgAddPeers_each {P : Peer cfg → Prop}
    (hinit : ∀ (d : Device cfg) key, P (wireguardPeerInit c d key none))
    (hconfigure : ∀ (pc : PeerConfig) p, P p → P (pc.configure p)) (pcs : List PeerConfig)
    {d : Device cfg} (h : ∀ x, P (d.peers x)) :
    ∀ x, P ((pcs.foldl (wgAddPeer c) d).peers x) := by
  induction pcs generalizing d with
  | nil => exact h
  | cons pc pcs ih =>
      have hset : ∀ (y : Fin cfg.maxPeers) (p : Peer cfg), P p →
          ∀ x, P ((d.setPeer y p).peers x) := by
        intro y p hp x
        by_cases hx : x = y
        · rw [hx, Device.setPeer_peers_self]
          exact hp
        · rw [Device.setPeer_peers_of_ne d p hx]
          exact h x
      refine ih ?_
      unfold wgAddPeer
      split
      · exact h
      · split
        · exact h
        · dsimp only
          split
          · exact hset _ _ (hconfigure pc _ (hinit d _))
          · exact hset _ _ (hinit d _)

/-- Nothing but the peers is written. -/
theorem wgAddPeers_device (pcs : List PeerConfig) (d : Device cfg) :
    ∃ peers, pcs.foldl (wgAddPeer c) d = { d with peers := peers } := by
  induction pcs generalizing d with
  | nil => exact ⟨d.peers, rfl⟩
  | cons pc pcs ih =>
      have hadd : ∃ peers, wgAddPeer c d pc = { d with peers := peers } := by
        unfold wgAddPeer
        split
        · exact ⟨d.peers, rfl⟩
        · split
          · exact ⟨d.peers, rfl⟩
          · dsimp only
            split <;> exact ⟨_, rfl⟩
      obtain ⟨peers, hadd⟩ := hadd
      obtain ⟨peers', hrest⟩ := ih (wgAddPeer c d pc)
      refine ⟨peers', ?_⟩
      rw [List.foldl_cons, hrest, hadd]

theorem wireguardDeviceInit_peers {key : Key} {d : Device cfg}
    (h : wireguardDeviceInit c env key = some d) : d.peers = fun _ => Peer.zero := by
  unfold wireguardDeviceInit at h
  split at h
  · cases h
  · cases h; rfl

theorem Initial.each {P : Peer cfg → Prop} (hzero : P Peer.zero)
    (hinit : ∀ (d : Device cfg) key, P (wireguardPeerInit c d key none))
    (hconfigure : ∀ (pc : PeerConfig) p, P p → P (pc.configure p))
    (hup : ∀ p, P p → P (wgIfupPeer p)) {n : Netdev cfg} (h : Initial c n)
    (x : Fin cfg.maxPeers) : P (n.peer x) := by
  obtain ⟨env, probe, key, pcs, h⟩ := h
  unfold wgInitialize at h
  split at h
  · cases h
  · split at h
    · cases h
    · rename_i d hd
      cases h
      refine hup _ (wgAddPeers_each c hinit hconfigure pcs (fun y => ?_) x)
      rw [wireguardDeviceInit_peers c env hd]
      exact hzero

theorem Initial.started {n : Netdev cfg} (h : Initial c n) : n.log = [] := by
  obtain ⟨env, probe, key, pcs, h⟩ := h
  unfold wgInitialize at h
  split at h
  · cases h
  · split at h
    · cases h
    · cases h
      rfl

/-- The port starts without sessions. -/
theorem Initial.fresh {n : Netdev cfg} (h : Initial c n) : n.view.Fresh := by
  have hunused := h.each c unused_zero (fun d key => wireguardPeerInit_unused c d key none)
    (fun pc _ hp => configure_unused pc hp) fun p hp => by
      unfold wgIfupPeer
      split <;> exact hp
  exact ⟨fun x => (hunused x).1, fun x => (hunused x).2, h.started c⟩

/-- What a path keeps, a step keeps. -/
theorem step_invariant {I : View cfg → Prop} {n n' : Netdev cfg} {e : Event cfg}
    (hkeep : ∀ time v w, Micro time v w → I v → I w) (h : step c n e = some n')
    (hn : I n.view) : I n'.view := by
  have hpath : Path (e.time.getD 0) n.view n'.view :=
    step_path c (fun t ht => by rw [Option.mem_def.mp ht]; rfl) h
  exact hpath.invariant (hkeep _) hn

/-- **What the session model keeps, every reachable state of the port has.** -/
theorem ReachableState.view_invariant {I : View cfg → Prop} {n : Netdev cfg}
    (h : ReachableState c n) (hfresh : ∀ v, v.Fresh → I v)
    (hkeep : ∀ time v w, Micro time v w → I v → I w) : I n.view :=
  Reachable.invariant (I := fun n : Netdev cfg => I n.view) h
    (fun _ hn => hfresh _ hn.fresh)
    (fun _ _ _ hs hn => step_invariant c hkeep hs hn)

end Flat

end NuttxWireguard
