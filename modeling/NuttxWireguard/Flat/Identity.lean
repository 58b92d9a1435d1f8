/-
Who the port is, and what it has computed from that.

The port's key pair is set as it is brought up.  With its private key the agreement with each
peer's static key is computed, once, and a peer without such an agreement is none.  No step
writes the private key, and what configuration decided of a peer stays, so in every reachable
state the stored agreements are those of the keys beside them.  The port has no pre-shared keys.
-/
import NuttxWireguard.Flat.CookieReply
import NuttxWireguard.Flat.Teardown

namespace NuttxWireguard.Flat

open Lib

variable {cfg : Config} (c : Crypto) (env : Env cfg) {x : Fin cfg.maxPeers}

/-! ### No step writes the private key -/

theorem wgStartHandshake_key {n n' : Netdev cfg} {x : Fin cfg.maxPeers} (h : wgStartHandshake c env n x = some n') :
    n'.wg.privateKey = n.wg.privateKey := by
  unfold wgStartHandshake at h
  split at h
  · cases h
  · rename_i wg hcreate
    obtain ⟨hs, rfl⟩ := createInitiation_device c env hcreate
    cases h
    rfl
  · rename_i wg msg hcreate
    obtain ⟨hs, rfl⟩ := createInitiation_device c env hcreate
    cases h
    rfl

theorem wgSendHandshakeResponse_key {n n' : Netdev cfg}
    (h : wgSendHandshakeResponse c env n x = some n') : n'.wg.privateKey = n.wg.privateKey := by
  unfold wgSendHandshakeResponse at h
  split at h
  · cases h
  · rename_i wg hcreate
    obtain ⟨hs, rfl⟩ := createResponse_device c env hcreate
    cases h
    rfl
  · rename_i wg msg hcreate
    obtain ⟨hs, rfl⟩ := createResponse_device c env hcreate
    cases h
    rfl

theorem wgProcessInner_key (n : Netdev cfg) (x : Fin cfg.maxPeers) (dataLen : Nat) :
    (wgProcessInner c env n x dataLen).wg.privateKey = n.wg.privateKey := by
  unfold wgProcessInner
  dsimp only
  split
  · split
    · split
      · rcases wgInjectPlaintext_cases c env n x (n.plainbuf.take (ipTotalLen n.plainbuf)) with
          h | ⟨b, h | ⟨y, reply, h⟩⟩
        · rw [h]
        · rw [h]
          rfl
        · rw [h]
          exact Lifecycle.wgEncryptAndSend_key c env _ y reply
      · rfl
    · rfl
  · rfl

theorem wgProcessDataMessage_key (n : Netdev cfg) (x : Fin cfg.maxPeers) (data : List Byte)
    (addr : U32) (port : U16) :
    (wgProcessDataMessage c env n x data addr port).wg.privateKey = n.wg.privateKey := by
  rcases wgProcessDataMessage_cases c env n x data addr port with
    ⟨b, h⟩ | ⟨s, -, ⟨-, h⟩ | ⟨-, -, plain, -, ⟨-, h⟩ | ⟨-, h⟩⟩⟩
  · rw [h]
  · rw [h]
    rfl
  · rw [h]
    rfl
  · rw [h]
    exact wgProcessInner_key c env _ x _

theorem wgProcessUdpPacket_key {n n' : Netdev cfg} {data : List Byte} {addr : U32} {port : U16}
    (h : wgProcessUdpPacket c env n data addr port = some n') :
    n'.wg.privateKey = n.wg.privateKey := by
  rcases wgProcessUdpPacket_cases c env n data addr port with
    ⟨m, hq, hr⟩ | ⟨m, o, hq, -, -, -, -, hr⟩ | ⟨-, -, x, p, -, -, hr⟩ | ⟨-, x, p, -, -, hr⟩ |
      ⟨-, x, -, hr⟩
  · cases hr.symm.trans h
    exact hq.privateKey
  · exact (wgSendHandshakeResponse_key c env (hr.symm.trans h)).trans hq.privateKey
  · cases hr.symm.trans h
    exact Lifecycle.wgEncryptAndSend_key c env _ x []
  · exact (wgStartHandshake_key c env (hr.symm.trans h)).trans rfl
  · cases hr.symm.trans h
    exact wgProcessDataMessage_key c env n x data addr port

theorem wgRunTimersPeer_key {n n' : Netdev cfg} (h : wgRunTimersPeer c env n x = some n') :
    n'.wg.privateKey = n.wg.privateKey := by
  unfold wgRunTimersPeer at h
  split at h
  · cases h
    rfl
  · dsimp only at h
    have hkeep : ∀ m : Netdev cfg,
        (if keepaliveDue env.now (m.peer x) then wgSendKeepalive c env m x else m).wg.privateKey
          = m.wg.privateKey := by
      intro m
      split
      · exact Lifecycle.wgEncryptAndSend_key c env m x []
      · rfl
    have hbefore := hkeep (n.setPeer x (wgExpirePeer env.now (n.peer x)))
    generalize (if keepaliveDue env.now _ then _ else _) = m at h hbefore
    split at h
    · exact (wgStartHandshake_key c env h).trans hbefore
    · cases h
      exact hbefore

/-- **The private key stays.** -/
theorem step_key {n n' : Netdev cfg} {e : Event cfg} (h : step c n e = some n') :
    n'.wg.privateKey = n.wg.privateKey := by
  cases e with
  | rx env data addr port =>
      simp only [step] at h
      split at h
      · cases h
        rfl
      · exact wgProcessUdpPacket_key c env h
  | timers env =>
      exact foldlM_relates (R := fun a b : Netdev cfg => b.wg.privateKey = a.wg.privateKey)
        (fun _ => rfl) (fun hab hbc => hbc.trans hab)
        (fun _ _ _ hs => wgRunTimersPeer_key c env hs) _ h
  | txpoll env packet =>
      cases h
      split
      · unfold wgTxpoll
        dsimp only
        split
        · split
          · exact Lifecycle.wgEncryptAndSend_key c env { n with plainbuf := overwrite n.plainbuf packet } _ _
          · rfl
        · rfl
      · rfl
  | ifup | ifdown =>
      cases h
      rfl

/-! ### Bringing the device up -/

/-- A peer of a device with this private key: the agreement of the static keys succeeded and is
stored. -/
def HasAgreed (privateKey : Key) (p : Peer cfg) : Prop :=
  p.valid = true →
    c.dh privateKey p.publicKey = some p.publicKeyDh ∧ p.presharedKey = Bytes.zero 32

theorem wireguardPeerInit_agrees (d : Device cfg) (publicKey : Key) :
    HasAgreed c d.privateKey (wireguardPeerInit c d publicKey none) := by
  unfold wireguardPeerInit
  split
  · intro hvalid
    cases hvalid
  · dsimp only
    split
    · intro hvalid
      cases hvalid
    · rename_i dh hdh
      exact fun _ => ⟨hdh, rfl⟩

theorem configure_agrees (pc : PeerConfig) {privateKey : Key} {p : Peer cfg}
    (h : HasAgreed c privateKey p) : HasAgreed c privateKey (pc.configure p) := by
  unfold PeerConfig.configure
  dsimp only
  split <;> exact h

theorem wgAddPeer_agrees (pc : PeerConfig) {d : Device cfg}
    (h : ∀ x, HasAgreed c d.privateKey (d.peers x)) (x : Fin cfg.maxPeers) :
    HasAgreed c d.privateKey ((wgAddPeer c d pc).peers x) := by
  have hset : ∀ (y : Fin cfg.maxPeers) (p : Peer cfg), HasAgreed c d.privateKey p →
      HasAgreed c d.privateKey ((d.setPeer y p).peers x) := by
    intro y p hp
    by_cases hx : x = y
    · rw [hx, Device.setPeer_peers_self]
      exact hp
    · rw [Device.setPeer_peers_of_ne d p hx]
      exact h x
  unfold wgAddPeer
  split
  · exact h x
  · split
    · exact h x
    · rename_i _ key hkey _ y hy
      have hinit := wireguardPeerInit_agrees c d key
      dsimp only
      split
      · exact hset y _ (configure_agrees c pc hinit)
      · exact hset y _ hinit

theorem wgAddPeers_agrees (pcs : List PeerConfig) {d : Device cfg}
    (h : ∀ x, HasAgreed c d.privateKey (d.peers x)) :
    ∀ x, HasAgreed c d.privateKey ((pcs.foldl (wgAddPeer c) d).peers x) := by
  induction pcs generalizing d with
  | nil => exact h
  | cons pc pcs ih =>
      obtain ⟨peers, hadd⟩ := wgAddPeers_device c [pc] d
      have hkey : (wgAddPeer c d pc).privateKey = d.privateKey := by
        rw [show wgAddPeer c d pc = _ from hadd]
      have hrest := ih (d := wgAddPeer c d pc) (by rw [hkey]; exact wgAddPeer_agrees c pc h)
      rw [hkey] at hrest
      exact hrest

/-! ### Every reachable state -/

/-- The port's key pair is one, its private key clamped, and a peer there agrees with it. -/
structure KeyedAt (x : Fin cfg.maxPeers) (n : Netdev cfg) : Prop where
  own : ∃ k, n.wg.privateKey = Crypto.clamp k ∧ c.generatePublicKey k = some n.wg.publicKey
  peer : HasAgreed c n.wg.privateKey (n.peer x)

theorem Initial.keyed {n : Netdev cfg} (h : Initial c n) : KeyedAt c x n := by
  obtain ⟨env, probe, key, pcs, h⟩ := h
  unfold wgInitialize at h
  split at h
  · cases h
  split at h
  · cases h
  rename_i d hd
  have hzero : ∀ x, HasAgreed c d.privateKey (d.peers x) := by
    rw [wireguardDeviceInit_peers c env hd]
    intro x hvalid
    cases hvalid
  have hpeers := wgAddPeers_agrees c pcs hzero
  obtain ⟨peers, hadd⟩ := wgAddPeers_device c pcs d
  cases h
  have hkey : (pcs.foldl (wgAddPeer c) d).privateKey = d.privateKey := by
    rw [hadd]
  have hpublic : (pcs.foldl (wgAddPeer c) d).publicKey = d.publicKey := by
    rw [hadd]
  constructor
  · unfold wireguardDeviceInit at hd
    split at hd
    · cases hd
    · rename_i publicKey hgenerate
      cases hd
      exact ⟨key, hkey, hgenerate.trans (congrArg some hpublic.symm)⟩
  · have hx := hpeers x
    rw [← hkey] at hx
    show HasAgreed c (pcs.foldl (wgAddPeer c) d).privateKey
      (wgIfupPeer ((pcs.foldl (wgAddPeer c) d).peers x))
    unfold wgIfupPeer
    split <;> exact hx

/-- **The stored agreements are those of the keys beside them** in every reachable state. -/
theorem ReachableState.keyedAt {n : Netdev cfg} (h : ReachableState c n) (x : Fin cfg.maxPeers) :
    KeyedAt c x n := by
  refine Reachable.invariant h (fun _ hn => hn.keyed c) fun n e m hs hn => ?_
  have hkey := step_key c hs
  obtain ⟨hsetup, hlabels⟩ := step_setup (x := x) c hs
  have hpublic : m.wg.publicKey = n.wg.publicKey := congrArg Labels.publicKey hlabels
  constructor
  · rw [hkey, hpublic]
    exact hn.own
  · intro hvalid
    have hdh : (m.peer x).publicKeyDh = (n.peer x).publicKeyDh :=
      congrArg Setup.publicKeyDh hsetup
    have hpeer : (m.peer x).publicKey = (n.peer x).publicKey := congrArg Setup.publicKey hsetup
    have hpsk : (m.peer x).presharedKey = (n.peer x).presharedKey :=
      congrArg Setup.presharedKey hsetup
    rw [hkey, hpeer, hdh, hpsk]
    exact hn.peer ((congrArg Setup.valid hsetup).symm.trans hvalid)

/-- The port with a session that waits. -/
theorem keyedAt_sample : ∃ n : Netdev Sample.config,
    (n.peer Sample.first).nextKeypair.valid = true ∧ KeyedAt Crypto.plain Sample.first n := by
  obtain ⟨n, hn, hvalid⟩ := Sample.exists_reachable [Sample.rxInitiation 1001]
    (fun n => (n.peer Sample.first).nextKeypair.valid) (by decide +kernel)
  exact ⟨n, hvalid, ReachableState.keyedAt Crypto.plain hn Sample.first⟩

end NuttxWireguard.Flat
