/-
An interface that is down holds no session.

The receive thread, the stack and the administrator may all leave sessions and queued
datagrams behind, and an interface that goes down is torn down on whichever path finds the
thread gone.  What makes every path clear the same is which of them can meet: a thread that
lives is counted in `rxpid`, it holds a datagram only while it lives, and its completion is
posted once it is gone.
-/
import NuttxWireguard.Kernel.Demux
import NuttxWireguard.Kernel.AllowedIps

namespace NuttxWireguard

open Lib

variable {cfg : Config}

/-- A record without a peer is cleared. -/
def Device.Vacant (d : Device cfg) : Prop :=
  ∀ x, (d.peers x).valid = false → d.peers x = Peer.zero

theorem Device.Vacant.setPeer {d : Device cfg} (h : d.Vacant) {x : Fin cfg.maxPeers} {p : Peer cfg}
    (hp : p.valid = false → p = Peer.zero) : (d.setPeer x p).Vacant := by
  intro y hy
  by_cases hyx : y = x
  · rw [hyx, Device.setPeer_peers_self] at hy ⊢
    exact hp hy
  · rw [Device.setPeer_peers_of_ne d p hyx] at hy ⊢
    exact h y hy

namespace Kernel

variable (c : Crypto) (env : Env cfg)

/-! ### Records without a peer -/

theorem wgPeerInit_vacant {d : Device cfg} {publicKey : Key} {psk : Option Key}
    (h : (wgPeerInit c d publicKey psk).valid = false) :
    wgPeerInit c d publicKey psk = Peer.zero := by
  unfold wgPeerInit at h ⊢
  split
  · rfl
  · rename_i hvalid
    rw [if_neg hvalid] at h
    split
    · rfl
    · rename_i dh hdh
      rw [hdh] at h
      cases h

theorem restorePeer_vacant {d : Device cfg} {saved : Peer cfg}
    (h : (restorePeer c d saved).valid = false) : restorePeer c d saved = Peer.zero := by
  unfold restorePeer at h ⊢
  dsimp only at h ⊢
  generalize (if saved.presharedKey = Bytes.zero 32 then none else some saved.presharedKey) = psk
    at h ⊢
  split
  · rfl
  · rename_i hsaved
    rw [if_neg hsaved] at h
    split
    · rename_i hinit
      rw [if_pos hinit] at h
      exact absurd hinit (by simpa using h)
    · rename_i hinit
      rw [if_neg hinit] at h
      exact wgPeerInit_vacant c h

theorem setPrivateKey_vacant (n : Netdev cfg) (privateKey : Key) (hn : n.wg.Vacant) :
    (setPrivateKey c env n privateKey).1.wg.Vacant := by
  rcases setPrivateKey_cases c env n privateKey with ⟨-, err, h⟩ | ⟨-, d, err, h, hd⟩
  · rw [h]
    exact hn
  · rw [h]
    intro x hx
    rcases hd with hd | ⟨d', hd⟩
    · show d.peers x = _
      rw [hd]
    · have hx : (d.peers x).valid = false := hx
      show d.peers x = _
      rw [hd] at hx ⊢
      exact restorePeer_vacant c hx

theorem wgSetPeer_vacant (n : Netdev cfg) (req : PeerReq) (hn : n.wg.Vacant) :
    (wgSetPeer c n req).1.wg.Vacant := by
  have hvalid : ∀ created allowed (p : Peer cfg), p.valid = true →
      (applyPeerReq n req created allowed p).valid = true := fun created allowed p hp =>
    (congrArg Setup.valid (applyPeerReq_setup n req created allowed p)).trans hp
  rcases wgSetPeer_outcomes c n req with ⟨err, h⟩ | ⟨x, allowed, -, -, ⟨hself, h⟩ |
    ⟨-, -, hcreated, h⟩ | ⟨-, -, -, h⟩⟩
  · rw [h]
    exact hn
  · rw [h]
    have hrekeyed : (rekeyedPeer req (n.peer x)).valid = true := by
      unfold rekeyedPeer
      split <;> exact valid_of_peerByPubkey hself
    refine hn.setPeer fun hc => ?_
    rw [hvalid _ _ _ hrekeyed] at hc
    cases hc
  · rw [h]
    refine hn.setPeer fun hc => ?_
    rw [hvalid _ _ _ hcreated] at hc
    cases hc
  · rw [h]
    exact hn.setPeer (wgPeerInit_vacant c)

theorem wgDelPeer_vacant (n : Netdev cfg) (publicKey : Key) (hn : n.wg.Vacant) :
    (wgDelPeer n publicKey).1.wg.Vacant := by
  unfold wgDelPeer
  split
  · exact hn
  split
  · exact hn
  · exact hn.setPeer fun _ => rfl

theorem step_vacant {n n' : Netdev cfg} {e : Event cfg} (h : step c n e = some n')
    (hn : n.wg.Vacant) : n'.wg.Vacant := by
  refine step_device_invariant c ?_ (fun env n k => setPrivateKey_vacant c env n k)
    (wgSetPeer_vacant c) wgDelPeer_vacant h hn
  intro d e hde hd x hx
  rw [hde.valid] at hx
  rw [hde.absent x hx]
  exact hd x hx

/-! ### The receive thread -/

/-- What the interface's flags say of the receive thread. -/
structure Netdev.Staged (n : Netdev cfg) : Prop where
  up : n.bifup = true → n.rxpid ≠ 0
  reaping : n.reaping = true → n.bifup = false ∧ n.rxpid ≠ 0
  worker : n.worker = true → n.rxpid ≠ 0
  inflight : n.worker = false → n.inflight = none
  posted : ∀ k, n.rxdone = some k → 0 < k → n.worker = false

/-- The flags are in the link. -/
theorem Netdev.Staged.of_link {n m : Netdev cfg} (h : n.Staged) (hlink : m.link = n.link) :
    m.Staged := by
  have hbifup : m.bifup = n.bifup := congrArg Link.bifup hlink
  have hreaping : m.reaping = n.reaping := congrArg Link.reaping hlink
  have hrxpid : m.rxpid = n.rxpid := congrArg Link.rxpid hlink
  have hrxdone : m.rxdone = n.rxdone := congrArg Link.rxdone hlink
  have hworker : m.worker = n.worker := congrArg Link.worker hlink
  have hinflight : m.inflight = n.inflight := congrArg Link.inflight hlink
  constructor
  · rw [hbifup, hrxpid]
    exact h.up
  · rw [hreaping, hbifup, hrxpid]
    exact h.reaping
  · rw [hworker, hrxpid]
    exact h.worker
  · rw [hworker, hinflight]
    exact h.inflight
  · rw [hrxdone, hworker]
    exact h.posted

theorem wgIfup_staged (n : Netdev cfg) (hn : n.Staged) : (wgIfup env n).1.Staged := by
  unfold wgIfup
  dsimp only
  split
  · exact hn
  split
  · exact hn
  rename_i hpid
  split
  · exact hn
  split
  · exact hn
  split
  · exact ⟨hn.up, hn.reaping, hn.worker, hn.inflight, hn.posted⟩
  have hstopped : n.worker = false := by
    by_contra hworker
    have := hn.worker (by simpa using hworker)
    omega
  split
  · exact ⟨hn.up, hn.reaping, hn.worker, hn.inflight, fun k hk => absurd hk.symm (Option.some_ne_none k)⟩
  · rename_i pid hcreate
    have hreaping : n.reaping = false := by
      by_contra hc
      have := (hn.reaping (by simpa using hc)).2
      omega
    refine ⟨fun _ => pid.2, fun hc => ?_, fun _ => pid.2, fun hc => absurd hc.symm Bool.false_ne_true, fun k hk hpos => ?_⟩
    · have hc : n.reaping = true := hc
      rw [hreaping] at hc
      cases hc
    · cases hk
      cases hpos

theorem wgIfdown_staged (n : Netdev cfg) (hn : n.Staged) : (wgIfdown n).1.Staged := by
  unfold wgIfdown
  dsimp only
  split
  · exact hn
  split
  · exact ⟨fun hc => absurd hc Bool.false_ne_true, fun hc => ⟨rfl, (hn.reaping hc).2⟩, hn.worker, hn.inflight, hn.posted⟩
  split
  · exact ⟨fun hc => absurd hc Bool.false_ne_true, fun hc => ⟨rfl, (hn.reaping hc).2⟩, hn.worker, hn.inflight, hn.posted⟩
  · rename_i hpid _
    exact ⟨fun hc => absurd hc Bool.false_ne_true, fun _ => ⟨rfl, hpid⟩, hn.worker, hn.inflight, hn.posted⟩

theorem setPrivateKey_link (n : Netdev cfg) (privateKey : Key) :
    (setPrivateKey c env n privateKey).1.link = n.link := by
  rcases setPrivateKey_cases c env n privateKey with ⟨-, err, h⟩ | ⟨-, d, err, h, -⟩
  · rw [h]
  · rw [h]
    rfl

theorem setPortAddr_staged (n : Netdev cfg) (req : IfReq) (hn : n.Staged) :
    (setPortAddr n req).Staged := by
  obtain ⟨port, addr, mask, h⟩ := setPortAddr_cases n req
  rw [h]
  exact ⟨hn.up, hn.reaping, hn.worker, hn.inflight, hn.posted⟩

theorem wgSetPeer_link (n : Netdev cfg) (req : PeerReq) : (wgSetPeer c n req).1.link = n.link := by
  rcases wgSetPeer_outcomes c n req with ⟨err, h⟩ | ⟨x, allowed, -, -, ⟨-, h⟩ | ⟨-, -, -, h⟩ |
    ⟨-, -, -, h⟩⟩
  · rw [h]
  · rw [h]
    rfl
  · rw [h]
    rfl
  · rw [h]
    rfl

theorem wgDelPeer_link (n : Netdev cfg) (publicKey : Key) :
    (wgDelPeer n publicKey).1.link = n.link := by
  unfold wgDelPeer
  split
  · rfl
  split <;> rfl

theorem step_staged {n n' : Netdev cfg} {e : Event cfg} (h : step c n e = some n') (hn : n.Staged) :
    n'.Staged := by
  by_cases he : e.traffic = true
  · exact hn.of_link (step_carried c he h).link
  cases e with
  | setIf env req =>
      cases h
      exact wgSetIf_invariant c env (fun m k hm => hm.of_link (setPrivateKey_link c env m k))
        setPortAddr_staged (wgIfup_staged env) wgIfdown_staged req hn
  | setPeer req =>
      cases h
      exact hn.of_link (wgSetPeer_link c n req)
  | delPeer publicKey =>
      cases h
      exact hn.of_link (wgDelPeer_link n publicKey)
  | ifup env =>
      cases h
      exact wgIfup_staged env n hn
  | ifdown =>
      cases h
      exact wgIfdown_staged n hn
  | ifdownDone =>
      simp only [step] at h
      split at h
      · rename_i hdone
        cases h
        obtain ⟨k, hk, hpos⟩ := (Option.any_eq_true _ _).mp hdone.2
        have hworker := hn.posted k hk (by simpa using hpos)
        have hdown := (hn.reaping hdone.1).1
        refine ⟨fun hc => ?_, fun hc => absurd hc Bool.false_ne_true, fun hc => ?_, fun _ => hn.inflight hworker,
          fun k hk => absurd hk.symm (Option.some_ne_none k)⟩
        · have hc : n.bifup = true := hc
          rw [hdown] at hc
          cases hc
        · have hc : n.worker = true := hc
          rw [hworker] at hc
          cases hc
      · cases h
  | ifdownTimeout =>
      simp only [step] at h
      split at h
      · cases h
        exact ⟨hn.up, fun hc => absurd hc Bool.false_ne_true, hn.worker, hn.inflight, hn.posted⟩
      · cases h
  | flushTake =>
      simp only [step] at h
      split at h
      · cases h
      · rename_i hidle
        cases h
        have hworker := (not_not.mp hidle).1
        unfold wgFlushTake
        split
        · exact hn
        · split
          · exact hn
          · refine ⟨hn.up, hn.reaping, hn.worker, fun hc => ?_, hn.posted⟩
            have hc : n.worker = false := hc
            rw [hworker] at hc
            cases hc
  | flushSend =>
      obtain ⟨out, -, rfl⟩ := Option.map_eq_some_iff.mp h
      exact ⟨hn.up, hn.reaping, hn.worker, fun _ => rfl, hn.posted⟩
  | rxExit =>
      simp only [step] at h
      split at h
      · rename_i hexit
        cases h
        exact ⟨hn.up, hn.reaping, fun hc => absurd hc Bool.false_ne_true, fun _ => hexit.1.2, fun _ _ _ => rfl⟩
      · cases h
  | _ => exact absurd rfl he

/-! ### The state a completed shutdown leaves -/

/-- No session and nothing to send. -/
structure Netdev.Still (n : Netdev cfg) : Prop where
  keypair : ∀ x s, (n.peer x).keypair s = Keypair.zero
  handshake : ∀ x, (n.peer x).handshake = Handshake.zero
  txqueue : n.txqueue = []
  ntx : n.ntx = 0

/-- The peers are without sessions, and the queue is as it was. -/
theorem Netdev.Still.of_blank {n m : Netdev cfg} (h : n.Still) (hblank : ∀ x, (m.peer x).Blank)
    (htxqueue : m.txqueue = n.txqueue) (hntx : m.ntx = n.ntx) : m.Still :=
  ⟨fun x s => congrFun (hblank x).slots s, fun x => (hblank x).handshake,
    htxqueue.trans h.txqueue, hntx.trans h.ntx⟩

theorem Netdev.Still.blank {n : Netdev cfg} (h : n.Still) (x : Fin cfg.maxPeers) :
    (n.peer x).Blank := ⟨funext (h.keypair x), h.handshake x⟩

/-- **Every path of a shutdown ends still.** -/
theorem wgDownFinish_still (n : Netdev cfg) (hn : n.wg.Vacant) : (wgDownFinish n).Still := by
  have hblank : ∀ x, (wgDownPeer (n.peer x)).Blank := by
    intro x
    unfold wgDownPeer
    split
    · refine ⟨?_, rfl⟩
      funext s
      cases s <;> rfl
    · rename_i hvalid
      rw [show n.peer x = Peer.zero from hn x (eq_false_of_ne_true hvalid)]
      exact Peer.blank_zero
  exact ⟨fun x s => congrFun (hblank x).slots s, fun x => (hblank x).handshake, rfl, rfl⟩

/-- What is true of a reachable state. -/
structure Netdev.Settled (n : Netdev cfg) : Prop where
  vacant : n.wg.Vacant
  staged : n.Staged
  still : n.bifup = false → n.rxpid = 0 → n.Still

theorem wgIfup_settled (n : Netdev cfg) (hn : n.Settled) : (wgIfup env n).1.Settled := by
  have hdevice := wgIfup_device env n
  refine ⟨fun x hx => ?_, wgIfup_staged env n hn.staged, ?_⟩
  · rw [hdevice.valid] at hx
    rw [hdevice.absent x hx]
    exact hn.vacant x hx
  have hup : ∀ m : Netdev cfg, m.wg.peers = (fun x => wgIfupPeer (n.peer x)) →
      m.txqueue = n.txqueue → m.ntx = n.ntx → n.Still → m.Still := by
    intro m hpeers htxqueue hntx hstill
    refine hstill.of_blank (fun x => ?_) htxqueue hntx
    have hpeer : m.peer x = wgIfupPeer (n.peer x) := congrFun hpeers x
    rw [hpeer]
    unfold wgIfupPeer
    split
    · refine ⟨?_, (hstill.blank x).handshake⟩
      rw [← (hstill.blank x).slots]
      funext s
      cases s <;> rfl
    · exact hstill.blank x
  unfold wgIfup
  dsimp only
  split
  · exact hn.still
  rename_i hbifup
  have hbifup : n.bifup = false := by simpa using hbifup
  split
  · exact hn.still
  rename_i hrxpid
  have hstill : n.Still := hn.still hbifup (by omega)
  split
  · exact hn.still
  split
  · exact hn.still
  split
  · exact fun _ _ => ⟨hstill.keypair, hstill.handshake, hstill.txqueue, hstill.ntx⟩
  split
  · exact fun _ _ => hup _ rfl rfl rfl hstill
  · exact fun hc => absurd hc.symm Bool.false_ne_true

theorem wgIfdown_settled (n : Netdev cfg) (hn : n.Settled) : (wgIfdown n).1.Settled := by
  have hdevice := wgIfdown_device n
  refine ⟨fun x hx => ?_, wgIfdown_staged n hn.staged, ?_⟩
  · rw [hdevice.valid] at hx
    rw [hdevice.absent x hx]
    exact hn.vacant x hx
  unfold wgIfdown
  dsimp only
  split
  · exact hn.still
  split
  · exact fun _ _ => wgDownFinish_still { n with bifup := false } hn.vacant
  rename_i hrxpid
  split
  · exact fun _ hc => absurd hc hrxpid
  · exact fun _ hc => absurd hc hrxpid

theorem setPrivateKey_settled (n : Netdev cfg) (privateKey : Key) (hn : n.Settled) :
    (setPrivateKey c env n privateKey).1.Settled := by
  refine ⟨setPrivateKey_vacant c env n privateKey hn.vacant,
    hn.staged.of_link (setPrivateKey_link c env n privateKey), ?_⟩
  rcases setPrivateKey_cases c env n privateKey with ⟨-, err, h⟩ | ⟨-, d, err, h, hd⟩
  · rw [h]
    exact hn.still
  · rw [h]
    intro hbifup hrxpid
    refine (hn.still hbifup hrxpid).of_blank (fun x => ?_) rfl rfl
    show (d.peers x).Blank
    rcases hd with hd | ⟨d', hd⟩
    · rw [hd]
      exact Peer.blank_zero
    · rw [hd]
      exact restorePeer_blank c d' (n.peer x)

theorem setPortAddr_settled (n : Netdev cfg) (req : IfReq) (hn : n.Settled) :
    (setPortAddr n req).Settled := by
  obtain ⟨port, addr, mask, h⟩ := setPortAddr_cases n req
  refine ⟨?_, setPortAddr_staged n req hn.staged, ?_⟩
  · rw [setPortAddr_wg]
    exact hn.vacant
  · rw [h]
    intro hbifup hrxpid
    have hstill := hn.still hbifup hrxpid
    exact ⟨hstill.keypair, hstill.handshake, hstill.txqueue, hstill.ntx⟩

/-- A peer was written that has no session or the ones it had. -/
theorem setPeer_still {n : Netdev cfg} (hn : n.Still) {x : Fin cfg.maxPeers} {p : Peer cfg}
    (hp : (n.peer x).Blank → p.Blank) : (n.setPeer x p).Still := by
  refine hn.of_blank (fun y => ?_) rfl rfl
  by_cases hy : y = x
  · rw [hy, setPeer_peer_self]
    exact hp (hn.blank x)
  · rw [setPeer_peer_of_ne n x p hy]
    exact hn.blank y

theorem wgSetPeer_settled (n : Netdev cfg) (req : PeerReq) (hn : n.Settled) :
    (wgSetPeer c n req).1.Settled := by
  refine ⟨wgSetPeer_vacant c n req hn.vacant, hn.staged.of_link (wgSetPeer_link c n req), ?_⟩
  have hcreated : (createdPeer c n req).Blank := wgPeerInit_blank c _ _ _
  rcases wgSetPeer_outcomes c n req with ⟨err, h⟩ | ⟨x, allowed, -, -, ⟨-, h⟩ | ⟨-, -, -, h⟩ |
    ⟨-, -, -, h⟩⟩
  · rw [h]
    exact hn.still
  · rw [h]
    have hedit := applyPeerReq_sessions n req false allowed (rekeyedPeer req (n.peer x))
    have hrekeyed := rekeyedPeer_sessions req (n.peer x)
    exact fun hbifup hrxpid => setPeer_still (hn.still hbifup hrxpid) fun hblank =>
      ⟨(hedit.1.trans hrekeyed.1).trans hblank.slots,
        (hedit.2.trans hrekeyed.2).trans hblank.handshake⟩
  · rw [h]
    have hedit := applyPeerReq_sessions n req true allowed (createdPeer c n req)
    exact fun hbifup hrxpid => setPeer_still (hn.still hbifup hrxpid) fun _ =>
      ⟨hedit.1.trans hcreated.slots, hedit.2.trans hcreated.handshake⟩
  · rw [h]
    exact fun hbifup hrxpid => setPeer_still (hn.still hbifup hrxpid) fun _ => hcreated

theorem wgDelPeer_settled (n : Netdev cfg) (publicKey : Key) (hn : n.Settled) :
    (wgDelPeer n publicKey).1.Settled := by
  refine ⟨wgDelPeer_vacant n publicKey hn.vacant, hn.staged.of_link (wgDelPeer_link n publicKey), ?_⟩
  unfold wgDelPeer
  split
  · exact hn.still
  split
  · exact hn.still
  · exact fun hbifup hrxpid => setPeer_still (hn.still hbifup hrxpid) fun _ => Peer.blank_zero

/-- Traffic finds an interface that is up or a thread, or does nothing here. -/
theorem step_traffic_still {n n' : Netdev cfg} {e : Event cfg} (he : e.traffic = true)
    (h : step c n e = some n') (hn : n.Settled) (hbifup : n.bifup = false) (hrxpid : n.rxpid = 0) :
    n'.Still := by
  have hstill := hn.still hbifup hrxpid
  have hidle : ¬n.idle := fun hc => hn.staged.worker hc.1 hrxpid
  cases e with
  | transmit env packet =>
      simp only [step, wgTransmit] at h
      rw [if_pos (Or.inl (by rw [hbifup]; exact Bool.false_ne_true))] at h
      cases h
      exact hstill
  | receive =>
      cases h
      exact ⟨hstill.keypair, hstill.handshake, hstill.txqueue, hstill.ntx⟩
  | datagram env data ip port =>
      simp only [step] at h
      rw [if_pos hidle] at h
      cases h
  | timers env =>
      simp only [step] at h
      rw [if_pos hidle] at h
      cases h
  | _ => cases he

/-- **Every step leaves a settled state settled.** -/
theorem step_settled {n n' : Netdev cfg} {e : Event cfg} (h : step c n e = some n')
    (hn : n.Settled) : n'.Settled := by
  have hvacant := step_vacant c h hn.vacant
  have hstaged := step_staged c h hn.staged
  by_cases he : e.traffic = true
  · have hlink := (step_carried c he h).link
    refine ⟨hvacant, hstaged, fun hbifup hrxpid => ?_⟩
    exact step_traffic_still c he h hn ((congrArg Link.bifup hlink).symm.trans hbifup)
      ((congrArg Link.rxpid hlink).symm.trans hrxpid)
  cases e with
  | setIf env req =>
      cases h
      exact wgSetIf_invariant c env (setPrivateKey_settled c env) setPortAddr_settled
        (wgIfup_settled env) wgIfdown_settled req hn
  | setPeer req =>
      cases h
      exact wgSetPeer_settled c n req hn
  | delPeer publicKey =>
      cases h
      exact wgDelPeer_settled n publicKey hn
  | ifup env =>
      cases h
      exact wgIfup_settled env n hn
  | ifdown =>
      cases h
      exact wgIfdown_settled n hn
  | ifdownDone =>
      simp only [step] at h
      split at h
      · cases h
        exact ⟨hvacant, hstaged, fun _ _ => wgDownFinish_still
          { n with reaping := false, rxpid := 0, rxdone := none, psock := false } hn.vacant⟩
      · cases h
  | ifdownTimeout =>
      simp only [step] at h
      split at h
      · cases h
        refine ⟨hvacant, hstaged, fun hbifup hrxpid => ?_⟩
        have hstill := hn.still hbifup hrxpid
        exact ⟨hstill.keypair, hstill.handshake, hstill.txqueue, hstill.ntx⟩
      · cases h
  | flushTake =>
      simp only [step] at h
      split at h
      · cases h
      · rename_i hidle
        cases h
        refine ⟨hvacant, hstaged, fun hbifup hrxpid => ?_⟩
        have hpid : (wgFlushTake n).rxpid = n.rxpid := by
          unfold wgFlushTake
          split
          · rfl
          · split <;> rfl
        exact absurd (hpid.symm.trans hrxpid) (hn.staged.worker (not_not.mp hidle).1)
  | flushSend =>
      obtain ⟨out, hout, rfl⟩ := Option.map_eq_some_iff.mp h
      refine ⟨hvacant, hstaged, fun hbifup hrxpid => ?_⟩
      -- the thread that holds the datagram is alive
      have hworker : n.worker = true := by
        by_contra hc
        rw [hn.staged.inflight (by simpa using hc)] at hout
        cases hout
      exact absurd hrxpid (hn.staged.worker hworker)
  | rxExit =>
      simp only [step] at h
      split at h
      · rename_i hexit
        cases h
        exact ⟨hvacant, hstaged, fun _ hrxpid => absurd hrxpid (hn.staged.worker hexit.1.1)⟩
      · cases h
  | _ => exact absurd rfl he

theorem settled {n : Netdev cfg} (h : ReachableState c n) : n.Settled := by
  refine Reachable.invariant (I := Netdev.Settled) h ?_ fun n e n' => step_settled c
  rintro n ⟨i, rfl⟩
  have hblank : ∀ x, ((wireguardInitialize i : Netdev cfg).peer x).Blank := fun _ => Peer.blank_zero
  exact ⟨fun _ _ => rfl,
    ⟨fun hc => absurd hc Bool.false_ne_true, fun hc => absurd hc Bool.false_ne_true, fun hc => absurd hc Bool.false_ne_true, fun _ => rfl,
      fun k hk => absurd hk.symm (Option.some_ne_none k)⟩,
    fun _ _ => ⟨fun x s => congrFun (hblank x).slots s, fun x => (hblank x).handshake, rfl, rfl⟩⟩

/-- **An interface that is completely down holds no session and nothing to send.** -/
theorem down_still {n : Netdev cfg} (h : ReachableState c n) (hbifup : n.bifup = false)
    (hrxpid : n.rxpid = 0) :
    (∀ x, (n.peer x).currKeypair = Keypair.zero ∧ (n.peer x).prevKeypair = Keypair.zero ∧
      (n.peer x).nextKeypair = Keypair.zero ∧ (n.peer x).handshake = Handshake.zero) ∧
      n.txqueue = [] ∧ n.ntx = 0 := by
  have hstill := (settled c h).still hbifup hrxpid
  exact ⟨fun x => ⟨hstill.keypair x .curr, hstill.keypair x .prev, hstill.keypair x .next,
    hstill.handshake x⟩, hstill.txqueue, hstill.ntx⟩

/-- A session has been there, and a completed `wg_ifdown` leaves nothing of it. -/
theorem down_still_sample : ∃ n : Netdev Sample.config, ReachableState Crypto.plain n ∧
    n.log ≠ [] ∧ (n.peer Sample.first).valid = true ∧
    (n.peer Sample.first).nextKeypair = Keypair.zero := by
  obtain ⟨n, hn, hrun⟩ := Sample.exists_reachable
    (Sample.bringUp ++ [Sample.rxInitiation 1001, .ifdown, .rxExit, .ifdownDone])
    (fun n => (n.peer Sample.first).valid && !n.log.isEmpty && !n.bifup && n.rxpid == 0)
    (by decide +kernel)
  simp only [Bool.and_eq_true, Bool.not_eq_true', beq_iff_eq] at hrun
  obtain ⟨⟨⟨hvalid, hlog⟩, hbifup⟩, hrxpid⟩ := hrun
  refine ⟨n, hn, ?_, hvalid, ((down_still Crypto.plain hn hbifup hrxpid).1 Sample.first).2.2.1⟩
  intro hc
  rw [hc] at hlog
  cases hlog

end Kernel

end NuttxWireguard
