/-
An index names one session.

A datagram carries the local index of the session it belongs to, and the answer to an
initiation that of the handshake.  In every reachable state no two of the indices held are
equal, however the random source draws, so the lookup finds the keypair, or the handshake,
that answers to an index, and there is no other.
-/
import NuttxWireguard.Kernel.Traffic

namespace NuttxWireguard.Kernel

open Lib

variable {cfg : Config} (c : Crypto) (env : Env cfg)

/-! ### Configuration -/

theorem wgPeerInit_blank (d : Device cfg) (publicKey : Key) (psk : Option Key) :
    (wgPeerInit c d publicKey psk).Blank := by
  unfold wgPeerInit
  split
  · exact Peer.blank_zero
  · split
    · exact Peer.blank_zero
    · exact ⟨Peer.blank_zero.slots, rfl⟩

theorem restorePeer_blank (d : Device cfg) (saved : Peer cfg) : (restorePeer c d saved).Blank := by
  unfold restorePeer
  dsimp only
  split
  · exact Peer.blank_zero
  · generalize (if saved.presharedKey = Bytes.zero 32 then none else some saved.presharedKey) = psk
    have hinit := wgPeerInit_blank c d saved.publicKey psk
    split
    · refine ⟨Eq.trans ?_ hinit.slots, hinit.handshake⟩
      funext s
      cases s <;> rfl
    · exact hinit

/-- A new private key leaves no session of any peer. -/
theorem setPrivateKey_unambiguous (n : Netdev cfg) (privateKey : Key) (hn : n.wg.Unambiguous) :
    (setPrivateKey c env n privateKey).1.wg.Unambiguous := by
  rcases setPrivateKey_cases c env n privateKey with ⟨-, err, h⟩ | ⟨-, d, err, h, hd⟩
  · rw [h]
    exact hn
  · rw [h]
    refine Device.Unambiguous.of_blank fun x => ?_
    rcases hd with hd | ⟨d', hd⟩
    · rw [hd]
      exact Peer.blank_zero
    · rw [hd]
      exact restorePeer_blank c d' (n.peer x)

/-- A request edits a peer beside its sessions. -/
theorem applyPeerReq_sessions (n : Netdev cfg) (req : PeerReq) (created : Bool)
    (allowed : List AllowedIp) (p : Peer cfg) :
    (applyPeerReq n req created allowed p).keypair = p.keypair ∧
      (applyPeerReq n req created allowed p).handshake = p.handshake := by
  have hrest : ∀ (b b' : Bool) (k : U16) (f : Fin cfg.maxAips → AllowedIp) (q : Peer cfg),
      let r := if b' then
        { (if b then { q with keepaliveInterval := k } else q) with allowedSourceIps := f }
      else (if b then { q with keepaliveInterval := k } else q)
      r.keypair = q.keypair ∧ r.handshake = q.handshake := by
    intro b b' k f q
    cases b <;> cases b' <;> refine ⟨?_, rfl⟩ <;> funext s <;> cases s <;> rfl
  unfold applyPeerReq
  dsimp only
  rw [(hrest _ _ _ _ _).1, (hrest _ _ _ _ _).2]
  split
  · refine ⟨?_, ?_⟩
    · funext s
      split <;> split <;> cases s <;> rfl
    · split <;> split <;> rfl
  · exact ⟨rfl, rfl⟩

theorem rekeyedPeer_sessions (req : PeerReq) (p : Peer cfg) :
    (rekeyedPeer req p).keypair = p.keypair ∧ (rekeyedPeer req p).handshake = p.handshake := by
  unfold rekeyedPeer
  split
  · refine ⟨?_, rfl⟩
    funext s
    cases s <;> rfl
  · exact ⟨rfl, rfl⟩

theorem wgSetPeer_unambiguous (n : Netdev cfg) (req : PeerReq) (hn : n.wg.Unambiguous) :
    (wgSetPeer c n req).1.wg.Unambiguous := by
  have hcreated : (createdPeer c n req).Blank := wgPeerInit_blank c _ _ _
  rcases wgSetPeer_outcomes c n req with ⟨err, h⟩ | ⟨x, allowed, -, -, ⟨-, h⟩ | ⟨-, -, -, h⟩ |
    ⟨-, -, -, h⟩⟩
  · rw [h]
    exact hn
  · rw [h]
    have hedit := applyPeerReq_sessions n req false allowed (rekeyedPeer req (n.peer x))
    have hrekeyed := rekeyedPeer_sessions req (n.peer x)
    refine hn.setPeer ?_
    rw [Peer.indices_congr (hedit.1.trans hrekeyed.1) (hedit.2.trans hrekeyed.2)]
    exact .refl _
  · rw [h]
    have hedit := applyPeerReq_sessions n req true allowed (createdPeer c n req)
    exact hn.clear ⟨hedit.1.trans hcreated.slots, hedit.2.trans hcreated.handshake⟩
  · rw [h]
    exact hn.clear hcreated

theorem wgDelPeer_unambiguous (n : Netdev cfg) (publicKey : Key) (hn : n.wg.Unambiguous) :
    (wgDelPeer n publicKey).1.wg.Unambiguous := by
  unfold wgDelPeer
  split
  · exact hn
  split
  · exact hn
  · exact hn.clear Peer.blank_zero

/-- **In every reachable state the indices are unambiguous.** -/
theorem unambiguous {n : Netdev cfg} (h : ReachableState c n) : n.wg.Unambiguous := by
  refine Reachable.invariant (I := fun n : Netdev cfg => n.wg.Unambiguous) h ?_ ?_
  · rintro n ⟨i, rfl⟩
    exact .of_blank fun x => Peer.blank_zero
  · intro n e n' hs hn
    exact step_device_invariant c (fun _ _ hd => hd.indices)
      (fun env n k => setPrivateKey_unambiguous c env n k) (wgSetPeer_unambiguous c)
      wgDelPeer_unambiguous hs hn

/-- **Every reachable state of the driver tells received indices apart.** -/
theorem demultiplexes {n : Netdev cfg} (h : ReachableState c n) : Demultiplexes n.wg :=
  .of_unambiguous (unambiguous c h)

/-- The indices are told apart at a state where a session waits. -/
theorem demultiplexes_waiting : ∃ n : Netdev Sample.config,
    (n.peer Sample.first).nextKeypair.valid = true ∧ Demultiplexes n.wg := by
  obtain ⟨n, hn, hvalid⟩ := Sample.exists_reachable (Sample.bringUp ++ [Sample.rxInitiation 1001])
    (fun n => (n.peer Sample.first).nextKeypair.valid) (by decide +kernel)
  exact ⟨n, hvalid, demultiplexes Crypto.plain hn⟩

end NuttxWireguard.Kernel
