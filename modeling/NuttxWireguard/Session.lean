/-
What a driver does to its sessions.

Both drivers are large, and most of what they write (scratch buffers, counters, cookies,
timers, half-built handshakes) has no bearing on which sessions exist and where packets
go.  `View` keeps the rest: for each peer whether there is one, the three keypairs, the
configured and the learned endpoint and the greatest timestamp, and beside them the log.

`Micro` lists everything a driver ever does to a view outside configuration, one
constructor for each thing.  That the functions of a driver only take such steps is
proved once, function by function; what holds over runs is then proved of `Micro`.
-/
import NuttxWireguard.Observation
import Mathlib.Logic.Relation

namespace NuttxWireguard

open Lib

variable {cfg : Config}

/-! ### Views -/

/-- What matters of a peer. -/
structure PeerView (cfg : Config) where
  valid : Bool
  slots : Slots (Keypair cfg)
  connectIp : U32
  connectPort : U16
  ip : U32
  port : U16
  greatestTimestamp : Bytes 12

/-- What matters of a driver. -/
structure View (cfg : Config) where
  peers : Fin cfg.maxPeers → PeerView cfg
  nextSid : Nat
  log : List (Obs cfg.maxPeers)

/-- A slot holds a session. -/
abbrev full (kp : Keypair cfg) : Bool := kp.valid

@[simp] theorem full_zero : full (Keypair.zero : Keypair cfg) = false := rfl

def Peer.view (p : Peer cfg) : PeerView cfg where
  valid := p.valid
  slots := p.keypair
  connectIp := p.connectIp
  connectPort := p.connectPort
  ip := p.ip
  port := p.port
  greatestTimestamp := p.greatestTimestamp

namespace View

def setPeer (v : View cfg) (x : Fin cfg.maxPeers) (p : PeerView cfg) : View cfg :=
  { v with peers := Function.update v.peers x p }

def observe (v : View cfg) (o : Obs cfg.maxPeers) : View cfg := { v with log := o :: v.log }

@[simp] theorem setPeer_peers_self (v : View cfg) (x : Fin cfg.maxPeers) (p : PeerView cfg) :
    (v.setPeer x p).peers x = p := by
  simp [setPeer]

theorem setPeer_peers_of_ne (v : View cfg) {x y : Fin cfg.maxPeers} (p : PeerView cfg)
    (h : y ≠ x) : (v.setPeer x p).peers y = v.peers y := by
  simp [setPeer, h]

theorem setPeer_peers (v : View cfg) (x y : Fin cfg.maxPeers) (p : PeerView cfg) :
    (v.setPeer x p).peers y = if y = x then p else v.peers y := by
  by_cases h : y = x
  · rw [if_pos h, h, setPeer_peers_self]
  · rw [if_neg h, setPeer_peers_of_ne v p h]

@[simp] theorem setPeer_nextSid (v : View cfg) (x : Fin cfg.maxPeers) (p : PeerView cfg) :
    (v.setPeer x p).nextSid = v.nextSid := rfl

@[simp] theorem setPeer_log (v : View cfg) (x : Fin cfg.maxPeers) (p : PeerView cfg) :
    (v.setPeer x p).log = v.log := rfl

@[simp] theorem setPeer_self (v : View cfg) (x : Fin cfg.maxPeers) :
    v.setPeer x (v.peers x) = v := by
  simp [setPeer]

@[simp] theorem setPeer_setPeer (v : View cfg) (x : Fin cfg.maxPeers) (p q : PeerView cfg) :
    (v.setPeer x p).setPeer x q = v.setPeer x q := by
  simp [setPeer]

@[simp] theorem observe_peers (v : View cfg) (o : Obs cfg.maxPeers) :
    (v.observe o).peers = v.peers := rfl

@[simp] theorem observe_nextSid (v : View cfg) (o : Obs cfg.maxPeers) :
    (v.observe o).nextSid = v.nextSid := rfl

@[simp] theorem observe_log (v : View cfg) (o : Obs cfg.maxPeers) :
    (v.observe o).log = o :: v.log := rfl

end View

/-- The view of a driver that has not done anything yet. -/
structure View.Fresh (v : View cfg) : Prop where
  slots : ∀ x, (v.peers x).slots = fun _ => Keypair.zero
  greatestTimestamp : ∀ x, (v.peers x).greatestTimestamp = Bytes.zero 12
  log : v.log = []

/-! ### Sessions -/

/-- A keypair as a finished handshake leaves it. -/
structure NewSession (sid time : Nat) (kp : Keypair cfg) : Prop where
  valid : kp.valid = true
  receivingValid : kp.receivingValid = true
  millis : kp.keypairMillis = sysNow time
  sendingCounter : kp.sendingCounter = 0
  replayCounter : kp.replayCounter = 0
  replayBitmap : kp.replayBitmap = fun _ => 0
  lastRx : kp.lastRx = 0
  sid : kp.sid = sid
  born : kp.born = time

/-- The keypair of an accepted packet: its window moved, its arrival noted. -/
def receivedKeypair (now : U32) (kp : Keypair cfg) (counter : U64) : Keypair cfg :=
  { (Kernel.wgCheckReplay kp counter).2 with lastRx := now }

theorem receivedKeypair_cases (now : U32) (kp : Keypair cfg) (counter : U64) :
    ∃ bitmap top, receivedKeypair now kp counter
      = { kp with replayBitmap := bitmap, replayCounter := top, lastRx := now } := by
  unfold receivedKeypair
  rcases wgCheckReplay_cases kp counter with h | ⟨bitmap, top, h⟩
  · exact ⟨kp.replayBitmap, kp.replayCounter, by rw [h]⟩
  · exact ⟨bitmap, top, by rw [h]⟩

@[simp] theorem receivedKeypair_sid (now : U32) (kp : Keypair cfg) (counter : U64) :
    (receivedKeypair now kp counter).sid = kp.sid := by
  obtain ⟨_, _, h⟩ := receivedKeypair_cases now kp counter
  rw [h]

/-- What one step at time `time` may do, outside configuration. -/
inductive Micro (time : Nat) : View cfg → View cfg → Prop
  /-- A keypair is destroyed. -/
  | drop (v : View cfg) (x : Fin cfg.maxPeers) (s : Slot) :
      Micro time v (v.setPeer x { v.peers x with slots := (v.peers x).slots.put s Keypair.zero })
  /-- A packet is encrypted under the keypair chosen for sending. -/
  | encrypt (v : View cfg) (x : Fin cfg.maxPeers) (kp : Keypair cfg) (lastTx : U32)
      (hkp : kp = (v.peers x).slots (sendingSlot (v.peers x).slots))
      (husable : sendingUsable kp = true)
      (hlimit : sendingExhausted (sysNow time) kp = false) :
      Micro time v
        ((v.setPeer x { v.peers x with
          slots := (v.peers x).slots.put (sendingSlot (v.peers x).slots)
            { kp with sendingCounter := kp.sendingCounter + 1, lastTx := lastTx } }).observe
          (.encrypted x kp.sid kp.initiator kp.sendingKey kp.sendingCounter time))
  /-- A datagram authenticates but the replay window refuses it. -/
  | refuse (v : View cfg) (x : Fin cfg.maxPeers) (s : Slot) (kp : Keypair cfg) (counter : U64)
      (hkp : kp = (v.peers x).slots s) (hvalid : kp.valid = true)
      (hstale : (Kernel.wgCheckReplay kp counter).1 = false) :
      Micro time v (v.observe (.opened x kp.sid counter false time))
  /-- A datagram is accepted. -/
  | accept (v : View cfg) (x : Fin cfg.maxPeers) (s : Slot) (kp : Keypair cfg) (counter : U64)
      (ip : U32) (port : U16) (hkp : kp = (v.peers x).slots s) (hvalid : kp.valid = true)
      (hlimit : receivingExhausted (sysNow time) kp = false)
      (hfresh : (Kernel.wgCheckReplay kp counter).1 = true) :
      Micro time v
        ((v.setPeer x { v.peers x with
          ip := ip
          port := port
          slots :=
            let σ := (v.peers x).slots.put s (receivedKeypair (sysNow time) kp counter)
            if s = .next then σ.promote Keypair.zero else σ }).observe
          (.opened x kp.sid counter true time))
  /-- A session starts. -/
  | start (v : View cfg) (x : Fin cfg.maxPeers) (kp : Keypair cfg)
      (hnew : NewSession v.nextSid time kp) :
      Micro time v
        (({ v with nextSid := v.nextSid + 1 }.setPeer x { v.peers x with
          slots :=
            if kp.initiator then (v.peers x).slots.installCurr Keypair.zero full kp
            else (v.peers x).slots.installNext Keypair.zero kp }).observe
          (.started x v.nextSid kp.initiator kp.sendingKey time))
  /-- An initiation is sent to the live endpoint. -/
  | initiation (v : View cfg) (x : Fin cfg.maxPeers) :
      Micro time v (v.observe (.initiation x (v.peers x).ip (v.peers x).port time))
  /-- An initiation is accepted: its timestamp is the greatest. -/
  | acceptInit (v : View cfg) (x : Fin cfg.maxPeers) (timestamp : Bytes 12) (ip : U32)
      (port : U16)
      (hnew : beNat (v.peers x).greatestTimestamp.toList < beNat timestamp.toList) :
      Micro time v
        ((v.setPeer x { v.peers x with
          ip := ip
          port := port
          greatestTimestamp := timestamp }).observe (.initAccepted x timestamp))
  /-- A response is accepted. -/
  | acceptResponse (v : View cfg) (x : Fin cfg.maxPeers) (ip : U32) (port : U16) :
      Micro time v
        ((v.setPeer x { v.peers x with ip := ip, port := port }).observe (.responseAccepted x))
  /-- A cookie is accepted. -/
  | acceptCookie (v : View cfg) (x : Fin cfg.maxPeers) :
      Micro time v (v.observe (.cookieAccepted x))
  /-- The live endpoint falls back to the configured one. -/
  | resetEndpoint (v : View cfg) (x : Fin cfg.maxPeers) :
      Micro time v
        (v.setPeer x { v.peers x with
          ip := (v.peers x).connectIp
          port := (v.peers x).connectPort })
  /-- A packet is handed to the network stack. -/
  | inject (v : View cfg) (x : Fin cfg.maxPeers) (packet : List Byte) :
      Micro time v (v.observe (.injected x packet))

/-- Any number of them. -/
abbrev Path (time : Nat) : View cfg → View cfg → Prop := Relation.ReflTransGen (Micro time)

/-- What every single step keeps, a path keeps. -/
theorem Path.invariant {time : Nat} {I : View cfg → Prop} {v w : View cfg} (h : Path time v w)
    (hkeep : ∀ v w, Micro time v w → I v → I w) (hv : I v) : I w := by
  induction h with
  | refl => exact hv
  | tail _ hs ih => exact hkeep _ _ hs ih

/-- A reflexive and transitive relation every single step respects relates a path's ends. -/
theorem Path.relates {time : Nat} {R : View cfg → View cfg → Prop} {v w : View cfg}
    (h : Path time v w) (hrefl : ∀ v, R v v) (htrans : ∀ {a b c}, R a b → R b c → R a c)
    (hstep : ∀ v w, Micro time v w → R v w) : R v w := by
  induction h with
  | refl => exact hrefl v
  | tail _ hs ih => exact htrans ih (hstep _ _ hs)

theorem Path.trans_eq {time : Nat} {u v w : View cfg} (h : Path time u v) (e : w = v) :
    Path time u w := e ▸ h

/-- If each peer can be brought to its target on its own, all can. -/
theorem View.each_peer {R : View cfg → View cfg → Prop} {v : View cfg} (w : Fin cfg.maxPeers → PeerView cfg)
    (h : ∀ x u, u.peers x = v.peers x → Relation.ReflTransGen R u (u.setPeer x (w x))) :
    Relation.ReflTransGen R v { v with peers := w } := by
  have key : ∀ l : List (Fin cfg.maxPeers), l.Nodup →
      Relation.ReflTransGen R v { v with peers := fun x => if x ∈ l then w x else v.peers x } := by
    intro l
    induction l with
    | nil =>
        intro _
        simp only [List.not_mem_nil, if_false]
        exact .refl
    | cons y l ih =>
        intro hnd
        obtain ⟨hy, hl⟩ := List.nodup_cons.mp hnd
        refine (ih hl).trans ?_
        have hstep := h y { v with peers := fun x => if x ∈ l then w x else v.peers x }
          (by simp [hy])
        refine Eq.subst (motive := fun u => Relation.ReflTransGen R _ u) ?_ hstep
        simp only [View.setPeer, View.mk.injEq, and_self, and_true]
        funext x
        by_cases hx : x = y
        · subst hx; simp
        · simp [hx]
  have hall := key (List.finRange cfg.maxPeers) (List.nodup_finRange _)
  simpa using hall

/-- The steps to a peer without its keypairs, back at its configured endpoint. -/
theorem forget_path {time : Nat} (v : View cfg) (x : Fin cfg.maxPeers) :
    Path time v (v.setPeer x { v.peers x with
      ip := (v.peers x).connectIp
      port := (v.peers x).connectPort
      slots := fun _ => Keypair.zero }) := by
  have hdrop : ∀ (w : View cfg) (s : Slot), Path time w
      (w.setPeer x { w.peers x with slots := (w.peers x).slots.put s Keypair.zero }) :=
    fun w s => .single (.drop w x s)
  refine Path.trans_eq ((((hdrop v .next).trans (hdrop _ .curr)).trans (hdrop _ .prev)).trans
    (.single (.resetEndpoint _ x))) ?_
  simp only [View.setPeer_peers_self, View.setPeer_setPeer]
  congr 2
  funext s
  cases s <;> rfl

theorem sendingUsable_valid {kp : Keypair cfg} (h : sendingUsable kp = true) :
    kp.valid = true := by
  unfold sendingUsable at h
  simp only [Bool.and_eq_true] at h
  exact h.1

/-- A peer record without sessions and without a timestamp. -/
def Unused (p : Peer cfg) : Prop :=
  p.keypair = (fun _ => Keypair.zero) ∧ p.greatestTimestamp = Bytes.zero 12

theorem unused_zero : Unused (Peer.zero : Peer cfg) :=
  ⟨by funext s; cases s <;> rfl, rfl⟩

/-! ### The core's functions on views -/

section Core

variable (p : Peer cfg) (s : Slot)

@[simp] theorem keypair_setKeypair (kp : Keypair cfg) :
    (p.setKeypair s kp).keypair = p.keypair.put s kp := by
  funext t
  by_cases h : t = s
  · rw [h, Peer.keypair_setKeypair_self, Slots.put_self]
  · rw [Peer.keypair_setKeypair_of_ne p kp h, Slots.put_of_ne h]

@[simp] theorem setKeypair_view (kp : Keypair cfg) :
    (p.setKeypair s kp).view = { p.view with slots := p.keypair.put s kp } := by
  rw [← keypair_setKeypair]
  cases s <;> rfl

theorem keypairDestroy_view :
    (keypairDestroy p s).view = { p.view with slots := p.keypair.put s Keypair.zero } :=
  setKeypair_view p s Keypair.zero

theorem keypairUpdate_view :
    (keypairUpdate p s).view = { p.view with
      slots := if s = .next then p.keypair.promote Keypair.zero else p.keypair } := by
  unfold keypairUpdate
  by_cases hs : s = .next
  · rw [if_pos hs, if_pos hs, keypairDestroy_view]
    simp only [Peer.view, PeerView.mk.injEq, true_and, and_self, and_true]
    funext t
    cases t <;> rfl
  · rw [if_neg hs, if_neg hs]
    rfl

/-- The peer that accepted a datagram moved the window, noted the arrival and where it came
from, and promoted a keypair that was waiting. -/
theorem acceptPacket_view (now : U32) (counter : U64) (addr : U32) (port : U16) (dataLen : Nat) :
    (acceptPacket now p s (Kernel.wgCheckReplay (p.keypair s) counter).2 addr port dataLen).view =
      { p.view with
        ip := addr
        port := port
        slots :=
          let σ := p.keypair.put s (receivedKeypair now (p.keypair s) counter)
          if s = .next then σ.promote Keypair.zero else σ } := by
  have hsend : ∀ (b : Prop) [Decidable b] (q : Peer cfg),
      (if b then { q with sendHandshake := true } else q).view = q.view := by
    intro b _ q
    split <;> rfl
  unfold acceptPacket
  dsimp only
  rw [hsend, keypairUpdate_view]
  have hk : ∀ kp : Keypair cfg, Peer.keypair { p.setKeypair s kp with
      ip := addr
      port := port
      lastRx := now
      rxBytes := p.rxBytes + BitVec.ofNat 64 dataLen } = p.keypair.put s kp := by
    intro kp
    rw [← keypair_setKeypair]
    rfl
  rw [hk]
  cases s <;> rfl

theorem addKeypair_view (kp : Keypair cfg) :
    (addKeypair p kp).view = { p.view with
      slots :=
        if kp.initiator then p.keypair.installCurr Keypair.zero full kp
        else p.keypair.installNext Keypair.zero kp } := by
  unfold addKeypair
  by_cases hi : kp.initiator = true
  · rw [if_pos hi, if_pos hi]
    by_cases hn : p.nextKeypair.valid = true
    · simp only [if_pos hn]
      simp only [Peer.view, keypairDestroy, Peer.setKeypair, PeerView.mk.injEq, true_and, and_self,
        and_true]
      funext t
      cases t <;> simp [Peer.keypair, Slots.installCurr, hn]
    · simp only [if_neg hn]
      simp only [Peer.view, PeerView.mk.injEq, true_and, and_self, and_true]
      funext t
      cases t <;> simp [Peer.keypair, Slots.installCurr, hn]
  · rw [if_neg hi, if_neg hi, keypairDestroy_view]
    simp only [Peer.view, PeerView.mk.injEq, true_and, and_self, and_true]
    funext t
    cases t <;> rfl

end Core

theorem wgForgetPeer_view (p : Peer cfg) : (wgForgetPeer p).view = { p.view with
    ip := p.connectIp
    port := p.connectPort
    slots := fun _ => Keypair.zero } := by
  simp only [wgForgetPeer, Peer.view, keypairDestroy, Peer.setKeypair, PeerView.mk.injEq, true_and,
    and_self, and_true]
  funext s
  cases s <;> rfl

/-- The two expiry rules drop keypairs and reset the endpoint. -/
theorem expirePeer_path {time : Nat} (now : U32) (v : View cfg) (x : Fin cfg.maxPeers)
    {p : Peer cfg} (hp : v.peers x = p.view) :
    Path time v (v.setPeer x (wgExpirePeer now p).view) := by
  have hforget : Path time v (v.setPeer x (wgForgetPeer p).view) := by
    refine Path.trans_eq (forget_path v x) ?_
    rw [wgForgetPeer_view, hp]
    rfl
  have hdrop : ∀ q : Peer cfg, Path time v (v.setPeer x q.view) → ∀ (b : Prop) [Decidable b],
      Path time v (v.setPeer x (if b then keypairDestroy q .curr else q).view) := by
    intro q hq b _
    split
    · refine hq.trans (Path.trans_eq (.single (.drop (v.setPeer x q.view) x .curr)) ?_)
      rw [View.setPeer_peers_self, View.setPeer_setPeer, keypairDestroy_view]
      rfl
    · exact hq
  unfold wgExpirePeer
  dsimp only
  refine hdrop _ ?_ _
  split
  · exact hforget
  · exact Path.trans_eq .refl ((congrArg (v.setPeer x) hp.symm).trans (View.setPeer_self v x))

/-- Taking the interface up sets endpoints only. -/
theorem ifupPeer_path {time : Nat} {v : View cfg} (x : Fin cfg.maxPeers) {p : Peer cfg}
    (hp : v.peers x = p.view) : Path time v (v.setPeer x (wgIfupPeer p).view) := by
  unfold wgIfupPeer
  split
  · refine Path.trans_eq (.single (.resetEndpoint v x)) ?_
    rw [hp]
    rfl
  · exact Path.trans_eq .refl ((congrArg (v.setPeer x) hp.symm).trans (View.setPeer_self v x))

theorem keypairByIndex_some {p : Peer cfg} {idx : U32} {s : Slot}
    (h : keypairByIndex p idx = some s) :
    (p.keypair s).valid = true ∧ (p.keypair s).localIndex = idx := by
  unfold keypairByIndex at h
  split at h
  · cases h; assumption
  · split at h
    · cases h; assumption
    · split at h
      · cases h; assumption
      · cases h

/-- A timestamp that is not replayed is greater than the greatest. -/
theorem lt_of_not_timestampReplayed {p : Peer cfg} {t : Bytes 12}
    (h : timestampReplayed p t = false) :
    beNat p.greatestTimestamp.toList < beNat t.toList := by
  unfold timestampReplayed at h
  have hpos : memcmp t.toList p.greatestTimestamp.toList > 0 := by simpa using h
  exact (memcmp_pos _ _ (by simp)).mp hpos

/-- Accepting a response leaves the view of the peer. -/
theorem processResponse_view {c : Crypto} {d : Device cfg} {p q : Peer cfg} {msg : MsgResponse}
    (h : processResponse c d p msg = some q) : q.view = p.view := by
  unfold processResponse at h
  dsimp only at h
  split at h
  · cases h
  · simp only [Option.bind_eq_bind, Option.bind_eq_some_iff, Option.some.injEq] at h
    obtain ⟨_, _, _, _, _, _, rfl⟩ := h
    rfl

/-- So does accepting a cookie. -/
theorem processCookie_view {c : Crypto} {now : U32} {p q : Peer cfg} {msg : MsgCookie}
    (h : processCookie c now p msg = some q) : q.view = p.view := by
  unfold processCookie at h
  split at h
  · cases h
  · split at h
    · cases h
    · cases h
      rfl

theorem peerCookie_peers (c : Crypto) (now : U32) (secret : Key) (d : Device cfg) (source : List Byte) :
    (peerCookie c now secret d source).1.peers = d.peers := by
  unfold peerCookie
  dsimp only
  split <;> rfl

/-- The keypair a handshake yields is new. -/
theorem sessionKeypair_new (c : Crypto) (sid time : Nat) (hs : Handshake) (initiator : Bool) :
    NewSession sid time
      (sessionKeypair c (sysNow time) sid time hs initiator : Keypair cfg) :=
  ⟨rfl, rfl, rfl, rfl, rfl, rfl, rfl, rfl, rfl⟩

end NuttxWireguard
