/-
What the in-kernel driver has computed from its keys.

The driver stores with each peer the agreement of the static keys and the two keys for MACs and
cookies, and two more of the latter for itself.  A new private key makes all of them stale at once;
`wg_set_if` sets every peer up again.  So whatever is asked for, in whatever order, what is stored
belongs to the keys stored beside it, and a response or a MAC is never computed with the key before.
-/
import NuttxWireguard.Kernel.Kept

namespace NuttxWireguard.Kernel

open Lib

variable {cfg : Config} (c : Crypto)

/-- The stored results of a peer are those of its key. -/
structure DerivedFor (d : Device cfg) (p : Peer cfg) : Prop where
  dh : c.dh d.privateKey p.publicKey = some p.publicKeyDh
  mac1 : p.labelMac1Key = c.macKey p.publicKey Crypto.labelMac1
  cookie : p.labelCookieKey = c.macKey p.publicKey Crypto.labelCookie

/-- The stored results of a device, likewise. -/
structure Device.Derived (d : Device cfg) : Prop where
  labels : d.valid = true → d.labelMac1Key = c.macKey d.publicKey Crypto.labelMac1 ∧
    d.labelCookieKey = c.macKey d.publicKey Crypto.labelCookie
  peers : ∀ x, (d.peers x).valid = true → DerivedFor c d (d.peers x)

variable {c} {d e : Device cfg} {p q : Peer cfg}

/-- They depend on the private key and on what configuration decides. -/
theorem DerivedFor.congr (h : DerivedFor c d p) (hprivate : e.privateKey = d.privateKey)
    (hkey : q.publicKey = p.publicKey) (hdh : q.publicKeyDh = p.publicKeyDh)
    (hmac1 : q.labelMac1Key = p.labelMac1Key) (hcookie : q.labelCookieKey = p.labelCookieKey) :
    DerivedFor c e q where
  dh := by rw [hprivate, hkey, hdh, h.dh]
  mac1 := by rw [hmac1, hkey, h.mac1]
  cookie := by rw [hcookie, hkey, h.cookie]

theorem DerivedFor.of_setup (h : DerivedFor c d p) (hprivate : e.privateKey = d.privateKey)
    (hsetup : q.setup = p.setup) : DerivedFor c e q :=
  h.congr hprivate (congrArg Setup.publicKey hsetup) (congrArg Setup.publicKeyDh hsetup)
    (congrArg Setup.labelMac1Key hsetup) (congrArg Setup.labelCookieKey hsetup)

theorem Device.Derived.zero : Device.Derived c (Device.zero : Device cfg) where
  labels := fun h => absurd h Bool.false_ne_true
  peers := fun _ h => absurd h Bool.false_ne_true

/-- Traffic keeps them. -/
theorem Device.Derived.carried (h : Device.Derived c d) (hde : d.Carried e) :
    Device.Derived c e := by
  have hvalid : e.valid = d.valid := congrArg Identity.valid hde.identity
  have hprivate : e.privateKey = d.privateKey := congrArg Identity.privateKey hde.identity
  have hpublic : e.publicKey = d.publicKey := congrArg Identity.publicKey hde.identity
  have hmac1 : e.labelMac1Key = d.labelMac1Key := congrArg Identity.labelMac1Key hde.identity
  have hcookie : e.labelCookieKey = d.labelCookieKey :=
    congrArg Identity.labelCookieKey hde.identity
  constructor
  · rw [hvalid, hmac1, hcookie, hpublic]
    exact h.labels
  · intro x hx
    rw [hde.valid] at hx
    exact (h.peers x hx).of_setup hprivate (hde.setup x)

/-- A record is written whose results are its own. -/
theorem Device.Derived.setPeer (h : Device.Derived c d) {x : Fin cfg.maxPeers}
    (hp : p.valid = true → DerivedFor c d p) : Device.Derived c (d.setPeer x p) := by
  refine ⟨h.labels, fun y hy => ?_⟩
  by_cases hyx : y = x
  · rw [hyx, Device.setPeer_peers_self] at hy ⊢
    exact (hp hy).congr rfl rfl rfl rfl rfl
  · rw [Device.setPeer_peers_of_ne d p hyx] at hy ⊢
    exact (h.peers y hy).congr rfl rfl rfl rfl rfl

theorem wgPeerInit_derived {publicKey : Key} {psk : Option Key}
    (h : (wgPeerInit c d publicKey psk).valid = true) :
    DerivedFor c d (wgPeerInit c d publicKey psk) := by
  unfold wgPeerInit at h ⊢
  split at h
  · cases h
  · rename_i hvalid
    rw [if_neg hvalid]
    split at h
    · cases h
    · rename_i dh hdh
      exact ⟨hdh, rfl, rfl⟩

/-! ### Every step -/

theorem wgDeviceInit_labels (env : Env cfg) (privateKey : Key) :
    let d := wgDeviceInit c env privateKey
    d.valid = true → d.labelMac1Key = c.macKey d.publicKey Crypto.labelMac1 ∧
      d.labelCookieKey = c.macKey d.publicKey Crypto.labelCookie := by
  intro d hvalid
  simp only [d] at hvalid ⊢
  unfold wgDeviceInit at hvalid ⊢
  dsimp only at hvalid ⊢
  split at hvalid
  · cases hvalid
  · exact ⟨rfl, rfl⟩

theorem restorePeer_derived {saved : Peer cfg} (h : (restorePeer c d saved).valid = true) :
    DerivedFor c d (restorePeer c d saved) := by
  unfold restorePeer at h ⊢
  dsimp only at h ⊢
  generalize (if saved.presharedKey = Bytes.zero 32 then none else some saved.presharedKey) = psk
    at h ⊢
  split
  · rename_i hsaved
    rw [if_pos hsaved] at h
    cases h
  rename_i hsaved
  rw [if_neg hsaved] at h
  by_cases hinit : (wgPeerInit c d saved.publicKey psk).valid = true
  · rw [if_pos hinit]
    exact (wgPeerInit_derived hinit).congr rfl rfl rfl rfl rfl
  · rw [if_neg hinit] at h
    exact absurd h hinit

/-- **A new private key has every result computed again.** -/
theorem setPrivateKey_derived (env : Env cfg) (n : Netdev cfg) (privateKey : Key)
    (hn : Device.Derived c n.wg) : Device.Derived c (setPrivateKey c env n privateKey).1.wg := by
  have hlabels := wgDeviceInit_labels (c := c) env privateKey
  unfold setPrivateKey
  dsimp only
  split
  · exact hn
  split
  · exact hn
  split
  · refine ⟨hlabels, fun x hx => ?_⟩
    rw [wgDeviceInit_peers c env privateKey] at hx
    cases hx
  · exact ⟨hlabels, fun x hx => (restorePeer_derived hx).congr rfl rfl rfl rfl rfl⟩

theorem applyPeerReq_derived {n : Netdev cfg} (req : PeerReq) (created : Bool)
    (allowed : List AllowedIp) (h : DerivedFor c d p) :
    DerivedFor c d (applyPeerReq n req created allowed p) := by
  have hsetup := applyPeerReq_setup n req created allowed p
  exact h.congr rfl (congrArg Setup.publicKey hsetup) (congrArg Setup.publicKeyDh hsetup)
    (congrArg Setup.labelMac1Key hsetup) (congrArg Setup.labelCookieKey hsetup)

theorem wgSetPeer_derived (n : Netdev cfg) (req : PeerReq) (hn : Device.Derived c n.wg) :
    Device.Derived c (wgSetPeer c n req).1.wg := by
  rcases wgSetPeer_outcomes c n req with ⟨err, h⟩ | ⟨x, allowed, -, -, ⟨hself, h⟩ |
    ⟨-, -, hcreated, h⟩ | ⟨-, -, hcreated, h⟩⟩
  · rw [h]
    exact hn
  · rw [h]
    have hx := hn.peers x (valid_of_peerByPubkey hself)
    refine hn.setPeer fun _ => applyPeerReq_derived req false allowed ?_
    unfold rekeyedPeer
    split
    · exact hx.congr rfl rfl rfl rfl rfl
    · exact hx
  · rw [h]
    exact hn.setPeer fun _ =>
      applyPeerReq_derived req true allowed (wgPeerInit_derived hcreated)
  · rw [h]
    refine hn.setPeer fun hvalid => ?_
    rw [hcreated] at hvalid
    cases hvalid

theorem wgDelPeer_derived (n : Netdev cfg) (publicKey : Key) (hn : Device.Derived c n.wg) :
    Device.Derived c (wgDelPeer n publicKey).1.wg := by
  unfold wgDelPeer
  split
  · exact hn
  split
  · exact hn
  · exact hn.setPeer fun hvalid => (by cases hvalid)

/-- **What is stored belongs to the keys beside it**, in every reachable state. -/
theorem derived {n : Netdev cfg} (h : ReachableState c n) : Device.Derived c n.wg := by
  refine Reachable.invariant (I := fun n : Netdev cfg => Device.Derived c n.wg) h ?_ ?_
  · rintro n ⟨i, rfl⟩
    exact .zero
  · intro n e n' hs hn
    exact step_device_invariant c (fun _ _ hde hd => hd.carried hde)
      (fun env n k => setPrivateKey_derived env n k) wgSetPeer_derived wgDelPeer_derived hs hn

/-- The driver with a key and a peer. -/
theorem derived_sample : ∃ n : Netdev Sample.config,
    (n.wg.peers Sample.first).valid = true ∧ Device.Derived Crypto.plain n.wg := by
  obtain ⟨n, hn, hvalid⟩ := Sample.exists_reachable Sample.bringUp
    (fun n => (n.wg.peers Sample.first).valid) (by decide +kernel)
  exact ⟨n, hvalid, derived hn⟩

end NuttxWireguard.Kernel
