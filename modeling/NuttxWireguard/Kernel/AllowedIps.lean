/-
Allowed-ips of different peers are disjoint.

A request is refused if one of its prefixes overlaps a prefix of another peer.  Two prefixes
overlap if they agree under both masks, so prefixes that do not have no address in common,
whatever the masks.  With the allowed-ips a request keeps being its peer's own, no address is
ever allowed to two peers.  Then routing and the source check are two views of one relation,
and the order of the table does not matter.
-/
import NuttxWireguard.Kernel.Traffic
import NuttxWireguard.Routing

namespace NuttxWireguard.Kernel

open Lib

variable {cfg : Config} (c : Crypto) (env : Env cfg)

/-! ### A request's allowed-ips -/

/-- An address in two prefixes puts the one over the other. -/
theorem overlap_of_covers {ip mask addr : U32} {aip : AllowedIp}
    (hnew : (⟨true, ip &&& mask, mask⟩ : AllowedIp).covers addr = true)
    (hold : aip.covers addr = true) :
    aip.valid = true ∧ ip &&& (mask &&& aip.mask) = aip.ip &&& (mask &&& aip.mask) := by
  unfold AllowedIp.covers at hnew hold
  simp only [Bool.and_eq_true, decide_eq_true_eq] at hnew hold
  obtain ⟨-, hnew⟩ := hnew
  obtain ⟨hvalid, hold⟩ := hold
  have hnew : addr &&& mask = ip &&& mask := by
    rw [hnew, BitVec.and_assoc, BitVec.and_self]
  refine ⟨hvalid, ?_⟩
  calc ip &&& (mask &&& aip.mask)
      = (addr &&& mask) &&& aip.mask := by rw [hnew, BitVec.and_assoc]
    _ = (addr &&& aip.mask) &&& mask := by
        rw [BitVec.and_assoc, BitVec.and_comm mask, BitVec.and_assoc]
    _ = aip.ip &&& (mask &&& aip.mask) := by
        rw [hold, BitVec.and_assoc, BitVec.and_comm mask]

/-- **A prefix that overlaps none shares no address with another peer's.** -/
theorem not_covers_of_not_overlaps {n : Netdev cfg} {self : Option (Fin cfg.maxPeers)}
    {ip mask addr : U32} (h : wgAipOverlaps n self ip mask = false)
    (hcovers : (⟨true, ip &&& mask, mask⟩ : AllowedIp).covers addr = true) {y : Fin cfg.maxPeers}
    (hy : some y ≠ self) (hvalid : (n.peer y).valid = true) :
    sourceAllowed (n.peer y) addr = false := by
  by_contra hallowed
  obtain ⟨z, hz⟩ := sourceAllowed_iff.mp (eq_true_of_ne_false hallowed)
  obtain ⟨hentry, hoverlap⟩ := overlap_of_covers hcovers hz
  unfold wgAipOverlaps at h
  rw [List.any_eq_false] at h
  refine h y (List.mem_finRange y) ?_
  simp only [Bool.and_eq_true, decide_eq_true_eq, List.any_eq_true]
  exact ⟨⟨hvalid, hy⟩, z, List.mem_finRange z, hentry, hoverlap⟩

/-- What the loop adds to the entries it starts with is no other peer's. -/
theorem addAips_spec {n : Netdev cfg} {self : Option (Fin cfg.maxPeers)} {aips : List Aip} :
    ∀ {kept allowed : List AllowedIp}, addAips n self aips kept = .ok allowed →
      ∀ a ∈ allowed, a ∈ kept ∨ ∀ addr, a.covers addr = true →
        ∀ y, some y ≠ self → (n.peer y).valid = true → sourceAllowed (n.peer y) addr = false := by
  induction aips with
  | nil =>
      intro kept allowed h a ha
      cases h
      exact Or.inl ha
  | cons aip aips ih =>
      intro kept allowed h a ha
      unfold addAips at h
      dsimp only at h
      split at h
      · cases h
      split at h
      · cases h
      · rename_i hoverlap
        rcases ih h a ha with hmem | hnew
        · rcases List.mem_append.mp hmem with hmem | hmem
          · exact Or.inl hmem
          · rw [List.mem_singleton] at hmem
            subst hmem
            exact Or.inr fun addr hcovers y hy hvalid =>
              not_covers_of_not_overlaps (by simpa using hoverlap) hcovers hy hvalid
        · exact Or.inr hnew

/-- **The allowed-ips a request asks for are its peer's own or no other peer's.** -/
theorem requestedAips_spec {n : Netdev cfg} {self : Option (Fin cfg.maxPeers)} {req : PeerReq}
    {allowed : List AllowedIp} (h : requestedAips n self req = .ok allowed) {a : AllowedIp}
    (ha : a ∈ allowed) {addr : U32} (hcovers : a.covers addr = true) :
    (∃ x, self = some x ∧ sourceAllowed (n.peer x) addr = true) ∨
      ∀ y, some y ≠ self → (n.peer y).valid = true → sourceAllowed (n.peer y) addr = false := by
  unfold requestedAips at h
  split at h
  · cases h
    cases ha
  split at h
  · cases h
  · rcases addAips_spec h a ha with hkept | hnew
    · cases self with
      | none => cases hkept
      | some x =>
          dsimp only at hkept
          split at hkept
          · cases hkept
          · obtain ⟨hmem, -⟩ := List.mem_filter.mp hkept
            obtain ⟨z, -, rfl⟩ := List.mem_map.mp hmem
            exact Or.inl ⟨x, rfl, sourceAllowed_iff.mpr ⟨z, hcovers⟩⟩
    · exact Or.inr (hnew addr hcovers)

/-- A record allows what the request asks for, or what it allowed. -/
theorem sourceAllowed_applyPeerReq {n : Netdev cfg} {req : PeerReq} {created : Bool}
    {allowed : List AllowedIp} {p : Peer cfg} {addr : U32}
    (h : sourceAllowed (applyPeerReq n req created allowed p) addr = true) :
    (∃ a ∈ allowed, a.covers addr = true) ∨ sourceAllowed p addr = true := by
  obtain ⟨y, hy⟩ := sourceAllowed_iff.mp h
  have haips : (applyPeerReq n req created allowed p).allowedSourceIps =
      if req.has wgPeerHasAips then fun y : Fin cfg.maxAips => allowed.getD y AllowedIp.zero
      else p.allowedSourceIps :=
    congrArg Setup.allowedSourceIps (applyPeerReq_setup n req created allowed p)
  rw [haips] at hy
  split at hy
  · dsimp only at hy
    rw [List.getD_eq_getElem?_getD] at hy
    cases hentry : allowed[(y : Nat)]? with
    | none =>
        rw [hentry] at hy
        cases hy
    | some a =>
        rw [hentry] at hy
        exact Or.inl ⟨a, List.mem_of_getElem? hentry, hy⟩
  · exact Or.inr (sourceAllowed_iff.mpr ⟨y, hy⟩)

/-! ### Every step -/

theorem sourceAllowed_of_none {p : Peer cfg} (h : p.allowedSourceIps = fun _ => AllowedIp.zero)
    (addr : U32) : sourceAllowed p addr = false := by
  by_contra hallowed
  obtain ⟨y, hy⟩ := sourceAllowed_iff.mp (eq_true_of_ne_false hallowed)
  rw [h] at hy
  cases hy

theorem sourceAllowed_zero (addr : U32) : sourceAllowed (Peer.zero : Peer cfg) addr = false :=
  sourceAllowed_of_none rfl addr

theorem wgPeerInit_allowedSourceIps (d : Device cfg) (publicKey : Key) (psk : Option Key) :
    (wgPeerInit c d publicKey psk).allowedSourceIps = fun _ => AllowedIp.zero := by
  unfold wgPeerInit
  split
  · rfl
  · split <;> rfl

theorem createdPeer_allowed (n : Netdev cfg) (req : PeerReq) (addr : U32) :
    sourceAllowed (createdPeer c n req) addr = false :=
  sourceAllowed_of_none (wgPeerInit_allowedSourceIps c _ _ _) addr

/-- A peer that is set up again is there if it is allowed anything, and allowed no more than it
was. -/
theorem restorePeer_allowed {d : Device cfg} {saved : Peer cfg} {addr : U32}
    (h : sourceAllowed (restorePeer c d saved) addr = true) :
    sourceAllowed saved addr = true ∧ (restorePeer c d saved).valid = true := by
  unfold restorePeer at h ⊢
  dsimp only at h ⊢
  generalize (if saved.presharedKey = Bytes.zero 32 then none else some saved.presharedKey) = psk
    at h ⊢
  split
  · rename_i hsaved
    rw [if_pos hsaved, sourceAllowed_zero] at h
    cases h
  · rename_i hsaved
    rw [if_neg hsaved] at h
    split
    · rename_i hinit
      rw [if_pos hinit] at h
      exact ⟨h, hinit⟩
    · rename_i hinit
      rw [if_neg hinit, sourceAllowed_of_none (wgPeerInit_allowedSourceIps c _ _ _)] at h
      cases h

theorem exclusive_of_setup {d e : Device cfg} (h : ∀ x, (e.peers x).setup = (d.peers x).setup)
    (hd : d.Exclusive) : e.Exclusive := by
  have hallowed : ∀ x addr, sourceAllowed (e.peers x) addr = sourceAllowed (d.peers x) addr := by
    intro x addr
    have haips : (e.peers x).allowedSourceIps = (d.peers x).allowedSourceIps :=
      congrArg Setup.allowedSourceIps (h x)
    unfold sourceAllowed
    rw [haips]
  have hvalid : ∀ x, (e.peers x).valid = (d.peers x).valid := fun x => congrArg Setup.valid (h x)
  constructor
  · intro x y addr hx hy
    rw [hallowed] at hx hy
    exact hd.only x y addr hx hy
  · intro x addr hx
    rw [hallowed] at hx
    rw [hvalid]
    exact hd.valid x addr hx

/-- A peer was written that is there and is allowed nothing another peer is. -/
theorem exclusive_setPeer {d : Device cfg} (hd : d.Exclusive) {x : Fin cfg.maxPeers} {p : Peer cfg}
    (hvalid : ∀ addr, sourceAllowed p addr = true → p.valid = true)
    (hother : ∀ addr, sourceAllowed p addr = true → ∀ y, y ≠ x →
      sourceAllowed (d.peers y) addr = false) : (d.setPeer x p).Exclusive := by
  constructor
  · intro y z addr hy hz
    by_cases hyx : y = x
    · by_cases hzx : z = x
      · rw [hyx, hzx]
      · rw [hyx, Device.setPeer_peers_self] at hy
        rw [Device.setPeer_peers_of_ne d p hzx, hother addr hy z hzx] at hz
        cases hz
    · rw [Device.setPeer_peers_of_ne d p hyx] at hy
      by_cases hzx : z = x
      · rw [hzx, Device.setPeer_peers_self] at hz
        rw [hother addr hz y hyx] at hy
        cases hy
      · rw [Device.setPeer_peers_of_ne d p hzx] at hz
        exact hd.only y z addr hy hz
  · intro y addr hy
    by_cases hyx : y = x
    · rw [hyx, Device.setPeer_peers_self] at hy ⊢
      exact hvalid addr hy
    · rw [Device.setPeer_peers_of_ne d p hyx] at hy ⊢
      exact hd.valid y addr hy

theorem setPrivateKey_exclusive (n : Netdev cfg) (privateKey : Key) (hn : n.wg.Exclusive) :
    (setPrivateKey c env n privateKey).1.wg.Exclusive := by
  rcases setPrivateKey_cases c env n privateKey with ⟨-, err, h⟩ | ⟨-, d, err, h, hd⟩
  · rw [h]
    exact hn
  · rw [h]
    -- a peer that is set up again is allowed what it was, and the others nothing
    have hallowed : ∀ x addr, sourceAllowed (d.peers x) addr = true →
        sourceAllowed (n.peer x) addr = true ∧ (d.peers x).valid = true := by
      intro x addr hx
      rcases hd with hd | ⟨d', hd⟩
      · rw [hd, sourceAllowed_zero] at hx
        cases hx
      · rw [hd] at hx ⊢
        exact restorePeer_allowed c hx
    exact ⟨fun x y addr hx hy => hn.only x y addr (hallowed x addr hx).1 (hallowed y addr hy).1,
      fun x addr hx => (hallowed x addr hx).2⟩

theorem wgSetPeer_exclusive (n : Netdev cfg) (req : PeerReq) (hn : n.wg.Exclusive) :
    (wgSetPeer c n req).1.wg.Exclusive := by
  rcases wgSetPeer_outcomes c n req with ⟨err, h⟩ | ⟨x, allowed, -, haips, ⟨hself, h⟩ |
    ⟨hself, halloc, hcreated, h⟩ | ⟨hself, halloc, hcreated, h⟩⟩
  · rw [h]
    exact hn
  · rw [h]
    have hvalid : (n.peer x).valid = true := valid_of_peerByPubkey hself
    have hrekeyed : (rekeyedPeer req (n.peer x)).valid = true ∧
        ∀ addr, sourceAllowed (rekeyedPeer req (n.peer x)) addr = sourceAllowed (n.peer x) addr := by
      unfold rekeyedPeer
      split
      · exact ⟨hvalid, fun addr => rfl⟩
      · exact ⟨hvalid, fun addr => rfl⟩
    refine exclusive_setPeer hn (fun addr _ => ?_) fun addr haddr y hy => ?_
    · exact (congrArg Setup.valid (applyPeerReq_setup n req false allowed _)).trans hrekeyed.1
    · by_contra hallowed
      have hallowed : sourceAllowed (n.peer y) addr = true := eq_true_of_ne_false hallowed
      have hown : sourceAllowed (n.peer x) addr = false := by
        by_contra hc
        exact hy (hn.only y x addr hallowed (eq_true_of_ne_false hc))
      rcases sourceAllowed_applyPeerReq haddr with ⟨a, ha, hcovers⟩ | hkept
      · rcases requestedAips_spec haips ha hcovers with ⟨x', hx', hx''⟩ | hfree
        · rw [hself] at hx'
          cases hx'
          rw [hx''] at hown
          cases hown
        · have hne : some y ≠ peerByPubkey n.wg req.publicKey := by
            rw [hself]
            exact fun hc => hy (Option.some.inj hc)
          rw [hfree y hne (hn.valid y addr hallowed)] at hallowed
          cases hallowed
      · rw [hrekeyed.2, hown] at hkept
        cases hkept
  · rw [h]
    refine exclusive_setPeer hn (fun addr _ => ?_) fun addr haddr y hy => ?_
    · exact (congrArg Setup.valid (applyPeerReq_setup n req true allowed _)).trans hcreated
    · by_contra hallowed
      have hallowed : sourceAllowed (n.peer y) addr = true := eq_true_of_ne_false hallowed
      rcases sourceAllowed_applyPeerReq haddr with ⟨a, ha, hcovers⟩ | hkept
      · rw [hself] at haips
        rcases requestedAips_spec haips ha hcovers with ⟨x', hx', -⟩ | hfree
        · cases hx'
        · rw [hfree y (by simp) (hn.valid y addr hallowed)] at hallowed
          cases hallowed
      · rw [createdPeer_allowed] at hkept
        cases hkept
  · rw [h]
    refine exclusive_setPeer hn (fun addr haddr => ?_) fun addr haddr y hy => ?_
    · rw [createdPeer_allowed] at haddr
      cases haddr
    · rw [createdPeer_allowed] at haddr
      cases haddr

theorem wgDelPeer_exclusive (n : Netdev cfg) (publicKey : Key) (hn : n.wg.Exclusive) :
    (wgDelPeer n publicKey).1.wg.Exclusive := by
  unfold wgDelPeer
  split
  · exact hn
  split
  · exact hn
  · refine exclusive_setPeer hn (fun addr haddr => ?_) fun addr haddr y hy => ?_
    · rw [sourceAllowed_zero] at haddr
      cases haddr
    · rw [sourceAllowed_zero] at haddr
      cases haddr

/-- **In every reachable state an address is allowed to one peer at most.** -/
theorem exclusive {n : Netdev cfg} (h : ReachableState c n) : n.wg.Exclusive := by
  refine Reachable.invariant (I := fun n : Netdev cfg => n.wg.Exclusive) h ?_ ?_
  · rintro n ⟨i, rfl⟩
    have hzero : ∀ x addr, ¬sourceAllowed ((wireguardInitialize i : Netdev cfg).wg.peers x) addr = true :=
      fun x addr hx => by
        rw [show (wireguardInitialize i : Netdev cfg).wg.peers x = Peer.zero from rfl,
          sourceAllowed_zero] at hx
        cases hx
    exact ⟨fun x y addr hx => absurd hx (hzero x addr), fun x addr hx => absurd hx (hzero x addr)⟩
  · intro n e n' hs hn
    exact step_device_invariant c (fun _ _ hd => exclusive_of_setup hd.setup)
      (fun env n k => setPrivateKey_exclusive c env n k) (wgSetPeer_exclusive c)
      wgDelPeer_exclusive hs hn

/-! ### Routing and the source check -/

/-- **The allowed-ips of distinct peers are disjoint**: no address lies in a range of one and a
range of the other.  So a packet to an address goes to the peer that may send from it, whichever
order the table is in. -/
theorem allowedIps_disjoint {n : Netdev cfg} (h : ReachableState c n) :
    (∀ x y, x ≠ y → (n.peer x).valid = true → (n.peer y).valid = true → ∀ a b addr,
      ¬(((n.peer x).allowedSourceIps a).covers addr = true ∧
        ((n.peer y).allowedSourceIps b).covers addr = true)) ∧
    (∀ x addr, sourceAllowed (n.peer x) addr = true ↔ peerForDest n.wg addr = some x) ∧
    ∀ (σ : Equiv.Perm (Fin cfg.maxPeers)) (addr : U32) (x : Fin cfg.maxPeers),
      peerForDest (n.wg.permute σ) addr = some x ↔ peerForDest n.wg addr = some (σ x) := by
  have hn := exclusive c h
  refine ⟨?_, fun x addr => (hn.peerForDest_iff addr x).symm, ?_⟩
  · rintro x y hxy - - a b addr ⟨ha, hb⟩
    exact hxy (hn.only x y addr (sourceAllowed_iff.mpr ⟨a, ha⟩) (sourceAllowed_iff.mpr ⟨b, hb⟩))
  · intro σ addr x
    rw [hn.peerForDest_iff, (hn.permute σ).peerForDest_iff]
    exact Iff.rfl

/-- A second peer, which asks for a network. -/
def Sample.setSecond (network : Aip) : Event Sample.config :=
  .setPeer { Sample.firstReq none with publicKey := Sample.key 4 0, aips := fun _ => network }

/-- The second peer asks for a host of the first one's network and is refused, then for a network
of its own.  A host of each network is routed to its peer, as its packets are allowed from
there. -/
theorem allowedIps_disjoint_sample : ∃ n : Netdev Sample.config,
    ReachableState Crypto.plain n ∧ (n.peer Sample.second).valid = true ∧
      peerForDest n.wg (Sample.address 10 0 0 5) = some Sample.first ∧
      peerForDest n.wg (Sample.address 10 0 1 5) = some Sample.second := by
  obtain ⟨n, hn, hrun⟩ := Sample.exists_reachable (Sample.bringUp ++
      [Sample.setSecond ⟨Sample.address 10 0 0 5, 32⟩,
        Sample.setSecond ⟨Sample.address 10 0 1 0, 24⟩])
    (fun n => (n.peer Sample.second).valid &&
      (sourceAllowed (n.peer Sample.first) (Sample.address 10 0 0 5) &&
        sourceAllowed (n.peer Sample.second) (Sample.address 10 0 1 5))) (by decide +kernel)
  obtain ⟨hvalid, hallowed⟩ := Bool.and_eq_true_iff.mp hrun
  obtain ⟨hfirst, hsecond⟩ := Bool.and_eq_true_iff.mp hallowed
  obtain ⟨-, hroutes, -⟩ := allowedIps_disjoint Crypto.plain hn
  exact ⟨n, hn, hvalid, (hroutes _ _).mp hfirst, (hroutes _ _).mp hsecond⟩

end NuttxWireguard.Kernel
