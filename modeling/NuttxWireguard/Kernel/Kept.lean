/-
What is kept of a configuration.

Whatever is asked for, in whatever order, the driver keeps allowed-ips as prefixes, endpoints
that can be sent to, and peers that have a key of their own and could agree on a secret with
the device.  Prefixes nest or are apart, so allowed-ips that share no address do not overlap
in the driver's sense either.
-/
import NuttxWireguard.Kernel.AllowedIps
import NuttxWireguard.Kernel.Configured

namespace NuttxWireguard.Kernel

open Lib

variable {cfg : Config} (c : Crypto) (env : Env cfg)

/-! ### Prefixes -/

theorem maskCidr_table : ∀ k : Fin 33, maskCidr (prefixMask (BitVec.ofNat 8 k)) = k := by
  decide +kernel

theorem prefixMask_table : ∀ i j : Fin 33,
    prefixMask (BitVec.ofNat 8 i) &&& prefixMask (BitVec.ofNat 8 j)
      = prefixMask (BitVec.ofNat 8 (min i j : Fin 33)) := by
  decide +kernel

/-- A mask of the first so many bits. -/
def PrefixMask (mask : U32) : Prop := prefixMask (BitVec.ofNat 8 (maskCidr mask)) = mask

theorem prefixMask_isPrefix {cidr : Byte} (h : cidr.toNat ≤ 32) : PrefixMask (prefixMask cidr) := by
  have hcidr : BitVec.ofNat 8 cidr.toNat = cidr := by
    rw [BitVec.ofNat_toNat, BitVec.setWidth_eq]
  have htable := maskCidr_table ⟨cidr.toNat, by omega⟩
  rw [hcidr] at htable
  unfold PrefixMask
  rw [htable, hcidr]

/-- Two prefixes: one has all the bits of the other. -/
theorem PrefixMask.and {a b : U32} (ha : PrefixMask a) (hb : PrefixMask b) :
    a &&& b = a ∨ a &&& b = b := by
  have hle : ∀ mask : U32, maskCidr mask < 33 := fun mask =>
    Nat.lt_succ_of_le (maskCidr_le mask)
  have htable := prefixMask_table ⟨maskCidr a, hle a⟩ ⟨maskCidr b, hle b⟩
  rw [ha, hb] at htable
  rcases min_choice (⟨maskCidr a, hle a⟩ : Fin 33) ⟨maskCidr b, hle b⟩ with hmin | hmin
  · rw [hmin] at htable
    exact Or.inl (htable.trans ha)
  · rw [hmin] at htable
    exact Or.inr (htable.trans hb)

/-- An allowed-ip as the driver keeps it. -/
structure Canonical (aip : AllowedIp) : Prop where
  mask : PrefixMask aip.mask
  masked : aip.ip &&& aip.mask = aip.ip

theorem canonical_kept {aip : Aip} (h : aip.cidr.toNat ≤ 32) : Canonical aip.kept where
  mask := prefixMask_isPrefix h
  masked := by
    unfold Aip.kept
    rw [BitVec.and_assoc, BitVec.and_self]

/-- **Prefixes that overlap share an address.** -/
theorem exists_covered {a b : AllowedIp} (ha : Canonical a) (hb : Canonical b)
    (havalid : a.valid = true) (hbvalid : b.valid = true)
    (h : a.ip &&& (a.mask &&& b.mask) = b.ip &&& (a.mask &&& b.mask)) :
    ∃ addr, a.covers addr = true ∧ b.covers addr = true := by
  have hself : ∀ aip : AllowedIp, Canonical aip → aip.valid = true → aip.covers aip.ip = true := by
    intro aip haip hvalid
    simp [AllowedIp.covers, hvalid, haip.masked]
  rcases ha.mask.and hb.mask with hcommon | hcommon
  · rw [hcommon, ha.masked] at h
    exact ⟨b.ip, by simp [AllowedIp.covers, havalid, ← h, ha.masked], hself b hb hbvalid⟩
  · rw [hcommon, hb.masked] at h
    exact ⟨a.ip, hself a ha havalid, by simp [AllowedIp.covers, hbvalid, h, hb.masked]⟩

/-! ### What every reachable device has -/

/-- A configured peer as the driver keeps it. -/
structure WellKept (d : Device cfg) (p : Peer cfg) : Prop where
  key : p.publicKey ≠ Bytes.zero 32
  /-- The device and the peer can agree on a secret. -/
  agrees : (c.dh d.privateKey p.publicKey).isSome
  aips : ∀ y, (p.allowedSourceIps y).valid = true → Canonical (p.allowedSourceIps y)
  /-- It has no endpoint, or one that can be sent to. -/
  endpoint : p.connectIp = 0 ∧ p.connectPort = 0 ∨
    p.connectIp ≠ 0 ∧ p.connectPort ≠ 0 ∧ inMulticast (ntohl p.connectIp) = false

/-- A device, likewise. -/
structure Device.Kept (d : Device cfg) : Prop where
  /-- It has a private key, and the public key that goes with it; or none. -/
  own : if d.valid then c.generatePublicKey d.privateKey = some d.publicKey
    else d.privateKey = Bytes.zero 32
  distinct : PeerKeysDistinct d
  peers : ∀ x, (d.peers x).valid = true → d.valid = true ∧ WellKept c d (d.peers x)

section Kept

variable {c} {d e : Device cfg}

theorem WellKept.congr {p q : Peer cfg} (h : WellKept c d p) (hprivate : e.privateKey = d.privateKey)
    (hpq : q.setup = p.setup) : WellKept c e q := by
  have haips : q.allowedSourceIps = p.allowedSourceIps := congrArg Setup.allowedSourceIps hpq
  have hip : q.connectIp = p.connectIp := congrArg Setup.connectIp hpq
  have hport : q.connectPort = p.connectPort := congrArg Setup.connectPort hpq
  have hkey : q.publicKey = p.publicKey := congrArg Setup.publicKey hpq
  constructor
  · rw [hkey]
    exact h.key
  · rw [hprivate, hkey]
    exact h.agrees
  · rw [haips]
    exact h.aips
  · rw [hip, hport]
    exact h.endpoint

/-- Traffic keeps it. -/
theorem Device.Kept.carried (h : Device.Kept c d) (hde : d.Carried e) : Device.Kept c e := by
  have hvalid : e.valid = d.valid := congrArg Identity.valid hde.identity
  have hprivate : e.privateKey = d.privateKey := congrArg Identity.privateKey hde.identity
  have hpublic : e.publicKey = d.publicKey := congrArg Identity.publicKey hde.identity
  refine ⟨?_, fun x y hx hy hkey => ?_, fun x hx => ?_⟩
  · rw [hvalid, hprivate, hpublic]
    exact h.own
  · rw [hde.valid] at hx hy
    rw [show (e.peers x).publicKey = (d.peers x).publicKey from
        congrArg Setup.publicKey (hde.setup x),
      show (e.peers y).publicKey = (d.peers y).publicKey from
        congrArg Setup.publicKey (hde.setup y)] at hkey
    exact h.distinct x y hx hy hkey
  · rw [hde.valid] at hx
    obtain ⟨hd, hx⟩ := h.peers x hx
    exact ⟨hvalid.trans hd, hx.congr hprivate (hde.setup x)⟩

/-- A record is written over its own, or over a free one. -/
theorem Device.Kept.setPeer (h : Device.Kept c d) {x : Fin cfg.maxPeers} {p : Peer cfg}
    (hdistinct : PeerKeysDistinct (d.setPeer x p))
    (hp : p.valid = true → d.valid = true ∧ WellKept c d p) : Device.Kept c (d.setPeer x p) := by
  refine ⟨h.own, hdistinct, fun y hy => ?_⟩
  by_cases hyx : y = x
  · rw [hyx, Device.setPeer_peers_self] at hy ⊢
    obtain ⟨hd, hp⟩ := hp hy
    exact ⟨hd, hp.congr rfl rfl⟩
  · rw [Device.setPeer_peers_of_ne d p hyx] at hy ⊢
    obtain ⟨hd, hp⟩ := h.peers y hy
    exact ⟨hd, hp.congr rfl rfl⟩

end Kept

/-! ### Every step -/

section Steps

variable {c}

theorem Device.Kept.zero : Device.Kept c (Device.zero : Device cfg) where
  own := rfl
  distinct := fun _ _ hx => absurd hx Bool.false_ne_true
  peers := fun _ hx => absurd hx Bool.false_ne_true

/-! #### A private key -/

theorem wgDeviceInit_own {env : Env cfg} {privateKey : Key}
    (h : (wgDeviceInit c env privateKey).valid = true) :
    c.generatePublicKey (wgDeviceInit c env privateKey).privateKey
      = some (wgDeviceInit c env privateKey).publicKey := by
  unfold wgDeviceInit at h ⊢
  dsimp only at h ⊢
  split at h
  · cases h
  · assumption

theorem wgPeerInit_agrees {d : Device cfg} {publicKey : Key} {psk : Option Key}
    (h : (wgPeerInit c d publicKey psk).valid = true) :
    d.valid = true ∧ (c.dh d.privateKey publicKey).isSome := by
  unfold wgPeerInit at h
  split at h
  · cases h
  rename_i hd
  split at h
  · cases h
  · rename_i dh hdh
    exact ⟨not_not.mp hd, by rw [hdh]; rfl⟩

/-- What was kept of a peer that is set up again is kept. -/
theorem restorePeer_kept {d e : Device cfg} {saved : Peer cfg} (h : WellKept c e saved)
    (hvalid : (restorePeer c d saved).valid = true) :
    (restorePeer c d saved).publicKey = saved.publicKey ∧ d.valid = true ∧
      WellKept c d (restorePeer c d saved) := by
  unfold restorePeer at hvalid ⊢
  dsimp only at hvalid ⊢
  generalize (if saved.presharedKey = Bytes.zero 32 then none else some saved.presharedKey) = psk
    at hvalid ⊢
  split
  · rename_i hsaved
    rw [if_pos hsaved] at hvalid
    cases hvalid
  rename_i hsaved
  rw [if_neg hsaved] at hvalid
  by_cases hinit : (wgPeerInit c d saved.publicKey psk).valid = true
  · rw [if_pos hinit]
    obtain ⟨hkey, -⟩ := wgPeerInit_conf c hinit
    obtain ⟨hd, hagrees⟩ := wgPeerInit_agrees hinit
    refine ⟨hkey, hd, ?_, ?_, h.aips, h.endpoint⟩
    · exact fun hc => h.key (hkey.symm.trans hc)
    · exact (congrArg (fun key => (c.dh d.privateKey key).isSome) hkey).trans hagrees
  · rw [if_neg hinit] at hvalid
    exact absurd hvalid hinit

theorem setPrivateKey_kept (env : Env cfg) (n : Netdev cfg) (privateKey : Key)
    (hn : Device.Kept c n.wg) : Device.Kept c (setPrivateKey c env n privateKey).1.wg := by
  unfold setPrivateKey
  dsimp only
  split
  · exact hn
  split
  · exact hn
  split
  · rename_i hinvalid
    have hzero : wgDeviceInit c env privateKey = Device.zero := by
      unfold wgDeviceInit at hinvalid ⊢
      dsimp only at hinvalid ⊢
      split
      · rfl
      · rename_i hpublic
        rw [hpublic] at hinvalid
        exact absurd rfl hinvalid
    show Device.Kept c (wgDeviceInit c env privateKey)
    rw [hzero]
    exact .zero
  · rename_i hvalid
    have hvalid : (wgDeviceInit c env privateKey).valid = true := not_not.mp hvalid
    have hrestored : ∀ x, (restorePeer c (wgDeviceInit c env privateKey) (n.peer x)).valid = true →
        (n.peer x).valid = true := by
      intro x hx
      unfold restorePeer at hx
      split at hx
      · cases hx
      · rename_i hsaved
        exact not_not.mp hsaved
    have hkept := fun x hx => restorePeer_kept (hn.peers x (hrestored x hx)).2 hx
    refine ⟨?_, fun x y hx hy hkey => ?_, fun x hx => ⟨hvalid, (hkept x hx).2.2.congr rfl rfl⟩⟩
    · rw [if_pos hvalid]
      exact wgDeviceInit_own hvalid
    · refine hn.distinct x y (hrestored x hx) (hrestored y hy) ?_
      exact (hkept x hx).1.symm.trans (Eq.trans hkey (hkept y hy).1)

/-! #### A request for a peer -/

/-- Every allowed-ip the loop adds is a prefix. -/
theorem addAips_canonical {n : Netdev cfg} {self : Option (Fin cfg.maxPeers)} {aips : List Aip} :
    ∀ {kept allowed : List AllowedIp}, addAips n self aips kept = .ok allowed →
      (∀ a ∈ kept, Canonical a) → ∀ a ∈ allowed, Canonical a := by
  induction aips with
  | nil =>
      intro kept allowed h hkept
      cases h
      exact hkept
  | cons aip aips ih =>
      intro kept allowed h hkept
      unfold addAips at h
      dsimp only at h
      split at h
      · cases h
      rename_i hcidr
      split at h
      · cases h
      · refine ih h fun a ha => ?_
        rcases List.mem_append.mp ha with ha | ha
        · exact hkept a ha
        · rw [List.mem_singleton] at ha
          subst ha
          refine @canonical_kept aip ?_
          exact Nat.not_lt.mp fun hc => hcidr (Or.inl hc)

theorem requestedAips_canonical {n : Netdev cfg} {self : Option (Fin cfg.maxPeers)} {req : PeerReq}
    {allowed : List AllowedIp} (h : requestedAips n self req = .ok allowed)
    (hself : ∀ x, self = some x → ∀ y, ((n.peer x).allowedSourceIps y).valid = true →
      Canonical ((n.peer x).allowedSourceIps y)) : ∀ a ∈ allowed, Canonical a := by
  unfold requestedAips at h
  split at h
  · cases h
    intro a ha
    cases ha
  split at h
  · cases h
  · refine addAips_canonical h ?_
    cases self with
    | none =>
        intro a ha
        cases ha
    | some x =>
        dsimp only
        split
        · intro a ha
          cases ha
        · intro a ha
          obtain ⟨hmem, hvalid⟩ := List.mem_filter.mp ha
          obtain ⟨y, -, rfl⟩ := List.mem_map.mp hmem
          exact hself x rfl y hvalid

theorem endpointOk_iff {req : PeerReq} : endpointOk req = true ↔
    req.sinFamily = afInet ∧ req.sinPort ≠ 0 ∧ req.sinAddr ≠ 0 ∧
      inMulticast (ntohl req.sinAddr) = false := by
  simp [endpointOk, and_assoc]

theorem ntohs_eq_zero {a : U16} : ntohs a = 0 ↔ a = 0 := by
  constructor
  · intro h
    rw [← ntohs_ntohs a, h]
    rfl
  · rintro rfl
    rfl

/-- The request keeps the record well. -/
theorem WellKept.applyPeerReq {n : Netdev cfg} {req : PeerReq} (created : Bool)
    {allowed : List AllowedIp} {p : Peer cfg} (h : WellKept c n.wg p) (hreq : req.Accepted n)
    (hallowed : ∀ a ∈ allowed, Canonical a) :
    WellKept c n.wg (applyPeerReq n req created allowed p) := by
  have hsetup := applyPeerReq_setup n req created allowed p
  have haips := congrArg Setup.allowedSourceIps hsetup
  have hip := congrArg Setup.connectIp hsetup
  have hport := congrArg Setup.connectPort hsetup
  have hkey : (Kernel.applyPeerReq n req created allowed p).publicKey = p.publicKey :=
    congrArg Setup.publicKey hsetup
  constructor
  · rw [hkey]
    exact h.key
  · rw [hkey]
    exact h.agrees
  · intro y
    rw [show (Kernel.applyPeerReq n req created allowed p).allowedSourceIps = _ from haips]
    unfold requestedSetup
    dsimp only
    split
    · dsimp only
      intro hvalid
      rw [List.getD_eq_getElem?_getD] at hvalid ⊢
      cases hentry : allowed[(y : Nat)]? with
      | none =>
          rw [hentry] at hvalid
          cases hvalid
      | some a => exact hallowed a (List.mem_of_getElem? hentry)
    · exact h.aips y
  · rw [show (Kernel.applyPeerReq n req created allowed p).connectIp = _ from hip,
      show (Kernel.applyPeerReq n req created allowed p).connectPort = _ from hport]
    unfold requestedSetup
    dsimp only
    by_cases hhas : req.has wgPeerHasEndpoint = true
    · obtain ⟨-, hport, haddr, hmulticast⟩ := endpointOk_iff.mp (hreq.endpoint hhas)
      rw [if_pos hhas, if_pos hhas]
      exact Or.inr ⟨haddr, mt ntohs_eq_zero.mp hport, hmulticast⟩
    · rw [if_neg hhas, if_neg hhas]
      exact h.endpoint

theorem createdPeer_kept {n : Netdev cfg} {req : PeerReq} (hreq : req.Accepted n)
    (h : (createdPeer c n req).valid = true) : WellKept c n.wg (createdPeer c n req) := by
  obtain ⟨hkey, hconf⟩ := peerConf_createdPeer c h
  obtain ⟨-, hagrees⟩ := wgPeerInit_agrees h
  have hip := congrArg PeerConf.connectIp hconf
  have hport := congrArg PeerConf.connectPort hconf
  refine ⟨?_, ?_, fun y hy => ?_, Or.inl ⟨hip, hport⟩⟩
  · rw [hkey]
    exact hreq.nonzero
  · rw [hkey]
    exact hagrees
  · rw [show (createdPeer c n req).allowedSourceIps = fun _ => AllowedIp.zero from
      wgPeerInit_allowedSourceIps c _ _ _] at hy
    cases hy

theorem wgSetPeer_kept (n : Netdev cfg) (req : PeerReq) (hn : Device.Kept c n.wg) :
    Device.Kept c (wgSetPeer c n req).1.wg := by
  have hdistinct := @wgSetPeer_distinct _ c n req hn.distinct
  rcases wgSetPeer_outcomes c n req with ⟨err, h⟩ | ⟨x, allowed, hreq, haips, ⟨hself, h⟩ |
    ⟨hself, halloc, hcreated, h⟩ | ⟨hself, halloc, hcreated, h⟩⟩
  · rw [h]
    exact hn
  · obtain ⟨hd, hx⟩ := hn.peers x (valid_of_peerByPubkey hself)
    have hrekeyed : WellKept c n.wg (rekeyedPeer req (n.peer x)) := by
      unfold rekeyedPeer
      split
      · exact ⟨hx.key, hx.agrees, hx.aips, hx.endpoint⟩
      · exact hx
    rw [h] at hdistinct ⊢
    refine hn.setPeer hdistinct fun _ => ⟨hd, hrekeyed.applyPeerReq false hreq ?_⟩
    refine requestedAips_canonical haips fun y hy => ?_
    rw [hself] at hy
    cases hy
    exact hx.aips
  · rw [h] at hdistinct ⊢
    refine hn.setPeer hdistinct fun _ => ⟨hreq.valid,
      (createdPeer_kept hreq hcreated).applyPeerReq true hreq ?_⟩
    refine requestedAips_canonical haips fun y hy => ?_
    rw [hself] at hy
    cases hy
  · rw [h] at hdistinct ⊢
    refine hn.setPeer hdistinct fun hvalid => ?_
    rw [hcreated] at hvalid
    cases hvalid

theorem wgDelPeer_kept (n : Netdev cfg) (publicKey : Key) (hn : Device.Kept c n.wg) :
    Device.Kept c (wgDelPeer n publicKey).1.wg := by
  unfold wgDelPeer
  split
  · exact hn
  split
  · exact hn
  · exact hn.setPeer (hn.distinct.clearPeer rfl) fun hvalid => (by cases hvalid)

end Steps

/-- **Every reachable device is well kept.** -/
theorem kept {n : Netdev cfg} (h : ReachableState c n) : Device.Kept c n.wg := by
  refine Reachable.invariant (I := fun n : Netdev cfg => Device.Kept c n.wg) h ?_ ?_
  · rintro n ⟨i, rfl⟩
    exact .zero
  · intro n e n' hs hn
    exact step_device_invariant c (fun _ _ hde hd => hd.carried hde)
      (fun env n k => setPrivateKey_kept env n k) wgSetPeer_kept wgDelPeer_kept hs hn

/-! ### What is accepted -/

/-- An allowed-ip as `wg_get_peer` reports it. -/
def reportedAip (aip : AllowedIp) : Aip := ⟨aip.ip, BitVec.ofNat 8 (maskCidr aip.mask)⟩

theorem reportedAip_cidr (aip : AllowedIp) : (reportedAip aip).cidr.toNat ≤ 32 := by
  have hle := maskCidr_le aip.mask
  unfold reportedAip
  rw [BitVec.toNat_ofNat, Nat.mod_eq_of_lt (by omega)]
  exact hle

/-- Asked for again, it is kept as it was. -/
theorem Canonical.kept_reportedAip {aip : AllowedIp} (h : Canonical aip) (hvalid : aip.valid = true) :
    (reportedAip aip).kept = aip := by
  have hmask : prefixMask (reportedAip aip).cidr = aip.mask := h.mask
  unfold Aip.kept
  rw [hmask, show (reportedAip aip).addr = aip.ip from rfl, h.masked, ← hvalid]

section Accepted

variable {n : Netdev cfg} {req : PeerReq}

/-- **An allowed-ip that shares no address with another peer's overlaps none.** -/
theorem not_overlaps {self : Option (Fin cfg.maxPeers)} {aip : AllowedIp} (haip : Canonical aip)
    (hvalid : aip.valid = true)
    (hothers : ∀ x, (n.peer x).valid = true → ∀ old ∈ validAips (n.peer x), Canonical old ∧
      ∀ addr, aip.covers addr = true → old.covers addr = false) :
    wgAipOverlaps n self aip.ip aip.mask = false := by
  unfold wgAipOverlaps
  rw [List.any_eq_false]
  intro x _ hx
  simp only [Bool.and_eq_true, decide_eq_true_eq, List.any_eq_true] at hx
  obtain ⟨⟨hpeer, -⟩, y, -, hentry, hoverlap⟩ := hx
  have hmem : (n.peer x).allowedSourceIps y ∈ validAips (n.peer x) :=
    List.mem_filter.mpr ⟨List.mem_map.mpr ⟨y, List.mem_finRange y, rfl⟩, hentry⟩
  obtain ⟨hold, hapart⟩ := hothers x hpeer _ hmem
  obtain ⟨addr, hnew, hboth⟩ := exists_covered haip hold hvalid hentry hoverlap
  rw [hapart addr hnew] at hboth
  cases hboth

/-- The loop accepts what overlaps nothing and has room. -/
theorem addAips_accepts {self : Option (Fin cfg.maxPeers)} : ∀ (aips : List Aip)
    (kept : List AllowedIp), kept.length + aips.length ≤ cfg.maxAips →
      (∀ aip ∈ aips, aip.cidr.toNat ≤ 32 ∧
        wgAipOverlaps n self aip.addr (prefixMask aip.cidr) = false) →
      ∃ allowed, addAips n self aips kept = .ok allowed := by
  intro aips
  induction aips with
  | nil => intro kept _ _; exact ⟨kept, rfl⟩
  | cons aip aips ih =>
      intro kept hroom haips
      rw [List.length_cons] at hroom
      obtain ⟨hcidr, hoverlap⟩ := haips aip List.mem_cons_self
      unfold addAips
      rw [if_neg]
      · dsimp only
        rw [hoverlap, if_neg Bool.false_ne_true]
        refine ih _ ?_ fun a ha => haips a (List.mem_cons_of_mem _ ha)
        rw [List.length_append, List.length_singleton]
        omega
      · rintro (hc | hc)
        · exact absurd hcidr (Nat.not_le.mpr hc)
        · omega

/-- **What a new peer takes to be accepted.** -/
theorem wgSetPeer_accepts (hreq : req.Accepted n) (hself : peerByPubkey n.wg req.publicKey = none)
    (hfree : ∃ x, (n.peer x).valid = false)
    (hagrees : (c.dh n.wg.privateKey req.publicKey).isSome) (hnaips : req.naips.toNat ≤ wgMaxAips)
    (hroom : req.aipList.length ≤ cfg.maxAips)
    (haips : ∀ aip ∈ req.aipList, aip.cidr.toNat ≤ 32 ∧
      wgAipOverlaps n none aip.addr (prefixMask aip.cidr) = false) :
    (wgSetPeer c n req).2 = none := by
  obtain ⟨allowed, hallowed⟩ : ∃ allowed, requestedAips n none req = .ok allowed := by
    unfold requestedAips
    split
    · exact ⟨[], rfl⟩
    · rw [if_neg (by omega)]
      exact addAips_accepts req.aipList [] (by rwa [List.length_nil, Nat.zero_add]) haips
  obtain ⟨x, halloc⟩ : ∃ x, peerAlloc n.wg = some x := by
    obtain ⟨x, hx⟩ := hfree
    refine Option.isSome_iff_exists.mp (List.find?_isSome.mpr ⟨x, List.mem_finRange x, ?_⟩)
    rw [show (n.wg.peers x).valid = false from hx]
    rfl
  obtain ⟨dh, hdh⟩ := Option.isSome_iff_exists.mp hagrees
  have hcreated : (createdPeer c n req).valid = true := by
    unfold createdPeer wgPeerInit
    rw [if_neg (not_not.mpr hreq.valid), hdh]
  unfold wgSetPeer
  dsimp only
  rw [if_neg (not_not.mpr hreq.valid), if_neg (not_or.mpr ⟨hreq.nonzero, hreq.foreign⟩),
    if_neg fun hc => hc.2 (hreq.endpoint hc.1), hself, hallowed]
  dsimp only
  rw [halloc]
  dsimp only
  exact congrArg Prod.snd (if_neg (not_not.mpr hcreated))

end Accepted

end NuttxWireguard.Kernel
