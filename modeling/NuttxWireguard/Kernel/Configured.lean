/-
What a device is configured with.

To an administrator the table of peers is a map from public keys to what was asked for each
peer.  A request the driver accepts is merged into that map at its key, one it refuses leaves
the map alone, and to remove a peer is to remove its key.  Where in the table a peer is kept
shows nowhere in this.
-/
import NuttxWireguard.Kernel.Info
import NuttxWireguard.Kernel.Traffic
import NuttxWireguard.Lookup

namespace NuttxWireguard.Kernel

open Lib

variable {cfg : Config} (c : Crypto) (env : Env cfg)

/-! ### The map -/

/-- What was asked for a peer. -/
structure PeerConf where
  presharedKey : Key
  connectIp : U32
  connectPort : U16
  keepaliveInterval : U16
  allowed : List AllowedIp

/-- Nothing was. -/
def PeerConf.empty : PeerConf := ⟨Bytes.zero 32, 0, 0, 0, []⟩

def peerConf (p : Peer cfg) : PeerConf :=
  ⟨p.presharedKey, p.connectIp, p.connectPort, p.keepaliveInterval, validAips p⟩

/-- It depends on the setup of the peer only. -/
theorem peerConf_of_setup {p : Peer cfg} {s : Setup cfg} (h : p.setup = s) :
    peerConf p = ⟨s.presharedKey, s.connectIp, s.connectPort, s.keepaliveInterval,
      ((List.finRange cfg.maxAips).map s.allowedSourceIps).filter (·.valid)⟩ := by
  subst h
  rfl

/-- The peers by their public keys. -/
abbrev Configured := Key → Option PeerConf

def configured (d : Device cfg) : Configured :=
  fun publicKey => (peerByPubkey d publicKey).map fun x => peerConf (d.peers x)

/-- No two peers have the same public key. -/
def PeerKeysDistinct (d : Device cfg) : Prop :=
  ∀ x y, (d.peers x).valid = true → (d.peers y).valid = true →
    (d.peers x).publicKey = (d.peers y).publicKey → x = y

section Map

variable {d : Device cfg} {x : Fin cfg.maxPeers} {p : Peer cfg} {publicKey : Key}

/-- The lookup by key finds the one peer with the key. -/
theorem PeerKeysDistinct.peerByPubkey_iff (h : PeerKeysDistinct d) :
    peerByPubkey d publicKey = some x ↔
      (d.peers x).valid = true ∧ (d.peers x).publicKey = publicKey := by
  refine ⟨fun hx => ⟨valid_of_peerByPubkey hx, key_of_peerByPubkey hx⟩, fun hx => ?_⟩
  refine find?_finRange_of_unique (by simpa using hx) fun y hy => ?_
  simp only [Bool.and_eq_true, decide_eq_true_eq] at hy
  exact h y x hy.1 hx.1 (hy.2.trans hx.2.symm)

theorem PeerKeysDistinct.configured_iff (h : PeerKeysDistinct d) {conf : PeerConf} :
    configured d publicKey = some conf ↔
      ∃ x, (d.peers x).valid = true ∧ (d.peers x).publicKey = publicKey ∧
        peerConf (d.peers x) = conf := by
  unfold configured
  rw [Option.map_eq_some_iff]
  constructor
  · rintro ⟨x, hx, hconf⟩
    obtain ⟨hvalid, hkey⟩ := h.peerByPubkey_iff.mp hx
    exact ⟨x, hvalid, hkey, hconf⟩
  · rintro ⟨x, hvalid, hkey, hconf⟩
    exact ⟨x, h.peerByPubkey_iff.mpr ⟨hvalid, hkey⟩, hconf⟩

/-- A peer is written over its own record, or over one that is free. -/
theorem PeerKeysDistinct.setPeer (h : PeerKeysDistinct d)
    (hother : ∀ y, y ≠ x → (d.peers y).valid = true → (d.peers y).publicKey ≠ p.publicKey) :
    PeerKeysDistinct (d.setPeer x p) := by
  intro y z hy hz hkey
  by_cases hyx : y = x
  · by_cases hzx : z = x
    · rw [hyx, hzx]
    · rw [hyx, Device.setPeer_peers_self, Device.setPeer_peers_of_ne d p hzx] at hkey
      rw [Device.setPeer_peers_of_ne d p hzx] at hz
      exact absurd hkey.symm (hother z hzx hz)
  · rw [Device.setPeer_peers_of_ne d p hyx] at hy hkey
    by_cases hzx : z = x
    · rw [hzx, Device.setPeer_peers_self] at hkey
      exact absurd hkey (hother y hyx hy)
    · rw [Device.setPeer_peers_of_ne d p hzx] at hz hkey
      exact h y z hy hz hkey

/-- Then it is what is configured under its key. -/
theorem PeerKeysDistinct.configured_setPeer (h : PeerKeysDistinct d) (hvalid : p.valid = true)
    (hown : (d.peers x).valid = true → (d.peers x).publicKey = p.publicKey)
    (hother : ∀ y, y ≠ x → (d.peers y).valid = true → (d.peers y).publicKey ≠ p.publicKey) :
    configured (d.setPeer x p) = Function.update (configured d) p.publicKey (some (peerConf p)) := by
  have h' := h.setPeer hother
  funext publicKey
  ext conf
  rw [h'.configured_iff]
  by_cases hkey : publicKey = p.publicKey
  · subst hkey
    rw [Function.update_self, Option.some.injEq]
    constructor
    · rintro ⟨y, hy, hykey, hconf⟩
      by_cases hyx : y = x
      · rw [hyx, Device.setPeer_peers_self] at hconf
        exact hconf
      · rw [Device.setPeer_peers_of_ne d p hyx] at hy hykey
        exact absurd hykey (hother y hyx hy)
    · intro hconf
      refine ⟨x, ?_⟩
      rw [Device.setPeer_peers_self]
      exact ⟨hvalid, rfl, hconf⟩
  · rw [Function.update_of_ne hkey, h.configured_iff]
    refine exists_congr fun y => ?_
    by_cases hyx : y = x
    · rw [hyx, Device.setPeer_peers_self]
      constructor
      · rintro ⟨-, hykey, -⟩
        exact absurd hykey.symm hkey
      · rintro ⟨hy, hykey, -⟩
        exact absurd (hykey.symm.trans (hown hy)) hkey
    · rw [Device.setPeer_peers_of_ne d p hyx]

/-- A record that is not a peer takes the place of one. -/
theorem PeerKeysDistinct.clearPeer (h : PeerKeysDistinct d) (hvalid : p.valid = false) :
    PeerKeysDistinct (d.setPeer x p) := by
  have hold : ∀ y, ((d.setPeer x p).peers y).valid = true →
      (d.setPeer x p).peers y = d.peers y := by
    intro y hy
    by_cases hyx : y = x
    · rw [hyx, Device.setPeer_peers_self, hvalid] at hy
      cases hy
    · exact Device.setPeer_peers_of_ne d p hyx
  intro y z hy hz hkey
  have hyold := hold y hy
  have hzold := hold z hz
  rw [hyold] at hy hkey
  rw [hzold] at hz hkey
  exact h y z hy hz hkey

/-- If that was free, nothing else changes. -/
theorem PeerKeysDistinct.configured_clearPeer (h : PeerKeysDistinct d) (hvalid : p.valid = false)
    (hfree : (d.peers x).valid = false) : configured (d.setPeer x p) = configured d := by
  have h' := h.clearPeer (x := x) hvalid
  funext publicKey
  ext conf
  rw [h'.configured_iff, h.configured_iff]
  refine exists_congr fun y => ?_
  by_cases hyx : y = x
  · rw [hyx, Device.setPeer_peers_self, hvalid, hfree]
    simp
  · rw [Device.setPeer_peers_of_ne d p hyx]

end Map

/-! ### Requests -/

/-- An allowed-ip as it is kept. -/
def Aip.kept (aip : Aip) : AllowedIp :=
  ⟨true, aip.addr &&& prefixMask aip.cidr, prefixMask aip.cidr⟩

/-- The allowed-ips of a request. -/
def PeerReq.aipList (req : PeerReq) : List Aip :=
  ((List.finRange wgMaxAips).take req.naips.toNat).map req.aips

/-- What is asked for a peer once a request has changed it. -/
def PeerConf.asked (old : PeerConf) (req : PeerReq) : PeerConf where
  presharedKey := if req.has wgPeerHasPsk then req.presharedKey else old.presharedKey
  connectIp := if req.has wgPeerHasEndpoint then req.sinAddr else old.connectIp
  connectPort := if req.has wgPeerHasEndpoint then ntohs req.sinPort else old.connectPort
  keepaliveInterval := if req.has wgPeerHasKeepalive then req.keepalive else old.keepaliveInterval
  allowed := if req.has wgPeerHasAips then req.aipList.map Aip.kept else old.allowed

/-- A request is merged into what is configured. -/
def Configured.ask (conf : Configured) (req : PeerReq) : Configured :=
  Function.update conf req.publicKey
    (some (((conf req.publicKey).getD PeerConf.empty).asked req))

/-- Requests for different peers do not meet: what is configured of each is what it asks for. -/
theorem foldl_ask_of_nodup {k : Key} : ∀ (reqs : List PeerReq) (conf : Configured),
    (reqs.map PeerReq.publicKey).Nodup → (∀ req ∈ reqs, conf req.publicKey = none) →
      reqs.foldl Configured.ask conf k =
        match reqs.find? fun req => decide (req.publicKey = k) with
        | none => conf k
        | some req => some (PeerConf.empty.asked req) := by
  intro reqs
  induction reqs with
  | nil => intro conf _ _; rfl
  | cons req reqs ih =>
      intro conf hnodup hnew
      rw [List.map_cons, List.nodup_cons] at hnodup
      have hask : ∀ j, conf.ask req j =
          if j = req.publicKey then some (PeerConf.empty.asked req) else conf j := by
        intro j
        unfold Configured.ask
        rw [hnew req List.mem_cons_self, Function.update_apply]
        rfl
      have hrest : ∀ r ∈ reqs, conf.ask req r.publicKey = none := by
        intro r hr
        rw [hask, if_neg]
        · exact hnew r (List.mem_cons_of_mem _ hr)
        · intro hc
          exact hnodup.1 (hc ▸ List.mem_map_of_mem hr)
      rw [List.foldl_cons, ih _ hnodup.2 hrest, hask]
      by_cases hk : req.publicKey = k
      · subst hk
        have hnone : (reqs.find? fun r => decide (r.publicKey = req.publicKey)) = none := by
          refine List.find?_eq_none.mpr fun r hr hc => hnodup.1 ?_
          rw [← of_decide_eq_true hc]
          exact List.mem_map_of_mem hr
        rw [hnone, List.find?_cons_of_pos (by simp), if_pos rfl]
      · rw [List.find?_cons_of_neg (by simpa using hk), if_neg (fun hc => hk hc.symm)]

/-- The request does not add to the allowed-ips of a peer. -/
def PeerReq.Replaces (req : PeerReq) : Prop :=
  req.has wgPeerHasAips = true → req.has wgPeerReplaceAips = true

section Requests

variable {n : Netdev cfg} {req : PeerReq}

/-- The loop keeps every allowed-ip of the request, in order. -/
theorem addAips_ok {self : Option (Fin cfg.maxPeers)} {aips : List Aip} :
    ∀ {kept allowed : List AllowedIp}, addAips n self aips kept = .ok allowed →
      kept.length ≤ cfg.maxAips → allowed = kept ++ aips.map Aip.kept ∧
        allowed.length ≤ cfg.maxAips := by
  induction aips with
  | nil =>
      intro kept allowed h hlength
      cases h
      exact ⟨(List.append_nil _).symm, hlength⟩
  | cons aip aips ih =>
      intro kept allowed h hlength
      unfold addAips at h
      dsimp only at h
      split at h
      · cases h
      rename_i hroom
      split at h
      · cases h
      · obtain ⟨hallowed, hlength'⟩ := ih h (by
          rw [List.length_append, List.length_singleton]
          omega)
        refine ⟨?_, hlength'⟩
        rw [hallowed, List.append_assoc]
        rfl

/-- What a request that replaces the allowed-ips asks for. -/
theorem requestedAips_ok {self : Option (Fin cfg.maxPeers)} {allowed : List AllowedIp}
    (hreplace : req.Replaces) (hhas : req.has wgPeerHasAips = true)
    (h : requestedAips n self req = .ok allowed) :
    allowed = req.aipList.map Aip.kept ∧ allowed.length ≤ cfg.maxAips := by
  unfold requestedAips at h
  rw [if_neg (not_not.mpr hhas)] at h
  split at h
  · cases h
  · cases self with
    | none => exact addAips_ok h (Nat.zero_le _)
    | some x =>
        dsimp only at h
        rw [if_pos (hreplace hhas)] at h
        exact addAips_ok h (Nat.zero_le _)

/-- A list at the front of a table. -/
theorem map_getD_finRange {α : Type*} {m : Nat} {l : List α} (h : l.length ≤ m) (a : α) :
    (List.finRange m).map (fun y : Fin m => l.getD y a) = l ++ List.replicate (m - l.length) a := by
  refine List.ext_getElem (by simp [h]) fun i hi hi' => ?_
  rw [List.getElem_map, List.getElem_finRange, List.getD_eq_getElem?_getD, List.getElem_append]
  split
  · rename_i hlt
    simp [hlt]
  · rename_i hge
    simp [Nat.not_lt.mp hge]

theorem take_getD_finRange {α : Type*} {m : Nat} {l : List α} (h : l.length ≤ m) (a : α) :
    ((List.finRange m).take l.length).map (fun y : Fin m => l.getD y a) = l := by
  rw [List.map_take, map_getD_finRange h, List.take_left]

theorem filter_front {allowed : List AllowedIp} (h : allowed.length ≤ cfg.maxAips)
    (hvalid : ∀ a ∈ allowed, a.valid = true) :
    ((List.finRange cfg.maxAips).map fun y : Fin cfg.maxAips => allowed.getD y AllowedIp.zero).filter
      (·.valid) = allowed := by
  rw [map_getD_finRange h, List.filter_append, List.filter_eq_self.mpr hvalid,
    List.filter_eq_nil_iff.mpr, List.append_nil]
  intro a ha
  rw [List.eq_of_mem_replicate ha]
  exact Bool.false_ne_true

/-- **What an accepted request makes of a record.** -/
theorem peerConf_applyPeerReq {self : Option (Fin cfg.maxPeers)} (created : Bool)
    {allowed : List AllowedIp} {p : Peer cfg} {old : PeerConf} (hreplace : req.Replaces)
    (haips : requestedAips n self req = .ok allowed)
    (hold : peerConf p = { old with
      presharedKey := if req.has wgPeerHasPsk then req.presharedKey else old.presharedKey }) :
    peerConf (applyPeerReq n req created allowed p) = old.asked req := by
  have hpsk := congrArg PeerConf.presharedKey hold
  have hip := congrArg PeerConf.connectIp hold
  have hport := congrArg PeerConf.connectPort hold
  have hkeepalive := congrArg PeerConf.keepaliveInterval hold
  have hkept := congrArg PeerConf.allowed hold
  dsimp only [peerConf] at hpsk hip hport hkeepalive hkept
  rw [peerConf_of_setup (applyPeerReq_setup n req created allowed p)]
  unfold requestedSetup PeerConf.asked Peer.setup
  dsimp only
  rw [← hpsk, ← hip, ← hport, ← hkeepalive, ← hkept]
  by_cases hhas : req.has wgPeerHasAips = true
  · obtain ⟨hallowed, hlength⟩ := requestedAips_ok hreplace hhas haips
    rw [if_pos hhas, if_pos hhas, ← hallowed, filter_front hlength]
    intro a ha
    rw [hallowed] at ha
    obtain ⟨aip, -, rfl⟩ := List.mem_map.mp ha
    rfl
  · rw [if_neg hhas, if_neg hhas]
    rfl

theorem peerConf_rekeyedPeer (req : PeerReq) (p : Peer cfg) : peerConf (rekeyedPeer req p) = { peerConf p with
    presharedKey := if req.has wgPeerHasPsk then req.presharedKey
      else (peerConf p).presharedKey } := by
  unfold rekeyedPeer
  split <;> rfl

theorem wgPeerInit_conf {d : Device cfg} {publicKey : Key} {psk : Option Key}
    (h : (wgPeerInit c d publicKey psk).valid = true) :
    (wgPeerInit c d publicKey psk).publicKey = publicKey ∧
      peerConf (wgPeerInit c d publicKey psk)
        = { PeerConf.empty with presharedKey := psk.getD (Bytes.zero 32) } := by
  have hnone : ((List.finRange cfg.maxAips).map fun _ => AllowedIp.zero).filter (·.valid) = [] := by
    rw [List.filter_eq_nil_iff]
    intro a ha
    obtain ⟨-, -, rfl⟩ := List.mem_map.mp ha
    exact Bool.false_ne_true
  unfold wgPeerInit at h ⊢
  split at h
  · cases h
  rename_i hd
  split at h
  · cases h
  · rename_i dh hdh
    rw [if_neg hd]
    exact ⟨rfl, congrArg (PeerConf.mk _ _ _ _) hnone⟩

theorem peerConf_createdPeer (h : (createdPeer c n req).valid = true) :
    (createdPeer c n req).publicKey = req.publicKey ∧
      peerConf (createdPeer c n req) = { PeerConf.empty with
        presharedKey := if req.has wgPeerHasPsk then req.presharedKey
          else PeerConf.empty.presharedKey } := by
  obtain ⟨hkey, hconf⟩ := wgPeerInit_conf c h
  refine ⟨hkey, hconf.trans ?_⟩
  by_cases hpsk : req.has wgPeerHasPsk = true
  · rw [if_pos hpsk, if_pos hpsk]
    rfl
  · rw [if_neg hpsk, if_neg hpsk]
    rfl

/-- What is configured under the key of a request. -/
def askedOf (n : Netdev cfg) (req : PeerReq) : PeerConf :=
  (configured n.wg req.publicKey).getD PeerConf.empty

/-- **What a request writes**: nothing, the one record with its key, or a free record that stays
free. -/
theorem wgSetPeer_writes (hn : PeerKeysDistinct n.wg) :
    (∃ err, wgSetPeer c n req = (n, some err)) ∨
    (∃ x created allowed p, req.Accepted n ∧
      requestedAips n (peerByPubkey n.wg req.publicKey) req = .ok allowed ∧
      wgSetPeer c n req = (n.setPeer x (applyPeerReq n req created allowed p), none) ∧
      p.valid = true ∧ p.publicKey = req.publicKey ∧
      peerConf p = { askedOf n req with
        presharedKey := if req.has wgPeerHasPsk then req.presharedKey
          else (askedOf n req).presharedKey } ∧
      ((n.peer x).valid = true → (n.peer x).publicKey = req.publicKey) ∧
      ∀ y, y ≠ x → (n.peer y).valid = true → (n.peer y).publicKey ≠ req.publicKey) ∨
    ∃ x p, (n.peer x).valid = false ∧ p.valid = false ∧
      wgSetPeer c n req = (n.setPeer x p, some .einval) := by
  have hfree : ∀ x, peerAlloc n.wg = some x → (n.wg.peers x).valid = false := by
    intro x hx
    simpa using List.find?_some hx
  rcases wgSetPeer_outcomes c n req with h | ⟨x, allowed, hreq, haips, ⟨hself, h⟩ |
    ⟨hself, halloc, hcreated, h⟩ | ⟨hself, halloc, hcreated, h⟩⟩
  · exact Or.inl h
  · -- the record of the peer with the key
    obtain ⟨hvalid, hkey⟩ := hn.peerByPubkey_iff.mp hself
    have hrekeyed : (rekeyedPeer req (n.peer x)).valid = true ∧
        (rekeyedPeer req (n.peer x)).publicKey = req.publicKey := by
      unfold rekeyedPeer
      split <;> exact ⟨hvalid, hkey⟩
    have hasked : askedOf n req = peerConf (n.peer x) := by
      unfold askedOf configured
      rw [hself]
      rfl
    refine Or.inr (Or.inl ⟨x, false, allowed, _, hreq, haips, h, hrekeyed.1, hrekeyed.2, ?_, fun _ => hkey,
      fun y hy hyvalid hykey => hy (hn y x hyvalid hvalid (hykey.trans hkey.symm))⟩)
    rw [hasked]
    exact peerConf_rekeyedPeer req (n.peer x)
  · -- a record that was free
    obtain ⟨hkey, hconf⟩ := peerConf_createdPeer c hcreated
    have hasked : askedOf n req = PeerConf.empty := by
      unfold askedOf configured
      rw [hself]
      rfl
    refine Or.inr (Or.inl ⟨x, true, allowed, _, hreq, haips, h, hcreated, hkey, ?_, fun hc => ?_,
      fun y _ hy hykey => ?_⟩)
    · rw [hasked]
      exact hconf
    · rw [show (n.peer x).valid = false from hfree x halloc] at hc
      cases hc
    · rw [hn.peerByPubkey_iff.mpr ⟨hy, hykey⟩] at hself
      cases hself
  · -- the key is none of the curve's, and the record stays free
    exact Or.inr (Or.inr ⟨x, _, hfree x halloc, hcreated, h⟩)

theorem applyPeerReq_identity (created : Bool) (allowed : List AllowedIp) (p : Peer cfg) :
    (applyPeerReq n req created allowed p).valid = p.valid ∧
      (applyPeerReq n req created allowed p).publicKey = p.publicKey := by
  have hsetup := applyPeerReq_setup n req created allowed p
  exact ⟨congrArg Setup.valid hsetup, congrArg Setup.publicKey hsetup⟩

theorem wgSetPeer_distinct (hn : PeerKeysDistinct n.wg) :
    PeerKeysDistinct (wgSetPeer c n req).1.wg := by
  rcases wgSetPeer_writes c hn with ⟨err, h⟩ | ⟨x, created, allowed, p, -, -, h, -, hkey, -, -, hother⟩ |
    ⟨x, p, -, hp, h⟩
  · rw [h]
    exact hn
  · obtain ⟨-, happlied⟩ := @applyPeerReq_identity _ n req created allowed p
    rw [h]
    refine hn.setPeer fun y hy hyvalid => ?_
    rw [happlied, hkey]
    exact hother y hy hyvalid
  · rw [h]
    exact hn.clearPeer hp

/-- **A request is merged into what is configured**, or refused. -/
theorem wgSetPeer_configured (hn : PeerKeysDistinct n.wg) (hreplace : req.Replaces) :
    configured (wgSetPeer c n req).1.wg =
      if (wgSetPeer c n req).2 = none then (configured n.wg).ask req else configured n.wg := by
  rcases wgSetPeer_writes c hn with ⟨err, h⟩ | ⟨x, created, allowed, p, -, haips, h, hvalid, hkey, hconf,
    hown, hother⟩ | ⟨x, p, hfree, hp, h⟩
  · rw [h]
    rfl
  · obtain ⟨happlied, happliedKey⟩ := @applyPeerReq_identity _ n req created allowed p
    rw [hvalid] at happlied
    rw [hkey] at happliedKey
    have hasked := peerConf_applyPeerReq created hreplace haips hconf
    rw [h, if_pos rfl]
    refine (hn.configured_setPeer happlied (fun hx => ?_) fun y hy hyvalid => ?_).trans ?_
    · rw [happliedKey]
      exact hown hx
    · rw [happliedKey]
      exact hother y hy hyvalid
    · unfold Configured.ask
      rw [happliedKey, hasked]
      rfl
  · rw [h, if_neg (fun hc => (by cases hc))]
    exact hn.configured_clearPeer hp hfree

end Requests

/-! ### Removing the first peer -/

section Removing

variable {n : Netdev cfg} {x : Fin cfg.maxPeers} {rest : List (Fin cfg.maxPeers)}

theorem find?_and_of_find? {α : Type*} {p q : α → Bool} {a : α} :
    ∀ {l : List α}, l.find? p = some a → q a = true → (l.find? fun b => p b && q b) = some a := by
  intro l
  induction l with
  | nil => intro h; cases h
  | cons b l ih =>
      intro h hq
      by_cases hb : p b = true
      · rw [List.find?_cons_of_pos hb] at h
        cases h
        exact List.find?_cons_of_pos (by simp [hb, hq])
      · rw [List.find?_cons_of_neg hb] at h
        rw [List.find?_cons_of_neg (by simp [hb])]
        exact ih h hq

/-- The first peer of the table is what its key finds. -/
theorem peerByPubkey_first (h : configuredPeers n = x :: rest) :
    (n.peer x).valid = true ∧ peerByPubkey n.wg (n.peer x).publicKey = some x := by
  have hfind : ((List.finRange cfg.maxPeers).find? fun y => (n.peer y).valid) = some x := by
    rw [← List.head?_filter]
    exact congrArg List.head? h
  exact ⟨by simpa using List.find?_some hfind, find?_and_of_find? hfind (decide_eq_true rfl)⟩

/-- Without it the rest is left. -/
theorem configuredPeers_remove (h : configuredPeers n = x :: rest) :
    configuredPeers (n.setPeer x Peer.zero) = rest := by
  have hnodup : (configuredPeers n).Nodup := (List.nodup_finRange _).filter _
  rw [h, List.nodup_cons] at hnodup
  have hfilter : configuredPeers (n.setPeer x Peer.zero)
      = (configuredPeers n).filter fun y => decide (y ≠ x) := by
    unfold configuredPeers
    rw [List.filter_filter]
    refine List.filter_congr fun y _ => ?_
    by_cases hy : y = x
    · rw [hy, setPeer_peer_self]
      simp [Peer.zero]
    · rw [setPeer_peer_of_ne n x Peer.zero hy]
      simp [hy]
  rw [hfilter, h, List.filter_cons_of_neg (by simp), List.filter_eq_self]
  intro y hy
  exact decide_eq_true fun hc => hnodup.1 (hc ▸ hy)

end Removing

end NuttxWireguard.Kernel
