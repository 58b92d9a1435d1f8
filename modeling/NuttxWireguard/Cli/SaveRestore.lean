/-
Saving a configuration and loading it again (`wg_cmd_saveconf`, `wg_cmd_setconf`).

The file has the private key the caller knows and what the driver reports of the rest.  What
the driver reports is not all that was configured: it keeps the pre-shared keys to itself, and
for an endpoint it gives the one in use, which traffic moves.  A peer at its configured
endpoint and without a pre-shared key comes back as it was.
-/
import NuttxWireguard.Cli.Publish
import NuttxWireguard.Cli.ReadBack
import NuttxWireguard.Cli.Setconf
import NuttxWireguard.Kernel.PeerKeys

namespace NuttxWireguard.Cli

open Lib Kernel

variable {w : LongWidth} {cfg : Config} (c : Crypto)

/-! ### Saving -/

/-- What `wg_write_conf` asks the driver for, at time `now`. -/
def wgReport (now : U32) (n : Netdev cfg) : IfInfo × List PeerInfo :=
  (wgGetIf n, enumeratePeers (wgGetPeer now n) (wgGetIf n).npeers.toNat 0)

/-- `wg_cmd_saveconf`, whose temporary file gets `suffix`; whether it returns zero.  What may
fail is in the publishing. -/
def wgCmdSaveconf (now : U32) (n : Netdev cfg) (suffix : List.Vector Char 6) (faults : Faults Char)
    (fs : Files Text Text) (path : Text) : Files Text Text × Bool :=
  match (fs path).bind wgFilePrivateKey with
  | none => (fs, false)
  | some privkey =>
    if (tempName path suffix).length ≥ 128 then (fs, false)
    else
      let (ifr, peers) := wgReport now n
      wgReplaceFile faults (fs.write (tempName path suffix) (wgWriteConf ifr peers privkey))
        (tempName path suffix) path

/-- A file was saved: it is written with the key of the file there was. -/
theorem wgCmdSaveconf_saved {now : U32} {n : Netdev cfg} {suffix : List.Vector Char 6}
    {faults : Faults Char} {fs : Files Text Text} {path privkey : Text}
    (hkey : (fs path).bind wgFilePrivateKey = some privkey)
    (h : (wgCmdSaveconf now n suffix faults fs path).2 = true) :
    (wgCmdSaveconf now n suffix faults fs path).1 path
      = some (wgWriteConf (wgReport now n).1 (wgReport now n).2 privkey) := by
  unfold wgCmdSaveconf at h ⊢
  rw [hkey] at h ⊢
  dsimp only at h ⊢
  split at h
  · cases h
  · rename_i hlength
    rw [if_neg hlength]
    have hreplaced := Publisher.replaced
      ⟨suffix, wgWriteConf (wgReport now n).1 (wgReport now n).2 privkey, faults⟩ fs path
    unfold Publisher.run at hreplaced
    dsimp only at hreplaced
    rw [h] at hreplaced
    cases hreplaced with
    | published _ hpath _ => exact hpath

/-! ### What is reported -/

section Report

variable {now : U32} {n : Netdev cfg} {p : Peer cfg}

/-- The peers are asked for by their number. -/
theorem enumeratePeers_drop {get : U16 → Option PeerInfo} {l : List PeerInfo}
    (hget : ∀ i < l.length, get (BitVec.ofNat 16 i) = l[i]?) :
    ∀ count i, i + count = l.length → enumeratePeers get count i = l.drop i := by
  intro count
  induction count with
  | zero =>
      intro i hi
      rw [List.drop_eq_nil_of_le (by omega)]
      rfl
  | succ count ih =>
      intro i hi
      unfold enumeratePeers
      rw [hget i (by omega), List.getElem?_eq_getElem (by omega)]
      dsimp only
      rw [ih (i + 1) (by omega)]
      exact (List.drop_eq_getElem_cons (by omega)).symm

theorem wgReport_peers (hpeers : cfg.maxPeers < 2 ^ 16) (now : U32) (n : Netdev cfg) :
    (wgReport now n).2 = (configuredPeers n).map fun x => peerInfo now (n.peer x) := by
  have hle := length_configuredPeers n
  have hget : ∀ i < ((configuredPeers n).map fun x => peerInfo now (n.peer x)).length,
      wgGetPeer now n (BitVec.ofNat 16 i)
        = ((configuredPeers n).map fun x => peerInfo now (n.peer x))[i]? := by
    intro i hi
    rw [List.length_map] at hi
    unfold wgGetPeer
    rw [BitVec.toNat_ofNat, Nat.mod_eq_of_lt (by omega), List.getElem?_map]
  unfold wgReport
  dsimp only
  rw [npeers_toNat hpeers, enumeratePeers_drop hget _ 0 (by rw [List.length_map, Nat.zero_add])]
  rfl

theorem length_validAips (p : Peer cfg) : (validAips p).length ≤ cfg.maxAips := by
  unfold validAips
  refine (List.length_filter_le _ _).trans ?_
  rw [List.length_map, List.length_finRange]

theorem infoFlags_has (P Q R S : Prop) [Decidable P] [Decidable Q] [Decidable R] [Decidable S] :
    let flags := (if P then wgPeerHasPsk else 0) ||| (if Q then wgPeerHasEndpoint else 0) |||
      wgPeerHasKeepalive ||| (if R then wgPeerHasAips else 0) ||| if S then wgPeerHandshaked else 0
    decide (flags &&& wgPeerHasAips ≠ 0) = decide R ∧
      decide (flags &&& wgPeerHasEndpoint ≠ 0) = decide Q := by
  by_cases hP : P <;> by_cases hQ : Q <;> by_cases hR : R <;> by_cases hS : S <;>
    simp only [hP, hQ, hR, hS, if_true, if_false] <;> decide

theorem peerInfo_has (now : U32) (p : Peer cfg) :
    (peerInfo now p).has wgPeerHasAips = decide ((validAips p).length > 0) ∧
      (peerInfo now p).has wgPeerHasEndpoint = decide (p.ip ≠ 0) :=
  infoFlags_has _ _ _ _

theorem reported_peerInfo (haips : cfg.maxAips ≤ wgMaxAips) (now : U32) (p : Peer cfg) :
    PeerInfo.reported (peerInfo now p) = (validAips p).map reportedAip := by
  have hlength : ((validAips p).map reportedAip).length ≤ wgMaxAips := by
    rw [List.length_map]
    exact (length_validAips p).trans haips
  have hnaips : (peerInfo now p).naips.toNat = ((validAips p).map reportedAip).length := by
    rw [List.length_map] at hlength ⊢
    unfold wgMaxAips at hlength
    unfold peerInfo
    dsimp only
    rw [BitVec.toNat_ofNat, Nat.mod_eq_of_lt (by omega)]
  unfold PeerInfo.reported
  rw [hnaips]
  exact take_getD_finRange hlength _

theorem reportable_peerInfo (haips : cfg.maxAips ≤ wgMaxAips) (now : U32) (p : Peer cfg) :
    Reportable (peerInfo now p) := by
  constructor
  · intro aip haip
    rw [reported_peerInfo haips] at haip
    obtain ⟨a, -, rfl⟩ := List.mem_map.mp haip
    exact reportedAip_cidr a
  · intro hhas
    rw [(peerInfo_has now p).1, decide_eq_true_eq] at hhas
    rw [reported_peerInfo haips, Ne, List.map_eq_nil_iff]
    exact List.ne_nil_of_length_pos hhas

/-! ### What is read back -/

theorem sectionFlags_has (P Q R : Prop) [Decidable P] [Decidable Q] [Decidable R] :
    let flags := PeerReq.zero.flags ||| (if P then wgPeerHasAips ||| wgPeerReplaceAips else 0) |||
      (if Q then wgPeerHasEndpoint else 0) ||| if R then wgPeerHasKeepalive else 0
    decide (flags &&& wgPeerHasPsk ≠ 0) = false ∧
      decide (flags &&& wgPeerHasEndpoint ≠ 0) = decide Q ∧
      decide (flags &&& wgPeerHasKeepalive ≠ 0) = decide R ∧
      decide (flags &&& wgPeerHasAips ≠ 0) = decide P := by
  by_cases hP : P <;> by_cases hQ : Q <;> by_cases hR : R <;>
    simp only [hP, hQ, hR, if_true, if_false] <;> decide

/-- What a section's request has, and no more. -/
theorem sectionReq_has (peer : PeerInfo) :
    (sectionReq peer).has wgPeerHasPsk = false ∧
      (sectionReq peer).has wgPeerHasEndpoint = peer.has wgPeerHasEndpoint ∧
      (sectionReq peer).has wgPeerHasKeepalive = decide (peer.keepalive > 0) ∧
      (sectionReq peer).has wgPeerHasAips = peer.has wgPeerHasAips := by
  have hflags : (sectionReq peer).flags = PeerReq.zero.flags |||
      (if peer.has wgPeerHasAips then wgPeerHasAips ||| wgPeerReplaceAips else 0) |||
      (if peer.has wgPeerHasEndpoint then wgPeerHasEndpoint else 0) |||
      if peer.keepalive > 0 then wgPeerHasKeepalive else 0 := by
    unfold sectionReq keepaliveRead endpointRead aipsRead
    split <;> split <;> split <;> simp
  have hhas := sectionFlags_has (peer.has wgPeerHasAips = true) (peer.has wgPeerHasEndpoint = true)
    (peer.keepalive > 0)
  simp only [Bool.decide_eq_true] at hhas
  unfold PeerReq.has at hhas ⊢
  rw [hflags]
  exact hhas

theorem sectionReq_publicKey (peer : PeerInfo) : (sectionReq peer).publicKey = peer.publicKey := by
  unfold sectionReq keepaliveRead endpointRead aipsRead
  split <;> split <;> split <;> rfl

theorem sectionReq_endpoint {peer : PeerInfo} (h : peer.has wgPeerHasEndpoint = true) :
    (sectionReq peer).sinFamily = afInet ∧ (sectionReq peer).sinPort = peer.sinPort ∧
      (sectionReq peer).sinAddr = peer.sinAddr := by
  unfold sectionReq keepaliveRead endpointRead
  rw [if_pos h]
  split <;> exact ⟨rfl, rfl, rfl⟩

theorem sectionReq_keepalive {peer : PeerInfo} (h : peer.keepalive > 0) :
    (sectionReq peer).keepalive = peer.keepalive := by
  unfold sectionReq keepaliveRead
  rw [if_pos h]

theorem sectionReq_aips (peer : PeerInfo) :
    (sectionReq peer).naips.toNat ≤ wgMaxAips ∧
      (sectionReq peer).aipList = if peer.has wgPeerHasAips then PeerInfo.reported peer else [] := by
  have hlength := length_reported peer
  have hnaips : (BitVec.ofNat 8 (PeerInfo.reported peer).length).toNat
      = (PeerInfo.reported peer).length := by
    unfold wgMaxAips at hlength
    rw [BitVec.toNat_ofNat, Nat.mod_eq_of_lt (by omega)]
  have hkept : ∀ req : PeerReq, (keepaliveRead peer (endpointRead peer req)).naips = req.naips ∧
      (keepaliveRead peer (endpointRead peer req)).aips = req.aips := by
    intro req
    unfold keepaliveRead endpointRead
    split <;> split <;> exact ⟨rfl, rfl⟩
  unfold sectionReq PeerReq.aipList
  rw [(hkept _).1, (hkept _).2]
  unfold aipsRead
  split
  · dsimp only
    rw [hnaips]
    exact ⟨hlength, take_getD_finRange hlength _⟩
  · exact ⟨Nat.zero_le _, rfl⟩

/-- What a saved peer is configured with once it is loaded again. -/
def savedConf (p : Peer cfg) : PeerConf :=
  { peerConf p with
    presharedKey := Bytes.zero 32
    connectIp := p.ip
    connectPort := if p.ip ≠ 0 then p.port else 0 }

/-- **What a saved section asks for.** -/
theorem asked_sectionReq (haips : cfg.maxAips ≤ wgMaxAips) (now : U32) {d : Device cfg}
    {p : Peer cfg} (h : WellKept c d p) :
    PeerConf.empty.asked (sectionReq (peerInfo now p)) = savedConf p := by
  obtain ⟨hpsk, hendpoint, hkeepalive, hhas⟩ := sectionReq_has (peerInfo now p)
  rw [(peerInfo_has now p).2] at hendpoint
  rw [(peerInfo_has now p).1] at hhas
  have hlist := (sectionReq_aips (peerInfo now p)).2
  rw [(peerInfo_has now p).1, reported_peerInfo haips] at hlist
  unfold PeerConf.asked savedConf peerConf
  rw [hpsk, hendpoint, hkeepalive, hhas, if_neg Bool.false_ne_true]
  congr 1
  · by_cases hip : p.ip = 0
    · simp [hip, PeerConf.empty]
    · obtain ⟨-, -, haddr⟩ := @sectionReq_endpoint (peerInfo now p) (by
        rw [(peerInfo_has now p).2]
        exact decide_eq_true hip)
      rw [haddr, if_pos (decide_eq_true hip)]
      rfl
  · by_cases hip : p.ip = 0
    · simp [hip, PeerConf.empty]
    · obtain ⟨-, hport, -⟩ := @sectionReq_endpoint (peerInfo now p) (by
        rw [(peerInfo_has now p).2]
        exact decide_eq_true hip)
      rw [hport, if_pos (decide_eq_true hip), if_pos hip]
      show ntohs (if p.ip ≠ 0 then ntohs p.port else 0) = p.port
      rw [if_pos hip, ntohs_ntohs]
  · by_cases hzero : (peerInfo now p).keepalive > 0
    · rw [if_pos (decide_eq_true hzero), sectionReq_keepalive hzero]
      rfl
    · rw [if_neg (by simpa using hzero)]
      show (0 : U16) = p.keepaliveInterval
      have hzero : ¬p.keepaliveInterval > 0 := hzero
      exact (by simpa using hzero : p.keepaliveInterval = 0).symm
  · rw [hlist]
    by_cases hnone : (validAips p).length > 0
    · rw [if_pos (decide_eq_true hnone), if_pos (decide_eq_true hnone), List.map_map]
      refine (List.map_congr_left fun a ha => ?_).trans (List.map_id _)
      obtain ⟨hmem, hvalid⟩ := List.mem_filter.mp ha
      obtain ⟨y, -, rfl⟩ := List.mem_map.mp hmem
      exact (h.aips y hvalid).kept_reportedAip hvalid
    · rw [if_neg (by simpa using hnone)]
      exact (List.eq_nil_of_length_eq_zero (Nat.le_zero.mp (Nat.not_lt.mp hnone))).symm

end Report

/-! ### The sections of a saved file -/

/-- The sections of some peers. -/
def savedSections (now : U32) (n : Netdev cfg) (xs : List (Fin cfg.maxPeers)) : List PeerReq :=
  xs.map fun x => sectionReq (peerInfo now (n.peer x))

section Sections

variable {c} {now : U32} {n m : Netdev cfg} {xs : List (Fin cfg.maxPeers)}

theorem nodup_savedSections (hn : PeerKeysDistinct n.wg) (hxs : xs.Nodup)
    (hvalid : ∀ x ∈ xs, (n.peer x).valid = true) :
    ((savedSections now n xs).map PeerReq.publicKey).Nodup := by
  unfold savedSections
  rw [List.map_map]
  refine hxs.map_on fun x hx y hy hxy => ?_
  simp only [Function.comp_apply, sectionReq_publicKey] at hxy
  exact hn x y (hvalid x hx) (hvalid y hy) hxy

/-- What is configured once the sections of some peers are loaded. -/
theorem configured_savedSections (haips : cfg.maxAips ≤ wgMaxAips) (hn : Device.Kept c n.wg)
    (hxs : xs.Nodup) (hvalid : ∀ x ∈ xs, (n.peer x).valid = true)
    (hm : Loaded m (savedSections now n xs)) (key : Key) :
    configured m.wg key = (xs.find? fun x => decide ((n.peer x).publicKey = key)).map
      fun x => savedConf (n.peer x) := by
  rw [hm.peers, foldl_ask_of_nodup _ _ (nodup_savedSections hn.distinct hxs hvalid) fun _ _ => rfl]
  unfold savedSections
  rw [List.find?_map]
  have hpred : ((fun req : PeerReq => decide (req.publicKey = key)) ∘
      fun x => sectionReq (peerInfo now (n.peer x)))
      = fun x => decide ((n.peer x).publicKey = key) := by
    funext x
    simp only [Function.comp_apply, sectionReq_publicKey]
    rfl
  rw [hpred]
  cases hfound : xs.find? fun x => decide ((n.peer x).publicKey = key) with
  | none => rfl
  | some x =>
      obtain ⟨-, hx⟩ := hn.peers x (hvalid x (List.mem_of_find?_eq_some hfound))
      exact congrArg some (asked_sectionReq c haips now hx)

/-- Every peer there is then is one of them. -/
theorem exists_saved (haips : cfg.maxAips ≤ wgMaxAips) (hn : Device.Kept c n.wg)
    (hxs : xs.Nodup) (hvalid : ∀ x ∈ xs, (n.peer x).valid = true)
    (hm : Loaded m (savedSections now n xs)) {y : Fin cfg.maxPeers} (hy : (m.peer y).valid = true) :
    ∃ x ∈ xs, (n.peer x).publicKey = (m.peer y).publicKey ∧
      peerConf (m.peer y) = savedConf (n.peer x) := by
  have hconf : configured m.wg (m.peer y).publicKey = some (peerConf (m.peer y)) :=
    hm.distinct.configured_iff.mpr ⟨y, hy, rfl, rfl⟩
  rw [configured_savedSections haips hn hxs hvalid hm, Option.map_eq_some_iff] at hconf
  obtain ⟨x, hfound, hsaved⟩ := hconf
  have hkey := List.find?_some hfound
  exact ⟨x, List.mem_of_find?_eq_some hfound, of_decide_eq_true hkey, hsaved.symm⟩

/-- There is room for another one. -/
theorem exists_free (haips : cfg.maxAips ≤ wgMaxAips) (hn : Device.Kept c n.wg)
    (hxs : xs.Nodup) (hvalid : ∀ x ∈ xs, (n.peer x).valid = true)
    (hm : Loaded m (savedSections now n xs)) (hroom : xs.length < cfg.maxPeers) :
    ∃ y, (m.peer y).valid = false := by
  by_contra hfull
  have hfull : ∀ y, (m.peer y).valid = true := by
    intro y
    by_contra hy
    exact hfull ⟨y, Bool.eq_false_iff.mpr hy⟩
  -- each peer has the key of one of `xs`, and no two have the same
  have hcard := Finset.card_le_card_of_injOn (s := Finset.univ)
    (t := (xs.map fun x => (n.peer x).publicKey).toFinset) (fun y => (m.peer y).publicKey)
    (fun y _ => ?_) fun y _ z _ hyz => hm.distinct y z (hfull y) (hfull z) hyz
  · rw [Finset.card_univ, Fintype.card_fin] at hcard
    have hle := List.toFinset_card_le (xs.map fun x => (n.peer x).publicKey)
    rw [List.length_map] at hle
    omega
  · obtain ⟨x, hx, hkey, -⟩ := exists_saved haips hn hxs hvalid hm (hfull y)
    exact List.mem_toFinset.mpr (List.mem_map.mpr ⟨x, hx, hkey⟩)

/-- The endpoint of a section is one the driver takes, if it is the configured one. -/
theorem endpointOk_savedSection {d : Device cfg} {p : Peer cfg} (h : WellKept c d p)
    (hip : p.ip = p.connectIp) (hport : p.ip ≠ 0 → p.port = p.connectPort) (hne : p.ip ≠ 0) :
    endpointOk (sectionReq (peerInfo now p)) = true := by
  obtain ⟨hfamily, hsinPort, hsinAddr⟩ := @sectionReq_endpoint (peerInfo now p) (by
    rw [(peerInfo_has now _).2]
    exact decide_eq_true hne)
  obtain ⟨-, hconnect, hmulticast⟩ : p.connectIp ≠ 0 ∧ p.connectPort ≠ 0 ∧
      inMulticast (ntohl p.connectIp) = false := by
    rcases h.endpoint with ⟨hzero, -⟩ | hgiven
    · exact absurd (hip.trans hzero) hne
    · exact hgiven
  have hsinPort : (sectionReq (peerInfo now p)).sinPort = ntohs p.connectPort := by
    rw [hsinPort, ← hport hne]
    exact if_pos hne
  refine endpointOk_iff.mpr ⟨hfamily, ?_, ?_, ?_⟩
  · rw [hsinPort]
    exact mt ntohs_eq_zero.mp hconnect
  · rw [hsinAddr]
    exact hne
  · rw [hsinAddr, show (peerInfo now p).sinAddr = p.connectIp from hip]
    exact hmulticast

/-- What one peer allows overlaps with nothing that the sections of others have put there. -/
theorem not_overlaps_saved (haips : cfg.maxAips ≤ wgMaxAips) (hreach : ReachableState c n)
    {x : Fin cfg.maxPeers} (hx : (n.peer x).valid = true) (hnot : x ∉ xs) (hxs : xs.Nodup)
    (hvalid : ∀ y ∈ xs, (n.peer y).valid = true) (hm : Loaded m (savedSections now n xs))
    (i : Fin cfg.maxAips) (hi : ((n.peer x).allowedSourceIps i).valid = true) :
    wgAipOverlaps m none ((n.peer x).allowedSourceIps i).ip
      ((n.peer x).allowedSourceIps i).mask = false := by
  have hn := kept c hreach
  refine not_overlaps ((hn.peers x hx).2.aips i hi) hi fun y hy old hold => ?_
  obtain ⟨x', hx', -, hconf⟩ := exists_saved haips hn hxs hvalid hm hy
  have holdAips : validAips (m.peer y) = validAips (n.peer x') :=
    congrArg PeerConf.allowed hconf
  rw [holdAips] at hold
  obtain ⟨hentry, holdValid⟩ := List.mem_filter.mp hold
  obtain ⟨j, -, rfl⟩ := List.mem_map.mp hentry
  refine ⟨(hn.peers x' (hvalid x' hx')).2.aips j holdValid, fun addr haddr => ?_⟩
  by_contra hboth
  have hsame := (exclusive c hreach).only x x' addr (sourceAllowed_iff.mpr ⟨i, haddr⟩)
    (sourceAllowed_iff.mpr ⟨j, eq_true_of_ne_false hboth⟩)
  exact hnot (hsame ▸ hx')

/-- **The section of another peer is accepted**, if that is at its configured endpoint and has
not the device's own key. -/
theorem savedSection_accepted (haips : cfg.maxAips ≤ wgMaxAips) (hreach : ReachableState c n)
    {x : Fin cfg.maxPeers} (hnodup : (x :: xs).Nodup)
    (hall : ∀ y ∈ x :: xs, (n.peer y).valid = true)
    (hm : Loaded m (savedSections now n xs)) (hvalid : m.wg.valid = true)
    (hprivate : m.wg.privateKey = n.wg.privateKey)
    (hforeign : (n.peer x).publicKey ≠ m.wg.publicKey)
    (hip : (n.peer x).ip = (n.peer x).connectIp)
    (hport : (n.peer x).ip ≠ 0 → (n.peer x).port = (n.peer x).connectPort) :
    (wgSetPeer c m (sectionReq (peerInfo now (n.peer x)))).2 = none := by
  have hn := kept c hreach
  have hx := hall x List.mem_cons_self
  have hxs : ∀ y ∈ xs, (n.peer y).valid = true := fun y hy => hall y (List.mem_cons_of_mem _ hy)
  obtain ⟨hnot, hxsNodup⟩ := List.nodup_cons.mp hnodup
  obtain ⟨-, hkept⟩ := hn.peers x hx
  obtain ⟨-, hendpoint, -, -⟩ := sectionReq_has (peerInfo now (n.peer x))
  rw [(peerInfo_has now (n.peer x)).2] at hendpoint
  obtain ⟨hnaips, hlist⟩ := sectionReq_aips (peerInfo now (n.peer x))
  rw [reported_peerInfo haips] at hlist
  have hmem : ∀ aip ∈ (sectionReq (peerInfo now (n.peer x))).aipList,
      ∃ a ∈ validAips (n.peer x), aip = reportedAip a := by
    intro aip haip
    rw [hlist] at haip
    split at haip
    · obtain ⟨a, ha, rfl⟩ := List.mem_map.mp haip
      exact ⟨a, ha, rfl⟩
    · cases haip
  refine wgSetPeer_accepts c ⟨hvalid, ?_, ?_, fun hhas => ?_⟩ ?_ ?_ ?_ hnaips ?_ fun aip haip => ?_
  · rw [sectionReq_publicKey]
    exact hkept.key
  · rw [sectionReq_publicKey]
    exact hforeign
  · rw [hendpoint, decide_eq_true_eq] at hhas
    exact endpointOk_savedSection hkept hip hport hhas
  · -- its key is none of the peers' there are
    have hnone : configured m.wg (n.peer x).publicKey = none := by
      rw [configured_savedSections haips hn hxsNodup hxs hm, Option.map_eq_none_iff,
        List.find?_eq_none]
      intro y hy hkey
      exact hnot (hn.distinct y x (hxs y hy) hx (of_decide_eq_true hkey) ▸ hy)
    rw [sectionReq_publicKey]
    exact Option.map_eq_none_iff.mp hnone
  · refine exists_free haips hn hxsNodup hxs hm ?_
    have hle := (List.Nodup.length_le_card hnodup)
    rw [Fintype.card_fin, List.length_cons] at hle
    exact hle
  · rw [sectionReq_publicKey, hprivate]
    exact hkept.agrees
  · rw [hlist]
    split
    · rw [List.length_map]
      exact length_validAips _
    · exact Nat.zero_le _
  · -- what it allows is apart from what the others allow
    obtain ⟨a, ha, rfl⟩ := hmem aip haip
    obtain ⟨hentry, havalid⟩ := List.mem_filter.mp ha
    obtain ⟨i, -, rfl⟩ := List.mem_map.mp hentry
    refine ⟨reportedAip_cidr _, ?_⟩
    rw [show prefixMask (reportedAip ((n.peer x).allowedSourceIps i)).cidr
      = ((n.peer x).allowedSourceIps i).mask from (hkept.aips i havalid).mask]
    exact not_overlaps_saved haips hreach hx hnot hxsNodup hxs hm i havalid

end Sections

/-! ### Loading it into a new interface -/

/-- The same configuration. -/
structure Restored (n m : Netdev cfg) : Prop where
  privateKey : m.wg.privateKey = n.wg.privateKey
  listenPort : m.listenPort = n.listenPort
  ipaddr : m.ipaddr = n.ipaddr
  netmask : m.netmask = n.netmask
  peers : configured m.wg = configured n.wg

/-- A configuration a file can hold, next to the key `k`. -/
structure Restorable (k : Key) (n : Netdev cfg) : Prop where
  key : k ≠ Bytes.zero 32
  netmask : if n.ipaddr = 0 then n.netmask = 0 else PrefixMask n.netmask
  peers : ∀ x, (n.peer x).valid = true → (n.peer x).presharedKey = Bytes.zero 32 ∧
    (n.peer x).ip = (n.peer x).connectIp ∧
    ((n.peer x).ip ≠ 0 → (n.peer x).port = (n.peer x).connectPort) ∧
    (n.peer x).publicKey ≠ n.wg.publicKey

section Restoring

variable {c} {env : Env cfg} {now : U32} {n : Netdev cfg} {i : Nat} {k : Key}

/-- What the section of the interface asks for. -/
theorem interfaceReq_fields (n : Netdev cfg) (k : Key) :
    (interfaceReq (wgGetIf n) k).privateKey = k ∧
    (interfaceReq (wgGetIf n) k).has wgIfHasPrivateKey = true ∧
    (interfaceReq (wgGetIf n) k).has wgIfHasListenPort = true ∧
    (interfaceReq (wgGetIf n) k).listenPort = n.listenPort ∧
    (interfaceReq (wgGetIf n) k).has wgIfHasAddr = decide (n.ipaddr ≠ 0) ∧
    (n.ipaddr ≠ 0 → (interfaceReq (wgGetIf n) k).addr = n.ipaddr ∧
      (interfaceReq (wgGetIf n) k).netmask
        = prefixMask (BitVec.ofNat 8 (maskCidr n.netmask))) := by
  have haddr : (wgGetIf n).has wgIfHasAddr = true := by
    have hflags : ∀ P Q : Prop, [Decidable P] → [Decidable Q] → decide ((wgIfHasListenPort |||
        wgIfHasAddr ||| (if P then wgIfHasPublicKey else 0) ||| if Q then wgIfUp else 0) &&&
          wgIfHasAddr ≠ 0) = true := by
      intro P Q _ _
      by_cases hP : P <;> by_cases hQ : Q <;> simp only [hP, hQ, if_true, if_false] <;> decide
    exact hflags _ _
  unfold interfaceReq
  dsimp only
  by_cases hzero : n.ipaddr = 0
  · have hflags : ∀ flag : U32, flag = wgIfHasPrivateKey ∨ flag = wgIfHasListenPort →
        decide ((IfReq.zero.flags ||| wgIfHasPrivateKey ||| wgIfHasListenPort) &&& flag ≠ 0) = true := by
      rintro flag (rfl | rfl) <;> decide
    have hnone : decide ((IfReq.zero.flags ||| wgIfHasPrivateKey ||| wgIfHasListenPort) &&&
        wgIfHasAddr ≠ 0) = false := by decide
    rw [if_neg fun hc => hc.2 hzero, decide_eq_false (not_not.mpr hzero)]
    exact ⟨rfl, hflags _ (Or.inl rfl), hflags _ (Or.inr rfl), rfl, hnone, fun hc => absurd hzero hc⟩
  · have hflags : ∀ flag : U32, flag = wgIfHasPrivateKey ∨ flag = wgIfHasListenPort ∨
        flag = wgIfHasAddr → decide ((IfReq.zero.flags ||| wgIfHasPrivateKey ||| wgIfHasListenPort |||
          wgIfHasAddr) &&& flag ≠ 0) = true := by
      rintro flag (rfl | rfl | rfl) <;> decide
    rw [if_pos ⟨haddr, hzero⟩, decide_eq_true hzero]
    exact ⟨rfl, hflags _ (Or.inl rfl), hflags _ (Or.inr (Or.inl rfl)), rfl,
      hflags _ (Or.inr (Or.inr rfl)), fun _ => ⟨rfl, rfl⟩⟩

/-- A new interface accepts the section of an interface with a key. -/
theorem wgSetIf_new {req : IfReq} {own : Key} (hup : req.has wgIfUp = false)
    (hdown : req.has wgIfDown = false) (hkey : req.has wgIfHasPrivateKey = true)
    (hne : req.privateKey ≠ Bytes.zero 32) (hsaved : env.savedMalloc = true)
    (hown : c.generatePublicKey (Crypto.clamp req.privateKey) = some own) :
    (wgSetIf c env (wireguardInitialize i) req).2 = .returned none := by
  have hsets : (Event.setIf env req).setsKey (wireguardInitialize i) = true :=
    (setsKey_setIf_iff _ _ _).mpr ⟨⟨hkey, rfl, rfl⟩, hne, hsaved⟩
  rcases @wgSetIf_outcomes _ c env (wireguardInitialize i) req with ⟨hc, -⟩ | ⟨-, h⟩
  · rw [hsets] at hc
    cases hc
  rcases @setPrivateKey_device _ c env (wireguardInitialize i) req hne hsaved with
    ⟨hc, -⟩ | ⟨d, own', -, -, -, -, hset⟩
  · rw [hown] at hc
    cases hc
  rw [hset] at h
  rcases h with ⟨err, hc, -⟩ | ⟨-, h⟩
  · cases hc
  · rw [h]
    unfold wgSetIfRest
    rw [hup, hdown, if_neg Bool.false_ne_true, if_neg Bool.false_ne_true]

theorem addPeers_keysApart : ∀ (reqs : List PeerReq) (n : Netdev cfg), PeerKeysApart n.wg →
    PeerKeysApart (addPeers c reqs n).1.wg := by
  intro reqs
  induction reqs with
  | nil => intro n hn; exact hn
  | cons req reqs ih =>
      intro n hn
      have hnext : PeerKeysApart (wgSetPeer c n req).1.wg := wgSetPeer_keysApart req hn
      unfold addPeers
      split
      · rename_i n' err h
        rw [h] at hnext
        exact hnext
      · rename_i n' h
        rw [h] at hnext
        exact ih n' hnext

/-- A key is looked for in the order of the table. -/
theorem peerByPubkey_eq (n : Netdev cfg) (key : Key) :
    peerByPubkey n.wg key
      = (configuredPeers n).find? fun x => decide ((n.peer x).publicKey = key) := by
  unfold configuredPeers peerByPubkey
  rw [List.find?_filter]
  simp only [Bool.decide_and, Bool.decide_eq_true]
  rfl

theorem clamp_ne_zero (k : Key) : Crypto.clamp k ≠ Bytes.zero 32 := by
  intro hc
  have hlast : (Crypto.clamp k).get 31 = (Bytes.zero 32).get 31 := by rw [hc]
  unfold Crypto.clamp at hlast
  rw [List.Vector.get_ofFn, if_neg (by decide), if_pos rfl] at hlast
  have hbit : ((k.get 31 &&& 127) ||| 64).getLsbD 6 = true := by
    rw [BitVec.getLsbD_or, Bool.or_eq_true]
    exact Or.inr (by decide)
  rw [hlast] at hbit
  exact absurd hbit (by decide)

theorem SameButPeers.fields {m : Netdev cfg} (h : SameButPeers n m) :
    (m.wg.valid = n.wg.valid ∧ m.wg.privateKey = n.wg.privateKey ∧
      m.wg.publicKey = n.wg.publicKey) ∧
    m.listenPort = n.listenPort ∧ m.ipaddr = n.ipaddr ∧ m.netmask = n.netmask := by
  obtain ⟨peers, rfl⟩ := h
  exact ⟨⟨rfl, rfl, rfl⟩, rfl, rfl, rfl⟩

theorem setPortAddr_fields (n : Netdev cfg) (req : IfReq) :
    (setPortAddr n req).wg = n.wg ∧
    (setPortAddr n req).listenPort
      = (if req.has wgIfHasListenPort then req.listenPort else n.listenPort) ∧
    (setPortAddr n req).ipaddr = (if req.has wgIfHasAddr then req.addr else n.ipaddr) ∧
    (setPortAddr n req).netmask = if req.has wgIfHasAddr then req.netmask else n.netmask := by
  unfold setPortAddr
  dsimp only
  split <;> split <;> exact ⟨rfl, rfl, rfl, rfl⟩

/-- The peers of `n` are all reported with the port of their endpoint. -/
def PortsGiven (now : U32) (n : Netdev cfg) : Prop :=
  ∀ x ∈ configuredPeers n, PortGiven (peerInfo now (n.peer x))

/-- **What loading a saved file comes to**, if its key is accepted and every endpoint in it has a
port. -/
theorem setconf_saved (hpeers : cfg.maxPeers < 2 ^ 16) {own : Key}
    (hown : c.generatePublicKey (Crypto.clamp k) = some own) (hk : k ≠ Bytes.zero 32)
    (hmalloc : env.savedMalloc = true) {file : Text} {inPeer : Bool}
    (hfile : readConf w cfg.maxPeers file
      = .ok ⟨interfaceReq (wgGetIf n) k, savedSections now n (configuredPeers n), inPeer⟩) :
    let r := wgCmdSetconf c env w (wireguardInitialize i) (some file)
    ∃ done rest, savedSections now n (configuredPeers n) = done ++ rest ∧
      (r.2 = true ↔ rest = []) ∧ Loaded r.1 done ∧ PeerKeysApart r.1.wg ∧
      (r.1.wg.privateKey = Crypto.clamp k ∧ r.1.wg.publicKey = own) ∧
      (r.1.listenPort = n.listenPort ∧ r.1.ipaddr = n.ipaddr ∧ r.1.netmask =
        if n.ipaddr = 0 then 0 else prefixMask (BitVec.ofNat 8 (maskCidr n.netmask))) ∧
      ∀ req more, rest = req :: more → ∃ m err, Loaded m done ∧
        (m.wg.valid = true ∧ m.wg.privateKey = Crypto.clamp k ∧ m.wg.publicKey = own) ∧
        wgSetPeer c m req = (r.1, some err) := by
  intro r
  have hplain := readConf_plain hfile
  obtain ⟨hprivate, hhasKey, hhasPort, hport, hhasAddr, haddr⟩ := interfaceReq_fields n k
  have hset : (wgSetIf c env (wireguardInitialize i) (interfaceReq (wgGetIf n) k)).2
      = .returned none :=
    wgSetIf_new hplain.up hplain.down hhasKey (by rwa [hprivate]) hmalloc (by rwa [hprivate])
  obtain ⟨d, m, -, -, -, hnone, heq⟩ :=
    wgCmdSetconf_adds c env hpeers hfile ⟨rfl, rfl⟩ hset
  have hapart : PeerKeysApart r.1.wg := by
    obtain ⟨hinvalid, hdistinct, -⟩ := configured_of_none hnone
    have hno : ∀ x, (m.wg.peers x).valid = true → False := by
      intro x hx
      rw [show (m.wg.peers x).valid = false from hinvalid x] at hx
      cases hx
    rw [show r = addPeers c (savedSections now n (configuredPeers n)) m from heq]
    exact addPeers_keysApart _ m ⟨hdistinct, fun x hx => (hno x hx).elim,
      fun x hx => (hno x hx).elim⟩
  obtain ⟨d, done, rest, hkey, hvalid, hsame, hsplit, hall, hloaded, hrefused⟩ :=
    wgCmdSetconf_stopped c env hpeers hfile ⟨rfl, rfl⟩ hset
  obtain ⟨hvalid, hdown⟩ := hvalid hhasKey
  rw [if_pos hhasKey, hprivate] at hkey
  rw [hkey, hown] at hdown
  have hdown := Option.some.inj hdown
  obtain ⟨hwg, hlisten, hip, hmask⟩ := setPortAddr_fields
    ({ (wireguardInitialize i : Netdev cfg) with wg := d }) (interfaceReq (wgGetIf n) k)
  refine ⟨done, rest, hsplit, hall, hloaded, hapart, ?_, ?_, fun req more hrest => ?_⟩
  · obtain ⟨⟨-, hprivate', hpublic'⟩, -⟩ := hsame.fields
    rw [hwg] at hprivate' hpublic'
    exact ⟨hprivate'.trans hkey, hpublic'.trans hdown.symm⟩
  · obtain ⟨-, hlisten', hip', hmask'⟩ := hsame.fields
    refine ⟨?_, ?_, ?_⟩
    · rw [hlisten, if_pos hhasPort, hport] at hlisten'
      exact hlisten'
    · refine hip'.trans (hip.trans ?_)
      rw [hhasAddr]
      by_cases hzero : n.ipaddr = 0
      · rw [if_neg (by simpa using hzero), hzero]
        rfl
      · rw [if_pos (decide_eq_true hzero)]
        exact (haddr hzero).1
    · refine hmask'.trans (hmask.trans ?_)
      rw [hhasAddr]
      by_cases hzero : n.ipaddr = 0
      · rw [if_neg (by simpa using hzero), if_pos hzero]
        rfl
      · rw [if_pos (decide_eq_true hzero), if_neg hzero]
        exact (haddr hzero).2
  · obtain ⟨m, err, hm, hmsame, hreq⟩ := hrefused req more hrest
    obtain ⟨⟨hmvalid, hmprivate, hmpublic⟩, -⟩ := hmsame.fields
    rw [hwg] at hmvalid hmprivate hmpublic
    exact ⟨m, err, hm, ⟨hmvalid.trans hvalid, hmprivate.trans hkey, hmpublic.trans hdown.symm⟩,
      hreq⟩

/-- **A peer comes back as it was** if it has no pre-shared key and is at its configured
endpoint. -/
theorem savedConf_eq_iff {d : Device cfg} {p : Peer cfg} (h : WellKept c d p) :
    savedConf p = peerConf p ↔ p.presharedKey = Bytes.zero 32 ∧ p.ip = p.connectIp ∧
      (p.ip ≠ 0 → p.port = p.connectPort) := by
  constructor
  · intro heq
    have hip : p.ip = p.connectIp := congrArg PeerConf.connectIp heq
    have hport : (if p.ip ≠ 0 then p.port else 0) = p.connectPort :=
      congrArg PeerConf.connectPort heq
    refine ⟨(congrArg PeerConf.presharedKey heq).symm, hip, fun hne => ?_⟩
    rw [if_pos hne] at hport
    exact hport
  · rintro ⟨hpsk, hip, hport⟩
    have hport : (if p.ip ≠ 0 then p.port else 0) = p.connectPort := by
      by_cases hzero : p.ip = 0
      · rw [if_neg (not_not.mpr hzero)]
        rcases h.endpoint with ⟨-, hnone⟩ | ⟨hne, -⟩
        · exact hnone.symm
        · exact absurd (hip.symm.trans hzero) hne
      · rw [if_pos hzero]
        exact hport hzero
    unfold savedConf peerConf
    dsimp only
    rw [hport, hip, hpsk]

end Restoring

/-! ### The whole way -/

section RoundTrip

variable {c} {now : U32} {n : Netdev cfg} {k : Key} {recorded : Text}

theorem valid_of_configuredPeers : ∀ x ∈ configuredPeers n, (n.peer x).valid = true :=
  fun _ hx => (List.mem_filter.mp hx).2

theorem nodup_configuredPeers (n : Netdev cfg) : (configuredPeers n).Nodup :=
  (List.nodup_finRange _).filter _

/-- A saved file parses, exactly if every endpoint in it has a port. -/
theorem readConf_report (hpeers : cfg.maxPeers < 2 ^ 16) (haips : cfg.maxAips ≤ wgMaxAips)
    (htext : KeyText recorded) (hdecode : wgB64Decode recorded = some k) :
    (PortsGiven now n → ∃ inPeer, readConf w cfg.maxPeers
      (wgWriteConf (wgReport now n).1 (wgReport now n).2 recorded)
        = .ok ⟨interfaceReq (wgGetIf n) k, savedSections now n (configuredPeers n), inPeer⟩) ∧
    (¬PortsGiven now n → ∃ err, readConf w cfg.maxPeers
      (wgWriteConf (wgReport now n).1 (wgReport now n).2 recorded) = .error err) := by
  have hreport := wgReport_peers hpeers now n
  have hreportable : ∀ info ∈ (wgReport now n).2, Reportable info := by
    rw [hreport]
    intro info hinfo
    obtain ⟨x, -, rfl⟩ := List.mem_map.mp hinfo
    exact reportable_peerInfo haips now _
  have hroom : (wgReport now n).2.length ≤ cfg.maxPeers := by
    rw [hreport, List.length_map]
    exact length_configuredPeers n
  have hports : (∀ info ∈ (wgReport now n).2, PortGiven info) ↔ PortsGiven now n := by
    rw [hreport]
    exact List.forall_mem_map
  constructor
  · intro hgiven
    obtain ⟨inPeer, hfile⟩ := @readConf_writeConf _ _ (wgReport now n).1 _ _ _ htext hdecode
      hreportable (hports.mpr hgiven) hroom
    refine ⟨inPeer, hfile.trans ?_⟩
    rw [hreport, List.map_map]
    rfl
  · intro hnone
    exact readConf_writeConf_bad htext hdecode hreportable (mt hports.mp hnone) hroom

/-- The driver refuses no section of a configuration a file can hold. -/
theorem no_section_refused (haips : cfg.maxAips ≤ wgMaxAips) (hreach : ReachableState c n)
    (hrestorable : Restorable k n) {m : Netdev cfg} {done more : List PeerReq} {req : PeerReq}
    (hsplit : savedSections now n (configuredPeers n) = done ++ req :: more) (hm : Loaded m done)
    (hvalid : m.wg.valid = true) (hprivate : m.wg.privateKey = n.wg.privateKey)
    (hpublic : m.wg.publicKey = n.wg.publicKey) : (wgSetPeer c m req).2 = none := by
  obtain ⟨xs, ys, hxs, rfl, hys⟩ := List.map_eq_append_iff.mp hsplit
  obtain ⟨x, zs, rfl, rfl, -⟩ := List.map_eq_cons_iff.mp hys
  have hnodup := nodup_configuredPeers n
  have hall := @valid_of_configuredPeers _ n
  rw [hxs] at hnodup hall
  obtain ⟨hnodupXs, -, hapart⟩ := List.nodup_append.mp hnodup
  have hx : x ∉ xs := fun hx => hapart x hx x List.mem_cons_self rfl
  have hall : ∀ y ∈ x :: xs, (n.peer y).valid = true := by
    intro y hy
    rcases List.mem_cons.mp hy with rfl | hy
    · exact hall y (List.mem_append_right _ List.mem_cons_self)
    · exact hall y (List.mem_append_left _ hy)
  obtain ⟨-, hip, hport, hforeign⟩ := hrestorable.peers x (hall x List.mem_cons_self)
  exact savedSection_accepted haips hreach (List.nodup_cons.mpr ⟨hx, hnodupXs⟩) hall hm hvalid
    hprivate (by rwa [hpublic]) hip hport

/-- **All sections loaded make the same peers, exactly if each comes back as it was.** -/
theorem loaded_restores_iff (haips : cfg.maxAips ≤ wgMaxAips) (hn : Device.Kept c n.wg)
    {m : Netdev cfg} (hm : Loaded m (savedSections now n (configuredPeers n))) :
    configured m.wg = configured n.wg ↔
      ∀ x, (n.peer x).valid = true → savedConf (n.peer x) = peerConf (n.peer x) := by
  have hloaded := configured_savedSections haips hn (nodup_configuredPeers n)
    valid_of_configuredPeers hm
  have hconf : ∀ key, configured n.wg key = ((configuredPeers n).find? fun x =>
      decide ((n.peer x).publicKey = key)).map fun x => peerConf (n.peer x) := by
    intro key
    rw [← peerByPubkey_eq]
    rfl
  constructor
  · intro hsame x hx
    have hfound : (configuredPeers n).find? (fun y =>
        decide ((n.peer y).publicKey = (n.peer x).publicKey)) = some x := by
      rw [← peerByPubkey_eq]
      exact hn.distinct.peerByPubkey_iff.mpr ⟨hx, rfl⟩
    have hboth := congrFun hsame (n.peer x).publicKey
    rw [hloaded, hconf, hfound] at hboth
    exact Option.some.inj hboth
  · intro hsaved
    funext key
    rw [hloaded, hconf]
    cases hfound : (configuredPeers n).find? fun x => decide ((n.peer x).publicKey = key) with
    | none => rfl
    | some x =>
        exact congrArg some (hsaved x (valid_of_configuredPeers x (List.mem_of_find?_eq_some hfound)))

/-- A device with a key has the public key that goes with it. -/
theorem public_of_clamp (hn : Device.Kept c n.wg) (hown : Crypto.clamp k = n.wg.privateKey) :
    c.generatePublicKey (Crypto.clamp k) = some n.wg.publicKey := by
  have hcheck := hn.own
  by_cases hvalid : n.wg.valid = true
  · rw [if_pos hvalid] at hcheck
    rw [hown]
    exact hcheck
  · rw [if_neg hvalid, ← hown] at hcheck
    exact absurd hcheck (clamp_ne_zero k)

/-- The mask that comes back is the one that was saved, exactly if a prefix length says it. -/
theorem netmask_restored_iff (n : Netdev cfg) :
    (if n.ipaddr = 0 then 0 else prefixMask (BitVec.ofNat 8 (maskCidr n.netmask))) = n.netmask ↔
      if n.ipaddr = 0 then n.netmask = 0 else PrefixMask n.netmask := by
  by_cases hzero : n.ipaddr = 0
  · rw [if_pos hzero, if_pos hzero]
    exact eq_comm
  · rw [if_neg hzero, if_neg hzero]
    exact Iff.rfl

/-- A configured endpoint has a port. -/
theorem Restorable.portsGiven (hn : Device.Kept c n.wg) (h : Restorable k n) : PortsGiven now n := by
  intro x hx hhas
  have hx := valid_of_configuredPeers x hx
  obtain ⟨-, hip, hport, -⟩ := h.peers x hx
  rw [(peerInfo_has now _).2, decide_eq_true_eq] at hhas
  show (if (n.peer x).ip ≠ 0 then ntohs (n.peer x).port else 0) ≠ 0
  rw [if_pos hhas, hport hhas]
  rcases (hn.peers x hx).2.endpoint with ⟨hzero, -⟩ | ⟨-, hne, -⟩
  · exact absurd (hip.trans hzero) hhas
  · exact mt ntohs_eq_zero.mp hne

/-- A saved file that loads has parsed, and the driver has taken its key. -/
theorem setconf_report_ok (hpeers : cfg.maxPeers < 2 ^ 16) (haips : cfg.maxAips ≤ wgMaxAips)
    (htext : KeyText recorded) (hdecode : wgB64Decode recorded = some k) {env : Env cfg} {i : Nat}
    (hok : (wgCmdSetconf c env w (wireguardInitialize i)
      (some (wgWriteConf (wgReport now n).1 (wgReport now n).2 recorded))).2 = true) :
    (∃ inPeer, readConf w cfg.maxPeers
      (wgWriteConf (wgReport now n).1 (wgReport now n).2 recorded)
        = .ok ⟨interfaceReq (wgGetIf n) k, savedSections now n (configuredPeers n), inPeer⟩) ∧
      k ≠ Bytes.zero 32 ∧ env.savedMalloc = true := by
  have hread := @readConf_report w _ now n k recorded hpeers haips htext hdecode
  have hgiven : PortsGiven now n := by
    by_contra hnone
    obtain ⟨err, herr⟩ := hread.2 hnone
    rw [wgCmdSetconf_unread c env herr] at hok
    cases hok
  obtain ⟨inPeer, hfile⟩ := hread.1 hgiven
  have haccepted : ¬Refuses env (wireguardInitialize i) (interfaceReq (wgGetIf n) k) := by
    intro hrefuses
    rw [wgCmdSetconf_refused c env hfile hrefuses] at hok
    cases hok
  obtain ⟨hprivate, hhasKey, -⟩ := interfaceReq_fields n k
  refine ⟨⟨inPeer, hfile⟩, fun hc => ?_, ?_⟩
  · exact haccepted (Or.inr ⟨hhasKey, Or.inl (hprivate.trans hc)⟩)
  · by_contra hc
    exact haccepted (Or.inr ⟨hhasKey, Or.inr (Bool.eq_false_iff.mpr hc)⟩)

end RoundTrip

/-! ### Runs on a small network -/

/-- A directory in which the device's key is recorded. -/
def sampleFiles : Files Text Text := fun path =>
  if path = ['c'] then some (wgRecordPrivateKey (wgB64Encode (Sample.key 8 64)) none) else none

def sampleSuffix : List.Vector Char 6 := ⟨['a', 'b', 'c', 'd', 'e', 'f'], rfl⟩

theorem sampleFiles_recorded : (sampleFiles ['c']).bind wgFilePrivateKey
    = some (wgB64Encode (Sample.key 8 64)) := by
  decide +kernel

/-- Saved and loaded again. -/
def sampleRestored (n : Netdev Sample.config) : Netdev Sample.config × Bool :=
  wgCmdSetconf Crypto.plain (Sample.env 3000) .lp64 (wireguardInitialize 0)
    ((wgCmdSaveconf 2000 n sampleSuffix Faults.none sampleFiles ['c']).1 ['c'])

/-- What a peer was configured with is not what it comes back with. -/
def NotRestored (n : Netdev Sample.config) : Prop :=
  ReachableState Crypto.plain n ∧ Crypto.clamp (Sample.key 8 64) = n.wg.privateKey ∧
    (wgCmdSaveconf 2000 n sampleSuffix Faults.none sampleFiles ['c']).2 = true ∧
    ¬((sampleRestored n).2 = true ∧ Restored n (sampleRestored n).1)

/-- A run whose last state shows in a value of its first peer that it is lost. -/
theorem notRestored_of_run {α : Type} [DecidableEq α] (value : PeerConf → α)
    (p : Netdev Sample.config → Bool) (events : List (Event Sample.config))
    (h : ((Sample.state events).any fun n =>
      decide (Crypto.clamp (Sample.key 8 64) = n.wg.privateKey) &&
      (wgCmdSaveconf 2000 n sampleSuffix Faults.none sampleFiles ['c']).2 &&
      decide ((configured (sampleRestored n).1.wg (Sample.key 3 0)).map value
        ≠ (configured n.wg (Sample.key 3 0)).map value) && p n) = true) :
    ∃ n, NotRestored n ∧ p n = true := by
  obtain ⟨n, hn, hrun⟩ := Sample.exists_reachable events _ h
  simp only [Bool.and_eq_true, decide_eq_true_eq] at hrun
  obtain ⟨⟨⟨hown, hsaved⟩, hvalue⟩, hp⟩ := hrun
  refine ⟨n, ⟨hn, hown, hsaved, ?_⟩, hp⟩
  rintro ⟨-, hrestored⟩
  exact hvalue (by rw [hrestored.peers])

/-- The peer has a pre-shared key. -/
def setFirstPsk : Event Sample.config :=
  .setPeer { Sample.firstReq none with
    flags := (Sample.firstReq none).flags ||| wgPeerHasPsk
    presharedKey := Sample.key 1 1 }

end NuttxWireguard.Cli
