/-
The driver's control commands.

`SIOCSWGIF`, `SIOCSWGPEER` and `SIOCDWGPEER` are here; the two that only read are not.  A
request is the user's structure, field for field, with its flags as the bits they are.
-/
import NuttxWireguard.Kernel.Netdev

namespace NuttxWireguard.Kernel

open Lib

variable {cfg : Config} (c : Crypto) (env : Env cfg)

/-! ### Requests -/

/-- `WG_MAX_AIPS`. -/
def wgMaxAips : Nat := 8

/-- `struct wg_aip_s`. -/
structure Aip where
  addr : U32
  cidr : Byte

def wgIfHasPrivateKey : U32 := 1 <<< 0
def wgIfHasListenPort : U32 := 1 <<< 1
def wgIfHasAddr : U32 := 1 <<< 2
def wgIfUp : U32 := 1 <<< 4
def wgIfDown : U32 := 1 <<< 5

def wgPeerHasPsk : U32 := 1 <<< 0
def wgPeerHasEndpoint : U32 := 1 <<< 1
def wgPeerHasKeepalive : U32 := 1 <<< 2
def wgPeerHasAips : U32 := 1 <<< 3
def wgPeerReplaceAips : U32 := 1 <<< 4

/-- `struct wg_ifreq_s`, as `SIOCSWGIF` reads it. -/
structure IfReq where
  flags : U32
  privateKey : Key
  listenPort : U16
  addr : U32
  netmask : U32

def IfReq.has (req : IfReq) (flag : U32) : Bool := decide (req.flags &&& flag ≠ 0)

/-- `struct wg_peerreq_s`, as `SIOCSWGPEER` and `SIOCDWGPEER` read it; the endpoint is a
`struct sockaddr_in`, its port and address in network byte order. -/
structure PeerReq where
  flags : U32
  keepalive : U16
  publicKey : Key
  presharedKey : Key
  sinFamily : U16
  sinPort : U16
  sinAddr : U32
  naips : Byte
  aips : Fin wgMaxAips → Aip

def PeerReq.has (req : PeerReq) (flag : U32) : Bool := decide (req.flags &&& flag ≠ 0)

section Flags

variable {flags bits flag : U32}

/-- A flag that is set. -/
theorem or_and_ne_zero (hbits : bits &&& flag = flag) (hflag : flag ≠ 0) :
    (flags ||| bits) &&& flag ≠ 0 := by
  have hand : (flags ||| bits) &&& flag = flag := by
    ext i hi
    have hbit : (bits[i] && flag[i]) = flag[i] := by
      rw [← BitVec.getElem_and, hbits]
    rw [BitVec.getElem_and, BitVec.getElem_or, Bool.and_or_distrib_right, hbit]
    cases flags[i] <;> cases flag[i] <;> rfl
  rw [hand]
  exact hflag

/-- Setting another changes nothing. -/
theorem or_and_of_disjoint (hbits : bits &&& flag = 0) :
    (flags ||| bits) &&& flag = flags &&& flag := by
  ext i hi
  have hbit : (bits[i] && flag[i]) = false := by
    rw [← BitVec.getElem_and, hbits]
    simp
  rw [BitVec.getElem_and, BitVec.getElem_or, Bool.and_or_distrib_right, hbit, Bool.or_false,
    BitVec.getElem_and]

theorem IfReq.has_of_eq {req : IfReq} (hreq : req.flags = flag) (hflag : flag ≠ 0) :
    req.has flag = true := by
  unfold IfReq.has
  rw [hreq, BitVec.and_self]
  exact decide_eq_true hflag

theorem IfReq.has_or {req : IfReq} (hreq : req.flags = flags ||| bits)
    (hbits : bits &&& flag = flag) (hflag : flag ≠ 0) : req.has flag = true := by
  unfold IfReq.has
  rw [hreq]
  exact decide_eq_true (or_and_ne_zero hbits hflag)

theorem PeerReq.has_or {req : PeerReq} (hreq : req.flags = flags ||| bits)
    (hbits : bits &&& flag = flag) (hflag : flag ≠ 0) : req.has flag = true := by
  unfold PeerReq.has
  rw [hreq]
  exact decide_eq_true (or_and_ne_zero hbits hflag)

end Flags

/-- `AF_INET`. -/
def afInet : U16 := 2

/-- `ntohs`. -/
def ntohs (a : U16) : U16 := a.extractLsb' 0 8 ++ a.extractLsb' 8 8

theorem getLsbD_ntohs (a : U16) {i : Nat} (hi : i < 16) :
    (ntohs a).getLsbD i = if i < 8 then a.getLsbD (i + 8) else a.getLsbD (i - 8) := by
  unfold ntohs
  rw [BitVec.getLsbD_append]
  simp only [BitVec.getLsbD_extractLsb']
  by_cases h : i < 8
  · simp [h, Nat.add_comm]
  · have hlt : i - 8 < 8 := by omega
    simp [h, hlt]

theorem ntohs_ntohs (a : U16) : ntohs (ntohs a) = a := by
  refine BitVec.eq_of_getLsbD_eq fun i hi => ?_
  rw [getLsbD_ntohs _ hi]
  split
  · rw [getLsbD_ntohs _ (by omega), if_neg (by omega), Nat.add_sub_cancel]
  · rw [getLsbD_ntohs _ (by omega), if_pos (by omega), Nat.sub_add_cancel (by omega)]

/-- `IN_MULTICAST`. -/
def inMulticast (a : U32) : Bool := decide (a &&& 0xf0000000 = 0xe0000000)

/-! ### Allowed-ips -/

/-- `wg_aip_overlaps`. -/
def wgAipOverlaps (n : Netdev cfg) (self : Option (Fin cfg.maxPeers)) (ip mask : U32) : Bool :=
  (List.finRange cfg.maxPeers).any fun x =>
    (n.peer x).valid && decide (some x ≠ self) &&
      (List.finRange cfg.maxAips).any fun y =>
        let aip := (n.peer x).allowedSourceIps y
        let common := mask &&& aip.mask
        aip.valid && decide (ip &&& common = aip.ip &&& common)

/-- The mask of a prefix length. -/
def prefixMask (cidr : Byte) : U32 :=
  if cidr = 0 then 0 else ntohl (0xffffffff <<< (32 - cidr.toNat))

/-- The valid entries of a peer, in order. -/
def validAips (p : Peer cfg) : List AllowedIp :=
  ((List.finRange cfg.maxAips).map p.allowedSourceIps).filter (·.valid)

/-- The loop of `wg_set_peer` over the request's allowed-ips; `allowed` are the entries
collected so far. -/
def addAips (n : Netdev cfg) (self : Option (Fin cfg.maxPeers)) :
    List Aip → (allowed : List AllowedIp) → Except Errno (List AllowedIp)
  | [], allowed => .ok allowed
  | aip :: aips, allowed =>
    if aip.cidr > 32 ∨ allowed.length ≥ cfg.maxAips then
      .error (if allowed.length ≥ cfg.maxAips then .enospc else .einval)
    else
      let mask := prefixMask aip.cidr
      if wgAipOverlaps n self aip.addr mask then .error .eexist
      else addAips n self aips (allowed ++ [⟨true, aip.addr &&& mask, mask⟩])

/-- The allowed-ips a request leaves its peer with. -/
def requestedAips (n : Netdev cfg) (self : Option (Fin cfg.maxPeers)) (req : PeerReq) :
    Except Errno (List AllowedIp) :=
  if ¬req.has wgPeerHasAips then .ok []
  else if req.naips.toNat > wgMaxAips then .error .einval
  else
    let kept :=
      match self with
      | none => []
      | some x => if req.has wgPeerReplaceAips then [] else validAips (n.peer x)
    addAips n self (((List.finRange wgMaxAips).take req.naips.toNat).map req.aips) kept

/-! ### Commands -/

/-- The endpoint of a request can be one. -/
def endpointOk (req : PeerReq) : Bool :=
  decide (req.sinFamily = afInet) && decide (req.sinPort ≠ 0) && decide (req.sinAddr ≠ 0) &&
    !inMulticast (ntohl req.sinAddr)

/-- The record `wg_set_peer` leaves, once everything was checked: `p` is the peer's, or the
one just initialised. -/
def applyPeerReq (n : Netdev cfg) (req : PeerReq) (created : Bool) (allowed : List AllowedIp)
    (p : Peer cfg) : Peer cfg :=
  let p :=
    if req.has wgPeerHasEndpoint then
      let p := { p with connectIp := req.sinAddr, connectPort := ntohs req.sinPort }
      let p :=
        if created ∨ ¬p.currKeypair.valid then { p with ip := p.connectIp, port := p.connectPort }
        else p
      if n.bifup then { p with active := true, sendHandshake := true } else p
    else p
  let p := if req.has wgPeerHasKeepalive then { p with keepaliveInterval := req.keepalive } else p
  if req.has wgPeerHasAips then
    { p with allowedSourceIps := fun y => allowed.getD y AllowedIp.zero }
  else p

/-- `wg_set_peer`. -/
def wgSetPeer (n : Netdev cfg) (req : PeerReq) : Netdev cfg × Option Errno :=
  if ¬n.wg.valid then (n, some .enokey)
  else if req.publicKey = Bytes.zero 32 ∨ req.publicKey = n.wg.publicKey then (n, some .einval)
  else if req.has wgPeerHasEndpoint ∧ ¬endpointOk req then (n, some .einval)
  else
    let self := peerByPubkey n.wg req.publicKey
    match requestedAips n self req with
    | .error err => (n, some err)
    | .ok allowed =>
      match self with
      | some x =>
        let p :=
          if req.has wgPeerHasPsk then { n.peer x with presharedKey := req.presharedKey }
          else n.peer x
        (n.setPeer x (applyPeerReq n req false allowed p), none)
      | none =>
        match peerAlloc n.wg with
        | none => (n, some .enospc)
        | some x =>
          let p := wgPeerInit c n.wg req.publicKey
            (if req.has wgPeerHasPsk then some req.presharedKey else none)
          if ¬p.valid then (n.setPeer x p, some .einval)
          else (n.setPeer x (applyPeerReq n req true allowed p), none)

/-- A peer as `wg_set_if` sets it up again, from what was saved of it. -/
def restorePeer (d : Device cfg) (saved : Peer cfg) : Peer cfg :=
  if ¬saved.valid then Peer.zero
  else
    let p := wgPeerInit c d saved.publicKey
      (if saved.presharedKey = Bytes.zero 32 then none else some saved.presharedKey)
    if p.valid then { p with
      connectIp := saved.connectIp
      connectPort := saved.connectPort
      ip := saved.connectIp
      port := saved.connectPort
      keepaliveInterval := saved.keepaliveInterval
      allowedSourceIps := saved.allowedSourceIps }
    else p

/-- The private key of a request: the middle of `wg_set_if`. -/
def setPrivateKey (n : Netdev cfg) (privateKey : Key) : Netdev cfg × Option Errno :=
  if privateKey = Bytes.zero 32 then (n, some .einval)
  else if ¬env.savedMalloc then (n, some .enomem)
  else
    let d := wgDeviceInit c env privateKey
    if ¬d.valid then ({ n with wg := d }, some .einval)
    else ({ n with wg := { d with peers := fun x => restorePeer c d (n.peer x) } }, none)

/-- The listen port and the address of a request, likewise. -/
def setPortAddr (n : Netdev cfg) (req : IfReq) : Netdev cfg :=
  let n := if req.has wgIfHasListenPort then { n with listenPort := req.listenPort } else n
  if req.has wgIfHasAddr then { n with ipaddr := req.addr, netmask := req.netmask } else n

/-- `wg_set_if`. -/
def wgSetIf (n : Netdev cfg) (req : IfReq) : Netdev cfg × Outcome :=
  if req.has wgIfUp ∧ ¬n.bifup ∧ n.rxpid ≠ 0 then (n, .returned (some .ebusy))
  else if (req.has wgIfHasPrivateKey ∨ req.has wgIfHasListenPort) ∧ (n.bifup ∨ n.rxpid ≠ 0) then
    (n, .returned (some .ebusy))
  else
    let (n, err) := if req.has wgIfHasPrivateKey then setPrivateKey c env n req.privateKey
      else (n, none)
    if err ≠ none then (n, .returned err)
    else
      let n := setPortAddr n req
      if req.has wgIfUp then
        let (n, err) := wgIfup env n
        (n, .returned err)
      else if req.has wgIfDown then wgIfdown n
      else (n, .returned none)

/-- `SIOCDWGPEER`, in `wg_ioctl`. -/
def wgDelPeer (n : Netdev cfg) (publicKey : Key) : Netdev cfg × Option Errno :=
  if n.bifup ∨ n.rxpid ≠ 0 then (n, some .ebusy)
  else
    match peerByPubkey n.wg publicKey with
    | none => (n, some .enoent)
    | some x => (n.setPeer x Peer.zero, none)

end NuttxWireguard.Kernel
