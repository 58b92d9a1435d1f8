/-
The driver's commands that only read.

`SIOCGWGIF` and `SIOCGWGPEER` fill in the structure the caller passes.  The private key and
the pre-shared keys stay with the driver, and an endpoint is the one in use, which need not
be the one that was configured.
-/
import NuttxWireguard.Kernel.Ioctl

namespace NuttxWireguard.Kernel

open Lib

variable {cfg : Config}

def wgIfHasPublicKey : U32 := 1 <<< 3
def wgPeerHandshaked : U32 := 1 <<< 5

/-- `WG_HANDSHAKE_NEVER`. -/
def wgHandshakeNever : U32 := 0xffffffff

/-- `struct wg_ifreq_s`, as `SIOCGWGIF` fills it in. -/
structure IfInfo extends IfReq where
  publicKey : Key
  npeers : U16

/-- `struct wg_peerreq_s`, as `SIOCGWGPEER` fills it in. -/
structure PeerInfo extends PeerReq where
  lastHandshake : U32
  rxBytes : U64
  txBytes : U64

/-- The bits at the top of a mask, in host byte order: what `cidr` counts in
`for (; hmask & 0x80000000; hmask <<= 1)`. -/
def leadingOnes : (bits : Nat) → U32 → Nat
  | 0, _ => 0
  | bits + 1, hmask => if hmask &&& 0x80000000 ≠ 0 then leadingOnes bits (hmask <<< 1) + 1 else 0

/-- The prefix length of a mask. -/
def maskCidr (mask : U32) : Nat := leadingOnes 32 (ntohl mask)

theorem leadingOnes_le (bits : Nat) (hmask : U32) : leadingOnes bits hmask ≤ bits := by
  induction bits generalizing hmask with
  | zero => exact Nat.le_refl 0
  | succ bits ih =>
      unfold leadingOnes
      split
      · exact Nat.succ_le_succ (ih _)
      · exact Nat.zero_le _

theorem maskCidr_le (mask : U32) : maskCidr mask ≤ 32 := leadingOnes_le 32 _

/-- The configured peers, in the order of the table. -/
def configuredPeers (n : Netdev cfg) : List (Fin cfg.maxPeers) :=
  (List.finRange cfg.maxPeers).filter fun x => (n.peer x).valid

/-- `wg_get_if`. -/
def wgGetIf (n : Netdev cfg) : IfInfo where
  flags := wgIfHasListenPort ||| wgIfHasAddr ||| (if n.wg.valid then wgIfHasPublicKey else 0) |||
    if n.bifup then wgIfUp else 0
  privateKey := Bytes.zero 32
  publicKey := if n.wg.valid then n.wg.publicKey else Bytes.zero 32
  listenPort := n.listenPort
  addr := n.ipaddr
  netmask := n.netmask
  npeers := BitVec.ofNat 16 (configuredPeers n).length

theorem length_configuredPeers (n : Netdev cfg) : (configuredPeers n).length ≤ cfg.maxPeers := by
  unfold configuredPeers
  refine (List.length_filter_le _ _).trans ?_
  rw [List.length_finRange]

theorem npeers_toNat (hpeers : cfg.maxPeers < 2 ^ 16) (n : Netdev cfg) :
    (wgGetIf n).npeers.toNat = (configuredPeers n).length := by
  have hle := length_configuredPeers n
  unfold wgGetIf
  dsimp only
  rw [BitVec.toNat_ofNat, Nat.mod_eq_of_lt (by omega)]

/-- What `wg_get_peer` fills in for a peer, at time `now`. -/
def peerInfo (now : U32) (p : Peer cfg) : PeerInfo where
  flags := (if p.presharedKey ≠ Bytes.zero 32 then wgPeerHasPsk else 0) |||
    (if p.ip ≠ 0 then wgPeerHasEndpoint else 0) ||| wgPeerHasKeepalive |||
    (if (validAips p).length > 0 then wgPeerHasAips else 0) |||
    if p.currKeypair.valid then wgPeerHandshaked else 0
  keepalive := p.keepaliveInterval
  publicKey := p.publicKey
  presharedKey := Bytes.zero 32
  sinFamily := if p.ip ≠ 0 then afInet else 0
  sinPort := if p.ip ≠ 0 then ntohs p.port else 0
  sinAddr := p.ip
  naips := BitVec.ofNat 8 (validAips p).length
  aips := fun j =>
    ((validAips p).map fun aip => (⟨aip.ip, BitVec.ofNat 8 (maskCidr aip.mask)⟩ : Aip)).getD j ⟨0, 0⟩
  lastHandshake :=
    if p.currKeypair.valid then now - p.currKeypair.keypairMillis else wgHandshakeNever
  rxBytes := p.rxBytes
  txBytes := p.txBytes

/-- `wg_get_peer`. -/
def wgGetPeer (now : U32) (n : Netdev cfg) (index : U16) : Option PeerInfo :=
  ((configuredPeers n)[index.toNat]?).map fun x => peerInfo now (n.peer x)

end NuttxWireguard.Kernel
