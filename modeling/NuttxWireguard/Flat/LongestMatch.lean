/-
The longest prefix gets the packet.

The routing loop compares masks, read as numbers in host order.  Where every mask is a run of
ones that orders the prefixes by their length, so the peer it finds has the longest prefix the
address lies in.  Two different prefixes of one length share no address; with all of them
different only one entry can be the longest, and its peer is found wherever in the table the
peer and the entry stand.
-/
import NuttxWireguard.Flat.Routing

namespace NuttxWireguard.Flat

open Lib

variable {cfg : Config} {d : Device cfg} {dest : U32}

/-! ### Prefixes -/

/-- The allowed-ip is a prefix of `len` bits. -/
def IsPrefix (a : AllowedIp) (len : Nat) : Prop := len ≤ 32 ∧ a.mask = netmask len

/-- An entry of the table that is in use. -/
def InTable (d : Device cfg) (x : Fin cfg.maxPeers) (y : Fin cfg.maxAips) : Prop :=
  (d.peers x).valid = true ∧ ((d.peers x).allowedSourceIps y).valid = true

/-- Every mask in use is a run of ones. -/
def Contiguous (d : Device cfg) : Prop :=
  ∀ x y, InTable d x y → ∃ len, IsPrefix ((d.peers x).allowedSourceIps y) len

/-- No prefix is configured twice. -/
def PrefixesDistinct (d : Device cfg) : Prop :=
  ∀ x y x' y', InTable d x y → InTable d x' y' →
    ((d.peers x).allowedSourceIps y).mask = ((d.peers x').allowedSourceIps y').mask →
    ((d.peers x).allowedSourceIps y).ip &&& ((d.peers x).allowedSourceIps y).mask
      = ((d.peers x').allowedSourceIps y').ip &&& ((d.peers x').allowedSourceIps y').mask →
    x = x' ∧ y = y'

/-- The entry's prefix contains the address, and no other one that does is longer. -/
def LongestAt (d : Device cfg) (dest : U32) (x : Fin cfg.maxPeers) (y : Fin cfg.maxAips) : Prop :=
  (d.peers x).valid = true ∧ ((d.peers x).allowedSourceIps y).covers dest = true ∧
    ∃ len, IsPrefix ((d.peers x).allowedSourceIps y) len ∧
      ∀ x' y' len', (d.peers x').valid = true →
        ((d.peers x').allowedSourceIps y').covers dest = true →
        IsPrefix ((d.peers x').allowedSourceIps y') len' → len' ≤ len

/-- As numbers in host order, longer masks are greater. -/
theorem netmask_le_table : ∀ i j : Fin 33,
    (ntohl (netmask i)).toNat ≤ (ntohl (netmask j)).toNat ↔ i ≤ j := by decide +kernel

theorem netmask_le_iff {n k : Nat} (hn : n ≤ 32) (hk : k ≤ 32) :
    (ntohl (netmask n)).toNat ≤ (ntohl (netmask k)).toNat ↔ n ≤ k :=
  netmask_le_table ⟨n, by omega⟩ ⟨k, by omega⟩

theorem covers_valid {a : AllowedIp} (h : a.covers dest = true) : a.valid = true :=
  (Bool.and_eq_true_iff.mp h).1

theorem covers_prefix {a : AllowedIp} (h : a.covers dest = true) :
    dest &&& a.mask = a.ip &&& a.mask :=
  of_decide_eq_true (Bool.and_eq_true_iff.mp h).2

/-! ### The longest match -/

theorem longestAt_of_max (hcontig : Contiguous d) {x : Fin cfg.maxPeers} {y : Fin cfg.maxAips}
    (hvalid : (d.peers x).valid = true)
    (hy : ((d.peers x).allowedSourceIps y).covers dest = true)
    (hmax : ∀ x' y', (d.peers x').valid = true →
      ((d.peers x').allowedSourceIps y').covers dest = true →
      (ntohl ((d.peers x').allowedSourceIps y').mask).toNat
        ≤ (ntohl ((d.peers x).allowedSourceIps y).mask).toNat) : LongestAt d dest x y := by
  obtain ⟨len, hlen, hmask⟩ := hcontig x y ⟨hvalid, covers_valid hy⟩
  refine ⟨hvalid, hy, len, ⟨hlen, hmask⟩, ?_⟩
  intro x' y' len' hvalid' hy' hmatch'
  obtain ⟨hlen', hmask'⟩ := hmatch'
  have hle := hmax x' y' hvalid' hy'
  rw [hmask, hmask'] at hle
  exact (netmask_le_iff hlen' hlen).mp hle

/-- **The peer that is found holds the longest match.** -/
theorem exists_longestAt (hcontig : Contiguous d) {x : Fin cfg.maxPeers}
    (h : peerForDest d dest = some x) : ∃ y, LongestAt d dest x y := by
  obtain ⟨hvalid, y, hy, hmax⟩ := peerForDest_max h
  exact ⟨y, longestAt_of_max hcontig hvalid hy hmax⟩

/-- With distinct prefixes there is only one. -/
theorem longestAt_unique (hdistinct : PrefixesDistinct d) {x x' : Fin cfg.maxPeers}
    {y y' : Fin cfg.maxAips} (h : LongestAt d dest x y) (h' : LongestAt d dest x' y') : x = x' := by
  obtain ⟨hvalid, hy, len, hmatch, hmax⟩ := h
  obtain ⟨hvalid', hy', len', hmatch', hmax'⟩ := h'
  have hlen : len = len' :=
    Nat.le_antisymm (hmax' x y len hvalid hy hmatch) (hmax x' y' len' hvalid' hy' hmatch')
  have hmask : ((d.peers x).allowedSourceIps y).mask = ((d.peers x').allowedSourceIps y').mask := by
    rw [hmatch.2, hmatch'.2, hlen]
  have hip : ((d.peers x).allowedSourceIps y).ip &&& ((d.peers x).allowedSourceIps y).mask
      = ((d.peers x').allowedSourceIps y').ip &&& ((d.peers x').allowedSourceIps y').mask := by
    rw [← covers_prefix hy, ← covers_prefix hy', hmask]
  exact (hdistinct x y x' y' ⟨hvalid, covers_valid hy⟩ ⟨hvalid', covers_valid hy'⟩ hmask hip).1

/-- So the longest match decides the peer. -/
theorem peerForDest_iff_longestAt (hcontig : Contiguous d) (hdistinct : PrefixesDistinct d)
    {x : Fin cfg.maxPeers} : peerForDest d dest = some x ↔ ∃ y, LongestAt d dest x y := by
  refine ⟨exists_longestAt hcontig, ?_⟩
  rintro ⟨y, h⟩
  cases hfound : peerForDest d dest with
  | none =>
      have hnone := peerForDest_eq_none_iff.mp hfound x y h.1
      rw [h.2.1] at hnone
      cases hnone
  | some x' =>
      obtain ⟨y', h'⟩ := exists_longestAt hcontig hfound
      rw [longestAt_unique hdistinct h h']

/-! ### Another order -/

/-- The table with its peers, and the entries of each, in another order. -/
def shuffle (d : Device cfg) (σ : Equiv.Perm (Fin cfg.maxPeers))
    (τ : Fin cfg.maxPeers → Equiv.Perm (Fin cfg.maxAips)) : Device cfg :=
  { d with peers := fun x => { d.peers (σ x) with
      allowedSourceIps := fun y => (d.peers (σ x)).allowedSourceIps (τ x y) } }

variable (σ : Equiv.Perm (Fin cfg.maxPeers)) (τ : Fin cfg.maxPeers → Equiv.Perm (Fin cfg.maxAips))

theorem Contiguous.shuffle (h : Contiguous d) : Contiguous (shuffle d σ τ) :=
  fun x y hin => h (σ x) (τ x y) hin

theorem PrefixesDistinct.shuffle (h : PrefixesDistinct d) : PrefixesDistinct (shuffle d σ τ) := by
  intro x y x' y' hin hin' hmask hip
  obtain ⟨hx, hy⟩ := h (σ x) (τ x y) (σ x') (τ x' y') hin hin' hmask hip
  obtain rfl : x = x' := σ.injective hx
  exact ⟨rfl, (τ x).injective hy⟩

/-- Who holds the longest match does not depend on the order. -/
theorem longestAt_shuffle {x : Fin cfg.maxPeers} :
    (∃ y, LongestAt (shuffle d σ τ) dest x y) ↔ ∃ y, LongestAt d dest (σ x) y := by
  constructor
  · rintro ⟨y, hvalid, hy, len, hmatch, hmax⟩
    refine ⟨τ x y, hvalid, hy, len, hmatch, fun x' y' len' hvalid' hy' hmatch' => ?_⟩
    refine hmax (σ.symm x') ((τ (σ.symm x')).symm y') len' ?_ ?_ ?_
    · show (d.peers (σ (σ.symm x'))).valid = true
      rw [Equiv.apply_symm_apply]
      exact hvalid'
    · show ((d.peers (σ (σ.symm x'))).allowedSourceIps
        (τ (σ.symm x') ((τ (σ.symm x')).symm y'))).covers dest = true
      rw [Equiv.apply_symm_apply, Equiv.apply_symm_apply]
      exact hy'
    · show IsPrefix ((d.peers (σ (σ.symm x'))).allowedSourceIps
        (τ (σ.symm x') ((τ (σ.symm x')).symm y'))) len'
      rw [Equiv.apply_symm_apply, Equiv.apply_symm_apply]
      exact hmatch'
  · rintro ⟨y, hvalid, hy, len, hmatch, hmax⟩
    refine ⟨(τ x).symm y, hvalid, ?_, len, ?_, fun x' y' len' hvalid' hy' hmatch' =>
      hmax (σ x') (τ x' y') len' hvalid' hy' hmatch'⟩
    · show ((d.peers (σ x)).allowedSourceIps (τ x ((τ x).symm y))).covers dest = true
      rw [Equiv.apply_symm_apply]
      exact hy
    · show IsPrefix ((d.peers (σ x)).allowedSourceIps (τ x ((τ x).symm y))) len
      rw [Equiv.apply_symm_apply]
      exact hmatch

/-- **The longest prefix gets the packet.**  With contiguous masks the peer that is found has a
prefix that contains the address and is at least as long as any other that does; none is found
exactly when no prefix contains the address; and with distinct prefixes the peer does not depend
on the order of the peers or of their entries. -/
theorem longest_match (hcontig : Contiguous d) (dest : U32) :
    (∀ x, peerForDest d dest = some x → ∃ y, LongestAt d dest x y) ∧
    (peerForDest d dest = none ↔
      ∀ x y, (d.peers x).valid = true → ((d.peers x).allowedSourceIps y).covers dest = false) ∧
    (PrefixesDistinct d →
      ∀ (σ : Equiv.Perm (Fin cfg.maxPeers)) (τ : Fin cfg.maxPeers → Equiv.Perm (Fin cfg.maxAips)),
        (peerForDest (shuffle d σ τ) dest).map σ = peerForDest d dest) := by
  refine ⟨fun x => exists_longestAt hcontig, peerForDest_eq_none_iff, fun hdistinct σ τ => ?_⟩
  have hiff : ∀ x, peerForDest (shuffle d σ τ) dest = some x ↔ peerForDest d dest = some (σ x) := by
    intro x
    rw [peerForDest_iff_longestAt (hcontig.shuffle σ τ) (hdistinct.shuffle σ τ),
      peerForDest_iff_longestAt hcontig hdistinct, longestAt_shuffle]
  refine Option.ext fun x => ?_
  rw [Option.map_eq_some_iff]
  constructor
  · rintro ⟨x', hx', rfl⟩
    exact (hiff x').mp hx'
  · intro hx
    exact ⟨σ.symm x, (hiff _).mpr (by rw [Equiv.apply_symm_apply]; exact hx),
      Equiv.apply_symm_apply σ x⟩

namespace Sample

open NuttxWireguard.Sample

/-- The second peer is a host in the first one's network. -/
def table : Device config :=
  { (Device.zero : Device config) with peers := fun x => { Peer.zero with
      valid := true
      allowedSourceIps := fun _ =>
        if x = first then ⟨true, address 10 0 0 0, netmask 24⟩
        else ⟨true, address 10 0 0 5, netmask 32⟩ } }

theorem table_contiguous : Contiguous table := by
  intro x y _
  by_cases hx : x = first
  · refine ⟨24, by decide, ?_⟩
    show (if x = first then _ else _ : AllowedIp).mask = _
    rw [if_pos hx]
  · refine ⟨32, by decide, ?_⟩
    show (if x = first then _ else _ : AllowedIp).mask = _
    rw [if_neg hx]

theorem table_distinct : PrefixesDistinct table := by
  have hmasks : ∀ x x' : Fin config.maxPeers, ∀ y y' : Fin config.maxAips,
      ((table.peers x).allowedSourceIps y).mask = ((table.peers x').allowedSourceIps y').mask →
      x = x' ∧ y = y' := by decide
  exact fun x y x' y' _ _ hmask _ => hmasks x x' y y' hmask

end Sample

/-- Host 5 is the second peer's, wherever it stands. -/
theorem longest_match_sample :
    (∃ y, LongestAt Sample.table (Sample.address 10 0 0 5) Sample.second y) ∧
      (peerForDest (shuffle Sample.table (Equiv.swap Sample.first Sample.second)
        fun _ => Equiv.refl _) (Sample.address 10 0 0 5)).map
          (Equiv.swap Sample.first Sample.second) = some Sample.second := by
  obtain ⟨hlongest, -, horder⟩ :=
    longest_match Sample.table_contiguous (Sample.address 10 0 0 5)
  have hfound : peerForDest Sample.table (Sample.address 10 0 0 5) = some Sample.second := by decide
  exact ⟨hlongest _ hfound, (horder Sample.table_distinct _ _).trans hfound⟩

end NuttxWireguard.Flat
