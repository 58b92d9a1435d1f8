/-
Drawing an index.

`wg_unique_index` draws until it finds an index that no keypair and no handshake has, of
whichever peer, valid or not.  Such an index is free, and to give it to a handshake keeps
the indices of the device unambiguous.
-/
import NuttxWireguard.Carried
import NuttxWireguard.Session
import NuttxWireguard.Kernel.Noise

namespace NuttxWireguard.Kernel

open Lib

variable {cfg : Config} {d : Device cfg} {index : U32}

/-- An index `wg_unique_index` may return: no keypair and no handshake has it. -/
structure FreeIndex (d : Device cfg) (index : U32) : Prop where
  proper : ¬(index = 0 ∨ index = 0xFFFFFFFF)
  keypair : ∀ x s, ((d.peers x).keypair s).localIndex ≠ index
  handshake : ∀ x, (d.peers x).handshake.localIndex ≠ index

theorem wgUniqueIndex_cons_free {buf : Bytes 4} (h : FreeIndex d (readLe 32 buf.toList))
    (draws : List (Bytes 4)) :
    wgUniqueIndex d (buf :: draws) = some (readLe 32 buf.toList) := by
  unfold wgUniqueIndex
  dsimp only
  rw [if_neg h.proper, if_neg]
  rw [List.any_eq_true]
  rintro ⟨x, -, hx⟩
  simp only [Bool.or_eq_true, decide_eq_true_eq] at hx
  rcases hx with ((hx | hx) | hx) | hx
  · exact h.keypair x .curr hx.symm
  · exact h.keypair x .prev hx.symm
  · exact h.keypair x .next hx.symm
  · exact h.handshake x hx.symm

theorem wgUniqueIndex_cons_taken {buf : Bytes 4} (h : ¬FreeIndex d (readLe 32 buf.toList))
    (draws : List (Bytes 4)) : wgUniqueIndex d (buf :: draws) = wgUniqueIndex d draws := by
  rw [wgUniqueIndex]
  dsimp only
  by_cases hproper : readLe 32 buf.toList = 0 ∨ readLe 32 buf.toList = 0xFFFFFFFF
  · rw [if_pos hproper]
  rw [if_neg hproper, if_pos]
  by_contra hnone
  rw [List.any_eq_true] at hnone
  simp only [Bool.or_eq_true, decide_eq_true_eq] at hnone
  refine h ⟨hproper, fun x s hx => hnone ⟨x, List.mem_finRange x, ?_⟩, fun x hx => hnone
    ⟨x, List.mem_finRange x, Or.inr hx.symm⟩⟩
  cases s with
  | curr => exact Or.inl (Or.inl (Or.inl hx.symm))
  | prev => exact Or.inl (Or.inl (Or.inr hx.symm))
  | next => exact Or.inl (Or.inr hx.symm)

/-- **The index returned is free.** -/
theorem wgUniqueIndex_free {draws : List (Bytes 4)} (h : wgUniqueIndex d draws = some index) :
    FreeIndex d index := by
  induction draws with
  | nil => cases h
  | cons buf draws ih =>
      by_cases hfree : FreeIndex d (readLe 32 buf.toList)
      · rw [wgUniqueIndex_cons_free hfree] at h
        cases h
        exact hfree
      · rw [wgUniqueIndex_cons_taken hfree] at h
        exact ih h

/-- The loop ends exactly if a free index is drawn. -/
theorem exists_wgUniqueIndex_iff {draws : List (Bytes 4)} :
    (∃ index, wgUniqueIndex d draws = some index) ↔
      ∃ buf ∈ draws, FreeIndex d (readLe 32 buf.toList) := by
  induction draws with
  | nil => exact ⟨fun ⟨_, h⟩ => (nomatch h), fun ⟨_, hmem, _⟩ => (nomatch hmem)⟩
  | cons buf draws ih =>
      by_cases hfree : FreeIndex d (readLe 32 buf.toList)
      · exact ⟨fun _ => ⟨buf, List.mem_cons_self, hfree⟩,
          fun _ => ⟨_, wgUniqueIndex_cons_free hfree draws⟩⟩
      · rw [wgUniqueIndex_cons_taken hfree, ih]
        refine ⟨fun ⟨buf', hmem, h⟩ => ⟨buf', List.mem_cons_of_mem _ hmem, h⟩, ?_⟩
        rintro ⟨buf', hmem, h⟩
        rcases List.mem_cons.mp hmem with rfl | hmem
        · exact absurd h hfree
        · exact ⟨buf', hmem, h⟩

/-- Which indices are free depends on keypairs and handshakes alone. -/
theorem FreeIndex.setPeer (h : FreeIndex d index) {x : Fin cfg.maxPeers} {p : Peer cfg}
    (hslots : p.keypair = (d.peers x).keypair)
    (hindex : p.handshake.localIndex = (d.peers x).handshake.localIndex) :
    FreeIndex (d.setPeer x p) index where
  proper := h.proper
  keypair := by
    intro y s
    by_cases hy : y = x
    · rw [hy, Device.setPeer_peers_self, hslots]
      exact h.keypair x s
    · rw [Device.setPeer_peers_of_ne d p hy]
      exact h.keypair y s
  handshake := by
    intro y
    by_cases hy : y = x
    · rw [hy, Device.setPeer_peers_self, hindex]
      exact h.handshake x
    · rw [Device.setPeer_peers_of_ne d p hy]
      exact h.handshake y

/-- A handshake under a new index is the one found by it. -/
theorem FreeIndex.peerByHandshake (h : FreeIndex d index) {x : Fin cfg.maxPeers} {p : Peer cfg}
    (hvalid : p.valid = true)
    (hhandshake : p.handshake.valid = true ∧ p.handshake.initiator = true)
    (hindex : p.handshake.localIndex = index) :
    peerByHandshake (d.setPeer x p) index = some x := by
  refine peerByHandshake_of_only ?_ ?_ ?_ fun y hy => ?_
  · rw [Device.setPeer_peers_self]
    exact hvalid
  · rw [Device.setPeer_peers_self]
    exact hhandshake
  · rw [Device.setPeer_peers_self]
    exact hindex
  · rw [Device.setPeer_peers_of_ne d p hy]
    exact h.handshake y

/-- A keypair added under a new index, to wait, is the one found by it. -/
theorem FreeIndex.holdsIndex (h : FreeIndex d index) {y : Fin cfg.maxPeers} {p : Peer cfg}
    {kp : Keypair cfg} (hvalid : p.valid = true) (hslots : p.keypair = (d.peers y).keypair)
    (hkp : kp.valid = true) (hresponder : kp.initiator = false) (hindex : kp.localIndex = index) :
    HoldsIndex (d.setPeer y (addKeypair p kp)) y .next index := by
  have hview := addKeypair_view p kp
  rw [if_neg (by rw [hresponder]; decide)] at hview
  have hadded : (addKeypair p kp).keypair = p.keypair.installNext Keypair.zero kp :=
    congrArg PeerView.slots hview
  refine ⟨?_, ?_, ?_, fun z t _ hfull ht => ?_⟩
  · rw [Device.setPeer_peers_self]
    exact (congrArg PeerView.valid hview).trans hvalid
  · rw [Device.setPeer_peers_self, hadded]
    exact hkp
  · rw [Device.setPeer_peers_self, hadded]
    exact hindex
  · by_cases hz : z = y
    · rw [hz, Device.setPeer_peers_self, hadded] at hfull ht
      rcases Slots.full_installNext full_zero hfull with ⟨hnext, -⟩ | ⟨-, hcurr⟩
      · exact ⟨hz, hnext⟩
      · rw [hcurr, hslots] at ht
        exact absurd ht (h.keypair y .curr)
    · rw [Device.setPeer_peers_of_ne d _ hz] at ht
      exact absurd ht (h.keypair z t)

/-- The new index of a handshake. -/
theorem FreeIndex.unambiguous (h : FreeIndex d index) (hd : d.Unambiguous) {x : Fin cfg.maxPeers}
    {hs : Handshake} (hindex : hs.localIndex = index) :
    (d.setPeer x { d.peers x with handshake := hs }).Unambiguous := by
  refine hd.issue hindex ?_ fun hzero => h.proper (Or.inl hzero)
  rintro ⟨y, a⟩
  cases a with
  | keypair s => exact h.keypair y s
  | handshake => exact h.handshake y

end NuttxWireguard.Kernel
