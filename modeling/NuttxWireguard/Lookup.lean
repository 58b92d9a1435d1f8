/-
A lookup finds what there is one of.

The drivers look peers up by a loop over the table that stops at the first match.  Where
at most one peer, or one keypair of a peer, can match, that is the one they find.
-/
import NuttxWireguard.Noise

namespace NuttxWireguard

open Lib

variable {cfg : Config} {d : Device cfg} {x : Fin cfg.maxPeers}

theorem find?_finRange_of_unique {n : Nat} {p : Fin n → Bool} {i : Fin n} (hi : p i = true)
    (honly : ∀ j, p j = true → j = i) : (List.finRange n).find? p = some i := by
  cases hfind : (List.finRange n).find? p with
  | none => exact absurd hi (List.find?_eq_none.mp hfind i (List.mem_finRange i))
  | some j => rw [honly j (List.find?_some hfind)]

/-- The first index that satisfies a test. -/
theorem find?_finRange_eq_some_iff {n : Nat} {p : Fin n → Bool} {x : Fin n} :
    (List.finRange n).find? p = some x ↔ p x = true ∧ ∀ y < x, p y = false := by
  rw [List.find?_eq_some_iff_getElem]
  constructor
  · rintro ⟨hx, i, hi, hget, hbefore⟩
    have hix : (i : Nat) = x := by
      rw [← hget]
      simp
    refine ⟨hx, fun y hy => ?_⟩
    have hlt : (y : Nat) < i := by omega
    simpa using hbefore y hlt
  · rintro ⟨hx, hbefore⟩
    refine ⟨hx, x, by simp, by simp, fun j hj => ?_⟩
    have hlt : (⟨j, by omega⟩ : Fin n) < x := hj
    simpa using hbefore _ hlt
/-! ### By receiver index -/

/-- What the loop of the lookup by index tests. -/
theorem matchesReceiver_iff {p : Peer cfg} {receiver : U32} :
    (p.valid &&
      ((p.currKeypair.valid && decide (p.currKeypair.localIndex = receiver)) ||
        (p.nextKeypair.valid && decide (p.nextKeypair.localIndex = receiver)) ||
        (p.prevKeypair.valid && decide (p.prevKeypair.localIndex = receiver)))) = true ↔
    p.valid = true ∧ ∃ s, (p.keypair s).valid = true ∧ (p.keypair s).localIndex = receiver := by
  simp only [Bool.and_eq_true, Bool.or_eq_true, decide_eq_true_eq]
  refine and_congr_right fun _ => ⟨?_, ?_⟩
  · rintro ((h | h) | h)
    · exact ⟨.curr, h⟩
    · exact ⟨.next, h⟩
    · exact ⟨.prev, h⟩
  · rintro ⟨s, h⟩
    cases s with
    | curr => exact Or.inl (Or.inl h)
    | next => exact Or.inl (Or.inr h)
    | prev => exact Or.inr h

theorem peerByReceiver_valid {receiver : U32} (h : peerByReceiver d receiver = some x) :
    (d.peers x).valid = true := by
  have hx := List.find?_some h
  exact (matchesReceiver_iff.mp hx).1

/-- Slot `s` of peer `x` holds the one keypair with this index. -/
structure HoldsIndex (d : Device cfg) (x : Fin cfg.maxPeers) (s : Slot) (receiver : U32) :
    Prop where
  peer : (d.peers x).valid = true
  keypair : ((d.peers x).keypair s).valid = true
  index : ((d.peers x).keypair s).localIndex = receiver
  only : ∀ y t, (d.peers y).valid = true → ((d.peers y).keypair t).valid = true →
    ((d.peers y).keypair t).localIndex = receiver → y = x ∧ t = s

instance (d : Device cfg) (x : Fin cfg.maxPeers) (s : Slot) (receiver : U32) :
    Decidable (HoldsIndex d x s receiver) :=
  decidable_of_iff
    ((d.peers x).valid = true ∧ ((d.peers x).keypair s).valid = true ∧
      ((d.peers x).keypair s).localIndex = receiver ∧
      ∀ y, ∀ t ∈ [Slot.curr, .prev, .next], (d.peers y).valid = true →
        ((d.peers y).keypair t).valid = true → ((d.peers y).keypair t).localIndex = receiver →
        y = x ∧ t = s)
    ⟨fun h => ⟨h.1, h.2.1, h.2.2.1, fun y t => h.2.2.2 y t (by cases t <;> simp)⟩,
      fun h => ⟨h.peer, h.keypair, h.index, fun y t _ => h.only y t⟩⟩

theorem HoldsIndex.peerByReceiver {s : Slot} {receiver : U32} (h : HoldsIndex d x s receiver) :
    peerByReceiver d receiver = some x := by
  refine find?_finRange_of_unique (matchesReceiver_iff.mpr ⟨h.peer, s, h.keypair, h.index⟩) ?_
  intro y hy
  obtain ⟨hpeer, t, hkeypair, hindex⟩ := matchesReceiver_iff.mp hy
  exact (h.only y t hpeer hkeypair hindex).1

theorem HoldsIndex.keypairByIndex {s : Slot} {receiver : U32} (h : HoldsIndex d x s receiver) :
    keypairByIndex (d.peers x) receiver = some s := by
  have honly : ∀ t, ((d.peers x).keypair t).valid = true ∧
      ((d.peers x).keypair t).localIndex = receiver → t = s :=
    fun t ht => (h.only x t h.peer ht.1 ht.2).2
  unfold NuttxWireguard.keypairByIndex
  split
  · rename_i hcurr
    rw [honly .curr hcurr]
  rename_i hcurr
  split
  · rename_i hnext
    rw [honly .next hnext]
  rename_i hnext
  split
  · rename_i hprev
    rw [honly .prev hprev]
  rename_i hprev
  cases s with
  | curr => exact absurd ⟨h.keypair, h.index⟩ hcurr
  | next => exact absurd ⟨h.keypair, h.index⟩ hnext
  | prev => exact absurd ⟨h.keypair, h.index⟩ hprev

/-! ### By key and by handshake -/

theorem valid_of_peerByPubkey {publicKey : Key} (h : peerByPubkey d publicKey = some x) :
    (d.peers x).valid = true := by
  have hx := List.find?_some h
  simp only [Bool.and_eq_true] at hx
  exact hx.1

theorem key_of_peerByPubkey {publicKey : Key} (h : peerByPubkey d publicKey = some x) :
    (d.peers x).publicKey = publicKey := by
  have hx := List.find?_some h
  simp only [Bool.and_eq_true, decide_eq_true_eq] at hx
  exact hx.2

theorem valid_of_peerByHandshake {receiver : U32} (h : peerByHandshake d receiver = some x) :
    (d.peers x).valid = true := by
  have hx := List.find?_some h
  simp only [Bool.and_eq_true] at hx
  exact hx.1.1.1

/-- A handshake with an index no other peer's has is the one that is found. -/
theorem peerByHandshake_of_only {receiver : U32} (hvalid : (d.peers x).valid = true)
    (hhandshake : (d.peers x).handshake.valid = true ∧ (d.peers x).handshake.initiator = true)
    (hindex : (d.peers x).handshake.localIndex = receiver)
    (honly : ∀ y, y ≠ x → (d.peers y).handshake.localIndex ≠ receiver) :
    peerByHandshake d receiver = some x := by
  refine find?_finRange_of_unique ?_ fun y hy => ?_
  · simp [hvalid, hhandshake, hindex]
  · simp only [Bool.and_eq_true, decide_eq_true_eq] at hy
    by_contra hne
    exact honly y hne hy.2

end NuttxWireguard
