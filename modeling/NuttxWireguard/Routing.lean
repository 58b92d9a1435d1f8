/-
The routing loop finds the longest prefix.

`wg_peer_for_dest` goes through the table of peers and keeps the best match so far.  What
it ends with is the first of the covering allowed-ips with the longest mask, which is what
`List.argmax` picks from the list of them.
-/
import NuttxWireguard.Noise
import Mathlib.Data.List.MinMax

namespace NuttxWireguard

open Lib

variable {cfg : Config}

/-! ### The routing loop -/

/-- What the loop looks at: the peers that cover the address, with the mask they cover it
with in host order. -/
def candidates (d : Device cfg) (dest : U32) : List (Fin cfg.maxPeers × U32) :=
  (List.finRange cfg.maxPeers).flatMap fun x =>
    if (d.peers x).valid then
      ((List.finRange cfg.maxAips).filter fun y => ((d.peers x).allowedSourceIps y).covers dest).map
        fun y => (x, ntohl ((d.peers x).allowedSourceIps y).mask)
    else []

theorem mem_candidates {d : Device cfg} {dest : U32} {x : Fin cfg.maxPeers} {mask : U32} :
    (x, mask) ∈ candidates d dest ↔ (d.peers x).valid = true ∧
      ∃ y, ((d.peers x).allowedSourceIps y).covers dest = true ∧
        ntohl ((d.peers x).allowedSourceIps y).mask = mask := by
  unfold candidates
  rw [List.mem_flatMap]
  constructor
  · rintro ⟨x', -, hmem⟩
    split at hmem
    · rename_i hvalid
      obtain ⟨y, hy, heq⟩ := List.mem_map.mp hmem
      cases heq
      exact ⟨hvalid, y, (List.mem_filter.mp hy).2, rfl⟩
    · cases hmem
  · rintro ⟨hvalid, y, hcovers, rfl⟩
    refine ⟨x, List.mem_finRange x, ?_⟩
    rw [if_pos hvalid]
    exact List.mem_map.mpr ⟨y, List.mem_filter.mpr ⟨List.mem_finRange y, hcovers⟩, rfl⟩

/-- The candidates come in the order of the table. -/
theorem candidates_sorted (d : Device cfg) (dest : U32) :
    (candidates d dest).Pairwise fun a b => a.1 ≤ b.1 := by
  unfold candidates
  refine List.pairwise_flatMap.mpr ⟨fun x _ => ?_, ?_⟩
  · split
    · exact List.pairwise_map.mpr (List.pairwise_of_forall fun _ _ => le_refl x)
    · exact .nil
  · refine (List.pairwise_lt_finRange cfg.maxPeers).imp fun {x x'} hlt a ha b hb => ?_
    have hfst : ∀ (z : Fin cfg.maxPeers) (e : Fin cfg.maxPeers × U32),
        e ∈ (if (d.peers z).valid then
          ((List.finRange cfg.maxAips).filter fun y =>
            ((d.peers z).allowedSourceIps y).covers dest).map
              fun y => (z, ntohl ((d.peers z).allowedSourceIps y).mask)
          else []) → e.1 = z := by
      intro z e he
      split at he
      · obtain ⟨y, -, rfl⟩ := List.mem_map.mp he
        rfl
      · cases he
    rw [hfst x a ha, hfst x' b hb]
    exact hlt.le

/-- The loop's two variables for the best candidate so far. -/
def asBest (o : Option (Fin cfg.maxPeers × U32)) : Option (Fin cfg.maxPeers) × U32 :=
  match o with
  | none => (none, 0)
  | some c => (some c.1, c.2)

theorem foldl_asBest (l : List (Fin cfg.maxPeers × U32)) :
    ∀ o : Option (Fin cfg.maxPeers × U32),
      l.foldl (fun best c => if best.1 = none ∨ c.2 > best.2 then (some c.1, c.2) else best)
          (asBest o)
        = asBest (l.foldl (List.argAux fun b c => c.2.toNat < b.2.toNat) o) := by
  induction l with
  | nil => intro o; rfl
  | cons c l ih =>
      intro o
      rw [List.foldl_cons, List.foldl_cons, ← ih]
      congr 1
      cases o with
      | none => rfl
      | some b =>
          show (if some b.1 = none ∨ c.2 > b.2 then (some c.1, c.2) else asBest (some b))
            = asBest (if b.2.toNat < c.2.toNat then some c else some b)
          by_cases hgt : b.2.toNat < c.2.toNat
          · have hbest : some b.1 = none ∨ c.2 > b.2 := Or.inr hgt
            rw [if_pos hgt, if_pos hbest]
            rfl
          · have hbest : ¬(some b.1 = none ∨ c.2 > b.2) := by
              rintro (h | h)
              · cases h
              · exact hgt h
            rw [if_neg hgt, if_neg hbest]

/-- **The loop finds the first candidate with the longest mask.** -/
theorem peerForDest_eq_argmax (d : Device cfg) (dest : U32) :
    peerForDest d dest = ((candidates d dest).argmax fun c => c.2.toNat).map (·.1) := by
  have hloop : peerForDest d dest
      = ((candidates d dest).foldl
          (fun (best : Option (Fin cfg.maxPeers) × U32) c =>
            if best.1 = none ∨ c.2 > best.2 then (some c.1, c.2) else best) (none, 0)).1 := by
    unfold peerForDest candidates
    rw [List.foldl_flatMap]
    congr 2
    funext best x
    by_cases hvalid : (d.peers x).valid = true
    · rw [if_neg (by simpa using hvalid), if_pos hvalid, List.foldl_map, List.foldl_filter]
      congr 1
      funext best y
      rw [ite_not]
    · rw [if_pos (by simpa using hvalid), if_neg hvalid]
      rfl
  rw [hloop]
  show (List.foldl _ (asBest none) _).1 = _
  rw [foldl_asBest]
  unfold List.argmax
  cases (candidates d dest).foldl (List.argAux fun b c => c.2.toNat < b.2.toNat) none with
  | none => rfl
  | some c => rfl

/-- What the loop ends with covers the address, with the longest mask there is. -/
theorem peerForDest_max {d : Device cfg} {dest : U32} {x : Fin cfg.maxPeers}
    (h : peerForDest d dest = some x) : (d.peers x).valid = true ∧
      ∃ y, ((d.peers x).allowedSourceIps y).covers dest = true ∧
        ∀ x' y', (d.peers x').valid = true →
          ((d.peers x').allowedSourceIps y').covers dest = true →
          (ntohl ((d.peers x').allowedSourceIps y').mask).toNat
            ≤ (ntohl ((d.peers x).allowedSourceIps y).mask).toNat := by
  rw [peerForDest_eq_argmax, Option.map_eq_some_iff] at h
  obtain ⟨⟨x₀, mask⟩, hmax, rfl⟩ := h
  obtain ⟨hin, hge, -⟩ := List.argmax_eq_some_iff.mp hmax
  obtain ⟨hvalid, y, hy, rfl⟩ := mem_candidates.mp hin
  exact ⟨hvalid, y, hy, fun x' y' hvalid' hy' => hge _ (mem_candidates.mpr ⟨hvalid', y', hy', rfl⟩)⟩

/-- It ends with no peer when none covers the address. -/
theorem peerForDest_eq_none_iff {d : Device cfg} {dest : U32} : peerForDest d dest = none ↔
    ∀ x y, (d.peers x).valid = true → ((d.peers x).allowedSourceIps y).covers dest = false := by
  rw [peerForDest_eq_argmax, Option.map_eq_none_iff, List.argmax_eq_none,
    List.eq_nil_iff_forall_not_mem]
  constructor
  · intro h x y hvalid
    refine eq_false_of_ne_true fun hy => ?_
    exact h (x, _) (mem_candidates.mpr ⟨hvalid, y, hy, rfl⟩)
  · rintro h ⟨x, mask⟩ hmem
    obtain ⟨hvalid, y, hy, -⟩ := mem_candidates.mp hmem
    rw [h x y hvalid] at hy
    cases hy

/-! ### The longer prefix -/

/-- In a sorted list what comes first is least. -/
theorem fst_le_of_idxOf_le {α β : Type*} [Preorder α] [DecidableEq (α × β)] {l : List (α × β)}
    (hl : l.Pairwise fun a b => a.1 ≤ b.1) {a b : α × β} (ha : a ∈ l) (hb : b ∈ l)
    (h : l.idxOf a ≤ l.idxOf b) : a.1 ≤ b.1 := by
  have hla := List.idxOf_lt_length_of_mem ha
  have hlb := List.idxOf_lt_length_of_mem hb
  rcases Nat.lt_or_eq_of_le h with hlt | heq
  · have hle := List.pairwise_iff_getElem.mp hl _ _ hla hlb hlt
    rwa [List.getElem_idxOf hla, List.getElem_idxOf hlb] at hle
  · have hab : a = b := by
      rw [← List.getElem_idxOf hla, ← List.getElem_idxOf hlb]
      congr 1
    rw [hab]

/-- Peer `x'` covers the address with a longer prefix than `x` does anywhere, or with one as
long as the longest of `x` from an earlier place. -/
def Outranks (d : Device cfg) (addr : U32) (x' x : Fin cfg.maxPeers) : Prop :=
  (d.peers x').valid = true ∧
    ∃ y', ((d.peers x').allowedSourceIps y').covers addr = true ∧
      ∀ y, ((d.peers x).allowedSourceIps y).covers addr = true →
        ntohl ((d.peers x).allowedSourceIps y).mask
            < ntohl ((d.peers x').allowedSourceIps y').mask ∨
          (ntohl ((d.peers x).allowedSourceIps y).mask
            = ntohl ((d.peers x').allowedSourceIps y').mask ∧ x' < x)

/-- **An address a peer covers is routed to it unless another outranks it.** -/
theorem peerForDest_eq_some_iff {d : Device cfg} {addr : U32} {x : Fin cfg.maxPeers}
    (hvalid : (d.peers x).valid = true)
    (hcovers : ∃ y, ((d.peers x).allowedSourceIps y).covers addr = true) :
    peerForDest d addr = some x ↔ ∀ x', ¬Outranks d addr x' x := by
  have hsorted := candidates_sorted d addr
  have hmem : ∀ {z : Fin cfg.maxPeers} {y : Fin cfg.maxAips}, (d.peers z).valid = true →
      ((d.peers z).allowedSourceIps y).covers addr = true →
      (z, ntohl ((d.peers z).allowedSourceIps y).mask) ∈ candidates d addr :=
    fun hz hy => mem_candidates.mpr ⟨hz, _, hy, rfl⟩
  rw [peerForDest_eq_argmax, Option.map_eq_some_iff]
  constructor
  · rintro ⟨⟨x₀, k⟩, hmax, rfl⟩ x' ⟨hvalid', y', hy', hbetter⟩
    obtain ⟨hin, hge, hfirst⟩ := List.argmax_eq_some_iff.mp hmax
    obtain ⟨-, y, hy, rfl⟩ := mem_candidates.mp hin
    rcases hbetter y hy with hlt | ⟨heq, hbefore⟩
    · exact absurd (hge _ (hmem hvalid' hy')) (Nat.not_le.mpr hlt)
    · have hidx := hfirst _ (hmem hvalid' hy') (by rw [heq])
      exact absurd (fst_le_of_idxOf_le hsorted hin (hmem hvalid' hy') hidx) (not_le.mpr hbefore)
  · intro hno
    obtain ⟨y, hy⟩ := hcovers
    have hne : (candidates d addr).argmax (fun c => c.2.toNat) ≠ none := by
      intro hnone
      rw [List.argmax_eq_none] at hnone
      have hin := hmem hvalid hy
      rw [hnone] at hin
      cases hin
    obtain ⟨⟨x₀, k⟩, hmax⟩ := Option.ne_none_iff_exists'.mp hne
    refine ⟨(x₀, k), hmax, ?_⟩
    obtain ⟨hin, hge, hfirst⟩ := List.argmax_eq_some_iff.mp hmax
    by_contra hx
    obtain ⟨hvalid₀, y₀, hy₀, rfl⟩ := mem_candidates.mp hin
    refine hno x₀ ⟨hvalid₀, y₀, hy₀, fun z hz => ?_⟩
    rcases Nat.lt_or_eq_of_le (hge _ (hmem hvalid hz)) with hlt | heq
    · exact Or.inl hlt
    · refine Or.inr ⟨BitVec.eq_of_toNat_eq heq, lt_of_le_of_ne ?_ hx⟩
      exact fst_le_of_idxOf_le hsorted hin (hmem hvalid hz) (hfirst _ (hmem hvalid hz) heq.ge)

/-! ### The sender of a packet -/

theorem sourceAllowed_iff {p : Peer cfg} {src : U32} :
    sourceAllowed p src = true ↔ ∃ y, (p.allowedSourceIps y).covers src = true := by
  unfold sourceAllowed
  rw [List.any_eq_true]
  simp

/-! ### One peer for an address -/

theorem peerForDest_some {d : Device cfg} {addr : U32} {x : Fin cfg.maxPeers}
    (h : peerForDest d addr = some x) :
    (d.peers x).valid = true ∧ sourceAllowed (d.peers x) addr = true := by
  rw [peerForDest_eq_argmax, Option.map_eq_some_iff] at h
  obtain ⟨⟨x', mask⟩, hmax, rfl⟩ := h
  obtain ⟨hvalid, y, hy, -⟩ := mem_candidates.mp (List.argmax_mem hmax)
  exact ⟨hvalid, sourceAllowed_iff.mpr ⟨y, hy⟩⟩

/-- No address is allowed to two peers, and none to a peer that is not there. -/
structure Device.Exclusive (d : Device cfg) : Prop where
  only : ∀ x y addr, sourceAllowed (d.peers x) addr = true → sourceAllowed (d.peers y) addr = true →
    x = y
  valid : ∀ x addr, sourceAllowed (d.peers x) addr = true → (d.peers x).valid = true

/-- **Then packets to an address go to the peer that may send from it.** -/
theorem Device.Exclusive.peerForDest_iff {d : Device cfg} (h : d.Exclusive) (addr : U32)
    (x : Fin cfg.maxPeers) :
    peerForDest d addr = some x ↔ sourceAllowed (d.peers x) addr = true := by
  refine ⟨fun hdest => (peerForDest_some hdest).2, fun hx => ?_⟩
  refine (peerForDest_eq_some_iff (h.valid x addr hx) (sourceAllowed_iff.mp hx)).mpr ?_
  rintro x' ⟨-, y', hy', hbetter⟩
  obtain rfl : x' = x := h.only x' x addr (sourceAllowed_iff.mpr ⟨y', hy'⟩) hx
  rcases hbetter y' hy' with hlt | ⟨-, hlt⟩
  · exact absurd hlt (BitVec.lt_irrefl _)
  · exact absurd hlt (lt_irrefl _)

/-- The table in another order. -/
def Device.permute (d : Device cfg) (σ : Equiv.Perm (Fin cfg.maxPeers)) : Device cfg :=
  { d with peers := d.peers ∘ σ }

theorem Device.Exclusive.permute {d : Device cfg} (h : d.Exclusive)
    (σ : Equiv.Perm (Fin cfg.maxPeers)) : (d.permute σ).Exclusive where
  only := fun x y addr hx hy => σ.injective (h.only (σ x) (σ y) addr hx hy)
  valid := fun x addr hx => h.valid (σ x) addr hx

theorem acceptPacket_allowedSourceIps (now : U32) (p : Peer cfg) (s : Slot) (kp : Keypair cfg)
    (addr : U32) (port : U16) (dataLen : Nat) :
    (acceptPacket now p s kp addr port dataLen).allowedSourceIps = p.allowedSourceIps := by
  have hset : ∀ (q : Peer cfg) (t : Slot) (k : Keypair cfg),
      (q.setKeypair t k).allowedSourceIps = q.allowedSourceIps := by
    intro q t k
    cases t <;> rfl
  have hupdate : ∀ q : Peer cfg, (keypairUpdate q s).allowedSourceIps = q.allowedSourceIps := by
    intro q
    unfold keypairUpdate
    split <;> rfl
  have hsend : ∀ (b : Prop) [Decidable b] (q : Peer cfg),
      (if b then { q with sendHandshake := true } else q).allowedSourceIps = q.allowedSourceIps := by
    intro b _ q
    split <;> rfl
  unfold acceptPacket
  dsimp only
  rw [hsend, hupdate]
  exact hset p s _

end NuttxWireguard
