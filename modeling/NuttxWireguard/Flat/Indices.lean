/-
Drawing an index on the flat port.

`wireguard_generate_unique_index` asks every peer whether it holds the value drawn, and
writes each answer over the one before.  So only the last peer of the table is heard: a
value it holds is drawn again, and a value that another peer holds is not.
-/
import NuttxWireguard.Flat.Noise
import NuttxWireguard.Kernel.Indices
import NuttxWireguard.Lib.Run

namespace NuttxWireguard.Flat

open Lib

variable {cfg : Config} {d e : Device cfg} {index : U32} {draws : List (Bytes 4)}

/-- A keypair or a handshake has the index. -/
def InUse (d : Device cfg) (index : U32) : Prop := ∃ a, d.indices.token a = index

/-- The last peer of the table has it. -/
def HeldByLast (d : Device cfg) (index : U32) : Prop :=
  ∃ x : Fin cfg.maxPeers, (x : Nat) + 1 = cfg.maxPeers ∧ ∃ a, (d.peers x).indices.token a = index

/-- The value is refused, and another one drawn. -/
def Redrawn (d : Device cfg) (index : U32) : Prop :=
  (index = 0 ∨ index = 0xFFFFFFFF) ∨ HeldByLast d index

/-- The first value that is not refused is in use. -/
def Shadowed (d : Device cfg) (draws : List (Bytes 4)) : Prop :=
  ∃ refused buf rest, draws = refused ++ buf :: rest ∧
    (∀ b ∈ refused, Redrawn d (readLe 32 b.toList)) ∧
    ¬Redrawn d (readLe 32 buf.toList) ∧ InUse d (readLe 32 buf.toList)

/-- An index that is not refused and not in use is free. -/
theorem freeIndex_of_not_inUse (hproper : ¬Redrawn d index) (h : ¬InUse d index) :
    Kernel.FreeIndex d index where
  proper := fun hc => hproper (Or.inl hc)
  keypair := fun x s hc => h ⟨(x, .keypair s), hc⟩
  handshake := fun x hc => h ⟨(x, .handshake), hc⟩

/-! ### The loop over the peers -/

theorem existing_iff (d : Device cfg) (result : U32) :
    (List.finRange cfg.maxPeers).foldl
      (fun _ x =>
        let p := d.peers x
        decide (result = p.currKeypair.localIndex) ||
          decide (result = p.prevKeypair.localIndex) ||
          decide (result = p.nextKeypair.localIndex) ||
          decide (result = p.handshake.localIndex))
      false = true ↔ HeldByLast d result := by
  rw [foldl_finRange_overwrite]
  refine exists_congr fun x => and_congr_right fun _ => ?_
  simp only [Bool.or_eq_true, decide_eq_true_eq]
  constructor
  · rintro (((h | h) | h) | h)
    · exact ⟨.keypair .curr, h.symm⟩
    · exact ⟨.keypair .prev, h.symm⟩
    · exact ⟨.keypair .next, h.symm⟩
    · exact ⟨.handshake, h.symm⟩
  · rintro ⟨a, h⟩
    cases a with
    | keypair s =>
        cases s with
        | curr => exact Or.inl (Or.inl (Or.inl h.symm))
        | prev => exact Or.inl (Or.inl (Or.inr h.symm))
        | next => exact Or.inl (Or.inr h.symm)
    | handshake => exact Or.inr h.symm

theorem generateUniqueIndex_redrawn {buf : Bytes 4} (h : Redrawn d (readLe 32 buf.toList))
    (draws : List (Bytes 4)) :
    wireguardGenerateUniqueIndex d (buf :: draws) = wireguardGenerateUniqueIndex d draws := by
  rw [wireguardGenerateUniqueIndex]
  dsimp only
  rcases h with hreserved | hlast
  · rw [if_pos hreserved]
  · by_cases hreserved : readLe 32 buf.toList = 0 ∨ readLe 32 buf.toList = 0xFFFFFFFF
    · rw [if_pos hreserved]
    · rw [if_neg hreserved, if_pos ((existing_iff d _).mpr hlast)]

theorem generateUniqueIndex_taken {buf : Bytes 4} (h : ¬Redrawn d (readLe 32 buf.toList))
    (draws : List (Bytes 4)) :
    wireguardGenerateUniqueIndex d (buf :: draws) = some (readLe 32 buf.toList) := by
  rw [wireguardGenerateUniqueIndex]
  dsimp only
  rw [if_neg fun hc => h (Or.inl hc), if_neg fun hc => h (Or.inr ((existing_iff d _).mp hc))]

/-! ### What is returned -/

/-- **The first value that is not refused is returned.** -/
theorem generateUniqueIndex_iff : wireguardGenerateUniqueIndex d draws = some index ↔
    ∃ refused buf rest, draws = refused ++ buf :: rest ∧
      (∀ b ∈ refused, Redrawn d (readLe 32 b.toList)) ∧
      ¬Redrawn d (readLe 32 buf.toList) ∧ readLe 32 buf.toList = index := by
  induction draws with
  | nil =>
      refine ⟨fun h => absurd h.symm (Option.some_ne_none index), ?_⟩
      rintro ⟨refused, buf, rest, h, -⟩
      exact absurd h.symm (by simp)
  | cons b draws ih =>
      by_cases hb : Redrawn d (readLe 32 b.toList)
      · rw [generateUniqueIndex_redrawn hb, ih]
        constructor
        · rintro ⟨refused, buf, rest, rfl, hrefused, h⟩
          exact ⟨b :: refused, buf, rest, rfl, List.forall_mem_cons.mpr ⟨hb, hrefused⟩, h⟩
        · rintro ⟨refused, buf, rest, h, hrefused, hbuf, heq⟩
          rcases List.cons_eq_append_iff.mp h with ⟨rfl, hcons⟩ | ⟨refused', rfl, rfl⟩
          · cases hcons
            exact absurd hb hbuf
          · exact ⟨refused', buf, rest, rfl, (List.forall_mem_cons.mp hrefused).2, hbuf, heq⟩
      · rw [generateUniqueIndex_taken hb]
        constructor
        · intro h
          exact ⟨[], b, draws, rfl, by simp, hb, Option.some.inj h⟩
        · rintro ⟨refused, buf, rest, h, hrefused, hbuf, rfl⟩
          rcases List.cons_eq_append_iff.mp h with ⟨rfl, hcons⟩ | ⟨refused', rfl, -⟩
          · cases hcons
            rfl
          · exact absurd (hrefused b List.mem_cons_self) hb

theorem generateUniqueIndex_proper (h : wireguardGenerateUniqueIndex d draws = some index) :
    ¬Redrawn d index := by
  obtain ⟨_, _, _, -, -, hbuf, rfl⟩ := generateUniqueIndex_iff.mp h
  exact hbuf

/-- **An index in use is returned exactly on shadowed draws.** -/
theorem shadowed_iff : Shadowed d draws ↔
    ∃ index, wireguardGenerateUniqueIndex d draws = some index ∧ InUse d index := by
  constructor
  · rintro ⟨refused, buf, rest, hdraws, hrefused, hbuf, huse⟩
    exact ⟨_, generateUniqueIndex_iff.mpr ⟨refused, buf, rest, hdraws, hrefused, hbuf, rfl⟩, huse⟩
  · rintro ⟨index, h, huse⟩
    obtain ⟨refused, buf, rest, hdraws, hrefused, hbuf, rfl⟩ := generateUniqueIndex_iff.mp h
    exact ⟨refused, buf, rest, hdraws, hrefused, hbuf, huse⟩

/-- Otherwise it is free. -/
theorem generateUniqueIndex_free (hclear : ¬Shadowed d draws)
    (h : wireguardGenerateUniqueIndex d draws = some index) : Kernel.FreeIndex d index :=
  freeIndex_of_not_inUse (generateUniqueIndex_proper h)
    fun huse => hclear (shadowed_iff.mpr ⟨index, h, huse⟩)

/-- With one peer no draw is shadowed. -/
theorem not_shadowed_of_one (hone : cfg.maxPeers = 1) : ¬Shadowed d draws := by
  rintro ⟨refused, buf, rest, -, -, hbuf, ⟨⟨x, a⟩, ha⟩⟩
  refine hbuf (Or.inr ⟨x, ?_, a, ha⟩)
  have hx := x.isLt
  omega

/-- Nor is one while no index is held. -/
theorem not_shadowed_of_zero (h : ∀ a, d.indices.token a = 0) : ¬Shadowed d draws := by
  rintro ⟨refused, buf, rest, -, -, hbuf, ⟨a, ha⟩⟩
  exact hbuf (Or.inl (Or.inl (ha.symm.trans (h a))))

/-- Only slots and handshakes matter. -/
theorem shadowed_congr (h : e.peers = d.peers) : Shadowed e draws ↔ Shadowed d draws := by
  have hindices : e.indices = d.indices := by
    unfold Device.indices
    rw [h]
  unfold Shadowed Redrawn HeldByLast InUse
  rw [h, hindices]

end NuttxWireguard.Flat
