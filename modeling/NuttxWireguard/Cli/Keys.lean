/-
Keys as text (`wg_b64_encode`, `wg_b64_decode`).

Base64 of 32 bytes: ten groups of three bytes, and one of two with one pad character.  The
decoder takes nothing else, and what the encoder writes it reads back.
-/
import NuttxWireguard.Lib.CText
import NuttxWireguard.Crypto
import Mathlib.Tactic.IntervalCases

namespace NuttxWireguard.Cli

open Lib

/-- `WG_B64_LEN`. -/
def wgB64Len : Nat := 44

/-- `g_b64`. -/
def gB64 : Text :=
  ['A', 'B', 'C', 'D', 'E', 'F', 'G', 'H', 'I', 'J', 'K', 'L', 'M', 'N', 'O', 'P',
   'Q', 'R', 'S', 'T', 'U', 'V', 'W', 'X', 'Y', 'Z', 'a', 'b', 'c', 'd', 'e', 'f',
   'g', 'h', 'i', 'j', 'k', 'l', 'm', 'n', 'o', 'p', 'q', 'r', 's', 't', 'u', 'v',
   'w', 'x', 'y', 'z', '0', '1', '2', '3', '4', '5', '6', '7', '8', '9', '+', '/']

/-- `g_b64[v & 63]`. -/
def b64Char (v : BitVec 32) : Char := gB64.getD (v &&& 63).toNat 'A'

/-- The loop of `wg_b64_encode`, and the group behind it. -/
def b64EncodeGroups : List Byte → Text
  | a :: b :: c :: rest =>
    let v : BitVec 32 := (a.setWidth 32 <<< 16) ||| (b.setWidth 32 <<< 8) ||| c.setWidth 32
    b64Char (v >>> 18) :: b64Char (v >>> 12) :: b64Char (v >>> 6) :: b64Char v ::
      b64EncodeGroups rest
  | [a, b] =>
    let v : BitVec 32 := (a.setWidth 32 <<< 16) ||| (b.setWidth 32 <<< 8)
    [b64Char (v >>> 18), b64Char (v >>> 12), b64Char (v >>> 6), '=']
  | _ => []

/-- `wg_b64_encode`. -/
def wgB64Encode (key : Key) : Text := b64EncodeGroups key.toList

/-- `wg_b64_value`. -/
def wgB64Value (ch : Char) : Option (BitVec 32) := (gB64.idxOf? ch).map (BitVec.ofNat 32)

/-- The loop of `wg_b64_decode`, and the group behind it. -/
def b64DecodeGroups : Text → Option (List Byte)
  | [a, b, c, _] => do
    let a ← wgB64Value a
    let b ← wgB64Value b
    let c ← wgB64Value c
    if c &&& 3 ≠ 0 then none
    else
      let v := (a <<< 18) ||| (b <<< 12) ||| (c <<< 6)
      some [(v >>> 16).setWidth 8, (v >>> 8).setWidth 8]
  | a :: b :: c :: d :: rest => do
    let a ← wgB64Value a
    let b ← wgB64Value b
    let c ← wgB64Value c
    let d ← wgB64Value d
    let v := (a <<< 18) ||| (b <<< 12) ||| (c <<< 6) ||| d
    let out ← b64DecodeGroups rest
    some ((v >>> 16).setWidth 8 :: (v >>> 8).setWidth 8 :: v.setWidth 8 :: out)
  | _ => some []

/-- `wg_b64_decode`. -/
def wgB64Decode (s : Text) : Option Key :=
  if s.length ≠ wgB64Len ∨ s.getD (wgB64Len - 1) 'A' ≠ '=' then none
  else (b64DecodeGroups s).map fun out => slice out 0 32

/-! ### Decoding what was encoded -/

theorem wgB64Value_b64Char (v : BitVec 32) : wgB64Value (b64Char v) = some (v &&& 63) := by
  have hlt : (v &&& 63).toNat < 64 := by
    rw [BitVec.toNat_and]
    exact Nat.and_lt_two_pow _ (n := 6) (by decide)
  have htable : ∀ n : Fin 64, gB64.idxOf? (gB64.getD n 'A') = some (n : Nat) := by decide
  unfold wgB64Value b64Char
  rw [htable ⟨_, hlt⟩]
  exact congrArg some (by simp)

/-- Three bytes side by side. -/
theorem getLsbD_packed (a b c : Byte) (i : Nat) :
    ((a.setWidth 32 <<< 16) ||| (b.setWidth 32 <<< 8) ||| c.setWidth 32 : BitVec 32).getLsbD i
      = if i < 8 then c.getLsbD i else if i < 16 then b.getLsbD (i - 8)
        else if i < 24 then a.getLsbD (i - 16) else false := by
  by_cases h32 : i < 32
  · interval_cases i <;> simp
  · rw [BitVec.getLsbD_of_ge _ _ (by omega), if_neg (by omega), if_neg (by omega),
      if_neg (by omega)]

/-- Four groups of six bits put together again. -/
theorem getLsbD_regrouped (v : BitVec 32) {i : Nat} (hi : i < 24) :
    (((v >>> 18 &&& 63) <<< 18) ||| ((v >>> 12 &&& 63) <<< 12) ||| ((v >>> 6 &&& 63) <<< 6) |||
      (v &&& 63)).getLsbD i = v.getLsbD i := by
  interval_cases i <;> simp

/-- A group of three bytes comes back. -/
theorem b64_group (a b c : Byte) :
    let v : BitVec 32 := (a.setWidth 32 <<< 16) ||| (b.setWidth 32 <<< 8) ||| c.setWidth 32
    let w : BitVec 32 := ((v >>> 18 &&& 63) <<< 18) ||| ((v >>> 12 &&& 63) <<< 12) |||
      ((v >>> 6 &&& 63) <<< 6) ||| (v &&& 63)
    (w >>> 16).setWidth 8 = a ∧ (w >>> 8).setWidth 8 = b ∧ w.setWidth 8 = c := by
  intro v w
  have hw : ∀ i, i < 24 → w.getLsbD i = v.getLsbD i := fun i hi => getLsbD_regrouped v hi
  have hv : ∀ i, v.getLsbD i = _ := getLsbD_packed a b c
  refine ⟨?_, ?_, ?_⟩
  · refine BitVec.eq_of_getLsbD_eq fun i hi => ?_
    rw [BitVec.getLsbD_setWidth, BitVec.getLsbD_ushiftRight, hw _ (by omega), hv,
      if_neg (by omega), if_neg (by omega), if_pos (by omega), Nat.add_sub_cancel_left]
    simp [hi]
  · refine BitVec.eq_of_getLsbD_eq fun i hi => ?_
    rw [BitVec.getLsbD_setWidth, BitVec.getLsbD_ushiftRight, hw _ (by omega), hv,
      if_neg (by omega), if_pos (by omega), Nat.add_sub_cancel_left]
    simp [hi]
  · refine BitVec.eq_of_getLsbD_eq fun i hi => ?_
    rw [BitVec.getLsbD_setWidth, hw _ (by omega), hv, if_pos hi]
    simp [hi]

/-- The last group is one whose third byte is zero; its low bits are not used. -/
theorem b64_last (a b : Byte) :
    let v : BitVec 32 := (a.setWidth 32 <<< 16) ||| (b.setWidth 32 <<< 8)
    v = (a.setWidth 32 <<< 16) ||| (b.setWidth 32 <<< 8) ||| (0 : Byte).setWidth 32 ∧
      v &&& 63 = 0 ∧ v >>> 6 &&& 63 &&& 3 = 0 := by
  intro v
  have hv : v = (a.setWidth 32 <<< 16) ||| (b.setWidth 32 <<< 8) ||| (0 : Byte).setWidth 32 := by
    simp [v]
  have hbit : ∀ i, i < 8 → v.getLsbD i = false := by
    intro i hi
    rw [hv, getLsbD_packed, if_pos hi]
    simp
  refine ⟨hv, ?_, ?_⟩
  · refine BitVec.eq_of_getLsbD_eq fun i hi => ?_
    by_cases h : i < 8
    · simp [hbit i h]
    · rw [BitVec.getLsbD_and]
      interval_cases i <;> simp at h ⊢
  · refine BitVec.eq_of_getLsbD_eq fun i hi => ?_
    by_cases h : i < 2
    · simp [hbit (6 + i) (by omega)]
    · interval_cases i <;> simp at h ⊢

theorem b64DecodeGroups_cons (a b c d : Char) {rest : Text} (hrest : rest ≠ []) :
    b64DecodeGroups (a :: b :: c :: d :: rest) = (do
      let a ← wgB64Value a
      let b ← wgB64Value b
      let c ← wgB64Value c
      let d ← wgB64Value d
      let v := (a <<< 18) ||| (b <<< 12) ||| (c <<< 6) ||| d
      let out ← b64DecodeGroups rest
      some ((v >>> 16).setWidth 8 :: (v >>> 8).setWidth 8 :: v.setWidth 8 :: out)) := by
  cases rest with
  | nil => exact absurd rfl hrest
  | cons e rest => rfl

theorem b64DecodeGroups_encode : ∀ bytes : List Byte, bytes.length % 3 = 2 →
    b64DecodeGroups (b64EncodeGroups bytes) = some bytes
  | [], h => by cases h
  | [_], h => by cases h
  | [a, b], _ => by
    obtain ⟨hpacked, hlow, hpad⟩ := b64_last a b
    obtain ⟨ha, hb, -⟩ := b64_group a b 0
    rw [← hpacked, hlow, show (0 : BitVec 32) = 0#32 from rfl, BitVec.or_zero] at ha hb
    simp only [b64EncodeGroups, b64DecodeGroups, wgB64Value_b64Char, Option.bind_eq_bind,
      Option.bind_some]
    rw [if_neg (not_not.mpr hpad), ha, hb]
  | a :: b :: c :: rest, h => by
    have hrest : rest.length % 3 = 2 := by
      simp only [List.length_cons] at h
      omega
    have ih := b64DecodeGroups_encode rest hrest
    have hne : b64EncodeGroups rest ≠ [] := by
      intro hnil
      rw [hnil] at ih
      cases ih
      cases hrest
    obtain ⟨ha, hb, hc⟩ := b64_group a b c
    rw [b64EncodeGroups, b64DecodeGroups_cons _ _ _ _ hne, ih]
    simp only [wgB64Value_b64Char, Option.bind_eq_bind, Option.bind_some, ha, hb, hc]

theorem b64EncodeGroups_length : ∀ bytes : List Byte, bytes.length % 3 = 2 →
    3 * (b64EncodeGroups bytes).length = 4 * (bytes.length + 1)
  | [], h => by cases h
  | [_], h => by cases h
  | [a, b], _ => rfl
  | a :: b :: c :: rest, h => by
    have hrest : rest.length % 3 = 2 := by
      simp only [List.length_cons] at h
      omega
    have ih := b64EncodeGroups_length rest hrest
    simp only [b64EncodeGroups, List.length_cons]
    omega

theorem wgB64Encode_length (key : Key) : (wgB64Encode key).length = wgB64Len := by
  have h := b64EncodeGroups_length key.toList (by simp)
  rw [List.Vector.toList_length] at h
  unfold wgB64Encode wgB64Len
  omega

theorem b64EncodeGroups_getLast : ∀ bytes : List Byte, bytes.length % 3 = 2 →
    (b64EncodeGroups bytes).getLast? = some '='
  | [], h => by cases h
  | [_], h => by cases h
  | [a, b], _ => rfl
  | a :: b :: c :: rest, h => by
    have hrest : rest.length % 3 = 2 := by
      simp only [List.length_cons] at h
      omega
    have ih := b64EncodeGroups_getLast rest hrest
    rw [b64EncodeGroups]
    simp only [List.getLast?_cons, ih, Option.getD_some]

/-- **A key is read back.** -/
theorem wgB64Decode_encode (key : Key) : wgB64Decode (wgB64Encode key) = some key := by
  have hlength := wgB64Encode_length key
  have hlast : (wgB64Encode key).getD (wgB64Len - 1) 'A' = '=' := by
    have hget : (wgB64Encode key).getLast? = some '=' :=
      b64EncodeGroups_getLast key.toList (by simp)
    rw [List.getLast?_eq_getElem?, hlength] at hget
    rw [List.getD_eq_getElem?_getD, hget]
    rfl
  unfold wgB64Decode
  rw [if_neg (not_or.mpr ⟨not_not.mpr hlength, not_not.mpr hlast⟩)]
  show (b64DecodeGroups (b64EncodeGroups key.toList)).map _ = _
  rw [b64DecodeGroups_encode _ (by simp)]
  exact congrArg some (slice_toList key)

/-! ### Encoding what was decoded -/

/-- A character stands for six bits, and they stand for it. -/
theorem b64Char_of_value {ch : Char} {v : BitVec 32} (h : wgB64Value ch = some v) :
    b64Char v = ch ∧ v &&& 63 = v := by
  have hlow : ∀ i : Fin 64, (BitVec.ofNat 32 i : BitVec 32) &&& 63 = BitVec.ofNat 32 i := by decide
  obtain ⟨i, hi, rfl⟩ := Option.map_eq_some_iff.mp h
  obtain ⟨hlt, hch, -⟩ := List.idxOf?_eq_some_iff.mp hi
  have hlt64 : i < 64 := hlt
  have hand : (BitVec.ofNat 32 i : BitVec 32) &&& 63 = BitVec.ofNat 32 i := hlow ⟨i, hlt64⟩
  have htoNat : (BitVec.ofNat 32 i : BitVec 32).toNat = i := by
    rw [BitVec.toNat_ofNat]
    exact Nat.mod_eq_of_lt (by omega)
  refine ⟨?_, hand⟩
  unfold b64Char
  rw [hand, htoNat, List.getD_eq_getElem _ _ hlt, hch]

/-- Only the six bits count. -/
theorem b64Char_congr {v w : BitVec 32} (h : v &&& 63 = w &&& 63) : b64Char v = b64Char w := by
  unfold b64Char
  rw [h]

/-- Four groups of six bits side by side. -/
theorem getLsbD_grouped (a b c d : BitVec 32) (i : Nat) :
    (((a &&& 63) <<< 18) ||| ((b &&& 63) <<< 12) ||| ((c &&& 63) <<< 6) |||
      (d &&& 63) : BitVec 32).getLsbD i
      = if i < 6 then d.getLsbD i else if i < 12 then c.getLsbD (i - 6)
        else if i < 18 then b.getLsbD (i - 12) else if i < 24 then a.getLsbD (i - 18)
        else false := by
  by_cases h32 : i < 32
  · interval_cases i <;> simp
  · rw [BitVec.getLsbD_of_ge _ _ (by omega), if_neg (by omega), if_neg (by omega),
      if_neg (by omega), if_neg (by omega)]

/-- Six bits of a word. -/
theorem getLsbD_and_63 (v : BitVec 32) (i : Nat) :
    (v &&& 63).getLsbD i = (decide (i < 6) && v.getLsbD i) := by
  by_cases h32 : i < 32
  · interval_cases i <;> simp
  · rw [BitVec.getLsbD_of_ge _ _ (by omega), BitVec.getLsbD_of_ge _ _ (by omega), Bool.and_false]

/-- Each group is found at its place. -/
theorem b64_ungroup (a b c d : BitVec 32) :
    let w : BitVec 32 := ((a &&& 63) <<< 18) ||| ((b &&& 63) <<< 12) ||| ((c &&& 63) <<< 6) |||
      (d &&& 63)
    w >>> 18 &&& 63 = a &&& 63 ∧ w >>> 12 &&& 63 = b &&& 63 ∧ w >>> 6 &&& 63 = c &&& 63 ∧
      w &&& 63 = d &&& 63 := by
  intro w
  have hw : ∀ i, w.getLsbD i = _ := getLsbD_grouped a b c d
  refine ⟨?_, ?_, ?_, ?_⟩ <;> refine BitVec.eq_of_getLsbD_eq fun i _ => ?_ <;>
    rw [getLsbD_and_63, getLsbD_and_63] <;> by_cases hi : i < 6
  · rw [BitVec.getLsbD_ushiftRight, hw, if_neg (by omega), if_neg (by omega), if_neg (by omega),
      if_pos (by omega), Nat.add_sub_cancel_left]
  · simp [hi]
  · rw [BitVec.getLsbD_ushiftRight, hw, if_neg (by omega), if_neg (by omega), if_pos (by omega),
      Nat.add_sub_cancel_left]
  · simp [hi]
  · rw [BitVec.getLsbD_ushiftRight, hw, if_neg (by omega), if_pos (by omega),
      Nat.add_sub_cancel_left]
  · simp [hi]
  · rw [hw, if_pos hi]
  · simp [hi]

/-- The three bytes of a word below `2 ^ 24` make it up. -/
theorem b64_repack (w : BitVec 32) (hw : ∀ i, 24 ≤ i → w.getLsbD i = false) :
    (((w >>> 16).setWidth 8 : Byte).setWidth 32 <<< 16) |||
      (((w >>> 8).setWidth 8 : Byte).setWidth 32 <<< 8) ||| (w.setWidth 8 : Byte).setWidth 32
      = w := by
  refine BitVec.eq_of_getLsbD_eq fun i _ => ?_
  rw [getLsbD_packed]
  by_cases h8 : i < 8
  · simp [h8]
  · rw [if_neg h8]
    by_cases h16 : i < 16
    · rw [if_pos h16, BitVec.getLsbD_setWidth, BitVec.getLsbD_ushiftRight,
        Nat.add_sub_cancel' (by omega)]
      simp [show i - 8 < 8 by omega]
    · rw [if_neg h16]
      by_cases h24 : i < 24
      · rw [if_pos h24, BitVec.getLsbD_setWidth, BitVec.getLsbD_ushiftRight,
          Nat.add_sub_cancel' (by omega)]
        simp [show i - 16 < 8 by omega]
      · rw [if_neg h24, hw i (by omega)]

/-- A group of four characters comes back. -/
theorem b64_chars {a b c d : Char} {va vb vc vd : BitVec 32} (ha : wgB64Value a = some va)
    (hb : wgB64Value b = some vb) (hc : wgB64Value c = some vc) (hd : wgB64Value d = some vd)
    (rest : List Byte) :
    let w := (va <<< 18) ||| (vb <<< 12) ||| (vc <<< 6) ||| vd
    b64EncodeGroups ((w >>> 16).setWidth 8 :: (w >>> 8).setWidth 8 :: w.setWidth 8 :: rest)
      = a :: b :: c :: d :: b64EncodeGroups rest := by
  intro w
  obtain ⟨hcha, hva⟩ := b64Char_of_value ha
  obtain ⟨hchb, hvb⟩ := b64Char_of_value hb
  obtain ⟨hchc, hvc⟩ := b64Char_of_value hc
  obtain ⟨hchd, hvd⟩ := b64Char_of_value hd
  have hw : w = ((va &&& 63) <<< 18) ||| ((vb &&& 63) <<< 12) ||| ((vc &&& 63) <<< 6) |||
      (vd &&& 63) := by
    rw [hva, hvb, hvc, hvd]
  obtain ⟨h18, h12, h6, h0⟩ := b64_ungroup va vb vc vd
  rw [← hw] at h18 h12 h6 h0
  have hsmall : ∀ i, 24 ≤ i → w.getLsbD i = false := by
    intro i hi
    rw [hw, getLsbD_grouped, if_neg (by omega), if_neg (by omega), if_neg (by omega),
      if_neg (by omega)]
  rw [b64EncodeGroups, b64_repack w hsmall, b64Char_congr h18, b64Char_congr h12,
    b64Char_congr h6, b64Char_congr h0, hcha, hchb, hchc, hchd]

/-- So does the last one, whose unused bits have to be zero. -/
theorem b64_lastChars {a b c : Char} {va vb vc : BitVec 32} (ha : wgB64Value a = some va)
    (hb : wgB64Value b = some vb) (hc : wgB64Value c = some vc) (hpad : vc &&& 3 = 0) :
    let w := (va <<< 18) ||| (vb <<< 12) ||| (vc <<< 6)
    b64EncodeGroups [(w >>> 16).setWidth 8, (w >>> 8).setWidth 8] = [a, b, c, '='] := by
  intro w
  obtain ⟨hcha, hva⟩ := b64Char_of_value ha
  obtain ⟨hchb, hvb⟩ := b64Char_of_value hb
  obtain ⟨hchc, hvc⟩ := b64Char_of_value hc
  have hw : w = ((va &&& 63) <<< 18) ||| ((vb &&& 63) <<< 12) ||| ((vc &&& 63) <<< 6) |||
      ((0 : BitVec 32) &&& 63) := by
    rw [hva, hvb, hvc]
    simp [w]
  obtain ⟨h18, h12, h6, -⟩ := b64_ungroup va vb vc 0
  rw [← hw] at h18 h12 h6
  have hbits : ∀ i, w.getLsbD i = _ := fun i => (congrArg (BitVec.getLsbD · i) hw).trans
    (getLsbD_grouped va vb vc 0 i)
  have hsmall : ∀ i, 24 ≤ i → w.getLsbD i = false := by
    intro i hi
    rw [hbits, if_neg (by omega), if_neg (by omega), if_neg (by omega), if_neg (by omega)]
  have hlow : (w.setWidth 8 : Byte) = 0 := by
    have h0 : vc[0] = false := by
      simpa using congrArg (BitVec.getLsbD · 0) hpad
    have h1 : vc[1] = false := by
      simpa using congrArg (BitVec.getLsbD · 1) hpad
    refine BitVec.eq_of_getLsbD_eq fun i hi => ?_
    rw [BitVec.getLsbD_setWidth, hbits]
    interval_cases i <;> simp [h0, h1]
  have hpack := b64_repack w hsmall
  rw [hlow] at hpack
  have hlast : ((((w >>> 16).setWidth 8 : Byte).setWidth 32 <<< 16) |||
      (((w >>> 8).setWidth 8 : Byte).setWidth 32 <<< 8) : BitVec 32) = w :=
    (BitVec.or_zero).symm.trans hpack
  rw [b64EncodeGroups, hlast, b64Char_congr h18, b64Char_congr h12, b64Char_congr h6, hcha, hchb,
    hchc]

/-- What is accepted is what its bytes are written as, if it ends in the pad character. -/
theorem b64EncodeGroups_decode : ∀ {s : Text} {out : List Byte}, s.length % 4 = 0 →
    s.getLast? = some '=' → b64DecodeGroups s = some out →
    b64EncodeGroups out = s ∧ 4 * (out.length + 1) = 3 * s.length
  | [], _, _, hlast, _ => by cases hlast
  | [_], _, hlen, _, _ => by cases hlen
  | [_, _], _, hlen, _, _ => by cases hlen
  | [_, _, _], _, hlen, _, _ => by cases hlen
  | [a, b, c, d], out, _, hlast, h => by
    obtain rfl : d = '=' := Option.some.inj hlast
    unfold b64DecodeGroups at h
    obtain ⟨va, ha, h⟩ := Option.bind_eq_some_iff.mp h
    obtain ⟨vb, hb, h⟩ := Option.bind_eq_some_iff.mp h
    obtain ⟨vc, hc, h⟩ := Option.bind_eq_some_iff.mp h
    split at h
    · cases h
    · rename_i hpad
      cases h
      exact ⟨b64_lastChars ha hb hc (not_not.mp hpad), rfl⟩
  | a :: b :: c :: d :: e :: rest, out, hlen, hlast, h => by
    rw [b64DecodeGroups_cons _ _ _ _ (List.cons_ne_nil e rest)] at h
    obtain ⟨va, ha, h⟩ := Option.bind_eq_some_iff.mp h
    obtain ⟨vb, hb, h⟩ := Option.bind_eq_some_iff.mp h
    obtain ⟨vc, hc, h⟩ := Option.bind_eq_some_iff.mp h
    obtain ⟨vd, hd, h⟩ := Option.bind_eq_some_iff.mp h
    obtain ⟨more, hmore, h⟩ := Option.bind_eq_some_iff.mp h
    cases h
    have hlen' : (e :: rest).length % 4 = 0 := by
      simp only [List.length_cons] at hlen ⊢
      omega
    have hlast' : (e :: rest).getLast? = some '=' := by
      simpa only [List.getLast?_cons_cons] using hlast
    obtain ⟨ih, ihlen⟩ := b64EncodeGroups_decode hlen' hlast' hmore
    refine ⟨?_, ?_⟩
    · rw [b64_chars ha hb hc hd, ih]
    · simp only [List.length_cons] at ihlen ⊢
      omega

/-- **What is accepted for a key is how the key is written.** -/
theorem wgB64Encode_decode {s : Text} {key : Key} (h : wgB64Decode s = some key) :
    wgB64Encode key = s := by
  unfold wgB64Decode at h
  split at h
  · cases h
  · rename_i hform
    obtain ⟨hlen, hpad⟩ := not_or.mp hform
    have hlength : s.length = 44 := not_not.mp hlen
    have hlast : s.getLast? = some '=' := by
      have hget : s.getD 43 'A' = '=' := not_not.mp hpad
      rw [List.getLast?_eq_getElem?, hlength]
      rw [List.getD_eq_getElem _ _ (by omega)] at hget
      rw [List.getElem?_eq_getElem (by omega), hget]
    obtain ⟨out, hout, rfl⟩ := Option.map_eq_some_iff.mp h
    obtain ⟨hencode, hcount⟩ := b64EncodeGroups_decode (by omega) hlast hout
    have houtlen : out.length = 32 := by omega
    have hslice : (slice out 0 32).toList = out :=
      congrArg List.Vector.toList (slice_toList (⟨out, houtlen⟩ : Key))
    unfold wgB64Encode
    rw [hslice, hencode]

/-- **Keys and the texts that are accepted for them are the same thing.** -/
theorem b64_bijective :
    (∀ key : Key, wgB64Decode (wgB64Encode key) = some key) ∧
    (∀ (s : Text) (key : Key), wgB64Decode s = some key → s = wgB64Encode key) ∧
    ∀ (s t : Text) (key : Key), wgB64Decode s = some key → wgB64Decode t = some key → s = t :=
  ⟨wgB64Decode_encode, fun _ _ h => (wgB64Encode_decode h).symm,
    fun _ _ _ hs ht => (wgB64Encode_decode hs).symm.trans (wgB64Encode_decode ht)⟩

/-- What a key is written with. -/
theorem mem_wgB64Encode {key : Key} {ch : Char} (h : ch ∈ wgB64Encode key) :
    ch ∈ gB64 ∨ ch = '=' := by
  have hchar : ∀ v, b64Char v ∈ gB64 := by
    intro v
    have hlt : (v &&& 63).toNat < gB64.length := by
      rw [BitVec.toNat_and]
      exact Nat.and_lt_two_pow _ (n := 6) (by decide)
    unfold b64Char
    rw [List.getD_eq_getElem _ _ hlt]
    exact List.getElem_mem hlt
  have hgroups : ∀ bytes : List Byte, ch ∈ b64EncodeGroups bytes → ch ∈ gB64 ∨ ch = '=' := by
    intro bytes
    induction bytes using b64EncodeGroups.induct with
    | case1 a b c rest ih =>
        intro h
        rw [b64EncodeGroups] at h
        simp only [List.mem_cons] at h
        rcases h with rfl | rfl | rfl | rfl | h
        · exact Or.inl (hchar _)
        · exact Or.inl (hchar _)
        · exact Or.inl (hchar _)
        · exact Or.inl (hchar _)
        · exact ih h
    | case2 a b =>
        intro h
        rw [b64EncodeGroups] at h
        simp only [List.mem_cons, List.not_mem_nil, or_false] at h
        rcases h with rfl | rfl | rfl | rfl
        · exact Or.inl (hchar _)
        · exact Or.inl (hchar _)
        · exact Or.inl (hchar _)
        · exact Or.inr rfl
    | case3 bytes h₁ h₂ =>
        intro h
        unfold b64EncodeGroups at h
        split at h
        · exact absurd rfl (h₁ _ _ _ _)
        · exact absurd rfl (h₂ _ _)
        · cases h
  exact hgroups key.toList h

end NuttxWireguard.Cli
