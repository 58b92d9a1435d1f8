/-
Poly1305 (`crypto/refc/poly1305-donna.c` and `poly1305-donna-32.h`).

The authenticator evaluates the message, in blocks of sixteen bytes, as a polynomial at the
secret `r` modulo `2^130 - 5`, and adds the secret `s` to the result.  The code holds numbers in
five words of 26 bits.  It multiplies with the products that exceed `2^130` folded back
fivefold, and carries only as far as the next product needs.

`unsigned long`, the type of the words, has 32 bits on the boards and 64 in the simulator.  The
width is a parameter here, and what is proved holds for any from 32 to 64: with the narrow words
just nothing is lost, so the bounds of the words are part of every lemma.
-/
import NuttxWireguard.Crypto
import NuttxWireguard.Lib.Blocks
import NuttxWireguard.Lib.Limbs

namespace NuttxWireguard

namespace Refc

open Lib Lib.Limbs Lib.Blocks

/-- Five words: `r` or `h`. -/
structure Five (w : Nat) where
  l0 : BitVec w
  l1 : BitVec w
  l2 : BitVec w
  l3 : BitVec w
  l4 : BitVec w

/-- The words of `pad`. -/
structure Pad (w : Nat) where
  p0 : BitVec w
  p1 : BitVec w
  p2 : BitVec w
  p3 : BitVec w

/-- `poly1305_state_internal_t`. -/
structure Poly1305 (w : Nat) where
  r : Five w
  h : Five w
  pad : Pad w
  leftover : Nat
  buffer : Bytes 16
  final : Bool

section

variable {w : Nat}

/-- `U8TO32`. -/
def u8to32 (w : Nat) (p : List Byte) (off : Nat) : BitVec w := readLe w (slice p off 4).toList

def Five.zero : Five w := ⟨0, 0, 0, 0, 0⟩

/-- `poly1305_init`.  The buffer is not initialised. -/
def poly1305Init (w : Nat) (buffer : Bytes 16) (key : Key) : Poly1305 w where
  r := {
    l0 := u8to32 w key.toList 0 &&& 0x3ffffff
    l1 := (u8to32 w key.toList 3 >>> 2) &&& 0x3ffff03
    l2 := (u8to32 w key.toList 6 >>> 4) &&& 0x3ffc0ff
    l3 := (u8to32 w key.toList 9 >>> 6) &&& 0x3f03fff
    l4 := (u8to32 w key.toList 12 >>> 8) &&& 0x00fffff }
  h := Five.zero
  pad := {
    p0 := u8to32 w key.toList 16
    p1 := u8to32 w key.toList 20
    p2 := u8to32 w key.toList 24
    p3 := u8to32 w key.toList 28 }
  leftover := 0
  buffer := buffer
  final := false

/-! ### One block -/

/-- `hibit`: a one above the block, if it is not the padded last one. -/
def hibit (final : Bool) : BitVec w := if final then 0 else (1 : BitVec w) <<< 24

/-- `h += m[i]`. -/
def addBlock (final : Bool) (h : Five w) (m : List Byte) : Five w where
  l0 := h.l0 + (u8to32 w m 0 &&& 0x3ffffff)
  l1 := h.l1 + ((u8to32 w m 3 >>> 2) &&& 0x3ffffff)
  l2 := h.l2 + ((u8to32 w m 6 >>> 4) &&& 0x3ffffff)
  l3 := h.l3 + ((u8to32 w m 9 >>> 6) &&& 0x3ffffff)
  l4 := h.l4 + ((u8to32 w m 12 >>> 8) ||| hibit final)

/-- The product of two words. -/
def wide (a b : BitVec w) : U64 := a.setWidth 64 * b.setWidth 64

/-- `h *= r`: the sums `d0` to `d4`. -/
def mulR (r h : Five w) : Five 64 :=
  let s1 := r.l1 * 5
  let s2 := r.l2 * 5
  let s3 := r.l3 * 5
  let s4 := r.l4 * 5
  { l0 := wide h.l0 r.l0 + wide h.l1 s4 + wide h.l2 s3 + wide h.l3 s2 + wide h.l4 s1
    l1 := wide h.l0 r.l1 + wide h.l1 r.l0 + wide h.l2 s4 + wide h.l3 s3 + wide h.l4 s2
    l2 := wide h.l0 r.l2 + wide h.l1 r.l1 + wide h.l2 r.l0 + wide h.l3 s4 + wide h.l4 s3
    l3 := wide h.l0 r.l3 + wide h.l1 r.l2 + wide h.l2 r.l1 + wide h.l3 r.l0 + wide h.l4 s4
    l4 := wide h.l0 r.l4 + wide h.l1 r.l3 + wide h.l2 r.l2 + wide h.l3 r.l1 + wide h.l4 r.l0 }

/-- `(partial) h %= p`. -/
def partialReduce (w : Nat) (d : Five 64) : Five w :=
  let c : BitVec w := (d.l0 >>> 26).setWidth w
  let h0 : BitVec w := d.l0.setWidth w &&& 0x3ffffff
  let d1 := d.l1 + c.setWidth 64
  let c : BitVec w := (d1 >>> 26).setWidth w
  let h1 : BitVec w := d1.setWidth w &&& 0x3ffffff
  let d2 := d.l2 + c.setWidth 64
  let c : BitVec w := (d2 >>> 26).setWidth w
  let h2 : BitVec w := d2.setWidth w &&& 0x3ffffff
  let d3 := d.l3 + c.setWidth 64
  let c : BitVec w := (d3 >>> 26).setWidth w
  let h3 : BitVec w := d3.setWidth w &&& 0x3ffffff
  let d4 := d.l4 + c.setWidth 64
  let c : BitVec w := (d4 >>> 26).setWidth w
  let h4 : BitVec w := d4.setWidth w &&& 0x3ffffff
  let h0 := h0 + c * 5
  let c := h0 >>> 26
  let h0 := h0 &&& 0x3ffffff
  let h1 := h1 + c
  { l0 := h0, l1 := h1, l2 := h2, l3 := h3, l4 := h4 }

/-- One turn of the loop of `poly1305_blocks`. -/
def blockTurn (final : Bool) (r h : Five w) (m : List Byte) : Five w :=
  partialReduce w (mulR r (addBlock final h m))

/-- The loop of `poly1305_blocks`. -/
def blocksLoop (final : Bool) (r h : Five w) (m : List Byte) : Five w :=
  if _h : 16 ≤ m.length then blocksLoop final r (blockTurn final r h m) (m.drop 16) else h
termination_by m.length
decreasing_by
  rw [List.length_drop]
  omega

/-- `poly1305_blocks`. -/
def poly1305Blocks (st : Poly1305 w) (m : List Byte) : Poly1305 w :=
  { st with h := blocksLoop st.final st.r st.h m }

/-! ### Feeding -/

/-- `poly1305_update` with nothing left over from before: the full blocks, and what is left. -/
def updateFull (st : Poly1305 w) (m : List Byte) : Poly1305 w :=
  let want := if m.length ≥ 16 then m.length / 16 * 16 else 0
  let st := if m.length ≥ 16 then poly1305Blocks st (m.take want) else st
  let m := m.drop want
  if m.length ≠ 0 then
    { st with buffer := writeAt st.buffer st.leftover m, leftover := st.leftover + m.length }
  else st

/-- `poly1305_update`. -/
def poly1305Update (st : Poly1305 w) (m : List Byte) : Poly1305 w :=
  if st.leftover ≠ 0 then
    let want := min (16 - st.leftover) m.length
    let st := { st with
      buffer := writeAt st.buffer st.leftover (m.take want)
      leftover := st.leftover + want }
    if st.leftover < 16 then st
    else updateFull { poly1305Blocks st st.buffer.toList with leftover := 0 } (m.drop want)
  else updateFull st m

/-! ### The end -/

/-- `fully carry h`. -/
def fullCarry (h : Five w) : Five w :=
  let c := h.l1 >>> 26
  let h1 := h.l1 &&& 0x3ffffff
  let h2 := h.l2 + c
  let c := h2 >>> 26
  let h2 := h2 &&& 0x3ffffff
  let h3 := h.l3 + c
  let c := h3 >>> 26
  let h3 := h3 &&& 0x3ffffff
  let h4 := h.l4 + c
  let c := h4 >>> 26
  let h4 := h4 &&& 0x3ffffff
  let h0 := h.l0 + c * 5
  let c := h0 >>> 26
  let h0 := h0 &&& 0x3ffffff
  let h1 := h1 + c
  { l0 := h0, l1 := h1, l2 := h2, l3 := h3, l4 := h4 }

/-- `compute h + -p`. -/
def minusP (h : Five w) : Five w :=
  let g0 := h.l0 + 5
  let c := g0 >>> 26
  let g0 := g0 &&& 0x3ffffff
  let g1 := h.l1 + c
  let c := g1 >>> 26
  let g1 := g1 &&& 0x3ffffff
  let g2 := h.l2 + c
  let c := g2 >>> 26
  let g2 := g2 &&& 0x3ffffff
  let g3 := h.l3 + c
  let c := g3 >>> 26
  let g3 := g3 &&& 0x3ffffff
  let g4 := h.l4 + c - (1 : BitVec w) <<< 26
  { l0 := g0, l1 := g1, l2 := g2, l3 := g3, l4 := g4 }

/-- `select h if h < p, or h + -p if h >= p`: the sign of `g` makes the mask. -/
def selectH (h g : Five w) : Five w :=
  let mask := (g.l4 >>> (w - 1)) - 1
  { l0 := (h.l0 &&& ~~~mask) ||| (g.l0 &&& mask)
    l1 := (h.l1 &&& ~~~mask) ||| (g.l1 &&& mask)
    l2 := (h.l2 &&& ~~~mask) ||| (g.l2 &&& mask)
    l3 := (h.l3 &&& ~~~mask) ||| (g.l3 &&& mask)
    l4 := (h.l4 &&& ~~~mask) ||| (g.l4 &&& mask) }

/-- `h = h % (2^128)`, in words of 32 bits. -/
def pack (h : Five w) : Pad w where
  p0 := (h.l0 ||| h.l1 <<< 26) &&& 0xffffffff
  p1 := (h.l1 >>> 6 ||| h.l2 <<< 20) &&& 0xffffffff
  p2 := (h.l2 >>> 12 ||| h.l3 <<< 14) &&& 0xffffffff
  p3 := (h.l3 >>> 18 ||| h.l4 <<< 8) &&& 0xffffffff

/-- `mac = (h + pad) % (2^128)`. -/
def addPad (h pad : Pad w) : Bytes 16 :=
  let f0 : U64 := h.p0.setWidth 64 + pad.p0.setWidth 64
  let f1 : U64 := h.p1.setWidth 64 + pad.p1.setWidth 64 + f0 >>> 32
  let f2 : U64 := h.p2.setWidth 64 + pad.p2.setWidth 64 + f1 >>> 32
  let f3 : U64 := h.p3.setWidth 64 + pad.p3.setWidth 64 + f2 >>> 32
  ⟨(writeLe 4 (f0.setWidth w)).toList ++ ((writeLe 4 (f1.setWidth w)).toList ++
    ((writeLe 4 (f2.setWidth w)).toList ++ (writeLe 4 (f3.setWidth w)).toList)), by simp⟩

/-- `process the remaining block`. -/
def lastBlock (st : Poly1305 w) : Poly1305 w :=
  if st.leftover ≠ 0 then
    let buffer := writeAt st.buffer st.leftover (1 :: List.replicate (15 - st.leftover) 0)
    let st := { st with buffer, final := true }
    poly1305Blocks st buffer.toList
  else st

/-- `poly1305_finish`: the tag.  The words of the state are zeroed after it. -/
def poly1305Finish (st : Poly1305 w) : Bytes 16 :=
  let h := fullCarry (lastBlock st).h
  addPad (pack (selectH h (minusP h))) st.pad

end

/-! ### Words of at least 32 bits -/

section

variable {w : Nat}

theorem pow_le_width (hw : 32 ≤ w) : 2 ^ 32 ≤ 2 ^ w := Nat.pow_le_pow_right two_pos hw

theorem toNat_const (hw : 32 ≤ w) {n : Nat} (hn : n < 2 ^ 32) : (BitVec.ofNat w n).toNat = n := by
  rw [BitVec.toNat_ofNat, Nat.mod_eq_of_lt (hn.trans_le (pow_le_width hw))]

theorem toNat_add_small (hw : 32 ≤ w) {x y : BitVec w} (h : x.toNat + y.toNat < 2 ^ 32) :
    (x + y).toNat = x.toNat + y.toNat :=
  BitVec.toNat_add_of_lt (h.trans_le (pow_le_width hw))

theorem toNat_shr (x : BitVec w) (n : Nat) : (x >>> n).toNat = x.toNat / 2 ^ n := by
  rw [BitVec.toNat_ushiftRight, Nat.shiftRight_eq_div_pow]

theorem toNat_low26 (hw : 32 ≤ w) (x : BitVec w) : (x &&& 0x3ffffff).toNat = x.toNat % 2 ^ 26 := by
  have hmask : (0x3ffffff : BitVec w).toNat = 2 ^ 26 - 1 := toNat_const hw (by decide)
  rw [BitVec.toNat_and, hmask, Nat.and_two_pow_sub_one_eq_mod]

theorem toNat_times5 (hw : 32 ≤ w) {x : BitVec w} (h : x.toNat * 5 < 2 ^ 32) :
    (x * 5).toNat = x.toNat * 5 := by
  have hfive : (5 : BitVec w).toNat = 5 := toNat_const hw (by decide)
  have hlt : x.toNat * (5 : BitVec w).toNat < 2 ^ w := by
    rw [hfive]
    exact h.trans_le (pow_le_width hw)
  rw [BitVec.toNat_mul_of_lt hlt, hfive]

/-- The low 26 bits of a sum, as a word. -/
theorem toNat_narrow26 (hw : 32 ≤ w) (d : U64) :
    (d.setWidth w &&& (0x3ffffff : BitVec w)).toNat = d.toNat % 2 ^ 26 := by
  have hdvd : 2 ^ 26 ∣ 2 ^ w := pow_dvd_pow 2 (by omega)
  rw [toNat_low26 hw, BitVec.toNat_setWidth, Nat.mod_mod_of_dvd _ hdvd]

/-- The rest of a sum, as a word. -/
theorem toNat_narrow (hw : 32 ≤ w) {d : U64} (h : d.toNat / 2 ^ 26 < 2 ^ 32) :
    ((d >>> 26).setWidth w).toNat = d.toNat / 2 ^ 26 := by
  rw [BitVec.toNat_setWidth, toNat_shr, Nat.mod_eq_of_lt (h.trans_le (pow_le_width hw))]

theorem toNat_widen (hw : w ≤ 64) (x : BitVec w) : (x.setWidth 64).toNat = x.toNat :=
  BitVec.toNat_setWidth_of_le hw

theorem toNat_u8to32 (hw : 32 ≤ w) (p : List Byte) (off : Nat) (h : off + 4 ≤ p.length) :
    (u8to32 w p off).toNat = value p / 2 ^ (8 * off) % 2 ^ 32 := by
  unfold u8to32
  rw [toNat_readLe _ _ (by simpa using hw), toList_slice h, value_take, value_drop]

/-! ### Numbers in five words -/

/-- `2^130 - 5`. -/
def prime1305 : Nat := 2 ^ 130 - 5

/-- The number in five words of 26 bits. -/
def Five.val (h : Five w) : Nat :=
  h.l0.toNat + 2 ^ 26 * h.l1.toNat + 2 ^ 52 * h.l2.toNat + 2 ^ 78 * h.l3.toNat
    + 2 ^ 104 * h.l4.toNat

/-- Words of `h` between blocks: 26 bits, and `h1` a little more. -/
structure Five.Carried (h : Five w) : Prop where
  l0 : h.l0.toNat < 2 ^ 26
  l1 : h.l1.toNat < 2 ^ 26 + 64
  l2 : h.l2.toNat < 2 ^ 26
  l3 : h.l3.toNat < 2 ^ 26
  l4 : h.l4.toNat < 2 ^ 26

/-- Words below a bound. -/
structure Five.Below (n : Nat) (h : Five w) : Prop where
  l0 : h.l0.toNat < n
  l1 : h.l1.toNat < n
  l2 : h.l2.toNat < n
  l3 : h.l3.toNat < n
  l4 : h.l4.toNat < n

theorem modEq_of_add_mul {m a b k : Nat} (h : a + m * k = b) : a ≡ b [MOD m] := by
  rw [← h]
  exact (Nat.add_mul_mod_self_left a m k).symm

/-- The digits of a number of 128 bits. -/
theorem digits26 (v : Nat) :
    v % 2 ^ 32 % 2 ^ 26 + 2 ^ 26 * (v / 2 ^ 24 % 2 ^ 32 / 2 ^ 2 % 2 ^ 26)
      + 2 ^ 52 * (v / 2 ^ 48 % 2 ^ 32 / 2 ^ 4 % 2 ^ 26)
      + 2 ^ 78 * (v / 2 ^ 72 % 2 ^ 32 / 2 ^ 6 % 2 ^ 26)
      + 2 ^ 104 * (v / 2 ^ 96 % 2 ^ 32 / 2 ^ 8) = v % 2 ^ 128 := by
  have h1 : v / 2 ^ 24 % 2 ^ 32 / 2 ^ 2 % 2 ^ 26 = v / 2 ^ 26 % 2 ^ 26 := by omega
  have h2 : v / 2 ^ 48 % 2 ^ 32 / 2 ^ 4 % 2 ^ 26 = v / 2 ^ 52 % 2 ^ 26 := by omega
  have h3 : v / 2 ^ 72 % 2 ^ 32 / 2 ^ 6 % 2 ^ 26 = v / 2 ^ 78 % 2 ^ 26 := by omega
  have h4 : v / 2 ^ 96 % 2 ^ 32 / 2 ^ 8 = v / 2 ^ 104 % 2 ^ 24 := by omega
  rw [h1, h2, h3, h4]
  omega

theorem toNat_hibit (hw : 32 ≤ w) (final : Bool) :
    (hibit final : BitVec w).toNat = if final then 0 else 2 ^ 24 := by
  cases final with
  | true => exact BitVec.toNat_zero
  | false =>
      have hone : (1 : BitVec w).toNat = 1 := toNat_const hw (by decide)
      have hle : 2 ^ 24 < 2 ^ w := (by decide : 2 ^ 24 < 2 ^ 32).trans_le (pow_le_width hw)
      have hshift : ((1 : BitVec w) <<< 24).toNat = 2 ^ 24 := by
        rw [BitVec.toNat_shiftLeft, hone, Nat.shiftLeft_eq, Nat.one_mul, Nat.mod_eq_of_lt hle]
      simp only [hibit, Bool.false_eq_true, if_false, hshift]

theorem toNat_or_hibit (hw : 32 ≤ w) (final : Bool) {x : BitVec w} (hx : x.toNat < 2 ^ 24) :
    (x ||| hibit final).toNat = x.toNat + if final then 0 else 2 ^ 24 := by
  rw [BitVec.toNat_or, toNat_hibit hw]
  cases final with
  | true => exact Nat.or_zero _
  | false =>
      have hor := Nat.two_pow_add_eq_or_of_lt hx 1
      rw [Nat.mul_one] at hor
      simp only [Bool.false_eq_true, if_false]
      rw [Nat.or_comm, ← hor, Nat.add_comm]

/-- A word of the block is added. -/
theorem toNat_add_limb (hw : 32 ≤ w) {x l : BitVec w} (k : Nat) (hx : x.toNat < 2 ^ 26 + 64) :
    (x + ((l >>> k) &&& 0x3ffffff)).toNat = x.toNat + l.toNat / 2 ^ k % 2 ^ 26 := by
  have hlimb : ((l >>> k) &&& 0x3ffffff).toNat = l.toNat / 2 ^ k % 2 ^ 26 := by
    rw [toNat_low26 hw, toNat_shr]
  have hlt := Nat.mod_lt (l.toNat / 2 ^ k) (Nat.two_pow_pos 26)
  rw [toNat_add_small hw (by omega), hlimb]

/-- The words of `h` after a block is added. -/
theorem addBlock_limbs (hw : 32 ≤ w) (final : Bool) {h : Five w} (hc : h.Carried)
    {m : List Byte} (hm : m.length = 16) :
    (addBlock final h m).l0.toNat = h.l0.toNat + value m % 2 ^ 32 % 2 ^ 26 ∧
    (addBlock final h m).l1.toNat = h.l1.toNat + value m / 2 ^ 24 % 2 ^ 32 / 2 ^ 2 % 2 ^ 26 ∧
    (addBlock final h m).l2.toNat = h.l2.toNat + value m / 2 ^ 48 % 2 ^ 32 / 2 ^ 4 % 2 ^ 26 ∧
    (addBlock final h m).l3.toNat = h.l3.toNat + value m / 2 ^ 72 % 2 ^ 32 / 2 ^ 6 % 2 ^ 26 ∧
    (addBlock final h m).l4.toNat
      = h.l4.toNat + (value m / 2 ^ 96 % 2 ^ 32 / 2 ^ 8 + if final then 0 else 2 ^ 24) := by
  have hload0 := toNat_u8to32 hw m 0 (by omega)
  have hload1 := toNat_u8to32 hw m 3 (by omega)
  have hload2 := toNat_u8to32 hw m 6 (by omega)
  have hload3 := toNat_u8to32 hw m 9 (by omega)
  have hload4 := toNat_u8to32 hw m 12 (by omega)
  obtain ⟨hb0, hb1, hb2, hb3, hb4⟩ := hc
  refine ⟨?_, ?_, ?_, ?_, ?_⟩
  · have hlimb : (u8to32 w m 0 &&& 0x3ffffff).toNat = value m % 2 ^ 32 % 2 ^ 26 := by
      rw [toNat_low26 hw, hload0, Nat.mul_zero, pow_zero, Nat.div_one]
    have hlt := Nat.mod_lt (value m % 2 ^ 32) (Nat.two_pow_pos 26)
    unfold addBlock
    dsimp only
    rw [toNat_add_small hw (by omega), hlimb]
  · unfold addBlock
    dsimp only
    rw [toNat_add_limb hw 2 hb1, hload1]
  · unfold addBlock
    dsimp only
    rw [toNat_add_limb hw 4 (by omega), hload2]
  · unfold addBlock
    dsimp only
    rw [toNat_add_limb hw 6 (by omega), hload3]
  · have htop : (u8to32 w m 12 >>> 8).toNat = value m / 2 ^ 96 % 2 ^ 32 / 2 ^ 8 := by
      rw [toNat_shr, hload4]
    have hlt : value m / 2 ^ 96 % 2 ^ 32 / 2 ^ 8 < 2 ^ 24 :=
      Nat.div_lt_of_lt_mul (Nat.mod_lt _ (Nat.two_pow_pos 32))
    have hor := toNat_or_hibit hw final (x := u8to32 w m 12 >>> 8) (by rw [htop]; exact hlt)
    rw [htop] at hor
    unfold addBlock
    dsimp only
    rw [toNat_add_small hw (by rw [hor]; split <;> omega), hor]

/-- **A block is added, with the bit above it.** -/
theorem addBlock_val (hw : 32 ≤ w) (final : Bool) {h : Five w} (hc : h.Carried) {m : List Byte}
    (hm : m.length = 16) :
    (addBlock final h m).val = h.val + (value m + if final then 0 else 2 ^ 128) ∧
      (addBlock final h m).Below (2 ^ 27 + 64) := by
  obtain ⟨h0, h1, h2, h3, h4⟩ := addBlock_limbs hw final hc hm
  obtain ⟨hb0, hb1, hb2, hb3, hb4⟩ := hc
  have hdigits := digits26 (value m)
  have hvalue : value m % 2 ^ 128 = value m := by
    have hlt := value_lt m
    rw [hm] at hlt
    exact Nat.mod_eq_of_lt hlt
  have hlt : value m / 2 ^ 96 % 2 ^ 32 / 2 ^ 8 < 2 ^ 24 :=
    Nat.div_lt_of_lt_mul (Nat.mod_lt _ (Nat.two_pow_pos 32))
  have hd0 := Nat.mod_lt (value m % 2 ^ 32) (Nat.two_pow_pos 26)
  have hd1 := Nat.mod_lt (value m / 2 ^ 24 % 2 ^ 32 / 2 ^ 2) (Nat.two_pow_pos 26)
  have hd2 := Nat.mod_lt (value m / 2 ^ 48 % 2 ^ 32 / 2 ^ 4) (Nat.two_pow_pos 26)
  have hd3 := Nat.mod_lt (value m / 2 ^ 72 % 2 ^ 32 / 2 ^ 6) (Nat.two_pow_pos 26)
  generalize value m % 2 ^ 32 % 2 ^ 26 = m0 at *
  generalize value m / 2 ^ 24 % 2 ^ 32 / 2 ^ 2 % 2 ^ 26 = m1 at *
  generalize value m / 2 ^ 48 % 2 ^ 32 / 2 ^ 4 % 2 ^ 26 = m2 at *
  generalize value m / 2 ^ 72 % 2 ^ 32 / 2 ^ 6 % 2 ^ 26 = m3 at *
  generalize value m / 2 ^ 96 % 2 ^ 32 / 2 ^ 8 = m4 at *
  refine ⟨?_, ?_, ?_, ?_, ?_, ?_⟩
  · unfold Five.val
    rw [h0, h1, h2, h3, h4, ← hvalue, ← hdigits]
    split <;> ring
  · rw [h0]
    omega
  · rw [h1]
    omega
  · rw [h2]
    omega
  · rw [h3]
    omega
  · rw [h4]
    split <;> omega

/-! ### The product -/

/-- A row of the product. -/
def dot (h c : Five w) : U64 :=
  wide h.l0 c.l0 + wide h.l1 c.l1 + wide h.l2 c.l2 + wide h.l3 c.l3 + wide h.l4 c.l4

theorem toNat_wide (hw : w ≤ 64) {x y : BitVec w} {n : Nat} (h : x.toNat * y.toNat < n)
    (hn : n ≤ 2 ^ 64) : (wide x y).toNat = x.toNat * y.toNat := by
  unfold wide
  rw [BitVec.toNat_mul, toNat_widen hw, toNat_widen hw, Nat.mod_eq_of_lt (h.trans_le hn)]

theorem mul_lt_of_lt {a b m n : Nat} (ha : a < m) (hb : b < n) : a * b < m * n :=
  Nat.mul_lt_mul'' ha hb

/-- A row does not overflow. -/
theorem toNat_dot (hw : w ≤ 64) {m n : Nat} (hmn : 5 * (m * n) ≤ 2 ^ 64) {h c : Five w}
    (hh : h.Below m) (hc : c.Below n) :
    (dot h c).toNat = h.l0.toNat * c.l0.toNat + h.l1.toNat * c.l1.toNat
        + h.l2.toNat * c.l2.toNat + h.l3.toNat * c.l3.toNat + h.l4.toNat * c.l4.toNat ∧
      (dot h c).toNat < 5 * (m * n) := by
  have hlt0 := mul_lt_of_lt hh.l0 hc.l0
  have hlt1 := mul_lt_of_lt hh.l1 hc.l1
  have hlt2 := mul_lt_of_lt hh.l2 hc.l2
  have hlt3 := mul_lt_of_lt hh.l3 hc.l3
  have hlt4 := mul_lt_of_lt hh.l4 hc.l4
  have hw0 := toNat_wide hw hlt0 (by omega)
  have hw1 := toNat_wide hw hlt1 (by omega)
  have hw2 := toNat_wide hw hlt2 (by omega)
  have hw3 := toNat_wide hw hlt3 (by omega)
  have hw4 := toNat_wide hw hlt4 (by omega)
  have heq : (dot h c).toNat = h.l0.toNat * c.l0.toNat + h.l1.toNat * c.l1.toNat
      + h.l2.toNat * c.l2.toNat + h.l3.toNat * c.l3.toNat + h.l4.toNat * c.l4.toNat := by
    unfold dot
    rw [← hw0] at hlt0 ⊢
    rw [← hw1] at hlt1 ⊢
    rw [← hw2] at hlt2 ⊢
    rw [← hw3] at hlt3 ⊢
    rw [← hw4] at hlt4 ⊢
    have h01 := BitVec.toNat_add_of_lt (x := wide h.l0 c.l0) (y := wide h.l1 c.l1) (by omega)
    have h02 := BitVec.toNat_add_of_lt (x := wide h.l0 c.l0 + wide h.l1 c.l1)
      (y := wide h.l2 c.l2) (by omega)
    have h03 := BitVec.toNat_add_of_lt (x := wide h.l0 c.l0 + wide h.l1 c.l1 + wide h.l2 c.l2)
      (y := wide h.l3 c.l3) (by omega)
    rw [BitVec.toNat_add_of_lt (by omega), h03, h02, h01]
  refine ⟨heq, ?_⟩
  rw [heq]
  omega

/-- The columns of a product of five digits, with those past `2^130` folded back. -/
theorem fold_columns (h0 h1 h2 h3 h4 r0 r1 r2 r3 r4 : Nat) :
    (h0 * r0 + h1 * (r4 * 5) + h2 * (r3 * 5) + h3 * (r2 * 5) + h4 * (r1 * 5))
      + 2 ^ 26 * (h0 * r1 + h1 * r0 + h2 * (r4 * 5) + h3 * (r3 * 5) + h4 * (r2 * 5))
      + 2 ^ 52 * (h0 * r2 + h1 * r1 + h2 * r0 + h3 * (r4 * 5) + h4 * (r3 * 5))
      + 2 ^ 78 * (h0 * r3 + h1 * r2 + h2 * r1 + h3 * r0 + h4 * (r4 * 5))
      + 2 ^ 104 * (h0 * r4 + h1 * r3 + h2 * r2 + h3 * r1 + h4 * r0)
    ≡ (h0 + 2 ^ 26 * h1 + 2 ^ 52 * h2 + 2 ^ 78 * h3 + 2 ^ 104 * h4)
      * (r0 + 2 ^ 26 * r1 + 2 ^ 52 * r2 + 2 ^ 78 * r3 + 2 ^ 104 * r4) [MOD prime1305] := by
  refine modEq_of_add_mul (k := h1 * r4 + h2 * r3 + h3 * r2 + h4 * r1
    + 2 ^ 26 * (h2 * r4 + h3 * r3 + h4 * r2) + 2 ^ 52 * (h3 * r4 + h4 * r3)
    + 2 ^ 78 * (h4 * r4)) ?_
  unfold prime1305
  ring

/-- **The products with `2^130` folded back are the product, modulo the prime.** -/
theorem mulR_val (hlow : 32 ≤ w) (hw : w ≤ 64) {r h : Five w} (hr : r.Below (2 ^ 26))
    (hh : h.Below (2 ^ 27 + 64)) :
    (mulR r h).val ≡ h.val * r.val [MOD prime1305] ∧
      (mulR r h).Below (25 * ((2 ^ 27 + 64) * 2 ^ 26)) ∧
      (mulR r h).l4.toNat < 5 * ((2 ^ 27 + 64) * 2 ^ 26) := by
  have hfive : ∀ x : BitVec w, x.toNat < 2 ^ 26 →
      (x * 5).toNat = x.toNat * 5 ∧ (x * 5).toNat < 5 * 2 ^ 26 ∧ x.toNat < 5 * 2 ^ 26 := by
    intro x hx
    have htimes := toNat_times5 hlow (x := x) (by omega)
    exact ⟨htimes, by omega, by omega⟩
  have hrow := fun c : Five w => toNat_dot hw (n := 5 * 2 ^ 26) (by norm_num) hh (c := c)
  have hbig : 5 * ((2 ^ 27 + 64) * (5 * 2 ^ 26)) = 25 * ((2 ^ 27 + 64) * 2 ^ 26) := by norm_num
  rw [hbig] at hrow
  obtain ⟨-, -, hl0⟩ := hfive _ hr.l0
  obtain ⟨hs1, hl1', hl1⟩ := hfive _ hr.l1
  obtain ⟨hs2, hl2', hl2⟩ := hfive _ hr.l2
  obtain ⟨hs3, hl3', hl3⟩ := hfive _ hr.l3
  obtain ⟨hs4, hl4', -⟩ := hfive _ hr.l4
  obtain ⟨hd0, hb0⟩ := hrow ⟨r.l0, r.l4 * 5, r.l3 * 5, r.l2 * 5, r.l1 * 5⟩
    ⟨hl0, hl4', hl3', hl2', hl1'⟩
  obtain ⟨hd1, hb1⟩ := hrow ⟨r.l1, r.l0, r.l4 * 5, r.l3 * 5, r.l2 * 5⟩
    ⟨hl1, hl0, hl4', hl3', hl2'⟩
  obtain ⟨hd2, hb2⟩ := hrow ⟨r.l2, r.l1, r.l0, r.l4 * 5, r.l3 * 5⟩
    ⟨hl2, hl1, hl0, hl4', hl3'⟩
  obtain ⟨hd3, hb3⟩ := hrow ⟨r.l3, r.l2, r.l1, r.l0, r.l4 * 5⟩ ⟨hl3, hl2, hl1, hl0, hl4'⟩
  obtain ⟨hd4, hb4⟩ := toNat_dot hw (by norm_num) (c := ⟨r.l4, r.l3, r.l2, r.l1, r.l0⟩) hh
    ⟨hr.l4, hr.l3, hr.l2, hr.l1, hr.l0⟩
  refine ⟨?_, ⟨hb0, hb1, hb2, hb3, hb4.trans (by norm_num)⟩, hb4⟩
  have hcolumns := fold_columns h.l0.toNat h.l1.toNat h.l2.toNat h.l3.toNat h.l4.toNat
    r.l0.toNat r.l1.toNat r.l2.toNat r.l3.toNat r.l4.toNat
  rw [← hs1, ← hs2, ← hs3, ← hs4, ← hd0, ← hd1, ← hd2, ← hd3, ← hd4] at hcolumns
  exact hcolumns

/-- A carry into the next sum. -/
theorem toNat_carry (hlow : 32 ≤ w) (hw : w ≤ 64) {x y : U64} (hx : x.toNat < 2 ^ 58)
    (hy : y.toNat < 2 ^ 58) :
    (x + (((y >>> 26).setWidth w).setWidth 64 : U64)).toNat = x.toNat + y.toNat / 2 ^ 26 := by
  have hnarrow := toNat_narrow hlow (d := y) (by omega)
  rw [BitVec.toNat_add_of_lt (by rw [toNat_widen hw, hnarrow]; omega), toNat_widen hw, hnarrow]

/-- What the carries of a turn leave, in numbers. -/
theorem carries_val {d0 d1 d2 d3 d4 e1 e2 e3 e4 : Nat} (h1 : e1 = d1 + d0 / 2 ^ 26)
    (h2 : e2 = d2 + e1 / 2 ^ 26) (h3 : e3 = d3 + e2 / 2 ^ 26) (h4 : e4 = d4 + e3 / 2 ^ 26) :
    (d0 % 2 ^ 26 + e4 / 2 ^ 26 * 5) % 2 ^ 26
      + 2 ^ 26 * (e1 % 2 ^ 26 + (d0 % 2 ^ 26 + e4 / 2 ^ 26 * 5) / 2 ^ 26)
      + 2 ^ 52 * (e2 % 2 ^ 26) + 2 ^ 78 * (e3 % 2 ^ 26) + 2 ^ 104 * (e4 % 2 ^ 26)
      + prime1305 * (e4 / 2 ^ 26)
    = d0 + 2 ^ 26 * d1 + 2 ^ 52 * d2 + 2 ^ 78 * d3 + 2 ^ 104 * d4 := by
  unfold prime1305
  omega

/-- **The carries of a turn are right, modulo the prime.** -/
theorem partialReduce_val (hlow : 32 ≤ w) (hw : w ≤ 64) {d : Five 64}
    (hd : d.Below (25 * ((2 ^ 27 + 64) * 2 ^ 26)))
    (hd4 : d.l4.toNat < 5 * ((2 ^ 27 + 64) * 2 ^ 26)) :
    (partialReduce w d).val ≡ d.val [MOD prime1305] ∧ (partialReduce w d).Carried := by
  obtain ⟨hb0, hb1, hb2, hb3, -⟩ := hd
  have h1 := toNat_carry hlow hw (x := d.l1) (y := d.l0) (by omega) (by omega)
  unfold partialReduce
  dsimp only
  generalize d.l1 + ((d.l0 >>> 26).setWidth w).setWidth 64 = d1 at *
  have h2 := toNat_carry hlow hw (x := d.l2) (y := d1) (by omega) (by omega)
  generalize d.l2 + ((d1 >>> 26).setWidth w).setWidth 64 = d2 at *
  have h3 := toNat_carry hlow hw (x := d.l3) (y := d2) (by omega) (by omega)
  generalize d.l3 + ((d2 >>> 26).setWidth w).setWidth 64 = d3 at *
  have h4 := toNat_carry hlow hw (x := d.l4) (y := d3) (by omega) (by omega)
  generalize d.l4 + ((d3 >>> 26).setWidth w).setWidth 64 = d4 at *
  have hc := toNat_narrow hlow (d := d4) (by omega)
  have h5 := toNat_times5 hlow (x := (d4 >>> 26).setWidth w) (by omega)
  have hlow0 := toNat_narrow26 hlow d.l0
  have hlt0 := Nat.mod_lt d.l0.toNat (Nat.two_pow_pos 26)
  have hsum := toNat_add_small hlow (x := d.l0.setWidth w &&& (0x3ffffff : BitVec w))
    (y := (d4 >>> 26).setWidth w * 5) (by omega)
  rw [hlow0, h5, hc] at hsum
  generalize (d.l0.setWidth w &&& (0x3ffffff : BitVec w)) + (d4 >>> 26).setWidth w * 5 = h0 at *
  have hlow1 := toNat_narrow26 hlow d1
  have hlt1 := Nat.mod_lt d1.toNat (Nat.two_pow_pos 26)
  have hshr := toNat_shr h0 26
  have hl1 := toNat_add_small hlow (x := d1.setWidth w &&& (0x3ffffff : BitVec w))
    (y := h0 >>> 26) (by omega)
  rw [hlow1, hshr, hsum] at hl1
  have hl0 := toNat_low26 hlow h0
  rw [hsum] at hl0
  have hl2 := toNat_narrow26 hlow d2
  have hl3 := toNat_narrow26 hlow d3
  have hl4 := toNat_narrow26 hlow d4
  refine ⟨modEq_of_add_mul (k := d4.toNat / 2 ^ 26) ?_, ?_, ?_, ?_, ?_, ?_⟩
  · unfold Five.val
    dsimp only
    rw [hl0, hl1, hl2, hl3, hl4]
    exact carries_val h1 h2 h3 h4
  · rw [hl0]
    exact Nat.mod_lt _ (Nat.two_pow_pos 26)
  · rw [hl1]
    omega
  · rw [hl2]
    exact Nat.mod_lt _ (Nat.two_pow_pos 26)
  · rw [hl3]
    exact Nat.mod_lt _ (Nat.two_pow_pos 26)
  · rw [hl4]
    exact Nat.mod_lt _ (Nat.two_pow_pos 26)

/-- **One turn: the block is added and the sum multiplied by `r`.** -/
theorem blockTurn_val (hlow : 32 ≤ w) (hw : w ≤ 64) (final : Bool) {r h : Five w}
    (hr : r.Below (2 ^ 26)) (hc : h.Carried) {m : List Byte} (hm : m.length = 16) :
    (blockTurn final r h m).val
        ≡ (h.val + (value m + if final then 0 else 2 ^ 128)) * r.val [MOD prime1305] ∧
      (blockTurn final r h m).Carried := by
  obtain ⟨hadd, hbelow⟩ := addBlock_val hlow final hc hm
  obtain ⟨hmul, hd, hd4⟩ := mulR_val hlow hw hr hbelow
  obtain ⟨hreduce, hcarried⟩ := partialReduce_val hlow hw hd hd4
  rw [hadd] at hmul
  exact ⟨hreduce.trans hmul, hcarried⟩

/-! ### Feeding in pieces -/

/-- A turn reads sixteen bytes. -/
theorem blockTurn_take (final : Bool) (r h : Five w) (m : List Byte) :
    blockTurn final r h (m.take 16) = blockTurn final r h m := by
  unfold blockTurn addBlock u8to32
  rw [slice_take (by decide), slice_take (by decide), slice_take (by decide),
    slice_take (by decide), slice_take (by decide)]

theorem blocksLoop_eq (final : Bool) (r h : Five w) (m : List Byte) :
    blocksLoop final r h m = (consume (blockTurn final r) 16 15 h m).1 := by
  induction hlen : m.length using Nat.strongRecOn generalizing h m with
  | ind len ih =>
      unfold blocksLoop
      by_cases hlong : 16 ≤ m.length
      · rw [dif_pos hlong, consume_of_lt (by decide) h hlong, blockTurn_take]
        exact ih _ (by rw [List.length_drop]; omega) _ _ rfl
      · rw [dif_neg hlong, consume_of_le h (by omega)]

/-- The loop over full blocks. -/
theorem consume_full (final : Bool) (r h : Five w) {m : List Byte} (hm : m.length % 16 = 0) :
    consume (blockTurn final r) 16 15 h m = (blocksLoop final r h m, []) := by
  have hrest := length_consume_mod (blockTurn final r) (n := 16) (by decide) h m
  rw [hm] at hrest
  exact Prod.ext (blocksLoop_eq final r h m).symm (List.length_eq_zero_iff.mp hrest)

/-- What the state stands for: the sum, and the bytes that wait. -/
def Poly1305.view (st : Poly1305 w) : Five w × List Byte :=
  (st.h, st.buffer.toList.take st.leftover)

/-- Between updates: the key's words, and less than a block waits. -/
structure Poly1305.Fed (r : Five w) (pad : Pad w) (st : Poly1305 w) : Prop where
  r : st.r = r
  pad : st.pad = pad
  final : st.final = false
  leftover : st.leftover < 16

variable {r : Five w} {pad : Pad w}

theorem updateFull_view (st : Poly1305 w) (hf : st.Fed r pad) (h0 : st.leftover = 0)
    (m : List Byte) :
    (updateFull st m).view = consume (blockTurn false r) 16 15 st.h m ∧
      (updateFull st m).Fed r pad := by
  obtain ⟨hr, hpad, hfinal, -⟩ := hf
  -- the full blocks
  have hsplit : ∃ want, want ≤ m.length ∧ (m.drop want).length < 16 ∧
      ∃ st', (if m.length ≥ 16 then poly1305Blocks st (m.take want) else st) = st' ∧
      (if m.length ≥ 16 then m.length / 16 * 16 else 0) = want ∧
      st' = { st with h := st'.h } ∧
      consume (blockTurn false r) 16 15 st.h m = (st'.h, m.drop want) := by
    by_cases hlong : m.length ≥ 16
    · have hlen : (m.take (m.length / 16 * 16)).length % 16 = 0 := by
        rw [List.length_take]
        omega
      have hdrop : (m.drop (m.length / 16 * 16)).length < 16 := by
        rw [List.length_drop]
        omega
      have happend := consume_append (blockTurn false r)
        (by decide : 0 < 16) (by decide : 16 ≤ 15 + 1) st.h (m.take (m.length / 16 * 16)) (m.drop (m.length / 16 * 16))
      rw [List.take_append_drop, consume_full false r st.h hlen, List.nil_append,
        consume_of_le _ (Nat.le_of_lt_succ hdrop)] at happend
      refine ⟨m.length / 16 * 16, by omega, hdrop, _, rfl, by rw [if_pos hlong], ?_, ?_⟩
      · rw [if_pos hlong]
        rfl
      · rw [if_pos hlong, happend]
        unfold poly1305Blocks
        rw [hfinal, hr]
    · refine ⟨0, Nat.zero_le _, by simpa using hlong, _, rfl, by rw [if_neg hlong], ?_, ?_⟩
      · rw [if_neg hlong]
      · rw [if_neg hlong, consume_of_le _ (by omega), List.drop_zero]
  obtain ⟨want, hwant, hlt, st', hst, hw, hkeep, hconsume⟩ := hsplit
  have heq : updateFull st m = if (m.drop want).length ≠ 0 then
      { st' with
        buffer := writeAt st'.buffer st'.leftover (m.drop want)
        leftover := st'.leftover + (m.drop want).length } else st' := by
    unfold updateFull
    dsimp only
    rw [hw, hst]
  rw [heq, hconsume]
  generalize m.drop want = rest at *
  rw [hkeep]
  split
  · refine ⟨Prod.ext rfl ?_, ⟨hr, hpad, hfinal, ?_⟩⟩
    · unfold Poly1305.view
      dsimp only
      rw [take_writeAt _ _ _ (by omega), h0, List.take_zero, List.nil_append]
    · dsimp only
      omega
  · rename_i hempty
    have hrest : rest = [] := List.length_eq_zero_iff.mp (not_not.mp hempty)
    refine ⟨Prod.ext rfl ?_, ⟨hr, hpad, hfinal, ?_⟩⟩
    · unfold Poly1305.view
      dsimp only
      rw [h0, hrest, List.take_zero]
    · dsimp only
      omega

/-- **`poly1305_update` takes what waits and the new bytes.** -/
theorem poly1305Update_view {st : Poly1305 w} (hf : st.Fed r pad) (m : List Byte) :
    (poly1305Update st m).view
        = consume (blockTurn false r) 16 15 st.view.1 (st.view.2 ++ m) ∧
      (poly1305Update st m).Fed r pad := by
  unfold poly1305Update
  by_cases hzero : st.leftover = 0
  · rw [if_neg (not_not.mpr hzero)]
    have hview : st.view.2 ++ m = m := by
      unfold Poly1305.view
      rw [hzero, List.take_zero, List.nil_append]
    rw [hview]
    exact updateFull_view st hf hzero m
  rw [if_pos hzero]
  dsimp only
  obtain ⟨hr, hpad, hfinal, hleft⟩ := hf
  have hlen : (m.take (min (16 - st.leftover) m.length)).length
      = min (16 - st.leftover) m.length := by
    rw [List.length_take]
    omega
  have hwrite := take_writeAt st.buffer st.leftover
    (m.take (min (16 - st.leftover) m.length)) (by omega)
  rw [hlen] at hwrite
  by_cases hshort : st.leftover + min (16 - st.leftover) m.length < 16
  · rw [if_pos hshort]
    have hall : m.take (min (16 - st.leftover) m.length) = m := List.take_of_length_le (by omega)
    refine ⟨?_, ⟨hr, hpad, hfinal, hshort⟩⟩
    have hheld : (st.view.2 ++ m).length ≤ 15 := by
      unfold Poly1305.view
      simp only [List.length_append, List.length_take, List.Vector.toList_length]
      omega
    rw [consume_of_le _ hheld]
    refine Prod.ext rfl ?_
    unfold Poly1305.view
    dsimp only
    rw [hwrite, hall]
  · rw [if_neg hshort]
    have hfull : st.leftover + min (16 - st.leftover) m.length = 16 := by omega
    rw [hfull, List.take_of_length_le (by simp)] at hwrite
    have hblock : (writeAt st.buffer st.leftover
        (m.take (min (16 - st.leftover) m.length))).toList.length % 16 = 0 := by simp
    have happend := consume_append (blockTurn false r)
      (by decide : 0 < 16) (by decide : 16 ≤ 15 + 1) st.h
      (writeAt st.buffer st.leftover (m.take (min (16 - st.leftover) m.length))).toList
      (m.drop (min (16 - st.leftover) m.length))
    rw [consume_full false r st.h hblock, List.nil_append] at happend
    conv at happend =>
      lhs
      rw [hwrite, List.append_assoc, List.take_append_drop]
    have hnext := updateFull_view (r := r)
      { poly1305Blocks { st with
          buffer := writeAt st.buffer st.leftover (m.take (min (16 - st.leftover) m.length))
          leftover := st.leftover + min (16 - st.leftover) m.length }
        (writeAt st.buffer st.leftover (m.take (min (16 - st.leftover) m.length))).toList
        with leftover := 0 }
      ⟨hr, hpad, hfinal, Nat.succ_pos 15⟩ rfl (m.drop (min (16 - st.leftover) m.length))
    refine ⟨hnext.1.trans ?_, hnext.2⟩
    show _ = consume (blockTurn false r) 16 15 st.h (st.buffer.toList.take st.leftover ++ m)
    rw [happend]
    unfold poly1305Blocks
    dsimp only
    rw [hfinal, hr]

/-! ### The last steps -/

/-- A carry into the next word. -/
theorem toNat_spill (hw : 32 ≤ w) {x y : BitVec w} (hx : x.toNat < 2 ^ 31)
    (hy : y.toNat < 2 ^ 31) : (x + y >>> 26).toNat = x.toNat + y.toNat / 2 ^ 26 := by
  have hshr := toNat_shr y 26
  rw [toNat_add_small hw (by omega), hshr]

/-- What the last carries leave, in numbers. -/
theorem spills_val {h0 h1 h2 h3 h4 e2 e3 e4 : Nat} (h2' : e2 = h2 + h1 / 2 ^ 26)
    (h3' : e3 = h3 + e2 / 2 ^ 26) (h4' : e4 = h4 + e3 / 2 ^ 26) :
    (h0 + e4 / 2 ^ 26 * 5) % 2 ^ 26 + 2 ^ 26 * (h1 % 2 ^ 26 + (h0 + e4 / 2 ^ 26 * 5) / 2 ^ 26)
      + 2 ^ 52 * (e2 % 2 ^ 26) + 2 ^ 78 * (e3 % 2 ^ 26) + 2 ^ 104 * (e4 % 2 ^ 26)
      + prime1305 * (e4 / 2 ^ 26)
    = h0 + 2 ^ 26 * h1 + 2 ^ 52 * h2 + 2 ^ 78 * h3 + 2 ^ 104 * h4 := by
  unfold prime1305
  omega

/-- **Fully carried, every word has 26 bits.**  A word that spills leaves little behind, so the
carry that comes round cannot make the second one spill again. -/
theorem fullCarry_val (hw : 32 ≤ w) {h : Five w} (hc : h.Carried) :
    (fullCarry h).val ≡ h.val [MOD prime1305] ∧ (fullCarry h).Below (2 ^ 26) := by
  obtain ⟨hb0, hb1, hb2, hb3, hb4⟩ := hc
  have h2 := toNat_spill hw (x := h.l2) (y := h.l1) (by omega) (by omega)
  unfold fullCarry
  dsimp only
  generalize h.l2 + h.l1 >>> 26 = e2 at *
  have h3 := toNat_spill hw (x := h.l3) (y := e2) (by omega) (by omega)
  generalize h.l3 + e2 >>> 26 = e3 at *
  have h4 := toNat_spill hw (x := h.l4) (y := e3) (by omega) (by omega)
  generalize h.l4 + e3 >>> 26 = e4 at *
  have hshr4 := toNat_shr e4 26
  have h5 := toNat_times5 hw (x := e4 >>> 26) (by omega)
  rw [hshr4] at h5
  have h0 := toNat_add_small hw (x := h.l0) (y := e4 >>> 26 * 5) (by omega)
  rw [h5] at h0
  generalize h.l0 + e4 >>> 26 * 5 = e0 at *
  have hl1' := toNat_low26 hw h.l1
  have hlt1 := Nat.mod_lt h.l1.toNat (Nat.two_pow_pos 26)
  have h1 := toNat_spill hw (x := h.l1 &&& 0x3ffffff) (y := e0) (by omega) (by omega)
  rw [hl1'] at h1
  have hl0 := toNat_low26 hw e0
  have hl2 := toNat_low26 hw e2
  have hl3 := toNat_low26 hw e3
  have hl4 := toNat_low26 hw e4
  refine ⟨modEq_of_add_mul (k := e4.toNat / 2 ^ 26) ?_, ?_, ?_, ?_, ?_, ?_⟩
  · unfold Five.val
    dsimp only
    rw [hl0, h1, hl2, hl3, hl4, h0]
    exact spills_val h2 h3 h4
  · rw [hl0]
    exact Nat.mod_lt _ (Nat.two_pow_pos 26)
  · rw [h1]
    omega
  · rw [hl2]
    exact Nat.mod_lt _ (Nat.two_pow_pos 26)
  · rw [hl3]
    exact Nat.mod_lt _ (Nat.two_pow_pos 26)
  · rw [hl4]
    exact Nat.mod_lt _ (Nat.two_pow_pos 26)

/-- The sign of a difference of small words. -/
theorem sign_sub (hw : 32 ≤ w) {x : BitVec w} (hx : x.toNat < 2 ^ 27) :
    (x - (1 : BitVec w) <<< 26) >>> (w - 1) = if x.toNat < 2 ^ 26 then 1 else 0 := by
  have hpow : 2 ^ (w - 1) + 2 ^ (w - 1) = 2 ^ w := by
    rw [← two_mul, ← pow_succ']
    congr 1
    omega
  have hle : 2 ^ 31 ≤ 2 ^ (w - 1) := Nat.pow_le_pow_right two_pos (by omega)
  have hone : (1 : BitVec w).toNat = 1 := toNat_const hw (by decide)
  have hbit : ((1 : BitVec w) <<< 26).toNat = 2 ^ 26 := by
    rw [BitVec.toNat_shiftLeft, hone, Nat.shiftLeft_eq, Nat.one_mul, Nat.mod_eq_of_lt (by omega)]
  apply BitVec.eq_of_toNat_eq
  rw [toNat_shr, BitVec.toNat_sub, hbit]
  split
  · rename_i hlt
    have hquot : (2 ^ w - 2 ^ 26 + x.toNat) / 2 ^ (w - 1) = 1 :=
      Nat.div_eq_of_lt_le (by omega) (by omega)
    rw [hone, Nat.mod_eq_of_lt (by omega), hquot]
  · rename_i hge
    have hwrap : 2 ^ w - 2 ^ 26 + x.toNat = (x.toNat - 2 ^ 26) + 2 ^ w := by omega
    rw [hwrap, Nat.add_mod_right, Nat.mod_eq_of_lt (by omega), Nat.div_eq_of_lt (by omega)]
    exact BitVec.toNat_zero.symm

/-- What the carries of `g` leave, in numbers. -/
theorem minus_val {h0 h1 h2 h3 h4 e0 e1 e2 e3 e4 : Nat} (h0' : e0 = h0 + 5)
    (h1' : e1 = h1 + e0 / 2 ^ 26) (h2' : e2 = h2 + e1 / 2 ^ 26) (h3' : e3 = h3 + e2 / 2 ^ 26)
    (h4' : e4 = h4 + e3 / 2 ^ 26) :
    e0 % 2 ^ 26 + 2 ^ 26 * (e1 % 2 ^ 26) + 2 ^ 52 * (e2 % 2 ^ 26) + 2 ^ 78 * (e3 % 2 ^ 26)
      + 2 ^ 104 * e4
    = h0 + 2 ^ 26 * h1 + 2 ^ 52 * h2 + 2 ^ 78 * h3 + 2 ^ 104 * h4 + 5 := by
  omega

/-- **The mask selects the remainder modulo the prime.** -/
theorem selectH_val (hw : 32 ≤ w) {h : Five w} (hb : h.Below (2 ^ 26)) :
    (selectH h (minusP h)).val = h.val % prime1305 ∧
      (selectH h (minusP h)).Below (2 ^ 26) := by
  obtain ⟨hb0, hb1, hb2, hb3, hb4⟩ := hb
  have hfive : (5 : BitVec w).toNat = 5 := toNat_const hw (by decide)
  have h0 := toNat_add_small hw (x := h.l0) (y := 5) (by omega)
  rw [hfive] at h0
  unfold selectH minusP
  dsimp only
  generalize h.l0 + 5 = e0 at *
  have h1 := toNat_spill hw (x := h.l1) (y := e0) (by omega) (by omega)
  generalize h.l1 + e0 >>> 26 = e1 at *
  have h2 := toNat_spill hw (x := h.l2) (y := e1) (by omega) (by omega)
  generalize h.l2 + e1 >>> 26 = e2 at *
  have h3 := toNat_spill hw (x := h.l3) (y := e2) (by omega) (by omega)
  generalize h.l3 + e2 >>> 26 = e3 at *
  have h4 := toNat_spill hw (x := h.l4) (y := e3) (by omega) (by omega)
  generalize h.l4 + e3 >>> 26 = e4 at *
  have hminus := minus_val h0 h1 h2 h3 h4
  have hsign := sign_sub hw (x := e4) (by omega)
  rw [hsign]
  have hl0 := toNat_low26 hw e0
  have hl1 := toNat_low26 hw e1
  have hl2 := toNat_low26 hw e2
  have hl3 := toNat_low26 hw e3
  by_cases hlt : e4.toNat < 2 ^ 26
  · -- no carry out: the number is below the prime
    have hmask : (1 : BitVec w) - 1 = 0#w := BitVec.sub_self _
    rw [if_pos hlt, hmask]
    simp only [BitVec.not_zero, BitVec.and_allOnes, BitVec.and_zero, BitVec.or_zero]
    refine ⟨?_, hb0, hb1, hb2, hb3, hb4⟩
    unfold Five.val
    rw [Nat.mod_eq_of_lt]
    unfold prime1305
    omega
  · have hmask : (0 : BitVec w) - 1 = BitVec.allOnes w := by
      rw [← BitVec.neg_one_eq_allOnes]
      exact BitVec.zero_sub _
    have hone : (1 : BitVec w).toNat = 1 := toNat_const hw (by decide)
    have hg4 : (e4 - (1 : BitVec w) <<< 26).toNat = e4.toNat - 2 ^ 26 := by
      have hle := pow_le_width hw
      have hbit : ((1 : BitVec w) <<< 26).toNat = 2 ^ 26 := by
        rw [BitVec.toNat_shiftLeft, hone, Nat.shiftLeft_eq, Nat.one_mul,
          Nat.mod_eq_of_lt (by omega)]
      rw [BitVec.toNat_sub_of_le (by rw [BitVec.le_def, hbit]; omega), hbit]
    rw [if_neg hlt, hmask]
    simp only [BitVec.not_allOnes, BitVec.and_zero, BitVec.zero_or, BitVec.and_allOnes]
    have hbound : h.val < 2 * prime1305 := by
      unfold Five.val prime1305
      omega
    refine ⟨?_, ?_, ?_, ?_, ?_, ?_⟩
    · rw [Nat.mod_eq_sub_mod, Nat.mod_eq_of_lt (by omega)]
      · unfold Five.val prime1305
        dsimp only
        rw [hl0, hl1, hl2, hl3, hg4]
        omega
      · unfold Five.val prime1305
        omega
    · rw [hl0]
      exact Nat.mod_lt _ (Nat.two_pow_pos 26)
    · rw [hl1]
      exact Nat.mod_lt _ (Nat.two_pow_pos 26)
    · rw [hl2]
      exact Nat.mod_lt _ (Nat.two_pow_pos 26)
    · rw [hl3]
      exact Nat.mod_lt _ (Nat.two_pow_pos 26)
    · rw [hg4]
      omega

/-- Two words, one above the other, in 32 bits. -/
theorem toNat_packed (hw : 32 ≤ w) {x y : BitVec w} {k : Nat} (hx : x.toNat < 2 ^ k) :
    ((x ||| y <<< k) &&& 0xffffffff).toNat = (x.toNat + 2 ^ k * y.toNat) % 2 ^ 32 := by
  have hmask : (0xffffffff : BitVec w).toNat = 2 ^ 32 - 1 := toNat_const hw (by decide)
  have hdvd : 2 ^ 32 ∣ 2 ^ w := pow_dvd_pow 2 hw
  have hor := Nat.two_pow_add_eq_or_of_lt hx y.toNat
  rw [BitVec.toNat_and, hmask, Nat.and_two_pow_sub_one_eq_mod, BitVec.toNat_or,
    BitVec.toNat_shiftLeft, Nat.shiftLeft_eq, Nat.or_mod_two_pow, Nat.mod_mod_of_dvd _ hdvd,
    ← Nat.or_mod_two_pow, Nat.or_comm, Nat.mul_comm, ← hor, Nat.add_comm]

/-- The number in four words of 32 bits. -/
def Pad.val (p : Pad w) : Nat :=
  p.p0.toNat + 2 ^ 32 * p.p1.toNat + 2 ^ 64 * p.p2.toNat + 2 ^ 96 * p.p3.toNat

/-- Words of 32 bits. -/
structure Pad.Below (p : Pad w) : Prop where
  p0 : p.p0.toNat < 2 ^ 32
  p1 : p.p1.toNat < 2 ^ 32
  p2 : p.p2.toNat < 2 ^ 32
  p3 : p.p3.toNat < 2 ^ 32

theorem pack_val (hw : 32 ≤ w) {h : Five w} (hb : h.Below (2 ^ 26)) :
    (pack h).val = h.val % 2 ^ 128 ∧ (pack h).Below := by
  obtain ⟨hb0, hb1, hb2, hb3, hb4⟩ := hb
  have h1 := toNat_shr h.l1 6
  have h2 := toNat_shr h.l2 12
  have h3 := toNat_shr h.l3 18
  have hp0 := toNat_packed hw (x := h.l0) (y := h.l1) (k := 26) hb0
  have hp1 := toNat_packed hw (x := h.l1 >>> 6) (y := h.l2) (k := 20) (by omega)
  have hp2 := toNat_packed hw (x := h.l2 >>> 12) (y := h.l3) (k := 14) (by omega)
  have hp3 := toNat_packed hw (x := h.l3 >>> 18) (y := h.l4) (k := 8) (by omega)
  rw [h1] at hp1
  rw [h2] at hp2
  rw [h3] at hp3
  unfold pack
  refine ⟨?_, ?_, ?_, ?_, ?_⟩
  · unfold Pad.val Five.val
    dsimp only
    rw [hp0, hp1, hp2, hp3]
    omega
  · rw [hp0]
    exact Nat.mod_lt _ (Nat.two_pow_pos 32)
  · rw [hp1]
    exact Nat.mod_lt _ (Nat.two_pow_pos 32)
  · rw [hp2]
    exact Nat.mod_lt _ (Nat.two_pow_pos 32)
  · rw [hp3]
    exact Nat.mod_lt _ (Nat.two_pow_pos 32)

/-- What the additions of 32 bits leave, in numbers. -/
theorem sums_val {a0 a1 a2 a3 b0 b1 b2 b3 f0 f1 f2 f3 : Nat} (h0 : f0 = a0 + b0)
    (h1 : f1 = a1 + b1 + f0 / 2 ^ 32) (h2 : f2 = a2 + b2 + f1 / 2 ^ 32)
    (h3 : f3 = a3 + b3 + f2 / 2 ^ 32) :
    f0 % 2 ^ 32 + 2 ^ 32 * (f1 % 2 ^ 32 + 2 ^ 32 * (f2 % 2 ^ 32 + 2 ^ 32 * (f3 % 2 ^ 32)))
    = (a0 + 2 ^ 32 * a1 + 2 ^ 64 * a2 + 2 ^ 96 * a3
        + (b0 + 2 ^ 32 * b1 + 2 ^ 64 * b2 + 2 ^ 96 * b3)) % 2 ^ 128 := by
  omega

/-- **The tag is the sum modulo `2^128`.** -/
theorem addPad_eq (hlow : 32 ≤ w) (hw : w ≤ 64) {h pad : Pad w} (hh : h.Below)
    (hp : pad.Below) : addPad h pad = writeLe 16 (BitVec.ofNat 128 (h.val + pad.val)) := by
  obtain ⟨ha0, ha1, ha2, ha3⟩ := hh
  obtain ⟨hb0, hb1, hb2, hb3⟩ := hp
  have hwide := fun x : BitVec w => toNat_widen hw x
  have h0 : (h.p0.setWidth 64 + pad.p0.setWidth 64 : U64).toNat
      = h.p0.toNat + pad.p0.toNat := by
    rw [BitVec.toNat_add_of_lt (by rw [hwide, hwide]; omega), hwide, hwide]
  have hnext : ∀ (x y : BitVec w) (f : U64), x.toNat < 2 ^ 32 → y.toNat < 2 ^ 32 →
      f.toNat < 2 ^ 40 → (x.setWidth 64 + y.setWidth 64 + f >>> 32 : U64).toNat
        = x.toNat + y.toNat + f.toNat / 2 ^ 32 := by
    intro x y f hx hy hf
    have hshr := toNat_shr f 32
    have hsum : (x.setWidth 64 + y.setWidth 64 : U64).toNat = x.toNat + y.toNat := by
      rw [BitVec.toNat_add_of_lt (by rw [hwide, hwide]; omega), hwide, hwide]
    rw [BitVec.toNat_add_of_lt (by rw [hsum]; omega), hsum, hshr]
  have hbytes : ∀ f : U64, value (writeLe 4 (f.setWidth w)).toList = f.toNat % 2 ^ 32 := by
    intro f
    rw [value_writeLe, BitVec.toNat_setWidth,
      Nat.mod_mod_of_dvd _ (pow_dvd_pow 2 (by omega : 8 * 4 ≤ w))]
  apply List.Vector.toList_injective
  refine value_inj (by simp) ?_
  rw [value_writeLe, BitVec.toNat_ofNat, Nat.mod_mod_of_dvd _ (by decide)]
  unfold addPad
  dsimp only [List.Vector.toList_mk]
  generalize (h.p0.setWidth 64 + pad.p0.setWidth 64 : U64) = f0 at *
  have h1 := hnext h.p1 pad.p1 f0 ha1 hb1 (by omega)
  generalize (h.p1.setWidth 64 + pad.p1.setWidth 64 + f0 >>> 32 : U64) = f1 at *
  have h2 := hnext h.p2 pad.p2 f1 ha2 hb2 (by omega)
  generalize (h.p2.setWidth 64 + pad.p2.setWidth 64 + f1 >>> 32 : U64) = f2 at *
  have h3 := hnext h.p3 pad.p3 f2 ha3 hb3 (by omega)
  generalize (h.p3.setWidth 64 + pad.p3.setWidth 64 + f2 >>> 32 : U64) = f3 at *
  rw [value_append, value_append, value_append, hbytes, hbytes, hbytes, hbytes,
    List.Vector.toList_length, List.Vector.toList_length, List.Vector.toList_length]
  exact sums_val h0 h1 h2 h3

/-! ### What the authenticator is -/

/-- `r &= 0xffffffc0ffffffc0ffffffc0fffffff`. -/
def clampMask : Nat := 0x0ffffffc0ffffffc0ffffffc0fffffff

/-- The point the polynomial is evaluated at. -/
def keyR (key : Key) : Nat := value (key.toList.take 16) &&& clampMask

/-- What is added at the end. -/
def keyS (key : Key) : Nat := value (key.toList.drop 16)

/-- A block, with a one above it, is added and the sum multiplied. -/
def absorb (r acc : Nat) (block : List Byte) : Nat :=
  (acc + (value block + 2 ^ (8 * block.length))) * r % prime1305

/-- All blocks of a message; the last may be short. -/
def accumulate (r acc : Nat) (msg : List Byte) : Nat :=
  if _h : msg = [] then acc else accumulate r (absorb r acc (msg.take 16)) (msg.drop 16)
termination_by msg.length
decreasing_by
  have := List.length_pos_of_ne_nil _h
  rw [List.length_drop]
  omega

/-- The tag of a message. -/
def poly1305Tag (key : Key) (msg : List Byte) : Bytes 16 :=
  writeLe 16 (BitVec.ofNat 128 (accumulate (keyR key) 0 msg + keyS key))

/-- The last block apart. -/
theorem accumulate_eq (k acc : Nat) (msg : List Byte) :
    accumulate k acc msg =
      if (consume (absorb k) 16 15 acc msg).2 = []
      then (consume (absorb k) 16 15 acc msg).1
      else absorb k (consume (absorb k) 16 15 acc msg).1
        (consume (absorb k) 16 15 acc msg).2 := by
  induction hlen : msg.length using Nat.strongRecOn generalizing acc msg with
  | ind len ih =>
      by_cases hlong : 15 < msg.length
      · have hne : msg ≠ [] := List.ne_nil_of_length_pos (by omega)
        unfold accumulate
        rw [dif_neg hne, consume_of_lt (by decide) acc hlong]
        exact ih _ (by rw [List.length_drop]; omega) _ _ rfl
      · rw [consume_of_le acc (Nat.not_lt.mp hlong)]
        unfold accumulate
        split
        · rfl
        · have hdrop : msg.drop 16 = [] := List.drop_eq_nil_of_le (by omega)
          unfold accumulate
          rw [dif_pos hdrop, List.take_of_length_le (by omega)]

/-! ### The words of the key -/

theorem mod_and {x m k : Nat} (hm : m < 2 ^ k) : x % 2 ^ k &&& m = x &&& m := by
  have hlt : x &&& m < 2 ^ k := Nat.and_lt_two_pow x hm
  rw [← Nat.mod_eq_of_lt hlt, Nat.and_mod_two_pow, Nat.mod_eq_of_lt hm]

/-- A word of `r`, as a digit of the clamped number. -/
theorem clamped_digit {v m : Nat} (a : Nat) (hm : clampMask / 2 ^ a % 2 ^ 26 = m) :
    v / 2 ^ a &&& m = (v &&& clampMask) / 2 ^ a % 2 ^ 26 := by
  have hlt : m < 2 ^ 26 := hm ▸ Nat.mod_lt _ (Nat.two_pow_pos 26)
  rw [Nat.and_div_two_pow, Nat.and_mod_two_pow, hm, mod_and hlt]

theorem digits_of_lt {n : Nat} (h : n < 2 ^ 130) :
    n % 2 ^ 26 + 2 ^ 26 * (n / 2 ^ 26 % 2 ^ 26) + 2 ^ 52 * (n / 2 ^ 52 % 2 ^ 26)
      + 2 ^ 78 * (n / 2 ^ 78 % 2 ^ 26) + 2 ^ 104 * (n / 2 ^ 104 % 2 ^ 26) = n := by
  omega

theorem toNat_and_mask (hw : 32 ≤ w) (x : BitVec w) {m : Nat} (hm : m < 2 ^ 32) :
    (x &&& BitVec.ofNat w m).toNat = x.toNat &&& m := by
  rw [BitVec.toNat_and, toNat_const hw hm]

/-- A shifted load, masked. -/
theorem toNat_clampWord (hw : 32 ≤ w) (l : List Byte) (off k m : Nat)
    (hoff : off + 4 ≤ l.length) (hk : k ≤ 32) (hm : m < 2 ^ (32 - k)) :
    ((u8to32 w l off >>> k) &&& BitVec.ofNat w m).toNat = value l / 2 ^ (8 * off + k) &&& m := by
  have hm32 : m < 2 ^ 32 := hm.trans_le (Nat.pow_le_pow_right two_pos (Nat.sub_le _ _))
  have hload := toNat_u8to32 hw l off hoff
  have hshift : value l / 2 ^ (8 * off) % 2 ^ 32 / 2 ^ k
      = value l / 2 ^ (8 * off + k) % 2 ^ (32 - k) := by
    have hsplit : 2 ^ 32 = 2 ^ k * 2 ^ (32 - k) := by
      rw [← pow_add]
      congr 1
      omega
    rw [hsplit, Nat.mod_mul_right_div_self, Nat.div_div_eq_div_mul, ← pow_add]
  rw [toNat_and_mask hw _ hm32, toNat_shr, hload, hshift, mod_and hm]

/-- **`poly1305_init` clamps `r`.** -/
theorem init_r (hw : 32 ≤ w) (buffer : Bytes 16) (key : Key) :
    (poly1305Init w buffer key).r.val = keyR key ∧
      (poly1305Init w buffer key).r.Below (2 ^ 26) := by
  have hlen : key.toList.length = 32 := key.toList_length
  have h0 := toNat_clampWord hw key.toList 0 0 0x3ffffff (by omega) (by decide) (by decide)
  have h1 := toNat_clampWord hw key.toList 3 2 0x3ffff03 (by omega) (by decide) (by decide)
  have h2 := toNat_clampWord hw key.toList 6 4 0x3ffc0ff (by omega) (by decide) (by decide)
  have h3 := toNat_clampWord hw key.toList 9 6 0x3f03fff (by omega) (by decide) (by decide)
  have h4 := toNat_clampWord hw key.toList 12 8 0x00fffff (by omega) (by decide) (by decide)
  rw [clamped_digit _ (by decide)] at h0 h1 h2 h3 h4
  rw [BitVec.ushiftRight_zero] at h0
  have hkey : value key.toList &&& clampMask = keyR key := by
    unfold keyR
    rw [value_take, mod_and (by decide)]
  rw [hkey] at h0 h1 h2 h3 h4
  have hlt : keyR key < 2 ^ 130 := (Nat.and_lt_two_pow _ (by decide : clampMask < 2 ^ 130))
  have hl0 : (poly1305Init w buffer key).r.l0.toNat = keyR key % 2 ^ 26 := by
    rw [Nat.mul_zero, Nat.add_zero, pow_zero, Nat.div_one] at h0
    exact h0
  have hl1 : (poly1305Init w buffer key).r.l1.toNat = keyR key / 2 ^ 26 % 2 ^ 26 := h1
  have hl2 : (poly1305Init w buffer key).r.l2.toNat = keyR key / 2 ^ 52 % 2 ^ 26 := h2
  have hl3 : (poly1305Init w buffer key).r.l3.toNat = keyR key / 2 ^ 78 % 2 ^ 26 := h3
  have hl4 : (poly1305Init w buffer key).r.l4.toNat = keyR key / 2 ^ 104 % 2 ^ 26 := h4
  refine ⟨?_, ?_, ?_, ?_, ?_, ?_⟩
  · unfold Five.val
    rw [hl0, hl1, hl2, hl3, hl4]
    exact digits_of_lt hlt
  · rw [hl0]
    exact Nat.mod_lt _ (Nat.two_pow_pos 26)
  · rw [hl1]
    exact Nat.mod_lt _ (Nat.two_pow_pos 26)
  · rw [hl2]
    exact Nat.mod_lt _ (Nat.two_pow_pos 26)
  · rw [hl3]
    exact Nat.mod_lt _ (Nat.two_pow_pos 26)
  · rw [hl4]
    exact Nat.mod_lt _ (Nat.two_pow_pos 26)

/-- The words of `pad`. -/
theorem init_pad (hw : 32 ≤ w) (buffer : Bytes 16) (key : Key) :
    (poly1305Init w buffer key).pad.val = keyS key ∧
      (poly1305Init w buffer key).pad.Below := by
  have hlen : key.toList.length = 32 := key.toList_length
  have h0 := toNat_u8to32 hw key.toList 16 (by omega)
  have h1 := toNat_u8to32 hw key.toList 20 (by omega)
  have h2 := toNat_u8to32 hw key.toList 24 (by omega)
  have h3 := toNat_u8to32 hw key.toList 28 (by omega)
  have hkey : keyS key = value key.toList / 2 ^ 128 := value_drop _ _
  have hlt := value_lt key.toList
  rw [hlen] at hlt
  refine ⟨?_, ?_, ?_, ?_, ?_⟩
  · unfold Pad.val poly1305Init
    dsimp only
    rw [h0, h1, h2, h3, hkey]
    omega
  · exact h0.trans_lt (Nat.mod_lt _ (Nat.two_pow_pos 32))
  · exact h1.trans_lt (Nat.mod_lt _ (Nat.two_pow_pos 32))
  · exact h2.trans_lt (Nat.mod_lt _ (Nat.two_pow_pos 32))
  · exact h3.trans_lt (Nat.mod_lt _ (Nat.two_pow_pos 32))

/-! ### The tag -/

/-- What `h` stands for. -/
structure Five.Stands (h : Five w) (acc : Nat) : Prop where
  val : h.val ≡ acc [MOD prime1305]
  carried : h.Carried

theorem blockTurn_stands (hlow : 32 ≤ w) (hw : w ≤ 64) {r h : Five w} {acc : Nat}
    (hr : r.Below (2 ^ 26)) (hs : h.Stands acc) {block : List Byte} (hlen : block.length = 16) :
    (blockTurn false r h block).Stands (absorb r.val acc block) := by
  obtain ⟨hval, hcarried⟩ := blockTurn_val hlow hw false hr hs.carried hlen
  refine ⟨hval.trans ?_, hcarried⟩
  unfold absorb
  rw [hlen]
  exact ((hs.val.add_right _).mul_right _).trans (Nat.mod_modEq _ _).symm

/-- **`process the remaining block`.** -/
theorem lastBlock_stands (hlow : 32 ≤ w) (hw : w ≤ 64) {st : Poly1305 w} {r : Five w}
    {pad : Pad w} {acc : Nat} (hr : r.Below (2 ^ 26)) (hf : st.Fed r pad)
    (hs : st.h.Stands acc) :
    (lastBlock st).h.Stands
      (if st.view.2 = [] then acc else absorb r.val acc st.view.2) := by
  have hleft := hf.leftover
  have hlength : st.view.2.length = st.leftover := by
    unfold Poly1305.view
    simp only [List.length_take, List.Vector.toList_length]
    omega
  unfold lastBlock
  by_cases hzero : st.leftover = 0
  · have hempty : st.view.2 = [] := List.length_eq_zero_iff.mp (hlength.trans hzero)
    rw [if_neg (not_not.mpr hzero), if_pos hempty]
    exact hs
  · have hne : st.view.2 ≠ [] := fun h => hzero (by rw [← hlength, h, List.length_nil])
    rw [if_pos hzero, if_neg hne]
    dsimp only
    have hsrc : (1 :: List.replicate (15 - st.leftover) 0 : List Byte).length
        = 16 - st.leftover := by
      rw [List.length_cons, List.length_replicate]
      omega
    have hwrite := take_writeAt st.buffer st.leftover
      (1 :: List.replicate (15 - st.leftover) 0) (by omega)
    rw [hsrc, List.take_of_length_le (by simp; omega)] at hwrite
    have hvalue : value (writeAt st.buffer st.leftover
        (1 :: List.replicate (15 - st.leftover) 0)).toList
        = value st.view.2 + 2 ^ (8 * st.view.2.length) := by
      rw [hwrite, value_append, value_cons, value_replicate_zero, Nat.mul_zero, Nat.add_zero]
      show value st.view.2 + 2 ^ (8 * st.view.2.length) * 1 = _
      rw [Nat.mul_one]
    have hblock : (writeAt st.buffer st.leftover
        (1 :: List.replicate (15 - st.leftover) 0)).toList.length = 16 := by simp
    unfold poly1305Blocks
    dsimp only
    rw [hf.r, blocksLoop, dif_pos (by omega), blocksLoop, dif_neg (by simp)]
    obtain ⟨hval, hcarried⟩ := blockTurn_val hlow hw true hr hs.carried hblock
    refine ⟨hval.trans ?_, hcarried⟩
    rw [hvalue, if_pos rfl, Nat.add_zero]
    exact ((hs.val.add_right _).mul_right _).trans (Nat.mod_modEq _ _).symm

/-- `poly1305_finish` gives the tag of the sum. -/
theorem finish_eq (hlow : 32 ≤ w) (hw : w ≤ 64) {st : Poly1305 w} {acc : Nat}
    (hs : (lastBlock st).h.Stands acc) (hacc : acc < prime1305) (hpad : st.pad.Below) :
    poly1305Finish st = writeLe 16 (BitVec.ofNat 128 (acc + st.pad.val)) := by
  obtain ⟨hcarry, hbelow⟩ := fullCarry_val hlow hs.carried
  obtain ⟨hselect, hselected⟩ := selectH_val hlow hbelow
  obtain ⟨hpack, hpacked⟩ := pack_val hlow hselected
  have hmod : (fullCarry (lastBlock st).h).val % prime1305 = acc := by
    rw [hcarry.trans hs.val, Nat.mod_eq_of_lt hacc]
  unfold poly1305Finish
  dsimp only
  rw [addPad_eq hlow hw hpacked hpad, hpack, hselect, hmod]
  congr 1
  apply BitVec.eq_of_toNat_eq
  rw [BitVec.toNat_ofNat, BitVec.toNat_ofNat, Nat.mod_add_mod]

theorem accumulate_lt (k : Nat) (msg : List Byte) : accumulate k 0 msg < prime1305 := by
  have hpos : 0 < prime1305 := by decide
  have hstep : ∀ (a b : Nat) (block : List Byte), block.length = 16 → a < prime1305 →
      absorb k a block < prime1305 := fun _ _ _ _ _ => Nat.mod_lt _ hpos
  have hrel := consume_rel (absorb k) (absorb k) (fun acc _ => acc < prime1305)
    (by decide : 0 < 16) (by decide : 16 ≤ 15 + 1) hstep msg (t := 0) hpos
  rw [accumulate_eq]
  split
  · exact hrel.1
  · exact Nat.mod_lt _ hpos

/-- **The code computes the authenticator, whatever pieces the message comes in.** -/
theorem poly1305_tag (hlow : 32 ≤ w) (hw : w ≤ 64) (buffer : Bytes 16) (key : Key)
    (pieces : List (List Byte)) :
    poly1305Finish (pieces.foldl poly1305Update (poly1305Init w buffer key))
      = poly1305Tag key pieces.flatten := by
  obtain ⟨hr, hrb⟩ := init_r hlow buffer key
  obtain ⟨hp, hpb⟩ := init_pad hlow buffer key
  have hfed : (poly1305Init w buffer key).Fed (poly1305Init w buffer key).r
      (poly1305Init w buffer key).pad := ⟨rfl, rfl, rfl, Nat.succ_pos 15⟩
  obtain ⟨hview, hgood⟩ := foldl_consume Poly1305.view poly1305Update
    (Poly1305.Fed (poly1305Init w buffer key).r (poly1305Init w buffer key).pad)
    (by decide : 0 < 16) (by decide : 16 ≤ 15 + 1)
    (fun st piece hst => poly1305Update_view hst piece) pieces hfed (Nat.zero_le 15)
  have hword : (0 : BitVec w).toNat = 0 := BitVec.toNat_zero
  have hval : (Five.zero : Five w).val = 0 := by
    unfold Five.val Five.zero
    simp only [hword, Nat.mul_zero, Nat.add_zero]
  have hzero : (Five.zero : Five w).Stands 0 := by
    refine ⟨?_, ?_, ?_, ?_, ?_, ?_⟩
    · rw [hval]
    all_goals
      unfold Five.zero
      dsimp only
      omega
  obtain ⟨hstands, hheld⟩ := consume_rel (blockTurn false (poly1305Init w buffer key).r)
    (absorb (poly1305Init w buffer key).r.val) Five.Stands (by decide : 0 < 16)
    (by decide : 16 ≤ 15 + 1) (fun h acc block hlen hs => blockTurn_stands hlow hw hrb hs hlen)
    pieces.flatten hzero
  have hstart : (poly1305Init w buffer key).view = (Five.zero, []) := rfl
  rw [hstart, List.nil_append] at hview
  generalize pieces.foldl poly1305Update (poly1305Init w buffer key) = st at *
  rw [← congrArg Prod.fst hview] at hstands
  rw [← congrArg Prod.snd hview] at hheld
  have hlast := lastBlock_stands hlow hw hrb hgood hstands
  rw [hheld, ← accumulate_eq, hr] at hlast
  have hpad : st.pad.Below := hgood.pad ▸ hpb
  rw [finish_eq hlow hw hlast (accumulate_lt _ _) hpad, hgood.pad, hp]
  rfl

/-- Three bytes in two pieces, with a 32-bit `unsigned long`. -/
theorem poly1305_tag_sample :
    poly1305Finish ([[1], [2, 3]].foldl poly1305Update
        (poly1305Init 32 (Bytes.zero 16) (List.Vector.replicate 32 1)))
      = poly1305Tag (List.Vector.replicate 32 1) [[1], [2, 3]].flatten :=
  poly1305_tag (by decide) (by decide) (Bytes.zero 16) (List.Vector.replicate 32 1) [[1], [2, 3]]

end

end Refc

end NuttxWireguard
