/-
Arithmetic modulo `2^255 - 19` on eight 32-bit words (`crypto/refc/x25519.c`).

An `fe` is any number of 256 bits; it stands for its residue.  Each operation is a loop that
carries through the words and leaves a number a little above `2^256`, and `propagate` folds what
is above `2^255` back in nineteenfold, as `2^255` is 19 modulo the prime.  What it leaves is
`Reduced`: below `2^255` and one word more.

Three facts are proved of each operation, over all operands: it is the operation on residues,
its result is reduced, and nothing overflows on the way.  Only subtraction asks something of an
operand: it adds twice the prime, so what is subtracted has to be below that, which reduced
numbers are.  `canon` makes the least residue of a reduced number, and says if it is zero.
-/
import Mathlib.Tactic.NormNum.Prime
import NuttxWireguard.Crypto
import NuttxWireguard.Lib.Limbs
import NuttxWireguard.Lib.Primality

namespace NuttxWireguard

namespace Refc

open Lib Lib.Limbs

/-! ### The prime -/

/-- `2^255 - 19`. -/
def prime25519 : Nat := 2 ^ 255 - 19

/-- The large factors of a predecessor are certified before the number itself. -/
theorem prime25519_prime : prime25519.Prime := by
  have h1 : (31757755568855353 : Nat).Prime :=
    Lucas.prime 10 [2, 2, 2, 3, 31, 107, 223, 4153, 430751] (by decide +kernel)
      ⟨by norm_num, by norm_num, by norm_num, by norm_num, by norm_num, by norm_num, by norm_num,
        by norm_num, by norm_num⟩
  have h2 : (2773320623 : Nat).Prime :=
    Lucas.prime 5 [2, 2437, 569003] (by decide +kernel) ⟨by norm_num, by norm_num, by norm_num⟩
  have h3 : (72106336199 : Nat).Prime :=
    Lucas.prime 7 [2, 13, 2773320623] (by decide +kernel) ⟨by norm_num, by norm_num, h2⟩
  have h4 : (1919519569386763 : Nat).Prime :=
    Lucas.prime 2 [2, 3, 7, 19, 47, 47, 127, 8574133] (by decide +kernel)
      ⟨by norm_num, by norm_num, by norm_num, by norm_num, by norm_num, by norm_num, by norm_num,
        by norm_num⟩
  have h5 : (75445702479781427272750846543864801 : Nat).Prime :=
    Lucas.prime 7 [2, 2, 2, 2, 2, 3, 3, 5, 5, 75707, 72106336199, 1919519569386763]
      (by decide +kernel)
      ⟨by norm_num, by norm_num, by norm_num, by norm_num, by norm_num, by norm_num, by norm_num,
        by norm_num, by norm_num, by norm_num, h3, h4⟩
  have h6 :
      (74058212732561358302231226437062788676166966415465897661863160754340907 : Nat).Prime :=
    Lucas.prime 2 [2, 3, 353, 57467, 132049, 1923133, 31757755568855353,
        75445702479781427272750846543864801] (by decide +kernel)
      ⟨by norm_num, by norm_num, by norm_num, by norm_num, by norm_num, by norm_num, h1, h5⟩
  exact Lucas.prime 2 [2, 2, 3, 65147,
      74058212732561358302231226437062788676166966415465897661863160754340907] (by decide +kernel)
    ⟨by norm_num, by norm_num, by norm_num, by norm_num, h6⟩

instance : Fact prime25519.Prime := ⟨prime25519_prime⟩

/-! ### Words -/

/-- `limb_t`. -/
abbrev Limb := U32

/-- `dlimb_t`, and `sdlimb_t` where it is shifted with its sign. -/
abbrev DLimb := U64

/-- `umaal`: what it returns, and the carry it leaves. -/
def umaal (carry acc mand mier : Limb) : Limb × Limb :=
  let tmp : DLimb := mand.setWidth 64 * mier.setWidth 64 + acc.setWidth 64 + carry.setWidth 64
  (tmp.setWidth 32, (tmp >>> 32).setWidth 32)

/-- `adc`. -/
def adc (carry acc mand : Limb) : Limb × Limb :=
  let total : DLimb := carry.setWidth 64 + acc.setWidth 64 + mand.setWidth 64
  (total.setWidth 32, (total >>> 32).setWidth 32)

/-- `adc0`. -/
def adc0 (carry acc : Limb) : Limb × Limb :=
  let total : DLimb := carry.setWidth 64 + acc.setWidth 64
  (total.setWidth 32, (total >>> 32).setWidth 32)

/-- `fe`. -/
abbrev Fe := List.Vector Limb 8

namespace Fe

/-- The number in the words. -/
def num (x : Fe) : Nat := value x.toList

/-- A loop over the words of an `fe`. -/
def loop {σ α : Type} (step : σ → α → Limb × σ) (carry : σ) (as : List.Vector α 8) : Fe × σ :=
  (⟨(chain step carry as.toList).1, (length_chain _ _).trans as.toList_length⟩,
    (chain step carry as.toList).2)

/-- The words of two `fe`s side by side. -/
def pairs (a b : Fe) : List.Vector (Limb × Limb) 8 := ⟨a.toList.zip b.toList, by simp⟩

/-- `propagate`. -/
def propagate (x : Fe) (excess : Limb) : Fe :=
  let top := x.get 7
  let excess := top >>> 31 ||| excess <<< 1
  let x := x.set 7 (top &&& ~~~((1 : Limb) <<< 31))
  let carry := excess * 19
  (loop adc0 carry x).1

/-- The loop of `add`: `out` and the last `carry`. -/
def addLoop (a b : Fe) : Fe × Limb := loop (fun carry p => adc carry p.1 p.2) 0 (pairs a b)

/-- `add`. -/
def add (a b : Fe) : Fe :=
  let (out, carry) := addLoop a b
  propagate out carry

/-- One word of `sub`: the borrow is the carry, shifted with its sign. -/
def borrow (carry : DLimb) (a b : Limb) : Limb × DLimb :=
  let carry := carry + a.setWidth 64 - b.setWidth 64
  (carry.setWidth 32, carry.sshiftRight 32)

/-- The loop of `sub`. -/
def subLoop (a b : Fe) : Fe × DLimb := loop (fun carry p => borrow carry p.1 p.2) (-38) (pairs a b)

/-- `sub`. -/
def sub (a b : Fe) : Fe :=
  let (out, carry) := subLoop a b
  propagate out ((1 + carry).setWidth 32)

/-- The turn `i` of the outer loop of `mul`, with the word `mand` of `b`. -/
def mulRow (a : Fe) (i : Nat) (mand : Limb) (accum : List Limb) : List Limb :=
  let (row, carry2) := chain (fun carry2 p => umaal carry2 p.1 mand p.2) 0
    (((accum.drop i).take 8).zip a.toList)
  accum.take i ++ (row ++ carry2 :: accum.drop (i + 9))

/-- The outer loop of `mul`, from its turn `i`, over the words of `b` that are left. -/
def mulRows (a : Fe) : Nat → List Limb → List Limb → List Limb
  | _, [], accum => accum
  | i, mand :: b, accum => mulRows a (i + 1) b (mulRow a i mand accum)

/-- Eight words of `accum`. -/
def half (accum : List Limb) (off : Nat) : Fe :=
  List.Vector.ofFn fun j => accum.getD (off + j) 0

/-- The loop of `mul` that folds the upper half of the product into the lower. -/
def foldLoop (low high : Fe) : Fe × Limb :=
  loop (fun carry2 p => umaal carry2 p.1 38 p.2) 0 (pairs low high)

/-- `mul`, with the `nb` words of `b`.  The product is complete in `accum` before `out` is
written, so `out` may be `a` or `b`. -/
def mul (a : Fe) (b : List Limb) : Fe :=
  let accum := mulRows a 0 b (List.replicate 16 0)
  let (out, carry2) := foldLoop (half accum 0) (half accum 8)
  propagate out carry2

/-- `sqr`. -/
def sqr (a : Fe) : Fe := mul a a.toList

/-- `mul1`: `out` times `a`. -/
def mul1 (out a : Fe) : Fe := mul a out.toList

/-- `sqr1`. -/
def sqr1 (a : Fe) : Fe := mul1 a a

/-- One word of the subtraction in `canon`, with `carry` and `res`. -/
def canonStep (c : DLimb × Limb) (x : Limb) : Limb × DLimb × Limb :=
  let carry := c.1 + x.setWidth 64
  let x := carry.setWidth 32
  (x, carry.sshiftRight 32, c.2 ||| x)

/-- `canon`: the least residue, and all ones if it is zero. -/
def canon (x : Fe) : Fe × Limb :=
  let (x, carry0) := loop adc0 19 x
  let x := propagate x carry0
  let (x, _, res) := loop canonStep (-19, 0) x
  (x, ((res.setWidth 64 - 1) >>> 32).setWidth 32)

end Fe

/-! ### What one word does -/

theorem split_toNat (t : DLimb) :
    (t.setWidth 32).toNat + 2 ^ 32 * ((t >>> 32).setWidth 32).toNat = t.toNat := by
  rw [BitVec.toNat_setWidth, BitVec.toNat_setWidth, BitVec.toNat_ushiftRight,
    Nat.shiftRight_eq_div_pow]
  have := t.isLt
  omega

theorem umaal_spec (carry acc mand mier : Limb) :
    (umaal carry acc mand mier).1.toNat + 2 ^ 32 * (umaal carry acc mand mier).2.toNat
      = mand.toNat * mier.toNat + acc.toNat + carry.toNat := by
  have hc := carry.isLt
  have ha := acc.isLt
  have hprod : mand.toNat * mier.toNat ≤ (2 ^ 32 - 1) * (2 ^ 32 - 1) :=
    Nat.mul_le_mul (Nat.le_sub_one_of_lt mand.isLt) (Nat.le_sub_one_of_lt mier.isLt)
  refine (split_toNat _).trans ?_
  rw [BitVec.toNat_add, BitVec.toNat_add, BitVec.toNat_mul,
    BitVec.toNat_setWidth_of_le (by omega), BitVec.toNat_setWidth_of_le (by omega),
    BitVec.toNat_setWidth_of_le (by omega), BitVec.toNat_setWidth_of_le (by omega)]
  omega

theorem adc_spec (carry acc mand : Limb) :
    (adc carry acc mand).1.toNat + 2 ^ 32 * (adc carry acc mand).2.toNat
      = acc.toNat + mand.toNat + carry.toNat := by
  have hc := carry.isLt
  have ha := acc.isLt
  have hm := mand.isLt
  refine (split_toNat _).trans ?_
  rw [BitVec.toNat_add, BitVec.toNat_add, BitVec.toNat_setWidth_of_le (by omega),
    BitVec.toNat_setWidth_of_le (by omega), BitVec.toNat_setWidth_of_le (by omega)]
  omega

theorem adc0_spec (carry acc : Limb) :
    (adc0 carry acc).1.toNat + 2 ^ 32 * (adc0 carry acc).2.toNat = acc.toNat + carry.toNat := by
  have hc := carry.isLt
  have ha := acc.isLt
  refine (split_toNat _).trans ?_
  rw [BitVec.toNat_add, BitVec.toNat_setWidth_of_le (by omega),
    BitVec.toNat_setWidth_of_le (by omega)]
  omega

/-- A double word with its sign: what is left of it and what is carried. -/
theorem split_toInt (t : DLimb) :
    ((t.setWidth 32).toNat : Int) + 2 ^ 32 * (t.sshiftRight 32).toInt = t.toInt := by
  rw [BitVec.toInt_sshiftRight, BitVec.toNat_setWidth, Int.shiftRight_eq_div_pow,
    BitVec.toInt_eq_toNat_cond]
  have := t.isLt
  push_cast
  split <;> omega

theorem toInt_setWidth_limb (x : Limb) : (x.setWidth 64).toInt = x.toNat := by
  have hx := x.isLt
  rw [BitVec.toInt_eq_toNat_of_lt, BitVec.toNat_setWidth_of_le (by omega)]
  rw [BitVec.toNat_setWidth_of_le (by omega)]
  omega

/-- The borrow is at most a word and a little. -/
def Borrow (carry : DLimb) : Prop := -38 ≤ carry.toInt ∧ carry.toInt ≤ 0

theorem Fe.borrow_spec (carry : DLimb) (a b : Limb) (h : Borrow carry) :
    ((Fe.borrow carry a b).1.toNat : Int) + 2 ^ 32 * (Fe.borrow carry a b).2.toInt
        = (a.toNat - b.toNat) + carry.toInt ∧ Borrow (Fe.borrow carry a b).2 := by
  have ha := a.isLt
  have hb := b.isLt
  obtain ⟨hlow, hhigh⟩ := h
  have ht : (carry + a.setWidth 64 - b.setWidth 64).toInt
      = carry.toInt + a.toNat - b.toNat := by
    rw [BitVec.toInt_sub, BitVec.toInt_add, toInt_setWidth_limb, toInt_setWidth_limb]
    simp only [Int.bmod_def]
    omega
  have hsplit := split_toInt (carry + a.setWidth 64 - b.setWidth 64)
  have hword := (Fe.borrow carry a b).1.isLt
  rw [ht] at hsplit
  unfold Borrow Fe.borrow at *
  dsimp only at hword ⊢
  omega

namespace Fe

/-! ### Folding back -/

theorem num_lt (x : Fe) : x.num < 2 ^ 256 := by
  have h := value_lt x.toList
  rwa [x.toList_length] at h

/-- A loop that starts with a small carry. -/
theorem loop_value {σ α : Type} (step : σ → α → Limb × σ) (carried : σ → Int) (f : α → Int)
    (Small : σ → Prop)
    (hstep : ∀ c a, Small c →
      ((step c a).1.toNat : Int) + 2 ^ 32 * carried (step c a).2 = f a + carried c ∧
        Small (step c a).2)
    (as : List.Vector α 8) {c : σ} (hc : Small c) :
    ((loop step c as).1.num : Int) + 2 ^ 256 * carried (loop step c as).2
        = weigh 32 f as.toList + carried c ∧ Small (loop step c as).2 := by
  have h := chain_value step carried f Small hstep as.toList hc
  rw [as.toList_length] at h
  exact h

theorem weigh_pairs_fst (f : Limb → Int) (a b : Fe) :
    weigh 32 (fun p => f p.1) (pairs a b).toList = weigh 32 f a.toList :=
  weigh_zip_fst f (by rw [a.toList_length, b.toList_length])

theorem weigh_pairs_snd (f : Limb → Int) (a b : Fe) :
    weigh 32 (fun p => f p.2) (pairs a b).toList = weigh 32 f b.toList :=
  weigh_zip_snd f (by rw [a.toList_length, b.toList_length])

theorem adc0_loop (carry : Limb) (x : Fe) :
    (loop adc0 carry x).1.num + 2 ^ 256 * (loop adc0 carry x).2.toNat = x.num + carry.toNat := by
  have h := (loop_value adc0 (fun c => (c.toNat : Int))
    (fun a : Limb => (a.toNat : Int)) (fun _ => True) (fun c a _ => by
      have := adc0_spec c a
      exact ⟨by omega, trivial⟩) x (c := carry) trivial).1
  rw [weigh_toNat] at h
  unfold num at *
  omega

theorem get_seven (x : Fe) : (x.get 7).toNat = x.num / 2 ^ 224 := by
  have hdrop : x.toList.drop 7 = [x.get 7] := by
    obtain ⟨l, hl⟩ := x
    match l, hl with
    | [_, _, _, _, _, _, _, _], _ => rfl
  have h := value_drop x.toList 7
  rw [hdrop] at h
  simpa [num] using h

theorem num_set_seven (x : Fe) (v : Limb) :
    num (x.set 7 v) + 2 ^ 224 * (x.get 7).toNat = x.num + 2 ^ 224 * v.toNat := by
  have h := value_set x.toList 7 v (by rw [x.toList_length]; decide)
  rw [List.Vector.get_eq_get_toList]
  unfold num
  rw [List.Vector.toList_set]
  exact h

/-- **`propagate` keeps what is below `2^255` and adds the rest nineteenfold.** -/
theorem propagate_spec (x : Fe) {excess : Limb} (h : excess.toNat ≤ 38) :
    (propagate x excess).num = (x.num + 2 ^ 256 * excess.toNat) % 2 ^ 255
      + 19 * ((x.num + 2 ^ 256 * excess.toNat) / 2 ^ 255) := by
  have htop := get_seven x
  have hx := num_lt x
  have hlow : (x.get 7 &&& ~~~((1 : Limb) <<< 31)).toNat = (x.get 7).toNat % 2 ^ 31 := by
    have hmask : ~~~((1 : Limb) <<< 31) = BitVec.ofNat 32 (2 ^ 31 - 1) := by decide
    rw [hmask, BitVec.toNat_and, BitVec.toNat_ofNat, Nat.mod_eq_of_lt (by decide),
      Nat.and_two_pow_sub_one_eq_mod]
  have hover : (x.get 7 >>> 31 ||| excess <<< 1).toNat
      = (x.get 7).toNat / 2 ^ 31 + 2 * excess.toNat := by
    have hbit : (x.get 7).toNat / 2 ^ 31 < 2 ^ 1 := by
      have := (x.get 7).isLt
      omega
    have hshift : (excess <<< 1).toNat = 2 ^ 1 * excess.toNat := by
      rw [BitVec.toNat_shiftLeft, Nat.shiftLeft_eq]
      omega
    rw [BitVec.toNat_or, BitVec.toNat_ushiftRight, Nat.shiftRight_eq_div_pow, hshift, Nat.or_comm,
      ← Nat.two_pow_add_eq_or_of_lt hbit]
    omega
  have hbound : (x.get 7 >>> 31 ||| excess <<< 1).toNat ≤ 77 := by
    have := (x.get 7).isLt
    omega
  have hcarry : ((x.get 7 >>> 31 ||| excess <<< 1) * 19).toNat
      = 19 * (x.get 7 >>> 31 ||| excess <<< 1).toNat := by
    have h19 : (19 : Limb).toNat = 19 := rfl
    rw [BitVec.toNat_mul, h19]
    omega
  -- The top bit and `excess` are taken out, and come back nineteenfold.
  have hset := num_set_seven x (x.get 7 &&& ~~~((1 : Limb) <<< 31))
  rw [hlow] at hset
  have hrest : num (x.set 7 (x.get 7 &&& ~~~((1 : Limb) <<< 31))) < 2 ^ 255 := by omega
  have hsum : x.num + 2 ^ 256 * excess.toNat
      = num (x.set 7 (x.get 7 &&& ~~~((1 : Limb) <<< 31)))
        + 2 ^ 255 * (x.get 7 >>> 31 ||| excess <<< 1).toNat := by
    omega
  have hloop := adc0_loop ((x.get 7 >>> 31 ||| excess <<< 1) * 19)
    (x.set 7 (x.get 7 &&& ~~~((1 : Limb) <<< 31)))
  rw [hcarry] at hloop
  rw [hsum, Nat.add_mul_mod_self_left, Nat.mod_eq_of_lt hrest,
    Nat.add_mul_div_left _ _ (Nat.two_pow_pos 255), Nat.div_eq_of_lt hrest, Nat.zero_add]
  have hout := num_lt (loop adc0 ((x.get 7 >>> 31 ||| excess <<< 1) * 19)
    (x.set 7 (x.get 7 &&& ~~~((1 : Limb) <<< 31)))).1
  unfold propagate
  dsimp only
  omega

/-- Below `2^255` and one word more. -/
def Reduced (x : Fe) : Prop := x.num < 2 ^ 255 + 2 ^ 32

theorem reduced_propagate (x : Fe) {excess : Limb} (h : excess.toNat ≤ 38) :
    (propagate x excess).Reduced := by
  have hx := num_lt x
  have hspec := propagate_spec x h
  unfold Reduced
  omega

/-- `propagate` keeps the residue. -/
theorem propagate_modEq (x : Fe) {excess : Limb} (h : excess.toNat ≤ 38) :
    (propagate x excess).num ≡ x.num + 2 ^ 256 * excess.toNat [MOD prime25519] := by
  have hspec := propagate_spec x h
  refine (Nat.modEq_iff_dvd' ?_).mpr
    ⟨(x.num + 2 ^ 256 * excess.toNat) / 2 ^ 255, ?_⟩
  · omega
  · unfold prime25519
    omega

/-! ### Addition and subtraction -/

theorem add_loop (a b : Fe) :
    (addLoop a b).1.num + 2 ^ 256 * (addLoop a b).2.toNat = a.num + b.num := by
  have h := (loop_value (fun carry (p : Limb × Limb) => adc carry p.1 p.2)
    (fun c => (c.toNat : Int))
    (fun p : Limb × Limb => (p.1.toNat : Int) + p.2.toNat) (fun _ => True)
    (fun c p _ => by
      have := adc_spec c p.1 p.2
      exact ⟨by omega, trivial⟩) (pairs a b) (c := 0) trivial).1
  rw [weigh_add, weigh_pairs_fst (fun x => (x.toNat : Int)),
    weigh_pairs_snd (fun x => (x.toNat : Int)), weigh_toNat, weigh_toNat] at h
  have hzero : ((0 : Limb).toNat : Int) = 0 := rfl
  unfold addLoop num at *
  omega

theorem add_carry_le (a b : Fe) : (addLoop a b).2.toNat ≤ 38 := by
  have h := add_loop a b
  have ha := num_lt a
  have hb := num_lt b
  omega

theorem add_modEq (a b : Fe) : (add a b).num ≡ a.num + b.num [MOD prime25519] := by
  have h := propagate_modEq (addLoop a b).1 (add_carry_le a b)
  rw [add_loop] at h
  exact h

theorem sub_loop (a b : Fe) :
    ((subLoop a b).1.num : Int) + 2 ^ 256 * (subLoop a b).2.toInt = a.num - b.num - 38 := by
  have h := (loop_value (fun carry (p : Limb × Limb) => borrow carry p.1 p.2)
    (fun c => c.toInt)
    (fun p : Limb × Limb => (p.1.toNat : Int) + -1 * p.2.toNat) Borrow
    (fun c p hc => by
      have := borrow_spec c p.1 p.2 hc
      exact ⟨by omega, this.2⟩) (pairs a b) (c := -38) ⟨by decide, by decide⟩).1
  rw [weigh_add, weigh_pairs_fst (fun x => (x.toNat : Int)),
    weigh_pairs_snd (fun x => -1 * (x.toNat : Int)), weigh_mul, weigh_toNat, weigh_toNat] at h
  have hstart : (-38 : DLimb).toInt = -38 := by decide
  unfold subLoop num at *
  omega

/-- What is folded back after a subtraction: nothing or one, as twice the prime was added. -/
theorem sub_over (a b : Fe) (hb : b.num ≤ 2 ^ 256 - 38) :
    (((1 + (subLoop a b).2).setWidth 32).toNat : Int) = 1 + (subLoop a b).2.toInt := by
  have h := sub_loop a b
  have ha := num_lt a
  have hout := num_lt (subLoop a b).1
  generalize (subLoop a b).2 = carry at h
  have hcases : carry.toInt = -1 ∨ carry.toInt = 0 := by omega
  rcases hcases with hc | hc
  · obtain rfl : carry = -1 := BitVec.eq_of_toInt_eq (hc.trans (by decide))
    decide
  · obtain rfl : carry = 0 := BitVec.eq_of_toInt_eq (hc.trans (by decide))
    decide

theorem sub_over_le (a b : Fe) (hb : b.num ≤ 2 ^ 256 - 38) :
    ((1 + (subLoop a b).2).setWidth 32).toNat ≤ 38 := by
  have hover := sub_over a b hb
  have h := sub_loop a b
  have ha := num_lt a
  omega

theorem sub_modEq (a b : Fe) (hb : b.num ≤ 2 ^ 256 - 38) :
    (sub a b).num + b.num ≡ a.num [MOD prime25519] := by
  have hfold := propagate_modEq (subLoop a b).1 (sub_over_le a b hb)
  have hover := sub_over a b hb
  have h := sub_loop a b
  have htotal : (subLoop a b).1.num + 2 ^ 256 * ((1 + (subLoop a b).2).setWidth 32).toNat + b.num
      = a.num + 2 * prime25519 := by
    unfold prime25519
    omega
  calc (sub a b).num + b.num
      ≡ _ + b.num [MOD prime25519] := hfold.add_right _
    _ = a.num + 2 * prime25519 := htotal
    _ ≡ a.num [MOD prime25519] := by
        rw [Nat.ModEq, Nat.add_mul_mod_self_right]

theorem reduced_sub (a b : Fe) (hb : b.num ≤ 2 ^ 256 - 38) : (sub a b).Reduced :=
  reduced_propagate _ (sub_over_le a b hb)

/-! ### Multiplication -/

/-- What `mul` keeps in `accum` before its turn `i`: the words from `i + 8` on are zero. -/
structure Accum (i : Nat) (accum : List Limb) : Prop where
  length : accum.length = 16
  lt : value accum < 2 ^ (32 * (i + 8))

theorem length_mulRow (a : Fe) {i : Nat} (hi : i < 8) (mand : Limb) {accum : List Limb}
    (h : accum.length = 16) : (mulRow a i mand accum).length = 16 := by
  unfold mulRow
  dsimp only
  rw [List.length_append, List.length_append, List.length_cons, length_chain, List.length_zip,
    List.length_take, List.length_take, List.length_drop, List.length_drop, a.toList_length, h]
  omega

/-- **One turn of the outer loop adds one word of `b` times `a`.** -/
theorem value_mulRow (a : Fe) {i : Nat} (hi : i < 8) (mand : Limb) {accum : List Limb}
    (h : Accum i accum) :
    value (mulRow a i mand accum) = value accum + 2 ^ (32 * i) * (mand.toNat * a.num) ∧
      value (mulRow a i mand accum) < 2 ^ (32 * (i + 1 + 8)) := by
  have hpow : (2 : Nat) ^ (32 * (i + 8)) = 2 ^ (32 * i) * 2 ^ 256 := by
    rw [← pow_add]
    congr 1
  have hzero : value (accum.drop (i + 9)) = 0 := by
    rw [value_drop]
    refine Nat.div_eq_of_lt (h.lt.trans (Nat.pow_lt_pow_right (by decide) (by omega)))
  have hdrop : value (accum.drop i) < 2 ^ 256 := by
    rw [value_drop]
    exact Nat.div_lt_of_lt_mul (hpow ▸ h.lt)
  have height : ((accum.drop i).take 8).length = 8 := by
    rw [List.length_take, List.length_drop, h.length]
    omega
  have htake : (accum.take i).length = i := by
    rw [List.length_take, h.length]
    omega
  have hsplit : value accum = value (accum.take i) + 2 ^ (32 * i) * value (accum.drop i) := by
    conv_lhs => rw [← List.take_append_drop i accum]
    rw [value_append, htake]
  -- The inner loop.
  set row := chain (fun carry2 (p : Limb × Limb) => umaal carry2 p.1 mand p.2) 0
    (((accum.drop i).take 8).zip a.toList) with hrow
  have hlen : (((accum.drop i).take 8).zip a.toList).length = 8 := by
    rw [List.length_zip, height, a.toList_length]
    rfl
  have hchain := (chain_value (fun carry2 (p : Limb × Limb) => umaal carry2 p.1 mand p.2)
    (fun c => (c.toNat : Int))
    (fun p : Limb × Limb => (p.1.toNat : Int) + mand.toNat * p.2.toNat)
    (fun _ => True)
    (fun c p _ => by
      have := umaal_spec c p.1 mand p.2
      refine ⟨?_, trivial⟩
      push_cast [← Int.natCast_inj] at this
      linarith)
    (((accum.drop i).take 8).zip a.toList) (c := 0) trivial).1
  rw [← hrow, hlen, weigh_add, weigh_zip_fst (fun x : Limb => (x.toNat : Int))
    (by rw [height, a.toList_length]), weigh_zip_snd (fun x : Limb => (mand.toNat : Int) * x.toNat)
    (by rw [height, a.toList_length]), weigh_mul, weigh_toNat, weigh_toNat, value_take,
    Nat.mod_eq_of_lt hdrop] at hchain
  have hrowlen : row.1.length = 8 := by rw [hrow, length_chain, hlen]
  have hinner : value row.1 + 2 ^ 256 * row.2.toNat
      = value (accum.drop i) + mand.toNat * a.num := by
    have hstart : ((0 : Limb).toNat : Int) = 0 := rfl
    have h256 : 32 * 8 = 256 := rfl
    rw [h256, hstart, add_zero] at hchain
    unfold num
    exact_mod_cast hchain
  have hvalue : value (mulRow a i mand accum)
      = value (accum.take i) + 2 ^ (32 * i) * (value row.1 + 2 ^ 256 * row.2.toNat) := by
    show value (accum.take i ++ (row.1 ++ row.2 :: accum.drop (i + 9))) = _
    rw [value_append, value_append, value_cons, htake, hrowlen, hzero]
    ring
  refine ⟨?_, ?_⟩
  · rw [hvalue, hinner, hsplit]
    ring
  · have hlow := value_lt (accum.take i)
    have hwords := value_lt row.1
    rw [htake] at hlow
    rw [hrowlen] at hwords
    have hcarry := row.2.isLt
    have htop : value row.1 + 2 ^ 256 * row.2.toNat + 1 ≤ 2 ^ 288 := by omega
    calc value (mulRow a i mand accum)
        < 2 ^ (32 * i) * (value row.1 + 2 ^ 256 * row.2.toNat + 1) := by
          rw [hvalue, Nat.mul_add _ _ 1]
          omega
      _ ≤ 2 ^ (32 * i) * 2 ^ 288 := Nat.mul_le_mul_left _ htop
      _ = 2 ^ (32 * (i + 1 + 8)) := by
          rw [← pow_add]
          congr 1

/-- **The outer loop from turn `i` adds the rest of `b` times `a`.** -/
theorem value_mulRows (a : Fe) (b : List Limb) {i : Nat} (hb : i + b.length ≤ 8)
    {accum : List Limb} (h : Accum i accum) :
    value (mulRows a i b accum) = value accum + 2 ^ (32 * i) * (value b * a.num) ∧
      (mulRows a i b accum).length = 16 := by
  induction b generalizing i accum with
  | nil =>
      refine ⟨?_, h.length⟩
      rw [value_nil]
      simp [mulRows]
  | cons mand b ih =>
      rw [List.length_cons] at hb
      obtain ⟨hvalue, hlt⟩ := value_mulRow a (by omega) mand h
      have hrow : Accum (i + 1) (mulRow a i mand accum) :=
        ⟨length_mulRow a (by omega) mand h.length, hlt⟩
      obtain ⟨hrec, hlen⟩ := ih (by omega) hrow
      refine ⟨?_, hlen⟩
      show value (mulRows a (i + 1) b (mulRow a i mand accum)) = _
      rw [hrec, hvalue, value_cons, Nat.mul_succ, pow_add]
      ring

theorem num_half {accum : List Limb} (h : accum.length = 16) :
    (half accum 0).num = value accum % 2 ^ 256 ∧ (half accum 8).num = value accum / 2 ^ 256 := by
  have hlow : (half accum 0).toList = accum.take 8 := by
    match accum, h with
    | [_, _, _, _, _, _, _, _, _, _, _, _, _, _, _, _], _ => rfl
  have hhigh : (half accum 8).toList = accum.drop 8 := by
    match accum, h with
    | [_, _, _, _, _, _, _, _, _, _, _, _, _, _, _, _], _ => rfl
  unfold num
  rw [hlow, hhigh]
  exact ⟨value_take accum 8, value_drop accum 8⟩

theorem foldLoop_spec (low high : Fe) :
    (foldLoop low high).1.num + 2 ^ 256 * (foldLoop low high).2.toNat
      = low.num + 38 * high.num := by
  have h := (loop_value (fun carry2 (p : Limb × Limb) => umaal carry2 p.1 38 p.2)
    (fun c => (c.toNat : Int))
    (fun p : Limb × Limb => (p.1.toNat : Int) + 38 * p.2.toNat) (fun _ => True)
    (fun c p _ => by
      have := umaal_spec c p.1 38 p.2
      have h38 : (38 : Limb).toNat = 38 := rfl
      rw [h38] at this
      exact ⟨by omega, trivial⟩) (pairs low high) (c := 0) trivial).1
  rw [weigh_add, weigh_pairs_fst (fun x => (x.toNat : Int)),
    weigh_pairs_snd (fun x => 38 * (x.toNat : Int)), weigh_mul, weigh_toNat, weigh_toNat] at h
  have hzero : ((0 : Limb).toNat : Int) = 0 := rfl
  unfold foldLoop num at *
  omega

theorem fold_carry_le (low high : Fe) : (foldLoop low high).2.toNat ≤ 38 := by
  have h := foldLoop_spec low high
  have hlow := num_lt low
  have hhigh := num_lt high
  omega

/-- `2^256` is 38 modulo the prime. -/
theorem fold_modEq (n : Nat) : n % 2 ^ 256 + 38 * (n / 2 ^ 256) ≡ n [MOD prime25519] := by
  have hn := Nat.mod_add_div n (2 ^ 256)
  refine (Nat.modEq_iff_dvd' (by omega)).mpr ⟨2 * (n / 2 ^ 256), ?_⟩
  unfold prime25519
  omega

theorem fold_propagate (low high : Fe) :
    (propagate (foldLoop low high).1 (foldLoop low high).2).num
      ≡ low.num + 38 * high.num [MOD prime25519] := by
  have h := propagate_modEq (foldLoop low high).1 (fold_carry_le low high)
  rwa [foldLoop_spec] at h

theorem reduced_fold (low high : Fe) :
    (propagate (foldLoop low high).1 (foldLoop low high).2).Reduced :=
  reduced_propagate _ (fold_carry_le low high)

theorem mul_modEq (a : Fe) {b : List Limb} (hb : b.length ≤ 8) :
    (mul a b).num ≡ value b * a.num [MOD prime25519] := by
  have hstart : Accum 0 (List.replicate 16 (0 : Limb)) := ⟨rfl, by simp⟩
  obtain ⟨hvalue, hlen⟩ := value_mulRows a b (by omega) hstart
  rw [value_replicate_zero, Nat.mul_zero, pow_zero, Nat.one_mul, Nat.zero_add] at hvalue
  obtain ⟨hlow, hhigh⟩ := num_half hlen
  rw [hvalue] at hlow hhigh
  have hfold := fold_propagate (half (mulRows a 0 b (List.replicate 16 0)) 0)
    (half (mulRows a 0 b (List.replicate 16 0)) 8)
  rw [hlow, hhigh] at hfold
  exact hfold.trans (fold_modEq _)

theorem reduced_mul (a : Fe) (b : List Limb) : (mul a b).Reduced := reduced_fold _ _

/-! ### The least residue -/

theorem canonStep_spec (c : DLimb × Limb) (x : Limb) (h : Borrow c.1) :
    ((canonStep c x).1.toNat : Int) + 2 ^ 32 * (canonStep c x).2.1.toInt = x.toNat + c.1.toInt ∧
      Borrow (canonStep c x).2.1 := by
  have hx := x.isLt
  obtain ⟨hlow, hhigh⟩ := h
  have ht : (c.1 + x.setWidth 64).toInt = c.1.toInt + x.toNat := by
    rw [BitVec.toInt_add, toInt_setWidth_limb]
    simp only [Int.bmod_def]
    omega
  have hsplit := split_toInt (c.1 + x.setWidth 64)
  have hword := (canonStep c x).1.isLt
  rw [ht] at hsplit
  unfold Borrow canonStep at *
  dsimp only at hword ⊢
  omega

/-- `res` gathers the bits of all words. -/
theorem canon_res (c : DLimb × Limb) (xs : List Limb) :
    (chain canonStep c xs).2.2 = 0 ↔ c.2 = 0 ∧ value (chain canonStep c xs).1 = 0 := by
  induction xs generalizing c with
  | nil => simp [chain]
  | cons x xs ih =>
      show (chain canonStep (canonStep c x).2 xs).2.2 = 0 ↔
        c.2 = 0 ∧ value ((canonStep c x).1 :: (chain canonStep (canonStep c x).2 xs).1) = 0
      rw [ih, value_cons, Nat.add_eq_zero_iff, Nat.mul_eq_zero]
      have hor : (canonStep c x).2.2 = 0 ↔ c.2 = 0 ∧ (canonStep c x).1.toNat = 0 := by
        refine Iff.trans (b := c.2 = 0 ∧ (canonStep c x).1 = 0) BitVec.or_eq_zero_iff ?_
        exact and_congr_right fun _ => ⟨fun h => by rw [h]; rfl, fun h => BitVec.eq_of_toNat_eq h⟩
      rw [hor]
      have hpow : ¬(2 : Nat) ^ 32 = 0 := by decide
      simp only [hpow, false_or]
      exact and_assoc

/-- The flag `canon` makes of `res`. -/
theorem canon_flag (res : Limb) :
    ((res.setWidth 64 - 1) >>> 32).setWidth 32 = if res = 0 then BitVec.allOnes 32 else 0 := by
  split
  · rename_i h
    subst h
    decide
  · rename_i h
    have hpos : res.toNat ≠ 0 := fun hc => h (BitVec.eq_of_toNat_eq hc)
    have hres := res.isLt
    refine BitVec.eq_of_toNat_eq ?_
    rw [BitVec.toNat_setWidth, BitVec.toNat_ushiftRight, Nat.shiftRight_eq_div_pow,
      BitVec.toNat_sub, BitVec.toNat_setWidth_of_le (by omega)]
    have hone : (1 : DLimb).toNat = 1 := rfl
    have hzero : (0 : Limb).toNat = 0 := rfl
    rw [hone, hzero]
    omega

/-- **`canon` makes the least residue of a reduced number, and tells if it is zero.** -/
theorem canon_spec {x : Fe} (hx : x.Reduced) :
    (canon x).1.num = x.num % prime25519 ∧
      (canon x).2 = if x.num % prime25519 = 0 then BitVec.allOnes 32 else 0 := by
  unfold Reduced at hx
  have h19 : (19 : Limb).toNat = 19 := rfl
  -- Nineteen is added, and what reaches `2^255` is folded back.
  have hadd := adc0_loop 19 x
  rw [h19] at hadd
  have hout := num_lt (loop adc0 19 x).1
  have hcarry : (loop adc0 19 x).2.toNat ≤ 38 := by omega
  have hfold := propagate_spec (loop adc0 19 x).1 hcarry
  rw [hadd] at hfold
  set y := propagate (loop adc0 19 x).1 (loop adc0 19 x).2
  have hy : y.num = x.num % prime25519 + 19 := by
    unfold prime25519
    omega
  -- Nineteen is taken off again.
  obtain ⟨hsub, hborrow⟩ := loop_value canonStep (fun c => c.1.toInt)
    (fun a : Limb => (a.toNat : Int)) (fun c => Borrow c.1)
    (fun c a hc => canonStep_spec c a hc) y (c := (-19, 0)) ⟨by decide, by decide⟩
  rw [weigh_toNat] at hsub
  have hstart : (-19 : DLimb).toInt = -19 := by decide
  have hlast := num_lt (loop canonStep (-19, 0) y).1
  have hmod : x.num % prime25519 < 2 ^ 255 :=
    (Nat.mod_lt _ (by decide)).trans (by decide)
  have hnum : (loop canonStep (-19, 0) y).1.num = x.num % prime25519 := by
    have hvalue : (value y.toList : Int) = x.num % prime25519 + 19 := by exact_mod_cast hy
    rw [hvalue, hstart] at hsub
    omega
  refine ⟨hnum, ?_⟩
  have hres : (loop canonStep (-19, 0) y).2.2 = 0 ↔ (loop canonStep (-19, 0) y).1.num = 0 := by
    refine (canon_res (-19, 0) y.toList).trans ?_
    exact and_iff_right rfl
  show (((loop canonStep (-19, 0) y).2.2.setWidth 64 - 1) >>> 32).setWidth 32 = _
  rw [canon_flag, ← hnum]
  simp only [hres]

end Fe

end Refc

end NuttxWireguard
