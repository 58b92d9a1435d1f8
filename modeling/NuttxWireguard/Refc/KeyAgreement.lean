/-
What X25519 computes, and that any two keys agree (`crypto/refc/x25519.c`).

`x25519_exact` is the meaning of the function: read as the x-coordinate of a point, in whatever
field of the right characteristic the point lives, the input is multiplied by the scalar.  Over
an algebraically closed field every number is the x-coordinate of a point, so this says what
every call returns, for numbers on the curve, on its twist, and unreduced ones alike.

That two parties agree follows from the group law alone.  That what they agree on is not zero
rests on the base point: it has prime order, which a run of the ladder on numbers shows, and a
clamped scalar is eight times a number smaller than the order.
-/
import Mathlib.FieldTheory.IsAlgClosed.AlgebraicClosure
import Mathlib.GroupTheory.OrderOfElement
import NuttxWireguard.Refc.X25519
import NuttxWireguard.Transcript

namespace NuttxWireguard

namespace Refc

open Lib Lib.Limbs Lib.Montgomery
open WeierstrassCurve.Affine

/-! ### The curve -/

section

variable (K : Type) [Field K] [CharP K prime25519]

theorem cast_ne {m n : Nat} (h : ¬m ≡ n [MOD prime25519]) : (m : K) ≠ n :=
  fun hc => h ((CharP.natCast_eq_natCast K prime25519).mp hc)

theorem smooth25519 : Smooth (486662 : K) := by
  refine ⟨?_, ?_⟩
  · have h := cast_ne K (m := 2) (n := 0) (by decide)
    exact_mod_cast h
  · have h := cast_ne K (m := 486662 ^ 2) (n := 4) (by decide)
    exact_mod_cast h

omit [CharP K prime25519] in
theorem a24_eq : 4 * ((121665 : Nat) : K) = 486662 - 2 := by
  norm_num

/-- Over an algebraically closed field every element is an x-coordinate. -/
theorem exists_nonsingular [IsAlgClosed K] (u : K) :
    ∃ y, (curve (486662 : K)).Nonsingular u y := by
  obtain ⟨y, hy⟩ := IsAlgClosed.exists_pow_nat_eq (u ^ 3 + 486662 * u ^ 2 + u) two_pos
  exact ⟨y, (smooth25519 K).nonsingular hy⟩

end

/-! ### The result as a number -/

theorem canon_divide (xs : Xs) (scalar u : Key) (clamp : Bool) :
    value (x25519 xs scalar u clamp).1.toList
        = (divide (x25519Core xs scalar u clamp)).num % prime25519 ∧
      (Fe.canon (divide (x25519Core xs scalar u clamp))).2
        = if value (x25519 xs scalar u clamp).1.toList = 0 then BitVec.allOnes 32 else 0 := by
  obtain ⟨hnum, hflag⟩ := Fe.canon_spec (reduced_divide (x25519Core xs scalar u clamp))
  have hvalue : value (x25519 xs scalar u clamp).1.toList
      = (divide (x25519Core xs scalar u clamp)).num % prime25519 := by
    unfold x25519
    rw [value_swapout, hnum]
  exact ⟨hvalue, by rw [hvalue, hflag]⟩

theorem x25519_lt (xs : Xs) (scalar u : Key) (clamp : Bool) :
    value (x25519 xs scalar u clamp).1.toList < prime25519 := by
  rw [(canon_divide xs scalar u clamp).1]
  exact Nat.mod_lt _ prime25519_prime.pos

theorem eq_zero_iff_value (k : Key) : k = Bytes.zero 32 ↔ value k.toList = 0 := by
  have hz : value (Bytes.zero 32).toList = 0 := value_replicate_zero 32
  exact ⟨fun h => by rw [h, hz], fun h => key_eq_of_value (h.trans hz.symm)⟩

theorem x25519_ret (xs : Xs) (scalar u : Key) :
    (x25519 xs scalar u true).2
      = if (x25519 xs scalar u true).1 = Bytes.zero 32 then BitVec.allOnes 32 else 0 := by
  simp only [eq_zero_iff_value]
  rw [← (canon_divide xs scalar u true).2]
  rfl

/-- The scalar as a number. -/
def scalarValue (scalar : Key) (clamp : Bool) : Nat :=
  value (effectiveScalar scalar clamp).toList

theorem spell_scalarBits (scalar : Key) (clamp : Bool) :
    spell (scalarBits scalar clamp) = scalarValue scalar clamp := by
  have hlt : scalarValue scalar clamp < 2 ^ 256 := by
    have h := value_lt (effectiveScalar scalar clamp).toList
    rwa [List.Vector.toList_length] at h
  exact (spell_testBit 256 _).trans (Nat.mod_eq_of_lt hlt)

/-! ### What it computes -/

section

variable {K : Type} [Field K] [CharP K prime25519]

variable (K) in
theorem x25519_fraction (xs : Xs) (scalar u : Key) (clamp : Bool) :
    ((value (x25519 xs scalar u clamp).1.toList : Nat) : K)
      = (ladderResult (121665 : K) ((value u.toList : Nat) : K) (scalarBits scalar clamp)).x2 /
        (ladderResult (121665 : K) ((value u.toList : Nat) : K) (scalarBits scalar clamp)).z2 := by
  have hpair := core_pair K xs scalar u clamp
  have hu : (swapin u).el K = ((value u.toList : Nat) : K) := by
    unfold Fe.el
    rw [num_swapin]
  rw [hu] at hpair
  rw [(canon_divide xs scalar u clamp).1, cast_mod, ← hpair]
  exact el_divide K (x25519Core xs scalar u clamp)

variable [DecidableEq K]

theorem x25519_nsmul (xs : Xs) (scalar u : Key) (clamp : Bool) {P : (curve (486662 : K)).Point}
    (hu : ((value u.toList : Nat) : K) = xCoord P) :
    ((value (x25519 xs scalar u clamp).1.toList : Nat) : K)
      = xCoord (scalarValue scalar clamp • P) := by
  have hspec : ∀ {y : K} (hP : (curve (486662 : K)).Nonsingular ((value u.toList : Nat) : K) y),
      ((value (x25519 xs scalar u clamp).1.toList : Nat) : K)
        = xCoord (scalarValue scalar clamp • Point.some _ y hP) := by
    intro y hP
    have h24 : 4 * (121665 : K) = 486662 - 2 := by exact_mod_cast a24_eq K
    rw [x25519_fraction, ladder_spec (smooth25519 K) h24 hP, spell_scalarBits]
  cases P with
  | zero =>
      -- Infinity is written as zero, which the ladder takes for the point of order two.
      have hzero : ((value u.toList : Nat) : K) = 0 := hu
      have hP : (curve (486662 : K)).Nonsingular ((value u.toList : Nat) : K) 0 :=
        (smooth25519 K).nonsingular (by rw [hzero]; ring)
      rw [hspec hP]
      show _ = xCoord (scalarValue scalar clamp • (0 : (curve (486662 : K)).Point))
      rw [nsmul_zero, xCoord_zero]
      revert hP
      rw [hzero]
      exact fun hP => xCoord_nsmul_zero hP _
  | some x y h =>
      obtain rfl : ((value u.toList : Nat) : K) = x := hu
      exact hspec h

/-- **`x25519` multiplies the point whose x-coordinate it is given, and returns the least
residue of the x-coordinate of the result, and all ones if that is zero.** -/
theorem x25519_exact (xs : Xs) (scalar u : Key) {P : (curve (486662 : K)).Point}
    (hu : ((value u.toList : Nat) : K) = xCoord P) :
    ((value (x25519 xs scalar u true).1.toList : Nat) : K)
        = xCoord (value (Crypto.clamp scalar).toList • P) ∧
      value (x25519 xs scalar u true).1.toList < prime25519 ∧
      (x25519 xs scalar u true).2
        = if xCoord (value (Crypto.clamp scalar).toList • P) = 0 then BitVec.allOnes 32 else 0 := by
  have hvalue := x25519_nsmul xs scalar u true hu
  have hlt := x25519_lt xs scalar u true
  refine ⟨hvalue, hlt, ?_⟩
  have hzero : (x25519 xs scalar u true).1 = Bytes.zero 32 ↔
      xCoord (scalarValue scalar true • P) = 0 := by
    rw [← hvalue, CharP.cast_eq_zero_iff K prime25519, eq_zero_iff_value]
    exact ⟨fun h => by rw [h]; exact dvd_zero _, fun h => Nat.eq_zero_of_dvd_of_lt h hlt⟩
  rw [x25519_ret]
  simp only [hzero]
  rfl

end

/-! ### Agreement -/

section

/-- A field in which every number is an x-coordinate. -/
abbrev Kbar := AlgebraicClosure (ZMod prime25519)

noncomputable instance : DecidableEq Kbar := Classical.decEq _

theorem exists_point (u : Key) :
    ∃ P : (curve (486662 : Kbar)).Point, ((value u.toList : Nat) : Kbar) = xCoord P := by
  obtain ⟨y, hy⟩ := exists_nonsingular Kbar ((value u.toList : Nat) : Kbar)
  exact ⟨Point.some _ y hy, rfl⟩

/-- The base point. -/
theorem x25519_exact_sample : ∃ P : (curve (486662 : Kbar)).Point,
    ((value Crypto.basepoint.toList : Nat) : Kbar) = xCoord P ∧
      ((value (x25519 ⟨Fe.small 0, Fe.small 0, Fe.small 0, Fe.small 0, Fe.small 0⟩
          Crypto.basepoint Crypto.basepoint true).1.toList : Nat) : Kbar)
        = xCoord (value (Crypto.clamp Crypto.basepoint).toList • P) := by
  obtain ⟨P, hP⟩ := exists_point Crypto.basepoint
  exact ⟨P, hP, (x25519_exact _ _ _ hP).1⟩

/-- Results are equal if they stand for the same x-coordinate. -/
theorem x25519_inj {xs ys : Xs} {a b u v : Key} {clampA clampB : Bool}
    (h : ((value (x25519 xs a u clampA).1.toList : Nat) : Kbar)
      = ((value (x25519 ys b v clampB).1.toList : Nat) : Kbar)) :
    (x25519 xs a u clampA).1 = (x25519 ys b v clampB).1 := by
  refine key_eq_of_value ?_
  have hmod := (CharP.natCast_eq_natCast Kbar prime25519).mp h
  exact hmod.eq_of_lt_of_lt (x25519_lt xs a u clampA) (x25519_lt ys b v clampB)

/-- **Multiplying by two scalars gives the same in either order, from any point.** -/
theorem x25519_comm (xs ys xs' ys' : Xs) (a b u : Key) (clampA clampB : Bool) :
    (x25519 xs a (x25519 ys b u clampB).1 clampA).1
      = (x25519 xs' b (x25519 ys' a u clampA).1 clampB).1 := by
  obtain ⟨P, hP⟩ := exists_point u
  have hb := x25519_nsmul ys b u clampB hP
  have ha := x25519_nsmul ys' a u clampA hP
  have hab := x25519_nsmul xs a _ clampA hb
  have hba := x25519_nsmul xs' b _ clampB ha
  refine x25519_inj ?_
  rw [hab, hba, ← mul_nsmul, ← mul_nsmul, Nat.mul_comm]

/-- What is on the caller's stack does not matter. -/
theorem x25519_stack (xs ys : Xs) (a u : Key) (clamp : Bool) :
    x25519 xs a u clamp = x25519 ys a u clamp := by
  obtain ⟨P, hP⟩ := exists_point u
  have hout : (x25519 xs a u clamp).1 = (x25519 ys a u clamp).1 := by
    refine x25519_inj ?_
    rw [x25519_nsmul xs a u clamp hP, x25519_nsmul ys a u clamp hP]
  refine Prod.ext hout ?_
  cases clamp with
  | false =>
      unfold x25519
      simp only [Bool.false_eq_true, if_false]
  | true =>
      calc (x25519 xs a u true).2
          = if (x25519 xs a u true).1 = Bytes.zero 32 then BitVec.allOnes 32 else 0 :=
            x25519_ret xs a u
        _ = (x25519 ys a u true).2 := by rw [hout, x25519_ret ys a u]

end

/-! ### The order of the base point -/

section

/-- The order of the base point. -/
def order25519 : Nat := 2 ^ 252 + 27742317777372353535851937790883648493

/-- The large factors of a predecessor are certified before the number itself. -/
theorem order25519_prime : order25519.Prime := by
  have h1 : (3044861653679985063343 : Nat).Prime :=
    Lucas.prime 5 [2, 3, 11, 30703, 82163, 132667, 137849] (by decide +kernel)
      ⟨by norm_num, by norm_num, by norm_num, by norm_num, by norm_num, by norm_num, by norm_num⟩
  have h2 : (198211423230930754013084525763697 : Nat).Prime :=
    Lucas.prime 5 [2, 2, 2, 2, 3, 23, 58964693, 3044861653679985063343] (by decide +kernel)
      ⟨by norm_num, by norm_num, by norm_num, by norm_num, by norm_num, by norm_num, by norm_num,
        h1⟩
  have h3 : (292386187 : Nat).Prime :=
    Lucas.prime 2 [2, 3, 3, 3, 3, 307, 5879] (by decide +kernel)
      ⟨by norm_num, by norm_num, by norm_num, by norm_num, by norm_num, by norm_num, by norm_num⟩
  have h4 : (213441916511 : Nat).Prime :=
    Lucas.prime 13 [2, 5, 73, 292386187] (by decide +kernel)
      ⟨by norm_num, by norm_num, by norm_num, h3⟩
  have h5 : (1257559732178653 : Nat).Prime :=
    Lucas.prime 2 [2, 2, 3, 7, 23, 531581, 1224481] (by decide +kernel)
      ⟨by norm_num, by norm_num, by norm_num, by norm_num, by norm_num, by norm_num, by norm_num⟩
  have h6 : (4434155615661930479 : Nat).Prime :=
    Lucas.prime 17 [2, 41, 43, 1257559732178653] (by decide +kernel)
      ⟨by norm_num, by norm_num, by norm_num, h5⟩
  have h7 : (172054593956031949258510691 : Nat).Prime :=
    Lucas.prime 2 [2, 5, 1361, 2851, 4434155615661930479] (by decide +kernel)
      ⟨by norm_num, by norm_num, by norm_num, by norm_num, h6⟩
  have h8 : (19757330305831588566944191468367130476339 : Nat).Prime :=
    Lucas.prime 2 [2, 269, 213441916511, 172054593956031949258510691] (by decide +kernel)
      ⟨by norm_num, by norm_num, h4, h7⟩
  have h9 : (276602624281642239937218680557139826668747 : Nat).Prime :=
    Lucas.prime 2 [2, 7, 19757330305831588566944191468367130476339] (by decide +kernel)
      ⟨by norm_num, by norm_num, h8⟩
  exact Lucas.prime 2 [2, 2, 3, 11, 198211423230930754013084525763697,
      276602624281642239937218680557139826668747] (by decide +kernel)
    ⟨by norm_num, by norm_num, by norm_num, by norm_num, h2, h9⟩

/-- The ladder on numbers takes the base point times its order to infinity. -/
theorem ladder_order : (ladderMod prime25519 121665 9
    ((List.range 253).reverse.map order25519.testBit)).z2 = 0 := by
  decide +kernel

variable {y : Kbar} (hP : (curve (486662 : Kbar)).Nonsingular ((9 : Nat) : Kbar) y)

theorem addOrderOf_base : addOrderOf (Point.some _ y hP) = order25519 := by
  have : Fact order25519.Prime := ⟨order25519_prime⟩
  refine addOrderOf_eq_prime ?_ (Point.some_ne_zero hP)
  have hnine : ((9 : Nat) : Kbar) ≠ 0 := by
    have h := cast_ne Kbar (m := 9) (n := 0) (by decide)
    rwa [Nat.cast_zero] at h
  have hzero := nsmul_eq_zero (smooth25519 Kbar) prime25519_prime.pos (a24_eq Kbar) hP hnine
    ladder_order
  rw [spell_testBit, Nat.mod_eq_of_lt (by decide)] at hzero
  exact hzero

/-- A multiple of the base point with x-coordinate zero is a multiple of the order. -/
theorem xCoord_base_ne_zero {n : Nat} (hn : ¬order25519 ∣ n) :
    xCoord (n • Point.some _ y hP) ≠ 0 := by
  intro hx
  have hdvd : ∀ k : Nat, k • Point.some _ y hP = 0 → order25519 ∣ k := by
    intro k hk
    rw [← addOrderOf_base hP]
    exact addOrderOf_dvd_of_nsmul_eq_zero hk
  -- The point would be its own negative.
  have htwice : (n + n) • Point.some _ y hP = 0 := by
    rw [add_nsmul]
    cases hQ : n • Point.some _ y hP with
    | zero => rfl
    | some u v hnonsing =>
        rw [hQ] at hx
        obtain rfl : u = 0 := hx
        have hv : v = 0 := by
          have hcurve := (Montgomery.equation_iff 0 v).mp hnonsing.1
          exact pow_eq_zero_iff two_ne_zero |>.mp (by linear_combination hcurve)
        exact Point.add_self_of_Y_eq (by rw [negY_eq, hv, neg_zero])
  have h2n : order25519 ∣ 2 * n := by
    rw [two_mul]
    exact hdvd (n + n) htwice
  rcases order25519_prime.dvd_mul.mp h2n with h | h
  · exact absurd (Nat.le_of_dvd two_pos h) (by decide)
  · exact hn h

end

/-! ### Keys -/

theorem clamp_bytes (k : Key) :
    value (Crypto.clamp k).toList % 8 = 0 ∧ 64 ≤ value (Crypto.clamp k).toList / 2 ^ 248 ∧
      value (Crypto.clamp k).toList / 2 ^ 248 < 128 := by
  have hfirst : (Crypto.clamp k).toList = (Crypto.clamp k).get 0 :: (Crypto.clamp k).toList.tail := by
    obtain ⟨l, hl⟩ := Crypto.clamp k
    match l, hl with
    | b :: l, _ => rfl
  have hlast : (Crypto.clamp k).toList.drop 31 = [(Crypto.clamp k).get 31] := by
    obtain ⟨l, hl⟩ := Crypto.clamp k
    have hlen : 31 < l.length := by omega
    show l.drop 31 = [l[31]]
    rw [List.drop_eq_getElem_cons hlen, List.drop_of_length_le (by omega)]
  have hlow : ((Crypto.clamp k).get 0).toNat % 8 = 0 := by
    unfold Crypto.clamp
    rw [List.Vector.get_ofFn]
    show (k.get 0 &&& 248).toNat % 8 = 0
    generalize k.get 0 = b
    revert b
    decide
  have hhigh : 64 ≤ ((Crypto.clamp k).get 31).toNat ∧ ((Crypto.clamp k).get 31).toNat < 128 := by
    unfold Crypto.clamp
    rw [List.Vector.get_ofFn]
    show 64 ≤ ((k.get 31 &&& 127) ||| 64).toNat ∧ ((k.get 31 &&& 127) ||| 64).toNat < 128
    generalize k.get 31 = b
    revert b
    decide
  have hdrop := value_drop (Crypto.clamp k).toList 31
  rw [hlast, value_cons, value_nil, Nat.mul_zero, Nat.add_zero] at hdrop
  refine ⟨?_, ?_, ?_⟩
  · rw [hfirst, value_cons]
    omega
  · rw [← hdrop]
    exact hhigh.1
  · rw [← hdrop]
    exact hhigh.2

/-- A clamped scalar is no multiple of the order. -/
theorem not_dvd_clamp (k : Key) : ¬order25519 ∣ value (Crypto.clamp k).toList := by
  obtain ⟨height, hlow, hhigh⟩ := clamp_bytes k
  intro hdvd
  have hsplit : value (Crypto.clamp k).toList = 8 * (value (Crypto.clamp k).toList / 8) := by
    omega
  rw [hsplit] at hdvd
  rcases order25519_prime.dvd_mul.mp hdvd with h | h
  · exact absurd (Nat.le_of_dvd (by decide) h) (by decide)
  · have hle := Nat.le_of_dvd (by omega) h
    unfold order25519 at hle
    omega

theorem value_basepoint : value Crypto.basepoint.toList = 9 := by decide

/-- **No private key has a public key of zero, and no two share a secret of zero.** -/
theorem shared_ne_zero (xs ys : Xs) (a b : Key) :
    (x25519 xs a Crypto.basepoint true).1 ≠ Bytes.zero 32 ∧
      (x25519 xs a (x25519 ys b Crypto.basepoint true).1 true).1 ≠ Bytes.zero 32 := by
  obtain ⟨y, hP⟩ := exists_nonsingular Kbar ((9 : Nat) : Kbar)
  have hbase : ((value Crypto.basepoint.toList : Nat) : Kbar) = xCoord (Point.some _ y hP) := by
    rw [value_basepoint]
    rfl
  have ha := x25519_nsmul xs a _ true hbase
  have hb := x25519_nsmul ys b _ true hbase
  have hab := x25519_nsmul xs a _ true hb
  have hne : ∀ k : Key, ((value k.toList : Nat) : Kbar) ≠ 0 → k ≠ Bytes.zero 32 := by
    intro k hk hc
    refine hk ?_
    rw [(eq_zero_iff_value k).mp hc, Nat.cast_zero]
  refine ⟨hne _ ?_, hne _ ?_⟩
  · rw [ha]
    exact xCoord_base_ne_zero hP (not_dvd_clamp a)
  · rw [hab, ← mul_nsmul]
    refine xCoord_base_ne_zero hP fun hdvd => ?_
    rcases order25519_prime.dvd_mul.mp hdvd with h | h
    · exact not_dvd_clamp b h
    · exact not_dvd_clamp a h

end Refc

end NuttxWireguard
