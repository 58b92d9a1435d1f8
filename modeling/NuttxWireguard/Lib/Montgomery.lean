/-
Montgomery curves by their x-coordinates.

A Montgomery curve is `y² = x³ + a x² + x`.  Its points form a group, which Mathlib has; this
file is about computing in that group without the y-coordinate.  A point is held as a fraction
`x / z`, with `z = 0` for the point at infinity, and `Represents` says which fractions stand for
which points.  Two operations suffice: doubling, and adding two points whose difference is
known.

  * Doubling takes a fraction for `Q` to one for `Q + Q`, whatever `Q` is.
  * The differential addition takes fractions for `Q` and `R` to one for `Q + R`, whatever the
    two are, if they differ by a point with an x-coordinate other than zero.

The ladder walks down the bits of a scalar `n` and keeps fractions for `m • P` and
`(m + 1) • P`, where `m` is what the bits seen so far spell; the two differ by `P`, so one step
doubles one of them and adds both.  `ladder_spec` is the result: for every point `P` the quotient the
ladder leaves is the x-coordinate of `n • P`, where the point at infinity counts as zero.  The
points with x-coordinate zero are no exception, though the addition is of no use there: they
have order two, and the ladder then stays at fractions that all count as zero.

In a field of prime characteristic the ladder can also be run on natural numbers, as long as the
point has a number for its x-coordinate.  A run that ends with a denominator of zero shows that
the multiple is at infinity.
-/
import Mathlib.AlgebraicGeometry.EllipticCurve.Affine.Point
import Mathlib.Algebra.CharP.Basic
import Mathlib.Tactic.FieldSimp
import Mathlib.Tactic.LinearCombination

namespace Lib

namespace Montgomery

open WeierstrassCurve.Affine

variable {K : Type*} [Field K] {a : K}

/-- `y² = x³ + a x² + x`. -/
def curve (a : K) : WeierstrassCurve.Affine K := { a₁ := 0, a₂ := a, a₃ := 0, a₄ := 1, a₆ := 0 }

theorem equation_iff (x y : K) :
    (curve a).Equation x y ↔ y ^ 2 = x ^ 3 + a * x ^ 2 + x := by
  rw [WeierstrassCurve.Affine.equation_iff]
  simp [curve]

theorem negY_eq (x y : K) : (curve a).negY x y = -y := by
  simp [negY, curve]

theorem addX_eq (x₁ x₂ s : K) : (curve a).addX x₁ x₂ s = s ^ 2 - a - x₁ - x₂ := by
  simp [addX, curve]

/-- The curves this file is about: the characteristic is not two, and the cubic has no double
root. -/
structure Smooth (a : K) : Prop where
  two : (2 : K) ≠ 0
  disc : a ^ 2 ≠ 4

/-- A point with `y = 0` is not at `x = 1` or `x = -1`. -/
theorem Smooth.sq_ne_one (ha : Smooth a) {x : K} (h : x ^ 3 + a * x ^ 2 + x = 0) :
    x ^ 2 ≠ 1 := by
  intro hx
  apply ha.disc
  have h2 : 2 * x + a = 0 := by linear_combination h - x * hx - a * hx
  have h4 : a ^ 2 = 4 * x ^ 2 := by linear_combination (a - 2 * x) * h2
  rw [h4, hx, mul_one]

theorem Smooth.nonsingular (ha : Smooth a) {x y : K} (h : y ^ 2 = x ^ 3 + a * x ^ 2 + x) :
    (curve a).Nonsingular x y := by
  rw [nonsingular_iff, equation_iff]
  refine ⟨h, ?_⟩
  by_cases hy : y = 0
  · -- The cubic and its derivative have no root in common.
    refine Or.inl ?_
    subst hy
    have hcubic : x ^ 3 + a * x ^ 2 + x = 0 := by linear_combination -h
    intro hc
    have hderiv : 3 * x ^ 2 + 2 * a * x + 1 = 0 := by
      simpa [curve] using hc.symm
    have hx : x ≠ 0 := by
      rintro rfl
      simp at hderiv
    have hone : x * (x ^ 2 - 1) = 0 := by linear_combination x * hderiv - 2 * hcubic
    have hsq : x ^ 2 = 1 := sub_eq_zero.mp ((mul_eq_zero.mp hone).resolve_left hx)
    exact ha.sq_ne_one hcubic hsq
  · refine Or.inr ?_
    intro hc
    have h2 : 2 * y = 0 := by
      have : y = -y := by simpa [curve] using hc
      linear_combination this
    exact hy ((mul_eq_zero.mp h2).resolve_left ha.two)

/-! ### Points as fractions -/

/-- `x / z` stands for the x-coordinate of the point. -/
def Represents : (curve a).Point → K → K → Prop
  | .zero, x, z => x ≠ 0 ∧ z = 0
  | .some u _ _, x, z => z ≠ 0 ∧ x = u * z

/-- The x-coordinate of a point, zero at infinity. -/
def xCoord : (curve a).Point → K
  | .zero => 0
  | .some u _ _ => u

@[simp] theorem represents_zero {x z : K} :
    Represents (0 : (curve a).Point) x z ↔ x ≠ 0 ∧ z = 0 := Iff.rfl

@[simp] theorem represents_some {u v x z : K} (h : (curve a).Nonsingular u v) :
    Represents (Point.some u v h) x z ↔ z ≠ 0 ∧ x = u * z := Iff.rfl

@[simp] theorem xCoord_zero : xCoord (0 : (curve a).Point) = 0 := rfl

@[simp] theorem xCoord_some {u v : K} (h : (curve a).Nonsingular u v) :
    xCoord (Point.some u v h) = u := rfl

/-- A point and its negative have the same fractions. -/
theorem represents_neg {Q : (curve a).Point} {x z : K} :
    Represents (-Q) x z ↔ Represents Q x z := by
  cases Q with
  | zero => rfl
  | some u v h => rfl

theorem xCoord_neg (Q : (curve a).Point) : xCoord (-Q) = xCoord Q := by
  cases Q with
  | zero => rfl
  | some u v h => rfl

theorem Represents.xCoord_eq {Q : (curve a).Point} {x z : K} (h : Represents Q x z) :
    x / z = xCoord Q := by
  cases Q with
  | zero =>
      obtain ⟨-, rfl⟩ := h
      exact div_zero x
  | some u v hQ =>
      obtain ⟨hz, rfl⟩ := h
      exact mul_div_cancel_right₀ u hz

/-! ### Doubling -/

variable [DecidableEq K]

theorem Represents.double (ha : Smooth a) {a24 : K} (h24 : 4 * a24 = a - 2)
    {Q : (curve a).Point} {x z : K} (h : Represents Q x z) :
    Represents (Q + Q) ((x + z) ^ 2 * (x - z) ^ 2)
      (((x + z) ^ 2 - (x - z) ^ 2) *
        (((x + z) ^ 2 - (x - z) ^ 2) * a24 + (x + z) ^ 2)) := by
  cases Q with
  | zero =>
      obtain ⟨hx, rfl⟩ := h
      show Represents (0 : (curve a).Point) _ _
      refine ⟨?_, by ring⟩
      have hsq : (x + 0) ^ 2 * (x - 0) ^ 2 = x ^ 4 := by ring
      rw [hsq]
      exact pow_ne_zero 4 hx
  | some u v hQ =>
      obtain ⟨hz, rfl⟩ := h
      have hcurve : v ^ 2 = u ^ 3 + a * u ^ 2 + u := (equation_iff u v).mp hQ.1
      have hden : ((u * z + z) ^ 2 - (u * z - z) ^ 2) *
          (((u * z + z) ^ 2 - (u * z - z) ^ 2) * a24 + (u * z + z) ^ 2)
            = z ^ 4 * (2 * v) ^ 2 := by
        linear_combination 4 * u ^ 2 * z ^ 4 * h24 - 4 * z ^ 4 * hcurve
      have hnum : (u * z + z) ^ 2 * (u * z - z) ^ 2 = z ^ 4 * (u ^ 2 - 1) ^ 2 := by ring
      rw [hden, hnum]
      by_cases hv : v = 0
      · subst hv
        have hcubic : u ^ 3 + a * u ^ 2 + u = 0 := by linear_combination -hcurve
        rw [Point.add_self_of_Y_eq (by rw [negY_eq, neg_zero])]
        have hsq : u ^ 2 - 1 ≠ 0 := sub_ne_zero.mpr (ha.sq_ne_one hcubic)
        exact ⟨mul_ne_zero (pow_ne_zero 4 hz) (pow_ne_zero 2 hsq), by ring⟩
      · have h2v : 2 * v ≠ 0 := mul_ne_zero ha.two hv
        have hY : v ≠ (curve a).negY u v := by
          rw [negY_eq]
          intro hc
          exact h2v (by linear_combination hc)
        rw [Point.add_self_of_Y_ne hY, represents_some, addX_eq, slope_of_Y_ne rfl hY, negY_eq]
        refine ⟨mul_ne_zero (pow_ne_zero 4 hz) (pow_ne_zero 2 h2v), ?_⟩
        have hsub : v - -v = 2 * v := by ring
        rw [hsub]
        simp only [curve]
        set s := (3 * u ^ 2 + 2 * a * u + 1 - 0 * v) / (2 * v) with hs
        have hslope : s * (2 * v) = 3 * u ^ 2 + 2 * a * u + 1 := by
          rw [hs, div_mul_cancel₀ _ h2v, zero_mul, sub_zero]
        linear_combination
          -z ^ 4 * (s * (2 * v) + (3 * u ^ 2 + 2 * a * u + 1)) * hslope +
            4 * z ^ 4 * (a + 2 * u) * hcurve

/-! ### Adding two points of known difference -/

omit [DecidableEq K] in
/-- What the chord through two points on the curve says of their sum and difference. -/
theorem addX_mul_addX {u₁ v₁ u₂ v₂ : K} (h₁ : v₁ ^ 2 = u₁ ^ 3 + a * u₁ ^ 2 + u₁)
    (h₂ : v₂ ^ 2 = u₂ ^ 3 + a * u₂ ^ 2 + u₂) (hne : u₁ ≠ u₂) :
    ((curve a).addX u₁ u₂ ((v₁ - v₂) / (u₁ - u₂)) * (curve a).addX u₁ u₂ ((v₁ + v₂) / (u₁ - u₂))) *
      (u₁ - u₂) ^ 2 = (u₁ * u₂ - 1) ^ 2 := by
  have hd : u₁ - u₂ ≠ 0 := sub_ne_zero.mpr hne
  rw [addX_eq, addX_eq]
  set s := (v₁ - v₂) / (u₁ - u₂) with hs
  set t := (v₁ + v₂) / (u₁ - u₂) with ht
  have hsd : s * (u₁ - u₂) = v₁ - v₂ := div_mul_cancel₀ _ hd
  have htd : t * (u₁ - u₂) = v₁ + v₂ := div_mul_cancel₀ _ hd
  -- Both x-coordinates over the square of the distance, and their product.
  have hsum : (s ^ 2 - a - u₁ - u₂) * (u₁ - u₂) ^ 2
      = (u₁ + u₂) * (u₁ * u₂ + 1) + 2 * a * (u₁ * u₂) - 2 * (v₁ * v₂) := by
    linear_combination (s * (u₁ - u₂) + (v₁ - v₂)) * hsd + h₁ + h₂
  have hdiff : (t ^ 2 - a - u₁ - u₂) * (u₁ - u₂) ^ 2
      = (u₁ + u₂) * (u₁ * u₂ + 1) + 2 * a * (u₁ * u₂) + 2 * (v₁ * v₂) := by
    linear_combination (t * (u₁ - u₂) + (v₁ + v₂)) * htd + h₁ + h₂
  have hprod : ((s ^ 2 - a - u₁ - u₂) * (t ^ 2 - a - u₁ - u₂) * (u₁ - u₂) ^ 2) * (u₁ - u₂) ^ 2
      = (u₁ * u₂ - 1) ^ 2 * (u₁ - u₂) ^ 2 := by
    calc ((s ^ 2 - a - u₁ - u₂) * (t ^ 2 - a - u₁ - u₂) * (u₁ - u₂) ^ 2) * (u₁ - u₂) ^ 2
        = ((s ^ 2 - a - u₁ - u₂) * (u₁ - u₂) ^ 2) * ((t ^ 2 - a - u₁ - u₂) * (u₁ - u₂) ^ 2) := by
          ring
      _ = ((u₁ + u₂) * (u₁ * u₂ + 1) + 2 * a * (u₁ * u₂) - 2 * (v₁ * v₂)) *
            ((u₁ + u₂) * (u₁ * u₂ + 1) + 2 * a * (u₁ * u₂) + 2 * (v₁ * v₂)) := by
          rw [hsum, hdiff]
      _ = (u₁ * u₂ - 1) ^ 2 * (u₁ - u₂) ^ 2 := by
          linear_combination -4 * v₂ ^ 2 * h₁ - 4 * (u₁ ^ 3 + a * u₁ ^ 2 + u₁) * h₂
  exact mul_right_cancel₀ (pow_ne_zero 2 hd) hprod

omit [DecidableEq K] in
/-- The two terms of the differential addition, multiplied out. -/
theorem cross_terms (x2 z2 x3 z3 : K) :
    (x3 - z3) * (x2 + z2) + (x3 + z3) * (x2 - z2) = 2 * (x2 * x3 - z2 * z3) ∧
      (x3 - z3) * (x2 + z2) - (x3 + z3) * (x2 - z2) = 2 * (x3 * z2 - z3 * x2) :=
  ⟨by ring, by ring⟩

/-- The doubled point is not at infinity and not at zero only if its half is not at one or minus
one. -/
theorem sq_ne_one_of_double (ha : Smooth a) {u v x1 y1 : K} (hQ : (curve a).Nonsingular u v)
    (hP : (curve a).Nonsingular x1 y1) (hx1 : x1 ≠ 0)
    (h : Point.some u v hQ + Point.some u v hQ = -Point.some x1 y1 hP) : u ^ 2 - 1 ≠ 0 := by
  have h4 : (4 : K) ≠ 0 := by
    have hmul : (4 : K) = 2 * 2 := by norm_num
    rw [hmul]
    exact mul_ne_zero ha.two ha.two
  have h24 : 4 * ((a - 2) / 4) = a - 2 := mul_div_cancel₀ _ h4
  have hone : Represents (Point.some u v hQ) u 1 := ⟨one_ne_zero, (mul_one u).symm⟩
  have hdouble := hone.double ha h24
  rw [h, represents_neg] at hdouble
  obtain ⟨hz, hx⟩ := hdouble
  intro hc
  have hnum : (u + 1) ^ 2 * (u - 1) ^ 2 = 0 := by linear_combination (u ^ 2 - 1) * hc
  rw [hnum] at hx
  exact (mul_ne_zero hx1 hz) hx.symm

theorem Represents.add (ha : Smooth a) {Q R : (curve a).Point} {x1 y1 x2 z2 x3 z3 : K}
    (hP : (curve a).Nonsingular x1 y1) (hx1 : x1 ≠ 0) (hQ : Represents Q x2 z2)
    (hR : Represents R x3 z3) (hdiff : R = Q + Point.some x1 y1 hP) :
    Represents (Q + R) (((x3 - z3) * (x2 + z2) + (x3 + z3) * (x2 - z2)) ^ 2)
      (x1 * ((x3 - z3) * (x2 + z2) - (x3 + z3) * (x2 - z2)) ^ 2) := by
  obtain ⟨hsum, hdifference⟩ := cross_terms x2 z2 x3 z3
  rw [hsum, hdifference]
  cases Q with
  | zero =>
      -- From infinity the other point is the difference itself.
      obtain rfl : R = Point.some x1 y1 hP := hdiff.trans (zero_add _)
      obtain ⟨hx2, rfl⟩ := hQ
      obtain ⟨hz3, rfl⟩ := hR
      show Represents (0 + Point.some x1 y1 hP) _ _
      rw [zero_add, represents_some]
      refine ⟨mul_ne_zero hx1 (pow_ne_zero 2 (mul_ne_zero ha.two ?_)), by ring⟩
      have : x1 * z3 * 0 - z3 * x2 = -(z3 * x2) := by ring
      rw [this]
      exact neg_ne_zero.mpr (mul_ne_zero hz3 hx2)
  | some u2 v2 hu2 =>
      obtain ⟨hz2, rfl⟩ := hQ
      cases R with
      | zero =>
          -- The point is the negative of the difference.
          obtain ⟨hx3, rfl⟩ := hR
          have hneg : Point.some u2 v2 hu2 = -Point.some x1 y1 hP :=
            eq_neg_of_add_eq_zero_left hdiff.symm
          have hu : u2 = x1 := by
            have := congrArg xCoord hneg
            rwa [xCoord_neg] at this
          show Represents (Point.some u2 v2 hu2 + 0) _ _
          rw [add_zero, represents_some]
          subst hu
          refine ⟨mul_ne_zero hx1 (pow_ne_zero 2 (mul_ne_zero ha.two ?_)), by ring⟩
          have : x3 * z2 - 0 * (u2 * z2) = x3 * z2 := by ring
          rw [this]
          exact mul_ne_zero hx3 hz2
      | some u3 v3 hu3 =>
          obtain ⟨hz3, rfl⟩ := hR
          by_cases hu : u2 = u3
          · -- The two points are negatives of each other, and their sum is at infinity.
            rcases Point.X_eq_iff.mp hu with heq | heq
            · rw [← heq] at hdiff
              exact absurd (left_eq_add.mp hdiff) (Point.some_ne_zero hP)
            · have hzero : Point.some u2 v2 hu2 + Point.some u3 v3 hu3 = 0 := by
                rw [heq, neg_add_cancel]
              have hhalf : Point.some u2 v2 hu2 + Point.some u2 v2 hu2
                  = -Point.some x1 y1 hP := by
                rw [eq_neg_iff_add_eq_zero, add_assoc, ← hdiff, hzero]
              have hsq := sq_ne_one_of_double ha hu2 hP hx1 hhalf
              rw [hzero, represents_zero]
              subst hu
              refine ⟨pow_ne_zero 2 (mul_ne_zero ha.two ?_), by ring⟩
              have : u2 * z2 * (u2 * z3) - z2 * z3 = z2 * z3 * (u2 ^ 2 - 1) := by ring
              rw [this]
              exact mul_ne_zero (mul_ne_zero hz2 hz3) hsq
          · have hx1eq : x1 = (curve a).addX u2 u3 ((v2 + v3) / (u2 - u3)) := by
              have hPeq : Point.some x1 y1 hP
                  = Point.some u3 v3 hu3 + -Point.some u2 v2 hu2 := by
                rw [hdiff]
                abel
              rw [Point.neg_some, Point.add_of_X_ne (Ne.symm hu)] at hPeq
              have hx := congrArg xCoord hPeq
              rw [xCoord_some, xCoord_some, slope_of_X_ne (Ne.symm hu), negY_eq] at hx
              rw [hx, addX_eq, addX_eq, sub_neg_eq_add, ← neg_sub u2 u3, div_neg, add_comm v3 v2]
              ring
            have hprod := addX_mul_addX ((equation_iff u2 v2).mp hu2.1)
              ((equation_iff u3 v3).mp hu3.1) hu
            rw [← hx1eq] at hprod
            rw [Point.add_of_X_ne hu, represents_some, slope_of_X_ne hu]
            have hd : u2 - u3 ≠ 0 := sub_ne_zero.mpr hu
            refine ⟨mul_ne_zero hx1 (pow_ne_zero 2 (mul_ne_zero ha.two ?_)), ?_⟩
            · have : u3 * z3 * z2 - z3 * (u2 * z2) = -(z2 * z3 * (u2 - u3)) := by ring
              rw [this]
              exact neg_ne_zero.mpr (mul_ne_zero (mul_ne_zero hz2 hz3) hd)
            · linear_combination -4 * (z2 * z3) ^ 2 * hprod

/-! ### The ladder -/

/-- The two fractions the ladder holds. -/
structure Pair (K : Type*) where
  x2 : K
  z2 : K
  x3 : K
  z3 : K

namespace Pair

/-- Exchange the fractions, or not. -/
def swap (p : Pair K) (b : Bool) : Pair K := if b then ⟨p.x3, p.z3, p.x2, p.z2⟩ else p

/-- The first fraction doubled, and the two added. -/
def step (a24 x1 : K) (p : Pair K) : Pair K where
  x2 := (p.x2 + p.z2) ^ 2 * (p.x2 - p.z2) ^ 2
  z2 := ((p.x2 + p.z2) ^ 2 - (p.x2 - p.z2) ^ 2) *
    (((p.x2 + p.z2) ^ 2 - (p.x2 - p.z2) ^ 2) * a24 + (p.x2 + p.z2) ^ 2)
  x3 := ((p.x3 - p.z3) * (p.x2 + p.z2) + (p.x3 + p.z3) * (p.x2 - p.z2)) ^ 2
  z3 := x1 * ((p.x3 - p.z3) * (p.x2 + p.z2) - (p.x3 + p.z3) * (p.x2 - p.z2)) ^ 2

omit [Field K] [DecidableEq K] in
theorem swap_xor (p : Pair K) (b c : Bool) : p.swap (b ^^ c) = (p.swap b).swap c := by
  cases b <;> cases c <;> rfl

omit [DecidableEq K] in
/-- The sum is the same with the fractions exchanged. -/
theorem step_swap_true (a24 x1 : K) (p : Pair K) :
    ((p.swap true).step a24 x1).x3 = (p.step a24 x1).x3 ∧
      ((p.swap true).step a24 x1).z3 = (p.step a24 x1).z3 := by
  have hswap : p.swap true = ⟨p.x3, p.z3, p.x2, p.z2⟩ := rfl
  rw [hswap]
  unfold step
  exact ⟨by ring, by ring⟩

end Pair

/-- The ladder over the bits of a scalar, the most significant first, and whether the fractions
are left exchanged. -/
def ladder (a24 x1 : K) (bits : List Bool) : Pair K × Bool :=
  bits.foldl (fun s b => ((s.1.swap (s.2 ^^ b)).step a24 x1, b)) (⟨1, 0, x1, 1⟩, false)

/-- The fraction the ladder ends with. -/
def ladderResult (a24 x1 : K) (bits : List Bool) : Pair K :=
  (ladder a24 x1 bits).1.swap (ladder a24 x1 bits).2

/-- The number the bits spell, the most significant first. -/
def spell (bits : List Bool) : Nat := bits.foldl (fun n b => 2 * n + b.toNat) 0

omit [DecidableEq K] in
theorem ladderResult_snoc (a24 x1 : K) (bits : List Bool) (b : Bool) :
    ladderResult a24 x1 (bits ++ [b])
      = (((ladderResult a24 x1 bits).swap b).step a24 x1).swap b := by
  unfold ladderResult ladder
  rw [List.foldl_append, List.foldl_cons, List.foldl_nil, Pair.swap_xor]

theorem spell_snoc (bits : List Bool) (b : Bool) :
    spell (bits ++ [b]) = 2 * spell bits + b.toNat := by
  unfold spell
  rw [List.foldl_append, List.foldl_cons, List.foldl_nil]

/-- The fractions stand for neighbours among the multiples of `P`. -/
structure Neighbours (P : (curve a).Point) (m : Nat) (p : Pair K) : Prop where
  low : Represents (m • P) p.x2 p.z2
  high : Represents ((m + 1) • P) p.x3 p.z3

/-- One step takes the multiple `m` to `2 m` or `2 m + 1`. -/
theorem Neighbours.step (ha : Smooth a) {a24 : K} (h24 : 4 * a24 = a - 2) {x1 y1 : K}
    (hP : (curve a).Nonsingular x1 y1) (hx1 : x1 ≠ 0) {m : Nat} {p : Pair K}
    (h : Neighbours (Point.some x1 y1 hP) m p) (b : Bool) :
    Neighbours (Point.some x1 y1 hP) (2 * m + b.toNat) (((p.swap b).step a24 x1).swap b) := by
  have hnext := succ_nsmul (Point.some x1 y1 hP) m
  have hsum : m • Point.some x1 y1 hP + (m + 1) • Point.some x1 y1 hP
      = (2 * m + 1) • Point.some x1 y1 hP := by
    rw [← add_nsmul]
    congr 1
    omega
  cases b with
  | false =>
      refine ⟨?_, ?_⟩
      · have hdouble := h.low.double ha h24
        rw [← add_nsmul, ← two_mul] at hdouble
        exact hdouble
      · have hadd := h.low.add ha hP hx1 h.high hnext
        rw [hsum] at hadd
        exact hadd
  | true =>
      refine ⟨?_, ?_⟩
      · have hadd := h.low.add ha hP hx1 h.high hnext
        rw [hsum] at hadd
        obtain ⟨hx, hz⟩ := Pair.step_swap_true a24 x1 p
        show Represents _ ((p.swap true).step a24 x1).x3 ((p.swap true).step a24 x1).z3
        rw [hx, hz]
        exact hadd
      · have hdouble := h.high.double ha h24
        have htwice : (m + 1) • Point.some x1 y1 hP + (m + 1) • Point.some x1 y1 hP
            = (2 * m + 1 + 1) • Point.some x1 y1 hP := by
          rw [← add_nsmul]
          congr 1
          omega
        rw [htwice] at hdouble
        exact hdouble

theorem ladder_neighbours (ha : Smooth a) {a24 : K} (h24 : 4 * a24 = a - 2) {x1 y1 : K}
    (hP : (curve a).Nonsingular x1 y1) (hx1 : x1 ≠ 0) (bits : List Bool) :
    Neighbours (Point.some x1 y1 hP) (spell bits) (ladderResult a24 x1 bits) := by
  induction bits using List.reverseRecOn with
  | nil =>
      refine ⟨?_, ?_⟩
      · show Represents (0 • Point.some x1 y1 hP) 1 0
        rw [zero_nsmul]
        exact ⟨one_ne_zero, rfl⟩
      · show Represents ((0 + 1) • Point.some x1 y1 hP) x1 1
        rw [one_nsmul]
        exact ⟨one_ne_zero, (mul_one x1).symm⟩
  | append_singleton bits b ih =>
      rw [ladderResult_snoc, spell_snoc]
      exact ih.step ha h24 hP hx1 b

/-! ### The point of order two at zero -/

/-- Both fractions count as zero. -/
def Pair.Zeros (p : Pair K) : Prop := (p.x2 = 0 ∨ p.z2 = 0) ∧ (p.x3 = 0 ∨ p.z3 = 0)

omit [DecidableEq K] in
theorem Pair.Zeros.swap {p : Pair K} (h : p.Zeros) (b : Bool) : (p.swap b).Zeros := by
  cases b with
  | false => exact h
  | true => exact ⟨h.2, h.1⟩

omit [DecidableEq K] in
theorem Pair.Zeros.step {p : Pair K} (h : p.Zeros) (a24 : K) : (p.step a24 0).Zeros := by
  refine ⟨Or.inr ?_, Or.inr (zero_mul _)⟩
  have hxz : p.x2 * p.z2 = 0 := mul_eq_zero.mpr h.1
  have hterm : (p.x2 + p.z2) ^ 2 - (p.x2 - p.z2) ^ 2 = 0 := by linear_combination 4 * hxz
  show ((p.x2 + p.z2) ^ 2 - (p.x2 - p.z2) ^ 2) * _ = 0
  rw [hterm, zero_mul]

omit [DecidableEq K] in
theorem ladder_zeros (a24 : K) (bits : List Bool) : (ladderResult a24 0 bits).Zeros := by
  induction bits using List.reverseRecOn with
  | nil => exact ⟨Or.inr rfl, Or.inl rfl⟩
  | append_singleton bits b ih =>
      rw [ladderResult_snoc]
      exact ((ih.swap b).step a24).swap b

theorem xCoord_nsmul_zero {y1 : K} (hP : (curve a).Nonsingular 0 y1) (n : Nat) :
    xCoord (n • Point.some 0 y1 hP) = 0 := by
  have hy : y1 = 0 := by
    have hcurve := (equation_iff 0 y1).mp hP.1
    exact pow_eq_zero_iff two_ne_zero |>.mp (by linear_combination hcurve)
  have htwo : Point.some 0 y1 hP + Point.some 0 y1 hP = 0 :=
    Point.add_self_of_Y_eq (by rw [negY_eq, hy, neg_zero])
  have hcases : n • Point.some 0 y1 hP = 0 ∨ n • Point.some 0 y1 hP = Point.some 0 y1 hP := by
    induction n with
    | zero => exact Or.inl (zero_nsmul _)
    | succ n ih =>
        rw [succ_nsmul]
        rcases ih with h | h
        · exact Or.inr (by rw [h, zero_add])
        · exact Or.inl (by rw [h, htwo])
  rcases hcases with h | h
  · rw [h, xCoord_zero]
  · rw [h, xCoord_some]

/-- **The ladder computes the x-coordinate of a multiple, of any point other than the one at
infinity.** -/
theorem ladder_spec (ha : Smooth a) {a24 : K} (h24 : 4 * a24 = a - 2) {x1 y1 : K}
    (hP : (curve a).Nonsingular x1 y1) (bits : List Bool) :
    (ladderResult a24 x1 bits).x2 / (ladderResult a24 x1 bits).z2
      = xCoord (spell bits • Point.some x1 y1 hP) := by
  by_cases hx1 : x1 = 0
  · subst hx1
    rw [xCoord_nsmul_zero]
    rcases (ladder_zeros a24 bits).1 with h | h
    · rw [h, zero_div]
    · rw [h, div_zero]
  · exact (ladder_neighbours ha h24 hP hx1 bits).low.xCoord_eq

/-! ### The ladder on numbers -/

section

/-- `step`, on numbers modulo `m`. -/
def Pair.stepMod (m a24 x1 : Nat) (p : Pair Nat) : Pair Nat :=
  let a := (p.x2 + p.z2) % m
  let b := (p.x2 + (m - p.z2 % m)) % m
  let da := (p.x3 + (m - p.z3 % m)) % m * a % m
  let cb := (p.x3 + p.z3) % m * b % m
  let e := (a * a + (m - b * b % m)) % m
  { x2 := a * a * (b * b) % m
    z2 := e * (e * a24 + a * a) % m
    x3 := (da + cb) * (da + cb) % m
    z3 := x1 * ((da + (m - cb)) * (da + (m - cb))) % m }

/-- `ladderResult`, on numbers modulo `m`. -/
def ladderMod (m a24 x1 : Nat) (bits : List Bool) : Pair Nat :=
  let s := bits.foldl (fun s b => ((s.1.swap (s.2 ^^ b)).stepMod m a24 x1, b))
    ((⟨1, 0, x1, 1⟩ : Pair Nat), false)
  s.1.swap s.2

variable (K) in
def Pair.cast (p : Pair Nat) : Pair K := ⟨p.x2, p.z2, p.x3, p.z3⟩

variable {m : Nat} [CharP K m]

omit [DecidableEq K] in
theorem cast_mod (n : Nat) : ((n % m : Nat) : K) = n :=
  (CharP.natCast_eq_natCast_mod K m n).symm

omit [DecidableEq K] in
theorem cast_sub_mod (hm : 0 < m) (k n : Nat) : ((k + (m - n % m) : Nat) : K) = k - n := by
  have hle : n % m ≤ m := Nat.le_of_lt (Nat.mod_lt n hm)
  rw [Nat.cast_add, Nat.cast_sub hle, CharP.cast_eq_zero K m, cast_mod]
  ring

omit [DecidableEq K] in
theorem Pair.cast_stepMod (hm : 0 < m) (a24 x1 : Nat) (p : Pair Nat) :
    (p.stepMod m a24 x1).cast K = (p.cast K).step (a24 : K) (x1 : K) := by
  have hsub : ∀ k n : Nat, ((k + (m - n % m) : Nat) : K) = k - n := cast_sub_mod hm
  unfold stepMod step Pair.cast
  dsimp only
  congr 1
  · simp only [cast_mod, Nat.cast_mul, Nat.cast_add, hsub]
    ring
  · simp only [cast_mod, Nat.cast_mul, Nat.cast_add, hsub]
    ring
  · simp only [cast_mod, Nat.cast_mul, Nat.cast_add, hsub]
    ring
  · have hcb : (p.x3 + p.z3) % m * ((p.x2 + (m - p.z2 % m)) % m) % m
        = ((p.x3 + p.z3) % m * ((p.x2 + (m - p.z2 % m)) % m) % m) % m := (Nat.mod_mod _ _).symm
    rw [hcb]
    simp only [cast_mod, Nat.cast_mul, Nat.cast_add, hsub]
    ring

omit [DecidableEq K] in
theorem cast_ladderMod (hm : 0 < m) (a24 x1 : Nat) (bits : List Bool) :
    (ladderMod m a24 x1 bits).cast K = ladderResult (a24 : K) x1 bits := by
  have hfold : ∀ (p : Pair Nat) (s : Bool),
      (bits.foldl (fun s b => ((s.1.swap (s.2 ^^ b)).step (a24 : K) x1, b)) (p.cast K, s))
        = ((bits.foldl (fun s b => ((s.1.swap (s.2 ^^ b)).stepMod m a24 x1, b)) (p, s)).1.cast K,
          (bits.foldl (fun s b => ((s.1.swap (s.2 ^^ b)).stepMod m a24 x1, b)) (p, s)).2) := by
    induction bits with
    | nil => exact fun p s => rfl
    | cons b bits ih =>
        intro p s
        have hswap : (p.cast K).swap (s ^^ b) = (p.swap (s ^^ b)).cast K := by
          cases s ^^ b <;> rfl
        rw [List.foldl_cons, List.foldl_cons, hswap, ← Pair.cast_stepMod hm, ih]
  have hstart : (⟨1, 0, x1, 1⟩ : Pair K) = (⟨1, 0, x1, 1⟩ : Pair Nat).cast K := by
    simp [Pair.cast]
  unfold ladderResult ladder ladderMod
  rw [hstart, hfold]
  dsimp only
  generalize (bits.foldl (fun s b => ((s.1.swap (s.2 ^^ b)).stepMod m a24 x1, b))
    ((⟨1, 0, x1, 1⟩ : Pair Nat), false)) = s
  cases s.2 <;> rfl

/-- **A run on numbers that ends with a denominator of zero ends at infinity.** -/
theorem nsmul_eq_zero (ha : Smooth a) (hm : 0 < m) {a24 x1 : Nat} (h24 : 4 * (a24 : K) = a - 2)
    {y1 : K} (hP : (curve a).Nonsingular (x1 : K) y1) (hx1 : (x1 : K) ≠ 0) {bits : List Bool}
    (hz : (ladderMod m a24 x1 bits).z2 = 0) : spell bits • Point.some (x1 : K) y1 hP = 0 := by
  have hlow := (ladder_neighbours ha h24 hP hx1 bits).low
  have hz2 : (ladderResult (a24 : K) x1 bits).z2 = 0 := by
    rw [← cast_ladderMod hm]
    show ((ladderMod m a24 x1 bits).z2 : K) = 0
    rw [hz, Nat.cast_zero]
  rw [hz2] at hlow
  cases hQ : spell bits • Point.some (x1 : K) y1 hP with
  | zero => rfl
  | some u v h =>
      rw [hQ] at hlow
      exact absurd rfl hlow.1

end

/-- The bits of a number, the most significant of `n` first. -/
theorem spell_testBit (n k : Nat) :
    spell ((List.range n).reverse.map k.testBit) = k % 2 ^ n := by
  induction n generalizing k with
  | zero => simp [spell, Nat.mod_one]
  | succ n ih =>
      have hsucc : (List.map Nat.succ (List.range n)).reverse.map k.testBit
          = (List.range n).reverse.map (k / 2).testBit := by
        rw [← List.map_reverse, List.map_map]
        refine List.map_congr_left fun i _ => ?_
        exact Nat.testBit_succ k i
      rw [List.range_succ_eq_map, List.reverse_cons, List.map_append, hsucc, List.map_singleton,
        spell_snoc, ih, Nat.testBit_zero, Nat.pow_succ', Nat.mod_mul]
      rcases Nat.mod_two_eq_zero_or_one k with h | h
      · simp [h]
      · simp only [h, decide_true, Bool.toNat_true]
        omega

end Montgomery

end Lib
