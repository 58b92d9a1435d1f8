/-
X25519 (`crypto/refc/x25519.c`, and `wg_x25519.c`, its copy for the `wg` tool).

The scalar multiplication is a ladder over five field elements, two fractions and a temporary,
which a mask of zeros or ones exchanges before each step.  Its result is a fraction, and the
denominator is inverted by a chain of squarings and multiplications, driven by a table.
-/
import Mathlib.FieldTheory.Finite.Basic
import Mathlib.Tactic.FinCases
import NuttxWireguard.Lib.Montgomery
import NuttxWireguard.Refc.FieldElement

namespace NuttxWireguard

namespace Refc

open Lib Lib.Limbs

/-- `fe xs[5]`. -/
structure Xs where
  x2 : Fe
  z2 : Fe
  x3 : Fe
  z3 : Fe
  t1 : Fe
  deriving DecidableEq

namespace Xs

def get (xs : Xs) : Fin 5 → Fe
  | 0 => xs.x2
  | 1 => xs.z2
  | 2 => xs.x3
  | 3 => xs.z3
  | 4 => xs.t1

def set (xs : Xs) (i : Fin 5) (v : Fe) : Xs :=
  match i with
  | 0 => { xs with x2 := v }
  | 1 => { xs with z2 := v }
  | 2 => { xs with x3 := v }
  | 3 => { xs with z3 := v }
  | 4 => { xs with t1 := v }

@[simp] theorem get_set_same (xs : Xs) (i : Fin 5) (v : Fe) : (xs.set i v).get i = v := by
  match i with
  | 0 | 1 | 2 | 3 | 4 => rfl

theorem get_set_ne (xs : Xs) {i j : Fin 5} (h : i ≠ j) (v : Fe) :
    (xs.set i v).get j = xs.get j := by
  fin_cases i <;> fin_cases j <;> first | rfl | exact absurd rfl h

@[simp] theorem set_set (xs : Xs) (i : Fin 5) (u v : Fe) : (xs.set i u).set i v = xs.set i v := by
  match i with
  | 0 | 1 | 2 | 3 | 4 => rfl

end Xs

/-- A number of one word. -/
def Fe.small (v : Limb) : Fe := ⟨[v, 0, 0, 0, 0, 0, 0, 0], rfl⟩

/-- `swapin`. -/
def swapin (inp : Key) : Fe := List.Vector.ofFn fun i => readLe 32 (slice inp.toList (4 * i) 4).toList

/-- `swapout`. -/
def swapout (x : Fe) : Key :=
  ⟨x.toList.flatMap fun limb => (writeLe 4 limb).toList, by
    rw [List.length_flatMap]
    simp⟩

/-- `condswap`, on one of the two elements it exchanges. -/
def condswapFe (a b : Fe) (doswap : Limb) : Fe × Fe :=
  (List.Vector.ofFn fun i => a.get i ^^^ ((a.get i ^^^ b.get i) &&& doswap),
    List.Vector.ofFn fun i => b.get i ^^^ ((a.get i ^^^ b.get i) &&& doswap))

/-- `condswap` of `x2`, `z2` and `x3`, `z3`. -/
def condswap (xs : Xs) (doswap : Limb) : Xs :=
  let (x2, x3) := condswapFe xs.x2 xs.x3 doswap
  let (z2, z3) := condswapFe xs.z2 xs.z3 doswap
  { xs with x2, z2, x3, z3 }

/-- `a24`. -/
def a24 : List Limb := [121665]

/-- `ladder_part1`. -/
def ladderPart1 (xs : Xs) : Xs :=
  let t1 := Fe.add xs.x2 xs.z2
  let z2 := Fe.sub xs.x2 xs.z2
  let x2 := Fe.add xs.x3 xs.z3
  let z3 := Fe.sub xs.x3 xs.z3
  let z3 := Fe.mul1 z3 t1
  let x2 := Fe.mul1 x2 z2
  let x3 := Fe.add z3 x2
  let z3 := Fe.sub z3 x2
  let t1 := Fe.sqr1 t1
  let z2 := Fe.sqr1 z2
  let x2 := Fe.sub t1 z2
  let z2 := Fe.mul x2 a24
  let z2 := Fe.add z2 t1
  { x2, z2, x3, z3, t1 }

/-- `ladder_part2`. -/
def ladderPart2 (xs : Xs) (x1 : Fe) : Xs :=
  let z3 := Fe.sqr1 xs.z3
  let z3 := Fe.mul1 z3 x1
  let x3 := Fe.sqr1 xs.x3
  let z2 := Fe.mul1 xs.z2 xs.x2
  let x2 := Fe.sub xs.t1 xs.x2
  let x2 := Fe.mul1 x2 xs.t1
  { x2, z2, x3, z3, t1 := xs.t1 }

/-- The byte of the scalar for the bits `i` to `i + 7`, with the bits `clamp` fixes. -/
def scalarByte (scalar : Key) (clamp : Bool) (i : Nat) : Byte :=
  let bytei := scalar.toList.getD i 0
  if clamp then
    if i = 0 then bytei &&& ~~~7
    else if i = 32 - 1 then (bytei &&& 0x7F) ||| 0x40
    else bytei
  else bytei

/-- One turn of the loop of `x25519_core`, on `xs` and `swap`. -/
def coreTurn (scalar : Key) (clamp : Bool) (x1 : Fe) (s : Xs × Limb) (i : Nat) : Xs × Limb :=
  let (xs, swap) := s
  let bytei := scalarByte scalar clamp (i / 8)
  let doswap : Limb := -((bytei >>> (i % 8)) &&& 1).setWidth 32
  let xs := condswap xs (swap ^^^ doswap)
  (ladderPart2 (ladderPart1 xs) x1, doswap)

/-- `x25519_core`.  The temporary is not initialised. -/
def x25519Core (xs : Xs) (scalar : Key) (x1 : Key) (clamp : Bool) : Xs :=
  let x1 := swapin x1
  let xs : Xs := { x2 := Fe.small 1, z2 := Fe.small 0, x3 := x1, z3 := Fe.small 1, t1 := xs.t1 }
  let (xs, swap) := (List.range 256).reverse.foldl (coreTurn scalar clamp x1) (xs, 0)
  condswap xs swap

/-- The entries of `steps`: square `n` times into `a`, then multiply by `c`. -/
structure PowerStep where
  a : Fin 5
  c : Fin 5
  n : Nat

/-- `steps`. -/
def steps : List PowerStep :=
  [⟨2, 1, 1⟩, ⟨2, 1, 1⟩, ⟨4, 2, 3⟩, ⟨2, 4, 6⟩, ⟨3, 1, 1⟩, ⟨3, 2, 12⟩, ⟨4, 3, 25⟩, ⟨2, 3, 25⟩,
    ⟨2, 4, 50⟩, ⟨3, 2, 125⟩, ⟨3, 1, 2⟩, ⟨3, 1, 2⟩, ⟨3, 1, 1⟩]

/-- The inner loop of the chain: `j` more squarings into `a`, of what `prev` points to. -/
def squarings (a : Fin 5) : Nat → Xs × Fin 5 → Xs × Fin 5
  | 0, s => s
  | j + 1, (xs, prev) => squarings a j (xs.set a (Fe.sqr (xs.get prev)), a)

/-- One entry of the chain, on `xs` and `prev`. -/
def powerTurn (s : Xs × Fin 5) (step : PowerStep) : Xs × Fin 5 :=
  let (xs, prev) := squarings step.a step.n s
  (xs.set step.a (Fe.mul1 (xs.get step.a) (xs.get step.c)), prev)

/-- The inversion chain, and `x2` times what it leaves in `z3`. -/
def divide (xs : Xs) : Fe :=
  let s := steps.foldl powerTurn (xs, 1)
  Fe.mul1 s.1.x2 s.1.z3

/-- `x25519`: `out`, and what it returns, zero or all ones.  `xs` is the caller's stack. -/
def x25519 (xs : Xs) (scalar x1 : Key) (clamp : Bool) : Key × Limb :=
  let canon := Fe.canon (divide (x25519Core xs scalar x1 clamp))
  (swapout canon.1, if clamp then canon.2 else 0)

/-! ### Bytes -/

theorem num_swapin (inp : Key) : (swapin inp).num = value inp.toList := by
  unfold swapin Fe.num
  rw [List.Vector.toList_ofFn]
  exact value_ofFn_readLe (show 32 = 8 * 4 from rfl) 8 inp.toList_length

theorem value_swapout (x : Fe) : value (swapout x).toList = x.num :=
  value_flatMap_writeLe (show 32 = 8 * 4 from rfl) x.toList

/-- Results that spell the same number are the same. -/
theorem key_eq_of_value {a b : Key} (h : value a.toList = value b.toList) : a = b :=
  List.Vector.eq a b (value_inj (a.toList_length.trans b.toList_length.symm) h)

/-! ### Residues in a field -/

section

variable (K : Type) [Field K] [CharP K prime25519]

/-- The element an `fe` stands for, in any field of this characteristic. -/
def Fe.el (x : Fe) : K := (x.num : K)

theorem cast_modEq {m n : Nat} (h : m ≡ n [MOD prime25519]) : (m : K) = n :=
  CharP.natCast_eq_natCast' K prime25519 h

namespace Fe

theorem el_add (a b : Fe) : (add a b).el K = a.el K + b.el K := by
  have h := cast_modEq K (add_modEq a b)
  push_cast at h
  exact h

theorem el_sub {a b : Fe} (hb : b.Reduced) : (sub a b).el K = a.el K - b.el K := by
  have hle : b.num ≤ 2 ^ 256 - 38 := by
    unfold Reduced at hb
    omega
  have h := cast_modEq K (sub_modEq a b hle)
  push_cast at h
  exact eq_sub_of_add_eq h

theorem el_mul (a : Fe) {b : List Limb} (hb : b.length ≤ 8) :
    (mul a b).el K = (value b : K) * a.el K := by
  have h := cast_modEq K (mul_modEq a hb)
  push_cast at h
  exact h

theorem el_mul1 (out a : Fe) : (mul1 out a).el K = out.el K * a.el K :=
  el_mul K a (Nat.le_of_eq out.toList_length)

theorem el_sqr (a : Fe) : (sqr a).el K = a.el K ^ 2 :=
  (el_mul K a (Nat.le_of_eq a.toList_length)).trans (pow_two _).symm

theorem el_sqr1 (a : Fe) : (sqr1 a).el K = a.el K ^ 2 :=
  (el_mul1 K a a).trans (pow_two _).symm

theorem reduced_mul1 (out a : Fe) : (mul1 out a).Reduced := reduced_mul a out.toList

end Fe

/-! ### The ladder -/

/-- The fractions in `xs`. -/
def Xs.pair (xs : Xs) : Montgomery.Pair K := ⟨xs.x2.el K, xs.z2.el K, xs.x3.el K, xs.z3.el K⟩

/-- The denominators can be subtracted. -/
def Xs.Tidy (xs : Xs) : Prop := xs.z2.Reduced ∧ xs.z3.Reduced

theorem value_a24 : value a24 = 121665 := rfl

/-- **The two parts of a step are the step of the ladder.** -/
theorem ladder_parts {xs : Xs} (h : xs.Tidy) (x1 : Fe) :
    (ladderPart2 (ladderPart1 xs) x1).pair K = (xs.pair K).step 121665 (x1.el K) ∧
      (ladderPart2 (ladderPart1 xs) x1).Tidy := by
  obtain ⟨hz2, hz3⟩ := h
  refine ⟨?_, Fe.reduced_mul1 _ _, Fe.reduced_mul1 _ _⟩
  have ha24 : a24.length ≤ 8 := by decide
  have hbc : ∀ a b : Fe, (Fe.mul1 a b).Reduced := Fe.reduced_mul1
  have hbb : ∀ a : Fe, (Fe.sqr1 a).Reduced := fun a => Fe.reduced_mul1 a a
  have he : ∀ a b : Fe, (Fe.sub (Fe.sqr1 a) (Fe.sqr1 b)).Reduced := by
    intro a b
    have hb := hbb b
    unfold Fe.Reduced at hb
    exact Fe.reduced_sub _ _ (by omega)
  unfold Xs.pair ladderPart1 ladderPart2
  simp only [Fe.el_add, Fe.el_sub K hz2, Fe.el_sub K hz3, Fe.el_sub K (hbc _ _),
    Fe.el_sub K (hbb _), Fe.el_sub K (he _ _), Fe.el_mul1, Fe.el_sqr1, Fe.el_mul K _ ha24,
    value_a24]
  simp only [Montgomery.Pair.step, Montgomery.Pair.mk.injEq]
  push_cast
  exact ⟨by ring, by ring, trivial, by ring⟩

/-- The mask of ones, or of zeros. -/
def mask (b : Bool) : Limb := if b then BitVec.allOnes 32 else 0

theorem mask_xor (a b : Bool) : mask a ^^^ mask b = mask (a ^^ b) := by
  cases a <;> cases b <;> decide

theorem condswapFe_mask (a b : Fe) (c : Bool) :
    condswapFe a b (mask c) = if c then (b, a) else (a, b) := by
  have hones : ∀ x y : Limb, x ^^^ ((x ^^^ y) &&& BitVec.allOnes 32) = y := by
    intro x y
    rw [BitVec.and_allOnes, ← BitVec.xor_assoc, BitVec.xor_self, BitVec.zero_xor]
  have hones' : ∀ x y : Limb, y ^^^ ((x ^^^ y) &&& BitVec.allOnes 32) = x := by
    intro x y
    rw [BitVec.xor_comm x y, hones]
  have hzero : ∀ x z : Limb, z ^^^ (x &&& 0) = z := by
    intro x z
    exact (congrArg (z ^^^ ·) BitVec.and_zero).trans BitVec.xor_zero
  cases c
  · refine Prod.ext (List.Vector.ext fun i => ?_) (List.Vector.ext fun i => ?_)
    · exact (List.Vector.get_ofFn _ i).trans (hzero _ _)
    · exact (List.Vector.get_ofFn _ i).trans (hzero _ _)
  · refine Prod.ext (List.Vector.ext fun i => ?_) (List.Vector.ext fun i => ?_)
    · exact (List.Vector.get_ofFn _ i).trans (hones _ _)
    · exact (List.Vector.get_ofFn _ i).trans (hones' _ _)

omit [CharP K prime25519] in
theorem pair_condswap (xs : Xs) (c : Bool) :
    (condswap xs (mask c)).pair K = (xs.pair K).swap c := by
  unfold condswap
  rw [condswapFe_mask, condswapFe_mask]
  cases c <;> rfl

omit [Field K] [CharP K prime25519] in
theorem Xs.Tidy.condswap {xs : Xs} (h : xs.Tidy) (c : Bool) : (condswap xs (mask c)).Tidy := by
  unfold Refc.condswap
  rw [condswapFe_mask, condswapFe_mask]
  cases c
  · exact h
  · exact ⟨h.2, h.1⟩

/-- The scalar `x25519` works with. -/
def effectiveScalar (scalar : Key) (clamp : Bool) : Key :=
  if clamp then Crypto.clamp scalar else scalar

omit [Field K] [CharP K prime25519] in
theorem scalarByte_eq (scalar : Key) (clamp : Bool) {i : Nat} (hi : i < 32) :
    scalarByte scalar clamp i = (effectiveScalar scalar clamp).toList.getD i 0 := by
  have hget : ∀ k : Key, k.toList.getD i 0 = k.get ⟨i, hi⟩ := by
    intro k
    rw [List.getD_eq_getElem _ _ (by rw [k.toList_length]; exact hi)]
    exact (List.Vector.get_eq_get_toList k ⟨i, hi⟩).symm
  cases clamp with
  | false => rfl
  | true =>
      show (if i = 0 then _ else _) = (Crypto.clamp scalar).toList.getD i 0
      rw [hget, hget]
      unfold Crypto.clamp
      rw [List.Vector.get_ofFn]
      have h0 : (⟨i, hi⟩ : Fin 32) = 0 ↔ i = 0 := Fin.ext_iff
      have h31 : (⟨i, hi⟩ : Fin 32) = 31 ↔ i = 31 := Fin.ext_iff
      simp only [h0, h31]
      rfl

/-- The bits of the scalar in the order of the loop. -/
def scalarBits (scalar : Key) (clamp : Bool) : List Bool :=
  (List.range 256).reverse.map (value (effectiveScalar scalar clamp).toList).testBit

omit [Field K] [CharP K prime25519] in
/-- The mask of a turn is made from the bit of the turn. -/
theorem mask_bit (scalar : Key) (clamp : Bool) {i : Nat} (hi : i < 256) :
    -((scalarByte scalar clamp (i / 8) >>> (i % 8)) &&& 1).setWidth 32
      = mask ((value (effectiveScalar scalar clamp).toList).testBit i) := by
  rw [testBit_value (by decide), scalarByte_eq scalar clamp (by omega)]
  have hbit : ∀ (b : Byte) (n : Nat), (b >>> n) &&& 1 = BitVec.ofNat 8 (b.getLsbD n).toNat := by
    intro b n
    refine BitVec.eq_of_toNat_eq ?_
    have hone : (1 : Byte).toNat = 2 ^ 1 - 1 := rfl
    rw [BitVec.toNat_and, hone, Nat.and_two_pow_sub_one_eq_mod, BitVec.toNat_ushiftRight,
      BitVec.toNat_ofNat]
    show _ = (b.toNat.testBit n).toNat % 2 ^ 8
    rw [Nat.toNat_testBit, Nat.shiftRight_eq_div_pow]
    omega
  rw [hbit]
  generalize ((effectiveScalar scalar clamp).toList.getD (i / 8) 0).getLsbD (i % 8) = b
  cases b <;> decide

/-- The states of the loop and of the ladder. -/
structure Follows (s : Xs × Limb) (l : Montgomery.Pair K × Bool) : Prop where
  pair : s.1.pair K = l.1
  tidy : s.1.Tidy
  swap : s.2 = mask l.2

theorem Follows.turn {scalar : Key} {clamp : Bool} {x1 : Fe} {s : Xs × Limb}
    {l : Montgomery.Pair K × Bool} (h : Follows K s l) {i : Nat} (hi : i < 256) :
    Follows K (coreTurn scalar clamp x1 s i)
      ((l.1.swap (l.2 ^^ (value (effectiveScalar scalar clamp).toList).testBit i)).step 121665
        (x1.el K), (value (effectiveScalar scalar clamp).toList).testBit i) := by
  unfold coreTurn
  dsimp only
  rw [mask_bit scalar clamp hi, h.swap, mask_xor]
  have htidy := h.tidy.condswap
    (l.2 ^^ (value (effectiveScalar scalar clamp).toList).testBit i)
  obtain ⟨hpair, hnext⟩ := ladder_parts K htidy x1
  refine ⟨?_, hnext, rfl⟩
  rw [hpair, pair_condswap, h.pair]

theorem Follows.turns (scalar : Key) (clamp : Bool) (x1 : Fe) (is : List Nat)
    (his : ∀ i ∈ is, i < 256) {s : Xs × Limb} {l : Montgomery.Pair K × Bool}
    (h : Follows K s l) :
    Follows K (is.foldl (coreTurn scalar clamp x1) s)
      ((is.map (value (effectiveScalar scalar clamp).toList).testBit).foldl
        (fun l b => ((l.1.swap (l.2 ^^ b)).step 121665 (x1.el K), b)) l) := by
  induction is generalizing s l with
  | nil => exact h
  | cons i is ih =>
      exact ih (fun j hj => his j (List.mem_cons_of_mem i hj)) (h.turn K (his i List.mem_cons_self))

omit [CharP K prime25519] in
theorem el_small (v : Limb) : (Fe.small v).el K = v.toNat := by
  have hnum : (Fe.small v).num = v.toNat := by
    simp [Fe.small, Fe.num, List.Vector.toList]
  unfold Fe.el
  rw [hnum]

/-- **The loop ends with the fractions of the ladder.** -/
theorem core_pair (xs : Xs) (scalar x1 : Key) (clamp : Bool) :
    (x25519Core xs scalar x1 clamp).pair K
      = Montgomery.ladderResult 121665 ((swapin x1).el K) (scalarBits scalar clamp) := by
  have hone : (Fe.small 1).el K = 1 := (el_small K 1).trans Nat.cast_one
  have hzero : (Fe.small 0).el K = 0 := (el_small K 0).trans Nat.cast_zero
  have hstart : Follows K
      (⟨Fe.small 1, Fe.small 0, swapin x1, Fe.small 1, xs.t1⟩, (0 : Limb))
      ((⟨1, 0, (swapin x1).el K, 1⟩ : Montgomery.Pair K), false) := by
    refine ⟨?_, ⟨?_, ?_⟩, rfl⟩
    · show (⟨_, _, _, _⟩ : Montgomery.Pair K) = _
      rw [hone, hzero]
    · show (Fe.small 0).num < _
      decide
    · show (Fe.small 1).num < _
      decide
  have hloop := Follows.turns K scalar clamp (swapin x1)
    (List.range 256).reverse (fun i hi => by simpa using hi) hstart
  unfold x25519Core
  dsimp only
  rw [hloop.swap, pair_condswap, hloop.pair]
  rfl

/-! ### The inversion -/

theorem squarings_spec (a : Fin 5) (n : Nat) (s : Xs × Fin 5) :
    ∃ v : Fe, squarings a (n + 1) s = (s.1.set a v, a) ∧
      v.el K = (s.1.get s.2).el K ^ 2 ^ (n + 1) := by
  induction n generalizing s with
  | zero =>
      refine ⟨Fe.sqr (s.1.get s.2), rfl, ?_⟩
      rw [Fe.el_sqr, Nat.zero_add, pow_one]
  | succ n ih =>
      obtain ⟨v, hv, hel⟩ := ih (s.1.set a (Fe.sqr (s.1.get s.2)), a)
      refine ⟨v, ?_, ?_⟩
      · show squarings a (n + 1) (s.1.set a (Fe.sqr (s.1.get s.2)), a) = _
        rw [hv, Xs.set_set]
      · rw [hel, Xs.get_set_same, Fe.el_sqr, ← pow_mul, ← pow_succ']

/-- The powers of one element that the variables of the chain hold, where they are known. -/
def powerExp (s : (Fin 5 → Option Nat) × Fin 5) (step : PowerStep) :
    (Fin 5 → Option Nat) × Fin 5 :=
  (Function.update s.1 step.a (do
    let m ← s.1 s.2
    let k ← s.1 step.c
    some (m * 2 ^ step.n + k)), step.a)

/-- An entry that squares at least once, and not into what it multiplies by. -/
def PowerStep.Proper (step : PowerStep) : Prop := step.a ≠ step.c ∧ 0 < step.n ∧ step.a ≠ 0

instance (step : PowerStep) : Decidable step.Proper :=
  inferInstanceAs (Decidable (_ ∧ _ ∧ _))

/-- The variables hold the powers of `z` that `e` tells. -/
structure Powers (z : K) (s : Xs × Fin 5) (e : (Fin 5 → Option Nat) × Fin 5) : Prop where
  power : ∀ i k, e.1 i = some k → (s.1.get i).el K = z ^ k
  prev : s.2 = e.2

theorem Powers.turn {z : K} {s : Xs × Fin 5} {e : (Fin 5 → Option Nat) × Fin 5}
    (h : Powers K z s e) {step : PowerStep} (hstep : step.Proper) :
    Powers K z (powerTurn s step) (powerExp e step) ∧ (powerTurn s step).1.x2 = s.1.x2 := by
  obtain ⟨hne, hn, ha⟩ := hstep
  obtain ⟨n, hn⟩ := Nat.exists_eq_succ_of_ne_zero (Nat.ne_of_gt hn)
  obtain ⟨v, hv, hel⟩ := squarings_spec K step.a n s
  have hturn : powerTurn s step
      = (s.1.set step.a (Fe.mul1 v (s.1.get step.c)), step.a) := by
    have hsquares : squarings step.a step.n s = (s.1.set step.a v, step.a) := by
      rw [hn]
      exact hv
    unfold powerTurn
    rw [hsquares]
    dsimp only
    rw [Xs.get_set_same, Xs.get_set_ne _ hne, Xs.set_set]
  rw [hturn]
  refine ⟨⟨?_, rfl⟩, Xs.get_set_ne _ ha _⟩
  intro i k hk
  unfold powerExp at hk
  dsimp only at hk ⊢
  by_cases hi : i = step.a
  · subst hi
    rw [Function.update_self] at hk
    rw [Xs.get_set_same, Fe.el_mul1, hel]
    cases hm : e.1 e.2 with
    | none =>
        rw [hm] at hk
        cases hk
    | some m =>
        cases hc : e.1 step.c with
        | none =>
            rw [hm, hc] at hk
            cases hk
        | some l =>
            rw [hm, hc] at hk
            obtain rfl : m * 2 ^ step.n + l = k := Option.some.inj hk
            rw [h.prev, h.power e.2 m hm, h.power step.c l hc, ← pow_mul, ← pow_add, hn]
  · rw [Function.update_of_ne hi] at hk
    rw [Xs.get_set_ne _ (Ne.symm hi)]
    exact h.power i k hk

theorem Powers.turns {z : K} (is : List PowerStep) (his : ∀ step ∈ is, step.Proper)
    {s : Xs × Fin 5} {e : (Fin 5 → Option Nat) × Fin 5} (h : Powers K z s e) :
    Powers K z (is.foldl powerTurn s) (is.foldl powerExp e) ∧
      (is.foldl powerTurn s).1.x2 = s.1.x2 := by
  induction is generalizing s e with
  | nil => exact ⟨h, rfl⟩
  | cons step is ih =>
      obtain ⟨hnext, hx2⟩ := h.turn K (his step List.mem_cons_self)
      obtain ⟨hlast, hrest⟩ := ih (fun t ht => his t (List.mem_cons_of_mem step ht)) hnext
      exact ⟨hlast, hrest.trans hx2⟩

/-- The chain leaves the power `p - 2` of the denominator, and the numerator as it was. -/
theorem chain_power (xs : Xs) :
    (steps.foldl powerTurn (xs, 1)).1.z3.el K = xs.z2.el K ^ (prime25519 - 2) ∧
      (steps.foldl powerTurn (xs, 1)).1.x2 = xs.x2 := by
  have hstart : Powers K (xs.z2.el K) (xs, 1) (fun i => if i = 1 then some 1 else none, 1) := by
    refine ⟨?_, rfl⟩
    intro i k hk
    dsimp only at hk ⊢
    split at hk
    · rename_i hi
      cases hk
      rw [hi, pow_one]
      rfl
    · cases hk
  obtain ⟨hpowers, hx2⟩ := hstart.turns K steps (by decide)
  exact ⟨hpowers.power 3 (prime25519 - 2) (by decide +kernel), hx2⟩

/-- Fermat's little theorem, for the elements that stand for numbers. -/
theorem pow_eq_inv (n : Nat) : (n : K) ^ (prime25519 - 2) = (n : K)⁻¹ := by
  by_cases hn : (n : K) = 0
  · rw [hn, inv_zero]
    exact zero_pow (by decide)
  · have hz : (n : ZMod prime25519) ≠ 0 := by
      intro hc
      refine hn ?_
      rw [← map_natCast (ZMod.castHom dvd_rfl K) n, hc, map_zero]
    have hfermat := congrArg (ZMod.castHom dvd_rfl K) (ZMod.pow_card_sub_one_eq_one hz)
    rw [map_pow, map_natCast, map_one] at hfermat
    refine eq_inv_of_mul_eq_one_left ?_
    rw [← pow_succ]
    exact hfermat

/-- **The chain divides.** -/
theorem el_divide (xs : Xs) : (divide xs).el K = xs.x2.el K / xs.z2.el K := by
  obtain ⟨hz3, hx2⟩ := chain_power K xs
  unfold divide
  dsimp only
  rw [Fe.el_mul1, hz3, hx2, div_eq_mul_inv]
  exact congrArg _ (pow_eq_inv K xs.z2.num)

end

theorem reduced_divide (xs : Xs) : (divide xs).Reduced := Fe.reduced_mul1 _ _

end Refc

end NuttxWireguard
