/-
Numbers as lists of machine words.

A multi-word number is a list of words, the least significant first, and `value` is the number.
Arithmetic on it is a loop that hands a carry from one word to the next; `chain` is that loop,
for any step and any type of carry.  `chain_value` is the one fact about it: if every step
splits what comes in, its carry included, into a word and a carry worth a word more, then the
loop splits the sum of what comes in into the words and the last carry.  Additions with a
carry, subtractions with a borrow and the rows of a long multiplication are all of this kind.
-/
import Mathlib.Data.Nat.Digits.Lemmas
import Mathlib.Tactic.LinearCombination
import NuttxWireguard.Lib.Bytes

namespace Lib

namespace Limbs

variable {w : Nat}

/-- The number the words spell, the least significant word first. -/
def value (xs : List (BitVec w)) : Nat := Nat.ofDigits (2 ^ w) (xs.map BitVec.toNat)

@[simp] theorem value_nil : value ([] : List (BitVec w)) = 0 := rfl

@[simp] theorem value_cons (x : BitVec w) (xs : List (BitVec w)) :
    value (x :: xs) = x.toNat + 2 ^ w * value xs := Nat.ofDigits_cons

theorem digits_lt (xs : List (BitVec w)) : ∀ d ∈ xs.map BitVec.toNat, d < 2 ^ w := by
  intro d hd
  obtain ⟨x, -, rfl⟩ := List.mem_map.mp hd
  exact x.isLt

theorem value_append (xs ys : List (BitVec w)) :
    value (xs ++ ys) = value xs + 2 ^ (w * xs.length) * value ys := by
  unfold value
  rw [List.map_append, Nat.ofDigits_append, List.length_map, pow_mul]

theorem value_lt (xs : List (BitVec w)) : value xs < 2 ^ (w * xs.length) := by
  induction xs with
  | nil => simp
  | cons x xs ih =>
      rw [value_cons, List.length_cons, Nat.mul_succ, Nat.add_comm (w * xs.length), pow_add]
      have hx := x.isLt
      calc x.toNat + 2 ^ w * value xs
          < 2 ^ w + 2 ^ w * value xs := by omega
        _ = 2 ^ w * (value xs + 1) := by ring
        _ ≤ 2 ^ w * 2 ^ (w * xs.length) := Nat.mul_le_mul_left _ ih

@[simp] theorem value_replicate_zero (n : Nat) : value (List.replicate n (0 : BitVec w)) = 0 := by
  unfold value
  rw [List.map_replicate]
  exact Nat.ofDigits_replicate_zero

theorem value_take (xs : List (BitVec w)) (n : Nat) :
    value (xs.take n) = value xs % 2 ^ (w * n) := by
  unfold value
  rw [List.map_take, pow_mul,
    Nat.ofDigits_mod_pow_eq_ofDigits_take n (Nat.two_pow_pos w) _ (digits_lt xs)]

theorem value_drop (xs : List (BitVec w)) (n : Nat) :
    value (xs.drop n) = value xs / 2 ^ (w * n) := by
  unfold value
  rw [List.map_drop, pow_mul,
    Nat.ofDigits_div_pow_eq_ofDigits_drop n (Nat.two_pow_pos w) _ (digits_lt xs)]

/-- Numbers of one length are equal only if their words are. -/
theorem value_inj {xs ys : List (BitVec w)} (hlen : xs.length = ys.length)
    (h : value xs = value ys) : xs = ys := by
  induction xs generalizing ys with
  | nil => exact (List.length_eq_zero_iff.mp hlen.symm).symm
  | cons x xs ih =>
      cases ys with
      | nil => simp at hlen
      | cons y ys =>
          rw [value_cons, value_cons] at h
          have hmod := congrArg (· % 2 ^ w) h
          simp only [Nat.add_mul_mod_self_left, Nat.mod_eq_of_lt x.isLt,
            Nat.mod_eq_of_lt y.isLt] at hmod
          have hvalue : value xs = value ys := by
            rw [hmod] at h
            exact Nat.eq_of_mul_eq_mul_left (Nat.two_pow_pos w) (Nat.add_left_cancel h)
          rw [BitVec.eq_of_toNat_eq hmod, ih (Nat.succ.inj hlen) hvalue]

theorem value_set (xs : List (BitVec w)) (i : Nat) (v : BitVec w) (h : i < xs.length) :
    value (xs.set i v) + 2 ^ (w * i) * (xs[i]).toNat
      = value xs + 2 ^ (w * i) * v.toNat := by
  induction xs generalizing i with
  | nil => simp at h
  | cons x xs ih =>
      cases i with
      | zero =>
          rw [List.set_cons_zero, value_cons, value_cons]
          simp only [Nat.mul_zero, pow_zero, List.getElem_cons_zero, Nat.one_mul]
          omega
      | succ i =>
          have hi : i < xs.length := by simpa using h
          have hrec := ih i hi
          rw [List.set_cons_succ, value_cons, value_cons, List.getElem_cons_succ, Nat.mul_succ,
            Nat.add_comm (w * i), pow_add]
          calc x.toNat + 2 ^ w * value (xs.set i v) + 2 ^ w * 2 ^ (w * i) * (xs[i]).toNat
              = x.toNat + 2 ^ w * (value (xs.set i v) + 2 ^ (w * i) * (xs[i]).toNat) := by ring
            _ = x.toNat + 2 ^ w * value xs + 2 ^ w * 2 ^ (w * i) * v.toNat := by rw [hrec]; ring

/-! ### Bytes -/

theorem toNat_readLe (n : Nat) (l : List Byte) (h : 8 * l.length ≤ n) :
    (readLe n l).toNat = value l := by
  induction l with
  | nil => simp [readLe]
  | cons b l ih =>
      rw [List.length_cons] at h
      have hlow := ih (by omega)
      have hbyte : b.toNat < 2 ^ n := b.isLt.trans_le (Nat.pow_le_pow_right two_pos (by omega))
      have hlt : value l * 2 ^ 8 < 2 ^ n := by
        have hv := value_lt l
        calc value l * 2 ^ 8 < 2 ^ (8 * l.length) * 2 ^ 8 := by omega
          _ = 2 ^ (8 * l.length + 8) := (pow_add _ _ _).symm
          _ ≤ 2 ^ n := Nat.pow_le_pow_right two_pos (by omega)
      show ((readLe n l <<< 8) ||| b.setWidth n).toNat = _
      rw [BitVec.toNat_or, BitVec.toNat_shiftLeft, hlow, BitVec.toNat_setWidth,
        Nat.mod_eq_of_lt hbyte, Nat.shiftLeft_eq, Nat.mod_eq_of_lt hlt, ← Nat.shiftLeft_eq,
        ← Nat.shiftLeft_add_eq_or_of_lt b.isLt, Nat.shiftLeft_eq, value_cons]
      ring

theorem value_writeLe (n : Nat) : ∀ {m : Nat} (v : BitVec m),
    value (writeLe n v).toList = v.toNat % 2 ^ (8 * n) := by
  induction n with
  | zero => intro m v; simp [writeLe, Nat.mod_one]
  | succ n ih =>
      intro m v
      rw [writeLe_succ, value_cons, ih, BitVec.toNat_setWidth, BitVec.toNat_ushiftRight,
        Nat.shiftRight_eq_div_pow, Nat.mul_succ, Nat.add_comm (8 * n), pow_add, Nat.mod_mul]

theorem toList_slice {l : List Byte} {off n : Nat} (h : off + n ≤ l.length) :
    (slice l off n).toList = (l.drop off).take n := by
  refine List.ext_getElem (by simp; omega) fun i hi _ => ?_
  rw [List.Vector.toList_length] at hi
  have hget : off + i < l.length := by omega
  simp only [slice, List.Vector.toList_ofFn, List.getElem_ofFn, List.getD_eq_getElem _ _ hget,
    List.getElem_take, List.getElem_drop]

/-- Words that are read from bytes spell what the bytes spell. -/
theorem value_ofFn_readLe {k : Nat} (hw : w = 8 * k) (n : Nat) {l : List Byte}
    (h : l.length = k * n) :
    value (List.ofFn fun i : Fin n => readLe w (slice l (k * i) k).toList) = value l := by
  induction n generalizing l with
  | zero =>
      obtain rfl : l = [] := List.length_eq_zero_iff.mp (by rw [h, Nat.mul_zero])
      rfl
  | succ n ih =>
      rw [Nat.mul_succ] at h
      have hrest : ∀ i : Fin n, slice l (k * i.succ) k = slice (l.drop k) (k * i) k := by
        intro i
        unfold slice
        congr 1
        funext j
        rw [List.getD_eq_getElem?_getD, List.getD_eq_getElem?_getD, List.getElem?_drop,
          Fin.val_succ, Nat.mul_succ, Nat.add_comm k, Nat.add_assoc, Nat.add_assoc,
          Nat.add_comm k (j : Nat)]
      have hhead : (readLe w (slice l (k * (0 : Fin (n + 1))) k).toList).toNat
          = value (l.take k) := by
        have hslice : (slice l (k * (0 : Fin (n + 1))) k).toList = l.take k := by
          rw [toList_slice (by simp; omega)]
          simp
        rw [hslice, toNat_readLe _ _ (by rw [List.length_take]; omega)]
      rw [List.ofFn_succ, value_cons, hhead]
      simp only [hrest]
      rw [ih (by rw [List.length_drop]; omega)]
      conv_rhs => rw [← List.take_append_drop k l]
      rw [value_append, List.length_take, Nat.min_eq_left (by omega), ← hw]

/-- The bytes of words spell what the words spell. -/
theorem value_flatMap_writeLe {k : Nat} (hw : w = 8 * k) (xs : List (BitVec w)) :
    value (xs.flatMap fun x => (writeLe k x).toList) = value xs := by
  induction xs with
  | nil => rfl
  | cons x xs ih =>
      rw [List.flatMap_cons, value_append, ih, value_writeLe, List.Vector.toList_length, ← hw,
        Nat.mod_eq_of_lt x.isLt, value_cons]

/-- A bit of the number is a bit of one of the words. -/
theorem testBit_value (hw : 0 < w) (xs : List (BitVec w)) (i : Nat) :
    (value xs).testBit i = (xs.getD (i / w) 0).getLsbD (i % w) := by
  induction xs generalizing i with
  | nil => simp
  | cons x xs ih =>
      rw [value_cons, Nat.add_comm, Nat.testBit_two_pow_mul_add _ x.isLt]
      split
      · rename_i hi
        rw [Nat.div_eq_of_lt hi, Nat.mod_eq_of_lt hi, List.getD_cons_zero]
        rfl
      · rename_i hi
        have hle : w ≤ i := Nat.not_lt.mp hi
        have hdiv : i / w = (i - w) / w + 1 := by
          rw [Nat.div_eq_sub_div hw hle]
        rw [ih, hdiv, List.getD_cons_succ, ← Nat.mod_eq_sub_mod hle]

/-! ### Loops that carry -/

/-- A loop that makes a word of every input and hands a carry on. -/
def chain {σ α : Type} (step : σ → α → BitVec w × σ) : σ → List α → List (BitVec w) × σ
  | c, [] => ([], c)
  | c, a :: as =>
      let (x, c) := step c a
      let (xs, c) := chain step c as
      (x :: xs, c)

/-- The sum of the inputs, each at the place of its word. -/
def weigh {α : Type} (w : Nat) (f : α → Int) (as : List α) : Int :=
  as.foldr (fun a s => f a + 2 ^ w * s) 0

section

variable {σ α : Type} {step : σ → α → BitVec w × σ}

theorem length_chain (c : σ) (as : List α) : (chain step c as).1.length = as.length := by
  induction as generalizing c with
  | nil => rfl
  | cons a as ih =>
      unfold chain
      exact congrArg (· + 1) (ih _)

/-- **A loop whose steps split what comes in into a word and a carry splits the sum of what
comes in into the words and the last carry.** -/
theorem chain_value (step : σ → α → BitVec w × σ) (carried : σ → Int) (f : α → Int)
    (Small : σ → Prop) (hstep : ∀ c a, Small c →
      ((step c a).1.toNat : Int) + 2 ^ w * carried (step c a).2 = f a + carried c ∧
        Small (step c a).2)
    (as : List α) {c : σ} (hc : Small c) :
    (value (chain step c as).1 : Int) + 2 ^ (w * as.length) * carried (chain step c as).2
        = weigh w f as + carried c ∧ Small (chain step c as).2 := by
  induction as generalizing c with
  | nil =>
      refine ⟨?_, hc⟩
      simp [chain, weigh]
  | cons a as ih =>
      obtain ⟨hhead, hsmall⟩ := hstep c a hc
      obtain ⟨htail, hlast⟩ := ih hsmall
      refine ⟨?_, hlast⟩
      show (value ((step c a).1 :: (chain step (step c a).2 as).1) : Int)
          + 2 ^ (w * (as.length + 1)) * carried (chain step (step c a).2 as).2
        = f a + 2 ^ w * weigh w f as + carried c
      rw [value_cons, Nat.mul_succ, Nat.add_comm (w * as.length), pow_add]
      push_cast
      linear_combination hhead + 2 ^ w * htail

end

section

variable {α : Type}

theorem weigh_toNat (xs : List (BitVec w)) :
    weigh w (fun x : BitVec w => (x.toNat : Int)) xs = value xs := by
  induction xs with
  | nil => rfl
  | cons x xs ih =>
      rw [value_cons]
      push_cast
      rw [← ih]
      rfl

theorem weigh_add (f g : α → Int) (as : List α) :
    weigh w (fun a => f a + g a) as = weigh w f as + weigh w g as := by
  induction as with
  | nil => rfl
  | cons a as ih =>
      show f a + g a + 2 ^ w * weigh w (fun a => f a + g a) as
        = (f a + 2 ^ w * weigh w f as) + (g a + 2 ^ w * weigh w g as)
      rw [ih]
      ring

theorem weigh_mul (k : Int) (f : α → Int) (as : List α) :
    weigh w (fun a => k * f a) as = k * weigh w f as := by
  induction as with
  | nil => exact (mul_zero k).symm
  | cons a as ih =>
      show k * f a + 2 ^ w * weigh w (fun a => k * f a) as = k * (f a + 2 ^ w * weigh w f as)
      rw [ih]
      ring

theorem weigh_zip_fst {β : Type} (f : α → Int) {as : List α} {bs : List β}
    (h : as.length ≤ bs.length) : weigh w (fun p => f p.1) (as.zip bs) = weigh w f as := by
  have hmap : (as.zip bs).map Prod.fst = as := List.map_fst_zip h
  unfold weigh
  conv_rhs => rw [← hmap]
  rw [List.foldr_map]

theorem weigh_zip_snd {β : Type} (f : β → Int) {as : List α} {bs : List β}
    (h : bs.length ≤ as.length) : weigh w (fun p => f p.2) (as.zip bs) = weigh w f bs := by
  have hmap : (as.zip bs).map Prod.snd = bs := List.map_snd_zip h
  unfold weigh
  conv_rhs => rw [← hmap]
  rw [List.foldr_map]

end

end Limbs

end Lib
