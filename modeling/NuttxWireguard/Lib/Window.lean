/-
A sliding window of accepted numbers, kept as a bitmap.

The reference is a set: a number is accepted when it was not accepted before and
lies less than `size` behind the greatest accepted one.  The implementation keeps
one number and one bitmap: `top`, one past the greatest accepted number, and the
bit `i`, which stands for the number `top - 1 - i`.

`Tracks` is the relation between the two.  It is kept by the three things such an
implementation does: move the window up by less than its size, which shifts the
bitmap; move it further, which clears it; and mark a number inside it.
-/
import Mathlib.Data.BitVec
import Mathlib.Data.List.Basic
import Mathlib.Logic.Function.Basic
import Mathlib.Tactic.Ring

namespace Lib.Window

variable {n : Nat}

/-! ### The reference -/

/-- The set-based verdict: new, and less than `size` behind everything accepted. -/
def Accepts (size : Nat) (seen : List Nat) (c : Nat) : Prop :=
  c ∉ seen ∧ ∀ g ∈ seen, g < c + size

instance (size : Nat) (seen : List Nat) (c : Nat) : Decidable (Accepts size seen c) := by
  unfold Accepts; infer_instance

/-! ### The bitmap -/

/-- A bitmap of `n` words. -/
abbrev Bitmap (n : Nat) := Fin n → BitVec 64

/-- Bit `i` of the window lies in word `i / 64`. -/
def bit (b : Bitmap n) (i : Nat) : Bool :=
  if h : i / 64 < n then (b ⟨i / 64, h⟩).getLsbD (i % 64) else false

/-- Word `i` of the bitmap moved up by `ws` words and `bs` bits. -/
def shiftedWord (b : Bitmap n) (ws bs : Nat) (i : Fin n) : BitVec 64 :=
  if ws ≤ i then
    let v := b ⟨i - ws, by omega⟩ <<< bs
    if bs ≠ 0 ∧ ws < i then v ||| b ⟨i - ws - 1, by omega⟩ >>> (64 - bs) else v
  else 0

/-- Word `i` with bit `k` set. -/
def markBit (b : Bitmap n) (i k : Nat) : Bitmap n :=
  fun j => if (j : Nat) = i then b j ||| (1#64 <<< k) else b j

@[simp] theorem bit_zero (i : Nat) : bit (fun _ => 0#64 : Bitmap n) i = false := by
  unfold bit
  by_cases h : i / 64 < n
  · rw [dif_pos h]; simp
  · rw [dif_neg h]

theorem getLsbD_one_shiftLeft (k j : Nat) (hj : j < 64) :
    (1#64 <<< k).getLsbD j = decide (j = k) := by
  rw [BitVec.getLsbD_shiftLeft]
  by_cases hjk : j = k
  · subst hjk; simp [hj]
  · by_cases hlt : j < k
    · simp [hlt, hjk]
    · have hne : j - k ≠ 0 := by omega
      have hbit : (1#64).getLsbD (j - k) = false := by
        rw [BitVec.getLsbD_one]; simp; omega
      simp [hjk, hbit]

/-- Marking bit `d` of the window changes that bit only. -/
theorem bit_markBit (b : Bitmap n) {d : Nat} (hd : d < 64 * n) (i : Nat) :
    bit (markBit b (d / 64) (d % 64)) i = (decide (i = d) || bit b i) := by
  unfold bit markBit
  by_cases h : i / 64 < n
  · rw [dif_pos h, dif_pos h]
    by_cases hw : i / 64 = d / 64
    · rw [if_pos (by simpa using hw), BitVec.getLsbD_or, getLsbD_one_shiftLeft _ _ (by omega),
        Bool.or_comm]
      congr 1
      simp only [decide_eq_decide]
      omega
    · rw [if_neg (by simpa using hw)]
      have hne : i ≠ d := fun hc => hw (by rw [hc])
      simp [hne]
  · rw [dif_neg h, dif_neg h]
    have hne : i ≠ d := by omega
    simp [hne]

/-- **Moving the bitmap up by `d` places** sends bit `i - d` to bit `i`. -/
theorem bit_shiftedWord (b : Bitmap n) (d : Nat) {i : Nat} (hi : i < 64 * n) :
    bit (shiftedWord b (d / 64) (d % 64)) i = (decide (d ≤ i) && bit b (i - d)) := by
  have hin : i / 64 < n := by omega
  unfold bit
  rw [dif_pos hin, dif_pos (by omega : (i - d) / 64 < n)]
  unfold shiftedWord
  by_cases hws : d / 64 ≤ i / 64
  · simp only [if_pos hws]
    by_cases hlow : d % 64 ≤ i % 64
    · -- the bit comes from the word itself
      have hword : i / 64 - d / 64 = (i - d) / 64 := by omega
      have hbit : i % 64 - d % 64 = (i - d) % 64 := by omega
      have hfrom : (b ⟨i / 64 - d / 64, by omega⟩ <<< (d % 64)).getLsbD (i % 64)
          = (b ⟨(i - d) / 64, by omega⟩).getLsbD ((i - d) % 64) := by
        rw [BitVec.getLsbD_shiftLeft]
        simp [hword, hbit, Nat.not_lt.mpr hlow, show i % 64 < 64 by omega]
      by_cases hc : d % 64 ≠ 0 ∧ d / 64 < i / 64
      · rw [if_pos hc, BitVec.getLsbD_or, hfrom, BitVec.getLsbD_ushiftRight,
          BitVec.getLsbD_of_ge _ (64 - d % 64 + i % 64) (by omega)]
        simp [show d ≤ i by omega]
      · rw [if_neg hc, hfrom]
        simp [show d ≤ i by omega]
    · -- the bit is carried over from the word below, if there is one
      have hself : (b ⟨i / 64 - d / 64, by omega⟩ <<< (d % 64)).getLsbD (i % 64) = false := by
        rw [BitVec.getLsbD_shiftLeft]
        simp [show i % 64 < d % 64 by omega]
      by_cases hc : d % 64 ≠ 0 ∧ d / 64 < i / 64
      · have hword : i / 64 - d / 64 - 1 = (i - d) / 64 := by omega
        have hbit : 64 - d % 64 + i % 64 = (i - d) % 64 := by omega
        rw [if_pos hc, BitVec.getLsbD_or, hself, BitVec.getLsbD_ushiftRight]
        simp [hword, hbit, show d ≤ i by omega]
      · rw [if_neg hc, hself]
        simp [show ¬d ≤ i by omega]
  · simp only [if_neg hws]
    simp [show ¬d ≤ i by omega]

/-! ### What the bitmap tracks -/

/-- The bitmap and `top` stand for the numbers `seen`. -/
structure Tracks (b : Bitmap n) (top : Nat) (seen : List Nat) : Prop where
  /-- Everything accepted lies below `top`. -/
  below : ∀ c ∈ seen, c < top
  /-- `top` is one past an accepted number. -/
  attained : top = 0 ∨ top - 1 ∈ seen
  /-- Bit `i` says whether the number `i` places below the greatest was accepted. -/
  bits : ∀ i, i < 64 * n → (bit b i = true ↔ ∃ c ∈ seen, c + 1 + i = top)

theorem tracks_nil : Tracks (fun _ => 0 : Bitmap n) 0 [] where
  below := by simp
  attained := Or.inl rfl
  bits := by simp

/-- The reference accepts everything at or past `top`. -/
theorem Tracks.accepts_of_ge {b : Bitmap n} {top : Nat} {seen : List Nat} {size c : Nat}
    (h : Tracks b top seen) (hc : top ≤ c) (hs : 0 < size) : Accepts size seen c :=
  ⟨fun hmem => absurd (h.below c hmem) (by omega), fun g hg => by have := h.below g hg; omega⟩

/-- Inside the window the reference accepts exactly the numbers whose bit is clear. -/
theorem Tracks.accepts_iff_bit {b : Bitmap n} {top : Nat} {seen : List Nat} {c : Nat}
    (h : Tracks b top seen) (hc : c < top) (hw : top - (c + 1) < 64 * n) :
    Accepts (64 * n) seen c ↔ bit b (top - (c + 1)) = false := by
  rw [← Bool.not_eq_true, h.bits _ hw]
  constructor
  · rintro ⟨hnew, -⟩ ⟨c', hc', heq⟩
    exact hnew ((by omega : c' = c) ▸ hc')
  · intro hno
    refine ⟨fun hmem => hno ⟨c, hmem, by omega⟩, fun g hg => ?_⟩
    have := h.below g hg
    omega

/-- Behind the window the reference accepts nothing. -/
theorem Tracks.not_accepts_of_old {b : Bitmap n} {top : Nat} {seen : List Nat} {c : Nat}
    (h : Tracks b top seen) (hw : 64 * n ≤ top - (c + 1)) (hn : 0 < n) :
    ¬Accepts (64 * n) seen c := by
  rintro ⟨-, hall⟩
  rcases h.attained with h0 | hmem
  · omega
  · have := hall _ hmem
    omega

/-! ### What the implementation does to it -/

/-- Moving up by less than the window: shift, then mark the new number. -/
theorem Tracks.shift {b : Bitmap n} {top : Nat} {seen : List Nat} {c : Nat}
    (h : Tracks b top seen) (hc : top ≤ c) (hw : c + 1 - top < 64 * n) :
    Tracks (markBit (shiftedWord b ((c + 1 - top) / 64) ((c + 1 - top) % 64)) 0 0) (c + 1)
      (c :: seen) where
  below := by
    intro c' hmem
    rcases List.mem_cons.mp hmem with rfl | hmem
    · omega
    · have := h.below c' hmem; omega
  attained := Or.inr (by simp)
  bits := by
    intro i hi
    have hmark := bit_markBit (shiftedWord b ((c + 1 - top) / 64) ((c + 1 - top) % 64))
      (show 0 < 64 * n by omega) i
    rw [Nat.zero_div, Nat.zero_mod] at hmark
    rw [hmark, bit_shiftedWord _ _ hi]
    simp only [Bool.or_eq_true, decide_eq_true_eq, Bool.and_eq_true, List.mem_cons,
      exists_eq_or_imp]
    constructor
    · rintro (h0 | ⟨hd, hb⟩)
      · exact Or.inl (by omega)
      · obtain ⟨c', hc', heq⟩ := (h.bits _ (by omega)).mp hb
        exact Or.inr ⟨c', hc', by omega⟩
    · rintro (h0 | ⟨c', hc', heq⟩)
      · exact Or.inl (by omega)
      · have := h.below c' hc'
        exact Or.inr ⟨by omega, (h.bits _ (by omega)).mpr ⟨c', hc', by omega⟩⟩

/-- Moving up by the window or more: clear, then mark the new number. -/
theorem Tracks.clear {b b' : Bitmap n} {top : Nat} {seen : List Nat} {c : Nat}
    (h : Tracks b top seen) (hc : top ≤ c) (hw : 64 * n ≤ c + 1 - top)
    (hb : ∀ i, i < 64 * n → (bit b' i = true ↔ i = 0)) :
    Tracks b' (c + 1) (c :: seen) where
  below := by
    intro c' hmem
    rcases List.mem_cons.mp hmem with rfl | hmem
    · omega
    · have := h.below c' hmem; omega
  attained := Or.inr (by simp)
  bits := by
    intro i hi
    rw [hb i hi]
    simp only [List.mem_cons, exists_eq_or_imp]
    constructor
    · intro h0
      exact Or.inl (by omega)
    · rintro (h0 | ⟨c', hc', heq⟩)
      · omega
      · have := h.below c' hc'
        omega

/-- Marking a number inside the window. -/
theorem Tracks.mark {b : Bitmap n} {top : Nat} {seen : List Nat} {c : Nat}
    (h : Tracks b top seen) (hc : c < top) (hw : top - (c + 1) < 64 * n) :
    Tracks (markBit b ((top - (c + 1)) / 64) ((top - (c + 1)) % 64)) top (c :: seen) where
  below := by
    intro c' hmem
    rcases List.mem_cons.mp hmem with rfl | hmem
    · exact hc
    · exact h.below c' hmem
  attained := h.attained.imp_right (List.mem_cons_of_mem _)
  bits := by
    intro i hi
    rw [bit_markBit _ hw]
    simp only [Bool.or_eq_true, decide_eq_true_eq, List.mem_cons, exists_eq_or_imp]
    rw [h.bits i hi]
    exact or_congr_left (by omega)

end Lib.Window
