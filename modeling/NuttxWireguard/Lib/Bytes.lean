/-
Byte strings.

A byte array of the programs is a list of bytes; one whose size the type fixes is a
`Bytes n`, so a key of the wrong length cannot be written down.  Four facts are
needed of them.

  * A field read back from the place it was written to is the field.
  * A little-endian word read back from its bytes is the word.
  * `memcmp` on strings of one length orders them as the big-endian numbers they
    spell, which is what lets a caller compare timestamps with it.
  * The bytes of a word, most significant first, spell the word.
-/
import Mathlib.Data.List.GetD
import Mathlib.Data.Vector.Basic
import Mathlib.Tactic.Ring

namespace Lib

/-- One byte. -/
abbrev Byte := BitVec 8

/-- A byte array of `n` bytes. -/
abbrev Bytes (n : Nat) := List.Vector Byte n

/-- `memset` to zero. -/
def Bytes.zero (n : Nat) : Bytes n := List.Vector.replicate n 0

/-! ### Fields of a byte string -/

/-- The `n` bytes at offset `off`; bytes past the end read as zero. -/
def slice (data : List Byte) (off n : Nat) : Bytes n :=
  List.Vector.ofFn fun i => data.getD (off + i) 0

/-- Write `src` over the start of `buf`. -/
def overwrite (buf src : List Byte) : List Byte := src ++ buf.drop src.length

theorem toList_ofFn_eq {n : Nat} (v : Bytes n) :
    (List.Vector.ofFn fun i : Fin n => v.toList.getD i 0) = v := by
  refine List.Vector.ext fun i => ?_
  have hi : (i : Nat) < v.toList.length := by simp
  rw [List.Vector.get_ofFn, List.getD_eq_getElem _ _ hi]
  exact (List.Vector.get_eq_get_toList v i).symm

/-- **A field is read back from where it was written.** -/
theorem slice_append {n : Nat} (a b : List Byte) (v : Bytes n) {off : Nat}
    (h : a.length = off) : slice (a ++ (v.toList ++ b)) off n = v := by
  subst h
  refine Eq.trans ?_ (toList_ofFn_eq v)
  unfold slice
  congr 1
  funext i
  have hi : (i : Nat) < v.toList.length := by simp
  rw [List.getD_append_right _ _ _ _ (Nat.le_add_right _ _), Nat.add_sub_cancel_left,
    List.getD_append _ _ _ _ hi]

theorem slice_zero_append {n : Nat} (b : List Byte) (v : Bytes n) :
    slice (v.toList ++ b) 0 n = v :=
  slice_append [] b v rfl

@[simp] theorem slice_toList {n : Nat} (v : Bytes n) : slice v.toList 0 n = v := by
  rw [← List.append_nil v.toList, slice_zero_append]

/-- A field that lies in a prefix is read from the prefix. -/
theorem slice_append_left {n off : Nat} (a b : List Byte) (h : off + n ≤ a.length) :
    slice (a ++ b) off n = slice a off n := by
  unfold slice
  congr 1
  funext i
  exact List.getD_append _ _ _ _ (by omega)

/-- A field past a prefix is read from the rest. -/
theorem slice_append_right {n off : Nat} (a b : List Byte) (h : ¬off < a.length) :
    slice (a ++ b) off n = slice b (off - a.length) n := by
  have hle : a.length ≤ off := Nat.not_lt.mp h
  unfold slice
  congr 1
  funext i
  rw [List.getD_append_right _ _ _ _ (hle.trans (Nat.le_add_right _ _)), Nat.sub_add_comm hle]

@[simp] theorem overwrite_nil (buf : List Byte) : overwrite buf [] = buf := by
  simp [overwrite]

/-! ### Little-endian words -/

/-- The word whose little-endian bytes are `l`, most significant byte read first. -/
def readLe (w : Nat) (l : List Byte) : BitVec w :=
  l.foldr (fun b v => (v <<< 8) ||| b.setWidth w) 0

/-- The low `n` bytes of a word, least significant first. -/
def writeLe {w : Nat} (n : Nat) (v : BitVec w) : Bytes n :=
  List.Vector.ofFn fun i => (v >>> (8 * (i : Nat))).setWidth 8

theorem writeLe_succ {w : Nat} (n : Nat) (v : BitVec w) :
    (writeLe (n + 1) v).toList = v.setWidth 8 :: (writeLe n (v >>> 8)).toList := by
  have h : ∀ i : Fin n, (v >>> (8 * ((i.succ : Fin (n + 1)) : Nat))).setWidth 8
      = ((v >>> 8) >>> (8 * (i : Nat))).setWidth 8 := by
    intro i
    rw [← BitVec.shiftRight_add]
    congr 2
    rw [Fin.val_succ]
    ring
  show (List.Vector.cons _ (List.Vector.ofFn _)).toList = _
  rw [List.Vector.toList_cons]
  congr 1
  unfold writeLe
  congr 2
  funext i
  exact h i

theorem readLe_writeLe_getLsbD {w : Nat} (n : Nat) :
    ∀ (v : BitVec w) (k : Nat),
      (readLe w (writeLe n v).toList).getLsbD k = (decide (k < 8 * n) && v.getLsbD k) := by
  induction n with
  | zero => intro v k; simp [readLe, writeLe]
  | succ n ih =>
      intro v k
      rw [writeLe_succ]
      show ((readLe w (writeLe n (v >>> 8)).toList <<< 8)
        ||| (v.setWidth 8).setWidth w).getLsbD k = _
      rw [BitVec.getLsbD_or, BitVec.getLsbD_shiftLeft, ih]
      by_cases hk : k < w
      · by_cases h8 : k < 8
        · simp [h8, hk, show k < 8 * (n + 1) by omega]
        · have hsub : 8 + (k - 8) = k := by omega
          simp [h8, hk, hsub, show (k - 8 < 8 * n) = (k < 8 * (n + 1)) from by
            rw [eq_iff_iff]; omega]
      · simp [BitVec.getLsbD_of_ge v k (by omega), hk]

/-- **Reading back the bytes of a word gives the word.** -/
theorem readLe_writeLe {w n : Nat} (h : w ≤ 8 * n) (v : BitVec w) :
    readLe w (writeLe n v).toList = v := by
  refine BitVec.eq_of_getLsbD_eq fun i hi => ?_
  rw [readLe_writeLe_getLsbD]
  simp [show i < 8 * n by omega]

/-! ### Comparing byte strings -/

/-- `memcmp`: the sign of the first difference. -/
def memcmp : List Byte → List Byte → Int
  | a :: as, b :: bs => if a = b then memcmp as bs else (a.toNat : Int) - b.toNat
  | _, _ => 0

/-- The big-endian number a byte string spells. -/
def beNat (l : List Byte) : Nat := l.foldl (fun n b => n * 256 + b.toNat) 0

theorem foldl_beNat (l : List Byte) :
    ∀ n : Nat, l.foldl (fun n b => n * 256 + b.toNat) n = n * 256 ^ l.length + beNat l := by
  induction l with
  | nil => intro n; simp [beNat]
  | cons b l ih =>
      intro n
      unfold beNat
      rw [List.foldl_cons, List.foldl_cons, ih, ih, List.length_cons]
      ring

theorem beNat_cons (b : Byte) (l : List Byte) :
    beNat (b :: l) = b.toNat * 256 ^ l.length + beNat l := by
  show l.foldl _ _ = _
  rw [foldl_beNat]
  simp

theorem beNat_append (a b : List Byte) : beNat (a ++ b) = beNat a * 256 ^ b.length + beNat b := by
  show (a ++ b).foldl _ 0 = _
  rw [List.foldl_append, foldl_beNat]
  rfl

theorem beNat_lt (l : List Byte) : beNat l < 256 ^ l.length := by
  induction l with
  | nil => simp [beNat]
  | cons b l ih =>
      rw [beNat_cons, List.length_cons, pow_succ]
      have hb : b.toNat ≤ 255 := Nat.le_of_lt_succ b.isLt
      have h : b.toNat * 256 ^ l.length ≤ 255 * 256 ^ l.length := Nat.mul_le_mul_right _ hb
      omega

@[simp] theorem beNat_zero (n : Nat) : beNat (Bytes.zero n).toList = 0 := by
  show beNat (List.replicate n 0) = 0
  induction n with
  | zero => rfl
  | succ n ih => rw [List.replicate_succ, beNat_cons, ih]; simp

/-- **`memcmp` orders strings of one length as the numbers they spell.** -/
theorem memcmp_le_zero (as : List Byte) :
    ∀ bs : List Byte, as.length = bs.length → (memcmp as bs ≤ 0 ↔ beNat as ≤ beNat bs) := by
  induction as with
  | nil =>
      intro bs h
      obtain rfl : bs = [] := List.length_eq_zero_iff.mp h.symm
      simp [memcmp]
  | cons a as ih =>
      intro bs h
      cases bs with
      | nil => simp at h
      | cons b bs =>
          have hlen : as.length = bs.length := by simpa using h
          unfold memcmp
          rw [beNat_cons, beNat_cons, hlen]
          by_cases hab : a = b
          · rw [if_pos hab, ih bs hlen, hab]; omega
          · rw [if_neg hab]
            have hA := beNat_lt as
            have hB := beNat_lt bs
            rw [hlen] at hA
            have hne : a.toNat ≠ b.toNat := fun hc => hab (BitVec.eq_of_toNat_eq hc)
            rcases Nat.lt_or_gt_of_ne hne with hlt | hgt
            · have h1 : (a.toNat + 1) * 256 ^ bs.length ≤ b.toNat * 256 ^ bs.length :=
                Nat.mul_le_mul_right _ hlt
              rw [Nat.add_mul] at h1
              constructor <;> intro <;> omega
            · have h1 : (b.toNat + 1) * 256 ^ bs.length ≤ a.toNat * 256 ^ bs.length :=
                Nat.mul_le_mul_right _ hgt
              rw [Nat.add_mul] at h1
              constructor <;> intro <;> omega

theorem memcmp_pos (as bs : List Byte) (h : as.length = bs.length) :
    0 < memcmp as bs ↔ beNat bs < beNat as := by
  have := memcmp_le_zero as bs h
  omega

theorem memcmp_swap (as : List Byte) : ∀ bs : List Byte, memcmp bs as = -memcmp as bs := by
  induction as with
  | nil =>
      intro bs
      cases bs <;> simp [memcmp]
  | cons a as ih =>
      intro bs
      cases bs with
      | nil => simp [memcmp]
      | cons b bs =>
          unfold memcmp
          by_cases hab : a = b
          · rw [if_pos hab, if_pos hab.symm, ih]
          · rw [if_neg hab, if_neg (Ne.symm hab), Int.neg_sub]

theorem memcmp_neg (as bs : List Byte) (h : as.length = bs.length) :
    memcmp as bs < 0 ↔ beNat as < beNat bs := by
  have hpos := memcmp_pos bs as h.symm
  rw [memcmp_swap] at hpos
  omega

/-! ### Big-endian words -/

/-- The low `n` bytes of a word, most significant first. -/
def writeBe {w : Nat} (n : Nat) (v : BitVec w) : Bytes n :=
  List.Vector.ofFn fun i => (v >>> (8 * (n - 1 - (i : Nat)))).setWidth 8

theorem writeBe_succ {w : Nat} (n : Nat) (v : BitVec w) :
    (writeBe (n + 1) v).toList = (v >>> (8 * n)).setWidth 8 :: (writeBe n v).toList := by
  have h : ∀ i : Fin n, (v >>> (8 * (n + 1 - 1 - ((i.succ : Fin (n + 1)) : Nat)))).setWidth 8
      = (v >>> (8 * (n - 1 - (i : Nat)))).setWidth 8 := by
    intro i
    rw [Fin.val_succ, show n + 1 - 1 - ((i : Nat) + 1) = n - 1 - i by omega]
  show (List.Vector.cons _ (List.Vector.ofFn _)).toList = _
  rw [List.Vector.toList_cons]
  congr 1
  unfold writeBe
  congr 2
  funext i
  exact h i

/-- **The bytes of a word, most significant first, spell the word.** -/
theorem beNat_writeBe {w : Nat} (n : Nat) (v : BitVec w) (h : w ≤ 8 * n) :
    beNat (writeBe n v).toList = v.toNat := by
  have hmod : ∀ m : Nat, beNat (writeBe m v).toList = v.toNat % 256 ^ m := by
    intro m
    induction m with
    | zero => simp [writeBe, beNat, Nat.mod_one]
    | succ m ih =>
        rw [writeBe_succ, beNat_cons, ih, List.Vector.toList_length, BitVec.toNat_setWidth,
          BitVec.toNat_ushiftRight, Nat.shiftRight_eq_div_pow, Nat.pow_succ 256 m, Nat.mod_mul,
          show 2 ^ (8 * m) = 256 ^ m by rw [Nat.pow_mul]]
        ring
  rw [hmod]
  have hlt : v.toNat < 256 ^ n := by
    rw [show 256 = 2 ^ 8 from rfl, ← Nat.pow_mul]
    exact v.isLt.trans_le (Nat.pow_le_pow_right (by omega) h)
  exact Nat.mod_eq_of_lt hlt

end Lib
