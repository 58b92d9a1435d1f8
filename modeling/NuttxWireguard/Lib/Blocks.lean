/-
Messages taken in blocks.

A hash or a MAC works through its message in blocks of `n` units and holds back what does not
fill one.  Some take a block as soon as it is full.  Others, which treat the last block
differently, hold a full block back until more comes.  `consume` covers both: it takes blocks
while there is more than `keep` left, and `keep` is `n - 1` for the former and `n` for the
latter.

What makes feeding in pieces the same as feeding at once is `consume_append`.  A program that
keeps what it holds back in a buffer is right if each of its updates is a `consume` of the
buffer and the new piece; `foldl_consume` then gives all pieces together.
-/
import NuttxWireguard.Lib.Bytes

namespace Lib

namespace Blocks

variable {σ α : Type}

/-- Take blocks of `n` while more than `keep` is left; the state, and what is held back. -/
def consume (step : σ → List α → σ) (n keep : Nat) (s : σ) (msg : List α) : σ × List α :=
  if _h : keep < msg.length ∧ 0 < n then consume step n keep (step s (msg.take n)) (msg.drop n)
  else (s, msg)
termination_by msg.length
decreasing_by
  rw [List.length_drop]
  omega

variable {step : σ → List α → σ} {n keep : Nat}

theorem consume_of_le (s : σ) {msg : List α} (h : msg.length ≤ keep) :
    consume step n keep s msg = (s, msg) := by
  unfold consume
  rw [dif_neg (by omega)]

theorem consume_of_lt (hn : 0 < n) (s : σ) {msg : List α} (h : keep < msg.length) :
    consume step n keep s msg = consume step n keep (step s (msg.take n)) (msg.drop n) := by
  conv_lhs => unfold consume
  rw [dif_pos ⟨h, hn⟩]

/-- What is held back is no more than `keep`. -/
theorem length_consume (hn : 0 < n) (s : σ) (msg : List α) :
    (consume step n keep s msg).2.length ≤ keep := by
  induction hlen : msg.length using Nat.strongRecOn generalizing s msg with
  | ind len ih =>
      by_cases h : keep < msg.length
      · rw [consume_of_lt hn s h]
        exact ih _ (by rw [List.length_drop]; omega) _ _ rfl
      · rw [consume_of_le s (Nat.not_lt.mp h)]
        exact Nat.not_lt.mp h

/-- Of full blocks nothing is held back. -/
theorem length_consume_mod (step : σ → List α → σ) (hn : 0 < n) (s : σ) (msg : List α) :
    (consume step n (n - 1) s msg).2.length = msg.length % n := by
  induction hlen : msg.length using Nat.strongRecOn generalizing s msg with
  | ind len ih =>
      by_cases h : n - 1 < msg.length
      · rw [consume_of_lt hn s h, ih _ (by rw [List.length_drop]; omega) _ _ rfl,
          List.length_drop, ← hlen, ← Nat.mod_eq_sub_mod (by omega)]
      · rw [consume_of_le s (Nat.not_lt.mp h), ← hlen, Nat.mod_eq_of_lt (by omega)]

/-- **Two pieces are taken as their concatenation is.** -/
theorem consume_append (step : σ → List α → σ) (hn : 0 < n) (hkeep : n ≤ keep + 1) (s : σ)
    (a b : List α) :
    consume step n keep s (a ++ b)
      = consume step n keep (consume step n keep s a).1 ((consume step n keep s a).2 ++ b) := by
  induction hlen : a.length using Nat.strongRecOn generalizing s a with
  | ind len ih =>
      by_cases h : keep < a.length
      · have htake : (a ++ b).take n = a.take n := List.take_append_of_le_length (by omega)
        have hdrop : (a ++ b).drop n = a.drop n ++ b := List.drop_append_of_le_length (by omega)
        have hlong : keep < (a ++ b).length := by
          rw [List.length_append]
          omega
        rw [consume_of_lt hn s h, consume_of_lt hn s hlong, htake, hdrop]
        exact ih _ (by rw [List.length_drop]; omega) _ _ rfl
      · rw [consume_of_le s (Nat.not_lt.mp h)]

/-- **A program whose updates take what it holds and the new piece takes all pieces.** -/
theorem foldl_consume {τ : Type} (view : τ → σ × List α) (update : τ → List α → τ)
    (Good : τ → Prop) (hn : 0 < n) (hkeep : n ≤ keep + 1)
    (hupdate : ∀ t piece, Good t →
      view (update t piece) = consume step n keep (view t).1 ((view t).2 ++ piece) ∧
        Good (update t piece))
    (pieces : List (List α)) {t : τ} (ht : Good t) (hheld : (view t).2.length ≤ keep) :
    view (pieces.foldl update t)
        = consume step n keep (view t).1 ((view t).2 ++ pieces.flatten) ∧
      Good (pieces.foldl update t) := by
  induction pieces generalizing t with
  | nil =>
      rw [List.flatten_nil, List.append_nil, consume_of_le _ hheld]
      exact ⟨rfl, ht⟩
  | cons piece pieces ih =>
      obtain ⟨hview, hgood⟩ := hupdate t piece ht
      have hnext : (view (update t piece)).2.length ≤ keep := by
        rw [hview]
        exact length_consume hn _ _
      obtain ⟨hrest, hlast⟩ := ih hgood hnext
      refine ⟨?_, hlast⟩
      rw [List.foldl_cons, hrest, hview, List.flatten_cons, ← List.append_assoc,
        consume_append step hn hkeep _ ((view t).2 ++ piece)]

/-- A program that takes one unit at a time takes them all. -/
theorem foldl_consume_units {τ : Type} (view : τ → σ × List α) (put : τ → α → τ)
    (Good : τ → Prop) (hn : 0 < n) (hkeep : n ≤ keep + 1)
    (hput : ∀ t x, Good t →
      view (put t x) = consume step n keep (view t).1 ((view t).2 ++ [x]) ∧ Good (put t x))
    (units : List α) {t : τ} (ht : Good t) (hheld : (view t).2.length ≤ keep) :
    view (units.foldl put t) = consume step n keep (view t).1 ((view t).2 ++ units) ∧
      Good (units.foldl put t) := by
  induction units generalizing t with
  | nil =>
      rw [List.append_nil, consume_of_le _ hheld]
      exact ⟨rfl, ht⟩
  | cons x units ih =>
      obtain ⟨hview, hgood⟩ := hput t x ht
      have hnext : (view (put t x)).2.length ≤ keep := by
        rw [hview]
        exact length_consume hn _ _
      obtain ⟨hrest, hlast⟩ := ih hgood hnext
      refine ⟨?_, hlast⟩
      rw [List.foldl_cons, hrest, hview, ← consume_append step hn hkeep, List.append_assoc,
        List.singleton_append]

/-- A relation that every block keeps. -/
theorem consume_rel {τ : Type} (step : σ → List α → σ) (step' : τ → List α → τ)
    (R : σ → τ → Prop) (hn : 0 < n) (hkeep : n ≤ keep + 1)
    (hstep : ∀ s t block, block.length = n → R s t → R (step s block) (step' t block))
    (msg : List α) {s : σ} {t : τ} (h : R s t) :
    R (consume step n keep s msg).1 (consume step' n keep t msg).1 ∧
      (consume step n keep s msg).2 = (consume step' n keep t msg).2 := by
  induction hlen : msg.length using Nat.strongRecOn generalizing s t msg with
  | ind len ih =>
      by_cases hlong : keep < msg.length
      · rw [consume_of_lt hn s hlong, consume_of_lt hn t hlong]
        have hblock : (msg.take n).length = n := by
          rw [List.length_take]
          omega
        exact ih _ (by rw [List.length_drop]; omega) _ (hstep s t _ hblock h) rfl
      · rw [consume_of_le s (Nat.not_lt.mp hlong), consume_of_le t (Nat.not_lt.mp hlong)]
        exact ⟨h, rfl⟩

/-! ### The buffer -/

/-- Write `src` into the buffer from `off` on. -/
def writeAt {n : Nat} (buffer : Bytes n) (off : Nat) (src : List Byte) : Bytes n :=
  List.Vector.ofFn fun i =>
    if off ≤ i ∧ (i : Nat) < off + src.length then src.getD (i - off) 0 else buffer.get i

section

variable {m : Nat} (b : Bytes m)

theorem take_writeAt (off : Nat) (src : List Byte) (h : off + src.length ≤ m) :
    (writeAt b off src).toList.take (off + src.length) = b.toList.take off ++ src := by
  refine List.ext_getElem (by simp; omega) fun i hi _ => ?_
  rw [List.length_take, List.Vector.toList_length] at hi
  simp only [writeAt, List.getElem_take, List.Vector.toList_ofFn, List.getElem_ofFn]
  by_cases hoff : off ≤ i
  · rw [if_pos ⟨hoff, by omega⟩, List.getElem_append_right (by simp; omega)]
    simp only [List.length_take, List.Vector.toList_length]
    rw [List.getD_eq_getElem _ _ (by omega)]
    simp only [Nat.min_eq_left (show off ≤ m by omega)]
  · rw [if_neg (by omega), List.getElem_append_left (by simp; omega), List.getElem_take]
    rfl

theorem drop_writeAt (off : Nat) (src : List Byte) :
    (writeAt b off src).toList.drop (off + src.length)
      = b.toList.drop (off + src.length) := by
  refine List.ext_getElem (by simp) fun i hi _ => ?_
  simp only [writeAt, List.getElem_drop, List.Vector.toList_ofFn, List.getElem_ofFn]
  rw [if_neg (by omega)]
  rfl

theorem writeAt_nil (off : Nat) : writeAt b off [] = b := by
  apply List.Vector.ext
  intro i
  rw [writeAt, List.Vector.get_ofFn, List.length_nil, if_neg (by omega)]

theorem writeAt_cons (off : Nat) (x : Byte) (src : List Byte) :
    writeAt (writeAt b off [x]) (off + 1) src = writeAt b off (x :: src) := by
  apply List.Vector.ext
  intro i
  simp only [writeAt, List.Vector.get_ofFn, List.length_cons, List.length_nil]
  by_cases heq : (i : Nat) = off
  · have hsub : (i : Nat) - off = 0 := by omega
    rw [if_neg (by omega), if_pos (by omega), if_pos (by omega), hsub]
    rfl
  · by_cases hin : off + 1 ≤ i ∧ (i : Nat) < off + 1 + src.length
    · have hsub : (i : Nat) - off = (i - (off + 1)) + 1 := by omega
      rw [if_pos hin, if_pos (by omega), hsub, List.getD_cons_succ]
    · rw [if_neg hin, if_neg (by omega), if_neg (by omega)]

/-- A part of the start. -/
theorem slice_take {p : List Byte} {off n k : Nat} (h : off + n ≤ k) :
    slice (p.take k) off n = slice p off n := by
  unfold slice
  congr 1
  funext i
  rw [List.getD_eq_getElem?_getD, List.getD_eq_getElem?_getD, List.getElem?_take,
    if_pos (by omega)]

end

end Blocks

end Lib
