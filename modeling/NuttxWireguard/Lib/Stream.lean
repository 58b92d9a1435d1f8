/-
A buffered output stream.

What is written goes into a buffer; a full buffer is flushed before the next character, and the
rest when the stream is closed.  The system may fail any flush, and then takes less than it was
given: what it does not take is lost (`StreamFaults.takes`), and only the stream's error flag
remembers it.  Closing reports the last flush and nothing before it.

So the file is made of what was taken of each piece of the text (`close_write`), and it is the
text if no flush failed.
-/
import Mathlib.Data.List.Basic

namespace Lib

/-- A stream, and the file it writes. -/
structure Stream (α : Type*) where
  stored : List α
  buffer : List α
  /-- How often it was flushed. -/
  flushes : Nat
  /-- `ferror`. -/
  error : Bool

/-- What the system makes of a stream: the flushes that fail, with what they take at most, and
whether closing works. -/
structure StreamFaults where
  flush : Nat → Option Nat
  close : Bool

/-- What the system takes of the `j`-th buffer.  That a flush that fails takes less than all of
it, and that the rest is not tried again, is assumed of the library. -/
def StreamFaults.takes {α : Type*} (faults : StreamFaults) (j : Nat) (buffer : List α) : List α :=
  match faults.flush j with
  | none => buffer
  | some k => buffer.take (min k (buffer.length - 1))

namespace Stream

variable {α : Type*} (faults : StreamFaults)

/-- A stream onto an empty file. -/
def empty : Stream α := ⟨[], [], 0, false⟩

/-- The buffer goes to the file; whether all of it did. -/
def flush (s : Stream α) : Stream α × Bool :=
  (⟨s.stored ++ faults.takes s.flushes s.buffer, [], s.flushes + 1,
    s.error || (faults.flush s.flushes).isSome⟩, (faults.flush s.flushes).isNone)

/-- One character into a buffer of `size`. -/
def putc (size : Nat) (s : Stream α) (a : α) : Stream α :=
  let s := if s.buffer.length ≥ size then (s.flush faults).1 else s
  { s with buffer := s.buffer ++ [a] }

/-- `fprintf`. -/
def write (size : Nat) (s : Stream α) (text : List α) : Stream α := text.foldl (putc faults size) s

/-- `fclose`: what the file holds, and whether it returns zero. -/
def close (s : Stream α) : List α × Bool :=
  if s.buffer.length = 0 then (s.stored, faults.close)
  else ((s.flush faults).1.stored, (s.flush faults).2 && faults.close)

/-- What was given to the stream is in it, or something was lost and the flag is set. -/
def Holds (s : Stream α) (text : List α) : Prop :=
  (s.error = false ∧ s.stored ++ s.buffer = text) ∨
    (s.error = true ∧ s.stored.length + s.buffer.length < text.length)

variable {faults}

theorem Holds.flush {s : Stream α} {text : List α} (h : s.Holds text)
    (hne : s.buffer.length ≠ 0) : (s.flush faults).1.Holds text := by
  unfold Stream.flush StreamFaults.takes
  cases faults.flush s.flushes with
  | none =>
      rcases h with ⟨herr, htext⟩ | ⟨herr, hlost⟩
      · exact Or.inl ⟨by rw [herr]; rfl, by simpa using htext⟩
      · exact Or.inr ⟨by rw [herr]; rfl, by simpa using hlost⟩
  | some k =>
      refine Or.inr ⟨Bool.or_true _, ?_⟩
      have hle : s.stored.length + s.buffer.length ≤ text.length := by
        rcases h with ⟨-, htext⟩ | ⟨-, hlost⟩
        · exact Nat.le_of_eq (by rw [← htext, List.length_append])
        · exact Nat.le_of_lt hlost
      simp only [List.length_append, List.length_take, List.length_nil]
      omega

theorem Holds.putc {size : Nat} (hsize : 0 < size) {s : Stream α} {text : List α}
    (h : s.Holds text) (a : α) : (s.putc faults size a).Holds (text ++ [a]) := by
  have hpush : ∀ r : Stream α, r.Holds text →
      Holds { r with buffer := r.buffer ++ [a] } (text ++ [a]) := by
    intro r hr
    rcases hr with ⟨herr, htext⟩ | ⟨herr, hlost⟩
    · refine Or.inl ⟨herr, ?_⟩
      rw [← htext, List.append_assoc]
    · refine Or.inr ⟨herr, ?_⟩
      simp only [List.length_append, List.length_singleton]
      omega
  unfold Stream.putc
  split
  · rename_i hfull
    exact hpush _ (h.flush (by omega))
  · exact hpush s h

theorem Holds.write {size : Nat} (hsize : 0 < size) (more : List α) {s : Stream α}
    {text : List α} (h : s.Holds text) : (s.write faults size more).Holds (text ++ more) := by
  induction more generalizing s text with
  | nil => simpa [Stream.write] using h
  | cons a more ih =>
      have hnext := ih (@Holds.putc _ faults _ hsize _ _ h a)
      rw [List.append_assoc] at hnext
      exact hnext

/-- What was written to a fresh stream. -/
theorem holds_write_empty {size : Nat} (hsize : 0 < size) (text : List α) :
    (Stream.empty.write faults size text).Holds text :=
  Holds.write hsize text (Or.inl ⟨rfl, rfl⟩)

/-- **A stream that was closed well has all of the text in its file exactly when its error flag
was not set before.** -/
theorem Holds.close_iff {s : Stream α} {text : List α} (h : s.Holds text)
    (hclose : (s.close faults).2 = true) :
    (s.close faults).1 = text ↔ s.error = false := by
  unfold Stream.close at hclose ⊢
  by_cases hempty : s.buffer.length = 0
  · rw [if_pos hempty]
    have hnil : s.buffer = [] := List.length_eq_zero_iff.mp hempty
    rcases h with ⟨herr, htext⟩ | ⟨herr, hlost⟩
    · rw [hnil, List.append_nil] at htext
      exact ⟨fun _ => herr, fun _ => htext⟩
    · refine ⟨fun hc => ?_, fun hc => absurd (hc.symm.trans herr) Bool.false_ne_true⟩
      have hlength := congrArg List.length hc
      dsimp only at hlength
      omega
  · rw [if_neg hempty] at hclose ⊢
    have hflush : (s.flush faults).2 = true := (Bool.and_eq_true_iff.mp hclose).1
    unfold Stream.flush StreamFaults.takes at hflush ⊢
    cases hfault : faults.flush s.flushes with
    | some k =>
        rw [hfault] at hflush
        cases hflush
    | none =>
        rcases h with ⟨herr, htext⟩ | ⟨herr, hlost⟩
        · exact ⟨fun _ => herr, fun _ => htext⟩
        · refine ⟨fun hc => ?_, fun hc => absurd (hc.symm.trans herr) Bool.false_ne_true⟩
          have hlength := congrArg List.length hc
          simp only [List.length_append] at hlength
          omega

/-! ### What the file holds -/

/-- The `j`-th piece of a text. -/
def piece (size : Nat) (text : List α) (j : Nat) : List α := (text.drop (j * size)).take size

/-- How many of them there are. -/
def pieces (size : Nat) (text : List α) : Nat := (text.length + size - 1) / size

/-- What is taken of all of them. -/
def taken (faults : StreamFaults) (size : Nat) (text : List α) : List α :=
  (List.range (pieces size text)).flatMap fun j => faults.takes j (piece size text j)

/-- The last of them is taken, and closing works. -/
def Closes (faults : StreamFaults) (size : Nat) (text : List α) : Prop :=
  faults.close = true ∧ ∀ j, j + 1 = pieces size text → faults.flush j = none

/-- Nothing fails. -/
def TakesAll (faults : StreamFaults) (size : Nat) (text : List α) : Prop :=
  faults.close = true ∧ ∀ j < pieces size text, faults.flush j = none

theorem takesAll_iff {size : Nat} {text : List α} : TakesAll faults size text ↔
    Closes faults size text ∧ ∀ j, j + 1 < pieces size text → faults.flush j = none := by
  constructor
  · rintro ⟨hclose, hall⟩
    exact ⟨⟨hclose, fun j hj => hall j (by omega)⟩, fun j hj => hall j (by omega)⟩
  · rintro ⟨⟨hclose, hlast⟩, hbefore⟩
    refine ⟨hclose, fun j hj => ?_⟩
    rcases Nat.lt_or_ge (j + 1) (pieces size text) with hlt | hge
    · exact hbefore j hlt
    · exact hlast j (by omega)

/-- The pieces in front of the last one were flushed, and that one is in the buffer. -/
structure Written (faults : StreamFaults) (size : Nat) (s : Stream α) (text : List α) : Prop where
  stored : s.stored = (List.range s.flushes).flatMap fun j => faults.takes j (piece size text j)
  buffer : s.buffer = text.drop (s.flushes * size)
  fits : text.length ≤ s.flushes * size + size
  pending : s.flushes * size < text.length ∨ text = [] ∧ s.flushes = 0
  error : s.error = true ↔ ∃ j < s.flushes, faults.flush j ≠ none

theorem piece_append {size j : Nat} {text : List α} (h : (j + 1) * size ≤ text.length)
    (more : List α) : piece size (text ++ more) j = piece size text j := by
  rw [Nat.succ_mul] at h
  unfold piece
  rw [List.drop_append_of_le_length (by omega), List.take_append_of_le_length]
  rw [List.length_drop]
  omega

/-- More text leaves what was taken of the pieces before. -/
theorem flatMap_piece_append {size n : Nat} {text : List α} (h : n * size ≤ text.length)
    (more : List α) :
    (List.range n).flatMap (fun j => faults.takes j (piece size (text ++ more) j)) =
      (List.range n).flatMap fun j => faults.takes j (piece size text j) := by
  refine List.flatMap_congr fun j hj => ?_
  have hle : (j + 1) * size ≤ n * size := Nat.mul_le_mul_right size (List.mem_range.mp hj)
  rw [piece_append (Nat.le_trans hle h)]

namespace Written

variable {size : Nat} {s : Stream α} {text : List α}

theorem empty (faults : StreamFaults) (size : Nat) :
    Written faults size (Stream.empty : Stream α) [] where
  stored := rfl
  buffer := List.drop_nil.symm
  fits := Nat.zero_le _
  pending := Or.inr ⟨rfl, rfl⟩
  error := ⟨fun h => Bool.noConfusion h, fun ⟨_, hj, _⟩ => absurd hj (Nat.not_lt_zero _)⟩

theorem le (h : Written faults size s text) : s.flushes * size ≤ text.length := by
  rcases h.pending with hlt | ⟨rfl, hzero⟩
  · exact Nat.le_of_lt hlt
  · rw [hzero, Nat.zero_mul]
    exact Nat.zero_le _

theorem length_buffer (h : Written faults size s text) :
    s.buffer.length = text.length - s.flushes * size := by
  rw [h.buffer, List.length_drop]

/-- The buffer is the last piece. -/
theorem piece_flushes (h : Written faults size s text) :
    piece size text s.flushes = s.buffer := by
  have hfits := h.fits
  have hlength := h.length_buffer
  unfold piece
  rw [← h.buffer, List.take_of_length_le (by omega)]

/-- One more flush. -/
theorem stored_flush (h : Written faults size s text) :
    (s.flush faults).1.stored =
      (List.range (s.flushes + 1)).flatMap fun j => faults.takes j (piece size text j) := by
  show s.stored ++ faults.takes s.flushes s.buffer = _
  rw [List.range_succ, List.flatMap_append, ← h.stored, List.flatMap_singleton, h.piece_flushes]

theorem putc (hsize : 0 < size) (h : Written faults size s text) (a : α) :
    Written faults size (s.putc faults size a) (text ++ [a]) := by
  have hlength := h.length_buffer
  have hfits := h.fits
  have hle := h.le
  unfold Stream.putc
  split
  · -- the buffer is full
    have hfull : text.length = (s.flushes + 1) * size := by
      rw [Nat.succ_mul]
      omega
    refine ⟨?_, ?_, ?_, ?_, ?_⟩
    · exact h.stored_flush.trans (flatMap_piece_append (Nat.le_of_eq hfull.symm) [a]).symm
    · show [a] = (text ++ [a]).drop ((s.flushes + 1) * size)
      rw [← hfull, List.drop_left]
    · show (text ++ [a]).length ≤ (s.flushes + 1) * size + size
      rw [List.length_append, ← hfull]
      exact Nat.add_le_add_left hsize _
    · refine Or.inl ?_
      show (s.flushes + 1) * size < (text ++ [a]).length
      rw [List.length_append, ← hfull]
      exact Nat.lt_succ_self _
    · show (s.error || (faults.flush s.flushes).isSome) = true ↔
        ∃ j < s.flushes + 1, faults.flush j ≠ none
      rw [Bool.or_eq_true, h.error, Option.isSome_iff_ne_none, Nat.exists_lt_succ_right]
  · refine ⟨?_, ?_, ?_, ?_, h.error⟩
    · exact h.stored.trans (flatMap_piece_append hle [a]).symm
    · show s.buffer ++ [a] = (text ++ [a]).drop (s.flushes * size)
      rw [List.drop_append_of_le_length hle, h.buffer]
    · show (text ++ [a]).length ≤ s.flushes * size + size
      rw [List.length_append, List.length_singleton]
      omega
    · refine Or.inl ?_
      show s.flushes * size < (text ++ [a]).length
      rw [List.length_append, List.length_singleton]
      omega

theorem write (hsize : 0 < size) (h : Written faults size s text) (more : List α) :
    Written faults size (s.write faults size more) (text ++ more) := by
  induction more generalizing s text with
  | nil => rwa [List.append_nil]
  | cons a more ih =>
      have hnext := ih (h.putc hsize a)
      rwa [List.append_assoc] at hnext

/-- How often the stream was flushed before it is closed. -/
theorem pieces_eq (hsize : 0 < size) (h : Written faults size s text) :
    pieces size text = if text = [] then 0 else s.flushes + 1 := by
  unfold pieces
  split
  · rename_i hnil
    rw [hnil]
    exact Nat.div_eq_of_lt (by rw [List.length_nil]; omega)
  · rename_i hne
    have hfits := h.fits
    have hlt := h.pending.resolve_right fun hc => hne hc.1
    refine Nat.div_eq_of_lt_le ?_ ?_
    · rw [Nat.succ_mul]
      omega
    · rw [Nat.succ_mul, Nat.succ_mul]
      omega

end Written

variable (faults) in
/-- **What the file holds in the end** is what was taken of each piece; closing fails with the
last piece; and the flag tells of the pieces before. -/
theorem close_write {size : Nat} (hsize : 0 < size) (text : List α) :
    ((Stream.empty.write faults size text).close faults).1 = taken faults size text ∧
      (((Stream.empty.write faults size text).close faults).2 = true ↔ Closes faults size text) ∧
      ((Stream.empty.write faults size text).error = false ↔
        ∀ j, j + 1 < pieces size text → faults.flush j = none) := by
  have hempty : Written faults size (Stream.empty : Stream α) [] := Written.empty faults size
  have h := hempty.write hsize text
  rw [List.nil_append] at h
  have hpieces := h.pieces_eq hsize
  have hlength := h.length_buffer
  generalize Stream.empty.write faults size text = s at h hpieces hlength
  have herror : s.error = false ↔ ∀ j < s.flushes, faults.flush j = none := by
    rw [← Bool.not_eq_true, h.error, not_exists]
    exact forall_congr' fun j => by rw [not_and, not_not]
  unfold taken Closes
  by_cases hnil : text = []
  · have hzero : s.flushes = 0 := by
      rcases h.pending with hlt | ⟨-, hzero⟩
      · rw [hnil] at hlt
        exact absurd hlt (Nat.not_lt_zero _)
      · exact hzero
    rw [if_pos hnil] at hpieces
    have hempty : s.buffer.length = 0 := by rw [hlength, hnil]; exact Nat.zero_sub _
    unfold Stream.close
    rw [if_pos hempty, hpieces, herror, h.stored, hzero]
    refine ⟨rfl, ⟨fun hc => ⟨hc, fun j hj => by omega⟩, fun hc => hc.1⟩, ?_⟩
    exact ⟨fun _ j hj => by omega, fun _ j hj => by omega⟩
  · rw [if_neg hnil] at hpieces
    have hlt := h.pending.resolve_right fun hc => hnil hc.1
    unfold Stream.close
    rw [if_neg (by omega), hpieces, herror]
    refine ⟨h.stored_flush, ?_, ?_⟩
    · show ((faults.flush s.flushes).isNone && faults.close) = true ↔ _
      rw [Bool.and_eq_true, Option.isNone_iff_eq_none]
      constructor
      · rintro ⟨hlast, hclose⟩
        exact ⟨hclose, fun j hj => Nat.succ.inj hj ▸ hlast⟩
      · rintro ⟨hclose, hlast⟩
        exact ⟨hlast _ rfl, hclose⟩
    · exact ⟨fun hc j hj => hc j (Nat.lt_of_succ_lt_succ hj),
        fun hc j hj => hc j (Nat.succ_lt_succ hj)⟩

end Stream

end Lib
