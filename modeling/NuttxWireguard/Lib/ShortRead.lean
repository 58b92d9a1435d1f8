/-
Filling a buffer from a source that may deliver less than it is asked for.

Each read asks for what is still missing.  One that delivers nothing ends the filling,
whatever is missing; every other one brings at least one item, so a buffer of `size` items
takes at most `size` reads.
-/
import Mathlib.Data.List.Basic

namespace Lib

variable {α : Type*}

/-- The loop: `k` reads were made, and delivered `dst`. -/
def readFull (reads : ℕ → List α) (size : ℕ) : (fuel k : ℕ) → (dst : List α) → List α
  | 0, _, dst => dst
  | fuel + 1, k, dst =>
    if dst.length < size then
      let got := (reads k).take (size - dst.length)
      if got.isEmpty then dst else readFull reads size fuel (k + 1) (dst ++ got)
    else dst

variable {reads : ℕ → List α} {size : ℕ}

theorem readFull_length_le (fuel k : ℕ) {dst : List α} (h : dst.length ≤ size) :
    (readFull reads size fuel k dst).length ≤ size := by
  induction fuel generalizing k dst with
  | zero => exact h
  | succ fuel ih =>
      unfold readFull
      by_cases hlt : dst.length < size
      · rw [if_pos hlt]
        dsimp only
        split
        · exact h
        · apply ih
          rw [List.length_append, List.length_take]
          omega
      · rw [if_neg hlt]
        exact h

end Lib
