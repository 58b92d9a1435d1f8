/-
Calls that keep their distance.

Calls go out on schedule, or as the retry of one before.  If each call is a given time
after the one before it, unless it is the retry of a scheduled one, then a window shorter
than that time sees at most two: one on schedule and one retry.  It is enough to know this
of neighbours, because the distances add up (`Before.trans`).
-/
import Mathlib.Data.List.Chain

namespace Lib

/-- A call: when it went out, and whether as a retry. -/
structure Call where
  time : Nat
  retry : Bool
  deriving DecidableEq

namespace Call

/-- `l` may follow `k`: `d` later, unless it is the retry of a scheduled one. -/
def Before (d : Nat) (k l : Call) : Prop :=
  k.time ≤ l.time ∧ (k.retry = false ∧ l.retry = true ∨ k.time + d ≤ l.time)

theorem Before.trans {d : Nat} {k l m : Call} (h : Before d k l) (h' : Before d l m) :
    Before d k m := by
  obtain ⟨hkl, hd⟩ := h
  obtain ⟨hlm, hd'⟩ := h'
  refine ⟨hkl.trans hlm, ?_⟩
  rcases hd with ⟨hk, hl⟩ | hd
  · rcases hd' with ⟨hl', -⟩ | hd'
    · rw [hl] at hl'
      cases hl'
    · exact Or.inr (by omega)
  · exact Or.inr (by omega)

instance (d : Nat) : IsTrans Call (Before d) := ⟨fun _ _ _ => Before.trans⟩

/-- The call is a retry, or not, as `r` says, and goes out between `a` and `b`. -/
def within (a b : Nat) (r : Bool) (k : Call) : Bool :=
  k.retry == r && decide (a ≤ k.time ∧ k.time ≤ b)

variable {d a b : Nat} {calls : List Call}

/-- **A window shorter than the distance sees one call of each kind at most.** -/
theorem countP_within_le (hcalls : calls.IsChain (Before d)) (hab : b < a + d) (r : Bool) :
    calls.countP (within a b r) ≤ 1 := by
  rw [List.isChain_iff_pairwise] at hcalls
  induction calls with
  | nil => exact Nat.zero_le _
  | cons k calls ih =>
      obtain ⟨hk, hcalls⟩ := List.pairwise_cons.mp hcalls
      by_cases hin : within a b r k = true
      · have hnone : calls.countP (within a b r) = 0 := by
          rw [List.countP_eq_zero]
          intro l hl hlin
          obtain ⟨-, hd⟩ := hk l hl
          simp only [within, Bool.and_eq_true, beq_iff_eq, decide_eq_true_eq] at hin hlin
          rcases hd with ⟨hfalse, htrue⟩ | hd
          · rw [hin.1, ← hlin.1, htrue] at hfalse
            cases hfalse
          · omega
        rw [List.countP_cons_of_pos hin, hnone]
      · rw [List.countP_cons_of_neg hin]
        exact ih hcalls

/-- Every call in the window is of one kind or the other. -/
theorem countP_times (a b : Nat) (calls : List Call) :
    (calls.map (·.time)).countP (fun t => decide (a ≤ t ∧ t ≤ b))
      = calls.countP (within a b false) + calls.countP (within a b true) := by
  induction calls with
  | nil => rfl
  | cons k calls ih =>
      rw [List.map_cons, List.countP_cons, ih, List.countP_cons, List.countP_cons]
      cases hr : k.retry <;> simp only [within, hr] <;> simp <;> omega

end Call

end Lib
