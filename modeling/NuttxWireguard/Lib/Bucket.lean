/-
Counting in buckets.

A limiter that counts arrivals in buckets starts a new bucket at the first arrival for
which the current one is due, and lets an arrival pass while the bucket's count is within
the limit.  A bucket is known by what the clock read when it started, so `mark` is the
clock and `due` says from a reading whether that bucket is over.

A window of time then sees at most two limits' worth of arrivals pass, if it is too short
for a bucket that starts after the window does to be over before the window is
(`passesIn_le`): the end of the bucket it finds and one bucket of its own.
-/
import Mathlib.Data.List.Basic

namespace Lib

/-- A bucket: the reading it started at and the arrivals it counted. -/
structure Bucket (σ : Type*) where
  start : σ
  count : Nat

namespace Bucket

variable {σ : Type*} (mark : Nat → σ) (due : σ → Nat → Bool) (limit : Nat)

/-- The bucket an arrival at `t` is counted in. -/
def arrive (k : Bucket σ) (t : Nat) : Bucket σ :=
  if due k.start t then ⟨mark t, 1⟩ else ⟨k.start, k.count + 1⟩

/-- How many of the arrivals at `ts` pass between `a` and `b`. -/
def passesIn (a b : Nat) : Bucket σ → List Nat → Nat
  | _, [] => 0
  | k, t :: ts =>
    (if a ≤ t ∧ t ≤ b ∧ (k.arrive mark due t).count ≤ limit then 1 else 0) +
      passesIn a b (k.arrive mark due t) ts

variable {mark due limit} {a b : Nat}

/-- After the window nothing is counted. -/
theorem passesIn_of_lt {ts : List Nat} (h : ∀ t ∈ ts, b < t) (k : Bucket σ) :
    passesIn mark due limit a b k ts = 0 := by
  induction ts generalizing k with
  | nil => rfl
  | cons t ts ih =>
      have ht : b < t := h t List.mem_cons_self
      unfold passesIn
      rw [if_neg (by omega), ih (fun u hu => h u (List.mem_cons_of_mem _ hu))]

/-- A bucket that lasts to the end of the window passes what its limit leaves. -/
theorem passesIn_lasting {ts : List Nat} (hsorted : ts.Pairwise (· ≤ ·)) (k : Bucket σ)
    (hlast : ∀ t ∈ ts, t ≤ b → due k.start t = false) :
    passesIn mark due limit a b k ts ≤ limit - k.count := by
  induction ts generalizing k with
  | nil => exact Nat.zero_le _
  | cons t ts ih =>
      obtain ⟨ht, hsorted⟩ := List.pairwise_cons.mp hsorted
      by_cases hb : t ≤ b
      · have hstay : k.arrive mark due t = ⟨k.start, k.count + 1⟩ := by
          unfold arrive
          rw [hlast t List.mem_cons_self hb]
          rfl
        have hrest := ih hsorted ⟨k.start, k.count + 1⟩
          fun u hu => hlast u (List.mem_cons_of_mem _ hu)
        unfold passesIn
        rw [hstay]
        dsimp only at hrest ⊢
        split <;> omega
      · rw [passesIn_of_lt (fun u hu => ?_)]
        · exact Nat.zero_le _
        · rcases List.mem_cons.mp hu with rfl | hu
          · omega
          · have := ht u hu
            omega

/-- What a window needs of the clock: a bucket is not due at the reading it starts at, and
one that starts after the window does lasts to its end. -/
structure Lasts (mark : Nat → σ) (due : σ → Nat → Bool) (a b : Nat) : Prop where
  self : ∀ t, due (mark t) t = false
  inside : ∀ s t, a < s → s ≤ t → t ≤ b → due (mark s) t = false

variable (limit) in
/-- A bucket just started in the window, at its first instant or later. -/
theorem passesIn_started (h : Lasts mark due a b) {s : Nat} (hs : a < s) {ts : List Nat}
    (hsorted : ts.Pairwise (· ≤ ·)) (hfrom : ∀ t ∈ ts, s ≤ t) (count : Nat) :
    passesIn mark due limit a b ⟨mark s, count⟩ ts ≤ limit - count :=
  passesIn_lasting hsorted _ fun t ht hb => h.inside s t hs (hfrom t ht) hb

variable (limit) in
/-- From the window's start on: what is left of the current bucket, and one more. -/
theorem passesIn_inside (h : Lasts mark due a b) {ts : List Nat}
    (hsorted : ts.Pairwise (· ≤ ·)) (k : Bucket σ)
    (hfrom : ∀ t ∈ ts, a ≤ t ∧ (t = a → due k.start t = false)) :
    passesIn mark due limit a b k ts ≤ (limit - k.count) + limit := by
  induction ts generalizing k with
  | nil => exact Nat.zero_le _
  | cons t ts ih =>
      obtain ⟨ht, hsorted⟩ := List.pairwise_cons.mp hsorted
      obtain ⟨hat, hfirst⟩ := hfrom t List.mem_cons_self
      unfold passesIn
      by_cases hdue : due k.start t = true
      · have hne : t ≠ a := by
          intro hta
          rw [hfirst hta] at hdue
          cases hdue
        have hnew : k.arrive mark due t = ⟨mark t, 1⟩ := if_pos hdue
        have hrest := passesIn_started limit h (by omega : a < t) hsorted ht 1
        rw [hnew]
        dsimp only
        split <;> omega
      · have hstay : k.arrive mark due t = ⟨k.start, k.count + 1⟩ := if_neg hdue
        have hrest := ih hsorted ⟨k.start, k.count + 1⟩
          fun u hu => hfrom u (List.mem_cons_of_mem _ hu)
        rw [hstay]
        dsimp only at hrest ⊢
        split <;> omega

/-- **A window sees at most two limits' worth of arrivals pass.** -/
theorem passesIn_le (h : Lasts mark due a b) {ts : List Nat} (hsorted : ts.Pairwise (· ≤ ·))
    (k : Bucket σ) : passesIn mark due limit a b k ts ≤ 2 * limit := by
  induction ts generalizing k with
  | nil => exact Nat.zero_le _
  | cons t ts ih =>
      obtain ⟨ht, hsorted'⟩ := List.pairwise_cons.mp hsorted
      by_cases hat : t < a
      · unfold passesIn
        rw [if_neg (by omega)]
        have := ih hsorted' (k.arrive mark due t)
        omega
      by_cases hdue : due k.start t = true
      · have hnew : k.arrive mark due t = ⟨mark t, 1⟩ := if_pos hdue
        unfold passesIn
        rw [hnew]
        dsimp only
        -- the bucket the window found counted nothing in it
        by_cases hta : t = a
        · have hrest := passesIn_inside limit h hsorted' ⟨mark t, 1⟩ fun u hu =>
            ⟨hta ▸ ht u hu, fun hua => by rw [hua, ← hta]; exact h.self t⟩
          dsimp only at hrest
          split <;> omega
        · have hrest := passesIn_started limit h (by omega : a < t) hsorted' ht 1
          split <;> omega
      · refine Nat.le_trans (passesIn_inside limit h hsorted k fun u hu => ?_) (by omega)
        rcases List.mem_cons.mp hu with rfl | hu
        · exact ⟨by omega, fun _ => by simpa using hdue⟩
        · have htu := ht u hu
          refine ⟨by omega, fun hua => ?_⟩
          have hut : u = t := by omega
          rw [hut]
          simpa using hdue

end Bucket

end Lib
