/-
The timestamp allocator (`wg_tai64n.c`).

Handshakes are ordered by their timestamps, so the allocator hands out a value only once.
It follows the realtime clock where that is ahead of the last value handed out, and where
the clock repeats or runs backwards it counts on from that value, tick by tick.  A call that
finds no lock, no clock, no valid time or no value left fails.

The last value is global and protected by a lock, so the calls of all interfaces are one
sequence.  A step of the driver takes what its call came to from its environment.
-/
import NuttxWireguard.Lib.Bytes
import NuttxWireguard.Lib.Run
import NuttxWireguard.Records

namespace NuttxWireguard.Kernel

open Lib

/-! ### The allocator -/

/-- `WG_TAI64_UNIX_EPOCH`. -/
def wgTai64UnixEpoch : U64 := 0x400000000000000a

/-- `NSEC_PER_SEC`. -/
def nsecPerSec : Nat := 1000000000

/-- What the build fixes: `NSEC_PER_TICK`, and `WG_CLOCK_UNSET_BELOW`, which only decides
about a warning.  A tick past the end of a second still fits the nanosecond field. -/
structure ClockConfig where
  nsecPerTick : U32
  clockUnsetBelow : U64
  nsecPerTick_pos : 0 < nsecPerTick.toNat
  nsecPerTick_le : nsecPerSec + nsecPerTick.toNat ≤ 2 ^ 32

/-- The allocator's variables. -/
structure Timestamps where
  seconds : U64
  nanos : U32
  clockUnsetWarned : Bool

/-- As the program starts. -/
def Timestamps.zero : Timestamps := ⟨0, 0, false⟩

/-- `struct timespec`; both fields are signed. -/
structure Timespec where
  tvSec : U64
  tvNsec : U64

/-- A call: the caller's buffer, and what the call reads of the system. -/
structure Call where
  out : Bytes 12
  /-- `nxmutex_lock` succeeds. -/
  locked : Bool
  /-- `nxclock_gettime`: the time, if it succeeds. -/
  realtime : Option Timespec

/-- What a call leaves and returns. -/
structure Returned where
  state : Timestamps
  out : Bytes 12
  result : Bool

/-- A time that TAI64N can hold. -/
def Timespec.ok (ts : Timespec) : Bool :=
  !ts.tvSec.slt 0 && !ts.tvNsec.slt 0 && ts.tvNsec.slt (BitVec.ofNat 64 nsecPerSec) &&
    decide (¬ts.tvSec > 0xFFFFFFFFFFFFFFFF - wgTai64UnixEpoch)

/-- The value to hand out when the clock shows `seconds` and `nanos`. -/
def nextValue (k : ClockConfig) (s : Timestamps) (seconds : U64) (nanos : U32) :
    Option (U64 × U32) :=
  if seconds < s.seconds ∨ (seconds = s.seconds ∧ nanos ≤ s.nanos) then
    let nanos := s.nanos + k.nsecPerTick
    if nanos.toNat ≥ nsecPerSec then
      if s.seconds = 0xFFFFFFFFFFFFFFFF then none else some (s.seconds + 1, 0)
    else some (s.seconds, nanos)
  else some (seconds, nanos)

/-- Eight bytes of seconds and four of nanoseconds, big-endian. -/
def encode (seconds : U64) (nanos : U32) : Bytes 12 :=
  writeBe 8 seconds ++ writeBe 4 nanos

/-- `wg_tai64n`. -/
def wgTai64n (k : ClockConfig) (s : Timestamps) (call : Call) : Returned :=
  if ¬call.locked then ⟨s, call.out, false⟩
  else
    match call.realtime with
    | none => ⟨s, call.out, false⟩
    | some ts =>
      if ¬ts.ok then ⟨s, call.out, false⟩
      else
        let s :=
          if ¬s.clockUnsetWarned ∧ ts.tvSec < k.clockUnsetBelow then
            { s with clockUnsetWarned := true }
          else s
        let seconds := ts.tvSec + wgTai64UnixEpoch
        let nsec := ts.tvNsec.setWidth 32
        match nextValue k s seconds (nsec - nsec % k.nsecPerTick) with
        | none => ⟨s, call.out, false⟩
        | some (seconds, nanos) =>
          ⟨{ s with seconds := seconds, nanos := nanos }, encode seconds nanos, true⟩

/-! ### Values as numbers -/

/-- The last value handed out, as a number. -/
def Timestamps.value (s : Timestamps) : Nat := s.seconds.toNat * 2 ^ 32 + s.nanos.toNat

/-- The nanosecond field of a timestamp. -/
def nanosField (out : Bytes 12) : Nat := beNat (out.toList.drop 8)

theorem toList_encode (seconds : U64) (nanos : U32) :
    (encode seconds nanos).toList = (writeBe 8 seconds).toList ++ (writeBe 4 nanos).toList :=
  List.Vector.toList_append _ _

/-- **Byte order is the order of the numbers.** -/
theorem beNat_encode (seconds : U64) (nanos : U32) :
    beNat (encode seconds nanos).toList = seconds.toNat * 2 ^ 32 + nanos.toNat := by
  rw [toList_encode, beNat_append, List.Vector.toList_length, beNat_writeBe 8 seconds (by omega),
    beNat_writeBe 4 nanos (by omega)]
  norm_num

theorem nanosField_encode (seconds : U64) (nanos : U32) :
    nanosField (encode seconds nanos) = nanos.toNat := by
  unfold nanosField
  rw [toList_encode, List.drop_left' (List.Vector.toList_length _)]
  exact beNat_writeBe 4 nanos (by omega)

/-! ### One call -/

/-- The value handed out is past the last one, and its nanoseconds are below a second. -/
theorem nextValue_spec {k : ClockConfig} {s : Timestamps} {seconds seconds' : U64}
    {nanos nanos' : U32} (hs : s.nanos.toNat < nsecPerSec) (hn : nanos.toNat < nsecPerSec)
    (h : nextValue k s seconds nanos = some (seconds', nanos')) :
    s.value < seconds'.toNat * 2 ^ 32 + nanos'.toNat ∧ nanos'.toNat < nsecPerSec := by
  have hpos := k.nsecPerTick_pos
  have hle := k.nsecPerTick_le
  have hlt : s.nanos.toNat < 2 ^ 32 := s.nanos.isLt
  have hadd : (s.nanos + k.nsecPerTick).toNat = s.nanos.toNat + k.nsecPerTick.toNat := by
    rw [BitVec.toNat_add, Nat.mod_eq_of_lt (by omega)]
  unfold nextValue at h
  unfold Timestamps.value
  by_cases hback : seconds < s.seconds ∨ (seconds = s.seconds ∧ nanos ≤ s.nanos)
  · rw [if_pos hback] at h
    simp only [hadd] at h
    by_cases hcarry : s.nanos.toNat + k.nsecPerTick.toNat ≥ nsecPerSec
    · rw [if_pos hcarry] at h
      by_cases hlast : s.seconds = 0xFFFFFFFFFFFFFFFF
      · rw [if_pos hlast] at h
        cases h
      · rw [if_neg hlast] at h
        cases h
        have hne : s.seconds.toNat ≠ 2 ^ 64 - 1 := fun hc => hlast (BitVec.eq_of_toNat_eq hc)
        have h64 := s.seconds.isLt
        have hsucc : (s.seconds + 1).toNat = s.seconds.toNat + 1 := by
          rw [BitVec.toNat_add, show (1 : U64).toNat = 1 from rfl,
            Nat.mod_eq_of_lt (by omega)]
        rw [hsucc]
        exact ⟨by simp; omega, by simp [nsecPerSec]⟩
    · rw [if_neg hcarry] at h
      cases h
      rw [hadd]
      omega
  · rw [if_neg hback] at h
    cases h
    refine ⟨?_, hn⟩
    rcases not_or.mp hback with ⟨hge, hne⟩
    by_cases heq : seconds = s.seconds
    · have hgt : ¬nanos ≤ s.nanos := fun hc => hne ⟨heq, hc⟩
      rw [BitVec.le_def] at hgt
      rw [heq]
      omega
    · have hne' : seconds.toNat ≠ s.seconds.toNat := fun hc => heq (BitVec.eq_of_toNat_eq hc)
      rw [BitVec.lt_def] at hge
      omega

theorem Timespec.ok_nsec {ts : Timespec} (h : ts.ok = true) : ts.tvNsec.toNat < nsecPerSec := by
  unfold Timespec.ok at h
  simp only [Bool.and_eq_true, Bool.not_eq_true'] at h
  obtain ⟨⟨⟨-, hnonneg⟩, hlt⟩, -⟩ := h
  have hlow : ¬ts.tvNsec.toInt < 0 := by
    intro hc
    rw [BitVec.slt_iff_toInt_lt.mpr hc] at hnonneg
    cases hnonneg
  have hhigh : ts.tvNsec.toInt < (BitVec.ofNat 64 nsecPerSec).toInt := BitVec.slt_iff_toInt_lt.mp hlt
  rw [show (BitVec.ofNat 64 nsecPerSec).toInt = nsecPerSec by decide] at hhigh
  rw [BitVec.toInt_eq_toNat_cond] at hlow hhigh
  split at hlow <;> omega

/-- Rounding down to a tick stays below a second. -/
theorem tickNanos_lt {ts : Timespec} (h : ts.ok = true) (tick : U32) :
    (ts.tvNsec.setWidth 32 - ts.tvNsec.setWidth 32 % tick).toNat < nsecPerSec := by
  have hnsec := Timespec.ok_nsec h
  have hle : ts.tvNsec.setWidth 32 % tick ≤ ts.tvNsec.setWidth 32 := by
    rw [BitVec.le_def, BitVec.toNat_umod]
    exact Nat.mod_le _ _
  rw [BitVec.toNat_sub_of_le hle, BitVec.toNat_setWidth]
  have := Nat.mod_le ts.tvNsec.toNat (2 ^ 32)
  omega

/-- All a call can come to. -/
theorem wgTai64n_cases (k : ClockConfig) (s : Timestamps) (call : Call) :
    (∃ warned, wgTai64n k s call = ⟨⟨s.seconds, s.nanos, warned⟩, call.out, false⟩) ∨
    (∃ seconds nanos seconds' nanos' warned, nanos.toNat < nsecPerSec ∧
      nextValue k s seconds nanos = some (seconds', nanos') ∧
      wgTai64n k s call = ⟨⟨seconds', nanos', warned⟩, encode seconds' nanos', true⟩) := by
  unfold wgTai64n
  by_cases hlock : call.locked = true
  · rw [if_neg (not_not.mpr hlock)]
    cases hclock : call.realtime with
    | none => exact Or.inl ⟨_, rfl⟩
    | some ts =>
        by_cases hok : ts.ok = true
        · simp only [if_neg (not_not.mpr hok)]
          generalize hs' : (if ¬s.clockUnsetWarned = true ∧ ts.tvSec < k.clockUnsetBelow then
            { s with clockUnsetWarned := true } else s) = s'
          have hsame : s'.seconds = s.seconds ∧ s'.nanos = s.nanos := by
            subst hs'
            split <;> exact ⟨rfl, rfl⟩
          have hnext : ∀ a b, nextValue k s' a b = nextValue k s a b := by
            intro a b
            unfold nextValue
            rw [hsame.1, hsame.2]
          rw [← hsame.1, ← hsame.2]
          split
          · exact Or.inl ⟨_, rfl⟩
          · rename_i seconds' nanos' hvalue
            rw [hnext] at hvalue
            exact Or.inr ⟨_, _, _, _, _, tickNanos_lt hok _, hvalue, rfl⟩
        · simp only [if_pos hok]
          exact Or.inl ⟨_, rfl⟩
  · rw [if_pos hlock]
    exact Or.inl ⟨_, rfl⟩

/-- A call that reports failure leaves the buffer and the last value. -/
theorem wgTai64n_failed {k : ClockConfig} {s : Timestamps} {call : Call}
    (h : (wgTai64n k s call).result = false) :
    (wgTai64n k s call).out = call.out ∧ (wgTai64n k s call).state.seconds = s.seconds ∧
      (wgTai64n k s call).state.nanos = s.nanos := by
  rcases wgTai64n_cases k s call with ⟨warned, heq⟩ | ⟨_, _, _, _, _, _, _, heq⟩
  · rw [heq]
    exact ⟨rfl, rfl, rfl⟩
  · rw [heq] at h
    cases h

/-- A call that succeeds writes its new last value, which is past the old one. -/
theorem wgTai64n_issued {k : ClockConfig} {s : Timestamps} {call : Call}
    (hs : s.nanos.toNat < nsecPerSec) (h : (wgTai64n k s call).result = true) :
    let r := wgTai64n k s call
    r.out = encode r.state.seconds r.state.nanos ∧ s.value < r.state.value ∧
      r.state.nanos.toNat < nsecPerSec := by
  rcases wgTai64n_cases k s call with ⟨warned, heq⟩ | ⟨_, _, _, _, _, hn, hnext, heq⟩
  · rw [heq] at h
    cases h
  · rw [heq]
    exact ⟨rfl, nextValue_spec hs hn hnext⟩

/-! ### Any number of calls -/

/-- The allocator as a machine that takes calls. -/
def tai64nStep (k : ClockConfig) (s : Timestamps) (call : Call) : Option Timestamps :=
  some (wgTai64n k s call).state

/-- What a call handed out. -/
def issuedBy (k : ClockConfig) (t : Taken Timestamps Call) : Option (Bytes 12) :=
  let r := wgTai64n k t.before t.event
  if r.result then some r.out else none

/-- What a run of calls handed out, oldest first. -/
def issued (k : ClockConfig) (ts : List (Taken Timestamps Call)) : List (Bytes 12) :=
  ts.filterMap (issuedBy k)

/-- What is true between calls: all handed out so far is in order and at most the last
value. -/
structure InOrder (s : Timestamps) (out : List (Bytes 12)) : Prop where
  nanos : s.nanos.toNat < nsecPerSec
  sorted : out.Pairwise fun a b => beNat a.toList < beNat b.toList
  bounded : ∀ a ∈ out, beNat a.toList ≤ s.value
  fields : ∀ a ∈ out, nanosField a < nsecPerSec

theorem inOrder_zero : InOrder Timestamps.zero [] where
  nanos := by decide
  sorted := .nil
  bounded := fun a ha => absurd ha List.not_mem_nil
  fields := fun a ha => absurd ha List.not_mem_nil

/-- **One more call keeps the order.** -/
theorem InOrder.call {k : ClockConfig} {s : Timestamps} {out : List (Bytes 12)} (h : InOrder s out)
    (call : Call) :
    InOrder (wgTai64n k s call).state (out ++ (issuedBy k ⟨s, call, (wgTai64n k s call).state⟩).toList) := by
  unfold issuedBy
  cases hresult : (wgTai64n k s call).result with
  | false =>
      obtain ⟨-, hseconds, hnanos⟩ := wgTai64n_failed hresult
      have hvalue : (wgTai64n k s call).state.value = s.value := by
        unfold Timestamps.value
        rw [hseconds, hnanos]
      simp only [hresult, Bool.false_eq_true, if_false, Option.toList_none, List.append_nil]
      refine ⟨?_, h.sorted, ?_, h.fields⟩
      · rw [hnanos]
        exact h.nanos
      · rw [hvalue]
        exact h.bounded
  | true =>
      obtain ⟨hout, hlt, hn⟩ := wgTai64n_issued h.nanos hresult
      have hspelt : beNat (wgTai64n k s call).out.toList = (wgTai64n k s call).state.value := by
        rw [hout]
        exact beNat_encode _ _
      simp only [hresult, if_true, Option.toList_some]
      refine ⟨hn, List.pairwise_append.mpr ⟨h.sorted, List.pairwise_singleton _ _, ?_⟩, ?_, ?_⟩
      · intro a ha b hb
        rw [List.mem_singleton.mp hb, hspelt]
        exact (h.bounded a ha).trans_lt hlt
      · intro a ha
        rcases List.mem_append.mp ha with ha | ha
        · exact (h.bounded a ha).trans hlt.le
        · rw [List.mem_singleton.mp ha, hspelt]
      · intro a ha
        rcases List.mem_append.mp ha with ha | ha
        · exact h.fields a ha
        · rw [List.mem_singleton.mp ha, hout, nanosField_encode]
          exact hn

theorem inOrder_of_run {k : ClockConfig} {s : Timestamps} {ts : List (Taken Timestamps Call)}
    (h : Run (tai64nStep k) Timestamps.zero ts s) : InOrder s (issued k ts) := by
  induction h with
  | nil => exact inOrder_zero
  | @snoc ts t u call h hstep ih =>
      cases hstep
      unfold issued
      rw [List.filterMap_append]
      exact (ih.call call : InOrder _ (issued k ts ++ _))

/-- **The timestamps handed out are strictly increasing.**  In bytewise order, whatever the
clock did between the calls; every nanosecond field is below a second, and a failed call
changes neither its buffer nor the last value. -/
theorem timestamps_increase (k : ClockConfig) {s : Timestamps} {ts : List (Taken Timestamps Call)}
    (h : Run (tai64nStep k) Timestamps.zero ts s) :
    ((issued k ts).Pairwise fun a b => memcmp a.toList b.toList < 0) ∧
      (∀ out ∈ issued k ts, nanosField out < 1000000000) ∧
      ∀ t ∈ ts, (wgTai64n k t.before t.event).result = false →
        (wgTai64n k t.before t.event).out = t.event.out ∧
          t.after.seconds = t.before.seconds ∧ t.after.nanos = t.before.nanos := by
  have hinv := inOrder_of_run h
  refine ⟨hinv.sorted.imp fun {a b} hab => ?_, hinv.fields, ?_⟩
  · exact (memcmp_neg a.toList b.toList (by simp)).mpr hab
  · intro t ht hfailed
    obtain ⟨hout, hlast⟩ := wgTai64n_failed hfailed
    rw [← Option.some.inj (h.step_of_mem ht)]
    exact ⟨hout, hlast⟩

namespace Sample

/-- A tick of ten milliseconds, and 2026 as the year the clock starts in. -/
def clock : ClockConfig where
  nsecPerTick := 10000000
  clockUnsetBelow := 1798746264
  nsecPerTick_pos := by decide
  nsecPerTick_le := by decide

/-- A call while the clock shows the given time. -/
def call (realtime : Option Timespec) : Call := ⟨Bytes.zero 12, true, realtime⟩

/-- The clock repeats, runs backwards, fails and goes on. -/
def calls : List Call :=
  [call (some ⟨100, 123456789⟩), call (some ⟨100, 123456789⟩), call (some ⟨50, 0⟩), call none,
    call (some ⟨101, 999999999⟩), call (some ⟨101, 999999999⟩)]

end Sample

/-- Five of six calls succeed, in order. -/
theorem timestamps_increase_sample : ∃ s ts, Run (tai64nStep Sample.clock) Timestamps.zero ts s ∧
    (issued Sample.clock ts).length = 5 ∧
    (issued Sample.clock ts).Pairwise fun a b => memcmp a.toList b.toList < 0 := by
  have hsteps : ((steps (tai64nStep Sample.clock) Timestamps.zero Sample.calls).any fun r =>
      (issued Sample.clock r.1).length == 5) = true := by decide +kernel
  obtain ⟨⟨ts, s⟩, hrun, hlength⟩ := (Option.any_eq_true _ _).mp hsteps
  have hrun : Run (tai64nStep Sample.clock) Timestamps.zero ts s := .of_steps hrun
  exact ⟨s, ts, hrun, beq_iff_eq.mp hlength, (timestamps_increase Sample.clock hrun).1⟩

end NuttxWireguard.Kernel
