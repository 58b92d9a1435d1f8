/-
How old a keypair can be.

The code measures ages with a 32-bit millisecond clock that is never zero, so a
difference may be off by one millisecond and wraps after 49 days.  Below the wrap
`expired` says what it should, and the ages that matter here stay far below it as long as
the timers run.

`Young` is the bound: at the last pass of the timers every keypair was younger than three
reject periods, and the current one not past one.  Datagrams, packets and handshakes keep
it, because only a keypair within its reject period is ever promoted.
-/
import NuttxWireguard.Sessions

namespace NuttxWireguard

open Lib

variable {cfg : Config}

/-! ### The clock -/

theorem sysNow_toNat (time : Nat) :
    (sysNow time).toNat = if time % 2 ^ 32 = 0 then 1 else time % 2 ^ 32 := by
  have h0 : BitVec.ofNat 32 time = 0 ↔ time % 2 ^ 32 = 0 := by
    constructor
    · intro h
      have := congrArg BitVec.toNat h
      rwa [BitVec.toNat_ofNat] at this
    · intro h
      exact BitVec.eq_of_toNat_eq (by rw [BitVec.toNat_ofNat, h]; rfl)
  unfold sysNow
  dsimp only
  by_cases h : time % 2 ^ 32 = 0
  · rw [if_pos (h0.mpr h), if_pos h]
    rfl
  · rw [if_neg (fun hc => h (h0.mp hc)), if_neg h, BitVec.toNat_ofNat]

/-- A difference of two readings, up to a millisecond. -/
theorem sysNow_sub {time born : Nat} (hle : born ≤ time) (hlt : time - born < 2 ^ 31) :
    time - born ≤ (sysNow time - sysNow born).toNat + 1 ∧
      (sysNow time - sysNow born).toNat ≤ time - born + 1 := by
  rw [BitVec.toNat_sub, sysNow_toNat, sysNow_toNat]
  split <;> split <;> omega

theorem le_of_expired {time born : Nat} {seconds : U32} (hle : born ≤ time)
    (hlt : time - born < 2 ^ 31) (h : expired (sysNow time) (sysNow born) seconds = true) :
    (seconds * 1000).toNat ≤ time - born + 1 := by
  unfold expired at h
  have hdiff : (seconds * 1000).toNat ≤ (sysNow time - sysNow born).toNat := of_decide_eq_true h
  exact hdiff.trans (sysNow_sub hle hlt).2

theorem le_of_not_expired {time born : Nat} {seconds : U32} (hle : born ≤ time)
    (hlt : time - born < 2 ^ 31) (h : expired (sysNow time) (sysNow born) seconds = false) :
    time - born ≤ (seconds * 1000).toNat := by
  unfold expired at h
  have hdiff : ¬(seconds * 1000).toNat ≤ (sysNow time - sysNow born).toNat :=
    of_decide_eq_false h
  have := (sysNow_sub hle hlt).1
  omega

/-! ### Keypairs -/

/-- `REJECT_AFTER_TIME` and three times it, in milliseconds. -/
def rejectMillis : Nat := 180000
def forgetMillis : Nat := 540000

theorem rejectAfterTime_millis : (rejectAfterTime * 1000).toNat = rejectMillis := by decide

theorem forgetAfterTime_millis : (rejectAfterTime * 3 * 1000).toNat = forgetMillis := by decide

/-- At time `time`, with the last pass of the timers at `pass`: a keypair of one of the
peers in `valid` bears its start, was younger than three reject periods at the last pass
and, if it is the current one, not past one. -/
structure Young (valid : Fin cfg.maxPeers → Bool) (pass time : Nat)
    (log : List (Obs cfg.maxPeers)) (x : Fin cfg.maxPeers) (s : Slot) (kp : Keypair cfg) :
    Prop where
  millis : kp.keypairMillis = sysNow kp.born
  born : kp.born ≤ time
  started : .started x kp.sid kp.initiator kp.sendingKey kp.born ∈ log
  age : valid x = true → pass < kp.born + forgetMillis
  curr : valid x = true → s = .curr → pass ≤ kp.born + rejectMillis

theorem young_invariant {valid : Fin cfg.maxPeers → Bool} {pass time : Nat} (hle : pass ≤ time)
    (hlt : time ≤ pass + 1000) : KeypairInvariant time (Young valid pass time) where
  frame := by
    intro log x s kp o h _
    exact ⟨h.millis, h.born, List.mem_cons_of_mem _ h.started, h.age, h.curr⟩
  demote := fun h => ⟨h.millis, h.born, h.started, h.age, fun _ hs => nomatch hs⟩
  encrypt := by
    intro log x s kp lastTx h _ _ _
    exact ⟨h.millis, h.born, List.mem_cons_of_mem _ h.started, h.age, h.curr⟩
  refuse := by
    intro log x s kp counter h _
    exact ⟨h.millis, h.born, List.mem_cons_of_mem _ h.started, h.age, h.curr⟩
  accept := by
    intro log x s kp counter h hlimit _
    obtain ⟨_, _, hkp⟩ := receivedKeypair_cases (sysNow time) kp counter
    rw [hkp]
    refine ⟨h.millis, h.born, List.mem_cons_of_mem _ h.started, h.age, fun hx _ => ?_⟩
    -- a keypair past its reject period accepts nothing
    have hexp : expired (sysNow time) (sysNow kp.born) rejectAfterTime = false := by
      unfold receivingExhausted at hlimit
      simp only [Bool.or_eq_false_iff] at hlimit
      rw [← h.millis]
      exact hlimit.1.2
    have hborn := h.born
    have hage := h.age hx
    unfold forgetMillis at hage
    have hfresh := le_of_not_expired hborn (by omega) hexp
    rw [rejectAfterTime_millis] at hfresh
    show pass ≤ kp.born + rejectMillis
    omega
  start := by
    intro log x sid kp hnew _
    refine ⟨by rw [hnew.millis, hnew.born], by rw [hnew.born], ?_, fun _ => ?_, fun _ _ => ?_⟩
    · rw [hnew.born, hnew.sid]
      exact List.mem_cons_self
    · rw [hnew.born]
      unfold forgetMillis
      omega
    · rw [hnew.born]
      omega

/-- What a pass of the timers at `time` must leave for the bound to hold from it. -/
theorem Young.pass {valid : Fin cfg.maxPeers → Bool} {pass time : Nat}
    {log : List (Obs cfg.maxPeers)} {x : Fin cfg.maxPeers} {s : Slot} {kp : Keypair cfg}
    (h : Young valid pass time log x s kp)
    (hage : valid x = true → time < kp.born + forgetMillis)
    (hcurr : valid x = true → s = .curr → time ≤ kp.born + rejectMillis) :
    Young valid time time log x s kp :=
  ⟨h.millis, h.born, h.started, hage, hcurr⟩

/-- A later clock. -/
theorem Young.later {valid : Fin cfg.maxPeers → Bool} {pass time time' : Nat}
    {log : List (Obs cfg.maxPeers)} {x : Fin cfg.maxPeers} {s : Slot} {kp : Keypair cfg}
    (h : Young valid pass time log x s kp) (hle : time ≤ time') :
    Young valid pass time' log x s kp :=
  ⟨h.millis, h.born.trans hle, h.started, h.age, h.curr⟩

end NuttxWireguard
