/-
What the driver's three slots hold.

In every reachable state `next` holds a session the driver answered and has not heard on,
`curr` one it opened itself or has heard on, and no session sits in two slots.  Key
confirmation follows: the driver encrypts only under `curr`, so under a session it answered
only after a datagram was accepted in it.

Heard on means accepted.  A datagram with the last counter of 64 bits authenticates under
`next` too, is refused, and leaves the keypair where it waits.
-/
import NuttxWireguard.Kernel.Steps

namespace NuttxWireguard

open Lib

variable {cfg : Config}

/-! ### Encryptions in the log -/

/-- The session an entry starts, and whether as initiator. -/
def Obs.startedAs {n : Nat} : Obs n → Option (Nat × Bool)
  | .started _ sid initiator _ _ => some (sid, initiator)
  | _ => none

/-- The sessions started so far, newest first. -/
def sessionsStarted {n : Nat} (log : List (Obs n)) : List (Nat × Bool) :=
  log.filterMap Obs.startedAs

/-- Each session is started once, and encrypts, as responder, only once it is confirmed. -/
structure KeysConfirmed {n : Nat} (log : List (Obs n)) : Prop where
  startedOnce : ((sessionsStarted log).map Prod.fst).Nodup
  encrypted : ∀ {x sid initiator key counter time older},
    .encrypted x sid initiator key counter time :: older <:+ log →
    (sid, initiator) ∈ sessionsStarted older ∧
      (initiator = false → countersAccepted sid older ≠ [])

theorem keysConfirmed_nil {n : Nat} : KeysConfirmed ([] : List (Obs n)) where
  startedOnce := List.nodup_nil
  encrypted := fun h => absurd h.length_le (Nat.not_succ_le_zero _)

section Log

variable {n : Nat} {o : Obs n} {log : List (Obs n)} {sid : Nat} {initiator : Bool}

theorem session_of_mem_sessionsStarted (h : (sid, initiator) ∈ sessionsStarted log) :
    ∃ o ∈ log, o.session = some sid := by
  obtain ⟨o, ho, hstarted⟩ := List.mem_filterMap.mp h
  refine ⟨o, ho, ?_⟩
  cases o with
  | started x s i key time => cases hstarted; rfl
  | _ => cases hstarted

theorem mem_sessionsStarted {x : Fin n} {key : Key} {time : Nat}
    (h : .started x sid initiator key time ∈ log) : (sid, initiator) ∈ sessionsStarted log :=
  List.mem_filterMap.mpr ⟨_, h, rfl⟩

/-- An entry that starts nothing and encrypts nothing. -/
theorem KeysConfirmed.cons_of_none (h : KeysConfirmed log) (hs : o.startedAs = none)
    (he : o.encryption = none) : KeysConfirmed (o :: log) where
  startedOnce := by
    unfold sessionsStarted
    rw [List.filterMap_cons_none hs]
    exact h.startedOnce
  encrypted := by
    intro x sid initiator key counter time older hsuffix
    rcases List.suffix_cons_iff.mp hsuffix with heq | hsuffix
    · cases heq
      cases he
    · exact h.encrypted hsuffix

/-- A session with a number of its own. -/
theorem KeysConfirmed.started (h : KeysConfirmed log) (x : Fin n) (key : Key) (time : Nat)
    (hnew : ∀ o ∈ log, sid ∉ o.session) :
    KeysConfirmed (.started x sid initiator key time :: log) where
  startedOnce := by
    show (sid :: (sessionsStarted log).map Prod.fst).Nodup
    refine List.nodup_cons.mpr ⟨fun hmem => ?_, h.startedOnce⟩
    obtain ⟨⟨s, i⟩, hs, rfl⟩ := List.mem_map.mp hmem
    obtain ⟨o, ho, hsession⟩ := session_of_mem_sessionsStarted hs
    exact hnew o ho hsession
  encrypted := by
    intro y s i k counter t older hsuffix
    rcases List.suffix_cons_iff.mp hsuffix with heq | hsuffix
    · cases heq
    · exact h.encrypted hsuffix

end Log

/-- Encrypting under a keypair in its role. -/
theorem KeysConfirmed.encrypt {log : List (Obs cfg.maxPeers)} (h : KeysConfirmed log)
    {x : Fin cfg.maxPeers} {s : Slot} {kp : Keypair cfg} (hsending : Sending log x s kp)
    (hrole : Role log x s kp) (husable : sendingUsable kp = true) (time : Nat) :
    KeysConfirmed
      (.encrypted x kp.sid kp.initiator kp.sendingKey kp.sendingCounter time :: log) where
  startedOnce := h.startedOnce
  encrypted := by
    intro y sid i key counter t older hsuffix
    rcases List.suffix_cons_iff.mp hsuffix with heq | hsuffix
    · cases heq
      refine ⟨mem_sessionsStarted hsending.started, fun hresponder => hrole.confirmed ?_⟩
      unfold sendingUsable at husable
      rw [hresponder, Bool.false_or, Bool.and_eq_true] at husable
      exact of_decide_eq_true husable.2
    · exact h.encrypted hsuffix

/-- A session started as responder is not one started as initiator. -/
theorem KeysConfirmed.initiator_eq {n : Nat} {log : List (Obs n)} (h : KeysConfirmed log)
    {sid : Nat} {i j : Bool} (hi : (sid, i) ∈ sessionsStarted log)
    (hj : (sid, j) ∈ sessionsStarted log) : i = j :=
  congrArg Prod.snd (List.inj_on_of_nodup_map h.startedOnce hi hj rfl)

/-! ### Every run -/

/-- What the slots hold and what they were used for. -/
structure View.InRole (v : View cfg) : Prop where
  numbered : v.Numbered
  sending : v.Each Sending
  role : v.Each Role
  confirmed : KeysConfirmed v.log

theorem View.Fresh.inRole {v : View cfg} (h : v.Fresh) : v.InRole where
  numbered := .fresh h
  sending := h.each
  role := h.each
  confirmed := by
    rw [h.log]
    exact keysConfirmed_nil

theorem Reconf.inRole {v w : View cfg} (h : Reconf v w) (hv : v.InRole) : w.InRole where
  numbered := h.numbered hv.numbered
  sending := h.each hv.sending
  role := h.each hv.role
  confirmed := by
    rw [h.log_eq]
    exact hv.confirmed

/-- **Every step keeps the slots to their roles.** -/
theorem Micro.inRole {time : Nat} {v w : View cfg} (h : Micro time v w) (hv : v.InRole) :
    w.InRole where
  numbered := h.numbered hv.numbered
  sending := h.each_keypair (sending_invariant time) hv.numbered hv.sending
  role := h.each_keypair (role_invariant time) hv.numbered hv.role
  confirmed := by
    cases h with
    | drop x s => exact hv.confirmed
    | encrypt x kp lastTx hkp husable hlimit =>
        have hfull : full ((v.peers x).slots (sendingSlot (v.peers x).slots)) = true :=
          hkp ▸ sendingUsable_valid husable
        have hsending := hv.sending x _ hfull
        have hrole := hv.role x _ hfull
        rw [← hkp] at hsending hrole
        exact hv.confirmed.encrypt hsending hrole husable time
    | refuse x s kp counter => exact hv.confirmed.cons_of_none rfl rfl
    | accept x s kp counter ip port => exact hv.confirmed.cons_of_none rfl rfl
    | start x kp hnew =>
        exact hv.confirmed.started x kp.sendingKey time
          fun o ho hs => Nat.lt_irrefl _ (hv.numbered.log_lt o ho _ hs)
    | initiation x => exact hv.confirmed.cons_of_none rfl rfl
    | acceptInit x timestamp ip port => exact hv.confirmed.cons_of_none rfl rfl
    | acceptResponse x ip port => exact hv.confirmed.cons_of_none rfl rfl
    | acceptCookie x => exact hv.confirmed.cons_of_none rfl rfl
    | resetEndpoint x => exact hv.confirmed
    | inject x packet => exact hv.confirmed.cons_of_none rfl rfl

namespace Kernel

variable (c : Crypto)

/-- The discipline of the three slots. -/
structure SlotDiscipline (n : Netdev cfg) : Prop where
  /-- `next` was started as responder.  Nothing has been accepted under it, and what
  authenticated under it carried the last counter. -/
  next : ∀ x, (n.peer x).nextKeypair.valid = true →
    (∃ key time, .started x (n.peer x).nextKeypair.sid false key time ∈ n.log) ∧
      countersAccepted (n.peer x).nextKeypair.sid n.log = [] ∧
      ∀ counter ∈ countersOpened (n.peer x).nextKeypair.sid n.log, counter.toNat = 2 ^ 64 - 1
  /-- `curr` was started as initiator or is confirmed. -/
  curr : ∀ x, (n.peer x).currKeypair.valid = true →
    (∃ key time, .started x (n.peer x).currKeypair.sid true key time ∈ n.log) ∨
      countersAccepted (n.peer x).currKeypair.sid n.log ≠ []
  /-- A session sits in one slot of one peer. -/
  apart : ∀ x y s t, ((n.peer x).keypair s).valid = true → ((n.peer y).keypair t).valid = true →
    ((n.peer x).keypair s).sid = ((n.peer y).keypair t).sid → x = y ∧ s = t
  /-- Key confirmation: what was encrypted under a session started as responder, was
  encrypted after a datagram had been accepted under it. -/
  confirmed : ∀ x y sid initiator key key' counter time time' older,
    .started y sid false key' time' ∈ n.log →
    .encrypted x sid initiator key counter time :: older <:+ n.log →
    countersAccepted sid older ≠ []

/-- **In every reachable state the slots are in their roles.** -/
theorem slotDiscipline {n : Netdev cfg} (h : ReachableState c n) : SlotDiscipline n := by
  have hv : n.view.InRole :=
    h.view_invariant c (fun _ => View.Fresh.inRole) (fun _ _ _ => Micro.inRole)
      (fun _ _ => Reconf.inRole)
  refine ⟨fun x hvalid => ?_, fun x hvalid => ?_, hv.numbered.apart, ?_⟩
  · have hstarted := (hv.sending x .next hvalid).started
    obtain ⟨hresponder, haccepted, hopened⟩ := (hv.role x .next hvalid).next rfl
    rw [hresponder] at hstarted
    exact ⟨⟨_, _, hstarted⟩, haccepted, hopened⟩
  · have hstarted := (hv.sending x .curr hvalid).started
    have hrole := hv.role x .curr hvalid
    rcases hrole.curr rfl with hinitiator | hrx
    · rw [hinitiator] at hstarted
      exact Or.inl ⟨_, _, hstarted⟩
    · exact Or.inr (hrole.confirmed hrx)
  · intro x y sid initiator key key' counter time time' older hstarted hsuffix
    obtain ⟨hmem, hconfirmed⟩ := hv.confirmed.encrypted hsuffix
    have hlog := ((List.suffix_cons _ older).trans hsuffix).filterMap Obs.startedAs
    exact hconfirmed (hv.confirmed.initiator_eq (hlog.subset hmem) (mem_sessionsStarted hstarted))

/-- The discipline at a state where a session waits in `next`. -/
theorem slotDiscipline_waiting : ∃ n : Netdev Sample.config,
    (n.peer Sample.first).nextKeypair.valid = true ∧ SlotDiscipline n := by
  obtain ⟨n, hn, hvalid⟩ := Sample.exists_reachable (Sample.bringUp ++ [Sample.rxInitiation 1001])
    (fun n => (n.peer Sample.first).nextKeypair.valid) (by decide +kernel)
  exact ⟨n, hvalid, slotDiscipline Crypto.plain hn⟩

/-- A datagram may authenticate under `next` and leave it there. -/
theorem opened_waiting : ¬∀ n : Netdev Sample.config, ReachableState Crypto.plain n →
    ∀ x, (n.peer x).nextKeypair.valid = true →
      countersOpened (n.peer x).nextKeypair.sid n.log = [] := by
  intro hall
  obtain ⟨n, hn, hrun⟩ := Sample.exists_reachable
    (Sample.bringUp ++ [Sample.rxInitiation 1001, Sample.rxData 1002 0xFFFFFFFFFFFFFFFF []])
    (fun n => (n.peer Sample.first).nextKeypair.valid &&
      decide (countersOpened (n.peer Sample.first).nextKeypair.sid n.log ≠ [])) (by decide +kernel)
  simp only [Bool.and_eq_true, decide_eq_true_eq] at hrun
  exact hrun.2 (hall n hn Sample.first hrun.1)

end Kernel

end NuttxWireguard
