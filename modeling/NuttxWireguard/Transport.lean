/-
Transport over whole runs, in both drivers.

A session's keypair waits in one slot, is promoted to another and demoted to a third, while its
datagrams come and go.  What is decided about a datagram is decided from the keypair in the slot
it was found in; the log has every datagram of the session.  In every run the two agree: each
verdict is the one of a window over all counters accepted in the session so far
(`verdictsExact`), so no counter of a session is accepted twice.

The rest carries to one driver what is known of the other: nonces are used once by the in-kernel
driver too, and the flat port keeps its slots to their roles and accepts no initiation twice.
-/
import NuttxWireguard.Flat.Nonce
import NuttxWireguard.Kernel.Slots
import NuttxWireguard.Kernel.Timestamps

namespace NuttxWireguard

open Lib

variable {cfg : Config}

/-! ### Verdicts -/

/-- Every verdict on a datagram that authenticated is the one of a window of `size` over all
counters accepted in its session before. -/
structure VerdictsExact {n : Nat} (size : Nat) (log : List (Obs n)) : Prop where
  /-- The session was started with the peer the datagram is from. -/
  started : ∀ {x sid counter fresh time older},
    .opened x sid counter fresh time :: older <:+ log →
    ∃ initiator key t, .started x sid initiator key t ∈ older
  verdict : ∀ {x sid counter fresh time older},
    .opened x sid counter fresh time :: older <:+ log →
    (fresh = true ↔ counter.toNat ≠ 2 ^ 64 - 1 ∧
      Window.Accepts size (countersAccepted sid older) counter.toNat)

section Verdicts

variable {n size : Nat} {log : List (Obs n)} {o : Obs n}

theorem verdictsExact_nil : VerdictsExact size ([] : List (Obs n)) where
  started := fun h => absurd h.length_le (Nat.not_succ_le_zero _)
  verdict := fun h => absurd h.length_le (Nat.not_succ_le_zero _)

/-- An entry that is no verdict. -/
theorem VerdictsExact.cons (h : VerdictsExact size log)
    (ho : ∀ x sid counter fresh time, o ≠ .opened x sid counter fresh time) :
    VerdictsExact size (o :: log) where
  started := by
    intro x sid counter fresh time older hsuffix
    rcases List.suffix_cons_iff.mp hsuffix with heq | hsuffix
    · exact absurd (List.cons.inj heq).1.symm (ho _ _ _ _ _)
    · exact h.started hsuffix
  verdict := by
    intro x sid counter fresh time older hsuffix
    rcases List.suffix_cons_iff.mp hsuffix with heq | hsuffix
    · exact absurd (List.cons.inj heq).1.symm (ho _ _ _ _ _)
    · exact h.verdict hsuffix

/-- A verdict from a keypair that tracks its session. -/
theorem VerdictsExact.opened {log : List (Obs cfg.maxPeers)}
    (h : VerdictsExact (64 * cfg.replayWords) log) {x : Fin cfg.maxPeers} {s : Slot}
    {kp : Keypair cfg} (hreceiving : Receiving log x s kp) (hsending : Sending log x s kp)
    (counter : U64) (time : Nat) :
    VerdictsExact (64 * cfg.replayWords)
      (.opened x kp.sid counter (Kernel.wgCheckReplay kp counter).1 time :: log) where
  started := by
    intro y sid counter' fresh t older hsuffix
    rcases List.suffix_cons_iff.mp hsuffix with heq | hsuffix
    · cases heq
      exact ⟨_, _, _, hsending.started⟩
    · exact h.started hsuffix
  verdict := by
    intro y sid counter' fresh t older hsuffix
    rcases List.suffix_cons_iff.mp hsuffix with heq | hsuffix
    · cases heq
      rw [← succ_ne_zero_iff]
      exact (wgCheckReplay_spec hreceiving counter).1
    · exact h.verdict hsuffix

/-- Session and counter of an accepted datagram. -/
def Obs.acceptance : Obs n → Option (Nat × U64)
  | .opened _ sid counter true _ => some (sid, counter)
  | _ => none

theorem mem_countersAccepted {sid : Nat} {counter : U64}
    (h : (sid, counter) ∈ log.filterMap Obs.acceptance) :
    counter.toNat ∈ countersAccepted sid log := by
  obtain ⟨o, ho, haccepted⟩ := List.mem_filterMap.mp h
  refine List.mem_filterMap.mpr ⟨o, ho, ?_⟩
  cases o with
  | opened x s counter' fresh time =>
      cases fresh with
      | true =>
          cases haccepted
          exact if_pos rfl
      | false => cases haccepted
  | _ => cases haccepted

/-- What is accepted was not accepted before. -/
theorem VerdictsExact.nodup (h : VerdictsExact size log) :
    (log.filterMap Obs.acceptance).Nodup := by
  have hall : ∀ l, l <:+ log → (l.filterMap Obs.acceptance).Nodup := by
    intro l
    induction l with
    | nil => exact fun _ => List.nodup_nil
    | cons o older ih =>
        intro hsuffix
        have holder := ih ((List.suffix_cons o older).trans hsuffix)
        cases haccepted : o.acceptance with
        | none =>
            rw [List.filterMap_cons_none haccepted]
            exact holder
        | some a =>
            rw [List.filterMap_cons_some haccepted]
            refine List.nodup_cons.mpr ⟨fun hmem => ?_, holder⟩
            cases o with
            | opened x sid counter fresh time =>
                cases fresh with
                | true =>
                    cases haccepted
                    exact ((h.verdict hsuffix).mp rfl).2.1 (mem_countersAccepted hmem)
                | false => cases haccepted
            | _ => cases haccepted
  exact hall log (List.suffix_refl log)

end Verdicts

/-- The counters are sound and so are the verdicts. -/
structure View.Judged (v : View cfg) : Prop where
  sound : v.Sound
  verdicts : VerdictsExact (64 * cfg.replayWords) v.log

theorem View.Fresh.judged {v : View cfg} (h : v.Fresh) : v.Judged where
  sound := h.sound
  verdicts := by
    rw [h.log]
    exact verdictsExact_nil

/-- **Every step keeps the verdicts exact.** -/
theorem Micro.judged {time : Nat} {v w : View cfg} (h : Micro time v w) (hv : v.Judged) :
    w.Judged where
  sound := h.sound hv.sound
  verdicts := by
    have hopened : ∀ {x s kp}, kp = (v.peers x).slots s → kp.valid = true → ∀ counter,
        VerdictsExact (64 * cfg.replayWords)
          (.opened x kp.sid counter (Kernel.wgCheckReplay kp counter).1 time :: v.log) := by
      intro x s kp hkp hvalid counter
      have hfull : full ((v.peers x).slots s) = true := by rw [← hkp]; exact hvalid
      have hreceiving := hv.sound.receiving x s hfull
      have hsending := hv.sound.sending x s hfull
      rw [← hkp] at hreceiving hsending
      exact hv.verdicts.opened hreceiving hsending counter time
    cases h with
    | drop x s => exact hv.verdicts
    | encrypt x kp lastTx => exact hv.verdicts.cons fun _ _ _ _ _ hc => by cases hc
    | refuse x s kp counter hkp hvalid hstale =>
        have hjudged := hopened hkp hvalid counter
        rw [hstale] at hjudged
        exact hjudged
    | accept x s kp counter ip port hkp hvalid hlimit hfresh =>
        have hjudged := hopened hkp hvalid counter
        rw [hfresh] at hjudged
        exact hjudged
    | start x kp hnew => exact hv.verdicts.cons fun _ _ _ _ _ hc => by cases hc
    | initiation x => exact hv.verdicts.cons fun _ _ _ _ _ hc => by cases hc
    | acceptInit x timestamp ip port => exact hv.verdicts.cons fun _ _ _ _ _ hc => by cases hc
    | acceptResponse x ip port => exact hv.verdicts.cons fun _ _ _ _ _ hc => by cases hc
    | acceptCookie x => exact hv.verdicts.cons fun _ _ _ _ _ hc => by cases hc
    | resetEndpoint x => exact hv.verdicts
    | inject x packet => exact hv.verdicts.cons fun _ _ _ _ _ hc => by cases hc

/-- Configuration starts no session and judges no datagram. -/
theorem Reconf.judged {v w : View cfg} (h : Reconf v w) (hv : v.Judged) : w.Judged where
  sound := {
    numbered := h.numbered hv.sound.numbered
    receiving := h.each hv.sound.receiving
    sending := h.each hv.sound.sending
    sentOnce := by
      rw [h.log_eq]
      exact hv.sound.sentOnce }
  verdicts := by
    rw [h.log_eq]
    exact hv.verdicts

theorem Flat.ReachableState.judged {c : Crypto} {n : Flat.Netdev cfg}
    (h : Flat.ReachableState c n) : n.view.Judged :=
  h.view_invariant c (fun _ => View.Fresh.judged) (fun _ _ _ => Micro.judged)

theorem Kernel.ReachableState.judged {c : Crypto} {n : Kernel.Netdev cfg}
    (h : Kernel.ReachableState c n) : n.view.Judged :=
  h.view_invariant c (fun _ => View.Fresh.judged) (fun _ _ _ => Micro.judged)
    (fun _ _ => Reconf.judged)

/-- **In every run of either driver each verdict is exact, and no counter of a session is
accepted twice**, whichever slots its keypair went through. -/
theorem verdictsExact (c : Crypto) :
    (∀ n : Flat.Netdev cfg, Flat.ReachableState c n →
      VerdictsExact (64 * cfg.replayWords) n.log ∧ (n.log.filterMap Obs.acceptance).Nodup) ∧
    ∀ n : Kernel.Netdev cfg, Kernel.ReachableState c n →
      VerdictsExact (64 * cfg.replayWords) n.log ∧ (n.log.filterMap Obs.acceptance).Nodup :=
  ⟨fun _ h => ⟨h.judged.verdicts, h.judged.verdicts.nodup⟩,
    fun _ h => ⟨h.judged.verdicts, h.judged.verdicts.nodup⟩⟩

/-- Three datagrams of which one is a repetition. -/
theorem verdictsExact_sample : ∃ n : Flat.Netdev Sample.config,
    VerdictsExact (64 * Sample.config.replayWords) n.log ∧
      (n.log.filterMap Obs.acceptance).length = 2 ∧ (n.log.filterMap Obs.acceptance).Nodup := by
  obtain ⟨n, hn, htwo⟩ := Flat.Sample.exists_reachable
    [Flat.Sample.rxInitiation 1001, Flat.Sample.rxData 1002 0 [], Flat.Sample.rxData 1003 0 [],
      Flat.Sample.rxData 1004 1 []]
    (fun n => decide ((n.log.filterMap Obs.acceptance).length = 2)) (by decide +kernel)
  obtain ⟨hexact, hnodup⟩ := (verdictsExact Crypto.plain).1 n hn
  exact ⟨n, hexact, of_decide_eq_true htwo, hnodup⟩

/-! ### Nonces of the in-kernel driver -/

/-- What the log of a driver says about its nonces, and its keypairs about their counters. -/
structure NoncesOnce (v : View cfg) : Prop where
  nodup : (v.log.filterMap Obs.nonce).Nodup
  limit : ∀ o ∈ v.log, ∀ key counter, o.nonce = some (key, counter) → counter < rejectAfterMessages
  count : ∀ x s, ((v.peers x).slots s).valid = true →
    ((v.peers x).slots s).sendingCounter.toNat
      = (countersSent ((v.peers x).slots s).sid v.log).length

theorem View.Sound.noncesOnce {v : View cfg} (hv : v.Sound) (hkeys : DistinctKeys v.log) :
    NoncesOnce v where
  nodup := hv.sentOnce.nonce_nodup hkeys
  limit := by
    intro o ho key counter he
    obtain ⟨⟨sid, key', counter'⟩, he', hk⟩ := Option.map_eq_some_iff.mp he
    cases hk
    exact hv.sentOnce.limit o ho sid key counter he'
  count := fun x s hvalid => (hv.sending x s hvalid).count

namespace Kernel

variable (c : Crypto)

/-- **The in-kernel driver uses no nonce twice**, however it is reconfigured, taken down and
brought up again in between. -/
theorem nonces_once {n : Netdev cfg} (h : ReachableState c n) (hkeys : DistinctKeys n.log) :
    NoncesOnce n.view :=
  h.judged.sound.noncesOnce hkeys

/-- Two packets encrypted in the session of a confirmed initiation. -/
theorem nonces_once_sample : ∃ n : Netdev Sample.config,
    (n.log.filterMap Obs.nonce).length = 2 ∧ NoncesOnce n.view := by
  obtain ⟨n, hn, hrun⟩ := Sample.exists_reachable
    (Sample.bringUp ++ [Sample.rxInitiation 1001, Sample.rxData 1002 0 (Sample.packet 5),
      .transmit (Sample.env 1003) (Sample.packet 1), .transmit (Sample.env 1004) (Sample.packet 1)])
    (fun n => n.log.all (fun o => o.session = none ∨ o.session = some 0) &&
      decide ((n.log.filterMap Obs.nonce).length = 2)) (by decide +kernel)
  simp only [Bool.and_eq_true, List.all_eq_true, decide_eq_true_eq] at hrun
  refine ⟨n, hrun.2, nonces_once Crypto.plain hn ?_⟩
  intro x y sid sid' i i' key time time' hs hs'
  have h0 : some sid = some 0 := (hrun.1 _ hs).resolve_left (by simp [Obs.session])
  have h0' : some sid' = some 0 := (hrun.1 _ hs').resolve_left (by simp [Obs.session])
  exact Option.some.inj (h0.trans h0'.symm)

end Kernel

/-! ### Slots and initiations of the flat port -/

namespace Flat

variable (c : Crypto)

/-- The discipline of the three slots. -/
structure SlotsInRole (n : Netdev cfg) : Prop where
  /-- `next` was started as responder and has accepted nothing. -/
  next : ∀ x, (n.peer x).nextKeypair.valid = true →
    (∃ key time, .started x (n.peer x).nextKeypair.sid false key time ∈ n.log) ∧
      countersAccepted (n.peer x).nextKeypair.sid n.log = []
  /-- `curr` was started as initiator or has accepted something. -/
  curr : ∀ x, (n.peer x).currKeypair.valid = true →
    (∃ key time, .started x (n.peer x).currKeypair.sid true key time ∈ n.log) ∨
      countersAccepted (n.peer x).currKeypair.sid n.log ≠ []
  /-- The port sends on `curr` or not at all. -/
  sends : ∀ x, sendingSlot (n.peer x).keypair = .curr
  /-- A session sits in one slot of one peer. -/
  apart : ∀ x y s t, ((n.peer x).keypair s).valid = true → ((n.peer y).keypair t).valid = true →
    ((n.peer x).keypair s).sid = ((n.peer y).keypair t).sid → x = y ∧ s = t
  /-- What is dropped is erased: a slot without a session holds no key. -/
  erased : ∀ x s, ((n.peer x).keypair s).valid = false → (n.peer x).keypair s = Keypair.zero
  /-- Key confirmation. -/
  confirmed : ∀ {x sid initiator key counter time older},
    .encrypted x sid initiator key counter time :: older <:+ n.log →
    (sid, initiator) ∈ sessionsStarted older ∧
      (initiator = false → countersAccepted sid older ≠ [])

/-- **In every reachable state the port's slots are in their roles.** -/
theorem slotsInRole {n : Netdev cfg} (h : ReachableState c n) : SlotsInRole n := by
  have hv : n.view.InRole :=
    h.view_invariant c (fun _ => View.Fresh.inRole) (fun _ _ _ => Micro.inRole)
  have hclean : n.view.Clean :=
    h.view_invariant c (fun _ => View.Fresh.clean) (fun _ _ _ => Micro.clean)
  have hcurr : ∀ x, (n.peer x).currKeypair.valid = true →
      (n.peer x).currKeypair.initiator = true ∨ (n.peer x).currKeypair.lastRx ≠ 0 :=
    fun x hvalid => (hv.role x .curr hvalid).curr rfl
  refine ⟨fun x hvalid => ?_, fun x hvalid => ?_, fun x => sendingSlot_eq_curr (hcurr x),
    hv.numbered.apart, fun x s hs => ?_, hv.confirmed.encrypted⟩
  · have hstarted := (hv.sending x .next hvalid).started
    obtain ⟨hresponder, haccepted, -⟩ := (hv.role x .next hvalid).next rfl
    rw [hresponder] at hstarted
    exact ⟨⟨_, _, hstarted⟩, haccepted⟩
  · have hstarted := (hv.sending x .curr hvalid).started
    rcases hcurr x hvalid with hinitiator | hrx
    · change .started x _ (n.peer x).currKeypair.initiator _ _ ∈ n.log at hstarted
      rw [hinitiator] at hstarted
      exact Or.inl ⟨_, _, hstarted⟩
    · exact Or.inr ((hv.role x .curr hvalid).confirmed hrx)
  · exact hclean x s hs

/-- A session that waits. -/
theorem slotsInRole_sample : ∃ n : Netdev Sample.config,
    (n.peer Sample.first).nextKeypair.valid = true ∧ SlotsInRole n := by
  obtain ⟨n, hn, hvalid⟩ := Sample.exists_reachable [Sample.rxInitiation 1001]
    (fun n => (n.peer Sample.first).nextKeypair.valid) (by decide +kernel)
  exact ⟨n, hvalid, slotsInRole Crypto.plain hn⟩

/-- **Along every run of the port the timestamps it accepts from a peer increase**, from above the
one it started with to the one it keeps, whatever is received and however often the interface
goes down and up. -/
theorem initiations_increase {n m : Netdev cfg} {ts : List (Taken (Netdev cfg) (Event cfg))}
    (h : Run (step c) n ts m) (x : Fin cfg.maxPeers) : Advances x n.view m.view :=
  h.relates (R := fun a b : Netdev cfg => Advances x a.view b.view) (fun _ => .refl _) .trans
    fun k _ hs =>
      have hpath : Path (k.event.time.getD 0) _ _ :=
        step_path c (fun t ht => by rw [Option.mem_def.mp ht]; rfl) hs
      hpath.advances x

/-- An initiation is accepted, and the same one is not accepted again after the interface was
taken down. -/
theorem initiations_increase_sample : ∃ (n m : Netdev Sample.config) (t : Nat),
    timestampsAccepted Sample.first m.log = [t] ∧ Advances Sample.first n.view m.view := by
  have hseen : (Sample.initial.any fun n => (steps (step Crypto.plain) n
      [Sample.rxInitiation 1001, .ifdown, .ifup, Sample.rxInitiation 2001]).any fun r =>
        decide ((timestampsAccepted Sample.first r.2.log).length = 1)) = true := by
    decide +kernel
  obtain ⟨n, -, hseen⟩ := (Option.any_eq_true _ _).mp hseen
  obtain ⟨⟨ts, m⟩, hrun, hone⟩ := (Option.any_eq_true _ _).mp hseen
  obtain ⟨t, ht⟩ := List.length_eq_one_iff.mp (of_decide_eq_true hone)
  exact ⟨n, m, t, ht, initiations_increase Crypto.plain (.of_steps hrun) Sample.first⟩

end Flat

end NuttxWireguard
