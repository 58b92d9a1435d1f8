/-
Counters of a session.

A keypair counts what was sent on it and remembers, in its window, what was received.
The log has both in full, so the two are compared: the sending counter is the number of
packets encrypted under the session, and the window stands for the counters accepted
under it.  Both are properties of one keypair, so the rule of `Sessions.lean` carries
them through every run, wherever the keypair is moved.
-/
import NuttxWireguard.Sessions

namespace NuttxWireguard

open Lib

variable {cfg : Config}

/-! ### What the log says -/

/-- The counter an entry used up in session `sid`. -/
def Obs.sentUnder {n : Nat} (sid : Nat) : Obs n → Option U64
  | .encrypted _ s _ _ counter _ => if s = sid then some counter else none
  | _ => none

/-- The counter an entry accepted in session `sid`. -/
def Obs.acceptedUnder {n : Nat} (sid : Nat) : Obs n → Option Nat
  | .opened _ s counter true _ => if s = sid then some counter.toNat else none
  | _ => none

/-- The counters used up in session `sid`, newest first. -/
def countersSent {n : Nat} (sid : Nat) (log : List (Obs n)) : List U64 :=
  log.filterMap (Obs.sentUnder sid)

/-- The counters accepted in session `sid`, newest first. -/
def countersAccepted {n : Nat} (sid : Nat) (log : List (Obs n)) : List Nat :=
  log.filterMap (Obs.acceptedUnder sid)

section Log

variable {n : Nat} {o : Obs n} {log : List (Obs n)} {sid : Nat}

theorem sentUnder_of_session (h : sid ∉ o.session) : o.sentUnder sid = none := by
  cases o with
  | encrypted x s i key counter time =>
      exact if_neg fun hs => h (by rw [hs]; rfl)
  | _ => rfl

theorem acceptedUnder_of_session (h : sid ∉ o.session) : o.acceptedUnder sid = none := by
  cases o with
  | opened x s counter fresh time =>
      cases fresh with
      | true => exact if_neg fun hs => h (by rw [hs]; rfl)
      | false => rfl
  | _ => rfl

theorem countersSent_cons_of_none (h : o.sentUnder sid = none) :
    countersSent sid (o :: log) = countersSent sid log :=
  List.filterMap_cons_none h

theorem countersAccepted_cons_of_none (h : o.acceptedUnder sid = none) :
    countersAccepted sid (o :: log) = countersAccepted sid log :=
  List.filterMap_cons_none h

@[simp] theorem countersSent_encrypted (x : Fin n) (i : Bool) (key : Key) (counter : U64)
    (time : Nat) :
    countersSent sid (.encrypted x sid i key counter time :: log) = counter :: countersSent sid log :=
  List.filterMap_cons_some (if_pos rfl)

@[simp] theorem countersAccepted_opened (x : Fin n) (counter : U64) (time : Nat) :
    countersAccepted sid (.opened x sid counter true time :: log)
      = counter.toNat :: countersAccepted sid log :=
  List.filterMap_cons_some (if_pos rfl)

theorem countersSent_eq_nil (h : ∀ o ∈ log, sid ∉ o.session) : countersSent sid log = [] :=
  List.filterMap_eq_nil_iff.mpr fun o ho => sentUnder_of_session (h o ho)

theorem countersAccepted_eq_nil (h : ∀ o ∈ log, sid ∉ o.session) :
    countersAccepted sid log = [] :=
  List.filterMap_eq_nil_iff.mpr fun o ho => acceptedUnder_of_session (h o ho)

end Log

/-! ### The receiving window -/

/-- The window stands for the counters accepted under the keypair's session. -/
def Receiving : KeypairProperty cfg := fun log _ _ kp => kp.Tracks (countersAccepted kp.sid log)

theorem receiving_invariant (time : Nat) : KeypairInvariant time (@Receiving cfg) where
  frame := by
    intro log x s kp o h ho
    unfold Receiving at h ⊢
    rw [countersAccepted_cons_of_none (acceptedUnder_of_session ho)]
    exact h
  demote := fun h => h
  encrypt := by
    intro log x s kp lastTx h _ _ _
    exact h
  refuse := by
    intro log x s kp counter h _
    exact h
  accept := by
    intro log x s kp counter h _ hfresh
    unfold Receiving at h ⊢
    rw [receivedKeypair_sid, countersAccepted_opened]
    exact (wgCheckReplay_spec h counter).2 hfresh
  start := by
    intro log x sid kp hnew hlog
    unfold Receiving
    rw [hnew.sid, countersAccepted_cons_of_none rfl, countersAccepted_eq_nil hlog]
    unfold Keypair.Tracks
    rw [hnew.replayBitmap, hnew.replayCounter]
    exact Window.tracks_nil

/-! ### The sending counter -/

/-- The sending counter is the number of packets encrypted under the keypair's session. -/
structure Sending (log : List (Obs cfg.maxPeers)) (x : Fin cfg.maxPeers) (s : Slot)
    (kp : Keypair cfg) : Prop where
  /-- The session was started with this key. -/
  started : .started x kp.sid kp.initiator kp.sendingKey kp.born ∈ log
  count : kp.sendingCounter.toNat = (countersSent kp.sid log).length
  below : ∀ counter ∈ countersSent kp.sid log, counter < kp.sendingCounter
  limit : kp.sendingCounter ≤ rejectAfterMessages

theorem lt_rejectAfterMessages {now : U32} {kp : Keypair cfg}
    (h : sendingExhausted now kp = false) : kp.sendingCounter < rejectAfterMessages := by
  unfold sendingExhausted at h
  simp only [Bool.or_eq_false_iff, decide_eq_false_iff_not] at h
  exact BitVec.not_le.mp h.2

theorem toNat_succ_of_lt_reject {counter : U64} (h : counter < rejectAfterMessages) :
    (counter + 1).toNat = counter.toNat + 1 := by
  refine toNat_succ_of_ne_zero fun hc => ?_
  have hlt : counter.toNat < rejectAfterMessages.toNat := h
  have hsum := congrArg BitVec.toNat hc
  rw [BitVec.toNat_add] at hsum
  have hreject : rejectAfterMessages.toNat < 2 ^ 64 - 1 := by decide
  simp at hsum
  omega

theorem sending_invariant (time : Nat) : KeypairInvariant time (@Sending cfg) where
  frame := by
    intro log x s kp o h ho
    have hcount : countersSent kp.sid (o :: log) = countersSent kp.sid log :=
      countersSent_cons_of_none (sentUnder_of_session ho)
    exact ⟨List.mem_cons_of_mem _ h.started, by rw [hcount]; exact h.count,
      by rw [hcount]; exact h.below, h.limit⟩
  demote := fun h => ⟨h.started, h.count, h.below, h.limit⟩
  encrypt := by
    intro log x s kp lastTx h _ _ hlimit
    have hlt := lt_rejectAfterMessages hlimit
    have hsucc := toNat_succ_of_lt_reject hlt
    refine ⟨List.mem_cons_of_mem _ h.started, ?_, ?_, ?_⟩
    · rw [countersSent_encrypted, List.length_cons, ← h.count]
      exact hsucc
    · intro counter hcounter
      rw [countersSent_encrypted] at hcounter
      show counter.toNat < (kp.sendingCounter + 1).toNat
      rw [hsucc]
      rcases List.mem_cons.mp hcounter with rfl | hcounter
      · exact Nat.lt_succ_self _
      · exact Nat.lt_succ_of_lt (h.below counter hcounter)
    · show (kp.sendingCounter + 1).toNat ≤ rejectAfterMessages.toNat
      rw [hsucc]
      exact hlt
  refuse := by
    intro log x s kp counter h _
    exact ⟨List.mem_cons_of_mem _ h.started, h.count, h.below, h.limit⟩
  accept := by
    intro log x s kp counter h _ _
    obtain ⟨_, _, hkp⟩ := receivedKeypair_cases (sysNow time) kp counter
    rw [hkp]
    exact ⟨List.mem_cons_of_mem _ h.started, h.count, h.below, h.limit⟩
  start := by
    intro log x sid kp hnew hlog
    have hnil : countersSent kp.sid (.started x sid kp.initiator kp.sendingKey time :: log) = [] := by
      rw [hnew.sid, countersSent_cons_of_none rfl, countersSent_eq_nil hlog]
    refine ⟨?_, ?_, ?_, ?_⟩
    · rw [hnew.sid, hnew.born]
      exact List.mem_cons_self
    · rw [hnil, hnew.sendingCounter]
      rfl
    · rw [hnil]
      simp
    · rw [hnew.sendingCounter]
      decide

/-! ### What was encrypted -/

/-- Session, key and counter of an encryption. -/
def Obs.encryption {n : Nat} : Obs n → Option (Nat × Key × U64)
  | .encrypted _ sid _ key counter _ => some (sid, key, counter)
  | _ => none

/-- The counters of each session went up, stayed below the limit and were used with the
key the session was started with. -/
structure SentOnce {n : Nat} (log : List (Obs n)) : Prop where
  started : ∀ o ∈ log, ∀ sid key counter, o.encryption = some (sid, key, counter) →
    ∃ x initiator time, .started x sid initiator key time ∈ log
  limit : ∀ o ∈ log, ∀ sid key counter, o.encryption = some (sid, key, counter) →
    counter < rejectAfterMessages
  increasing : log.Pairwise fun newer older => ∀ sid key key' counter counter',
    newer.encryption = some (sid, key, counter) → older.encryption = some (sid, key', counter') →
    counter' < counter

theorem sentOnce_nil {n : Nat} : SentOnce ([] : List (Obs n)) :=
  ⟨by simp, by simp, .nil⟩

/-- An entry that encrypts nothing. -/
theorem SentOnce.cons_of_none {n : Nat} {o : Obs n} {log : List (Obs n)} (h : SentOnce log)
    (ho : o.encryption = none) : SentOnce (o :: log) where
  started := by
    intro o' ho' sid key counter he
    rcases List.mem_cons.mp ho' with rfl | ho'
    · rw [ho] at he; cases he
    · obtain ⟨x, i, t, hs⟩ := h.started o' ho' sid key counter he
      exact ⟨x, i, t, List.mem_cons_of_mem _ hs⟩
  limit := by
    intro o' ho' sid key counter he
    rcases List.mem_cons.mp ho' with rfl | ho'
    · rw [ho] at he; cases he
    · exact h.limit o' ho' sid key counter he
  increasing := by
    refine List.pairwise_cons.mpr ⟨fun o' _ sid key key' counter counter' he => ?_, h.increasing⟩
    rw [ho] at he
    cases he

theorem mem_countersSent {n : Nat} {o : Obs n} {log : List (Obs n)} {sid : Nat} {key : Key}
    {counter : U64} (ho : o ∈ log) (he : o.encryption = some (sid, key, counter)) :
    counter ∈ countersSent sid log := by
  refine List.mem_filterMap.mpr ⟨o, ho, ?_⟩
  cases o with
  | encrypted x s i k c t =>
      cases he
      exact if_pos rfl
  | _ => cases he

/-- Encrypting under a keypair that counts. -/
theorem SentOnce.encrypted {log : List (Obs cfg.maxPeers)} (h : SentOnce log)
    {x : Fin cfg.maxPeers} {s : Slot} {kp : Keypair cfg} (hkp : Sending log x s kp) (time : Nat)
    (hlt : kp.sendingCounter < rejectAfterMessages) :
    SentOnce (.encrypted x kp.sid kp.initiator kp.sendingKey kp.sendingCounter time :: log) where
  started := by
    intro o ho sid key counter he
    rcases List.mem_cons.mp ho with rfl | ho
    · cases he
      exact ⟨x, _, _, List.mem_cons_of_mem _ hkp.started⟩
    · obtain ⟨y, i, t, hs⟩ := h.started o ho sid key counter he
      exact ⟨y, i, t, List.mem_cons_of_mem _ hs⟩
  limit := by
    intro o ho sid key counter he
    rcases List.mem_cons.mp ho with rfl | ho
    · cases he; exact hlt
    · exact h.limit o ho sid key counter he
  increasing := by
    refine List.pairwise_cons.mpr ⟨fun o ho sid key key' counter counter' he he' => ?_,
      h.increasing⟩
    cases he
    exact hkp.below counter' (mem_countersSent ho he')

/-! ### Every run -/

/-- Sessions are numbered apart, and their counters are what the log says. -/
structure View.Sound (v : View cfg) : Prop where
  numbered : v.Numbered
  receiving : v.Each Receiving
  sending : v.Each Sending
  sentOnce : SentOnce v.log

theorem View.Fresh.sound {v : View cfg} (h : v.Fresh) : v.Sound where
  numbered := .fresh h
  receiving := h.each
  sending := h.each
  sentOnce := by
    rw [h.log]
    exact sentOnce_nil

/-- **Every step keeps the counters sound.** -/
theorem Micro.sound {time : Nat} {v w : View cfg} (h : Micro time v w) (hv : v.Sound) :
    w.Sound where
  numbered := h.numbered hv.numbered
  receiving := h.each_keypair (receiving_invariant time) hv.numbered hv.receiving
  sending := h.each_keypair (sending_invariant time) hv.numbered hv.sending
  sentOnce := by
    cases h with
    | drop x s => exact hv.sentOnce
    | encrypt x kp lastTx hkp husable hlimit =>
        have hfull : full ((v.peers x).slots (sendingSlot (v.peers x).slots)) = true :=
          hkp ▸ sendingUsable_valid husable
        have hsending := hv.sending x _ hfull
        rw [← hkp] at hsending
        exact hv.sentOnce.encrypted hsending time (lt_rejectAfterMessages hlimit)
    | refuse x s kp counter => exact hv.sentOnce.cons_of_none rfl
    | accept x s kp counter ip port => exact hv.sentOnce.cons_of_none rfl
    | start x kp hnew => exact hv.sentOnce.cons_of_none rfl
    | initiation x => exact hv.sentOnce.cons_of_none rfl
    | acceptInit x timestamp ip port => exact hv.sentOnce.cons_of_none rfl
    | acceptResponse x ip port => exact hv.sentOnce.cons_of_none rfl
    | acceptCookie x => exact hv.sentOnce.cons_of_none rfl
    | resetEndpoint x => exact hv.sentOnce
    | inject x packet => exact hv.sentOnce.cons_of_none rfl

end NuttxWireguard
