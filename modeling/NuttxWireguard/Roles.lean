/-
What each slot is for.

A session its owner started as initiator may be used at once and goes to `curr`.  One it
started as responder waits in `next` until a datagram has been accepted under it; that
datagram promotes it.  So `next` holds sessions nobody has been heard on, and `curr` holds
sessions that are the owner's own or confirmed.

One case is not so clean: a datagram with the last counter of 64 bits authenticates under
`next` like any other, and the replay window refuses it, so it promotes nothing.
-/
import NuttxWireguard.Counters

namespace NuttxWireguard

open Lib

variable {cfg : Config}

/-- The counter of a datagram that authenticated in session `sid`. -/
def Obs.openedUnder {n : Nat} (sid : Nat) : Obs n → Option U64
  | .opened _ s counter _ _ => if s = sid then some counter else none
  | _ => none

/-- The counters that authenticated in session `sid`, accepted or not, newest first. -/
def countersOpened {n : Nat} (sid : Nat) (log : List (Obs n)) : List U64 :=
  log.filterMap (Obs.openedUnder sid)

section Log

variable {n : Nat} {o : Obs n} {log : List (Obs n)} {sid : Nat}

theorem openedUnder_of_session (h : sid ∉ o.session) : o.openedUnder sid = none := by
  cases o with
  | opened x s counter fresh time => exact if_neg fun hs => h (by rw [hs]; rfl)
  | _ => rfl

theorem countersOpened_cons_of_none (h : o.openedUnder sid = none) :
    countersOpened sid (o :: log) = countersOpened sid log :=
  List.filterMap_cons_none h

@[simp] theorem countersOpened_opened (x : Fin n) (counter : U64) (fresh : Bool) (time : Nat) :
    countersOpened sid (.opened x sid counter fresh time :: log)
      = counter :: countersOpened sid log :=
  List.filterMap_cons_some (if_pos rfl)

theorem countersOpened_eq_nil (h : ∀ o ∈ log, sid ∉ o.session) : countersOpened sid log = [] :=
  List.filterMap_eq_nil_iff.mpr fun o ho => openedUnder_of_session (h o ho)

end Log

theorem sysNow_ne_zero (time : Nat) : sysNow time ≠ 0 := by
  unfold sysNow
  dsimp only
  split
  · decide
  · assumption

/-- What the slot of a keypair says about its session. -/
structure Role (log : List (Obs cfg.maxPeers)) (x : Fin cfg.maxPeers) (s : Slot)
    (kp : Keypair cfg) : Prop where
  receiving : Receiving log x s kp
  /-- A keypair that notes an arrival has accepted a datagram. -/
  confirmed : kp.lastRx ≠ 0 → countersAccepted kp.sid log ≠ []
  curr : s = .curr → kp.initiator = true ∨ kp.lastRx ≠ 0
  next : s = .next → kp.initiator = false ∧ countersAccepted kp.sid log = [] ∧
    ∀ counter ∈ countersOpened kp.sid log, counter.toNat = 2 ^ 64 - 1

theorem role_invariant (time : Nat) : KeypairInvariant time (@Role cfg) where
  frame := by
    intro log x s kp o h ho
    have hacc : countersAccepted kp.sid (o :: log) = countersAccepted kp.sid log :=
      countersAccepted_cons_of_none (acceptedUnder_of_session ho)
    have hopen : countersOpened kp.sid (o :: log) = countersOpened kp.sid log :=
      countersOpened_cons_of_none (openedUnder_of_session ho)
    exact ⟨(receiving_invariant time).frame o h.receiving ho, by rw [hacc]; exact h.confirmed,
      h.curr, by rw [hacc, hopen]; exact h.next⟩
  demote := fun h => ⟨h.receiving, h.confirmed, (nomatch ·), (nomatch ·)⟩
  encrypt := by
    intro log x s kp lastTx h hs husable hlimit
    exact ⟨(receiving_invariant time).encrypt lastTx h.receiving hs husable hlimit, h.confirmed,
      h.curr, fun hc => absurd hc hs⟩
  refuse := by
    intro log x s kp counter h hstale
    refine ⟨(receiving_invariant time).refuse counter h.receiving hstale, h.confirmed, h.curr,
      fun hs => ?_⟩
    obtain ⟨hrole, hnone, hlast⟩ := h.next hs
    refine ⟨hrole, hnone, fun counter' hmem => ?_⟩
    rw [countersOpened_opened] at hmem
    rcases List.mem_cons.mp hmem with rfl | hmem
    · -- nothing was accepted yet, so only the counter itself can be the reason
      have hspec := (wgCheckReplay_spec h.receiving counter').1
      rw [hstale, hnone, succ_ne_zero_iff] at hspec
      by_contra hne
      exact absurd (hspec.mpr ⟨hne, by simp, by simp⟩) (by decide)
    · exact hlast counter' hmem
  accept := by
    intro log x s kp counter h hlimit hfresh
    obtain ⟨bitmap, top, hkp⟩ := receivedKeypair_cases (sysNow time) kp counter
    have hrx : (receivedKeypair (sysNow time) kp counter).lastRx ≠ 0 := by
      rw [hkp]
      exact sysNow_ne_zero time
    refine ⟨(receiving_invariant time).accept counter h.receiving hlimit hfresh, fun _ => ?_,
      fun _ => Or.inr hrx, fun hs => ?_⟩
    · rw [receivedKeypair_sid, countersAccepted_opened]
      exact List.cons_ne_nil _ _
    · split at hs
      · cases hs
      · contradiction
  start := by
    intro log x sid kp hnew hlog
    refine ⟨(receiving_invariant time).start hnew hlog, fun hrx => absurd hnew.lastRx hrx,
      fun hs => ?_, fun hs => ?_⟩
    · split at hs
      · exact Or.inl (by assumption)
      · cases hs
    · split at hs
      · cases hs
      · rename_i hinitiator
        refine ⟨by simpa using hinitiator, ?_, ?_⟩
        · rw [hnew.sid, countersAccepted_cons_of_none rfl, countersAccepted_eq_nil hlog]
        · rw [hnew.sid, countersOpened_cons_of_none rfl, countersOpened_eq_nil hlog]
          simp

/-- With the slots in their roles a driver sends on `curr` or not at all. -/
theorem sendingSlot_eq_curr {σ : Slots (Keypair cfg)}
    (h : (σ .curr).valid = true → (σ .curr).initiator = true ∨ (σ .curr).lastRx ≠ 0) :
    sendingSlot σ = .curr := by
  unfold sendingSlot
  rw [if_neg]
  rintro ⟨hvalid, hinitiator, hrx⟩
  rcases h hvalid with hi | hne
  · exact hinitiator hi
  · exact hne hrx

/-! ### Cleared slots -/

/-- A slot without a session is zeroed. -/
def View.Clean (v : View cfg) : Prop := ∀ x, Slots.Clean Keypair.zero full (v.peers x).slots

theorem View.Fresh.clean {v : View cfg} (h : v.Fresh) : v.Clean := by
  intro x
  rw [h.slots x]
  exact Slots.clean_empty

theorem View.Clean.setPeer {v : View cfg} (h : v.Clean) (x : Fin cfg.maxPeers) {p : PeerView cfg}
    (hp : Slots.Clean Keypair.zero full p.slots) : (v.setPeer x p).Clean := by
  intro y
  rw [View.setPeer_peers]
  split
  · exact hp
  · exact h y

/-- **What is dropped is erased.** -/
theorem Micro.clean {time : Nat} {v w : View cfg} (h : Micro time v w) (hv : v.Clean) :
    w.Clean := by
  cases h with
  | drop x s => exact hv.setPeer x ((hv x).drop s)
  | encrypt x kp lastTx hkp husable =>
      exact hv.setPeer x ((hv x).put _ (sendingUsable_valid husable))
  | refuse x s kp counter => exact hv
  | accept x s kp counter ip port hkp hvalid =>
      have hput : Slots.Clean Keypair.zero full
          ((v.peers x).slots.put s (receivedKeypair (sysNow time) kp counter)) := by
        refine (hv x).put s ?_
        obtain ⟨_, _, he⟩ := receivedKeypair_cases (sysNow time) kp counter
        rw [he]
        exact hvalid
      refine View.Clean.setPeer hv x ?_
      dsimp only
      split
      · exact hput.promote
      · exact hput
  | start x kp hnew =>
      refine View.Clean.setPeer (v := { v with nextSid := v.nextSid + 1 }) hv x ?_
      dsimp only
      split
      · exact (hv x).installCurr hnew.valid
      · exact (hv x).installNext hnew.valid
  | initiation x => exact hv
  | acceptInit x timestamp ip port => exact View.Clean.setPeer hv x (hv x)
  | acceptResponse x ip port => exact View.Clean.setPeer hv x (hv x)
  | acceptCookie x => exact hv
  | resetEndpoint x => exact hv.setPeer x (hv x)
  | inject x packet => exact hv

end NuttxWireguard
