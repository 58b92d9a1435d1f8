/-
The replay window is a set.

`wgCheckReplay_spec` speaks of one counter.  Here a whole sequence of counters is
presented to a keypair, and the verdicts are compared with those of a reference that
keeps the accepted counters themselves.  The two drivers share the window, so what holds
of one holds of the other.

Nothing is assumed of the sequence: the counters may repeat, go back or jump, and may be
the greatest a 64-bit field holds.
-/
import NuttxWireguard.Noise

namespace NuttxWireguard

open Lib

variable {cfg : Config}

/-! ### Sequences of counters -/

/-- The verdicts on a sequence of counters, and the keypair they leave. -/
def present (check : Keypair cfg → U64 → Bool × Keypair cfg) :
    Keypair cfg → List U64 → List Bool × Keypair cfg
  | kp, [] => ([], kp)
  | kp, counter :: rest =>
    let verdict := check kp counter
    let later := present check verdict.2 rest
    (verdict.1 :: later.1, later.2)

/-- The reference: its verdicts, and the counters it has accepted in the end.  A counter is
accepted if it is not the last one of 64 bits, is not among those accepted before and is
less than `size` behind each of them. -/
def reference (size : Nat) : List Nat → List U64 → List Bool × List Nat
  | seen, [] => ([], seen)
  | seen, counter :: rest =>
    let verdict : Bool :=
      decide (counter.toNat ≠ 2 ^ 64 - 1 ∧ Window.Accepts size seen counter.toNat)
    let later := reference size (if verdict then counter.toNat :: seen else seen) rest
    (verdict :: later.1, later.2)

/-- The check agrees with the reference on every sequence from `kp`, and whatever it
refuses after such a sequence leaves the keypair as it was. -/
def RefinesReference (check : Keypair cfg → U64 → Bool × Keypair cfg) (kp : Keypair cfg) : Prop :=
  ∀ counters,
    (present check kp counters).1 = (reference (64 * cfg.replayWords) [] counters).1 ∧
    ∀ counter, (check (present check kp counters).2 counter).1 = false →
      (check (present check kp counters).2 counter).2 = (present check kp counters).2

/-! ### The reference accepts nothing twice -/

theorem reference_nodup (size : Nat) (counters : List U64) :
    ∀ {seen : List Nat}, seen.Nodup → (reference size seen counters).2.Nodup := by
  induction counters with
  | nil => intro seen h; exact h
  | cons counter rest ih =>
      intro seen h
      show (reference size _ rest).2.Nodup
      refine ih ?_
      split
      · rename_i hacc
        rw [decide_eq_true_eq] at hacc
        exact List.nodup_cons.mpr ⟨hacc.2.1, h⟩
      · exact h

/-! ### Refinement -/

/-- A fresh keypair has accepted nothing. -/
theorem sessionKeypair_tracks (c : Crypto) (now : U32) (sid born : Nat) (hs : Handshake)
    (initiator : Bool) :
    (sessionKeypair c now sid born hs initiator : Keypair cfg).Tracks [] :=
  Window.tracks_nil

/-- From matching windows the verdicts match, and the windows still do. -/
theorem present_eq_reference (counters : List U64) :
    ∀ {kp : Keypair cfg} {seen : List Nat}, kp.Tracks seen →
      (present Kernel.wgCheckReplay kp counters).1
        = (reference (64 * cfg.replayWords) seen counters).1 ∧
      (present Kernel.wgCheckReplay kp counters).2.Tracks
        (reference (64 * cfg.replayWords) seen counters).2 := by
  induction counters with
  | nil => intro kp seen h; exact ⟨rfl, h⟩
  | cons counter rest ih =>
      intro kp seen h
      obtain ⟨hverdict, haccepted⟩ := wgCheckReplay_spec h counter
      rw [succ_ne_zero_iff] at hverdict
      have hnext : (Kernel.wgCheckReplay kp counter).2.Tracks
          (if (Kernel.wgCheckReplay kp counter).1 then counter.toNat :: seen else seen) := by
        by_cases hacc : (Kernel.wgCheckReplay kp counter).1 = true
        · rw [if_pos hacc]
          exact haccepted hacc
        · rw [if_neg hacc, wgCheckReplay_refused (by simpa using hacc)]
          exact h
      obtain ⟨hrest, htracks⟩ := ih hnext
      have hhead : (Kernel.wgCheckReplay kp counter).1 = decide (counter.toNat ≠ 2 ^ 64 - 1 ∧
          Window.Accepts (64 * cfg.replayWords) seen counter.toNat) := by
        rw [Bool.eq_iff_iff, decide_eq_true_eq]
        exact hverdict
      unfold present reference
      dsimp only
      rw [← hhead]
      exact ⟨congrArg _ hrest, htracks⟩

theorem wgCheckReplay_refines {kp : Keypair cfg} (h : kp.Tracks []) :
    RefinesReference Kernel.wgCheckReplay kp :=
  fun counters => ⟨(present_eq_reference counters h).1, fun _ => wgCheckReplay_refused⟩

theorem wireguardCheckReplay_refines {kp : Keypair cfg} (h : kp.Tracks []) :
    RefinesReference Flat.wireguardCheckReplay kp := by
  have heq : @Flat.wireguardCheckReplay cfg = Kernel.wgCheckReplay := by
    funext kp counter
    exact wireguardCheckReplay_eq kp counter
  rw [heq]
  exact wgCheckReplay_refines h

/-- **The anti-replay window is the reference's set**, in both drivers, from any keypair a
handshake yields; and the reference accepts no counter twice. -/
theorem check_replay_refines_reference (c : Crypto) (now : U32) (sid born : Nat) (hs : Handshake)
    (initiator : Bool) :
    let kp : Keypair cfg := sessionKeypair c now sid born hs initiator
    RefinesReference Flat.wireguardCheckReplay kp ∧
    RefinesReference Kernel.wgCheckReplay kp ∧
    ∀ counters, (reference (64 * cfg.replayWords) [] counters).2.Nodup :=
  ⟨wireguardCheckReplay_refines (sessionKeypair_tracks c now sid born hs initiator),
    wgCheckReplay_refines (sessionKeypair_tracks c now sid born hs initiator),
    fun counters => reference_nodup _ counters List.nodup_nil⟩

end NuttxWireguard
