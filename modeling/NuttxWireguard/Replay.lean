/-
The anti-replay window.

`wireguard_check_replay` and `wg_check_replay` keep, for each keypair, one past the
greatest accepted counter and a bitmap of the counters below it.  Both are written out
here as the code has them: the flat port threads a result variable to its end, the
driver returns early.  They compute the same thing.

The bitmap is moved up in place, from its last word down, so a word is read before it
is overwritten; `shiftLoop_eq` is that argument.  With it the window is an instance of
`Lib.Window`: `Tracks` holds of a new keypair and every counter presented keeps it.
-/
import NuttxWireguard.Records
import NuttxWireguard.Lib.Window

namespace NuttxWireguard

open Lib

variable {cfg : Config}

/-! ### The bitmap -/

/-- `replay_bitmap[i]`. -/
def getWord {n : Nat} (bm : Fin n → U64) (i : Nat) : U64 :=
  if h : i < n then bm ⟨i, h⟩ else 0

/-- `replay_bitmap[i] = v`. -/
def setWord {n : Nat} (bm : Fin n → U64) (i : Nat) (v : U64) : Fin n → U64 :=
  fun j => if (j : Nat) = i then v else bm j

/-- `replay_bitmap[i] |= v`. -/
def orWord {n : Nat} (bm : Fin n → U64) (i : Nat) (v : U64) : Fin n → U64 :=
  fun j => if (j : Nat) = i then bm j ||| v else bm j

/-- What the shifting loop stores in word `i`. -/
def shiftStep {n : Nat} (wordShift bitShift : Nat) (bm : Fin n → U64) (i : Nat) : U64 :=
  if i ≥ wordShift then
    let v := getWord bm (i - wordShift) <<< bitShift
    if bitShift ≠ 0 ∧ i > wordShift then
      v ||| getWord bm (i - wordShift - 1) >>> (64 - bitShift)
    else v
  else 0

/-- The loop that shifts the bitmap in place; the argument counts the words to go. -/
def shiftLoop {n : Nat} (wordShift bitShift : Nat) : Nat → (Fin n → U64) → (Fin n → U64)
  | 0, bm => bm
  | i + 1, bm =>
    shiftLoop wordShift bitShift i (setWord bm i (shiftStep wordShift bitShift bm i))

namespace Flat

/-- `wireguard_check_replay`: the verdict and the keypair it leaves. -/
def wireguardCheckReplay (keypair : Keypair cfg) (seq : U64) : Bool × Keypair cfg :=
  let replayWindowSize : U64 := BitVec.ofNat 64 (cfg.replayWords * 64)
  let seq := seq + 1
  if seq ≠ 0 then
    if seq > keypair.replayCounter then
      let diff := seq - keypair.replayCounter
      let bitmap :=
        if diff < replayWindowSize then
          let wordShift := (diff / 64).toNat
          let bitShift := (diff % 64).toNat
          orWord (shiftLoop wordShift bitShift cfg.replayWords keypair.replayBitmap) 0 1
        else
          setWord (fun _ => 0) 0 1
      (true, { keypair with replayBitmap := bitmap, replayCounter := seq })
    else
      let diff := keypair.replayCounter - seq
      if diff < replayWindowSize then
        let bit := 1#64 <<< (diff % 64).toNat
        let word := (diff / 64).toNat
        if getWord keypair.replayBitmap word &&& bit ≠ 0 then
          (false, keypair)
        else
          (true, { keypair with replayBitmap := orWord keypair.replayBitmap word bit })
      else
        (false, keypair)
  else
    (false, keypair)

end Flat

namespace Kernel

/-- `wg_check_replay`: the verdict and the keypair it leaves. -/
def wgCheckReplay (keypair : Keypair cfg) (counter : U64) : Bool × Keypair cfg :=
  let window : U64 := BitVec.ofNat 64 cfg.replayWords * 64
  let seq := counter + 1
  if seq = 0 then
    (false, keypair)
  else if seq > keypair.replayCounter then
    let diff := seq - keypair.replayCounter
    let bitmap :=
      if diff < window then
        let words := (diff / 64).toNat
        let bits := (diff % 64).toNat
        orWord (shiftLoop words bits cfg.replayWords keypair.replayBitmap) 0 1
      else
        setWord (fun _ => 0) 0 1
    (true, { keypair with replayBitmap := bitmap, replayCounter := seq })
  else
    let diff := keypair.replayCounter - seq
    if diff < window then
      let bit := 1#64 <<< (diff % 64).toNat
      let word := (diff / 64).toNat
      if getWord keypair.replayBitmap word &&& bit = 0 then
        (true, { keypair with replayBitmap := orWord keypair.replayBitmap word bit })
      else
        (false, keypair)
    else
      (false, keypair)

end Kernel

/-- The two drivers check replays alike. -/
theorem wireguardCheckReplay_eq (keypair : Keypair cfg) (seq : U64) :
    Flat.wireguardCheckReplay keypair seq = Kernel.wgCheckReplay keypair seq := by
  have hwin : BitVec.ofNat 64 (cfg.replayWords * 64) = BitVec.ofNat 64 cfg.replayWords * 64 := by
    rw [BitVec.ofNat_mul]
    rfl
  unfold Flat.wireguardCheckReplay Kernel.wgCheckReplay
  simp only [hwin]
  by_cases h0 : seq + 1 = 0
  · rw [if_neg (by simpa using h0), if_pos h0]
  · rw [if_pos h0, if_neg h0]
    split
    · rfl
    · split
      · rw [ite_not]
      · rfl

/-! ### The loop -/

theorem getWord_of_lt {n : Nat} (b : Fin n → U64) {i : Nat} (h : i < n) :
    getWord b i = b ⟨i, h⟩ := dif_pos h

/-- The stored word is the shifted one when the words up to `i` are still those of `b`. -/
theorem shiftStep_eq {n : Nat} (b bm : Fin n → U64) (ws bs : Nat) (i : Fin n)
    (hlow : ∀ j : Fin n, (j : Nat) ≤ i → bm j = b j) :
    shiftStep ws bs bm i = Window.shiftedWord b ws bs i := by
  have hget : ∀ (k : Nat) (hk : k ≤ (i : Nat)), getWord bm k = b ⟨k, by omega⟩ := by
    intro k hk
    rw [getWord_of_lt bm (by omega)]
    exact hlow _ hk
  unfold shiftStep Window.shiftedWord
  by_cases hws : ws ≤ i
  · rw [if_pos hws, if_pos hws, hget _ (Nat.sub_le _ _), hget (i - ws - 1) (by omega)]
  · rw [if_neg hws, if_neg hws]

/-- **The loop shifts the bitmap.**  The words from `k` up are already done and the
words below `k` are still those of `b`; the loop reads only the latter. -/
theorem shiftLoop_eq {n : Nat} (b : Fin n → U64) (ws bs : Nat) :
    ∀ (k : Nat) (bm : Fin n → U64), k ≤ n → (∀ j : Fin n, (j : Nat) < k → bm j = b j) →
      ∀ j : Fin n, shiftLoop ws bs k bm j
        = if (j : Nat) < k then Window.shiftedWord b ws bs j else bm j := by
  intro k
  induction k with
  | zero => intro bm _ _ j; simp [shiftLoop]
  | succ k ih =>
      intro bm hk hlow j
      have hlow' : ∀ i : Fin n, (i : Nat) < k → setWord bm k (shiftStep ws bs bm k) i = b i := by
        intro i hi
        unfold setWord
        rw [if_neg (by omega)]
        exact hlow i (by omega)
      unfold shiftLoop
      rw [ih _ (by omega) hlow' j]
      by_cases hj : (j : Nat) < k
      · rw [if_pos hj, if_pos (by omega)]
      · rw [if_neg hj]
        unfold setWord
        by_cases hjk : (j : Nat) = k
        · rw [if_pos hjk, if_pos (by omega), ← hjk]
          exact shiftStep_eq b bm ws bs j fun i hi => hlow i (by omega)
        · rw [if_neg hjk, if_neg (by omega)]

theorem shiftLoop_full {n : Nat} (b : Fin n → U64) (ws bs : Nat) :
    shiftLoop ws bs n b = Window.shiftedWord b ws bs := by
  funext j
  rw [shiftLoop_eq b ws bs n b (Nat.le_refl n) (fun _ _ => rfl) j, if_pos j.isLt]

/-- The bitmap with only its lowest bit set. -/
theorem bit_setWord_zero {n i : Nat} (hi : i < 64 * n) :
    Window.bit (setWord (fun _ => 0 : Fin n → U64) 0 1) i = true ↔ i = 0 := by
  have h : setWord (fun _ => 0 : Fin n → U64) 0 1 = Window.markBit (fun _ => 0#64) (0 / 64) (0 % 64) := by
    funext j
    unfold setWord Window.markBit
    split <;> simp
  rw [h, Window.bit_markBit _ (by omega), Window.bit_zero]
  simp

/-! ### One counter -/

/-- The window of the keypair stands for the counters `seen`. -/
def Keypair.Tracks (kp : Keypair cfg) (seen : List Nat) : Prop :=
  Window.Tracks kp.replayBitmap kp.replayCounter.toNat seen

/-- A check returns the keypair as it was, or with another window. -/
theorem wgCheckReplay_cases (kp : Keypair cfg) (counter : U64) :
    Kernel.wgCheckReplay kp counter = (false, kp) ∨
      ∃ bitmap top, Kernel.wgCheckReplay kp counter
        = (true, { kp with replayBitmap := bitmap, replayCounter := top }) := by
  unfold Kernel.wgCheckReplay
  dsimp only
  split
  · exact Or.inl rfl
  · split
    · exact Or.inr ⟨_, _, rfl⟩
    · split
      · split
        · exact Or.inr ⟨_, _, rfl⟩
        · exact Or.inl rfl
      · exact Or.inl rfl

/-- The keypair stays the one it is. -/
theorem wgCheckReplay_keeps (kp : Keypair cfg) (counter : U64) :
    (Kernel.wgCheckReplay kp counter).2.localIndex = kp.localIndex ∧
      (Kernel.wgCheckReplay kp counter).2.valid = kp.valid := by
  rcases wgCheckReplay_cases kp counter with h | ⟨_, _, h⟩ <;> rw [h] <;> exact ⟨rfl, rfl⟩

/-- **A refused counter changes nothing.** -/
theorem wgCheckReplay_refused {kp : Keypair cfg} {counter : U64}
    (h : (Kernel.wgCheckReplay kp counter).1 = false) :
    (Kernel.wgCheckReplay kp counter).2 = kp := by
  rcases wgCheckReplay_cases kp counter with hc | ⟨_, _, hc⟩
  · rw [hc]
  · rw [hc] at h; cases h

theorem toNat_succ_of_ne_zero {c : U64} (h : c + 1 ≠ 0) : (c + 1).toNat = c.toNat + 1 := by
  have hne : c.toNat + 1 ≠ 2 ^ 64 := fun hc => h (BitVec.eq_of_toNat_eq (by
    rw [BitVec.toNat_add]; simp [hc]))
  have := c.isLt
  rw [BitVec.toNat_add]
  exact Nat.mod_eq_of_lt (by simp; omega)

theorem succ_ne_zero_iff (counter : U64) : counter + 1 ≠ 0 ↔ counter.toNat ≠ 2 ^ 64 - 1 := by
  constructor
  · intro h hc
    exact h (BitVec.eq_of_toNat_eq (by rw [BitVec.toNat_add, hc]; rfl))
  · intro h hc
    have hsum := congrArg BitVec.toNat hc
    rw [BitVec.toNat_add] at hsum
    have := counter.isLt
    simp at hsum
    omega

theorem window_toNat (cfg : Config) :
    (BitVec.ofNat 64 cfg.replayWords * 64 : U64).toNat = 64 * cfg.replayWords := by
  have h := cfg.replayWindow_lt
  rw [BitVec.toNat_mul, BitVec.toNat_ofNat, Nat.mod_mul_mod, Nat.mul_comm 64]
  exact Nat.mod_eq_of_lt h

/-- A distance lies inside the window as a number does. -/
theorem sub_lt_window_iff (cfg : Config) {a b : U64} (h : b ≤ a) :
    a - b < BitVec.ofNat 64 cfg.replayWords * 64 ↔ a.toNat - b.toNat < 64 * cfg.replayWords := by
  rw [BitVec.lt_def, window_toNat, BitVec.toNat_sub_of_le h]

/-- The word and the bit of a distance. -/
theorem toNat_sub_place {a b : U64} (h : b ≤ a) :
    ((a - b) / 64).toNat = (a.toNat - b.toNat) / 64 ∧
      ((a - b) % 64).toNat = (a.toNat - b.toNat) % 64 := by
  rw [BitVec.toNat_udiv, BitVec.toNat_umod, BitVec.toNat_sub_of_le h]
  exact ⟨rfl, rfl⟩

theorem getWord_and_bit {n : Nat} (b : Fin n → U64) {d : Nat} (hd : d < 64 * n) :
    getWord b (d / 64) &&& (1#64 <<< (d % 64)) = 0 ↔ Window.bit b d = false := by
  have hn : d / 64 < n := by omega
  rw [getWord_of_lt b hn]
  unfold Window.bit
  rw [dif_pos hn]
  constructor
  · intro h
    have hb := congrArg (fun v => v.getLsbD (d % 64)) h
    simp only [BitVec.getLsbD_and] at hb
    rw [Window.getLsbD_one_shiftLeft _ _ (by omega)] at hb
    simpa using hb
  · intro h
    refine BitVec.eq_of_getLsbD_eq fun i hi => ?_
    rw [BitVec.getLsbD_and, Window.getLsbD_one_shiftLeft _ _ hi]
    by_cases hid : i = d % 64
    · rw [hid, h]; simp
    · simp [hid]

/-- **One counter.**  The verdict is the reference's, and an accepted counter joins
those the window stands for. -/
theorem wgCheckReplay_spec {kp : Keypair cfg} {seen : List Nat} (h : kp.Tracks seen)
    (counter : U64) :
    ((Kernel.wgCheckReplay kp counter).1 = true ↔
      counter + 1 ≠ 0 ∧ Window.Accepts (64 * cfg.replayWords) seen counter.toNat) ∧
    ((Kernel.wgCheckReplay kp counter).1 = true →
      (Kernel.wgCheckReplay kp counter).2.Tracks (counter.toNat :: seen)) := by
  have hpos := cfg.replayWords_pos
  unfold Kernel.wgCheckReplay
  dsimp only
  by_cases h0 : counter + 1 = 0
  · rw [if_pos h0]
    exact ⟨⟨fun hc => (nomatch hc), fun hc => absurd h0 hc.1⟩, fun hc => nomatch hc⟩
  rw [if_neg h0]
  have hseq := toNat_succ_of_ne_zero h0
  by_cases hgt : counter + 1 > kp.replayCounter
  · -- a counter past the window
    rw [if_pos hgt]
    have hlt : kp.replayCounter.toNat < counter.toNat + 1 := by rw [← hseq]; exact hgt
    have hinside := sub_lt_window_iff cfg (BitVec.le_of_lt hgt)
    obtain ⟨hd, hm⟩ := toNat_sub_place (BitVec.le_of_lt hgt)
    rw [hseq] at hinside hd hm
    refine ⟨by simp only [true_iff]; exact ⟨h0, h.accepts_of_ge (by omega) (by omega)⟩, fun _ => ?_⟩
    show Window.Tracks _ (counter + 1).toNat _
    rw [hseq]
    by_cases hin : counter + 1 - kp.replayCounter < BitVec.ofNat 64 cfg.replayWords * 64
    · rw [if_pos hin, shiftLoop_full]
      rw [hd, hm]
      exact h.shift (by omega) (hinside.mp hin)
    · rw [if_neg hin]
      have hout := Nat.not_lt.mp (mt hinside.mpr hin)
      exact h.clear (by omega) hout fun i hi => bit_setWord_zero hi
  · -- a counter inside or behind the window
    rw [if_neg hgt]
    have hle : counter.toNat + 1 ≤ kp.replayCounter.toNat := by
      rw [← hseq]; exact BitVec.not_lt.mp hgt
    have hinside := sub_lt_window_iff cfg (BitVec.not_lt.mp hgt)
    obtain ⟨hd, hm⟩ := toNat_sub_place (BitVec.not_lt.mp hgt)
    rw [hseq] at hinside hd hm
    by_cases hin : kp.replayCounter - (counter + 1) < BitVec.ofNat 64 cfg.replayWords * 64
    · rw [if_pos hin]
      have hin' := hinside.mp hin
      rw [hd, hm]
      by_cases hbit : getWord kp.replayBitmap ((kp.replayCounter.toNat - (counter.toNat + 1)) / 64)
          &&& (1#64 <<< ((kp.replayCounter.toNat - (counter.toNat + 1)) % 64)) = 0
      · rw [if_pos hbit]
        have hfresh := (h.accepts_iff_bit (by omega) hin').mpr ((getWord_and_bit _ hin').mp hbit)
        exact ⟨⟨fun _ => ⟨h0, hfresh⟩, fun _ => rfl⟩, fun _ => h.mark (by omega) hin'⟩
      · rw [if_neg hbit]
        have hseen : ¬Window.Accepts (64 * cfg.replayWords) seen counter.toNat := fun hc =>
          hbit ((getWord_and_bit _ hin').mpr ((h.accepts_iff_bit (by omega) hin').mp hc))
        exact ⟨by simp [hseen], fun hc => nomatch hc⟩
    · rw [if_neg hin]
      have hout := Nat.not_lt.mp (mt hinside.mpr hin)
      have hold := h.not_accepts_of_old hout hpos
      exact ⟨by simp [hold], fun hc => nomatch hc⟩

end NuttxWireguard
