/-
How much a flood of initiations costs.

`wg_under_load` counts the initiations that pass mac1 in buckets of a second and asks for
mac2 above the threshold.  The two fields it keeps are a `Bucket` of the 32-bit clock, so
between them a window of a second sees at most two thresholds' worth of initiations get to
the Diffie-Hellman work without a valid mac2 (`admissions_bounded`).

The clock and the counter have 32 bits, and each costs the bound something.  The clock
reads one instead of zero, so a bucket that starts 999 milliseconds before it wraps is over
when it does; and a bucket that counts 2^32 initiations counts from zero again.
-/
import NuttxWireguard.Flat.Frame
import NuttxWireguard.Flat.Logged
import NuttxWireguard.Ages
import NuttxWireguard.Messages
import NuttxWireguard.Lib.Bucket

namespace NuttxWireguard.Flat

open Lib

variable {cfg : Config} (c : Crypto) (env : Env cfg)

/-! ### What becomes of an initiation -/

instance (n : Netdev cfg) (data : List Byte) (addr : U32) (port : U16) :
    Decidable (InitiationAdmitted c env n data addr port) :=
  inferInstanceAs (Decidable (_ ∧ _ ∧ (_ ∨ _)))

/-- An initiation that gets counted: it passes mac1. -/
def InitiationCounted (n : Netdev cfg) (data : List Byte) : Prop :=
  messageType data = messageHandshakeInitiation ∧
    checkMac1 c n.wg (data.take (msgInitLen - 32)) (MsgInit.parse data).mac1 = true

instance (n : Netdev cfg) (data : List Byte) : Decidable (InitiationCounted c n data) :=
  inferInstanceAs (Decidable (_ ∧ _))

/-- `wireguard_check_mac2`, as the port asks it of an initiation. -/
def mac2Valid (n : Netdev cfg) (data : List Byte) (addr : U32) (port : U16) : Bool :=
  (checkMac2 c env.now env.cookieSecret n.wg (data.take (msgInitLen - 16)) (sourceBytes addr port)
    (MsgInit.parse data).mac2).2

/-- The port after it counted an initiation and, under load, looked at its mac2. -/
def initiationChecked (n : Netdev cfg) (data : List Byte) (addr : U32) (port : U16) :
    Netdev cfg :=
  if (wgUnderLoad env n).2 then
    { (wgUnderLoad env n).1 with
      wg := (checkMac2 c env.now env.cookieSecret n.wg (data.take (msgInitLen - 16))
        (sourceBytes addr port) (MsgInit.parse data).mac2).1 }
  else (wgUnderLoad env n).1

/-- An initiation that fails mac1 is dropped. -/
theorem wgProcessUdpPacket_forged {n : Netdev cfg} {data : List Byte} (addr : U32) (port : U16)
    (htype : messageType data = messageHandshakeInitiation)
    (hmac : checkMac1 c n.wg (data.take (msgInitLen - 32)) (MsgInit.parse data).mac1 = false) :
    wgProcessUdpPacket c env n data addr port = some n := by
  unfold wgProcessUdpPacket
  rw [if_pos htype]
  dsimp only
  rw [if_pos (by rw [hmac]; decide)]

/-- One that passes is handed on exactly if it is admitted, and answered with a cookie
otherwise. -/
theorem wgProcessUdpPacket_counted {n : Netdev cfg} {data : List Byte} (addr : U32) (port : U16)
    (h : InitiationCounted c n data) :
    wgProcessUdpPacket c env n data addr port =
      if InitiationAdmitted c env n data addr port then
        wgProcessInitiation c env (initiationChecked c env n data addr port) (MsgInit.parse data)
          addr port
      else some (wgSendCookieReply c env (initiationChecked c env n data addr port)
        (MsgInit.parse data).mac1 (MsgInit.parse data).sender addr port) := by
  obtain ⟨htype, hmac⟩ := h
  unfold wgProcessUdpPacket initiationChecked
  rw [if_pos htype]
  dsimp only
  rw [if_neg (by rw [hmac]; decide), wgUnderLoad_wg]
  by_cases hload : (wgUnderLoad env n).2 = true
  · rw [if_pos hload, if_pos hload]
    by_cases hmac2 : mac2Valid c env n data addr port = true
    · rw [if_neg (by unfold mac2Valid at hmac2; simpa using hmac2),
        if_pos ⟨htype, hmac, Or.inr hmac2⟩]
    · rw [if_pos (by unfold mac2Valid at hmac2; simpa using hmac2), if_neg]
      rintro ⟨-, -, hnot | hok⟩
      · rw [hload] at hnot
        cases hnot
      · exact hmac2 hok
  · rw [if_neg hload, if_neg hload, if_pos ⟨htype, hmac, Or.inl (by simpa using hload)⟩]

/-! ### The bucket -/

/-- What `wg_under_load` keeps, as a bucket of the clock. -/
def Netdev.bucket (n : Netdev cfg) : Bucket U32 := ⟨n.initWindowStart, n.initCount.toNat⟩

/-- A second has passed since the bucket started. -/
def bucketDue (start : U32) (time : Nat) : Bool := decide (sysNow time - start ≥ 1000)

/-- The counter is at its end and the bucket is not. -/
def CountWraps (time : Nat) (n : Netdev cfg) : Prop :=
  bucketDue n.initWindowStart time = false ∧ n.initCount.toNat + 1 = 2 ^ 32

theorem wgUnderLoad_bucket {n : Netdev cfg} (h : ¬CountWraps env.time n) :
    (wgUnderLoad env n).1.bucket = n.bucket.arrive sysNow bucketDue env.time := by
  unfold wgUnderLoad Netdev.bucket Bucket.arrive
  dsimp only
  by_cases hdue : bucketDue n.initWindowStart env.time = true
  · have hge : env.now - n.initWindowStart ≥ 1000 := of_decide_eq_true hdue
    rw [if_pos hge, if_pos hdue]
    rfl
  · have hge : ¬env.now - n.initWindowStart ≥ 1000 := fun hge => hdue (decide_eq_true hge)
    rw [if_neg hge, if_neg hdue]
    have hlt := n.initCount.isLt
    have hcount : n.initCount.toNat + 1 ≠ 2 ^ 32 := fun hc => h ⟨by simpa using hdue, hc⟩
    rw [BitVec.toNat_add, Nat.mod_eq_of_lt]
    · rfl
    · show n.initCount.toNat + 1 < 2 ^ 32
      omega

theorem wgUnderLoad_load (n : Netdev cfg) :
    (wgUnderLoad env n).2 = decide (cfg.loadThreshold.toNat < (wgUnderLoad env n).1.bucket.count) :=
  rfl

/-- A window of the clock that a bucket started in it outlasts: one of at most a second,
unless it takes all of it and ends when the clock wraps. -/
theorem bucket_lasts {a b : Nat} (hwindow : b ≤ a + 1000)
    (hclock : ¬(b = a + 1000 ∧ b % 2 ^ 32 = 0)) : Bucket.Lasts sysNow bucketDue a b where
  self := by
    intro t
    unfold bucketDue
    rw [BitVec.sub_self]
    rfl
  inside := by
    intro s t hs hst hb
    unfold bucketDue
    refine decide_eq_false fun hge => ?_
    have hge : 1000 ≤ (sysNow t - sysNow s).toNat := hge
    rw [BitVec.toNat_sub, sysNow_toNat, sysNow_toNat] at hge
    split at hge <;> split at hge <;> omega

/-! ### Nothing else counts -/

/-- Neither field is written. -/
structure SameBucket (n m : Netdev cfg) : Prop where
  start : m.initWindowStart = n.initWindowStart
  count : m.initCount = n.initCount

namespace SameBucket

variable {n m k : Netdev cfg}

theorem refl (n : Netdev cfg) : SameBucket n n := ⟨rfl, rfl⟩

theorem trans (h : SameBucket n m) (h' : SameBucket m k) : SameBucket n k :=
  ⟨h'.start.trans h.start, h'.count.trans h.count⟩

/-- From a state that differs elsewhere. -/
theorem from_same (h : SameBucket m k) (hstart : m.initWindowStart = n.initWindowStart)
    (hcount : m.initCount = n.initCount) : SameBucket n k :=
  ⟨h.start.trans hstart, h.count.trans hcount⟩

theorem bucket (h : SameBucket n m) : m.bucket = n.bucket := by
  unfold Netdev.bucket
  rw [h.start, h.count]

end SameBucket

theorem wgEncryptAndSend_sameBucket (n : Netdev cfg) (x : Fin cfg.maxPeers)
    (plaintext : List Byte) : SameBucket n (wgEncryptAndSend c env n x plaintext).1 := by
  rcases wgEncryptAndSend_cases c env n x plaintext with h | ⟨-, -, h⟩ | ⟨-, -, p, tx, -, h⟩
  all_goals
    rw [h]
    exact ⟨rfl, rfl⟩

theorem wgStartHandshake_sameBucket {n n' : Netdev cfg} {x : Fin cfg.maxPeers}
    (h : wgStartHandshake c env n x = some n') : SameBucket n n' := by
  unfold wgStartHandshake at h
  split at h
  · cases h
  · cases h
    exact ⟨rfl, rfl⟩
  · cases h
    exact ⟨rfl, rfl⟩

theorem wgSendHandshakeResponse_sameBucket {n n' : Netdev cfg} {x : Fin cfg.maxPeers}
    (h : wgSendHandshakeResponse c env n x = some n') : SameBucket n n' := by
  unfold wgSendHandshakeResponse at h
  split at h
  · cases h
  · cases h
    exact ⟨rfl, rfl⟩
  · cases h
    exact ⟨rfl, rfl⟩

theorem wgProcessInitiation_sameBucket {n n' : Netdev cfg} {msg : MsgInit} {addr : U32}
    {port : U16} (h : wgProcessInitiation c env n msg addr port = some n') : SameBucket n n' := by
  unfold wgProcessInitiation at h
  split at h
  · cases h
    exact .refl n
  · exact (wgSendHandshakeResponse_sameBucket c env h).from_same rfl rfl

theorem wgProcessInner_sameBucket (n : Netdev cfg) (x : Fin cfg.maxPeers) (dataLen : Nat) :
    SameBucket n (wgProcessInner c env n x dataLen) := by
  have hinject : ∀ plaintext, SameBucket n (wgInjectPlaintext c env n x plaintext) := by
    intro plaintext
    rcases wgInjectPlaintext_cases c env n x plaintext with h | ⟨b, h | ⟨y, reply, h⟩⟩
    · rw [h]
      exact .refl n
    · rw [h]
      exact ⟨rfl, rfl⟩
    · rw [h]
      exact (wgEncryptAndSend_sameBucket c env _ y reply).from_same rfl rfl
  unfold wgProcessInner
  dsimp only
  split
  · split
    · split
      · exact hinject _
      · exact .refl n
    · exact .refl n
  · exact .refl n

theorem wgProcessDataMessage_sameBucket (n : Netdev cfg) (x : Fin cfg.maxPeers)
    (data : List Byte) (addr : U32) (port : U16) :
    SameBucket n (wgProcessDataMessage c env n x data addr port) := by
  rcases wgProcessDataMessage_cases c env n x data addr port with
    ⟨b, h⟩ | ⟨s, -, ⟨-, h⟩ | ⟨-, -, plain, -, ⟨-, h⟩ | ⟨-, h⟩⟩⟩
  · rw [h]
    exact ⟨rfl, rfl⟩
  · rw [h]
    exact ⟨rfl, rfl⟩
  · rw [h]
    exact ⟨rfl, rfl⟩
  · rw [h]
    exact (wgProcessInner_sameBucket c env _ x _).from_same rfl rfl

/-- A datagram that is no counted initiation. -/
theorem wgProcessUdpPacket_sameBucket {n n' : Netdev cfg} {data : List Byte} {addr : U32}
    {port : U16} (hnot : ¬InitiationCounted c n data)
    (h : wgProcessUdpPacket c env n data addr port = some n') : SameBucket n n' := by
  by_cases htype : messageType data = messageHandshakeInitiation
  · rw [wgProcessUdpPacket_forged c env addr port htype
      (by simpa [InitiationCounted, htype] using hnot)] at h
    cases h
    exact .refl n
  unfold wgProcessUdpPacket at h
  rw [if_neg htype] at h
  split at h
  · dsimp only at h
    split at h
    · cases h
      exact .refl n
    · split at h
      · cases h
        exact .refl n
      · split at h
        · cases h
          exact .refl n
        · cases h
          exact (wgEncryptAndSend_sameBucket c env _ _ []).from_same rfl rfl
  · split at h
    · dsimp only at h
      split at h
      · cases h
        exact .refl n
      · split at h
        · cases h
          exact .refl n
        · exact (wgStartHandshake_sameBucket c env h).from_same rfl rfl
    · split at h
      · split at h
        · cases h
          exact .refl n
        · cases h
          exact wgProcessDataMessage_sameBucket c env n _ data addr port
      · cases h
        exact .refl n

theorem wgRunTimersPeer_sameBucket {n n' : Netdev cfg} {x : Fin cfg.maxPeers}
    (h : wgRunTimersPeer c env n x = some n') : SameBucket n n' := by
  unfold wgRunTimersPeer at h
  split at h
  · cases h
    exact .refl n
  · dsimp only at h
    have hexpire : SameBucket n (n.setPeer x (wgExpirePeer env.now (n.peer x))) := ⟨rfl, rfl⟩
    generalize n.setPeer x (wgExpirePeer env.now (n.peer x)) = m at h hexpire
    have hkeep : SameBucket m
        (if keepaliveDue env.now (m.peer x) then wgSendKeepalive c env m x else m) := by
      split
      · exact wgEncryptAndSend_sameBucket c env m x []
      · exact .refl m
    generalize (if keepaliveDue env.now (m.peer x) then wgSendKeepalive c env m x else m) = m'
      at h hkeep
    refine (hexpire.trans hkeep).trans ?_
    split at h
    · exact wgStartHandshake_sameBucket c env h
    · cases h
      exact .refl _

theorem wgTxpoll_sameBucket (n : Netdev cfg) (packet : List Byte) :
    SameBucket n (wgTxpoll c env n packet) := by
  unfold wgTxpoll
  dsimp only
  split
  · split
    · exact (wgEncryptAndSend_sameBucket c env _ _ _).from_same rfl rfl
    · exact ⟨rfl, rfl⟩
  · exact .refl n
/-! ### Runs -/

/-- When it arrived. -/
def arrivalTime (k : Taken (Netdev cfg) (Event cfg)) : Option Nat :=
  k.event.received.map (·.1.time)

/-- When the step counted an initiation, if it did. -/
def countedAt (k : Taken (Netdev cfg) (Event cfg)) : Option Nat :=
  k.event.received.bind fun (env, data, _, _) =>
    if InitiationCounted c k.before data then some env.time else none

/-- **The step does the Diffie-Hellman work of an initiation without a valid mac2**, at a
time between `a` and `b`. -/
def unprovenBetween (a b : Nat) (k : Taken (Netdev cfg) (Event cfg)) : Bool :=
  k.event.received.any fun (env, data, addr, port) =>
    decide (a ≤ env.time ∧ env.time ≤ b ∧ InitiationAdmitted c env k.before data addr port) &&
      !mac2Valid c env k.before data addr port

/-- Arrival times do not go back. -/
def Ordered (ts : List (Taken (Netdev cfg) (Event cfg))) : Prop :=
  (ts.filterMap arrivalTime).Pairwise (· ≤ ·)

/-- The 32-bit counter does not wrap: no bucket counts 2^32 initiations. -/
def CountFits (ts : List (Taken (Netdev cfg) (Event cfg))) : Prop :=
  ∀ k ∈ ts, ∀ time ∈ countedAt c k, ¬CountWraps time k.before

/-- What a step does to the bucket. -/
theorem step_bucket {k : Taken (Netdev cfg) (Event cfg)}
    (h : step c k.before k.event = some k.after)
    (hfits : ∀ time ∈ countedAt c k, ¬CountWraps time k.before) :
    k.after.bucket =
      (countedAt c k).elim k.before.bucket (k.before.bucket.arrive sysNow bucketDue) := by
  obtain ⟨n, e, n'⟩ := k
  cases e with
  | rx env data addr port =>
      by_cases hcounted : InitiationCounted c n (data.take wgMaxPacket)
      · have hat : countedAt c ⟨n, .rx env data addr port, n'⟩ = some env.time := if_pos hcounted
        have hdata : data ≠ [] := by
          rintro rfl
          exact absurd hcounted.1 (by decide)
        rw [hat] at hfits ⊢
        simp only [step, if_neg hdata] at h
        rw [wgProcessUdpPacket_counted c env addr port hcounted] at h
        have hchecked : SameBucket (wgUnderLoad env n).1
            (initiationChecked c env n (data.take wgMaxPacket) addr port) := by
          unfold initiationChecked
          split <;> exact ⟨rfl, rfl⟩
        have hsame : SameBucket (wgUnderLoad env n).1 n' := by
          split at h
          · exact hchecked.trans (wgProcessInitiation_sameBucket c env h)
          · cases h
            exact hchecked.trans ⟨rfl, rfl⟩
        exact hsame.bucket.trans (wgUnderLoad_bucket env (hfits _ rfl))
      · have hat : countedAt c ⟨n, .rx env data addr port, n'⟩ = none := if_neg hcounted
        rw [hat]
        simp only [step] at h
        split at h
        · cases h
          rfl
        · exact (wgProcessUdpPacket_sameBucket c env hcounted h).bucket
  | timers env =>
      exact (foldlM_relates (R := SameBucket) .refl .trans
        (fun _ _ _ hs => wgRunTimersPeer_sameBucket c env hs) _ h).bucket
  | txpoll env packet =>
      rw [← Option.some.inj h]
      show (if n.bifup then wgTxpoll c env n packet else n).bucket = n.bucket
      split
      · exact (wgTxpoll_sameBucket c env n packet).bucket
      · rfl
  | ifup =>
      rw [← Option.some.inj h]
      rfl
  | ifdown =>
      rw [← Option.some.inj h]
      rfl

/-- An initiation that does the work unproven is one its bucket lets pass. -/
theorem unprovenBetween_passes {a b : Nat} {k : Taken (Netdev cfg) (Event cfg)}
    (hfits : ∀ time ∈ countedAt c k, ¬CountWraps time k.before)
    (h : unprovenBetween c a b k = true) : ∃ time, countedAt c k = some time ∧ a ≤ time ∧
      time ≤ b ∧ (k.before.bucket.arrive sysNow bucketDue time).count ≤ cfg.loadThreshold.toNat := by
  obtain ⟨n, e, n'⟩ := k
  cases e with
  | rx env data addr port =>
      have h : (decide (a ≤ env.time ∧ env.time ≤ b ∧
          InitiationAdmitted c env n (data.take wgMaxPacket) addr port) &&
          !mac2Valid c env n (data.take wgMaxPacket) addr port) = true := h
      simp only [Bool.and_eq_true, decide_eq_true_eq, Bool.not_eq_true'] at h
      obtain ⟨⟨ha, hb, htype, hmac, hpass⟩, hmac2⟩ := h
      have hat : countedAt c ⟨n, .rx env data addr port, n'⟩ = some env.time :=
        if_pos ⟨htype, hmac⟩
      refine ⟨env.time, hat, ha, hb, ?_⟩
      rw [← wgUnderLoad_bucket env (hfits _ hat)]
      rcases hpass with hload | hok
      · rw [wgUnderLoad_load] at hload
        have hnot := of_decide_eq_false hload
        exact Nat.not_lt.mp hnot
      · unfold mac2Valid at hmac2
        rw [hok] at hmac2
        cases hmac2
  | timers env => cases h
  | txpoll env packet => cases h
  | ifup => cases h
  | ifdown => cases h

/-- What a run lets through is what its buckets let pass. -/
theorem countP_le_passesIn {a b : Nat} {n m : Netdev cfg}
    {ts : List (Taken (Netdev cfg) (Event cfg))} (hrun : Run (step c) n ts m)
    (hfits : CountFits c ts) :
    ts.countP (unprovenBetween c a b) ≤ Bucket.passesIn sysNow bucketDue cfg.loadThreshold.toNat a b
      n.bucket (ts.filterMap (countedAt c)) := by
  induction ts generalizing n with
  | nil => exact Nat.le_refl _
  | cons k ts ih =>
      obtain ⟨rfl, hstep, hrest⟩ := hrun.uncons
      have hk := hfits k List.mem_cons_self
      have hbucket := step_bucket c hstep hk
      have hpass := unprovenBetween_passes c (a := a) (b := b) hk
      have ih := ih hrest fun j hj => hfits j (List.mem_cons_of_mem _ hj)
      rw [List.countP_cons]
      cases hat : countedAt c k with
      | none =>
          have hsame : k.after.bucket = k.before.bucket := by rw [hbucket, hat]; rfl
          have hnot : ¬unprovenBetween c a b k = true := by
            intro hun
            obtain ⟨time, htime, -⟩ := hpass hun
            rw [hat] at htime
            cases htime
          rw [List.filterMap_cons_none hat, if_neg hnot, ← hsame]
          exact ih
      | some time =>
          have harrive : k.after.bucket = k.before.bucket.arrive sysNow bucketDue time := by
            rw [hbucket, hat]
            rfl
          rw [harrive] at ih
          rw [List.filterMap_cons_some hat]
          unfold Bucket.passesIn
          by_cases hun : unprovenBetween c a b k = true
          · obtain ⟨time', htime, hpassed⟩ := hpass hun
            cases hat.symm.trans htime
            rw [if_pos hun, if_pos hpassed]
            omega
          · rw [if_neg hun]
            omega

theorem arrivalTime_of_countedAt {k : Taken (Netdev cfg) (Event cfg)} {time : Nat}
    (h : countedAt c k = some time) : arrivalTime k = some time := by
  obtain ⟨⟨env, data, addr, port⟩, hr, htime⟩ := Option.bind_eq_some_iff.mp h
  unfold arrivalTime
  rw [hr]
  exact congrArg some (Option.some.inj (Option.ite_none_right_eq_some.mp htime).2)

theorem Ordered.counted {ts : List (Taken (Netdev cfg) (Event cfg))} (h : Ordered ts) :
    (ts.filterMap (countedAt c)).Pairwise (· ≤ ·) := by
  refine h.sublist ?_
  clear h
  induction ts with
  | nil => exact List.Sublist.slnil
  | cons k ts ih =>
      cases hat : countedAt c k with
      | none =>
          rw [List.filterMap_cons_none hat]
          exact ih.trans ((List.sublist_cons_self k ts).filterMap _)
      | some time =>
          rw [List.filterMap_cons_some hat, List.filterMap_cons_some (arrivalTime_of_countedAt c hat)]
          exact ih.cons_cons time

/-- **What a flood can cost.**  In a run whose datagrams arrive in order and whose counter
does not wrap, no window of at most a second sees more than two thresholds' worth of
initiations without a valid mac2 get to the Diffie-Hellman work, unless it lasts the whole
second and ends in the millisecond in which the clock wraps; and an initiation that fails
mac1 gets nowhere and counts for nothing. -/
theorem admissions_bounded {n m : Netdev cfg} {ts : List (Taken (Netdev cfg) (Event cfg))}
    (hrun : Run (step c) n ts m) (hordered : Ordered ts) (hfits : CountFits c ts) :
    (∀ a b, b ≤ a + 1000 → ¬(b = a + 1000 ∧ b % 2 ^ 32 = 0) →
      ts.countP (unprovenBetween c a b) ≤ 2 * cfg.loadThreshold.toNat) ∧
    ∀ k ∈ ts, ∀ env data addr port, k.event = .rx env data addr port →
      checkMac1 c k.before.wg ((data.take wgMaxPacket).take (msgInitLen - 32))
        (MsgInit.parse (data.take wgMaxPacket)).mac1 = false →
      ¬InitiationAdmitted c env k.before (data.take wgMaxPacket) addr port ∧
        (messageType (data.take wgMaxPacket) = messageHandshakeInitiation →
          k.after = k.before) := by
  refine ⟨fun a b hwindow hclock => ?_, ?_⟩
  · exact (countP_le_passesIn c hrun hfits).trans
      (Bucket.passesIn_le (bucket_lasts hwindow hclock) (hordered.counted c) _)
  · intro k hk env data addr port hevent hmac
    have hstep := hrun.step_of_mem hk
    refine ⟨fun hadmitted => ?_, fun htype => ?_⟩
    · rw [hadmitted.2.1] at hmac
      cases hmac
    · rw [hevent] at hstep
      simp only [step] at hstep
      split at hstep
      · exact (Option.some.inj hstep).symm
      · rw [wgProcessUdpPacket_forged c env addr port htype hmac] at hstep
        exact (Option.some.inj hstep).symm

/-! ### A flood -/

/-- Less than one wrap of the clock passes between the arrivals. -/
def WithinWrap (ts : List (Taken (Netdev cfg) (Event cfg))) : Prop :=
  ∀ s ∈ ts.filterMap arrivalTime, ∀ t ∈ ts.filterMap arrivalTime, t < s + 2 ^ 32

namespace Sample

open NuttxWireguard.Sample

/-- Cookies after two initiations a second. -/
def lowConfig : Config := { config with loadThreshold := 2 }

def lowEnv (time : Nat) : Env lowConfig where
  time := time
  timestamp := fun _ => timestamp 1
  ephemeral := fun _ => key 16 64
  draws := fun _ => [draw 1]
  cookieNonce := Bytes.zero 24
  cookieSecret := key 1 1
  sendto := fun _ => true
  iobPrepare := true
  iobCopyin := true
  ipv4Input := fun _ => []

/-- An initiation that passes mac1 and nothing else. -/
def junk : MsgInit where
  sender := 7
  ephemeral := key 24 64
  encStatic := ⟨List.replicate 47 0 ++ [1], rfl⟩
  encTimestamp := Bytes.zero 28
  mac1 := Bytes.zero 16
  mac2 := ⟨1 :: List.replicate 15 0, rfl⟩

def rxJunk (time : Nat) : Event lowConfig := .rx (lowEnv time) junk.bytes (address 9 9 9 9) 1234

def lowInitial (time : Nat) : Option (Netdev lowConfig) :=
  wgInitialize Crypto.plain (lowEnv time) (key 1 0) (key 8 64) []

theorem junk_take : junk.bytes.take wgMaxPacket = junk.bytes :=
  List.take_of_length_le (by rw [junk.bytes_length]; decide)

theorem junk_counted (n : Netdev lowConfig) :
    InitiationCounted Crypto.plain n (junk.bytes.take wgMaxPacket) := by
  rw [junk_take]
  refine ⟨junk.messageType_bytes, ?_⟩
  rw [junk.parse_bytes]
  rfl

theorem junk_mac2 (n : Netdev lowConfig) (time : Nat) :
    mac2Valid Crypto.plain (lowEnv time) n (junk.bytes.take wgMaxPacket) (address 9 9 9 9) 1234
      = false := by
  rw [junk_take]
  unfold mac2Valid
  rw [junk.parse_bytes]
  exact decide_eq_false (by decide : Bytes.zero 16 ≠ junk.mac2)

theorem junk_opens (d : Device lowConfig) : openInit Crypto.plain d junk = none := by
  have hstatic : ∀ hash : Key,
      Crypto.plain.decryptField junk.encStatic hash (Bytes.zero 32) = none := by
    intro hash
    rfl
  unfold openInit
  cases Crypto.plain.dh d.privateKey junk.ephemeral with
  | none => rfl
  | some dh =>
      have hkey : (Crypto.plain.kdf2 (Crypto.plain.kdf1 Crypto.plain.constructionHash
          junk.ephemeral.toList) dh.toList).2 = Bytes.zero 32 := rfl
      simp only [Option.bind_eq_bind, Option.bind_some, hkey, hstatic]
      rfl

/-- Each one is counted, or restarts the bucket. -/
theorem step_junk (n : Netdev lowConfig) (time : Nat) :
    ∃ n', step Crypto.plain n (rxJunk time) = some n' ∧
      SameBucket (wgUnderLoad (lowEnv time) n).1 n' := by
  have hstep : step Crypto.plain n (rxJunk time) = wgProcessUdpPacket Crypto.plain (lowEnv time) n
      (junk.bytes.take wgMaxPacket) (address 9 9 9 9) 1234 := by
    have hdata : junk.bytes ≠ [] := List.ne_nil_of_length_pos (by rw [junk.bytes_length]; decide)
    simp only [step, rxJunk, if_neg hdata]
  rw [hstep, wgProcessUdpPacket_counted _ _ _ _ (junk_counted n)]
  have hchecked : SameBucket (wgUnderLoad (lowEnv time) n).1 (initiationChecked Crypto.plain
      (lowEnv time) n (junk.bytes.take wgMaxPacket) (address 9 9 9 9) 1234) := by
    unfold initiationChecked
    split <;> exact ⟨rfl, rfl⟩
  generalize initiationChecked Crypto.plain (lowEnv time) n (junk.bytes.take wgMaxPacket)
    (address 9 9 9 9) 1234 = m at hchecked
  split
  · refine ⟨m, ?_, hchecked⟩
    unfold wgProcessInitiation wireguardProcessInitiationMessage
    rw [junk_take, junk.parse_bytes, junk_opens]
    rfl
  · exact ⟨_, rfl, hchecked.trans ⟨rfl, rfl⟩⟩

/-- As long as the bucket lasts and has room, each one does the work unproven. -/
theorem unproven_junk {a b time : Nat} {n n' : Netdev lowConfig} (ha : a ≤ time) (hb : time ≤ b)
    (hroom : (wgUnderLoad (lowEnv time) n).1.initCount ≤ 2) :
    unprovenBetween Crypto.plain a b ⟨n, rxJunk time, n'⟩ = true := by
  have hload : (wgUnderLoad (lowEnv time) n).2 = false := decide_eq_false (BitVec.not_lt.mpr hroom)
  obtain ⟨htype, hmac⟩ := junk_counted n
  show (decide (_ ∧ _ ∧ _) && !_) = true
  rw [junk_mac2, decide_eq_true ⟨ha, hb, htype, hmac, Or.inl hload⟩]
  rfl

/-- In the millisecond its bucket started in, the port only counts. -/
theorem wgUnderLoad_stay {n : Netdev lowConfig} {time : Nat}
    (hstart : n.initWindowStart = sysNow time) :
    (wgUnderLoad (lowEnv time) n).1 = { n with initCount := n.initCount + 1 } := by
  have hstay : ¬(lowEnv time).now - n.initWindowStart ≥ 1000 := by
    rw [hstart]
    show ¬sysNow time - sysNow time ≥ 1000
    rw [BitVec.sub_self]
    decide
  unfold wgUnderLoad
  dsimp only
  rw [if_neg hstay]

/-- The counter goes round while the bucket lasts. -/
theorem run_junk (time count : Nat) {n : Netdev lowConfig}
    (hstart : n.initWindowStart = sysNow time) : ∃ ts m, Run (step Crypto.plain) n ts m ∧
      (∀ k ∈ ts, k.event = rxJunk time) ∧ m.initWindowStart = sysNow time ∧
      m.initCount = n.initCount + BitVec.ofNat 32 count := by
  induction count generalizing n with
  | zero => exact ⟨[], n, .nil, by simp, hstart, by simp⟩
  | succ count ih =>
      obtain ⟨n', hstep, hsame⟩ := step_junk n time
      rw [wgUnderLoad_stay hstart] at hsame
      obtain ⟨ts, m, hrun, hevents, hm, hcount⟩ := ih (hsame.start.trans hstart)
      refine ⟨_, m, .cons hstep hrun, ?_, hm, ?_⟩
      · intro k hk
        rcases List.mem_cons.mp hk with rfl | hk
        · rfl
        · exact hevents k hk
      · rw [hcount, hsame.count, BitVec.add_assoc, Nat.add_comm count 1, BitVec.ofNat_add]
        rfl

/-- One more initiation, while there is room. -/
theorem junk_passes {time : Nat} {n : Netdev lowConfig} (hstart : n.initWindowStart = sysNow time)
    (hroom : n.initCount + 1 ≤ 2) : ∃ n', step Crypto.plain n (rxJunk time) = some n' ∧
      unprovenBetween Crypto.plain time time ⟨n, rxJunk time, n'⟩ = true ∧
      n'.initWindowStart = sysNow time ∧ n'.initCount = n.initCount + 1 := by
  obtain ⟨n', hstep, hsame⟩ := step_junk n time
  rw [wgUnderLoad_stay hstart] at hsame
  refine ⟨n', hstep, unproven_junk (Nat.le_refl _) (Nat.le_refl _) ?_, hsame.start.trans hstart,
    hsame.count⟩
  rw [wgUnderLoad_stay hstart]
  exact hroom

/-- `3 * 2 - 1` of them, in the second before the clock wraps. -/
def acrossWrap : List (Event lowConfig) :=
  [rxJunk (2 ^ 32 - 1999), rxJunk (2 ^ 32 - 1000), rxJunk (2 ^ 32 - 999), rxJunk (2 ^ 32 - 999),
    rxJunk (2 ^ 32), rxJunk (2 ^ 32)]

theorem run_acrossWrap : ∃ (n₀ n : Netdev lowConfig) (ts : List (Taken _ (Event lowConfig))),
    Initial Crypto.plain n₀ ∧ Run (step Crypto.plain) n₀ ts n ∧ Ordered ts ∧ WithinWrap ts ∧
    CountFits Crypto.plain ts ∧
    ts.countP (unprovenBetween Crypto.plain (2 ^ 32 - 1000) (2 ^ 32)) = 5 := by
  have hrun : ((lowInitial (2 ^ 32 - 3000)).bind fun n =>
      steps (step Crypto.plain) n acrossWrap).any (fun (ts, _) =>
        decide ((ts.filterMap arrivalTime).Pairwise (· ≤ ·)) &&
        (ts.filterMap arrivalTime).all (fun s => (ts.filterMap arrivalTime).all fun t =>
          decide (t < s + 2 ^ 32)) &&
        ts.all (fun k => (countedAt Crypto.plain k).all fun time =>
          decide (¬(bucketDue k.before.initWindowStart time = false ∧
            k.before.initCount.toNat + 1 = 2 ^ 32))) &&
        decide (ts.countP (unprovenBetween Crypto.plain (2 ^ 32 - 1000) (2 ^ 32)) = 5)) = true := by
    decide +kernel
  obtain ⟨⟨ts, n⟩, hts, h⟩ := (Option.any_eq_true _ _).mp hrun
  obtain ⟨n₀, h₀, hsteps⟩ := Option.bind_eq_some_iff.mp hts
  simp only [Bool.and_eq_true, decide_eq_true_eq, List.all_eq_true, Option.all_eq_true] at h
  obtain ⟨⟨⟨hordered, hwithin⟩, hfits⟩, hpassed⟩ := h
  exact ⟨n₀, n, ts, ⟨_, _, _, _, h₀⟩, Run.of_steps hsteps, hordered, hwithin, hfits, hpassed⟩

/-- Two of them fill the threshold. -/
theorem run_filled : ∃ (n₀ n : Netdev lowConfig) (ts : List (Taken _ (Event lowConfig))),
    Initial Crypto.plain n₀ ∧ Run (step Crypto.plain) n₀ ts n ∧
    (∀ k ∈ ts, k.event = rxJunk 2000) ∧ n.initWindowStart = sysNow 2000 ∧ n.initCount = 2 ∧
    ts.countP (unprovenBetween Crypto.plain 2000 2000) = 2 := by
  have hrun : ((lowInitial 1000).bind fun n =>
      steps (step Crypto.plain) n [rxJunk 2000, rxJunk 2000]).any (fun (ts, n) =>
        decide (n.initWindowStart = sysNow 2000 ∧ n.initCount = 2 ∧
          ts.countP (unprovenBetween Crypto.plain 2000 2000) = 2)) = true := by decide +kernel
  obtain ⟨⟨ts, n⟩, hts, h⟩ := (Option.any_eq_true _ _).mp hrun
  obtain ⟨n₀, h₀, hsteps⟩ := Option.bind_eq_some_iff.mp hts
  obtain ⟨hstart, hcount, hpassed⟩ := of_decide_eq_true h
  have hrun := Run.of_steps hsteps
  refine ⟨n₀, n, ts, ⟨_, _, _, _, h₀⟩, hrun, fun k hk => ?_, hstart, hcount, hpassed⟩
  have hevents : ts.map (·.event) = [rxJunk 2000, rxJunk 2000] := Run.events_of_steps hsteps
  have hmem := List.mem_map_of_mem (f := fun k => k.event) hk
  rw [hevents] at hmem
  simpa using hmem

/-- Arrivals that are all at once. -/
theorem arrivals_at_once {time : Nat} {ts : List (Taken (Netdev lowConfig) (Event lowConfig))}
    (h : ∀ k ∈ ts, k.event = rxJunk time) : Ordered ts ∧ WithinWrap ts := by
  have hat : ∀ t ∈ ts.filterMap arrivalTime, t = time := by
    intro t ht
    obtain ⟨k, hk, htime⟩ := List.mem_filterMap.mp ht
    unfold arrivalTime at htime
    rw [h k hk] at htime
    exact (Option.some.inj htime).symm
  refine ⟨List.pairwise_of_forall_mem_list fun s hs t ht => ?_, fun s hs t ht => ?_⟩
  · rw [hat s hs, hat t ht]
  · rw [hat s hs, hat t ht]
    omega

/-- Once round the counter: two pass before, three after. -/
theorem run_round : ∃ (n₀ n : Netdev lowConfig) (ts : List (Taken _ (Event lowConfig))),
    Initial Crypto.plain n₀ ∧ Run (step Crypto.plain) n₀ ts n ∧
    (∀ k ∈ ts, k.event = rxJunk 2000) ∧
    5 ≤ ts.countP (unprovenBetween Crypto.plain 2000 2000) := by
  obtain ⟨n₀, n, ts, hinit, hrun, hevents, hstart, hcount, hpassed⟩ := run_filled
  obtain ⟨us, m, hround, huevents, hm, hmcount⟩ := run_junk 2000 (2 ^ 32 - 3) hstart
  rw [hcount] at hmcount
  obtain ⟨m₁, h₁, hpass₁, hm₁, hcount₁⟩ := junk_passes hm (by rw [hmcount]; decide)
  rw [hmcount] at hcount₁
  obtain ⟨m₂, h₂, hpass₂, hm₂, hcount₂⟩ := junk_passes hm₁ (by rw [hcount₁]; decide)
  rw [hcount₁] at hcount₂
  obtain ⟨m₃, h₃, hpass₃, -, -⟩ := junk_passes hm₂ (by rw [hcount₂]; decide)
  refine ⟨n₀, m₃, ts ++ us ++ [⟨m, rxJunk 2000, m₁⟩, ⟨m₁, rxJunk 2000, m₂⟩,
    ⟨m₂, rxJunk 2000, m₃⟩], hinit, (hrun.append hround).append (.cons h₁ (.cons h₂ (.cons h₃ .nil))),
    fun k hk => ?_, ?_⟩
  · simp only [List.mem_append, List.mem_cons, List.not_mem_nil, or_false] at hk
    rcases hk with (hk | hk) | rfl | rfl | rfl
    · exact hevents k hk
    · exact huevents k hk
    all_goals rfl
  · rw [List.countP_append, List.countP_append, hpassed, List.countP_cons_of_pos hpass₁,
      List.countP_cons_of_pos hpass₂, List.countP_cons_of_pos hpass₃, List.countP_nil]
    omega

end Sample

/-- Without its last millisecond the second before the clock wraps keeps the bound. -/
theorem admissions_bounded_sample :
    ∃ ts : List (Taken (Netdev Sample.lowConfig) (Event Sample.lowConfig)),
      ts.countP (unprovenBetween Crypto.plain (2 ^ 32 - 1000) (2 ^ 32)) = 5 ∧
      ts.countP (unprovenBetween Crypto.plain (2 ^ 32 - 1000) (2 ^ 32 - 1))
        ≤ 2 * Sample.lowConfig.loadThreshold.toNat := by
  obtain ⟨n₀, n, ts, -, hrun, hordered, -, hfits, hpassed⟩ := Sample.run_acrossWrap
  exact ⟨ts, hpassed, (admissions_bounded Crypto.plain hrun hordered hfits).1
    (2 ^ 32 - 1000) (2 ^ 32 - 1) (by decide) (by decide)⟩

/-- A second that ends when the clock wraps sees five initiations pass a threshold of two;
and a bucket that outlives its counter passes three on top of the two it should. -/
theorem not_admissions_bounded :
    (¬∀ (cfg : Config) (c : Crypto) (n m : Netdev cfg) (ts : List (Taken (Netdev cfg) (Event cfg))),
      Initial c n → Run (step c) n ts m → Ordered ts → WithinWrap ts → CountFits c ts →
      ∀ a b, b ≤ a + 1000 → ts.countP (unprovenBetween c a b) ≤ 2 * cfg.loadThreshold.toNat) ∧
    (¬∀ (cfg : Config) (c : Crypto) (n m : Netdev cfg) (ts : List (Taken (Netdev cfg) (Event cfg))),
      Initial c n → Run (step c) n ts m → Ordered ts → WithinWrap ts →
      ∀ a b, b < a + 1000 → ts.countP (unprovenBetween c a b) ≤ 2 * cfg.loadThreshold.toNat) := by
  refine ⟨fun hall => ?_, fun hall => ?_⟩
  · obtain ⟨n₀, n, ts, hinit, hrun, hordered, hwithin, hfits, hpassed⟩ := Sample.run_acrossWrap
    have hle := hall _ _ _ _ _ hinit hrun hordered hwithin hfits (2 ^ 32 - 1000) (2 ^ 32) (by decide)
    rw [hpassed] at hle
    exact absurd hle (by decide)
  · obtain ⟨n₀, n, ts, hinit, hrun, hevents, hpassed⟩ := Sample.run_round
    obtain ⟨hordered, hwithin⟩ := Sample.arrivals_at_once hevents
    have hle := hall _ _ _ _ _ hinit hrun hordered hwithin 2000 2000 (by decide)
    exact absurd (hpassed.trans hle) (by decide)

end NuttxWireguard.Flat
