/-
A datagram that is not accepted changes no peer.

`Accepts` says what the port accepts, in terms of the message and of what was accepted
before: four kinds of message, each with its own proof of who sent it.  Everything else
leaves every peer record as it was; the one thing a refused datagram can still bring
about is that a keypair past its limits is destroyed when it is looked up.

A duplicate of an accepted transport datagram is not accepted, whatever happened in
between: its counter is in the window of the session, if the session still exists, and
under another session's key it does not authenticate.
-/
import NuttxWireguard.Flat.Nonce

namespace NuttxWireguard.Flat

open Lib

variable {cfg : Config} (c : Crypto) (env : Env cfg)

/-! ### What is accepted -/

/-- An initiation that passes mac1 and, under load, mac2, decrypts, has a timestamp
greater than every one accepted from its sender and is within the rate limit. -/
structure InitiationAccepted (n : Netdev cfg) (data : List Byte) (addr : U32) (port : U16)
    (o : OpenedInit cfg) : Prop where
  admitted : InitiationAdmitted c env n data addr port
  opens : openInit c n.wg (MsgInit.parse data) = some o
  greater : ∀ t, .initAccepted o.peer t ∈ n.log → beNat t.toList < beNat o.timestamp.toList
  rate : rateLimited env.now (n.peer o.peer) = false

/-- A response that passes mac1 and completes the handshake it names, which is pending. -/
structure ResponseAccepted (n : Netdev cfg) (data : List Byte) (x : Fin cfg.maxPeers) : Prop where
  type : messageType data = messageHandshakeResponse
  mac1 : checkMac1 c n.wg (data.take (msgResponseLen - 32)) (MsgResponse.parse data).mac1 = true
  pending : peerByHandshake n.wg (MsgResponse.parse data).receiver = some x
  completes : (processResponse c n.wg (n.peer x) (MsgResponse.parse data)).isSome = true

/-- A cookie that decrypts under the mac1 of the initiation last sent. -/
structure CookieAccepted (n : Netdev cfg) (data : List Byte) (x : Fin cfg.maxPeers) : Prop where
  type : messageType data = messageCookieReply
  pending : peerByHandshake n.wg (MsgCookie.parse data).receiver = some x
  awaited : (n.peer x).handshakeMac1Valid = true
  opens : (c.xaeadDecrypt (MsgCookie.parse data).encCookie.toList (n.peer x).handshakeMac1.toList
    (MsgCookie.parse data).nonce (n.peer x).labelCookieKey).isSome = true

/-- A transport datagram for a live keypair that authenticates, with a counter that is new
and in the window of its session. -/
structure TransportAccepted (n : Netdev cfg) (data : List Byte) (x : Fin cfg.maxPeers)
    (s : Slot) : Prop where
  type : messageType data = messageTransportData
  peer : peerByReceiver n.wg (dataReceiver data) = some x
  slot : keypairByIndex (n.peer x) (dataReceiver data) = some s
  live : receivingExhausted env.now ((n.peer x).keypair s) = false
  fits : data.length - msgDataLen ≤ wgMaxPacket + authtagLen
  opens : (decryptPacket c ((n.peer x).keypair s) (data.drop 16) (dataCounter data)).isSome = true
  fresh : (dataCounter data).toNat ≠ 2 ^ 64 - 1 ∧
    Window.Accepts (64 * cfg.replayWords) (countersAccepted ((n.peer x).keypair s).sid n.log)
      (dataCounter data).toNat

instance (n : Netdev cfg) (data : List Byte) (x : Fin cfg.maxPeers) (s : Slot) :
    Decidable (TransportAccepted c env n data x s) :=
  decidable_of_iff
    (messageType data = messageTransportData ∧ peerByReceiver n.wg (dataReceiver data) = some x ∧
      keypairByIndex (n.peer x) (dataReceiver data) = some s ∧
      receivingExhausted env.now ((n.peer x).keypair s) = false ∧
      data.length - msgDataLen ≤ wgMaxPacket + authtagLen ∧
      (decryptPacket c ((n.peer x).keypair s) (data.drop 16) (dataCounter data)).isSome = true ∧
      (dataCounter data).toNat ≠ 2 ^ 64 - 1 ∧
      Window.Accepts (64 * cfg.replayWords) (countersAccepted ((n.peer x).keypair s).sid n.log)
        (dataCounter data).toNat)
    ⟨fun ⟨h₁, h₂, h₃, h₄, h₅, h₆, h₇⟩ => ⟨h₁, h₂, h₃, h₄, h₅, h₆, h₇⟩,
      fun ⟨h₁, h₂, h₃, h₄, h₅, h₆, h₇⟩ => ⟨h₁, h₂, h₃, h₄, h₅, h₆, h₇⟩⟩

/-- The datagram is accepted. -/
inductive Accepts (n : Netdev cfg) (data : List Byte) (addr : U32) (port : U16) : Prop
  | initiation (o : OpenedInit cfg) (h : InitiationAccepted c env n data addr port o)
  | response (x : Fin cfg.maxPeers) (h : ResponseAccepted c n data x)
  | cookie (x : Fin cfg.maxPeers) (h : CookieAccepted c n data x)
  | transport (x : Fin cfg.maxPeers) (s : Slot) (h : TransportAccepted c env n data x s)

/-! ### What is left of a peer -/

/-- The keypair is past `REJECT_AFTER_TIME` or `REJECT_AFTER_MESSAGES`. -/
def PastLimits (now : U32) (kp : Keypair cfg) : Prop :=
  expired now kp.keypairMillis rejectAfterTime = true ∨ kp.replayCounter ≥ rejectAfterMessages

/-- Every field of the record is as it was, or one keypair past its limits is gone. -/
def Undisturbed (p p' : Peer cfg) : Prop :=
  p' = p ∨ ∃ s, (p.keypair s).valid = true ∧ PastLimits env.now (p.keypair s) ∧
    p' = keypairDestroy p s

theorem Undisturbed.endpoint {p p' : Peer cfg} (h : Undisturbed env p p') :
    p'.ip = p.ip ∧ p'.port = p.port := by
  rcases h with rfl | ⟨s, -, -, rfl⟩
  · exact ⟨rfl, rfl⟩
  · cases s <;> exact ⟨rfl, rfl⟩

/-! ### Reachable states -/

theorem ReachableState.greatest {n : Netdev cfg} (h : ReachableState c n) : n.view.Greatest :=
  h.view_invariant c (fun _ => View.Fresh.greatest) (fun _ _ _ => Micro.greatest)

theorem ReachableState.receivingValid {n : Netdev cfg} (h : ReachableState c n)
    (x : Fin cfg.maxPeers) (s : Slot) (hvalid : ((n.peer x).keypair s).valid = true) :
    ((n.peer x).keypair s).receivingValid = true := by
  have hinv : n.view.Numbered ∧ n.view.Each fun _ _ _ kp => kp.receivingValid = true :=
    h.view_invariant c (I := fun v => v.Numbered ∧ v.Each fun _ _ _ kp => kp.receivingValid = true)
      (fun v hv => ⟨.fresh hv, hv.each⟩)
      (fun time v w hs hv =>
        ⟨hs.numbered hv.1, hs.each_keypair (receivingValid_invariant time) hv.1 hv.2⟩)
  exact hinv.2 x s hvalid

/-- A step only adds to the log. -/
theorem step_log_suffix {n n' : Netdev cfg} {e : Event cfg} (h : step c n e = some n') :
    n.log <:+ n'.log := by
  have hpath : Path (e.time.getD 0) n.view n'.view :=
    step_path c (fun t ht => by rw [Option.mem_def.mp ht]; rfl) h
  exact hpath.log_suffix

/-- The verdict of the window in a reachable state. -/
theorem ReachableState.fresh_iff {n : Netdev cfg} (h : ReachableState c n) {x : Fin cfg.maxPeers}
    {s : Slot} (hvalid : ((n.peer x).keypair s).valid = true) (counter : U64) :
    (Kernel.wgCheckReplay ((n.peer x).keypair s) counter).1 = true ↔
      counter.toNat ≠ 2 ^ 64 - 1 ∧ Window.Accepts (64 * cfg.replayWords)
        (countersAccepted ((n.peer x).keypair s).sid n.log) counter.toNat := by
  have hspec := (wgCheckReplay_spec (h.sound.receiving x s hvalid) counter).1
  rw [succ_ne_zero_iff] at hspec
  exact hspec

/-! ### Refused datagrams -/

theorem receivingExhausted_pastLimits {now : U32} {kp : Keypair cfg}
    (h : receivingExhausted now kp = true) (hvalid : kp.receivingValid = true) :
    PastLimits now kp := by
  unfold receivingExhausted at h
  rw [hvalid] at h
  simpa [PastLimits] using h

/-- A transport datagram that is not accepted. -/
theorem wgProcessDataMessage_refused {n : Netdev cfg} (h : ReachableState c n)
    {x : Fin cfg.maxPeers} {data : List Byte} {addr : U32} {port : U16}
    (htype : messageType data = messageTransportData)
    (hx : peerByReceiver n.wg (dataReceiver data) = some x)
    (hrefused : ¬Accepts c env n data addr port) (y : Fin cfg.maxPeers) :
    Undisturbed env (n.peer y) ((wgProcessDataMessage c env n x data addr port).peer y) := by
  rcases wgProcessDataMessage_cases c env n x data addr port with
    ⟨b, hr⟩ | ⟨s, hs, ⟨hlimit, hr⟩ | ⟨hlimit, hfits, plain, hplain, ⟨hstale, hr⟩ | ⟨hfresh, hr⟩⟩⟩
  · rw [hr]
    exact Or.inl rfl
  · rw [hr]
    have hvalid := (keypairByIndex_some hs).1
    by_cases hy : y = x
    · subst hy
      refine Or.inr ⟨s, hvalid, receivingExhausted_pastLimits hlimit ?_, setPeer_peer_self n y _⟩
      exact h.receivingValid c y s hvalid
    · exact Or.inl (setPeer_peer_of_ne n x _ hy)
  · rw [hr]
    exact Or.inl rfl
  · have hvalid := (keypairByIndex_some hs).1
    exact absurd (.transport x s ⟨htype, hx, hs, hlimit, hfits, by rw [hplain]; rfl,
      (h.fresh_iff c hvalid _).mp hfresh⟩) hrefused

theorem processCookie_some {now : U32} {p q : Peer cfg} {msg : MsgCookie}
    (h : processCookie c now p msg = some q) : p.handshakeMac1Valid = true ∧
      (c.xaeadDecrypt msg.encCookie.toList p.handshakeMac1.toList msg.nonce
        p.labelCookieKey).isSome = true := by
  unfold processCookie at h
  split at h
  · cases h
  · rename_i hvalid
    split at h
    · cases h
    · rename_i cookie hcookie
      exact ⟨by simpa using hvalid, by rw [hcookie]; rfl⟩

/-- **A refused datagram leaves every peer undisturbed.** -/
theorem wgProcessUdpPacket_refused {n : Netdev cfg} (h : ReachableState c n) {data : List Byte}
    {addr : U32} {port : U16} (hrefused : ¬Accepts c env n data addr port) :
    ∃ n', wgProcessUdpPacket c env n data addr port = some n' ∧
      ∀ y, Undisturbed env (n.peer y) (n'.peer y) := by
  rcases wgProcessUdpPacket_cases c env n data addr port with
    ⟨m, hq, hr⟩ | ⟨m, o, hq, hlet, hopen, hts, hrate, hr⟩ | ⟨htype, hmac, x, p, hx, hp, hr⟩ |
      ⟨htype, x, p, hx, hp, hr⟩ | ⟨htype, x, hx, hr⟩
  · exact ⟨m, hr, fun y => Or.inl (hq.peer y)⟩
  · refine absurd (.initiation o ⟨hlet, hopen, fun t ht => ?_, hrate⟩) hrefused
    exact (h.greatest c o.peer t ht).trans_lt (lt_of_not_timestampReplayed hts)
  · exact absurd (.response x ⟨htype, hmac, hx, by rw [hp]; rfl⟩) hrefused
  · obtain ⟨hawaited, hopens⟩ := processCookie_some c hp
    exact absurd (.cookie x ⟨htype, hx, hawaited, hopens⟩) hrefused
  · exact ⟨_, hr, wgProcessDataMessage_refused c env h htype hx hrefused⟩

/-! ### Duplicates -/

/-- An accepted transport datagram is in the log. -/
theorem TransportAccepted.logged {n n' : Netdev cfg} (h : ReachableState c n) {data : List Byte}
    {addr : U32} {port : U16} {x : Fin cfg.maxPeers} {s : Slot}
    (hacc : TransportAccepted c env n data x s)
    (hstep : wgProcessUdpPacket c env n data addr port = some n') :
    .opened x ((n.peer x).keypair s).sid (dataCounter data) true env.time ∈ n'.log := by
  have hvalid := (keypairByIndex_some hacc.slot).1
  obtain ⟨plain, hplain⟩ := Option.isSome_iff_exists.mp hacc.opens
  have hr := wgProcessDataMessage_accepted c env addr port hacc.slot hacc.live hacc.fits hplain
    ((h.fresh_iff c hvalid _).mpr hacc.fresh)
  have htransport : wgProcessUdpPacket c env n data addr port
      = some (wgProcessDataMessage c env n x data addr port) := by
    unfold wgProcessUdpPacket
    rw [hacc.type, if_neg (by decide), if_neg (by decide), if_neg (by decide), if_pos rfl,
      hacc.peer]
  cases htransport.symm.trans hstep
  rw [hr]
  exact (wgProcessInner_path c env _ x (data.length - 16)).log_suffix.subset List.mem_cons_self

/-- Messages are told apart by their type. -/
theorem Accepts.transport_of_type {n : Netdev cfg} {data : List Byte} {addr : U32} {port : U16}
    (h : Accepts c env n data addr port) (htype : messageType data = messageTransportData) :
    ∃ x s, TransportAccepted c env n data x s := by
  cases h with
  | initiation o h => exact absurd (h.admitted.1.symm.trans htype) (by decide)
  | response x h => exact absurd (h.type.symm.trans htype) (by decide)
  | cookie x h => exact absurd (h.type.symm.trans htype) (by decide)
  | transport x s h => exact ⟨x, s, h⟩

/-- The datagram authenticates under no session but `sid`. -/
def OpensOnlyUnder (n : Netdev cfg) (data : List Byte) (sid : Nat) : Prop :=
  ∀ x s, ((n.peer x).keypair s).valid = true → ((n.peer x).keypair s).sid ≠ sid →
    decryptPacket c ((n.peer x).keypair s) (data.drop 16) (dataCounter data) = none

/-- A datagram whose counter the session has accepted is not accepted again. -/
theorem not_accepts_of_logged {n : Netdev cfg} {data : List Byte} {addr : U32} {port : U16}
    (htype : messageType data = messageTransportData) {x : Fin cfg.maxPeers} {sid time : Nat}
    (hlogged : .opened x sid (dataCounter data) true time ∈ n.log)
    (honly : OpensOnlyUnder c n data sid) : ¬Accepts c env n data addr port := by
  intro hacc
  obtain ⟨y, t, hacc⟩ := hacc.transport_of_type c env htype
  have hvalid := (keypairByIndex_some hacc.slot).1
  have hsid : ((n.peer y).keypair t).sid = sid := by
    by_contra hne
    have hopens := hacc.opens
    rw [honly y t hvalid hne] at hopens
    cases hopens
  refine hacc.fresh.2.1 (List.mem_filterMap.mpr ⟨_, hlogged, ?_⟩)
  exact if_pos hsid.symm

/-- **Only accepted datagrams change peers.**  In every reachable state a datagram that is
not accepted leaves every peer undisturbed; a peer's endpoint moves only if the datagram is
accepted; and a datagram that was accepted as transport data earlier in the run, from
wherever it is sent now, leaves every peer undisturbed, as long as it opens under no other
session's key. -/
theorem datagram_frame {n : Netdev cfg} (h : ReachableState c n) (data : List Byte) (addr : U32)
    (port : U16) :
    (¬Accepts c env n data addr port →
      ∃ n', wgProcessUdpPacket c env n data addr port = some n' ∧
        ∀ y, Undisturbed env (n.peer y) (n'.peer y)) ∧
    (∀ n' y, wgProcessUdpPacket c env n data addr port = some n' →
      (n'.peer y).ip ≠ (n.peer y).ip ∨ (n'.peer y).port ≠ (n.peer y).port →
      Accepts c env n data addr port) ∧
    (∀ (env₀ : Env cfg) (n₀ n₁ : Netdev cfg) (addr₀ : U32) (port₀ : U16) (x : Fin cfg.maxPeers)
      (s : Slot) (ts : List (Taken (Netdev cfg) (Event cfg))),
      ReachableState c n₀ → TransportAccepted c env₀ n₀ data x s →
      wgProcessUdpPacket c env₀ n₀ data addr₀ port₀ = some n₁ → Run (step c) n₁ ts n →
      OpensOnlyUnder c n data ((n₀.peer x).keypair s).sid →
      ∃ n', wgProcessUdpPacket c env n data addr port = some n' ∧
        ∀ y, Undisturbed env (n.peer y) (n'.peer y)) := by
  refine ⟨wgProcessUdpPacket_refused c env h, ?_, ?_⟩
  · intro n' y hstep hmoved
    by_contra hrefused
    obtain ⟨m, hm, hall⟩ := wgProcessUdpPacket_refused c env h hrefused
    cases hm.symm.trans hstep
    obtain ⟨hip, hport⟩ := (hall y).endpoint env
    rcases hmoved with hne | hne
    · exact hne hip
    · exact hne hport
  · intro env₀ n₀ n₁ addr₀ port₀ x s ts h₀ hacc hstep hrun honly
    have hlog : n₁.log <:+ n.log := hrun.relates (R := fun a b => a.log <:+ b.log)
      (fun _ => List.suffix_refl _) .trans fun _ _ hs => step_log_suffix c hs
    have hlogged := hlog.subset (hacc.logged c env₀ h₀ hstep)
    exact wgProcessUdpPacket_refused c env h (not_accepts_of_logged c env hacc.type hlogged honly)

/-- A transport datagram is accepted, and sent again from another address. -/
theorem datagram_frame_sample :
    ∃ n₀ n n' : Netdev Sample.config,
      TransportAccepted Crypto.plain (Sample.env 1002) n₀ (Sample.datagram 0 (Sample.packet 5))
        Sample.first .next ∧
      wgProcessUdpPacket Crypto.plain (Sample.env 1002) n₀ (Sample.datagram 0 (Sample.packet 5))
        (Sample.address 9 9 9 9) 1234 = some n ∧
      wgProcessUdpPacket Crypto.plain (Sample.env 1003) n (Sample.datagram 0 (Sample.packet 5))
        (Sample.address 8 8 8 8) 4321 = some n' ∧
      ∀ y, Undisturbed (Sample.env 1003) (n.peer y) (n'.peer y) := by
  obtain ⟨n₀, h₀, hrun⟩ := Sample.exists_reachable [Sample.rxInitiation 1001]
    (fun n₀ =>
      decide (TransportAccepted Crypto.plain (Sample.env 1002) n₀
        (Sample.datagram 0 (Sample.packet 5))
        Sample.first .next) &&
      decide (((n₀.peer Sample.first).keypair .next).sid = 0) &&
      (wgProcessUdpPacket Crypto.plain (Sample.env 1002) n₀ (Sample.datagram 0 (Sample.packet 5))
        (Sample.address 9 9 9 9) 1234).any fun (n : Netdev Sample.config) =>
          decide (∀ x : Fin Sample.config.maxPeers,
            ((n.peer x).currKeypair.valid = true → (n.peer x).currKeypair.sid = 0) ∧
            ((n.peer x).prevKeypair.valid = true → (n.peer x).prevKeypair.sid = 0) ∧
            ((n.peer x).nextKeypair.valid = true → (n.peer x).nextKeypair.sid = 0)))
    (by decide +kernel)
  simp only [Bool.and_eq_true, decide_eq_true_eq, Option.any_eq_true] at hrun
  obtain ⟨⟨hacc, hsid⟩, n, hn, hone⟩ := hrun
  have hstep : step Crypto.plain n₀ (Sample.rxData 1002 0 (Sample.packet 5)) = some n := hn
  have honly : OpensOnlyUnder Crypto.plain n (Sample.datagram 0 (Sample.packet 5))
      ((n₀.peer Sample.first).keypair .next).sid := by
    intro x s hvalid hne
    refine absurd ?_ hne
    rw [hsid]
    cases s with
    | curr => exact (hone x).1 hvalid
    | prev => exact (hone x).2.1 hvalid
    | next => exact (hone x).2.2 hvalid
  obtain ⟨n', hn', hall⟩ := (datagram_frame Crypto.plain (Sample.env 1003) (h₀.step hstep)
    (Sample.datagram 0 (Sample.packet 5)) (Sample.address 8 8 8 8) 4321).2.2 (Sample.env 1002) n₀ n
    (Sample.address 9 9 9 9) 1234 Sample.first .next [] h₀ hacc hn .nil honly
  exact ⟨n₀, n, n', hacc, hn, hn', hall⟩

end NuttxWireguard.Flat
