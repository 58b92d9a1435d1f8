/-
What each function of the port adds to the log.

`Adds Q` says that a function only ever adds entries that satisfy `Q`.  One lemma for each
function asks for the kinds of entry it can add; what a step cannot have done is then read
off the log.
-/
import NuttxWireguard.Flat.Steps
import NuttxWireguard.Carried

namespace NuttxWireguard.Flat

open Lib

variable {cfg : Config} (c : Crypto) (env : Env cfg)

/-- The log of `m` is that of `n` with entries that satisfy `Q` added. -/
def Adds (Q : Obs cfg.maxPeers → Prop) (n m : Netdev cfg) : Prop :=
  ∃ new, m.log = new ++ n.log ∧ ∀ o ∈ new, Q o

namespace Adds

variable {Q : Obs cfg.maxPeers → Prop} {n m k : Netdev cfg}

theorem of_log_eq (h : m.log = n.log) : Adds Q n m := ⟨[], h, by simp⟩

theorem refl (n : Netdev cfg) : Adds Q n n := of_log_eq rfl

theorem trans (h : Adds Q n m) (h' : Adds Q m k) : Adds Q n k := by
  obtain ⟨new, hm, hnew⟩ := h
  obtain ⟨new', hk, hnew'⟩ := h'
  refine ⟨new' ++ new, by rw [hk, hm, List.append_assoc], fun o ho => ?_⟩
  rcases List.mem_append.mp ho with ho | ho
  · exact hnew' o ho
  · exact hnew o ho

theorem one {o : Obs cfg.maxPeers} (h : m.log = o :: n.log) (ho : Q o) : Adds Q n m :=
  ⟨[o], h, fun o' ho' => by rw [List.mem_singleton.mp ho']; exact ho⟩

/-- From a state with the same log. -/
theorem from_same (h : Adds Q m k) (hlog : m.log = n.log) : Adds Q n k :=
  (of_log_eq hlog).trans h

/-- An entry that does not satisfy `Q` was there before. -/
theorem mem (h : Adds Q n m) {o : Obs cfg.maxPeers} (ho : o ∈ m.log) (hnot : ¬Q o) :
    o ∈ n.log := by
  obtain ⟨new, hm, hnew⟩ := h
  rw [hm] at ho
  rcases List.mem_append.mp ho with ho | ho
  · exact absurd (hnew o ho) hnot
  · exact ho

/-- Every entry was there before or satisfies `Q`. -/
theorem mem_or (h : Adds Q n m) {o : Obs cfg.maxPeers} (ho : o ∈ m.log) : Q o ∨ o ∈ n.log := by
  by_cases hQ : Q o
  · exact Or.inl hQ
  · exact Or.inr (h.mem ho hQ)

end Adds

/-! ### One lemma for each function -/

section Functions

variable {Q : Obs cfg.maxPeers → Prop}

/-- Packets encrypted at this step satisfy `Q`. -/
abbrev AllowsPackets (Q : Obs cfg.maxPeers → Prop) (time : Nat) : Prop :=
  ∀ y sid initiator key counter, Q (.encrypted y sid initiator key counter time)

theorem wgEncryptAndSend_adds (hpacket : AllowsPackets Q env.time) (n : Netdev cfg)
    (x : Fin cfg.maxPeers) (plaintext : List Byte) :
    Adds Q n (wgEncryptAndSend c env n x plaintext).1 := by
  rcases wgEncryptAndSend_cases c env n x plaintext with h | ⟨-, -, h⟩ | ⟨-, -, p, tx, -, h⟩
  · rw [h]
    exact .refl n
  · rw [h]
    exact .of_log_eq rfl
  · rw [h]
    exact .one rfl (hpacket _ _ _ _ _)

theorem wgStartHandshake_adds {n n' : Netdev cfg} {x : Fin cfg.maxPeers}
    (hinitiation : ∀ ip port, Q (.initiation x ip port env.time))
    (h : wgStartHandshake c env n x = some n') : Adds Q n n' := by
  rcases wgStartHandshake_view c env h with hv | hv
  · exact .of_log_eq (congrArg View.log hv)
  · exact .one (congrArg View.log hv) (hinitiation _ _)

theorem startSession_adds {n : Netdev cfg} {x : Fin cfg.maxPeers} {initiator : Bool}
    (hstart : ∀ sid key, Q (.started x sid initiator key env.time)) :
    Adds Q n (startSession c env n x initiator) :=
  .one rfl (hstart _ _)

theorem wgSendHandshakeResponse_adds {n n' : Netdev cfg} {x : Fin cfg.maxPeers}
    (hstart : ∀ sid key, Q (.started x sid false key env.time))
    (h : wgSendHandshakeResponse c env n x = some n') : Adds Q n n' := by
  unfold wgSendHandshakeResponse at h
  split at h
  · cases h
  · cases h
    exact .of_log_eq rfl
  · cases h
    exact .one rfl (hstart _ _)

theorem wgProcessInner_adds (hpacket : AllowsPackets Q env.time)
    (hinject : ∀ y packet, Q (.injected y packet)) (n : Netdev cfg) (x : Fin cfg.maxPeers)
    (dataLen : Nat) : Adds Q n (wgProcessInner c env n x dataLen) := by
  have hdeliver : ∀ plaintext, Adds Q n (wgInjectPlaintext c env n x plaintext) := by
    intro plaintext
    rcases wgInjectPlaintext_cases c env n x plaintext with h | ⟨b, h | ⟨y, reply, h⟩⟩
    · rw [h]
      exact .refl n
    · rw [h]
      exact .one rfl (hinject x plaintext)
    · rw [h]
      exact (Adds.one rfl (hinject x plaintext)).trans
        (wgEncryptAndSend_adds c env hpacket { n.observe (.injected x plaintext) with plainbuf := b }
          y reply)
  unfold wgProcessInner
  dsimp only
  split
  · split
    · split
      · exact hdeliver _
      · exact .refl n
    · exact .refl n
  · exact .refl n

/-- What a transport datagram adds, if it adds anything: the verdict on it, then what comes
of its packet. -/
theorem wgProcessDataMessage_adds (hpacket : AllowsPackets Q env.time)
    (hinject : ∀ y packet, Q (.injected y packet)) (n : Netdev cfg) (x : Fin cfg.maxPeers)
    (data : List Byte) (addr : U32) (port : U16)
    (hopen : ∀ s, keypairByIndex (n.peer x) (dataReceiver data) = some s →
      receivingExhausted env.now ((n.peer x).keypair s) = false → ∀ fresh,
      Q (.opened x ((n.peer x).keypair s).sid (dataCounter data) fresh env.time)) :
    Adds Q n (wgProcessDataMessage c env n x data addr port) := by
  rcases wgProcessDataMessage_cases c env n x data addr port with
    ⟨b, h⟩ | ⟨s, hs, ⟨-, h⟩ | ⟨hlimit, -, plain, -, ⟨-, h⟩ | ⟨-, h⟩⟩⟩
  · rw [h]
    exact .of_log_eq rfl
  · rw [h]
    exact .of_log_eq rfl
  · rw [h]
    exact .one rfl (hopen s hs hlimit false)
  · rw [h]
    exact (Adds.one rfl (hopen s hs hlimit true)).trans
      (wgProcessInner_adds c env hpacket hinject _ x _)

theorem responseAccepted_adds (hpacket : AllowsPackets Q env.time) {n : Netdev cfg}
    {x : Fin cfg.maxPeers} {p : Peer cfg} (addr : U32) (port : U16)
    (hresponse : Q (.responseAccepted x))
    (hstart : ∀ sid key, Q (.started x sid true key env.time)) :
    Adds Q n (responseAccepted c env n x p addr port) := by
  have haccepted : Adds Q n ((n.observe (.responseAccepted x)).setPeer x
      { p with ip := addr, port := port }) := .one rfl hresponse
  exact (haccepted.trans (startSession_adds c env hstart)).trans
    (wgEncryptAndSend_adds c env hpacket _ x [])

theorem wgRunTimersPeer_adds (hpacket : AllowsPackets Q env.time) {n n' : Netdev cfg}
    {x : Fin cfg.maxPeers}
    (hinitiation : (n.peer x).valid = true → ∀ ip port, Q (.initiation x ip port env.time))
    (h : wgRunTimersPeer c env n x = some n') : Adds Q n n' := by
  unfold wgRunTimersPeer at h
  split at h
  · cases h
    exact .refl n
  · rename_i hvalid
    dsimp only at h
    have hexpire : Adds Q n (n.setPeer x (wgExpirePeer env.now (n.peer x))) := .of_log_eq rfl
    generalize n.setPeer x (wgExpirePeer env.now (n.peer x)) = m at h hexpire
    have hkeep : Adds Q m
        (if keepaliveDue env.now (m.peer x) then wgSendKeepalive c env m x else m) := by
      split
      · exact wgEncryptAndSend_adds c env hpacket m x []
      · exact .refl m
    generalize (if keepaliveDue env.now (m.peer x) then wgSendKeepalive c env m x else m) = m'
      at h hkeep
    refine (hexpire.trans hkeep).trans ?_
    split at h
    · exact wgStartHandshake_adds c env (hinitiation (by simpa using hvalid)) h
    · cases h
      exact .refl _

theorem wgTxpoll_adds (hpacket : AllowsPackets Q env.time) (n : Netdev cfg) (packet : List Byte) :
    Adds Q n (wgTxpoll c env n packet) := by
  unfold wgTxpoll
  dsimp only
  split
  · split
    · exact (wgEncryptAndSend_adds c env hpacket { n with plainbuf := overwrite n.plainbuf packet }
        _ _).from_same rfl
    · exact .of_log_eq rfl
  · exact .refl n

end Functions

/-! ### Steps -/

/-- The datagram the receive task reads, if that is what happens: its time, what of it fits
the buffer, and its source. -/
def Event.received : Event cfg → Option (Env cfg × List Byte × U32 × U16)
  | .rx env data addr port => some (env, data.take wgMaxPacket, addr, port)
  | _ => none

/-- `Q` allows what traffic with the peers in `valid` adds at `time`, but for accepted
datagrams and cookies and for initiations. -/
structure Allows (Q : Obs cfg.maxPeers → Prop) (valid : Fin cfg.maxPeers → Bool) (time : Nat) :
    Prop where
  packet : AllowsPackets Q time
  inject : ∀ x packet, Q (.injected x packet)
  initAccepted : ∀ x timestamp, Q (.initAccepted x timestamp)
  responseAccepted : ∀ x, Q (.responseAccepted x)
  started : ∀ x, valid x = true → ∀ sid initiator key, Q (.started x sid initiator key time)

variable {Q : Obs cfg.maxPeers → Prop} {valid : Fin cfg.maxPeers → Bool}

/-- What a datagram adds. -/
theorem wgProcessUdpPacket_adds (hQ : Allows Q valid env.time) {n n' : Netdev cfg}
    (hvalid : ∀ x, (n.peer x).valid = valid x) {data : List Byte} {addr : U32} {port : U16}
    (hopen : ∀ x s, messageType data = messageTransportData →
      peerByReceiver n.wg (dataReceiver data) = some x →
      keypairByIndex (n.peer x) (dataReceiver data) = some s →
      receivingExhausted env.now ((n.peer x).keypair s) = false → ∀ fresh,
      Q (.opened x ((n.peer x).keypair s).sid (dataCounter data) fresh env.time))
    (hcookie : ∀ x p, messageType data = messageCookieReply →
      peerByHandshake n.wg (MsgCookie.parse data).receiver = some x →
      processCookie c env.now (n.peer x) (MsgCookie.parse data) = some p →
      Q (.cookieAccepted x) ∧ ∀ ip port, Q (.initiation x ip port env.time))
    (h : wgProcessUdpPacket c env n data addr port = some n') : Adds Q n n' := by
  rcases wgProcessUdpPacket_cases c env n data addr port with
    ⟨m, hq, hr⟩ | ⟨m, o, hq, -, hopens, -, -, hr⟩ | ⟨-, -, x, p, hx, -, hr⟩ |
      ⟨htype, x, p, hx, hp, hr⟩ | ⟨htype, x, hx, hr⟩
  · cases hr.symm.trans h
    exact .of_log_eq hq.log
  · have hpeer : valid o.peer = true := (hvalid o.peer).symm.trans (openInit_valid hopens)
    have haccepted : Adds Q n (initiationAccepted env m (MsgInit.parse data) o addr port) :=
      .one (congrArg (Obs.initAccepted o.peer o.timestamp :: ·) hq.log)
        (hQ.initAccepted o.peer o.timestamp)
    exact haccepted.trans
      (wgSendHandshakeResponse_adds c env (fun sid key => hQ.started _ hpeer sid _ key)
        (hr.symm.trans h))
  · cases hr.symm.trans h
    have hpeer : valid x = true := (hvalid x).symm.trans (valid_of_peerByHandshake hx)
    exact responseAccepted_adds c env hQ.packet addr port (hQ.responseAccepted x)
      fun sid key => hQ.started x hpeer sid _ key
  · obtain ⟨hone, hretry⟩ := hcookie x p htype hx hp
    have haccepted : Adds Q n ((n.observe (.cookieAccepted x)).setPeer x p) := .one rfl hone
    exact haccepted.trans (wgStartHandshake_adds c env hretry (hr.symm.trans h))
  · cases hr.symm.trans h
    exact wgProcessDataMessage_adds c env hQ.packet hQ.inject n x data addr port
      fun s => hopen x s htype hx

end NuttxWireguard.Flat
