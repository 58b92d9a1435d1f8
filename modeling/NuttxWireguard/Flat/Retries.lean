/-
How often the port starts a handshake.

The timers start one only `REKEY_TIMEOUT` after the last.  A cookie reply is answered with
a retry at once, and no clock is looked at: the retry has a mac1 of its own, which the next
cookie reply may answer.

So initiations keep their distance as long as no cookie reply answers a retry too soon
(`initiations_limited`).  Which initiation was a retry is told by the step that sent it: the
timers send those on schedule, and a datagram causes the others.
-/
import NuttxWireguard.Ages
import NuttxWireguard.Roles
import NuttxWireguard.Flat.Frame
import NuttxWireguard.Flat.Logged
import NuttxWireguard.Lib.Spacing

namespace NuttxWireguard.Flat

open Lib

variable {cfg : Config} (c : Crypto) (env : Env cfg)

/-- `REKEY_TIMEOUT` in milliseconds. -/
def rekeyTimeoutMillis : Nat := 5000

/-! ### The initiations in the log -/

/-- When an initiation was sent to `x`. -/
def initiationAt {n : Nat} (x : Fin n) : Obs n → Option Nat
  | .initiation y _ _ time => if y = x then some time else none
  | _ => none

/-- When all of them were, newest first. -/
def initiationTimes {n : Nat} (x : Fin n) (log : List (Obs n)) : List Nat :=
  log.filterMap (initiationAt x)

/-- Five seconds by a clock that reads one instead of zero. -/
def EarlyAt (time last : Nat) : Prop := time % 2 ^ 32 = 0 ∧ time = last + 4999

instance (time last : Nat) : Decidable (EarlyAt time last) := inferInstanceAs (Decidable (_ ∧ _))

/-- What the clock takes for five seconds are five seconds, but for one millisecond. -/
theorem le_of_expired_rekeyTimeout {time last : Nat} (hle : last ≤ time) (hearly : ¬EarlyAt time last)
    (h : expired (sysNow time) (sysNow last) rekeyTimeout = true) :
    last + rekeyTimeoutMillis ≤ time := by
  unfold expired at h
  have hdiff : (rekeyTimeout * 1000).toNat ≤ (sysNow time - sysNow last).toNat := of_decide_eq_true h
  have hmillis : (rekeyTimeout * 1000).toNat = 5000 := by decide
  rw [hmillis, BitVec.toNat_sub, sysNow_toNat, sysNow_toNat] at hdiff
  unfold EarlyAt rekeyTimeoutMillis at *
  split at hdiff <;> split at hdiff <;> omega

/-! ### What leaves a peer's stamps -/

/-- No initiation was sent and no cookie stored. -/
structure Rests (p q : Peer cfg) : Prop where
  tx : q.lastInitiationTx = p.lastInitiationTx
  cookie : q.cookieMillis = p.cookieMillis

theorem Rests.trans {p q r : Peer cfg} (h : Rests p q) (h' : Rests q r) : Rests p r :=
  ⟨h'.tx.trans h.tx, h'.cookie.trans h.cookie⟩

/-- Nor was the cookie written, or what configuration decides. -/
structure Kept (p q : Peer cfg) : Prop extends Rests p q where
  stored : q.cookie = p.cookie
  setup : q.setup = p.setup

namespace Kept

variable {p q r : Peer cfg}

theorem refl (p : Peer cfg) : Kept p p := ⟨⟨rfl, rfl⟩, rfl, rfl⟩

theorem trans (h : Kept p q) (h' : Kept q r) : Kept p r :=
  ⟨h.toRests.trans h'.toRests, h'.stored.trans h.stored, h'.setup.trans h.setup⟩

theorem setKeypair (p : Peer cfg) (s : Slot) (kp : Keypair cfg) : Kept p (p.setKeypair s kp) := by
  cases s <;> exact ⟨⟨rfl, rfl⟩, rfl, rfl⟩

theorem keypairDestroy (p : Peer cfg) (s : Slot) : Kept p (keypairDestroy p s) :=
  setKeypair p s _

theorem keypairUpdate (p : Peer cfg) (s : Slot) : Kept p (keypairUpdate p s) := by
  unfold NuttxWireguard.keypairUpdate
  split
  · exact ⟨⟨rfl, rfl⟩, rfl, rfl⟩
  · exact refl p

theorem addKeypair (p : Peer cfg) (kp : Keypair cfg) : Kept p (addKeypair p kp) := by
  unfold NuttxWireguard.addKeypair
  dsimp only
  split
  · split <;> exact ⟨⟨rfl, rfl⟩, rfl, rfl⟩
  · exact ⟨⟨rfl, rfl⟩, rfl, rfl⟩

theorem acceptPacket (now : U32) (p : Peer cfg) (s : Slot) (kp : Keypair cfg) (addr : U32)
    (port : U16) (dataLen : Nat) : Kept p (acceptPacket now p s kp addr port dataLen) := by
  have hsend : ∀ (b : Prop) [Decidable b] (q : Peer cfg),
      Kept q (if b then { q with sendHandshake := true } else q) := by
    intro b _ q
    split
    · exact ⟨⟨rfl, rfl⟩, rfl, rfl⟩
    · exact refl q
  have hset : Kept p (p.setKeypair s { kp with lastRx := now }) := setKeypair p s _
  have hwrite : ∀ q : Peer cfg, Kept q
      { q with ip := addr, port := port, lastRx := now, rxBytes := p.rxBytes + BitVec.ofNat 64 dataLen } :=
    fun _ => ⟨⟨rfl, rfl⟩, rfl, rfl⟩
  unfold NuttxWireguard.acceptPacket
  exact ((hset.trans (hwrite _)).trans (keypairUpdate _ s)).trans (hsend _ _)

theorem wgForgetPeer (p : Peer cfg) : Kept p (wgForgetPeer p) := by
  have hdestroy := ((keypairDestroy p .next).trans (keypairDestroy _ .curr)).trans
    (keypairDestroy _ .prev)
  exact hdestroy.trans ⟨⟨rfl, rfl⟩, rfl, rfl⟩

theorem wgExpirePeer (now : U32) (p : Peer cfg) : Kept p (wgExpirePeer now p) := by
  unfold NuttxWireguard.wgExpirePeer
  dsimp only
  have hfirst : Kept p (if p.currKeypair.valid ∧
      expired now p.currKeypair.keypairMillis (rejectAfterTime * 3) then
        NuttxWireguard.wgForgetPeer p else p) := by
    split
    · exact wgForgetPeer p
    · exact refl p
  generalize (if p.currKeypair.valid ∧
    expired now p.currKeypair.keypairMillis (rejectAfterTime * 3) then
      NuttxWireguard.wgForgetPeer p else p) = q at hfirst
  split
  · exact hfirst.trans (keypairDestroy q .curr)
  · exact hfirst

theorem processResponse {d : Device cfg} {msg : MsgResponse}
    (h : processResponse c d p msg = some q) : Kept p q := by
  unfold NuttxWireguard.processResponse at h
  dsimp only at h
  split at h
  · cases h
  · simp only [Option.bind_eq_bind, Option.bind_eq_some_iff] at h
    obtain ⟨_, -, _, -, _, -, h⟩ := h
    cases h
    exact ⟨⟨rfl, rfl⟩, rfl, rfl⟩

end Kept

/-- No initiation was sent to `x`. -/
structure WaitsAt (x : Fin cfg.maxPeers) (n m : Netdev cfg) : Prop where
  tx : (m.peer x).lastInitiationTx = (n.peer x).lastInitiationTx
  times : initiationTimes x m.log = initiationTimes x n.log

/-- An initiation was sent to `x`. -/
structure CallsAt (x : Fin cfg.maxPeers) (time : Nat) (n m : Netdev cfg) : Prop where
  tx : (m.peer x).lastInitiationTx = sysNow time
  cookie : (m.peer x).cookieMillis = (n.peer x).cookieMillis
  times : initiationTimes x m.log = time :: initiationTimes x n.log

/-- What the device checks MACs and seals cookies with, and whom for. -/
structure Labels where
  publicKey : Key
  labelMac1Key : Key
  labelCookieKey : Key

def Netdev.labels (n : Netdev cfg) : Labels :=
  ⟨n.wg.publicKey, n.wg.labelMac1Key, n.wg.labelCookieKey⟩

/-- Nothing was sent to `x`, and its cookie, its setup and the labels are what they were. -/
structure KeptAt (x : Fin cfg.maxPeers) (n m : Netdev cfg) : Prop where
  kept : Kept (n.peer x) (m.peer x)
  times : initiationTimes x m.log = initiationTimes x n.log
  labels : m.labels = n.labels

/-- An initiation was sent to `x`, and all that is what it was. -/
structure Called (x : Fin cfg.maxPeers) (time : Nat) (n m : Netdev cfg) : Prop
    extends CallsAt x time n m where
  stored : (m.peer x).cookie = (n.peer x).cookie
  setup : (m.peer x).setup = (n.peer x).setup
  labels : m.labels = n.labels

theorem WaitsAt.refl {x : Fin cfg.maxPeers} (n : Netdev cfg) : WaitsAt x n n := ⟨rfl, rfl⟩

theorem WaitsAt.trans {x : Fin cfg.maxPeers} {n m k : Netdev cfg} (h : WaitsAt x n m)
    (h' : WaitsAt x m k) : WaitsAt x n k :=
  ⟨h'.tx.trans h.tx, h'.times.trans h.times⟩

namespace KeptAt

variable {x : Fin cfg.maxPeers} {n m k : Netdev cfg}

theorem waits (h : KeptAt x n m) : WaitsAt x n m := ⟨h.kept.tx, h.times⟩

theorem refl (n : Netdev cfg) : KeptAt x n n := ⟨.refl _, rfl, rfl⟩

theorem trans (h : KeptAt x n m) (h' : KeptAt x m k) : KeptAt x n k :=
  ⟨h.kept.trans h'.kept, h'.times.trans h.times, h'.labels.trans h.labels⟩

theorem setPeer (n : Netdev cfg) {y : Fin cfg.maxPeers} {p : Peer cfg} (h : Kept (n.peer y) p) :
    KeptAt x n (n.setPeer y p) := by
  refine ⟨?_, rfl, rfl⟩
  by_cases hy : x = y
  · subst hy
    rw [setPeer_peer_self]
    exact h
  · rw [setPeer_peer_of_ne n y p hy]
    exact .refl _

/-- Peers, log and labels are the same. -/
theorem of_same (hpeers : m.wg.peers = n.wg.peers) (hlog : m.log = n.log)
    (hlabels : m.labels = n.labels) : KeptAt x n m := by
  refine ⟨?_, by rw [hlog], hlabels⟩
  unfold Netdev.peer
  rw [hpeers]
  exact .refl _

/-- From a state with the same peers, log and labels. -/
theorem from_same (h : KeptAt x m k) (hpeers : m.wg.peers = n.wg.peers) (hlog : m.log = n.log)
    (hlabels : m.labels = n.labels) : KeptAt x n k :=
  (of_same hpeers hlog hlabels).trans h

theorem of_silent (h : Silent n m) : KeptAt x n m := by
  refine of_same h.peers h.log ?_
  unfold Netdev.labels
  rw [h.publicKey, h.labelMac1Key, h.labelCookieKey]

theorem observe (n : Netdev cfg) {o : Obs cfg.maxPeers} (h : initiationAt x o = none) :
    KeptAt x n (n.observe o) :=
  ⟨.refl _, List.filterMap_cons_none h, rfl⟩

/-- Something was sent, and a record written. -/
theorem sent (n : Netdev cfg) {o : Obs cfg.maxPeers} (h : initiationAt x o = none)
    (data : List Byte) (ip : U32) (port : U16) {y : Fin cfg.maxPeers} {p : Peer cfg}
    (hp : Kept (n.peer y) p) :
    KeptAt x n ((psockSendto env (n.observe o) data ip port).1.setPeer y p) := by
  have hseen : KeptAt x n (psockSendto env (n.observe o) data ip port).1 :=
    (observe n h).trans (.of_same rfl rfl rfl)
  exact hseen.trans (setPeer _ hp)

theorem calls {time : Nat} (h : KeptAt x n m) (h' : Called x time m k) : Called x time n k :=
  ⟨⟨h'.tx, h'.cookie.trans h.kept.cookie, by rw [h'.times, h.times]⟩,
    h'.stored.trans h.kept.stored, h'.setup.trans h.kept.setup, h'.labels.trans h.labels⟩

end KeptAt

theorem Called.kept {x : Fin cfg.maxPeers} {time : Nat} {n m k : Netdev cfg}
    (h : Called x time n m) (h' : KeptAt x m k) : Called x time n k :=
  ⟨⟨h'.kept.tx.trans h.tx, h'.kept.cookie.trans h.cookie, h'.times.trans h.times⟩,
    h'.kept.stored.trans h.stored, h'.kept.setup.trans h.setup, h'.labels.trans h.labels⟩

/-! ### One lemma for each function -/

section Functions

variable {x : Fin cfg.maxPeers}

theorem wgEncryptAndSend_kept (n : Netdev cfg) (y : Fin cfg.maxPeers) (plaintext : List Byte) :
    KeptAt x n (wgEncryptAndSend c env n y plaintext).1 := by
  have hsend : ∀ (b : Bool) (q : Peer cfg),
      Kept q (if b then { q with sendHandshake := true } else q) := by
    intro b q
    cases b
    · exact .refl q
    · exact ⟨⟨rfl, rfl⟩, rfl, rfl⟩
  unfold wgEncryptAndSend
  dsimp only [encryptPacket]
  generalize sendingSlot (n.peer y).keypair = s
  split
  · exact .refl n
  split
  · exact .setPeer n (.keypairDestroy _ s)
  split
  · exact .refl n
  · refine .sent env n rfl _ _ _ ?_
    refine Kept.trans ?_ (hsend _ _)
    split
    · rw [Peer.setKeypair_setKeypair]
      exact (Kept.setKeypair (n.peer y) s _).trans ⟨⟨rfl, rfl⟩, rfl, rfl⟩
    · exact .setKeypair (n.peer y) s _

theorem startSession_kept (n : Netdev cfg) (y : Fin cfg.maxPeers) (initiator : Bool) :
    KeptAt x n (startSession c env n y initiator) := by
  have hstart : Kept (n.peer y)
      (wireguardStartSession c env.now n.nextSid env.time (n.peer y) initiator) := by
    unfold wireguardStartSession
    refine Kept.trans ?_ (.addKeypair _ _)
    exact ⟨⟨rfl, rfl⟩, rfl, rfl⟩
  exact ⟨(KeptAt.setPeer n hstart).kept, List.filterMap_cons_none rfl, rfl⟩

/-- A handshake record was written. -/
theorem setHandshake_kept (n : Netdev cfg) (y : Fin cfg.maxPeers) (hs : Handshake) :
    KeptAt x n { n with wg := n.wg.setPeer y { n.wg.peers y with handshake := hs } } :=
  .setPeer n ⟨⟨rfl, rfl⟩, rfl, rfl⟩

theorem wgSendHandshakeResponse_kept {n n' : Netdev cfg} {y : Fin cfg.maxPeers}
    (h : wgSendHandshakeResponse c env n y = some n') : KeptAt x n n' := by
  unfold wgSendHandshakeResponse at h
  split at h
  · cases h
  · rename_i wg hcreate
    obtain ⟨hs, rfl⟩ := createResponse_device c env hcreate
    cases h
    exact setHandshake_kept n y hs
  · rename_i wg msg hcreate
    obtain ⟨hs, rfl⟩ := createResponse_device c env hcreate
    cases h
    exact (setHandshake_kept n y hs).trans ((startSession_kept c env _ y false).trans
      (.of_same rfl rfl rfl))

/-- Starting a handshake sends one initiation or none. -/
theorem wgStartHandshake_calls {n n' : Netdev cfg} {y : Fin cfg.maxPeers}
    (h : wgStartHandshake c env n y = some n') :
    KeptAt x n n' ∨ x = y ∧ Called x env.time n n' := by
  unfold wgStartHandshake at h
  split at h
  · cases h
  · rename_i wg hcreate
    obtain ⟨hs, rfl⟩ := createInitiation_device c env hcreate
    cases h
    exact Or.inl (setHandshake_kept n y hs)
  · rename_i wg msg hcreate
    obtain ⟨hs, rfl⟩ := createInitiation_device c env hcreate
    cases h
    have hrecord := setHandshake_kept (x := x) n y hs
    generalize { n with wg := n.wg.setPeer y { n.wg.peers y with handshake := hs } } = m at hrecord ⊢
    by_cases hx : x = y
    · subst hx
      refine Or.inr ⟨rfl, hrecord.calls ⟨⟨?_, ?_, ?_⟩, ?_, ?_, rfl⟩⟩
      · rw [setPeer_peer_self]
        rfl
      · rw [setPeer_peer_self]
      · exact List.filterMap_cons_some (if_pos rfl)
      · rw [setPeer_peer_self]
      · rw [setPeer_peer_self]
        rfl
    · refine Or.inl (hrecord.trans ⟨?_, List.filterMap_cons_none (if_neg (Ne.symm hx)), rfl⟩)
      rw [setPeer_peer_of_ne _ y _ hx]
      exact .refl _

theorem wgInjectPlaintext_kept (n : Netdev cfg) (y : Fin cfg.maxPeers) (plaintext : List Byte) :
    KeptAt x n (wgInjectPlaintext c env n y plaintext) := by
  have hinject : ∀ b, KeptAt x n { n.observe (.injected y plaintext) with plainbuf := b } :=
    fun b => (KeptAt.observe n rfl).trans (.of_same rfl rfl rfl)
  rcases wgInjectPlaintext_cases c env n y plaintext with h | ⟨b, h | ⟨z, reply, h⟩⟩
  · rw [h]
    exact .refl n
  · rw [h]
    exact hinject b
  · rw [h]
    exact (hinject b).trans (wgEncryptAndSend_kept c env _ z reply)

theorem wgProcessInner_kept (n : Netdev cfg) (y : Fin cfg.maxPeers) (dataLen : Nat) :
    KeptAt x n (wgProcessInner c env n y dataLen) := by
  unfold wgProcessInner
  dsimp only
  split
  · split
    · split
      · exact wgInjectPlaintext_kept c env n y _
      · exact .refl n
    · exact .refl n
  · exact .refl n

theorem wgProcessDataMessage_kept (n : Netdev cfg) (y : Fin cfg.maxPeers) (data : List Byte)
    (addr : U32) (port : U16) : KeptAt x n (wgProcessDataMessage c env n y data addr port) := by
  rcases wgProcessDataMessage_cases c env n y data addr port with
    ⟨b, h⟩ | ⟨s, -, ⟨-, h⟩ | ⟨-, -, plain, -, ⟨-, h⟩ | ⟨-, h⟩⟩⟩
  · rw [h]
    exact .of_same rfl rfl rfl
  · rw [h]
    exact .setPeer n (.keypairDestroy _ s)
  · rw [h]
    exact KeptAt.from_same (.observe _ rfl) rfl rfl rfl
  · rw [h]
    generalize hm : Netdev.setPeer _ y _ = m
    have haccepted : KeptAt x n m := by
      rw [← hm]
      have haccept : Kept (n.peer y) (acceptPacket env.now (n.peer y) s
          (Kernel.wgCheckReplay ((n.peer y).keypair s) (dataCounter data)).2 addr port
          (data.length - 16)) := .acceptPacket env.now _ s _ addr port _
      exact KeptAt.from_same (KeptAt.trans (.observe _ rfl) (.setPeer _ haccept)) rfl rfl rfl
    exact haccepted.trans (wgProcessInner_kept c env m y _)

theorem initiationAccepted_kept (m : Netdev cfg) (msg : MsgInit) (o : OpenedInit cfg) (addr : U32)
    (port : U16) : KeptAt x m (initiationAccepted env m msg o addr port) :=
  (KeptAt.observe m rfl).trans (.setPeer _ ⟨⟨rfl, rfl⟩, rfl, rfl⟩)

theorem responseAccepted_kept {n : Netdev cfg} {y : Fin cfg.maxPeers} {p : Peer cfg}
    (hp : Kept (n.peer y) p) (addr : U32) (port : U16) :
    KeptAt x n (responseAccepted c env n y p addr port) := by
  have hanswered : KeptAt x n
      ((n.observe (.responseAccepted y)).setPeer y { p with ip := addr, port := port }) :=
    (KeptAt.observe n rfl).trans (.setPeer _ (hp.trans ⟨⟨rfl, rfl⟩, rfl, rfl⟩))
  exact (hanswered.trans (startSession_kept c env _ y true)).trans
    (wgEncryptAndSend_kept c env _ y [])

/-- Storing a cookie sends nothing. -/
theorem processCookie_waits {n : Netdev cfg} {p : Peer cfg} {msg : MsgCookie}
    (hp : processCookie c env.now (n.peer x) msg = some p) :
    WaitsAt x n ((n.observe (.cookieAccepted x)).setPeer x p) := by
  have htx : p.lastInitiationTx = (n.peer x).lastInitiationTx := by
    unfold processCookie at hp
    split at hp
    · cases hp
    · split at hp
      · cases hp
      · cases hp
        rfl
  refine ⟨?_, List.filterMap_cons_none rfl⟩
  rw [setPeer_peer_self]
  exact htx

/-- **What a datagram does to the stamps of `x`.** -/
theorem wgProcessUdpPacket_calls {n n' : Netdev cfg} {data : List Byte} {addr : U32} {port : U16}
    (h : wgProcessUdpPacket c env n data addr port = some n') :
    KeptAt x n n' ∨ CookieAccepted c n data x ∧ ∃ p,
      processCookie c env.now (n.peer x) (MsgCookie.parse data) = some p ∧
        (KeptAt x ((n.observe (.cookieAccepted x)).setPeer x p) n' ∨
          Called x env.time ((n.observe (.cookieAccepted x)).setPeer x p) n') := by
  rcases wgProcessUdpPacket_cases c env n data addr port with
    ⟨m, hq, hr⟩ | ⟨m, o, hq, -, -, -, -, hr⟩ | ⟨-, -, y, p, -, hp, hr⟩ |
      ⟨htype, y, p, hy, hp, hr⟩ | ⟨-, y, -, hr⟩
  · cases hr.symm.trans h
    exact Or.inl (.of_silent hq)
  · exact Or.inl ((KeptAt.of_silent hq).trans ((initiationAccepted_kept env m _ o addr
      port).trans (wgSendHandshakeResponse_kept c env (hr.symm.trans h))))
  · cases hr.symm.trans h
    exact Or.inl (responseAccepted_kept c env (.processResponse c hp) addr port)
  · by_cases hx : x = y
    · subst hx
      obtain ⟨hawaited, hopens⟩ := processCookie_some c hp
      refine Or.inr ⟨⟨htype, hy, hawaited, hopens⟩, p, hp, ?_⟩
      rcases wgStartHandshake_calls c env (hr.symm.trans h) with hrests | ⟨-, hcalls⟩
      · exact Or.inl hrests
      · exact Or.inr hcalls
    · have hstored : KeptAt x n ((n.observe (.cookieAccepted y)).setPeer y p) := by
        refine (KeptAt.observe n rfl).trans ⟨?_, rfl, rfl⟩
        rw [setPeer_peer_of_ne _ y p hx]
        exact .refl _
      rcases wgStartHandshake_calls (x := x) c env (hr.symm.trans h) with hrests | ⟨heq, -⟩
      · exact Or.inl (hstored.trans hrests)
      · exact absurd heq hx
  · cases hr.symm.trans h
    exact Or.inl (wgProcessDataMessage_kept c env n y data addr port)

/-- One turn of the loop sends at most one initiation, and only when it is due. -/
theorem wgRunTimersPeer_calls {n n' : Netdev cfg} {y : Fin cfg.maxPeers}
    (h : wgRunTimersPeer c env n y = some n') :
    KeptAt x n n' ∨ x = y ∧ Called x env.time n n' ∧ ((n.peer x).lastInitiationTx = 0 ∨
      expired env.now (n.peer x).lastInitiationTx rekeyTimeout = true) := by
  unfold wgRunTimersPeer at h
  split at h
  · cases h
    exact Or.inl (.refl n)
  · dsimp only at h
    have hexpire : KeptAt x n (n.setPeer y (wgExpirePeer env.now (n.peer y))) :=
      .setPeer n (.wgExpirePeer env.now _)
    generalize n.setPeer y (wgExpirePeer env.now (n.peer y)) = m at h hexpire
    have hkeep : KeptAt x m
        (if keepaliveDue env.now (m.peer y) then wgSendKeepalive c env m y else m) := by
      split
      · exact wgEncryptAndSend_kept c env m y []
      · exact .refl m
    generalize (if keepaliveDue env.now (m.peer y) then wgSendKeepalive c env m y else m) = m'
      at h hkeep
    have hbefore := hexpire.trans hkeep
    split at h
    · rename_i hdue
      rcases wgStartHandshake_calls (x := x) c env h with hrests | ⟨rfl, hcalls⟩
      · exact Or.inl (hbefore.trans hrests)
      · refine Or.inr ⟨rfl, hbefore.calls hcalls, ?_⟩
        unfold shouldInitiate at hdue
        simp only [Bool.and_eq_true, Bool.or_eq_true, decide_eq_true_eq] at hdue
        rw [← hbefore.kept.tx]
        exact hdue.1
    · cases h
      exact Or.inl hbefore

theorem wgTxpoll_kept (n : Netdev cfg) (packet : List Byte) :
    KeptAt x n (wgTxpoll c env n packet) := by
  unfold wgTxpoll
  dsimp only
  split
  · split
    · exact KeptAt.from_same (wgEncryptAndSend_kept c env _ _ _) rfl rfl rfl
    · exact .of_same rfl rfl rfl
  · exact .refl n

theorem wgIfup_kept (n : Netdev cfg) : KeptAt x n (wgIfup n) := by
  refine ⟨?_, rfl, rfl⟩
  show Kept (n.peer x) (wgIfupPeer (n.peer x))
  unfold wgIfupPeer
  split
  · exact ⟨⟨rfl, rfl⟩, rfl, rfl⟩
  · exact .refl _

theorem wgIfdown_kept (n : Netdev cfg) : KeptAt x n (wgIfdown n) := by
  refine ⟨?_, rfl, rfl⟩
  show Kept (n.peer x) (wgIfdownPeer (n.peer x))
  unfold wgIfdownPeer
  split
  · exact .refl _
  · exact ⟨⟨rfl, rfl⟩, rfl, rfl⟩

end Functions

/-! ### Steps -/

/-- The initiation to `x` a step sent, if it did: on schedule by the timers, or as a retry. -/
def callAt (x : Fin cfg.maxPeers) (k : Taken (Netdev cfg) (Event cfg)) : Option Call :=
  if initiationTimes x k.after.log = initiationTimes x k.before.log then none
  else
    match k.event with
    | .timers env => some ⟨env.time, false⟩
    | .rx env _ _ _ => some ⟨env.time, true⟩
    | _ => none

/-- The clock tells the age of the last initiation true. -/
def TrueFor (time : Nat) (n : Netdev cfg) (x : Fin cfg.maxPeers) : Prop :=
  ∀ last ∈ (initiationTimes x n.log).head?, ¬EarlyAt time last

/-- The initiations to `x` the steps of a run sent, in order. -/
def calls (x : Fin cfg.maxPeers) (ts : List (Taken (Netdev cfg) (Event cfg))) : List Call :=
  ts.filterMap (callAt x)

/-- The last one of them. -/
def lastCall (x : Fin cfg.maxPeers) (ts : List (Taken (Netdev cfg) (Event cfg))) : Option Call :=
  (calls x ts).getLast?

/-- Where only the timers ran, it was no retry. -/
theorem scheduled_of_timers {x : Fin cfg.maxPeers} {ts : List (Taken (Netdev cfg) (Event cfg))}
    (h : ∀ k ∈ ts, ∃ env, k.event = .timers env) : ∀ l ∈ lastCall x ts, l.retry = false := by
  intro l hl
  obtain ⟨k, hk, hcall⟩ := List.mem_filterMap.mp (List.mem_of_mem_getLast? hl)
  obtain ⟨env, he⟩ := h k hk
  unfold callAt at hcall
  split at hcall
  · cases hcall
  · rw [he] at hcall
    cases hcall
    rfl

/-- **No cookie reply answers a retry too soon**, and no handshake is due a millisecond early;
`past` are the steps before. -/
structure Unhurried (past : List (Taken (Netdev cfg) (Event cfg)))
    (k : Taken (Netdev cfg) (Event cfg)) : Prop where
  timers : ∀ env, k.event = .timers env → ∀ x, TrueFor env.time k.before x
  /-- A cookie accepted when the last initiation was a retry itself finds it `REKEY_TIMEOUT`
  old. -/
  cookies : ∀ env data addr port, k.event.received = some (env, data, addr, port) →
    ∀ x, CookieAccepted c k.before data x → ∀ l ∈ lastCall x past, l.retry = true →
    expired env.now (k.before.peer x).lastInitiationTx rekeyTimeout = true ∧
      TrueFor env.time k.before x

/-- What is known of `x` with the last initiation and the latest event. -/
structure Paced (x : Fin cfg.maxPeers) (last : Option Call) (clock : Nat) (n : Netdev cfg) :
    Prop where
  le : ∀ k ∈ last, k.time ≤ clock
  logged : ∀ k ∈ last, (initiationTimes x n.log).head? = some k.time
  tx : ∀ k ∈ last, (n.peer x).lastInitiationTx = sysNow k.time

namespace Paced

variable {x : Fin cfg.maxPeers} {last : Option Call} {clock time : Nat} {n m : Netdev cfg}

theorem waits (h : Paced x last clock n) (hle : clock ≤ time) (hwaits : WaitsAt x n m) :
    Paced x last time m where
  le := fun k hk => (h.le k hk).trans hle
  logged := fun k hk => by rw [hwaits.times]; exact h.logged k hk
  tx := fun k hk => hwaits.tx.trans (h.tx k hk)

/-- An initiation is the last one now. -/
theorem called {r : Bool} (hcalls : CallsAt x time n m) : Paced x (some ⟨time, r⟩) time m where
  le := by
    rintro k ⟨⟩
    exact Nat.le_refl _
  logged := by
    rintro k ⟨⟩
    rw [hcalls.times, List.head?_cons]
  tx := by
    rintro k ⟨⟩
    exact hcalls.tx

/-- The clock says that the last initiation is `REKEY_TIMEOUT` old. -/
theorem before_of_expired (h : Paced x last clock n) (hle : clock ≤ time) (htrue : TrueFor time n x)
    (hexp : expired (sysNow time) (n.peer x).lastInitiationTx rekeyTimeout = true) (r : Bool) :
    ∀ k ∈ last, Call.Before rekeyTimeoutMillis k ⟨time, r⟩ := by
  intro k hk
  have htime := (h.le k hk).trans hle
  rw [h.tx k hk] at hexp
  exact ⟨htime, Or.inr (le_of_expired_rekeyTimeout htime (htrue _ (h.logged k hk)) hexp)⟩

end Paced

/-- What a step does: it keeps the pace, and what it calls may follow the last call. -/
structure Keeps (x : Fin cfg.maxPeers) (last : Option Call) (clock : Nat)
    (k : Taken (Netdev cfg) (Event cfg)) : Prop where
  paced : Paced x ((callAt x k).or last) (k.event.time.getD clock) k.after
  before : ∀ l ∈ callAt x k, ∀ j ∈ last, Call.Before rekeyTimeoutMillis j l
  times : initiationTimes x k.after.log
    = ((callAt x k).map (·.time)).toList ++ initiationTimes x k.before.log

/-- A step that sends nothing to `x`. -/
theorem Keeps.of_waits {x : Fin cfg.maxPeers} {last : Option Call} {clock : Nat}
    {k : Taken (Netdev cfg) (Event cfg)} (hle : clock ≤ k.event.time.getD clock)
    (h : Paced x last clock k.before) (hwaits : WaitsAt x k.before k.after) :
    Keeps x last clock k := by
  have hnone : callAt x k = none := if_pos hwaits.times
  refine ⟨?_, ?_, ?_⟩
  · rw [hnone]
    exact h.waits hle hwaits
  · rw [hnone]
    intro l hl
    cases hl
  · rw [hnone]
    exact hwaits.times

/-- A pass of the timers. -/
theorem wgRunTimers_calls {n n' : Netdev cfg} (h : wgRunTimers c env n = some n')
    (x : Fin cfg.maxPeers) : KeptAt x n n' ∨ Called x env.time n n' ∧
      ((n.peer x).lastInitiationTx = 0 ∨
        expired env.now (n.peer x).lastInitiationTx rekeyTimeout = true) := by
  have hother : ∀ (y z : Fin cfg.maxPeers) (a b : Netdev cfg), y ≠ z →
      wgRunTimersPeer c env a z = some b → KeptAt y a b := by
    intro y z a b hne hs
    rcases wgRunTimersPeer_calls (x := y) c env hs with hrests | ⟨heq, -⟩
    · exact hrests
    · exact absurd heq hne
  exact foldlM_settles (Q := fun y m => KeptAt y n m)
    (P := fun y m => KeptAt y n m ∨ Called y env.time n m ∧
      ((n.peer y).lastInitiationTx = 0 ∨
        expired env.now (n.peer y).lastInitiationTx rekeyTimeout = true))
    (fun y a b hs ha => by
      rcases wgRunTimersPeer_calls (x := y) c env hs with hrests | ⟨-, hcalls, hdue⟩
      · exact Or.inl (ha.trans hrests)
      · rw [ha.kept.tx] at hdue
        exact Or.inr ⟨ha.calls hcalls, hdue⟩)
    (fun y z a b hne hs ha => by
      have hrests := hother y z a b hne hs
      rcases ha with ha | ⟨hcalls, hdue⟩
      · exact Or.inl (ha.trans hrests)
      · exact Or.inr ⟨hcalls.kept hrests, hdue⟩)
    (fun y z a b hne hs ha => ha.trans (hother y z a b hne hs))
    (List.finRange cfg.maxPeers) (List.nodup_finRange _) h (fun y _ => .refl n)
    x (List.mem_finRange x)

/-- A step that sends one initiation to `x`, which the last call allows. -/
theorem Keeps.of_calls {x : Fin cfg.maxPeers} {last : Option Call} {clock time : Nat} {r : Bool}
    {k : Taken (Netdev cfg) (Event cfg)} (hcall : callAt x k = some ⟨time, r⟩)
    (htime : k.event.time = some time)
    (htimes : initiationTimes x k.after.log = time :: initiationTimes x k.before.log)
    (hpaced : Paced x (some ⟨time, r⟩) time k.after)
    (hbefore : ∀ j ∈ last, Call.Before rekeyTimeoutMillis j ⟨time, r⟩) : Keeps x last clock k := by
  refine ⟨?_, ?_, ?_⟩
  · rw [hcall, htime]
    exact hpaced
  · rw [hcall]
    rintro l ⟨⟩
    exact hbefore
  · rw [hcall]
    exact htimes

/-- What a step that sent an initiation to `x` is. -/
theorem callAt_of_times {x : Fin cfg.maxPeers} {time : Nat} {k : Taken (Netdev cfg) (Event cfg)}
    (htimes : initiationTimes x k.after.log = time :: initiationTimes x k.before.log) :
    callAt x k = match k.event with
      | .timers env => some ⟨env.time, false⟩
      | .rx env _ _ _ => some ⟨env.time, true⟩
      | _ => none := by
  unfold callAt
  rw [if_neg]
  rw [htimes]
  exact List.cons_ne_self _ _

/-- **One step.** -/
theorem step_keeps {x : Fin cfg.maxPeers} {clock : Nat}
    {past : List (Taken (Netdev cfg) (Event cfg))} {k : Taken (Netdev cfg) (Event cfg)}
    (h : step c k.before k.event = some k.after) (hclock : ∀ t ∈ k.event.time, clock ≤ t)
    (hk : Unhurried c past k) (hp : Paced x (lastCall x past) clock k.before) :
    Keeps x (lastCall x past) clock k := by
  have hle : clock ≤ k.event.time.getD clock := by
    cases ht : k.event.time with
    | none => exact Nat.le_refl _
    | some t => exact hclock t ht
  obtain ⟨n, e, n'⟩ := k
  have h : step c n e = some n' := h
  cases e with
  | rx env data addr port =>
      have hle : clock ≤ env.time := hclock env.time rfl
      simp only [step] at h
      split at h
      · cases h
        exact .of_waits hle hp (.refl n)
      · rcases wgProcessUdpPacket_calls (x := x) c env h with
          hrests | ⟨hcookie, p, hopened, hrests | hcalls⟩
        · exact .of_waits hle hp hrests.waits
        · exact .of_waits hle hp ((processCookie_waits c env hopened).trans hrests.waits)
        · have htimes : initiationTimes x n'.log = env.time :: initiationTimes x n.log := by
            rw [hcalls.times, (processCookie_waits c env hopened).times]
          refine .of_calls (callAt_of_times (k := ⟨n, .rx env data addr port, n'⟩) htimes) rfl htimes
            (Paced.called hcalls.toCallsAt) fun j hj => ?_
          cases hretry : j.retry with
          | false => exact ⟨(hp.le j hj).trans hle, Or.inl ⟨hretry, rfl⟩⟩
          | true =>
              -- the cookie answers a retry
              obtain ⟨hexp, htrue⟩ := hk.cookies env _ addr port rfl x hcookie j hj hretry
              exact hp.before_of_expired hle htrue hexp true j hj
  | timers env =>
      have hle : clock ≤ env.time := hclock env.time rfl
      rcases wgRunTimers_calls c env h x with hrests | ⟨hcalls, hdue⟩
      · exact .of_waits hle hp hrests.waits
      · refine .of_calls (callAt_of_times (k := ⟨n, .timers env, n'⟩) hcalls.times) rfl hcalls.times
          (Paced.called hcalls.toCallsAt) fun j hj => ?_
        rcases hdue with hzero | hexp
        · exact absurd ((hp.tx j hj).symm.trans hzero) (sysNow_ne_zero j.time)
        · exact hp.before_of_expired hle (hk.timers env rfl x) hexp false j hj
  | txpoll env packet =>
      cases h
      refine .of_waits hle hp ?_
      dsimp only
      split
      · exact (wgTxpoll_kept c env n packet).waits
      · exact .refl n
  | ifup =>
      cases h
      exact .of_waits hle hp (wgIfup_kept n).waits
  | ifdown =>
      cases h
      exact .of_waits hle hp (wgIfdown_kept n).waits

/-! ### Runs -/

/-- The call a step makes is the last one then. -/
theorem lastCall_concat (x : Fin cfg.maxPeers) (ts : List (Taken (Netdev cfg) (Event cfg)))
    (k : Taken (Netdev cfg) (Event cfg)) :
    lastCall x (ts ++ [k]) = (callAt x k).or (lastCall x ts) := by
  unfold lastCall calls
  rw [List.filterMap_append, List.getLast?_append]
  cases hcall : callAt x k with
  | none => rw [List.filterMap_cons_none hcall]; rfl
  | some l => rw [List.filterMap_cons_some hcall]; rfl

/-- Time does not go back. -/
def Forward (ts : List (Taken (Netdev cfg) (Event cfg))) : Prop :=
  (ts.filterMap (·.event.time)).Pairwise (· ≤ ·)

theorem Forward.cons {k : Taken (Netdev cfg) (Event cfg)}
    {ts : List (Taken (Netdev cfg) (Event cfg))} (h : Forward (k :: ts)) {clock : Nat}
    (hclock : ∀ j ∈ k :: ts, ∀ t ∈ j.event.time, clock ≤ t) :
    Forward ts ∧ ∀ j ∈ ts, ∀ t ∈ j.event.time, k.event.time.getD clock ≤ t := by
  unfold Forward at h
  cases ht : k.event.time with
  | none =>
      rw [List.filterMap_cons_none
        (f := fun j : Taken (Netdev cfg) (Event cfg) => j.event.time) ht] at h
      exact ⟨h, fun j hj => hclock j (List.mem_cons_of_mem _ hj)⟩
  | some time =>
      rw [List.filterMap_cons_some
        (f := fun j : Taken (Netdev cfg) (Event cfg) => j.event.time) ht, List.pairwise_cons] at h
      refine ⟨h.2, fun j hj t hjt => h.1 t ?_⟩
      exact List.mem_filterMap.mpr ⟨j, hj, hjt⟩

/-- **The initiations of a run keep their distance**, and they are all that were sent. -/
theorem Paced.of_run {x : Fin cfg.maxPeers} {clock : Nat} {n m : Netdev cfg}
    {past ts : List (Taken (Netdev cfg) (Event cfg))} (hp : Paced x (lastCall x past) clock n)
    (hrun : Run (step c) n ts m) (hforward : Forward ts)
    (hclock : ∀ k ∈ ts, ∀ t ∈ k.event.time, clock ≤ t)
    (hts : ∀ us k rest, ts = us ++ k :: rest → Unhurried c (past ++ us) k) :
    ((lastCall x past).toList ++ calls x ts).IsChain (Call.Before rekeyTimeoutMillis) ∧
      initiationTimes x m.log
        = ((calls x ts).map (·.time)).reverse ++ initiationTimes x n.log := by
  induction ts generalizing past clock n with
  | nil =>
      rw [hrun.eq_of_nil]
      refine ⟨?_, rfl⟩
      cases lastCall x past
      · exact .nil
      · exact .singleton _
  | cons k ts ih =>
      obtain ⟨rfl, hstep, hrest⟩ := hrun.uncons
      obtain ⟨hforward, hclock'⟩ := hforward.cons hclock
      have hk : Unhurried c past k := by
        have h := hts [] k ts rfl
        rwa [List.append_nil] at h
      have hkeeps := step_keeps c hstep (hclock k List.mem_cons_self) hk hp
      have hpaced := hkeeps.paced
      rw [← lastCall_concat] at hpaced
      obtain ⟨hchain, hlog⟩ := ih hpaced hrest hforward hclock' fun us j rest hsplit => by
        have h := hts (k :: us) j rest (by rw [hsplit]; rfl)
        rwa [List.append_cons] at h
      rw [lastCall_concat] at hchain
      rw [hlog, hkeeps.times]
      cases hcall : callAt x k with
      | none =>
          rw [hcall] at hchain
          have hcalls : calls x (k :: ts) = calls x ts := List.filterMap_cons_none hcall
          rw [hcalls]
          exact ⟨hchain, rfl⟩
      | some l =>
          rw [hcall] at hchain
          have hcalls : calls x (k :: ts) = l :: calls x ts := List.filterMap_cons_some hcall
          rw [hcalls]
          refine ⟨?_, ?_⟩
          · cases hlast : lastCall x past with
            | none => exact hchain
            | some j => exact .cons_cons (hkeeps.before l hcall j hlast) hchain
          · simp

/-- **At most two initiations to a peer within `REKEY_TIMEOUT`**: one on schedule and one
retry. -/
structure Limited (x : Fin cfg.maxPeers) (ts : List (Taken (Netdev cfg) (Event cfg)))
    (m : Netdev cfg) : Prop where
  total : ∀ a b, b < a + rekeyTimeoutMillis →
    (initiationTimes x m.log).countP (fun t => decide (a ≤ t ∧ t ≤ b)) ≤ 2
  scheduled : ∀ a b, b < a + rekeyTimeoutMillis → (calls x ts).countP (Call.within a b false) ≤ 1
  retried : ∀ a b, b < a + rekeyTimeoutMillis → (calls x ts).countP (Call.within a b true) ≤ 1

/-- **The rate of initiations is limited** in every run in which no cookie reply answers a
retry too soon. -/
theorem initiations_limited {n m : Netdev cfg} {ts : List (Taken (Netdev cfg) (Event cfg))}
    (hinit : Initial c n) (hrun : Run (step c) n ts m) (hforward : Forward ts)
    (hts : ∀ past k rest, ts = past ++ k :: rest → Unhurried c past k) (x : Fin cfg.maxPeers) :
    Limited x ts m := by
  have hlog : n.log = [] := (Initial.fresh c hinit).log
  have hp : Paced x (lastCall x []) 0 n :=
    ⟨(by intro k hk; cases hk), (by intro k hk; cases hk), by intro k hk; cases hk⟩
  obtain ⟨hchain, htimes⟩ := hp.of_run c hrun hforward (fun _ _ _ _ => Nat.zero_le _) hts
  have hone := fun {a b : Nat} (hab : b < a + rekeyTimeoutMillis) (r : Bool) =>
    Call.countP_within_le hchain hab r
  refine ⟨fun a b hab => ?_, fun a b hab => hone hab false, fun a b hab => hone hab true⟩
  have hnil : initiationTimes x n.log = [] := by rw [hlog]; rfl
  rw [htimes, hnil, List.append_nil, List.countP_reverse, Call.countP_times]
  exact Nat.add_le_add (hone hab false) (hone hab true)

namespace Sample

open NuttxWireguard.Sample

/-- The small network with an endpoint for the first peer, so that its timers call it. -/
def calling : Option (Netdev config) :=
  wgInitialize Crypto.plain (Sample.env 1000) (key 1 0) (key 8 64)
    (peers.modifyHead fun pc => { pc with endpointIp := some (address 9 9 9 9), endpointPort := 1234 })

/-- A cookie reply to the initiation outstanding. -/
def rxCookie (time : Nat) : Event config :=
  .rx (Sample.env time) (MsgCookie.bytes ⟨1, Bytes.zero 24, Bytes.zero 32⟩) (address 9 9 9 9) 1234

/-- The timers call the first peer, and three cookie replies may follow. -/
theorem run_called : ∃ n₀ n m : Netdev config, Initial Crypto.plain n₀ ∧
    step Crypto.plain n₀ (.timers (Sample.env 1001)) = some n ∧
    step Crypto.plain n (rxCookie 1002) = some m ∧
    (∀ x, expired (Sample.env 6003).now (m.peer x).lastInitiationTx rekeyTimeout = true) ∧
    (∃ r, step Crypto.plain m (rxCookie 1003) = some r ∧
      initiationTimes first r.log = [1003, 1002, 1001]) ∧
    ∃ r, step Crypto.plain m (rxCookie 6003) = some r ∧
      initiationTimes first r.log = [6003, 1002, 1001] := by
  have hrun : (calling.bind fun n₀ => (step Crypto.plain n₀ (.timers (Sample.env 1001)))).any
      (fun n => (step Crypto.plain n (rxCookie 1002)).any fun (m : Netdev config) =>
        (List.finRange config.maxPeers).all (fun x =>
          expired (Sample.env 6003).now (m.peer x).lastInitiationTx rekeyTimeout) &&
        ((step Crypto.plain m (rxCookie 1003)).any fun (r : Netdev config) =>
          decide (initiationTimes first r.log = [1003, 1002, 1001])) &&
        (step Crypto.plain m (rxCookie 6003)).any fun (r : Netdev config) =>
          decide (initiationTimes first r.log = [6003, 1002, 1001])) = true := by decide +kernel
  obtain ⟨n, hn, h⟩ := (Option.any_eq_true _ _).mp hrun
  obtain ⟨n₀, h₀, hstep⟩ := Option.bind_eq_some_iff.mp hn
  obtain ⟨m, hm, h⟩ := (Option.any_eq_true _ _).mp h
  simp only [Bool.and_eq_true, List.all_eq_true] at h
  obtain ⟨⟨hexp, hsoon⟩, hlate⟩ := h
  obtain ⟨r, hr, htimes⟩ := (Option.any_eq_true _ _).mp hsoon
  obtain ⟨r', hr', htimes'⟩ := (Option.any_eq_true _ _).mp hlate
  exact ⟨n₀, n, m, ⟨_, _, _, _, h₀⟩, hstep, hm, fun x => hexp x (List.mem_finRange x),
    ⟨r, hr, of_decide_eq_true htimes⟩, r', hr', of_decide_eq_true htimes'⟩

/-- Only in the millisecond of the wrap is the clock told wrong. -/
theorem trueFor {time : Nat} (h : time % 2 ^ 32 ≠ 0) (n : Netdev config) (x : Fin config.maxPeers) :
    TrueFor time n x :=
  fun _ _ hearly => h hearly.1

end Sample

/-- The timers call the first peer, a cookie reply is answered with a retry, and five seconds
later another one with the next. -/
theorem initiations_limited_sample :
    ∃ (m : Netdev Sample.config) (ts : List (Taken (Netdev Sample.config) (Event Sample.config))),
      initiationTimes Sample.first m.log = [6003, 1002, 1001] ∧ Limited Sample.first ts m := by
  obtain ⟨n₀, n, m, hinit, hstep, hm, hexp, -, r, hr, htimes⟩ := Sample.run_called
  refine ⟨r, [⟨n₀, .timers (Sample.env 1001), n⟩, ⟨n, Sample.rxCookie 1002, m⟩,
    ⟨m, Sample.rxCookie 6003, r⟩], htimes,
    initiations_limited Crypto.plain hinit (.cons hstep (.cons hm (.cons hr .nil))) ?_ ?_ _⟩
  · show [1001, 1002, 6003].Pairwise (· ≤ ·)
    decide
  · intro past k rest hsplit
    rcases past with _ | ⟨k₁, _ | ⟨k₂, _ | ⟨k₃, past⟩⟩⟩
    · cases hsplit
      refine ⟨?_, (by intro env data addr port h; cases h)⟩
      rintro env ⟨⟩ x
      exact Sample.trueFor (by decide) n₀ x
    · cases hsplit
      refine ⟨(by intro env h; cases h), ?_⟩
      intro env data addr port h x hcookie l hl hretry
      have hscheduled : l.retry = false := by
        refine scheduled_of_timers (fun k hk => ⟨Sample.env 1001, ?_⟩) l hl
        rw [List.mem_singleton.mp hk]
      rw [hscheduled] at hretry
      cases hretry
    · cases hsplit
      refine ⟨(by intro env h; cases h), ?_⟩
      rintro env data addr port ⟨⟩ x hcookie l hl hretry
      exact ⟨hexp x, Sample.trueFor (by decide) m x⟩
    · have hlength := congrArg List.length hsplit
      simp at hlength

/-- A second cookie reply a millisecond later is answered too: three initiations in three
milliseconds, and so on. -/
theorem not_initiations_limited :
    ¬∀ (cfg : Config) (c : Crypto) (n m : Netdev cfg) (ts : List (Taken (Netdev cfg) (Event cfg))),
      Initial c n → Run (step c) n ts m → Forward ts → ∀ x, Limited x ts m := by
  intro hall
  obtain ⟨n₀, n, m, hinit, hstep, hm, -, ⟨r, hr, htimes⟩, -⟩ := Sample.run_called
  have hlimited := hall _ _ _ _ [⟨n₀, .timers (Sample.env 1001), n⟩, ⟨n, Sample.rxCookie 1002, m⟩,
    ⟨m, Sample.rxCookie 1003, r⟩] hinit (.cons hstep (.cons hm (.cons hr .nil)))
    (show [1001, 1002, 1003].Pairwise (· ≤ ·) by decide) Sample.first
  have htotal := hlimited.total 1001 1003 (by decide)
  rw [htimes] at htotal
  exact absurd htotal (by decide)

end NuttxWireguard.Flat
