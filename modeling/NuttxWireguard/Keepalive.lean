/-
The keepalive interval and the rekey deadlines.

Both drivers subtract a peer's keepalive interval from `REJECT_AFTER_TIME`, once for the
responder's deadline and once more for the initiator's, and neither looks at the interval
before.  In unsigned arithmetic the deadlines are what they should be up to 175 seconds.  Past
that they wrap, and a deadline that wrapped does not come while a session lives.

The flat port takes any `int` for an interval and keeps its low 16 bits.
-/
import NuttxWireguard.Flat.CookieReply
import NuttxWireguard.Flat.PeerText
import NuttxWireguard.Kernel.Endpoint
import NuttxWireguard.Kernel.Traffic

namespace NuttxWireguard

open Lib

/-! ### Deadlines -/

/-- When the timers start a handshake in place of a session this side did not start:
`rekey_at` of `wg_run_timers`. -/
def responderDeadline (interval : U16) : U32 := rejectAfterTime - interval.setWidth 32

/-- When a packet on a session this side started asks for a handshake. -/
def initiatorDeadline (interval : U16) : U32 :=
  rejectAfterTime - interval.setWidth 32 - rekeyTimeout

variable {cfg : Config} {interval : U16} {now created : U32}

theorem responderDeadline_toNat (h : interval.toNat ≤ 180) :
    (responderDeadline interval).toNat = 180 - interval.toNat := by
  unfold responderDeadline rejectAfterTime
  rw [BitVec.toNat_sub, BitVec.toNat_setWidth]
  show (2 ^ 32 - interval.toNat % 2 ^ 32 + 180) % 2 ^ 32 = _
  omega

theorem initiatorDeadline_toNat (h : interval.toNat ≤ 175) :
    (initiatorDeadline interval).toNat = 175 - interval.toNat := by
  have hresponder := responderDeadline_toNat (h.trans (by decide))
  unfold responderDeadline at hresponder
  unfold initiatorDeadline rekeyTimeout
  rw [BitVec.toNat_sub, hresponder]
  show (2 ^ 32 - 5 + (180 - interval.toNat)) % 2 ^ 32 = _
  omega

theorem millis_toNat {seconds : U32} (h : seconds.toNat ≤ 180) :
    (seconds * 1000).toNat = seconds.toNat * 1000 := by
  rw [BitVec.toNat_mul]
  show seconds.toNat * 1000 % 2 ^ 32 = _
  omega

theorem expired_iff {seconds : U32} (h : seconds.toNat ≤ 180) :
    expired now created seconds = true ↔ seconds.toNat * 1000 ≤ (now - created).toNat := by
  unfold expired
  rw [← millis_toNat h]
  exact decide_eq_true_iff

/-! ### A turn of the timers -/

/-- The current session, and when the peer may be called, are what they were. -/
structure SameSession (p q : Peer cfg) : Prop where
  valid : q.currKeypair.valid = p.currKeypair.valid
  initiator : q.currKeypair.initiator = p.currKeypair.initiator
  created : q.currKeypair.keypairMillis = p.currKeypair.keypairMillis
  tx : q.lastInitiationTx = p.lastInitiationTx
  interval : q.keepaliveInterval = p.keepaliveInterval

namespace SameSession

variable {p q r : Peer cfg}

theorem refl (p : Peer cfg) : SameSession p p := ⟨rfl, rfl, rfl, rfl, rfl⟩

theorem trans (h : SameSession p q) (h' : SameSession q r) : SameSession p r :=
  ⟨h'.valid.trans h.valid, h'.initiator.trans h.initiator, h'.created.trans h.created,
    h'.tx.trans h.tx, h'.interval.trans h.interval⟩

/-- Counting a packet. -/
theorem counted (p : Peer cfg) (s : Slot) (counter : U64) (tx : U32) :
    SameSession p (p.setKeypair s
      { p.keypair s with sendingCounter := counter, lastTx := tx }) := by
  cases s <;> exact ⟨rfl, rfl, rfl, rfl, rfl⟩

/-- What is destroyed is exhausted. -/
theorem destroyed {s : Slot} (hlives : sendingExhausted now p.currKeypair = false)
    (hs : sendingExhausted now (p.keypair s) = true) : SameSession p (keypairDestroy p s) := by
  cases s with
  | curr =>
      have hcurr : p.keypair .curr = p.currKeypair := rfl
      rw [hcurr, hlives] at hs
      cases hs
  | prev => exact ⟨rfl, rfl, rfl, rfl, rfl⟩
  | next => exact ⟨rfl, rfl, rfl, rfl, rfl⟩

end SameSession

theorem expired_of_expired_three (h : expired now created (rejectAfterTime * 3) = true) :
    expired now created rejectAfterTime = true := by
  unfold expired at h ⊢
  have hthree : (rejectAfterTime * 3 * 1000).toNat ≤ (now - created).toNat := of_decide_eq_true h
  have hmillis : (rejectAfterTime * 3 * 1000).toNat = 540000 := by decide
  have hone : (rejectAfterTime * 1000).toNat = 180000 := by decide
  refine decide_eq_true ?_
  show (rejectAfterTime * 1000).toNat ≤ (now - created).toNat
  omega

/-- The expiry rules leave a session that may be sent on. -/
theorem wgExpirePeer_of_lives {p : Peer cfg} (h : sendingExhausted now p.currKeypair = false) :
    wgExpirePeer now p = p := by
  unfold sendingExhausted at h
  rw [Bool.or_eq_false_iff, decide_eq_false_iff_not] at h
  obtain ⟨hexpired, hcounter⟩ := h
  have hthree : ¬(p.currKeypair.valid = true ∧
      expired now p.currKeypair.keypairMillis (rejectAfterTime * 3) = true) := by
    rintro ⟨-, hc⟩
    rw [expired_of_expired_three hc] at hexpired
    cases hexpired
  have hone : ¬(p.currKeypair.valid = true ∧
      (expired now p.currKeypair.keypairMillis rejectAfterTime = true ∨
        p.currKeypair.sendingCounter ≥ rejectAfterMessages)) := by
    rintro ⟨-, hc | hc⟩
    · rw [hexpired] at hc
      cases hc
    · exact hcounter hc
  unfold wgExpirePeer
  dsimp only
  rw [if_neg hthree, if_neg hone]

/-- The other side started the session of `p`, it is `seconds` short of `REJECT_AFTER_TIME` or
less, and the peer may be called. -/
structure TimersDue (seconds : ℕ) (interval : U16) (now : U32) (p : Peer cfg) : Prop where
  interval : p.keepaliveInterval = interval
  valid : p.currKeypair.valid = true
  responder : p.currKeypair.initiator = false
  retry : p.lastInitiationTx = 0 ∨ expired now p.lastInitiationTx rekeyTimeout = true
  age : (180 - seconds) * 1000 ≤ (now - p.currKeypair.keypairMillis).toNat

theorem TimersDue.of_same {seconds : ℕ} {p q : Peer cfg} (h : TimersDue seconds interval now p)
    (hsame : SameSession p q) : TimersDue seconds interval now q where
  interval := hsame.interval.trans h.interval
  valid := hsame.valid.trans h.valid
  responder := hsame.initiator.trans h.responder
  retry := by rw [hsame.tx]; exact h.retry
  age := by rw [hsame.created]; exact h.age

namespace Flat

variable (c : Crypto) (env : Env cfg)

/-- What a turn of the timers has done when it looks whether a handshake is due. -/
def turned (n : Netdev cfg) (x : Fin cfg.maxPeers) : Netdev cfg :=
  let n := n.setPeer x (wgExpirePeer env.now (n.peer x))
  if keepaliveDue env.now (n.peer x) then wgSendKeepalive c env n x else n

/-- The turn starts a handshake. -/
def TurnStarts (n : Netdev cfg) (x : Fin cfg.maxPeers) : Prop :=
  wgRunTimersPeer c env n x = wgStartHandshake c env (turned c env n x) x

theorem wgSendKeepalive_same {n : Netdev cfg} {x : Fin cfg.maxPeers}
    (hlives : sendingExhausted env.now (n.peer x).currKeypair = false) :
    SameSession (n.peer x) ((wgSendKeepalive c env n x).peer x) := by
  have hsend : ∀ (b : Bool) (q : Peer cfg),
      SameSession q (if b then { q with sendHandshake := true } else q) := by
    intro b q
    cases b <;> exact ⟨rfl, rfl, rfl, rfl, rfl⟩
  unfold wgSendKeepalive wgEncryptAndSend
  dsimp only [encryptPacket]
  generalize sendingSlot (n.peer x).keypair = s
  split
  · exact .refl _
  split
  · rename_i hexhausted
    rw [setPeer_peer_self]
    exact .destroyed hlives hexhausted
  split
  · exact .refl _
  · rw [setPeer_peer_self]
    refine SameSession.trans ?_ (hsend _ _)
    split
    · rw [Peer.setKeypair_setKeypair]
      exact (SameSession.counted (n.peer x) s _ _).trans ⟨rfl, rfl, rfl, rfl, rfl⟩
    · exact .counted (n.peer x) s _ _

theorem turned_same {n : Netdev cfg} {x : Fin cfg.maxPeers}
    (hlives : sendingExhausted env.now (n.peer x).currKeypair = false) :
    SameSession (n.peer x) ((turned c env n x).peer x) := by
  unfold turned
  rw [wgExpirePeer_of_lives hlives]
  have hsame : n.setPeer x (n.peer x) = n := setPeer_self n x
  rw [hsame]
  dsimp only
  split
  · exact wgSendKeepalive_same c env hlives
  · exact .refl _

theorem turnStarts_of_shouldInitiate {n : Netdev cfg} {x : Fin cfg.maxPeers}
    (hvalid : (n.peer x).valid = true)
    (h : shouldInitiate env.now ((turned c env n x).peer x) = true) : TurnStarts c env n x := by
  unfold TurnStarts wgRunTimersPeer
  rw [if_neg (by rw [hvalid]; exact not_not_intro rfl)]
  exact if_pos h

end Flat

namespace Kernel

variable (c : Crypto) (env : Env cfg)

@[inherit_doc Flat.turned]
def turned (n : Netdev cfg) (x : Fin cfg.maxPeers) : Netdev cfg :=
  let n := n.setPeer x (wgExpirePeer env.now (n.peer x))
  if keepaliveDue env.now (n.peer x) then (wgSendData c env n x []).1 else n

@[inherit_doc Flat.TurnStarts]
def TurnStarts (n : Netdev cfg) (x : Fin cfg.maxPeers) : Prop :=
  wgRunTimersPeer c env n x = wgSendInitiation c env (turned c env n x) x

theorem wgSendData_same {n : Netdev cfg} {x : Fin cfg.maxPeers}
    (hlives : sendingExhausted env.now (n.peer x).currKeypair = false) (plaintext : List Byte) :
    SameSession (n.peer x) ((wgSendData c env n x plaintext).1.peer x) := by
  have hsend : ∀ (b : Bool) (q : Peer cfg),
      SameSession q (if b then { q with sendHandshake := true } else q) := by
    intro b q
    cases b <;> exact ⟨rfl, rfl, rfl, rfl, rfl⟩
  unfold wgSendData
  dsimp only [encryptPacket]
  generalize sendingSlot (n.peer x).keypair = s
  split
  · exact .refl _
  split
  · rename_i hexhausted
    rw [setPeer_peer_self]
    exact .destroyed hlives hexhausted
  split
  · exact .refl _
  · rw [setPeer_peer_self]
    refine SameSession.trans ?_ (hsend _ _)
    split
    · rw [Peer.setKeypair_setKeypair]
      exact (SameSession.counted (n.peer x) s _ _).trans ⟨rfl, rfl, rfl, rfl, rfl⟩
    · exact .counted (n.peer x) s _ _

theorem turned_same {n : Netdev cfg} {x : Fin cfg.maxPeers}
    (hlives : sendingExhausted env.now (n.peer x).currKeypair = false) :
    SameSession (n.peer x) ((turned c env n x).peer x) := by
  unfold turned
  rw [wgExpirePeer_of_lives hlives]
  have hsame : n.setPeer x (n.peer x) = n := setPeer_self n x
  rw [hsame]
  dsimp only
  split
  · exact wgSendData_same c env hlives []
  · exact .refl _

theorem turnStarts_of_shouldInitiate {n : Netdev cfg} {x : Fin cfg.maxPeers}
    (hvalid : (n.peer x).valid = true)
    (h : shouldInitiate env.now ((turned c env n x).peer x) = true) : TurnStarts c env n x := by
  unfold TurnStarts wgRunTimersPeer
  rw [if_neg (by rw [hvalid]; exact not_not_intro rfl)]
  exact if_pos h

end Kernel

/-! ### A sound interval -/

/-- An interval of `seconds`, whose deadlines are what they would be in the integers and come
in time, in every state of a peer that has it. -/
structure KeepaliveSound (seconds : ℕ) (interval : U16) : Prop where
  exact : interval.toNat = seconds
  /-- Neither subtraction wraps. -/
  responder : (responderDeadline interval).toNat + seconds = rejectAfterTime.toNat
  initiator : (initiatorDeadline interval).toNat + seconds + rekeyTimeout.toNat =
    rejectAfterTime.toNat
  /-- Nor does the conversion in `expired`. -/
  responderMillis : (responderDeadline interval * 1000).toNat =
    (responderDeadline interval).toNat * 1000
  initiatorMillis : (initiatorDeadline interval * 1000).toNat =
    (initiatorDeadline interval).toNat * 1000
  /-- Both deadlines have come when the session expires. -/
  expires : ∀ now created, expired now created rejectAfterTime = true →
    expired now created (responderDeadline interval) = true ∧
      expired now created (initiatorDeadline interval) = true
  /-- From its deadline on, a session this side did not start has the timers start a handshake,
  unless the last one was just tried. -/
  timers : ∀ {cfg : Config} (p : Peer cfg) (now : U32), TimersDue seconds interval now p →
    shouldInitiate now p = true
  /-- So it does in its turn, unless the session is given up first: at 0 seconds it is. -/
  flatTurn : ∀ {cfg : Config} (c : Crypto) (env : Flat.Env cfg) (n : Flat.Netdev cfg)
    (x : Fin cfg.maxPeers), (n.peer x).valid = true → TimersDue seconds interval env.now (n.peer x) →
    sendingExhausted env.now (n.peer x).currKeypair = false → Flat.TurnStarts c env n x
  kernelTurn : ∀ {cfg : Config} (c : Crypto) (env : Kernel.Env cfg) (n : Kernel.Netdev cfg)
    (x : Fin cfg.maxPeers), (n.peer x).valid = true → TimersDue seconds interval env.now (n.peer x) →
    sendingExhausted env.now (n.peer x).currKeypair = false → Kernel.TurnStarts c env n x
  /-- From its deadline on, a packet on a session this side started asks for a handshake. -/
  packets : ∀ {cfg : Config} (p : Peer cfg) (now : U32) (s : Slot) (kp : Keypair cfg) (addr : U32)
    (port : U16) (dataLen : ℕ), p.keepaliveInterval = interval → s ≠ .next →
    kp.initiator = true → (175 - seconds) * 1000 ≤ (now - kp.keypairMillis).toNat →
    (acceptPacket now p s kp addr port dataLen).sendHandshake = true

theorem shouldInitiate_of_deadline {p : Peer cfg} (hvalid : p.currKeypair.valid = true)
    (hresponder : p.currKeypair.initiator = false)
    (hretry : p.lastInitiationTx = 0 ∨ expired now p.lastInitiationTx rekeyTimeout = true)
    (hdue : expired now p.currKeypair.keypairMillis
      (responderDeadline p.keepaliveInterval) = true) : shouldInitiate now p = true := by
  unfold responderDeadline at hdue
  unfold shouldInitiate
  rw [hvalid, hresponder, hdue]
  simpa using hretry

theorem acceptPacket_sendHandshake {p : Peer cfg} {s : Slot} {kp : Keypair cfg} (hs : s ≠ .next)
    (hinitiator : kp.initiator = true)
    (hdue : expired now kp.keypairMillis (initiatorDeadline p.keepaliveInterval) = true)
    (addr : U32) (port : U16) (dataLen : ℕ) :
    (acceptPacket now p s kp addr port dataLen).sendHandshake = true := by
  unfold initiatorDeadline at hdue
  unfold acceptPacket keypairUpdate
  dsimp only
  rw [if_neg hs]
  split
  · rfl
  · rename_i hno
    refine absurd ?_ hno
    cases s with
    | next => exact absurd rfl hs
    | curr => exact ⟨hinitiator, hdue⟩
    | prev => exact ⟨hinitiator, hdue⟩

/-- **An interval is sound up to 175 seconds.** -/
theorem keepaliveSound_of_le (h : interval.toNat ≤ 175) :
    KeepaliveSound interval.toNat interval := by
  have hresponder := responderDeadline_toNat (h.trans (by decide))
  have hinitiator := initiatorDeadline_toNat h
  have hreject : rejectAfterTime.toNat = 180 := rfl
  have htimers : ∀ {cfg : Config} (p : Peer cfg) (now : U32),
      TimersDue interval.toNat interval now p → shouldInitiate now p = true := by
    intro cfg p now hdue
    refine shouldInitiate_of_deadline hdue.valid hdue.responder hdue.retry ?_
    have hage := hdue.age
    rwa [hdue.interval, expired_iff (by omega), hresponder]
  refine ⟨rfl, ?_, ?_, millis_toNat (by omega), millis_toNat (by omega), ?_, htimers, ?_, ?_, ?_⟩
  · rw [hresponder, hreject]
    omega
  · rw [hinitiator, hreject]
    show 175 - interval.toNat + interval.toNat + 5 = 180
    omega
  · intro now created hexpired
    have hage := (expired_iff (by rw [hreject])).mp hexpired
    rw [hreject] at hage
    rw [expired_iff (by omega), expired_iff (by omega), hresponder, hinitiator]
    omega
  · intro cfg c env n x hvalid hdue hlives
    exact Flat.turnStarts_of_shouldInitiate c env hvalid
      (htimers _ _ (hdue.of_same (Flat.turned_same c env hlives)))
  · intro cfg c env n x hvalid hdue hlives
    exact Kernel.turnStarts_of_shouldInitiate c env hvalid
      (htimers _ _ (hdue.of_same (Kernel.turned_same c env hlives)))
  · intro cfg p now s kp addr port dataLen hp hs hself hage
    refine acceptPacket_sendHandshake hs hself ?_ addr port dataLen
    rwa [hp, expired_iff (by omega), hinitiator]

theorem KeepaliveSound.le {seconds : ℕ} (h : KeepaliveSound seconds interval) : seconds ≤ 175 := by
  have hinitiator := h.initiator
  have hreject : rejectAfterTime.toNat = 180 := rfl
  have htimeout : rekeyTimeout.toNat = 5 := rfl
  omega

/-! ### The flat port -/

namespace Flat

variable {cfg : Config} (c : Crypto)

/-- A peer that is there stays as it is when another one is added. -/
theorem wgAddPeer_peers_of_valid {d : Device cfg} {x : Fin cfg.maxPeers}
    (hx : (d.peers x).valid = true) (pc : PeerConfig) :
    (wgAddPeer c d pc).peers x = d.peers x := by
  have hset : ∀ y p, peerAlloc d = some y → (d.setPeer y p).peers x = d.peers x := by
    intro y p halloc
    refine Device.setPeer_peers_of_ne d p fun hxy => ?_
    have hfree := List.find?_some halloc
    rw [← hxy, hx] at hfree
    cases hfree
  unfold wgAddPeer
  split
  · rfl
  · split
    · rfl
    · rename_i y halloc
      dsimp only
      split
      · exact hset y _ halloc
      · exact hset y _ halloc

theorem wgAddPeers_peers_of_valid (pcs : List PeerConfig) {d : Device cfg} {x : Fin cfg.maxPeers}
    (hx : (d.peers x).valid = true) : (pcs.foldl (wgAddPeer c) d).peers x = d.peers x := by
  induction pcs generalizing d with
  | nil => rfl
  | cons pc pcs ih =>
      have hkept := wgAddPeer_peers_of_valid c hx pc
      rw [List.foldl_cons, ih (hkept ▸ hx), hkept]

theorem PeerConfig.configure_keepalive (pc : PeerConfig) (p : Peer cfg) :
    (pc.configure p).keepaliveInterval = pc.keepalive := by
  unfold PeerConfig.configure
  dsimp only
  split
  · rfl
  · rfl

/-- Slot `x` is filled from the entry. -/
structure FilledFrom (d : Device cfg) (before : List PeerConfig) (pc : PeerConfig)
    (x : Fin cfg.maxPeers) : Prop where
  slot : peerAlloc (before.foldl (wgAddPeer c) d) = some x
  added : ((wgAddPeer c (before.foldl (wgAddPeer c) d) pc).peers x).valid = true

theorem FilledFrom.keepalive {d : Device cfg} {before : List PeerConfig} {pc : PeerConfig}
    {x : Fin cfg.maxPeers} (h : FilledFrom c d before pc x) (after : List PeerConfig) :
    (((before ++ pc :: after).foldl (wgAddPeer c) d).peers x).keepaliveInterval = pc.keepalive := by
  have hadded := h.added
  have hslot := h.slot
  rw [List.foldl_append, List.foldl_cons, wgAddPeers_peers_of_valid c after hadded]
  generalize before.foldl (wgAddPeer c) d = e at hadded hslot
  unfold wgAddPeer at hadded ⊢
  rw [hslot] at hadded ⊢
  cases hkey : pc.publicKey with
  | none =>
      rw [hkey] at hadded
      have hfree := List.find?_some hslot
      rw [hadded] at hfree
      cases hfree
  | some publicKey =>
      rw [hkey] at hadded
      dsimp only at hadded ⊢
      by_cases hvalid : (wireguardPeerInit c e publicKey none).valid = true
      · rw [if_pos hvalid, Device.setPeer_peers_self, PeerConfig.configure_keepalive]
      · rw [if_neg hvalid, Device.setPeer_peers_self] at hadded
        exact absurd hadded hvalid

/-- In every state of the port the peer has the interval of its entry. -/
theorem keepalive_of_run {env : Env cfg} {probe key : Key} {before after : List PeerConfig}
    {pc : PeerConfig} {d : Device cfg} {n m : Netdev cfg} {x : Fin cfg.maxPeers}
    {ts : List (Taken (Netdev cfg) (Event cfg))} (hd : wireguardDeviceInit c env key = some d)
    (hn : wgInitialize c env probe key (before ++ pc :: after) = some n)
    (hfilled : FilledFrom c d before pc x) (hrun : Run (step c) n ts m) :
    (m.peer x).keepaliveInterval = pc.keepalive := by
  have hstart : (n.peer x).keepaliveInterval = pc.keepalive := by
    unfold wgInitialize at hn
    split at hn
    · cases hn
    · rw [hd] at hn
      cases hn
      show (wgIfupPeer _).keepaliveInterval = _
      unfold wgIfupPeer
      split
      · exact hfilled.keepalive c after
      · exact hfilled.keepalive c after
  exact (hrun.invariant (I := fun k => (k.peer x).keepaliveInterval = pc.keepalive) hstart
    fun k _ hs hk => (congrArg Setup.keepaliveInterval (step_setup (x := x) c hs).1).trans hk).1

variable {c}

theorem findPeer_set {peers : List StagedPeer} {text : Text} {i : ℕ} {tmp : StagedPeer}
    (h : findPeer peers text = some i) (htmp : tmp.publicKey = text) :
    findPeer (peers.set i tmp) text = some i := by
  obtain ⟨hlt, -, hbefore⟩ := List.findIdx?_eq_some_iff_getElem.mp h
  refine List.findIdx?_eq_some_iff_getElem.mpr ⟨by rwa [List.length_set], ?_, ?_⟩
  · rw [List.getElem_set_self, htmp]
    exact decide_eq_true rfl
  · intro j hj
    rw [List.getElem_set_ne (by omega)]
    exact hbefore j hj

theorem findPeer_append {peers : List StagedPeer} {text : Text} {tmp : StagedPeer}
    (h : findPeer peers text = none) (htmp : tmp.publicKey = text) :
    findPeer (peers ++ [tmp]) text = some peers.length := by
  unfold findPeer at h ⊢
  rw [List.findIdx?_append, h, List.findIdx?_singleton, htmp]
  simp

/-- **An accepted set stages its keepalive.** -/
theorem wgSetPeer_keepalive {kc : Kconfig} {maxPeers : ℕ} {registered : Bool} {st st' : Staged}
    {text : Text} {endpoint allowed : Option Text} {keepalive : BitVec 32}
    (hset : wgSetPeer kc maxPeers registered st (some text) endpoint allowed keepalive = .ok st')
    (hge : keepalive.toInt ≥ 0) : ∃ i entry, findPeer st'.peers text = some i ∧
      st'.peers[i]? = some entry ∧ entry.keepalive = keepalive := by
  obtain ⟨hready, g, hg⟩ := wgSetPeer_accepted hset
  obtain ⟨st'', text', htext, hset', -, tmp, htmp, hstages⟩ := wgSetPeer_stages kc hready hg
  obtain rfl : text = text' := Option.some.inj htext
  obtain rfl : st'' = st' := Except.ok.inj (hset'.symm.trans hset)
  have hgiven : g.keepalive = some keepalive := by
    rw [(givenOf_eq.mp hg).2.2, if_pos hge]
  have hkeepalive : ∀ s : Settings, tmp.settings = s.update g → tmp.keepalive = keepalive := by
    intro s hs
    have hk := congrArg Settings.keepalive hs
    unfold StagedPeer.settings Settings.update at hk
    dsimp only at hk
    rw [hgiven, Option.some_or] at hk
    split at hk
    · exact Option.some.inj hk
    · cases hk
  rcases hstages with ⟨i, p, hfind, hp, hsettings, hpeers⟩ | ⟨hfind, hsettings, hpeers⟩
  · have hlt := (List.getElem?_eq_some_iff.mp hp).1
    refine ⟨i, tmp, ?_, ?_, hkeepalive _ hsettings⟩
    · rw [hpeers]
      exact findPeer_set hfind htmp
    · rw [hpeers, List.getElem?_set_self hlt]
  · refine ⟨st.peers.length, tmp, ?_, ?_, hkeepalive _ hsettings⟩
    · rw [hpeers]
      exact findPeer_append hfind htmp
    · rw [hpeers, List.getElem?_concat_length]

/-- An entry for a keepalive of `seconds`: its interval is sound, and so is that of every peer
made from it, whatever the port does. -/
structure EntrySound (kc : Kconfig) (entry : StagedPeer) (seconds : ℕ) : Prop where
  interval : KeepaliveSound seconds (entry.config kc).keepalive
  peers : ∀ {cfg : Config} (c : Crypto) (env : Env cfg) (probe key : Key)
    (before after : List PeerConfig) (d : Device cfg) (n m : Netdev cfg) (x : Fin cfg.maxPeers)
    (ts : List (Taken (Netdev cfg) (Event cfg))), wireguardDeviceInit c env key = some d →
    wgInitialize c env probe key (before ++ entry.config kc :: after) = some n →
    FilledFrom c d before (entry.config kc) x → Run (step c) n ts m →
    KeepaliveSound seconds (m.peer x).keepaliveInterval

/-- A set that is accepted and gives a keepalive leaves a sound entry. -/
def KeepaliveKept (kc : Kconfig) (maxPeers : ℕ) (registered : Bool) (st : Staged)
    (pubkey endpoint allowed : Option Text) (keepalive : BitVec 32) : Prop :=
  ∀ st' text i entry, pubkey = some text →
    wgSetPeer kc maxPeers registered st pubkey endpoint allowed keepalive = .ok st' →
    keepalive.toInt ≥ 0 → findPeer st'.peers text = some i → st'.peers[i]? = some entry →
    EntrySound kc entry keepalive.toInt.toNat

/-- The port's interval is the low half of the `int`. -/
theorem config_keepalive {kc : Kconfig} {entry : StagedPeer} (h : entry.keepalive.toInt ≥ 0) :
    (entry.config kc).keepalive = entry.keepalive.setWidth 16 := by
  unfold StagedPeer.config
  dsimp only
  rw [if_pos h]

/-- So 65561 seconds become 25. -/
example (kc : Kconfig) : ((Sample.named 'A' 65561).config kc).keepalive = 25 :=
  config_keepalive (by decide)

theorem entrySound_of_le {kc : Kconfig} {entry : StagedPeer} (hge : entry.keepalive.toInt ≥ 0)
    (hle : entry.keepalive.toInt ≤ 175) : EntrySound kc entry entry.keepalive.toInt.toNat := by
  have hnat : entry.keepalive.toInt.toNat = (entry.config kc).keepalive.toNat := by
    rw [config_keepalive hge, BitVec.toNat_setWidth]
    have hlt := entry.keepalive.isLt
    rw [BitVec.toInt_eq_toNat_cond] at hge hle ⊢
    split at hge <;> split at hle <;> split <;> omega
  have hsound : KeepaliveSound entry.keepalive.toInt.toNat (entry.config kc).keepalive := by
    rw [hnat]
    exact keepaliveSound_of_le (by omega)
  refine ⟨hsound, ?_⟩
  intro cfg c env probe key before after d n m x ts hd hn hfilled hrun
  rw [keepalive_of_run c hd hn hfilled hrun]
  exact hsound

theorem keepaliveKept_iff (kc : Kconfig) (maxPeers : ℕ) (registered : Bool) (st : Staged)
    (pubkey endpoint allowed : Option Text) (keepalive : BitVec 32) :
    KeepaliveKept kc maxPeers registered st pubkey endpoint allowed keepalive ↔
      ((∃ st', wgSetPeer kc maxPeers registered st pubkey endpoint allowed keepalive = .ok st') →
        keepalive.toInt ≤ 175) := by
  constructor
  · rintro h ⟨st', hset⟩
    obtain ⟨⟨-, text, -, rfl, -⟩, -⟩ := wgSetPeer_accepted hset
    by_cases hge : keepalive.toInt ≥ 0
    · obtain ⟨i, entry, hfind, hentry, -⟩ := wgSetPeer_keepalive hset hge
      have hle := (h st' text i entry rfl hset hge hfind hentry).interval.le
      omega
    · omega
  · intro hle st' text i entry hpubkey hset hge hfind hentry
    subst hpubkey
    obtain ⟨i', entry', hfind', hentry', hkeepalive⟩ := wgSetPeer_keepalive hset hge
    obtain rfl : i = i' := Option.some.inj (hfind.symm.trans hfind')
    obtain rfl : entry = entry' := Option.some.inj (hentry.symm.trans hentry')
    rw [← hkeepalive] at hge hle ⊢
    exact entrySound_of_le hge (hle ⟨st', hkeepalive ▸ hset⟩)

end Flat

/-! ### The in-kernel driver -/

namespace Kernel

variable {cfg : Config} {c : Crypto} {n : Netdev cfg} {req : PeerReq}

/-- A request that succeeds and has a keepalive leaves its peer with a sound interval, whatever
traffic does then. -/
def KeepaliveKept (c : Crypto) (n : Netdev cfg) (req : PeerReq) : Prop :=
  ∀ x m (ts : List (Taken (Netdev cfg) (Event cfg))), (wgSetPeer c n req).2 = none →
    req.has wgPeerHasKeepalive = true → req.target n = some x →
    Run (step c) (wgSetPeer c n req).1 ts m → (∀ k ∈ ts, k.event.traffic = true) →
    KeepaliveSound req.keepalive.toNat (m.peer x).keepaliveInterval

/-- **A request that succeeds stores its keepalive.** -/
theorem wgSetPeer_keepalive (hok : (wgSetPeer c n req).2 = none)
    (hkeepalive : req.has wgPeerHasKeepalive = true) : ∃ x, req.target n = some x ∧
      ((wgSetPeer c n req).1.peer x).keepaliveInterval = req.keepalive := by
  have happly : ∀ created allowed p,
      (applyPeerReq n req created allowed p).keepaliveInterval = req.keepalive := by
    intro created allowed p
    have hsetup := congrArg Setup.keepaliveInterval (applyPeerReq_setup n req created allowed p)
    exact hsetup.trans (if_pos hkeepalive)
  rcases wgSetPeer_outcomes c n req with ⟨err, h⟩ | ⟨x, allowed, -, -, ⟨hself, h⟩ |
    ⟨hself, halloc, -, h⟩ | ⟨hself, halloc, -, h⟩⟩
  · rw [h] at hok
    cases hok
  · refine ⟨x, by unfold PeerReq.target; rw [hself]; rfl, ?_⟩
    rw [h, setPeer_peer_self]
    exact happly _ _ _
  · refine ⟨x, by unfold PeerReq.target; rw [hself, halloc]; rfl, ?_⟩
    rw [h, setPeer_peer_self]
    exact happly _ _ _
  · rw [h] at hok
    cases hok

/-- Traffic leaves it. -/
theorem keepalive_of_traffic {m : Netdev cfg} {ts : List (Taken (Netdev cfg) (Event cfg))}
    (hrun : Run (step c) n ts m) (htraffic : ∀ k ∈ ts, k.event.traffic = true)
    (x : Fin cfg.maxPeers) : (m.peer x).keepaliveInterval = (n.peer x).keepaliveInterval :=
  (hrun.invariant (I := fun k => (k.peer x).keepaliveInterval = (n.peer x).keepaliveInterval) rfl
    fun k hk hs hbefore => (congrArg Setup.keepaliveInterval
      ((step_carried c (htraffic k hk) hs).device.setup x)).trans hbefore).1

theorem keepaliveKept_iff (c : Crypto) (n : Netdev cfg) (req : PeerReq) :
    KeepaliveKept c n req ↔ ((wgSetPeer c n req).2 = none → req.has wgPeerHasKeepalive = true →
      req.keepalive.toNat ≤ 175) := by
  constructor
  · intro h hok hkeepalive
    obtain ⟨x, htarget, -⟩ := wgSetPeer_keepalive hok hkeepalive
    exact (h x _ [] hok hkeepalive htarget .nil (by simp)).le
  · intro h x m ts hok hkeepalive htarget hrun htraffic
    obtain ⟨y, htarget', hinterval⟩ := wgSetPeer_keepalive hok hkeepalive
    obtain rfl : x = y := Option.some.inj (htarget.symm.trans htarget')
    rw [keepalive_of_traffic hrun htraffic, hinterval]
    exact keepaliveSound_of_le (h hok hkeepalive)

end Kernel

/-- **A keepalive that is accepted is kept and leaves both deadlines sound exactly up to 175
seconds**, on the flat port and in the driver. -/
theorem keepalive_iff (kc : Flat.Kconfig) (maxPeers : ℕ) (registered : Bool) (st : Flat.Staged)
    (pubkey endpoint allowed : Option Text) (keepalive : BitVec 32) (c : Crypto)
    (n : Kernel.Netdev cfg) (req : Kernel.PeerReq) :
    (Flat.KeepaliveKept kc maxPeers registered st pubkey endpoint allowed keepalive ↔
      ((∃ st', Flat.wgSetPeer kc maxPeers registered st pubkey endpoint allowed keepalive
        = .ok st') → keepalive.toInt ≤ 175)) ∧
    (Kernel.KeepaliveKept c n req ↔ ((Kernel.wgSetPeer c n req).2 = none →
      req.has Kernel.wgPeerHasKeepalive = true → req.keepalive.toNat ≤ 175)) :=
  ⟨Flat.keepaliveKept_iff kc maxPeers registered st pubkey endpoint allowed keepalive,
    Kernel.keepaliveKept_iff c n req⟩

/-- A request for the sample's first peer with a keepalive. -/
def Sample.keepaliveReq (seconds : U16) : Kernel.PeerReq :=
  { Kernel.Sample.firstReq none with
    flags := Kernel.wgPeerHasKeepalive
    keepalive := seconds
    naips := 0 }

/-- Neither keeps a keepalive of 200 seconds. -/
theorem not_keepaliveKept :
    (¬∀ (kc : Flat.Kconfig) (maxPeers : ℕ) (registered : Bool) (st : Flat.Staged)
      (pubkey endpoint allowed : Option Text) (keepalive : BitVec 32),
      Flat.KeepaliveKept kc maxPeers registered st pubkey endpoint allowed keepalive) ∧
    ¬∀ (cfg : Config) (c : Crypto) (n : Kernel.Netdev cfg) (req : Kernel.PeerReq),
      Kernel.ReachableState c n → Kernel.KeepaliveKept c n req := by
  constructor
  · intro hall
    have hset : Flat.wgSetPeer (Flat.Sample.build []) 1 false Flat.Staged.empty
        (some (Flat.Sample.zeroText 'A')) none none 200
          = .ok ⟨[], [Flat.Sample.named 'A' 200]⟩ := by decide +kernel
    have hle := (Flat.keepaliveKept_iff _ _ _ _ _ _ _ _).mp (hall _ _ _ _ _ _ _ _) ⟨_, hset⟩
    exact absurd hle (by decide)
  · intro hall
    obtain ⟨n, hn, hrun⟩ := Kernel.Sample.exists_reachable [Kernel.Sample.setKey 1000]
      (fun n => decide ((Kernel.wgSetPeer Crypto.plain n (Sample.keepaliveReq 200)).2 = none))
      (by decide +kernel)
    have hle := (Kernel.keepaliveKept_iff Crypto.plain n _).mp (hall _ _ _ _ hn)
      (of_decide_eq_true hrun) (by decide)
    exact absurd hle (by decide)

end NuttxWireguard
