/-
The cookie exchange between two ports.

A port under load answers an initiation that carries no mac2 with a cookie: the MAC of the
source it came from under a secret of its own, sealed with a key both ends know and with the
mac1 of the initiation.  The other end opens it and starts the handshake again; until the
cookie is too old, its initiations carry a mac2 under it.

The two ends compute the same MACs because each keeps the keys that go with the other's
public key.  What can go wrong is the way back: the reply names the initiation by its index,
and the lookup takes the first peer of the table that waits under this index
(`cookie_exchange`).
-/
import NuttxWireguard.Flat.Demux
import NuttxWireguard.Flat.Load
import NuttxWireguard.Flat.Retries

namespace NuttxWireguard

open Lib

/-- The cookie AEAD decrypts what it encrypted. -/
def Crypto.XaeadCorrect (c : Crypto) : Prop :=
  ∀ src ad nonce key, c.xaeadDecrypt (c.xaeadEncrypt src ad nonce key) ad nonce key = some src

namespace Flat

variable {cfg : Config} (c : Crypto) (env : Env cfg) {x : Fin cfg.maxPeers}

/-! ### The keys behind the MACs -/

/-- The keys for MACs and cookies belong to the public keys: the port's own and, where there is
a peer, the peer's. -/
structure LabelledAt (x : Fin cfg.maxPeers) (n : Netdev cfg) : Prop where
  mac1 : n.wg.labelMac1Key = c.macKey n.wg.publicKey Crypto.labelMac1
  cookie : n.wg.labelCookieKey = c.macKey n.wg.publicKey Crypto.labelCookie
  peer : (n.peer x).valid = true →
    (n.peer x).labelMac1Key = c.macKey (n.peer x).publicKey Crypto.labelMac1 ∧
      (n.peer x).labelCookieKey = c.macKey (n.peer x).publicKey Crypto.labelCookie

/-- What a step leaves as it was, as far as `x` is concerned. -/
structure Leaves (x : Fin cfg.maxPeers) (n m : Netdev cfg) : Prop where
  setup : (m.peer x).setup = (n.peer x).setup
  labels : m.labels = n.labels
  cookie : (m.peer x).cookie = (n.peer x).cookie
  cookieMillis : (m.peer x).cookieMillis = (n.peer x).cookieMillis

theorem KeptAt.leaves {n m : Netdev cfg} (h : KeptAt x n m) : Leaves x n m :=
  ⟨h.kept.setup, h.labels, h.kept.stored, h.kept.cookie⟩

theorem Called.leaves {n m : Netdev cfg} {time : Nat} (h : Called x time n m) : Leaves x n m :=
  ⟨h.setup, h.labels, h.stored, h.cookie⟩

/-- The port that has stored the cookie it was sent for `x`. -/
def cookieStored (n : Netdev cfg) (x : Fin cfg.maxPeers) (p : Peer cfg) : Netdev cfg :=
  (n.observe (.cookieAccepted x)).setPeer x p

theorem processCookie_eq {now : U32} {p q : Peer cfg} {msg : MsgCookie}
    (h : processCookie c now p msg = some q) : ∃ cookie,
      c.xaeadDecrypt msg.encCookie.toList p.handshakeMac1.toList msg.nonce p.labelCookieKey
        = some cookie ∧
      q = { p with cookie := slice cookie 0 16, cookieMillis := now, handshakeMac1Valid := false } := by
  unfold processCookie at h
  split at h
  · cases h
  · split at h
    · cases h
    · rename_i cookie hcookie
      cases h
      exact ⟨cookie, hcookie, rfl⟩

/-- A cookie that comes for `x` in this step. -/
def CookieComes (x : Fin cfg.maxPeers) (k : Taken (Netdev cfg) (Event cfg)) : Prop :=
  ∃ env data addr port, k.event.received = some (env, data, addr, port) ∧
    CookieAccepted c k.before data x

/-- **What a step leaves**: all of it, unless a cookie comes for `x`. -/
theorem step_leaves {n n' : Netdev cfg} {e : Event cfg} (h : step c n e = some n') :
    Leaves x n n' ∨ ∃ env data addr port p, e.received = some (env, data, addr, port) ∧
      CookieAccepted c n data x ∧
      processCookie c env.now (n.peer x) (MsgCookie.parse data) = some p ∧
      Leaves x (cookieStored n x p) n' := by
  cases e with
  | rx env data addr port =>
      simp only [step] at h
      split at h
      · cases h
        exact Or.inl (KeptAt.refl n).leaves
      · rcases wgProcessUdpPacket_calls (x := x) c env h with
          hkept | ⟨hcookie, p, hp, hkept | hcalled⟩
        · exact Or.inl hkept.leaves
        · exact Or.inr ⟨env, _, addr, port, p, rfl, hcookie, hp, hkept.leaves⟩
        · exact Or.inr ⟨env, _, addr, port, p, rfl, hcookie, hp, hcalled.leaves⟩
  | timers env =>
      rcases wgRunTimers_calls c env h x with hkept | ⟨hcalled, -⟩
      · exact Or.inl hkept.leaves
      · exact Or.inl hcalled.leaves
  | txpoll env packet =>
      cases h
      split
      · exact Or.inl (wgTxpoll_kept c env n packet).leaves
      · exact Or.inl (KeptAt.refl n).leaves
  | ifup =>
      cases h
      exact Or.inl (wgIfup_kept n).leaves
  | ifdown =>
      cases h
      exact Or.inl (wgIfdown_kept n).leaves

/-- The setup of `x` and the labels stay in every step. -/
theorem step_setup {n n' : Netdev cfg} {e : Event cfg} (h : step c n e = some n') :
    (n'.peer x).setup = (n.peer x).setup ∧ n'.labels = n.labels := by
  rcases step_leaves (x := x) c h with hleaves | ⟨env, data, addr, port, p, -, -, hp, hleaves⟩
  · exact ⟨hleaves.setup, hleaves.labels⟩
  · refine ⟨hleaves.setup.trans ?_, hleaves.labels⟩
    obtain ⟨cookie, -, rfl⟩ := processCookie_eq c hp
    unfold cookieStored
    rw [setPeer_peer_self]
    rfl

theorem LabelledAt.of_same {n m : Netdev cfg} (h : LabelledAt c x n)
    (hsetup : (m.peer x).setup = (n.peer x).setup) (hlabels : m.labels = n.labels) :
    LabelledAt c x m := by
  have hpublic : m.wg.publicKey = n.wg.publicKey := congrArg Labels.publicKey hlabels
  have hmac1 : m.wg.labelMac1Key = n.wg.labelMac1Key := congrArg Labels.labelMac1Key hlabels
  have hcookie : m.wg.labelCookieKey = n.wg.labelCookieKey :=
    congrArg Labels.labelCookieKey hlabels
  have hvalid : (m.peer x).valid = (n.peer x).valid := congrArg Setup.valid hsetup
  have hkey : (m.peer x).publicKey = (n.peer x).publicKey := congrArg Setup.publicKey hsetup
  have hpmac1 : (m.peer x).labelMac1Key = (n.peer x).labelMac1Key :=
    congrArg Setup.labelMac1Key hsetup
  have hpcookie : (m.peer x).labelCookieKey = (n.peer x).labelCookieKey :=
    congrArg Setup.labelCookieKey hsetup
  refine ⟨?_, ?_, ?_⟩
  · rw [hmac1, hpublic]
    exact h.mac1
  · rw [hcookie, hpublic]
    exact h.cookie
  · rw [hvalid, hpmac1, hpcookie, hkey]
    exact h.peer

/-- What holds of `x` as soon as there is a peer, and is not read off the record that is not
one. -/
def Labelled (p : Peer cfg) : Prop :=
  p.valid = true → p.labelMac1Key = c.macKey p.publicKey Crypto.labelMac1 ∧
    p.labelCookieKey = c.macKey p.publicKey Crypto.labelCookie

theorem wireguardPeerInit_labelled (d : Device cfg) (publicKey : Key) :
    Labelled c (wireguardPeerInit c d publicKey none) := by
  unfold wireguardPeerInit
  split
  · intro hvalid
    cases hvalid
  · dsimp only
    split
    · intro hvalid
      cases hvalid
    · exact fun _ => ⟨rfl, rfl⟩

theorem Initial.labelledAt {n : Netdev cfg} (h : Initial c n) : LabelledAt c x n := by
  have hpeer := h.each c (P := Labelled c) (by intro hvalid; cases hvalid)
    (wireguardPeerInit_labelled c)
    (fun pc p hp => by
      unfold PeerConfig.configure
      dsimp only
      split <;> exact hp)
    (fun p hp => by
      unfold wgIfupPeer
      split <;> exact hp) x
  obtain ⟨env, probe, key, pcs, h⟩ := h
  unfold wgInitialize at h
  split at h
  · cases h
  split at h
  · cases h
  rename_i d hd
  cases h
  obtain ⟨peers, hpeers⟩ := wgAddPeers_device c pcs d
  unfold wireguardDeviceInit at hd
  split at hd
  · cases hd
  cases hd
  refine ⟨?_, ?_, hpeer⟩
  · show (pcs.foldl (wgAddPeer c) _).labelMac1Key
      = c.macKey (pcs.foldl (wgAddPeer c) _).publicKey Crypto.labelMac1
    rw [hpeers]
  · show (pcs.foldl (wgAddPeer c) _).labelCookieKey
      = c.macKey (pcs.foldl (wgAddPeer c) _).publicKey Crypto.labelCookie
    rw [hpeers]

/-- **The keys for MACs and cookies belong to the public keys** in every reachable state. -/
theorem ReachableState.labelledAt {n : Netdev cfg} (h : ReachableState c n)
    (x : Fin cfg.maxPeers) : LabelledAt c x n :=
  Reachable.invariant h (fun _ hn => hn.labelledAt c) fun _ _ _ hs hn =>
    let hsame := step_setup (x := x) c hs
    hn.of_same c hsame.1 hsame.2

/-! ### Where a handshake is started -/

/-- In the step on an event `wg_start_handshake` is called for `x`, with the port as it is then. -/
inductive Starts (n : Netdev cfg) (x : Fin cfg.maxPeers) : Event cfg → Env cfg → Netdev cfg → Prop
  /-- A cookie came. -/
  | retry {env : Env cfg} {data : List Byte} {addr : U32} {port : U16} {p : Peer cfg}
      (hcookie : CookieAccepted c n (data.take wgMaxPacket) x)
      (hp : processCookie c env.now (n.peer x) (MsgCookie.parse (data.take wgMaxPacket)) = some p) :
      Starts n x (.rx env data addr port) env (cookieStored n x p)
  /-- A handshake is due, after the timers have seen to the peers before. -/
  | timer {env : Env cfg} {seen rest : List (Fin cfg.maxPeers)} {m : Netdev cfg}
      (hsplit : List.finRange cfg.maxPeers = seen ++ x :: rest)
      (hm : seen.foldlM (wgRunTimersPeer c env) n = some m) (hvalid : (m.peer x).valid = true)
      (hdue : shouldInitiate env.now ((timersBeforeHandshake c env m x).peer x) = true) :
      Starts n x (.timers env) env (timersBeforeHandshake c env m x)

/-- The initiation that is sent there. -/
def Initiates (m : Netdev cfg) (x : Fin cfg.maxPeers) (msg : MsgInit) : Prop :=
  ∃ wg, wireguardCreateHandshakeInitiation c env m.wg x = some (wg, some msg)

/-- The timers leave `x` as it was until it is its turn. -/
theorem timersBeforeHandshake_kept {n m : Netdev cfg} {seen rest : List (Fin cfg.maxPeers)}
    (hsplit : List.finRange cfg.maxPeers = seen ++ x :: rest)
    (hm : seen.foldlM (wgRunTimersPeer c env) n = some m) :
    KeptAt x n (timersBeforeHandshake c env m x) := by
  have hnodup : (seen ++ x :: rest).Nodup := hsplit ▸ List.nodup_finRange _
  have hnot : x ∉ seen := fun hx =>
    (List.nodup_append.mp hnodup).2.2 x hx x List.mem_cons_self rfl
  have hseen : KeptAt x n m := by
    clear hsplit hnodup
    induction seen generalizing n with
    | nil =>
        cases hm
        exact .refl _
    | cons y seen ih =>
        obtain ⟨k, hy, hrest⟩ := Option.bind_eq_some_iff.mp (List.foldlM_cons.symm.trans hm)
        have hne : x ≠ y := fun heq => hnot (heq ▸ List.mem_cons_self)
        have hrestnot : x ∉ seen := fun hx => hnot (List.mem_cons_of_mem _ hx)
        rcases wgRunTimersPeer_calls (x := x) c env hy with hkept | ⟨heq, -⟩
        · exact hkept.trans (ih hrest hrestnot)
        · exact absurd heq hne
  have hexpire : KeptAt x m (m.setPeer x (wgExpirePeer env.now (m.peer x))) :=
    .setPeer m (.wgExpirePeer env.now _)
  unfold timersBeforeHandshake
  dsimp only
  split
  · exact (hseen.trans hexpire).trans (wgEncryptAndSend_kept c env _ x [])
  · exact hseen.trans hexpire

/-- An initiation is signed with what the peer's record holds. -/
theorem Initiates.signed {m : Netdev cfg} {msg : MsgInit} (h : Initiates c env m x msg) :
    ∃ sender ephemeral enc, msg = signInit c env.now (m.peer x) sender ephemeral enc := by
  obtain ⟨wg, h⟩ := h
  unfold wireguardCreateHandshakeInitiation at h
  dsimp only at h
  split at h
  · cases h
  · split at h
    · cases h
    · split at h
      · cases h
      · cases h
        exact ⟨_, _, _, rfl⟩

/-! ### The reply -/

/-- An initiation passes mac1 and is refused, which takes load and no valid mac2. -/
def RefusedForLoad (n : Netdev cfg) (data : List Byte) (addr : U32) (port : U16) : Prop :=
  InitiationCounted c n data ∧ ¬InitiationAdmitted c env n data addr port

/-- The cookie for a source. -/
def cookieFor (n : Netdev cfg) (addr : U32) (port : U16) : Bytes 16 :=
  c.mac (sourceBytes addr port) n.wg.cookieSecret.toList

/-- The cookie reply to an initiation, from the port as it is then. -/
def cookieReply (n : Netdev cfg) (msg : MsgInit) (addr : U32) (port : U16) : MsgCookie where
  receiver := msg.sender
  nonce := env.cookieNonce
  encCookie := slice (c.xaeadEncrypt (cookieFor c n addr port).toList msg.mac1.toList
    env.cookieNonce n.wg.labelCookieKey) 0 32

/-- The secret that was just looked at is not renewed. -/
theorem peerCookie_peerCookie (now : U32) (secret : Key) (d : Device cfg) (source : List Byte) :
    peerCookie c now secret (peerCookie c now secret d source).1 source
      = peerCookie c now secret d source := by
  have hnow : expired now now cookieSecretMaxAge = false := by
    unfold expired
    rw [BitVec.sub_self]
    decide
  unfold peerCookie
  dsimp only
  by_cases hold : expired now d.cookieSecretMillis cookieSecretMaxAge = true
  · rw [if_pos hold, if_neg (by rw [hnow]; exact Bool.false_ne_true)]
  · rw [if_neg hold, if_neg hold]

/-- **What a port under load answers**: its cookie for the source. -/
theorem RefusedForLoad.answered {n : Netdev cfg} {msg : MsgInit} {addr : U32} {port : U16}
    (h : RefusedForLoad c env n msg.bytes addr port) :
    ∃ n', wgProcessUdpPacket c env n msg.bytes addr port = some n' ∧ n'.labels = n.labels ∧
      n'.sent = n.sent ++ [⟨(cookieReply c env n' msg addr port).bytes, addr, port⟩] := by
  obtain ⟨hcounted, hrefused⟩ := h
  have hload : (wgUnderLoad env n).2 = true := by
    by_contra hnot
    exact hrefused ⟨hcounted.1, hcounted.2, Or.inl (by simpa using hnot)⟩
  have hchecked : initiationChecked c env n msg.bytes addr port = { (wgUnderLoad env n).1 with
      wg := (peerCookie c env.now env.cookieSecret n.wg (sourceBytes addr port)).1 } := if_pos hload
  have hsent : (wgUnderLoad env n).1.sent = n.sent := by
    unfold wgUnderLoad
    dsimp only
    split <;> rfl
  have hlabels : ∀ d : Device cfg, ∃ secret millis,
      (peerCookie c env.now env.cookieSecret d (sourceBytes addr port)).1
        = { d with cookieSecret := secret, cookieSecretMillis := millis } := by
    intro d
    unfold peerCookie
    dsimp only
    split
    · exact ⟨_, _, rfl⟩
    · exact ⟨d.cookieSecret, d.cookieSecretMillis, rfl⟩
  obtain ⟨secret, millis, hrenewed⟩ := hlabels n.wg
  refine ⟨wgSendCookieReply c env (initiationChecked c env n msg.bytes addr port)
    (MsgInit.parse msg.bytes).mac1 (MsgInit.parse msg.bytes).sender addr port, ?_, ?_, ?_⟩
  · rw [wgProcessUdpPacket_counted c env addr port hcounted, if_neg hrefused]
  · rw [hchecked]
    unfold wgSendCookieReply wireguardCreateCookieReply Netdev.labels psockSendto
    dsimp only
    rw [peerCookie_peerCookie, hrenewed]
  · rw [hchecked, MsgInit.parse_bytes]
    unfold wgSendCookieReply wireguardCreateCookieReply cookieReply cookieFor psockSendto
    dsimp only
    rw [peerCookie_peerCookie, hsent]
    rfl

/-! ### The way back -/

/-- The lookup of handshakes takes the first peer that waits under the index. -/
theorem peerByHandshake_iff {d : Device cfg} {receiver : U32} :
    peerByHandshake d receiver = some x ↔ Awaits d x receiver ∧ ∀ y < x, ¬Awaits d y receiver := by
  have hawaits : ∀ y, ((d.peers y).valid && (d.peers y).handshake.valid &&
      (d.peers y).handshake.initiator && decide ((d.peers y).handshake.localIndex = receiver))
      = true ↔ Awaits d y receiver := by
    intro y
    unfold Awaits
    simp only [Bool.and_eq_true, decide_eq_true_eq, and_assoc]
  unfold peerByHandshake
  rw [find?_finRange_eq_some_iff]
  dsimp only
  rw [hawaits x]
  refine and_congr_right fun _ => forall₂_congr fun y _ => ?_
  rw [← Bool.not_eq_true, hawaits y]

/-- The initiation `msg` is the last one sent to `x`, and `x` has not answered it. -/
structure Outstanding (n : Netdev cfg) (x : Fin cfg.maxPeers) (msg : MsgInit) : Prop where
  awaits : Awaits n.wg x msg.sender
  awaited : (n.peer x).handshakeMac1Valid = true
  mac1 : (n.peer x).handshakeMac1 = msg.mac1

/-- The initiation gets to the handshake, under load or not. -/
structure Reaches (n : Netdev cfg) (msg : MsgInit) (addr : U32) (port : U16) : Prop where
  mac2 : mac2Valid c env n msg.bytes addr port = true
  handed : wgProcessUdpPacket c env n msg.bytes addr port
    = wgProcessInitiation c env (initiationChecked c env n msg.bytes addr port) msg addr port

end Flat

/-! ### Both ends -/

namespace Flat

variable {cfgA cfgB : Config} (c : Crypto) {a : Netdev cfgA} {b b' : Netdev cfgB}
  {x : Fin cfgA.maxPeers} {y : Fin cfgB.maxPeers} {msg : MsgInit} {addr : U32} {port : U16}

/-- Each of the two ports is a peer of the other. -/
structure Faces (a : Netdev cfgA) (x : Fin cfgA.maxPeers) (b : Netdev cfgB)
    (y : Fin cfgB.maxPeers) : Prop where
  there : (a.peer x).valid = true ∧ (a.peer x).publicKey = b.wg.publicKey
  back : (b.peer y).valid = true ∧ (b.peer y).publicKey = a.wg.publicKey

/-- The two ends compute MACs with the same keys. -/
theorem Faces.labels (ha : ReachableState c a) (hb : ReachableState c b) (h : Faces a x b y) :
    (a.peer x).labelMac1Key = b.wg.labelMac1Key ∧
      (a.peer x).labelCookieKey = b.wg.labelCookieKey := by
  obtain ⟨hvalid, hkey⟩ := h.there
  obtain ⟨hmac1, hcookie⟩ := (ha.labelledAt c x).peer hvalid
  have hlabelled := hb.labelledAt c y
  rw [hmac1, hcookie, hlabelled.mac1, hlabelled.cookie, hkey]
  exact ⟨rfl, rfl⟩

/-- The reply opens for the peer its initiation was sent to. -/
theorem Outstanding.opens (haead : c.XaeadCorrect) (envB : Env cfgB) (hout : Outstanding a x msg)
    (hlabel : (a.peer x).labelCookieKey = b'.wg.labelCookieKey) :
    c.xaeadDecrypt (cookieReply c envB b' msg addr port).encCookie.toList
        (a.peer x).handshakeMac1.toList envB.cookieNonce (a.peer x).labelCookieKey
      = some (cookieFor c b' addr port).toList := by
  have hsealed : (cookieReply c envB b' msg addr port).encCookie.toList
      = c.xaeadEncrypt (cookieFor c b' addr port).toList msg.mac1.toList envB.cookieNonce
          b'.wg.labelCookieKey := by
    have hlen := c.xaeadEncrypt_length (cookieFor c b' addr port).toList msg.mac1.toList
      envB.cookieNonce b'.wg.labelCookieKey
    rw [(cookieFor c b' addr port).toList_length] at hlen
    have hfield : ∀ (l : List Byte) (h : l.length = 32), (slice l 0 32 : Bytes 32).toList = l :=
      fun l h => congrArg List.Vector.toList (slice_toList (⟨l, h⟩ : Bytes 32))
    exact hfield _ hlen
  rw [hsealed, hout.mac1, hlabel]
  exact haead _ _ _ _

/-- **The reply is accepted exactly when no peer before waits under the same index.** -/
theorem Outstanding.accepted_iff (haead : c.XaeadCorrect) (envB : Env cfgB)
    (hout : Outstanding a x msg) (hlabel : (a.peer x).labelCookieKey = b'.wg.labelCookieKey) :
    CookieAccepted c a (cookieReply c envB b' msg addr port).bytes x ↔
      ∀ y < x, ¬Awaits a.wg y msg.sender := by
  constructor
  · intro h
    have hpending := h.pending
    rw [MsgCookie.parse_bytes] at hpending
    exact (peerByHandshake_iff.mp hpending).2
  · intro hfirst
    refine ⟨MsgCookie.messageType_bytes _, ?_, hout.awaited, ?_⟩
    · rw [MsgCookie.parse_bytes]
      exact peerByHandshake_iff.mpr ⟨hout.awaits, hfirst⟩
    · rw [MsgCookie.parse_bytes]
      show (c.xaeadDecrypt _ _ envB.cookieNonce _).isSome = true
      rw [hout.opens c haead envB hlabel]
      rfl

/-- What the record of `x` holds after it. -/
structure Holds (n : Netdev cfgA) (x : Fin cfgA.maxPeers) (cookie : Bytes 16) (millis : U32)
    (label : Key) : Prop where
  cookie : (n.peer x).cookie = cookie
  cookieMillis : (n.peer x).cookieMillis = millis
  labelMac1Key : (n.peer x).labelMac1Key = label

theorem Holds.leaves {n m : Netdev cfgA} {cookie : Bytes 16} {millis : U32} {label : Key}
    (h : Holds n x cookie millis label) (hleaves : Leaves x n m) :
    Holds m x cookie millis label where
  cookie := hleaves.cookie.trans h.cookie
  cookieMillis := hleaves.cookieMillis.trans h.cookieMillis
  labelMac1Key := (congrArg Setup.labelMac1Key hleaves.setup).trans h.labelMac1Key

theorem Outstanding.stored (haead : c.XaeadCorrect) (envB : Env cfgB) (hout : Outstanding a x msg)
    (hlabel : (a.peer x).labelCookieKey = b'.wg.labelCookieKey) {env : Env cfgA}
    {p : Peer cfgA} (hp : processCookie c env.now (a.peer x)
      (MsgCookie.parse (cookieReply c envB b' msg addr port).bytes) = some p) :
    Holds (cookieStored a x p) x (cookieFor c b' addr port) env.now (a.peer x).labelMac1Key := by
  rw [MsgCookie.parse_bytes] at hp
  obtain ⟨cookie, hopened, rfl⟩ := processCookie_eq c hp
  have hcookie : (cookieFor c b' addr port).toList = cookie :=
    Option.some.inj ((hout.opens c haead envB hlabel).symm.trans hopened)
  refine ⟨?_, ?_, ?_⟩
  · unfold cookieStored
    rw [setPeer_peer_self, ← hcookie]
    exact slice_toList _
  · unfold cookieStored
    rw [setPeer_peer_self]
  · unfold cookieStored
    rw [setPeer_peer_self]

/-- **An initiation signed with the cookie passes both MACs.** -/
theorem Holds.reaches {m : Netdev cfgA} {env : Env cfgA} {envB : Env cfgB} {n : Netdev cfgB}
    {time : Nat} {retry : MsgInit}
    (h : Holds m x (cookieFor c n addr port) (sysNow time) n.wg.labelMac1Key)
    (hretry : Initiates c env m x retry)
    (hyoung : expired env.now (sysNow time) cookieSecretMaxAge = false)
    (hsecret : expired envB.now n.wg.cookieSecretMillis cookieSecretMaxAge = false) :
    Reaches c envB n retry addr port := by
  obtain ⟨sender, ephemeral, enc, rfl⟩ := hretry.signed
  generalize hmsg : signInit c env.now (m.peer x) sender ephemeral enc = retry
  have hmac1 : retry.mac1 = c.mac retry.body n.wg.labelMac1Key.toList := by
    rw [← hmsg, ← h.labelMac1Key]
    rfl
  have hmac2 : retry.mac2
      = c.mac (retry.body ++ retry.mac1.toList) (cookieFor c n addr port).toList := by
    have hold : ¬((m.peer x).cookieMillis = 0 ∨
        expired env.now (m.peer x).cookieMillis cookieSecretMaxAge = true) := by
      rw [h.cookieMillis, hyoung]
      rintro (hzero | hc)
      · exact sysNow_ne_zero time hzero
      · cases hc
    rw [← hmsg, ← h.cookie]
    exact if_neg hold
  have hcounted : InitiationCounted c n retry.bytes := by
    refine ⟨MsgInit.messageType_bytes retry, ?_⟩
    unfold checkMac1
    rw [MsgInit.take_bytes, MsgInit.parse_bytes, hmac1]
    exact decide_eq_true rfl
  have hvalid : mac2Valid c envB n retry.bytes addr port = true := by
    unfold mac2Valid checkMac2 peerCookie
    dsimp only
    rw [MsgInit.take_bytes_mac1, MsgInit.parse_bytes, hmac2,
      if_neg (by rw [hsecret]; exact Bool.false_ne_true)]
    exact decide_eq_true rfl
  refine ⟨hvalid, ?_⟩
  rw [wgProcessUdpPacket_counted c envB addr port hcounted,
    if_pos ⟨hcounted.1, hcounted.2, Or.inr hvalid⟩, MsgInit.parse_bytes]

/-- The exchange goes through. -/
structure Exchanged (a : Netdev cfgA) (x : Fin cfgA.maxPeers) (b' : Netdev cfgB)
    (reply : List Byte) (addr : U32) (port : U16) : Prop where
  /-- The reply is accepted for the initiation it answers. -/
  accepted : CookieAccepted c a reply x
  /-- The handshake is started again at once. -/
  starts : ∀ (env : Env cfgA) src sport, ∃ m, Starts c a x (.rx env reply src sport) env m ∧
    step c a (.rx env reply src sport) = wgStartHandshake c env m x
  /-- Until another cookie comes, the initiations sent while this one is young get to the
  handshake at the other end, as long as its secret is the same. -/
  retried : ∀ (env : Env cfgA) src sport a₁ us a₂,
    step c a (.rx env reply src sport) = some a₁ → Run (step c) a₁ us a₂ →
    (∀ k ∈ us, ¬CookieComes c x k) → ∀ k ∈ ⟨a, .rx env reply src sport, a₁⟩ :: us,
    ∀ env' m retry, Starts c k.before x k.event env' m → Initiates c env' m x retry →
    expired env'.now env.now cookieSecretMaxAge = false →
    ∀ (envB : Env cfgB) n, ReachableState c n → n.wg.publicKey = b'.wg.publicKey →
    n.wg.cookieSecret = b'.wg.cookieSecret →
    expired envB.now n.wg.cookieSecretMillis cookieSecretMaxAge = false →
    Reaches c envB n retry addr port

/-- A cookie that is accepted is stored and answered with a new initiation. -/
theorem CookieAccepted.step_rx {n : Netdev cfgA} {data : List Byte} (h : CookieAccepted c n data x)
    (hlen : data.length ≤ wgMaxPacket) (env : Env cfgA) (src : U32) (sport : U16) : ∃ p,
    processCookie c env.now (n.peer x) (MsgCookie.parse data) = some p ∧
      Starts c n x (.rx env data src sport) env (cookieStored n x p) ∧
      step c n (.rx env data src sport) = wgStartHandshake c env (cookieStored n x p) x := by
  obtain ⟨cookie, hcookie⟩ := Option.isSome_iff_exists.mp h.opens
  have hp : processCookie c env.now (n.peer x) (MsgCookie.parse data) = some { n.peer x with
      cookie := slice cookie 0 16
      cookieMillis := env.now
      handshakeMac1Valid := false } := by
    unfold processCookie
    rw [if_neg (by rw [h.awaited]; exact not_not.mpr rfl), hcookie]
  have htake : data.take wgMaxPacket = data := List.take_of_length_le hlen
  have hdata : data ≠ [] := by
    intro hnil
    have htype := h.type
    rw [hnil] at htype
    exact absurd htype (by decide)
  refine ⟨_, hp, .retry (by rw [htake]; exact h) (by rw [htake]; exact hp), ?_⟩
  simp only [step]
  rw [if_neg hdata, htake]
  unfold wgProcessUdpPacket
  rw [h.type, if_neg (by decide), if_neg (by decide), if_pos rfl]
  dsimp only
  rw [h.pending]
  dsimp only
  rw [hp]
  rfl

/-- Where a handshake is started with `x` while no cookie comes, the record is what it was. -/
theorem Starts.holds {n m : Netdev cfgA} {e : Event cfgA} {env : Env cfgA} {cookie : Bytes 16}
    {millis : U32} {label : Key} (h : Starts c n x e env m) (hholds : Holds n x cookie millis label)
    (hnot : ∀ env data addr port, e.received = some (env, data, addr, port) →
      ¬CookieAccepted c n data x) : Holds m x cookie millis label := by
  cases h with
  | retry hcookie hp => exact absurd hcookie (hnot _ _ _ _ rfl)
  | timer hsplit hm hvalid hdue =>
      exact hholds.leaves (timersBeforeHandshake_kept c env hsplit hm).leaves

/-- **The cookie exchange.**  For an initiation that is refused only for load, the exchange goes
through exactly when no peer before the one it was sent to waits under its index. -/
theorem cookie_exchange (haead : c.XaeadCorrect) (ha : ReachableState c a)
    (hb : ReachableState c b) (hfaces : Faces a x b y) (hout : Outstanding a x msg)
    {envB : Env cfgB} (hrefused : RefusedForLoad c envB b msg.bytes addr port) :
    ∃ b' reply, wgProcessUdpPacket c envB b msg.bytes addr port = some b' ∧
      b'.sent = b.sent ++ [⟨reply, addr, port⟩] ∧
      (Exchanged c a x b' reply addr port ↔ ∀ z < x, ¬Awaits a.wg z msg.sender) := by
  obtain ⟨b', hanswer, hlabels, hsent⟩ := hrefused.answered
  obtain ⟨hmac1, hcookie⟩ := hfaces.labels c ha hb
  have hkey : b'.wg.publicKey = b.wg.publicKey := congrArg Labels.publicKey hlabels
  rw [← show b'.wg.labelCookieKey = b.wg.labelCookieKey from congrArg Labels.labelCookieKey hlabels]
    at hcookie
  have hiff : CookieAccepted c a (cookieReply c envB b' msg addr port).bytes x ↔
      ∀ z < x, ¬Awaits a.wg z msg.sender := hout.accepted_iff c haead envB hcookie
  refine ⟨b', _, hanswer, hsent, fun h => hiff.mp h.accepted, fun hfirst => ?_⟩
  have haccepted := hiff.mpr hfirst
  have hlen : (cookieReply c envB b' msg addr port).bytes.length ≤ wgMaxPacket := by
    rw [MsgCookie.bytes_length]
    decide
  refine ⟨haccepted, fun env src sport => ?_, ?_⟩
  · obtain ⟨p, -, hstarts, hstep⟩ := haccepted.step_rx c hlen env src sport
    exact ⟨_, hstarts, hstep⟩
  intro env src sport a₁ us a₂ hstep hrun hnone k hk env' m retry hstarts hretry hyoung envB' n hn
    hpublic hsecret hfresh
  obtain ⟨p, hp, hstarts₁, hstep₁⟩ := haccepted.step_rx c hlen env src sport
  have hstored := hout.stored c haead envB hcookie hp
  -- the keys of the other end are those of its public key, whatever happened to it since
  have hlabel : n.wg.labelMac1Key = (a.peer x).labelMac1Key := by
    rw [(hn.labelledAt c y).mac1, hmac1, (hb.labelledAt c y).mac1, hpublic, hkey]
  have hsame : cookieFor c n addr port = cookieFor c b' addr port := by
    unfold cookieFor
    rw [hsecret]
  have hholds : Holds m x (cookieFor c b' addr port) env.now (a.peer x).labelMac1Key := by
    rcases List.mem_cons.mp hk with rfl | hk
    · cases hstarts with
      | retry hcookie' hp' =>
          have htake : (cookieReply c envB b' msg addr port).bytes.take wgMaxPacket
              = (cookieReply c envB b' msg addr port).bytes := List.take_of_length_le hlen
          rw [htake] at hp'
          exact hout.stored c haead envB hcookie hp'
    · have hafter : Holds a₁ x (cookieFor c b' addr port) env.now (a.peer x).labelMac1Key := by
        rcases wgStartHandshake_calls (x := x) c env (hstep₁.symm.trans hstep) with
          hkept | ⟨-, hcalled⟩
        · exact hstored.leaves hkept.leaves
        · exact hstored.leaves hcalled.leaves
      have hbefore := ((hrun.invariant (I := fun n => Holds n x (cookieFor c b' addr port) env.now
          (a.peer x).labelMac1Key) hafter fun j hj hs hholds => ?_).2 k hk).1
      · exact hstarts.holds c hbefore fun env data addr port hr hcookie =>
          hnone k hk ⟨env, data, addr, port, hr, hcookie⟩
      · rcases step_leaves (x := x) c hs with hleaves | ⟨env, data, addr, port, -, hr, hcookie, -⟩
        · exact hholds.leaves hleaves
        · exact absurd ⟨env, data, addr, port, hr, hcookie⟩ (hnone j hj)
  rw [← hsame, ← hlabel] at hholds
  exact hholds.reaches c hretry hyoung hfresh

/-! ### Two ports -/

namespace Sample

open NuttxWireguard.Sample

/-- Primitives with a MAC that is not zero. -/
def marking : Crypto :=
  { Crypto.plain with blake2s := fun outlen _ _ => ⟨List.replicate outlen 1, List.length_replicate⟩ }

theorem marking_xaeadCorrect : marking.XaeadCorrect := by
  intro src ad nonce key
  have hlen : (key.toList.take authtagLen).length = authtagLen := by simp [authtagLen]
  have hsrc : marking.xaeadEncrypt src ad nonce key = src ++ key.toList.take authtagLen := rfl
  rw [hsrc]
  show (if _ then _ else _) = _
  rw [List.length_append, hlen, Nat.add_sub_cancel, List.drop_left, List.take_left,
    if_pos ⟨Nat.le_add_left _ _, rfl⟩]

/-- A peer without addresses to route, with an endpoint. -/
def peerAt (publicKey : Key) (ip : U32) (port : U16) : PeerConfig where
  publicKey := some publicKey
  keepalive := 0
  allowedIp := some (address 10 0 0 0)
  allowedMask := some (address 255 255 255 0)
  endpointIp := some ip
  endpointPort := port

/-- A port with these keys, after these events. -/
def portWith (privateKey : Key) (peers : List PeerConfig) (events : List (Event config)) :
    Option (Netdev config) :=
  (wgInitialize marking (Sample.env 1000) (key 1 0) privateKey peers).bind fun n =>
    (steps (step marking) n events).map (·.2)

theorem portWith_reachable {privateKey : Key} {peers : List PeerConfig} {events : List (Event config)}
    {n : Netdev config} (h : portWith privateKey peers events = some n) :
    ReachableState marking n := by
  obtain ⟨n₀, h₀, h⟩ := Option.bind_eq_some_iff.mp h
  obtain ⟨⟨ts, m⟩, hsteps, rfl⟩ := Option.map_eq_some_iff.mp h
  exact ⟨n₀, ts, ⟨_, _, _, _, h₀⟩, .of_steps hsteps⟩

/-- The port that calls both its peers, with the indices it draws for them. -/
def caller (draws : Fin config.maxPeers → List (Bytes 4)) : Option (Netdev config) :=
  portWith (key 8 64) [peerAt (key 3 0) (address 9 9 9 9) 1234, peerAt (key 25 64) (address 8 8 8 8) 4321]
    [.timers { Sample.env 1001 with draws := draws }]

/-- The initiation it sent to the second one. -/
def called (n : Netdev config) : MsgInit := MsgInit.parse ((n.sent.map (·.data)).getD 1 [])

/-- The second one, after twenty initiations. -/
def loaded (msg : MsgInit) : Option (Netdev config) :=
  portWith (key 16 64) [peerAt (key 1 64) (address 7 7 7 7) 1234]
    (List.replicate 20 (.rx (Sample.env 1002) msg.bytes (address 7 7 7 7) 1234))

/-- The two face each other, and the one refuses what the other waits for an answer to. -/
def refuses (a b : Netdev config) : Bool :=
  ((a.peer second).valid && decide ((a.peer second).publicKey = b.wg.publicKey) &&
    (b.peer first).valid && decide ((b.peer first).publicKey = a.wg.publicKey)) &&
  ((a.peer second).handshake.valid && (a.peer second).handshake.initiator &&
    decide ((a.peer second).handshake.localIndex = (called a).sender) &&
    (a.peer second).handshakeMac1Valid &&
    decide ((a.peer second).handshakeMac1 = (called a).mac1)) &&
  decide (InitiationCounted marking b (called a).bytes) &&
  !decide (InitiationAdmitted marking (Sample.env 1002) b (called a).bytes (address 7 7 7 7) 1234)

theorem refuses_iff {a b : Netdev config} (h : refuses a b = true) :
    Faces a second b first ∧ Outstanding a second (called a) ∧
      RefusedForLoad marking (Sample.env 1002) b (called a).bytes (address 7 7 7 7) 1234 := by
  unfold refuses at h
  simp only [Bool.and_eq_true, decide_eq_true_eq, Bool.not_eq_true', decide_eq_false_iff_not] at h
  obtain ⟨⟨⟨⟨⟨⟨hvalid, hkey⟩, hback⟩, hbackKey⟩, ⟨⟨⟨hhs, hinit⟩, hindex⟩, hawaited⟩, hmac1⟩,
    hcounted⟩, hrefused⟩ := h
  exact ⟨⟨⟨hvalid, hkey⟩, ⟨hback, hbackKey⟩⟩, ⟨⟨hvalid, hhs, hinit, hindex⟩, hawaited, hmac1⟩,
    hcounted, hrefused⟩

/-- What is seen of the two ports. -/
theorem exists_ports (draws : Fin config.maxPeers → List (Bytes 4)) (x : Fin config.maxPeers)
    (h : ((caller draws).any fun a => (loaded (called a)).any fun b =>
      refuses a b && decide (peerByHandshake a.wg (called a).sender = some x)) = true) :
    ∃ a b, ReachableState marking a ∧ ReachableState marking b ∧ Faces a second b first ∧
      Outstanding a second (called a) ∧
      RefusedForLoad marking (Sample.env 1002) b (called a).bytes (address 7 7 7 7) 1234 ∧
      peerByHandshake a.wg (called a).sender = some x := by
  obtain ⟨a, ha, h⟩ := (Option.any_eq_true _ _).mp h
  obtain ⟨b, hb, h⟩ := (Option.any_eq_true _ _).mp h
  simp only [Bool.and_eq_true, decide_eq_true_eq] at h
  obtain ⟨hfaces, hout, hrefused⟩ := refuses_iff h.1
  exact ⟨a, b, portWith_reachable ha, portWith_reachable hb, hfaces, hout, hrefused, h.2⟩

end Sample

/-- Two indices drawn apart. -/
theorem cookie_exchange_sample : ∃ (a b b' : Netdev Sample.config) (reply : List Byte),
    ReachableState Sample.marking a ∧ ReachableState Sample.marking b ∧
      Faces a Sample.second b Sample.first ∧
      Exchanged Sample.marking a Sample.second b' reply (Sample.address 7 7 7 7) 1234 := by
  obtain ⟨a, b, ha, hb, hfaces, hout, hrefused, hfound⟩ := Sample.exists_ports
    (fun z => if z = Sample.first then [Sample.draw 1] else [Sample.draw 2]) Sample.second
    (by decide +kernel)
  obtain ⟨b', reply, -, -, hiff⟩ :=
    cookie_exchange Sample.marking Sample.marking_xaeadCorrect ha hb hfaces hout hrefused
  exact ⟨a, b, b', reply, ha, hb, hfaces, hiff.mpr (peerByHandshake_iff.mp hfound).2⟩

/-- Both initiations went out under one index, and the reply is not accepted. -/
theorem not_cookie_exchange :
    ¬∀ (a b : Netdev Sample.config) (x y : Fin Sample.config.maxPeers) (msg : MsgInit)
      (addr : U32) (port : U16) (envB : Env Sample.config), ReachableState Sample.marking a →
      ReachableState Sample.marking b → Faces a x b y → Outstanding a x msg →
      RefusedForLoad Sample.marking envB b msg.bytes addr port →
      ∃ b' reply, wgProcessUdpPacket Sample.marking envB b msg.bytes addr port = some b' ∧
        b'.sent = b.sent ++ [⟨reply, addr, port⟩] ∧
        Exchanged Sample.marking a x b' reply addr port := by
  intro hall
  obtain ⟨a, b, ha, hb, hfaces, hout, hrefused, hfound⟩ := Sample.exists_ports
    (fun _ => [Sample.draw 1]) Sample.first (by decide +kernel)
  obtain ⟨b', reply, hanswer, hsent, h⟩ := hall a b _ _ _ _ _ _ ha hb hfaces hout hrefused
  obtain ⟨b₁, hanswer₁, -, hsent₁⟩ := hrefused.answered
  cases hanswer.symm.trans hanswer₁
  have hreply := List.append_cancel_left (hsent.symm.trans hsent₁)
  have hdata : reply = _ := congrArg Outbound.data (List.cons.inj hreply).1
  have hpending := h.accepted.pending
  rw [hdata, MsgCookie.parse_bytes] at hpending
  exact absurd (Option.some.inj (hfound.symm.trans hpending)) (by decide)

end Flat

end NuttxWireguard
