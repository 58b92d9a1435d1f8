/-
Requests that end in an error.

`wg_set_peer` checks everything on a copy of the allowed-ips before it writes, and what it
writes to a record before the last check, the key agreement, it clears again.  A refused
request leaves the device as it was.

`wg_set_if` does its parts one after the other.  What it refuses itself it refuses before it
has done anything, except that a key of no use clears the device; but the state of the
interface comes last, and when that fails the key, the port and the address of the request
are already in place.
-/
import NuttxWireguard.Kernel.Identity
import NuttxWireguard.Kernel.Shutdown
import NuttxWireguard.Kernel.PeerKeys

namespace NuttxWireguard.Kernel

open Lib

variable {cfg : Config} (c : Crypto)

/-! ### Peers -/

/-- A refused `SIOCSWGPEER` leaves a device whose free records are cleared as it was. -/
theorem wgSetPeer_refused {n : Netdev cfg} {req : PeerReq} {err : Errno} (hn : n.wg.Vacant)
    (h : (wgSetPeer c n req).2 = some err) : (wgSetPeer c n req).1 = n := by
  rcases wgSetPeer_outcomes c n req with ⟨err', hrefused⟩ | ⟨x, allowed, -, -, ⟨-, hdone⟩ |
    ⟨-, -, -, hdone⟩ | ⟨-, halloc, hlow, hcleared⟩⟩
  · rw [hrefused]
  · rw [hdone] at h
    cases h
  · rw [hdone] at h
    cases h
  · rw [hcleared]
    -- the record was free, and is cleared again
    have hfree : n.peer x = Peer.zero := by
      have hfound := List.find?_some halloc
      exact hn x (by simpa using hfound)
    have hagain : createdPeer c n req = Peer.zero := wgPeerInit_vacant c hlow
    rw [hagain, ← hfree]
    exact setPeer_self n x

theorem vacant_of_reachable {n : Netdev cfg} (h : ReachableState c n) : n.wg.Vacant := by
  refine @Reachable.invariant _ _ _ _ (fun n => n.wg.Vacant) _ h ?_
    fun n e n' hstep hn => step_vacant c hstep hn
  rintro n ⟨i, rfl⟩ x -
  rfl

/-- **A refused `SIOCSWGPEER` leaves everything as it was**; the free records of a device that
was reached are cleared. -/
theorem setPeer_allOrNothing :
    (∀ n : Netdev cfg, ReachableState c n → n.wg.Vacant) ∧
      ∀ (n : Netdev cfg) (req : PeerReq) (err : Errno), n.wg.Vacant →
        (wgSetPeer c n req).2 = some err → (wgSetPeer c n req).1 = n :=
  ⟨fun _ h => vacant_of_reachable c h, fun _ _ _ hn h => wgSetPeer_refused c hn h⟩

namespace Sample

open NuttxWireguard.Sample

/-- A public key the device agrees with on zero. -/
def lowOrderReq : PeerReq := { firstReq none with publicKey := key 8 64 }

end Sample

/-- The key agreement is the last check, and the only one after a write. -/
theorem setPeer_allOrNothing_sample : ∃ n : Netdev NuttxWireguard.Sample.config,
    ReachableState Crypto.plain n ∧
      (wgSetPeer Crypto.plain n Sample.lowOrderReq).2 = some .einval ∧
      (wgSetPeer Crypto.plain n Sample.lowOrderReq).1 = n := by
  obtain ⟨n, hn, herr⟩ := Sample.exists_reachable [Sample.setKey 1000]
    (fun n => decide ((wgSetPeer Crypto.plain n Sample.lowOrderReq).2 = some .einval)) (by decide)
  have herr := of_decide_eq_true herr
  obtain ⟨hvacant, hrefused⟩ := @setPeer_allOrNothing NuttxWireguard.Sample.config Crypto.plain
  exact ⟨n, hn, herr, hrefused n Sample.lowOrderReq .einval (hvacant n hn) herr⟩

/-! ### The interface -/

/-- How a request ends; `late` says that its wait for the receive thread gives up. -/
def ending (late : Bool) : Netdev cfg × Outcome → Netdev cfg × Option Errno
  | (n, .returned err) => (n, err)
  | (n, .waiting) => if late then (wgIfdownTimeout n, some .etimedout) else (wgIfdownDone n, none)

/-- The private key, the peers, the listen port and the address are as they were. -/
structure Untouched (n m : Netdev cfg) : Prop where
  privateKey : m.wg.privateKey = n.wg.privateKey
  peers : m.wg.peers = n.wg.peers
  listenPort : m.listenPort = n.listenPort
  ipaddr : m.ipaddr = n.ipaddr
  netmask : m.netmask = n.netmask

/-- A request that is refused before anything is done. -/
def RefusedAtOnce (env : Env cfg) (n : Netdev cfg) (req : IfReq) : Prop :=
  (req.has wgIfUp = true ∧ n.bifup = false ∧ n.rxpid ≠ 0) ∨
    ((req.has wgIfHasPrivateKey = true ∨ req.has wgIfHasListenPort = true) ∧
      (n.bifup = true ∨ n.rxpid ≠ 0)) ∨
    (req.has wgIfHasPrivateKey = true ∧
      (req.privateKey = Bytes.zero 32 ∨ env.savedMalloc = false))

/-- It brings a private key without a public key. -/
def Useless (req : IfReq) : Prop :=
  req.has wgIfHasPrivateKey = true ∧ c.generatePublicKey (Crypto.clamp req.privateKey) = none

/-- A socket can be bound, and no thread be created. -/
def noThread (env : Env cfg) : Bool :=
  env.psockSocket.isNone && env.psockBind.isNone && !env.kthreadCreate.isOk

/-- There is no private key, and the request brings none. -/
def Keyless (n : Netdev cfg) (req : IfReq) : Prop :=
  req.has wgIfHasPrivateKey = false ∧ n.wg.valid = false

instance (n : Netdev cfg) (req : IfReq) : Decidable (Keyless n req) :=
  inferInstanceAs (Decidable (_ ∧ _))

/-- The interface does not come up, or go down, as it is asked to. -/
def StateFails (env : Env cfg) (n : Netdev cfg) (req : IfReq) (late : Bool) : Prop :=
  if req.has wgIfUp then
    n.bifup = false ∧ (Keyless n req ∨ env.psockSocket.isSome = true ∨
      env.psockBind.isSome = true ∨ noThread env = true)
  else
    req.has wgIfDown = true ∧ n.rxpid ≠ 0 ∧ (n.reaping = true ∨ late = true)

/-- The bring-up gets as far as the thread, so that it has started the peers before it fails. -/
def Starts (env : Env cfg) (n : Netdev cfg) (req : IfReq) : Prop :=
  req.has wgIfUp = true ∧ ¬Keyless n req ∧ noThread env = true

instance (env : Env cfg) (n : Netdev cfg) (req : IfReq) : Decidable (Starts env n req) :=
  inferInstanceAs (Decidable (_ ∧ _))

/-- A peer nothing has happened to: it has no session, handshake, timestamp, cookie or time, and
it is where it was configured to be. -/
structure Pristine (p : Peer cfg) : Prop where
  sessions : ∀ s, p.keypair s = Keypair.zero
  handshake : p.handshake = Handshake.zero
  greatestTimestamp : p.greatestTimestamp = Bytes.zero 12
  cookie : p.cookieMillis = 0 ∧ p.cookie = Bytes.zero 16
  handshakeMac1 : p.handshakeMac1Valid = false ∧ p.handshakeMac1 = Bytes.zero 16
  initiations : p.lastInitiationRx = 0 ∧ p.lastInitiationTx = 0
  traffic : p.lastTx = 0 ∧ p.lastRx = 0 ∧ p.rxBytes = 0 ∧ p.txBytes = 0
  endpoint : p.ip = p.connectIp ∧ p.port = p.connectPort

/-- A peer with a configured endpoint, which a bring-up starts. -/
def HasEndpoint (p : Peer cfg) : Prop := p.connectIp ≠ 0 ∧ p.connectPort > 0

instance (p : Peer cfg) : Decidable (HasEndpoint p) := inferInstanceAs (Decidable (_ ∧ _))

/-- It is started: active at this endpoint, with a handshake pending. -/
structure Started (p : Peer cfg) : Prop where
  active : p.active = true
  sendHandshake : p.sendHandshake = true
  endpoint : p.ip = p.connectIp ∧ p.port = p.connectPort

/-- All that the request asks for is there already.  A key costs nothing where it is the one in
use, free records are cleared, and nothing has happened to a peer; the peers that the bring-up
starts have to be started, and no others. -/
structure Repeats (env : Env cfg) (n : Netdev cfg) (req : IfReq) : Prop where
  privateKey : req.has wgIfHasPrivateKey = true → n.wg.privateKey = Crypto.clamp req.privateKey
  free : req.has wgIfHasPrivateKey = true →
    ∀ x, (n.peer x).valid = false → n.peer x = Peer.zero
  peers : req.has wgIfHasPrivateKey = true →
    ∀ x, (n.peer x).valid = true → Pristine (n.peer x) ∧ DerivedFor c n.wg (n.peer x)
  idle : req.has wgIfHasPrivateKey = true → ∀ x, (n.peer x).valid = true →
    ¬(Starts env n req ∧ HasEndpoint (n.peer x)) →
      (n.peer x).active = false ∧ (n.peer x).sendHandshake = false
  started : Starts env n req → ∀ x, (n.peer x).valid = true → HasEndpoint (n.peer x) →
    Started (n.peer x)
  listenPort : req.has wgIfHasListenPort = true → n.listenPort = req.listenPort
  addr : req.has wgIfHasAddr = true → n.ipaddr = req.addr ∧ n.netmask = req.netmask

/-! ### What happens to the peers -/

/-- A peer after a request that fails at the state of the interface: set up again if there
is a new key, and started if the thread is the first thing that is missing. -/
def leftPeer (env : Env cfg) (n : Netdev cfg) (req : IfReq) (p : Peer cfg) : Peer cfg :=
  let p :=
    if req.has wgIfHasPrivateKey then restorePeer c (wgDeviceInit c env req.privateKey) p else p
  if Starts env n req then wgIfupPeer p else p

/-- A peer set up with the agreement `dh`, and started or not. -/
def setUp (dh : Key) (start : Bool) (p : Peer cfg) : Peer cfg :=
  { Peer.zero with
    valid := true
    active := start
    connectIp := p.connectIp
    connectPort := p.connectPort
    ip := p.connectIp
    port := p.connectPort
    keepaliveInterval := p.keepaliveInterval
    allowedSourceIps := p.allowedSourceIps
    publicKey := p.publicKey
    presharedKey := p.presharedKey
    publicKeyDh := dh
    labelCookieKey := c.macKey p.publicKey Crypto.labelCookie
    labelMac1Key := c.macKey p.publicKey Crypto.labelMac1
    sendHandshake := start }

section Peers

variable {c} {env : Env cfg} {n : Netdev cfg} {req : IfReq} {d : Device cfg} {p : Peer cfg}
  {dh : Key}

theorem restorePeer_setUp (hd : d.valid = true) (hp : p.valid = true)
    (hdh : c.dh d.privateKey p.publicKey = some dh) :
    restorePeer c d p = setUp c dh false p := by
  have hpsk : (if p.presharedKey = Bytes.zero 32 then none else some p.presharedKey).getD
      (Bytes.zero 32) = p.presharedKey := by
    split
    · rename_i hzero
      exact hzero.symm
    · rfl
  unfold restorePeer wgPeerInit
  rw [if_neg (not_not.mpr hp), if_neg (not_not.mpr hd), hdh]
  dsimp only
  rw [if_pos rfl, hpsk]
  rfl

theorem restorePeer_disagrees (hdh : c.dh d.privateKey p.publicKey = none) :
    (restorePeer c d p).valid = false := by
  unfold restorePeer wgPeerInit
  rw [hdh]
  dsimp only
  split
  · rfl
  · split <;> rfl

theorem wgIfupPeer_of_not (h : ¬HasEndpoint p) : wgIfupPeer p = p := by
  unfold wgIfupPeer
  exact if_neg fun hc => h hc.2

theorem wgIfupPeer_of_not_valid (h : p.valid = false) : wgIfupPeer p = p := by
  unfold wgIfupPeer
  rw [if_neg (by simp [h])]

theorem wgIfupPeer_setUp :
    wgIfupPeer (setUp c dh false p) = setUp c dh (decide (HasEndpoint p)) p := by
  by_cases h : HasEndpoint p
  · rw [decide_eq_true h]
    unfold wgIfupPeer
    exact if_pos ⟨rfl, h⟩
  · rw [decide_eq_false h]
    exact wgIfupPeer_of_not h

/-- A started peer is what starting makes of a peer with an endpoint. -/
theorem wgIfupPeer_eq_iff (hp : p.valid = true) (hendpoint : HasEndpoint p) :
    wgIfupPeer p = p ↔ Started p := by
  have hup : wgIfupPeer p = { p with
      active := true, ip := p.connectIp, port := p.connectPort, sendHandshake := true } :=
    if_pos ⟨hp, hendpoint⟩
  rw [hup]
  constructor
  · intro h
    exact ⟨(congrArg Peer.active h).symm, (congrArg Peer.sendHandshake h).symm,
      (congrArg Peer.ip h).symm, (congrArg Peer.port h).symm⟩
  · rintro ⟨hactive, hsend, hip, hport⟩
    cases p
    simp only at *
    simp only [*]

/-- A peer is as it was set up if nothing has happened to it. -/
theorem setUp_eq_iff {start : Bool} (hp : p.valid = true) : setUp c dh start p = p ↔
    Pristine p ∧ p.publicKeyDh = dh ∧ p.labelMac1Key = c.macKey p.publicKey Crypto.labelMac1 ∧
      p.labelCookieKey = c.macKey p.publicKey Crypto.labelCookie ∧
      p.active = start ∧ p.sendHandshake = start := by
  constructor
  · intro h
    refine ⟨?_, (congrArg Peer.publicKeyDh h).symm, (congrArg Peer.labelMac1Key h).symm,
      (congrArg Peer.labelCookieKey h).symm, (congrArg Peer.active h).symm,
      (congrArg Peer.sendHandshake h).symm⟩
    rw [← h]
    exact ⟨fun s => by cases s <;> rfl, rfl, rfl, ⟨rfl, rfl⟩, ⟨rfl, rfl⟩, ⟨rfl, rfl⟩,
      ⟨rfl, rfl, rfl, rfl⟩, ⟨rfl, rfl⟩⟩
  · rintro ⟨hpristine, hdh, hmac1, hcookie, hactive, hsend⟩
    have hcurr : p.currKeypair = Keypair.zero := hpristine.sessions .curr
    have hprev : p.prevKeypair = Keypair.zero := hpristine.sessions .prev
    have hnext : p.nextKeypair = Keypair.zero := hpristine.sessions .next
    obtain ⟨-, hhandshake, htimestamp, ⟨hmillis, hcookies⟩, ⟨hmacValid, hmac⟩, ⟨hinitRx, hinitTx⟩,
      ⟨htx, hrx, hrxBytes, htxBytes⟩, hip, hport⟩ := hpristine
    cases p
    unfold setUp Peer.zero
    simp only at *
    simp only [*]

/-- A peer with its key that a request leaves as it was. -/
theorem leftPeer_keyed_iff (hhas : req.has wgIfHasPrivateKey = true)
    (hd : (wgDeviceInit c env req.privateKey).valid = true)
    (hkey : n.wg.privateKey = (wgDeviceInit c env req.privateKey).privateKey)
    (hp : p.valid = true) : leftPeer c env n req p = p ↔
      (Pristine p ∧ DerivedFor c n.wg p) ∧
      (¬(Starts env n req ∧ HasEndpoint p) → p.active = false ∧ p.sendHandshake = false) ∧
      (Starts env n req → HasEndpoint p → Started p) := by
  unfold leftPeer
  dsimp only
  rw [if_pos hhas]
  cases hdh : c.dh n.wg.privateKey p.publicKey with
  | none =>
      rw [hkey] at hdh
      have hgone : (restorePeer c (wgDeviceInit c env req.privateKey) p).valid = false :=
        restorePeer_disagrees hdh
      rw [wgIfupPeer_of_not_valid hgone, ite_self]
      constructor
      · intro h
        rw [h, hp] at hgone
        cases hgone
      · rintro ⟨⟨-, hderived⟩, -⟩
        have hagrees := hderived.dh
        rw [hkey, hdh] at hagrees
        cases hagrees
  | some dh =>
      have hleft : (if Starts env n req
          then wgIfupPeer (restorePeer c (wgDeviceInit c env req.privateKey) p)
          else restorePeer c (wgDeviceInit c env req.privateKey) p)
          = setUp c dh (decide (Starts env n req ∧ HasEndpoint p)) p := by
        rw [restorePeer_setUp hd hp (hkey ▸ hdh), wgIfupPeer_setUp]
        by_cases hstarts : Starts env n req
        · rw [if_pos hstarts]
          simp only [hstarts, true_and]
        · rw [if_neg hstarts]
          simp only [hstarts, false_and, decide_false]
      rw [hleft, setUp_eq_iff hp]
      constructor
      · rintro ⟨hpristine, hagrees, hmac1, hcookie, hactive, hsend⟩
        refine ⟨⟨hpristine, by rw [hdh, hagrees], hmac1, hcookie⟩, fun hno => ?_,
          fun hstarts hendpoint => ?_⟩
        · rw [hactive, hsend, decide_eq_false hno]
          exact ⟨rfl, rfl⟩
        · rw [decide_eq_true ⟨hstarts, hendpoint⟩] at hactive hsend
          exact ⟨hactive, hsend, hpristine.endpoint⟩
      · rintro ⟨⟨hpristine, hderived⟩, hidle, hstarted⟩
        refine ⟨hpristine, Option.some.inj (hderived.dh.symm.trans hdh), hderived.mac1,
          hderived.cookie, ?_⟩
        by_cases hstarts : Starts env n req ∧ HasEndpoint p
        · rw [decide_eq_true hstarts]
          exact ⟨(hstarted hstarts.1 hstarts.2).active, (hstarted hstarts.1 hstarts.2).sendHandshake⟩
        · rw [decide_eq_false hstarts]
          exact hidle hstarts

/-- So is a free record if it is cleared. -/
theorem leftPeer_free_iff (hhas : req.has wgIfHasPrivateKey = true) (hp : p.valid = false) :
    leftPeer c env n req p = p ↔ p = Peer.zero := by
  have hcleared : restorePeer c (wgDeviceInit c env req.privateKey) p = Peer.zero := by
    unfold restorePeer
    rw [if_pos (by simp [hp])]
  unfold leftPeer
  dsimp only
  rw [if_pos hhas, hcleared, wgIfupPeer_of_not_valid rfl, ite_self]
  exact eq_comm

/-- Without a key it is only the start. -/
theorem leftPeer_unkeyed_iff (hhas : ¬req.has wgIfHasPrivateKey = true) :
    leftPeer c env n req p = p ↔
      (Starts env n req → p.valid = true → HasEndpoint p → Started p) := by
  unfold leftPeer
  dsimp only
  rw [if_neg hhas]
  by_cases hstarts : Starts env n req
  · rw [if_pos hstarts]
    by_cases hp : p.valid = true
    · by_cases hendpoint : HasEndpoint p
      · rw [wgIfupPeer_eq_iff hp hendpoint]
        exact ⟨fun h _ _ _ => h, fun h => h hstarts hp hendpoint⟩
      · exact ⟨fun _ _ _ hc => absurd hc hendpoint, fun _ => wgIfupPeer_of_not hendpoint⟩
    · exact ⟨fun _ _ hc => absurd hc hp,
        fun _ => wgIfupPeer_of_not_valid (eq_false_of_ne_true hp)⟩
  · rw [if_neg hstarts]
    exact ⟨fun _ hc => absurd hc hstarts, fun _ => rfl⟩

end Peers

section Request

variable {c} {env : Env cfg} {n : Netdev cfg} {req : IfReq} {late : Bool}

theorem wgSetIf_refusedAtOnce (h : RefusedAtOnce env n req) :
    ∃ err, wgSetIf c env n req = (n, .returned (some err)) := by
  by_cases hup : req.has wgIfUp = true ∧ ¬n.bifup = true ∧ n.rxpid ≠ 0
  · exact ⟨_, if_pos hup⟩
  by_cases hset : (req.has wgIfHasPrivateKey = true ∨ req.has wgIfHasListenPort = true) ∧
      (n.bifup = true ∨ n.rxpid ≠ 0)
  · refine ⟨.ebusy, ?_⟩
    unfold wgSetIf
    rw [if_neg hup, if_pos hset]
  have hkey : req.has wgIfHasPrivateKey = true ∧
      (req.privateKey = Bytes.zero 32 ∨ env.savedMalloc = false) := by
    rcases h with h | h | h
    · exact absurd ⟨h.1, by simp [h.2.1], h.2.2⟩ hup
    · exact absurd h hset
    · exact h
  unfold wgSetIf
  rw [if_neg hup, if_neg hset, if_pos hkey.1]
  unfold setPrivateKey
  rcases hkey.2 with hzero | hmalloc
  · rw [if_pos hzero]
    exact ⟨_, rfl⟩
  · by_cases hzero : req.privateKey = Bytes.zero 32
    · rw [if_pos hzero]
      exact ⟨_, rfl⟩
    · rw [if_neg hzero, if_pos (by simp [hmalloc])]
      exact ⟨_, rfl⟩

/-- The device with the key of the request, and its peers set up again with it. -/
def keyed (c : Crypto) (env : Env cfg) (n : Netdev cfg) (req : IfReq) : Netdev cfg :=
  if req.has wgIfHasPrivateKey then
    { n with wg := { wgDeviceInit c env req.privateKey with
      peers := fun x => restorePeer c (wgDeviceInit c env req.privateKey) (n.peer x) } }
  else n

/-- A request that is not refused at once, and whose key is of use. -/
theorem wgSetIf_keyed (h : ¬RefusedAtOnce env n req) (huse : ¬Useless c req) :
    wgSetIf c env n req = wgSetIfRest env (keyed c env n req) req := by
  obtain ⟨hup, h⟩ := not_or.mp h
  obtain ⟨hset, hkey⟩ := not_or.mp h
  unfold wgSetIf keyed
  rw [if_neg (by simpa using hup), if_neg hset]
  by_cases hhas : req.has wgIfHasPrivateKey = true
  · rw [if_pos hhas, if_pos hhas]
    obtain ⟨hzero, hmalloc⟩ := not_or.mp fun hc => hkey ⟨hhas, hc⟩
    have hvalid : (wgDeviceInit c env req.privateKey).valid = true := by
      rcases wgDeviceInit_cases c env req.privateKey with ⟨hown, -⟩ | ⟨own, -, hvalid, -⟩
      · exact absurd ⟨hhas, hown⟩ huse
      · exact hvalid
    have hset : setPrivateKey c env n req.privateKey = ({ n with
        wg := { wgDeviceInit c env req.privateKey with
          peers := fun x => restorePeer c (wgDeviceInit c env req.privateKey) (n.peer x) } },
        none) := by
      unfold setPrivateKey
      rw [if_neg hzero, if_neg (by simpa using hmalloc)]
      dsimp only
      rw [if_neg (not_not.mpr hvalid)]
    rw [hset]
    rfl
  · rw [if_neg hhas, if_neg hhas]
    rfl

/-- A key of no use clears the device. -/
theorem wgSetIf_useless (h : ¬RefusedAtOnce env n req) (huse : Useless c req) :
    wgSetIf c env n req = ({ n with wg := Device.zero }, .returned (some .einval)) := by
  obtain ⟨hup, h⟩ := not_or.mp h
  obtain ⟨hset, hkey⟩ := not_or.mp h
  obtain ⟨hzero, hmalloc⟩ := not_or.mp fun hc => hkey ⟨huse.1, hc⟩
  have hinit : wgDeviceInit c env req.privateKey = Device.zero := by
    unfold wgDeviceInit
    dsimp only
    rw [huse.2]
  have hcleared : setPrivateKey c env n req.privateKey =
      ({ n with wg := Device.zero }, some .einval) := by
    unfold setPrivateKey
    rw [if_neg hzero, if_neg (by simpa using hmalloc), hinit]
    rfl
  unfold wgSetIf
  rw [if_neg (by simpa using hup), if_neg hset, if_pos huse.1, hcleared]
  rfl

/-- What a failed change of state leaves of the device `k`, as far as a request is about it. -/
structure LeftOf (env : Env cfg) (k : Netdev cfg) (req : IfReq) (m : Netdev cfg) : Prop where
  privateKey : m.wg.privateKey = k.wg.privateKey
  peers : ∀ x, m.peer x = if req.has wgIfUp = true ∧ k.wg.valid = true ∧ noThread env = true
    then wgIfupPeer (k.peer x) else k.peer x
  listenPort : m.listenPort = if req.has wgIfHasListenPort then req.listenPort else k.listenPort
  ipaddr : m.ipaddr = if req.has wgIfHasAddr then req.addr else k.ipaddr
  netmask : m.netmask = if req.has wgIfHasAddr then req.netmask else k.netmask

theorem setPortAddr_fields (n : Netdev cfg) (req : IfReq) :
    (setPortAddr n req).wg = n.wg ∧ (setPortAddr n req).listenPort =
      (if req.has wgIfHasListenPort then req.listenPort else n.listenPort) ∧
      (setPortAddr n req).ipaddr = (if req.has wgIfHasAddr then req.addr else n.ipaddr) ∧
      (setPortAddr n req).netmask = (if req.has wgIfHasAddr then req.netmask else n.netmask) := by
  unfold setPortAddr
  dsimp only
  split <;> split <;> exact ⟨rfl, rfl, rfl, rfl⟩

theorem keyed_flags (c : Crypto) (env : Env cfg) (n : Netdev cfg) (req : IfReq) :
    (keyed c env n req).bifup = n.bifup ∧ (keyed c env n req).rxpid = n.rxpid ∧
      (keyed c env n req).reaping = n.reaping := by
  unfold keyed
  split <;> exact ⟨rfl, rfl, rfl⟩

/-- The device after the key: which key it has, its peers, and whether it has one at all. -/
theorem keyed_wg (huse : ¬Useless c req) :
    ((keyed c env n req).wg.privateKey =
      if req.has wgIfHasPrivateKey then Crypto.clamp req.privateKey else n.wg.privateKey) ∧
    (∀ x, (keyed c env n req).peer x =
      if req.has wgIfHasPrivateKey then restorePeer c (wgDeviceInit c env req.privateKey) (n.peer x)
      else n.peer x) ∧
    ((keyed c env n req).wg.valid = false ↔ Keyless n req) := by
  unfold keyed Keyless
  by_cases hhas : req.has wgIfHasPrivateKey = true
  · rw [if_pos hhas]
    rcases wgDeviceInit_cases c env req.privateKey with ⟨hown, -⟩ | ⟨own, -, hvalid, hprivate, -⟩
    · exact absurd ⟨hhas, hown⟩ huse
    · refine ⟨?_, fun x => ?_, ?_⟩
      · rw [if_pos hhas]
        exact hprivate
      · rw [if_pos hhas]
        rfl
      · simp [hhas, hvalid]
  · rw [if_neg hhas]
    refine ⟨?_, fun x => ?_, ?_⟩
    · rw [if_neg hhas]
    · rw [if_neg hhas]
    · simp [hhas]

/-- The peers are left as they were if nothing has happened to them, or nothing happens now. -/
theorem leftPeer_all_iff (huse : ¬Useless c req)
    (hkey : req.has wgIfHasPrivateKey = true → n.wg.privateKey = Crypto.clamp req.privateKey) :
    (∀ x, leftPeer c env n req (n.peer x) = n.peer x) ↔
      (req.has wgIfHasPrivateKey = true → ∀ x, (n.peer x).valid = false → n.peer x = Peer.zero) ∧
      (req.has wgIfHasPrivateKey = true → ∀ x, (n.peer x).valid = true →
        Pristine (n.peer x) ∧ DerivedFor c n.wg (n.peer x)) ∧
      (req.has wgIfHasPrivateKey = true → ∀ x, (n.peer x).valid = true →
        ¬(Starts env n req ∧ HasEndpoint (n.peer x)) →
          (n.peer x).active = false ∧ (n.peer x).sendHandshake = false) ∧
      (Starts env n req → ∀ x, (n.peer x).valid = true → HasEndpoint (n.peer x) →
        Started (n.peer x)) := by
  by_cases hhas : req.has wgIfHasPrivateKey = true
  · obtain ⟨hd, hprivate⟩ : (wgDeviceInit c env req.privateKey).valid = true ∧
        (wgDeviceInit c env req.privateKey).privateKey = Crypto.clamp req.privateKey := by
      rcases wgDeviceInit_cases c env req.privateKey with ⟨hown, -⟩ | ⟨own, -, hvalid, hprivate, -⟩
      · exact absurd ⟨hhas, hown⟩ huse
      · exact ⟨hvalid, hprivate⟩
    have hsame : n.wg.privateKey = (wgDeviceInit c env req.privateKey).privateKey :=
      (hkey hhas).trans hprivate.symm
    constructor
    · intro h
      have hpeer := fun x hp => (leftPeer_keyed_iff hhas hd hsame hp).mp (h x)
      exact ⟨fun _ x hp => (leftPeer_free_iff hhas hp).mp (h x), fun _ x hp => (hpeer x hp).1,
        fun _ x hp => (hpeer x hp).2.1, fun hstarts x hp => (hpeer x hp).2.2 hstarts⟩
    · rintro ⟨hfree, hpeers, hidle, hstarted⟩ x
      by_cases hp : (n.peer x).valid = true
      · exact (leftPeer_keyed_iff hhas hd hsame hp).mpr
          ⟨hpeers hhas x hp, hidle hhas x hp, fun hstarts => hstarted hstarts x hp⟩
      · have hp := eq_false_of_ne_true hp
        exact (leftPeer_free_iff hhas hp).mpr (hfree hhas x hp)
  · constructor
    · intro h
      exact ⟨fun hc => absurd hc hhas, fun hc => absurd hc hhas, fun hc => absurd hc hhas,
        fun hstarts x => (leftPeer_unkeyed_iff hhas).mp (h x) hstarts⟩
    · rintro ⟨-, -, -, hstarted⟩ x
      exact (leftPeer_unkeyed_iff hhas).mpr fun hstarts => hstarted hstarts x

/-- Nothing was lost if the request asked for nothing new. -/
theorem LeftOf.untouched_iff {m : Netdev cfg} (huse : ¬Useless c req)
    (h : LeftOf env (keyed c env n req) req m) : Untouched n m ↔ Repeats c env n req := by
  obtain ⟨hprivate, hpeer, hvalid⟩ := @keyed_wg cfg c env n req huse
  have hkeyed : (keyed c env n req).listenPort = n.listenPort ∧
      (keyed c env n req).ipaddr = n.ipaddr ∧ (keyed c env n req).netmask = n.netmask := by
    unfold keyed
    split <;> exact ⟨rfl, rfl, rfl⟩
  have hleft : ∀ x, m.peer x = leftPeer c env n req (n.peer x) := by
    intro x
    have hthere : (keyed c env n req).wg.valid = true ↔ ¬Keyless n req := by
      rw [← hvalid]
      simp
    have hstarts : (req.has wgIfUp = true ∧ (keyed c env n req).wg.valid = true ∧
        noThread env = true) ↔ Starts env n req := by
      unfold Starts
      rw [hthere]
    unfold leftPeer
    dsimp only
    rw [h.peers x, ← hpeer x]
    by_cases hc : Starts env n req
    · rw [if_pos hc, if_pos (hstarts.mpr hc)]
    · rw [if_neg hc, if_neg fun hc' => hc (hstarts.mp hc')]
  have hport := h.listenPort
  have hip := h.ipaddr
  have hmask := h.netmask
  rw [hkeyed.1] at hport
  rw [hkeyed.2.1] at hip
  rw [hkeyed.2.2] at hmask
  constructor
  · intro hsame
    have hkey : req.has wgIfHasPrivateKey = true →
        n.wg.privateKey = Crypto.clamp req.privateKey := by
      intro hhas
      rw [← hsame.privateKey, h.privateKey, hprivate, if_pos hhas]
    obtain ⟨hfree, hpeers, hidle, hstarted⟩ := (leftPeer_all_iff huse hkey).mp fun x =>
      (hleft x).symm.trans (congrFun hsame.peers x)
    refine ⟨hkey, hfree, hpeers, hidle, hstarted, fun hhas => ?_, fun hhas => ⟨?_, ?_⟩⟩
    · rw [← hsame.listenPort, hport, if_pos hhas]
    · rw [← hsame.ipaddr, hip, if_pos hhas]
    · rw [← hsame.netmask, hmask, if_pos hhas]
  · intro hsame
    have hpeers := (leftPeer_all_iff huse hsame.privateKey).mpr
      ⟨hsame.free, hsame.peers, hsame.idle, hsame.started⟩
    refine ⟨?_, ?_, ?_, ?_, ?_⟩
    · rw [h.privateKey, hprivate]
      split
      · rename_i hhas
        exact (hsame.privateKey hhas).symm
      · rfl
    · funext x
      exact (hleft x).trans (hpeers x)
    · rw [hport]
      split
      · rename_i hhas
        exact (hsame.listenPort hhas).symm
      · rfl
    · rw [hip]
      split
      · rename_i hhas
        exact (hsame.addr hhas).1.symm
      · rfl
    · rw [hmask]
      split
      · rename_i hhas
        exact (hsame.addr hhas).2.symm
      · rfl

/-- A device with the settings of the request, and its peers as they were. -/
theorem LeftOf.of_setPortAddr {k m : Netdev cfg}
    (hstart : ¬(req.has wgIfUp = true ∧ k.wg.valid = true ∧ noThread env = true))
    (hwg : m.wg = (setPortAddr k req).wg)
    (hport : m.listenPort = (setPortAddr k req).listenPort)
    (hip : m.ipaddr = (setPortAddr k req).ipaddr)
    (hmask : m.netmask = (setPortAddr k req).netmask) : LeftOf env k req m := by
  obtain ⟨hsetWg, hsetPort, hsetIp, hsetMask⟩ := setPortAddr_fields k req
  have hsame : m.wg = k.wg := hwg.trans hsetWg
  refine ⟨congrArg Device.privateKey hsame, fun x => ?_, hport.trans hsetPort, hip.trans hsetIp,
    hmask.trans hsetMask⟩
  rw [if_neg hstart]
  exact congrFun (congrArg Device.peers hsame) x

/-- The interface fails to come up. -/
theorem wgIfup_fails {k : Netdev cfg} (hup : req.has wgIfUp = true) (hdown : k.bifup = false)
    (hpid : k.rxpid = 0) (hfails : k.wg.valid = false ∨ env.psockSocket.isSome = true ∨
      env.psockBind.isSome = true ∨ noThread env = true) :
    ∃ m err, wgIfup env (setPortAddr k req) = (m, some err) ∧ LeftOf env k req m := by
  have hflags : (setPortAddr k req).bifup = k.bifup ∧ (setPortAddr k req).rxpid = k.rxpid := by
    unfold setPortAddr
    dsimp only
    split <;> split <;> exact ⟨rfl, rfl⟩
  obtain ⟨hwg, -⟩ := setPortAddr_fields k req
  unfold wgIfup
  rw [if_neg (by simp [hflags.1, hdown]), if_neg (by simp [hflags.2, hpid]), hwg]
  by_cases hvalid : k.wg.valid = true
  · rw [if_neg (not_not.mpr hvalid)]
    cases hsocket : env.psockSocket with
    | some err =>
        have hstart : ¬(req.has wgIfUp = true ∧ k.wg.valid = true ∧ noThread env = true) := by
          simp [noThread, hsocket]
        exact ⟨_, err, rfl, .of_setPortAddr hstart rfl rfl rfl rfl⟩
    | none =>
        cases hbind : env.psockBind with
        | some err =>
            have hstart : ¬(req.has wgIfUp = true ∧ k.wg.valid = true ∧ noThread env = true) := by
              simp [noThread, hbind]
            exact ⟨_, err, rfl, .of_setPortAddr hstart hwg.symm rfl rfl rfl⟩
        | none =>
            cases hcreate : env.kthreadCreate with
            | error err =>
                have hstart : req.has wgIfUp = true ∧ k.wg.valid = true ∧ noThread env = true :=
                  ⟨hup, hvalid, by simp [noThread, hsocket, hbind, hcreate, Except.isOk,
                    Except.toBool]⟩
                obtain ⟨-, hsetPort, hsetIp, hsetMask⟩ := setPortAddr_fields k req
                refine ⟨_, err, rfl, rfl, fun x => ?_, hsetPort, hsetIp, hsetMask⟩
                rw [if_pos hstart]
                show wgIfupPeer ((setPortAddr k req).wg.peers x) = _
                rw [hwg]
                rfl
            | ok pid =>
                rcases hfails with hc | hc | hc | hc
                · rw [hvalid] at hc
                  cases hc
                · rw [hsocket] at hc
                  cases hc
                · rw [hbind] at hc
                  cases hc
                · simp [noThread, hcreate, Except.isOk, Except.toBool] at hc
  · rw [if_pos hvalid]
    exact ⟨_, .einval, rfl, .of_setPortAddr (fun hc => hvalid hc.2.1) rfl rfl rfl rfl⟩

/-- The interface comes up. -/
theorem wgIfup_succeeds {k : Netdev cfg} (hpid : k.bifup = false → k.rxpid = 0)
    (h : ¬(k.bifup = false ∧ (k.wg.valid = false ∨ env.psockSocket.isSome = true ∨
      env.psockBind.isSome = true ∨ noThread env = true))) : (wgIfup env k).2 = none := by
  unfold wgIfup
  by_cases hup : k.bifup = true
  · rw [if_pos hup]
  have hdown : k.bifup = false := eq_false_of_ne_true hup
  have hgood := fun hc => h ⟨hdown, hc⟩
  rw [if_neg hup, if_neg (by simp [hpid hdown])]
  by_cases hvalid : k.wg.valid = true
  · rw [if_neg (not_not.mpr hvalid)]
    cases hsocket : env.psockSocket with
    | some err => exact absurd (Or.inr (Or.inl (by simp [hsocket]))) hgood
    | none =>
        cases hbind : env.psockBind with
        | some err => exact absurd (Or.inr (Or.inr (Or.inl (by simp [hbind])))) hgood
        | none =>
            cases hcreate : env.kthreadCreate with
            | error err =>
                refine absurd (Or.inr (Or.inr (Or.inr ?_))) hgood
                simp [noThread, hsocket, hbind, hcreate, Except.isOk, Except.toBool]
            | ok pid => rfl
  · exact absurd (Or.inl (eq_false_of_ne_true hvalid)) hgood

/-- The interface goes down, or fails to. -/
theorem wgIfdown_ending (k : Netdev cfg) (late : Bool) :
    if k.rxpid ≠ 0 ∧ (k.reaping = true ∨ late = true) then
      ∃ m err, ending late (wgIfdown k) = (m, some err) ∧ m.wg = k.wg ∧
        m.listenPort = k.listenPort ∧ m.ipaddr = k.ipaddr ∧ m.netmask = k.netmask
    else (ending late (wgIfdown k)).2 = none := by
  unfold wgIfdown
  dsimp only
  by_cases hstill : ¬k.bifup = true ∧ k.rxpid = 0
  · rw [if_pos hstill, if_neg (fun hc => hc.1 hstill.2)]
    rfl
  rw [if_neg hstill]
  by_cases hpid : k.rxpid = 0
  · rw [if_pos hpid, if_neg (fun hc => hc.1 hpid)]
    rfl
  rw [if_neg hpid]
  by_cases hreaping : k.reaping = true
  · rw [if_pos hreaping, if_pos ⟨hpid, Or.inl hreaping⟩]
    exact ⟨_, .ebusy, rfl, rfl, rfl, rfl, rfl⟩
  rw [if_neg hreaping]
  cases late with
  | true =>
      rw [if_pos ⟨hpid, Or.inr rfl⟩]
      exact ⟨_, .etimedout, rfl, rfl, rfl, rfl, rfl⟩
  | false =>
      rw [if_neg (fun hc => hc.2.elim hreaping (fun h => by cases h))]
      rfl

/-- The state of the interface is what is left to fail. -/
theorem wgSetIfRest_ending (h : ¬RefusedAtOnce env n req) (huse : ¬Useless c req) (late : Bool) :
    (StateFails env n req late → ∃ m err,
      ending late (wgSetIfRest env (keyed c env n req) req) = (m, some err) ∧
        LeftOf env (keyed c env n req) req m) ∧
    (¬StateFails env n req late →
      (ending late (wgSetIfRest env (keyed c env n req) req)).2 = none) := by
  obtain ⟨-, -, hvalid⟩ := @keyed_wg cfg c env n req huse
  obtain ⟨hbifup, hpid, hreaping⟩ := keyed_flags c env n req
  generalize keyed c env n req = k at hvalid hbifup hpid hreaping
  have hflags : (setPortAddr k req).bifup = n.bifup ∧ (setPortAddr k req).rxpid = n.rxpid ∧
      (setPortAddr k req).reaping = n.reaping ∧ (setPortAddr k req).wg = k.wg := by
    rw [← hbifup, ← hpid, ← hreaping]
    unfold setPortAddr
    dsimp only
    split <;> split <;> exact ⟨rfl, rfl, rfl, rfl⟩
  unfold StateFails wgSetIfRest
  rw [← hvalid]
  by_cases hup : req.has wgIfUp = true
  · have hnone : n.bifup = false → n.rxpid = 0 := by
      intro hdown
      by_contra hc
      exact h (Or.inl ⟨hup, hdown, hc⟩)
    rw [if_pos hup, if_pos hup]
    constructor
    · rintro ⟨hdown, hfails⟩
      obtain ⟨m, err, hm, hleft⟩ := wgIfup_fails hup (hbifup.trans hdown)
        (hpid.trans (hnone hdown)) hfails
      exact ⟨m, err, by rw [hm]; rfl, hleft⟩
    · intro hgood
      refine wgIfup_succeeds (fun hdown => ?_) (fun hc => hgood ?_)
      · rw [hflags.2.1]
        exact hnone (hflags.1.symm.trans hdown)
      · rw [hflags.1, hflags.2.2.2] at hc
        exact hc
  · have hstart : ¬(req.has wgIfUp = true ∧ k.wg.valid = true ∧ noThread env = true) :=
      fun hc => hup hc.1
    rw [if_neg hup, if_neg hup]
    by_cases hdown : req.has wgIfDown = true
    · rw [if_pos hdown]
      have hend := wgIfdown_ending (setPortAddr k req) late
      rw [hflags.2.1, hflags.2.2.1] at hend
      by_cases hfails : n.rxpid ≠ 0 ∧ (n.reaping = true ∨ late = true)
      · rw [if_pos hfails] at hend
        obtain ⟨m, err, hm, hwg, hport, hip, hmask⟩ := hend
        exact ⟨fun _ => ⟨m, err, hm, .of_setPortAddr hstart hwg hport hip hmask⟩,
          fun hgood => absurd ⟨hdown, hfails⟩ hgood⟩
      · rw [if_neg hfails] at hend
        exact ⟨fun hc => absurd hc.2 hfails, fun _ => hend⟩
    · rw [if_neg hdown]
      exact ⟨fun hc => absurd hc.1 hdown, fun _ => rfl⟩

end Request

/-- **When a failed `SIOCSWGIF` loses nothing.**  One that is refused at once does nothing.  One
with a key of no use clears the device.  One that fails at the state of the interface has done
all the rest. -/
theorem failedSetIf_untouched_iff (env : Env cfg) (n : Netdev cfg) (req : IfReq) (late : Bool) :
    (∀ m err, ending late (wgSetIf c env n req) = (m, some err) → Untouched n m) ↔
      RefusedAtOnce env n req ∨
        (Useless c req ∧ n.wg.privateKey = Bytes.zero 32 ∧ ∀ x, n.peer x = Peer.zero) ∨
        (¬Useless c req ∧ (StateFails env n req late → Repeats c env n req)) := by
  by_cases hrefused : RefusedAtOnce env n req
  · obtain ⟨err, herr⟩ := @wgSetIf_refusedAtOnce cfg c env n req hrefused
    refine ⟨fun _ => Or.inl hrefused, fun _ m err' hm => ?_⟩
    rw [herr] at hm
    cases hm
    exact ⟨rfl, rfl, rfl, rfl, rfl⟩
  by_cases huse : Useless c req
  · rw [wgSetIf_useless hrefused huse]
    constructor
    · intro h
      have hsame := h _ _ rfl
      exact Or.inr (Or.inl ⟨huse, hsame.privateKey.symm, fun x => (congrFun hsame.peers x).symm⟩)
    · rintro (hc | ⟨-, hkey, hpeers⟩ | ⟨hc, -⟩)
      · exact absurd hc hrefused
      · intro m err hm
        cases hm
        exact ⟨hkey.symm, funext fun x => (hpeers x).symm, rfl, rfl, rfl⟩
      · exact absurd huse hc
  · rw [wgSetIf_keyed hrefused huse]
    obtain ⟨hfail, hgood⟩ := wgSetIfRest_ending hrefused huse late
    constructor
    · intro h
      refine Or.inr (Or.inr ⟨huse, fun hfails => ?_⟩)
      obtain ⟨m, err, hm, hleft⟩ := hfail hfails
      exact (hleft.untouched_iff huse).mp (h m err hm)
    · rintro (hc | ⟨hc, -⟩ | ⟨-, h⟩)
      · exact absurd hc hrefused
      · exact absurd hc huse
      · intro m err hm
        by_cases hfails : StateFails env n req late
        · obtain ⟨m', err', hm', hleft⟩ := hfail hfails
          rw [hm'] at hm
          cases hm
          exact (hleft.untouched_iff huse).mpr (h hfails)
        · have hnone := hgood hfails
          rw [hm] at hnone
          cases hnone

namespace Sample

open NuttxWireguard.Sample

/-- The port is taken. -/
def bindFails : Env config := { env 1000 with psockBind := some (.other 98) }

/-- A private key for a fresh interface, which is to come up with it. -/
def keyAndUp : IfReq where
  flags := wgIfHasPrivateKey ||| wgIfUp
  privateKey := key 8 64
  listenPort := 0
  addr := 0
  netmask := 0

end Sample

/-- The key of a request stays when the interface does not come up. -/
theorem not_failedSetIf_untouched :
    ¬∀ (env : Env NuttxWireguard.Sample.config) (n : Netdev NuttxWireguard.Sample.config)
      (req : IfReq) (late : Bool) (m : Netdev NuttxWireguard.Sample.config) (err : Errno),
        ending late (wgSetIf Crypto.plain env n req) = (m, some err) → Untouched n m := by
  intro h
  have hsame := h Sample.bindFails (wireguardInitialize 0) Sample.keyAndUp false _ _ rfl
  have hkey : (Device.zero : Device NuttxWireguard.Sample.config).privateKey =
    Crypto.clamp (NuttxWireguard.Sample.key 8 64) := hsame.privateKey.symm
  exact absurd hkey (by decide)

end NuttxWireguard.Kernel
