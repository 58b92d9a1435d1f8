/-
Loading a configuration file (`wg_cmd_setconf`).

Nothing is applied before all of the file has parsed.  Then the interface request goes to the
driver, the peers that are there are removed one by one, and the sections of the file are
added in order, until the driver refuses one.  So with the interface stopped the peers are
those of the file; a section that is refused leaves the peers of the sections before it, and
the interface as the file asks for.
-/
import NuttxWireguard.Cli.Conf
import NuttxWireguard.Kernel.Configured

namespace NuttxWireguard.Cli

open Lib Kernel

variable {w : LongWidth} {cfg : Config} (c : Crypto) (env : Env cfg)

/-! ### The command -/

/-- The loop that removes the peers that are there, `count` of them. -/
def removePeers (now : U32) : (count : Nat) → Netdev cfg → Netdev cfg
  | 0, n => n
  | count + 1, n =>
    match wgGetPeer now n 0 with
    | none => n
    | some old =>
      match wgDelPeer n old.publicKey with
      | (n, some _) => n
      | (n, none) => removePeers now count n

/-- The loop that adds the sections of the file; whether none was refused. -/
def addPeers : List PeerReq → Netdev cfg → Netdev cfg × Bool
  | [], n => (n, true)
  | req :: reqs, n =>
    match wgSetPeer c n req with
    | (n, some _) => (n, false)
    | (n, none) => addPeers reqs n

/-- `wg_cmd_setconf`, of a file or its absence; whether it returns zero.  It asks for neither
`WG_IF_UP` nor `WG_IF_DOWN`, and so never waits. -/
def wgCmdSetconf (w : LongWidth) (n : Netdev cfg) (file : Option Text) : Netdev cfg × Bool :=
  match file with
  | none => (n, false)
  | some file =>
    match readConf w cfg.maxPeers file with
    | .error _ => (n, false)
    | .ok conf =>
      match wgSetIf c env n conf.ifr with
      | (n, .returned none) => addPeers c conf.peers (removePeers env.now (wgGetIf n).npeers.toNat n)
      | (n, _) => (n, false)

/-! ### What a file asks for -/

theorem has_or (a b mask : U32) :
    decide ((a ||| b) &&& mask ≠ 0) = (decide (a &&& mask ≠ 0) || decide (b &&& mask ≠ 0)) := by
  rw [← Bool.decide_or]
  refine decide_eq_decide.mpr ?_
  rw [BitVec.and_or_distrib_right]
  exact (not_congr BitVec.or_eq_zero_iff).trans not_and_or

/-- A file asks neither for up nor for down, and its sections replace allowed-ips. -/
structure Conf.Plain (conf : Conf) : Prop where
  up : conf.ifr.has wgIfUp = false
  down : conf.ifr.has wgIfDown = false
  replaces : ∀ req ∈ conf.peers, req.Replaces

theorem interfaceKey_plain {key val : Text} {ifr ifr' : IfReq}
    (h : interfaceKey w key val ifr = some ifr') :
    ifr'.has wgIfUp = ifr.has wgIfUp ∧ ifr'.has wgIfDown = ifr.has wgIfDown := by
  unfold interfaceKey at h
  split at h
  · obtain ⟨k, -, rfl⟩ := Option.map_eq_some_iff.mp h
    exact ⟨(has_or _ _ _).trans (Bool.or_false _), (has_or _ _ _).trans (Bool.or_false _)⟩
  split at h
  · cases h
    exact ⟨(has_or _ _ _).trans (Bool.or_false _), (has_or _ _ _).trans (Bool.or_false _)⟩
  split at h
  · obtain ⟨a, -, rfl⟩ := Option.map_eq_some_iff.mp h
    exact ⟨(has_or _ _ _).trans (Bool.or_false _), (has_or _ _ _).trans (Bool.or_false _)⟩
  · cases h
    exact ⟨rfl, rfl⟩

/-- A flag that is neither of the two about allowed-ips. -/
theorem replaces_set_flag {req req' : PeerReq} (h : req.Replaces) {flag : U32}
    (hflags : req'.flags = req.flags ||| flag) (haips : flag &&& wgPeerHasAips = 0) :
    req'.Replaces := by
  intro hhas
  unfold PeerReq.has at hhas ⊢
  rw [hflags, has_or] at hhas ⊢
  rw [haips] at hhas
  rw [Bool.or_eq_true]
  exact Or.inl (h (by simpa [PeerReq.has] using hhas))

theorem peerKey_replaces {key val : Text} {req req' : PeerReq} (hreq : req.Replaces)
    (h : peerKey w key val req = some req') : req'.Replaces := by
  unfold peerKey at h
  split at h
  · obtain ⟨k, -, rfl⟩ := Option.map_eq_some_iff.mp h
    exact hreq
  split at h
  · obtain ⟨k, -, rfl⟩ := Option.map_eq_some_iff.mp h
    exact replaces_set_flag hreq rfl (by decide)
  split at h
  · obtain ⟨aips, -, rfl⟩ := Option.map_eq_some_iff.mp h
    intro _
    unfold PeerReq.has
    dsimp only
    rw [has_or, Bool.or_eq_true]
    exact Or.inr (by decide)
  split at h
  · obtain ⟨r, -, rfl⟩ := Option.map_eq_some_iff.mp h
    exact replaces_set_flag hreq rfl (by decide)
  split at h
  · cases h
    exact replaces_set_flag hreq rfl (by decide)
  · cases h
    exact hreq

theorem confLine_plain {maxPeers lineno : Nat} {line : Text} {conf conf' : Conf}
    (hconf : conf.Plain) (h : confLine w maxPeers lineno line conf = .ok conf') : conf'.Plain := by
  have hzero : PeerReq.zero.Replaces := fun hhas => absurd hhas (by decide)
  unfold confLine at h
  dsimp only at h
  split at h
  · cases h
    exact hconf
  split at h
  · cases h
    exact ⟨hconf.up, hconf.down, hconf.replaces⟩
  split at h
  · split at h
    · cases h
    · cases h
      refine ⟨hconf.up, hconf.down, fun req hreq => ?_⟩
      rcases List.mem_append.mp hreq with hreq | hreq
      · exact hconf.replaces req hreq
      · rw [List.mem_singleton] at hreq
        exact hreq ▸ hzero
  split at h
  · cases h
  split at h
  · split at h
    · cases h
    · rename_i ifr hifr
      cases h
      obtain ⟨hup, hdown⟩ := interfaceKey_plain hifr
      exact ⟨hup.trans hconf.up, hdown.trans hconf.down, hconf.replaces⟩
  · split at h
    · cases h
    · rename_i req hreq
      cases h
      refine ⟨hconf.up, hconf.down, fun req' hreq' => ?_⟩
      rcases List.mem_append.mp hreq' with hreq' | hreq'
      · exact hconf.replaces req' (List.dropLast_subset _ hreq')
      · rw [List.mem_singleton] at hreq'
        subst hreq'
        refine peerKey_replaces ?_ hreq
        cases hlast : conf.peers.getLast? with
        | none =>
            rw [List.getLastD_eq_getLast?, hlast]
            exact hzero
        | some last =>
            rw [List.getLastD_eq_getLast?, hlast]
            exact hconf.replaces last (List.mem_of_getLast? hlast)

/-- **Whatever a file says**, the requests it makes are plain. -/
theorem readConf_plain {maxPeers : Nat} {file : Text} {conf : Conf}
    (h : readConf w maxPeers file = .ok conf) : conf.Plain := by
  have hlines : ∀ (ls : List Text) (done : Nat) (start : Conf), start.Plain →
      confLines w maxPeers done ls start = .ok conf → conf.Plain := by
    intro ls
    induction ls with
    | nil =>
        intro done start hstart h
        cases h
        exact hstart
    | cons line rest ih =>
        intro done start hstart h
        unfold confLines at h
        split at h
        · cases h
        · rename_i next hnext
          exact ih (done + 1) next (confLine_plain hstart hnext) h
  refine hlines _ 0 Conf.empty ⟨by decide, by decide, fun req hreq => ?_⟩ h
  cases hreq

/-! ### The interface -/

section Interface

variable {n : Netdev cfg} {req : IfReq}

/-- The driver refuses the request and does nothing: the interface is not stopped, the key is
zero, or there is no memory to save the peers in. -/
def Refuses (env : Env cfg) (n : Netdev cfg) (req : IfReq) : Prop :=
  ((req.has wgIfHasPrivateKey = true ∨ req.has wgIfHasListenPort = true) ∧
      (n.bifup = true ∨ n.rxpid ≠ 0)) ∨
    req.has wgIfHasPrivateKey = true ∧
      (req.privateKey = Bytes.zero 32 ∨ env.savedMalloc = false)

theorem wgSetIf_refused (hup : req.has wgIfUp = false) (h : Refuses env n req) :
    ∃ err, wgSetIf c env n req = (n, .returned (some err)) := by
  unfold wgSetIf
  rw [hup, if_neg (by simp)]
  split
  · exact ⟨_, rfl⟩
  · rename_i hbusy
    rcases h with h | ⟨hkey, h⟩
    · exact absurd h hbusy
    · have hrefused : ∃ err, setPrivateKey c env n req.privateKey = (n, some err) := by
        unfold setPrivateKey
        by_cases hzero : req.privateKey = Bytes.zero 32
        · exact ⟨_, if_pos hzero⟩
        · rcases h with h | h
          · exact absurd h hzero
          · rw [if_neg hzero, if_pos (by simp [h])]
            exact ⟨_, rfl⟩
      obtain ⟨err, herr⟩ := hrefused
      rw [if_pos hkey, herr]
      exact ⟨err, rfl⟩

/-- A private key the driver accepts. -/
theorem setPrivateKey_accepted {privateKey : Key}
    (h : (setPrivateKey c env n privateKey).2 = none) :
    ∃ d : Device cfg, setPrivateKey c env n privateKey = ({ n with wg := d }, none) ∧
      d.privateKey = Crypto.clamp privateKey ∧ d.valid = true ∧
      c.generatePublicKey d.privateKey = some d.publicKey := by
  unfold setPrivateKey at h ⊢
  dsimp only at h ⊢
  split at h
  · cases h
  rename_i hzero
  split at h
  · cases h
  rename_i hmalloc
  split at h
  · cases h
  · rename_i hvalid
    rw [if_neg hzero, if_neg hmalloc, if_neg hvalid]
    refine ⟨_, rfl, ?_⟩
    dsimp only
    unfold wgDeviceInit at hvalid ⊢
    dsimp only at hvalid ⊢
    split at hvalid
    · exact absurd hvalid (not_not.mpr Bool.false_ne_true)
    · rename_i publicKey hpublic
      exact ⟨rfl, rfl, hpublic⟩

/-- A request the driver accepts for a stopped interface. -/
theorem wgSetIf_accepted (hup : req.has wgIfUp = false) (hdown : req.has wgIfDown = false)
    (hstopped : n.bifup = false ∧ n.rxpid = 0)
    (h : (wgSetIf c env n req).2 = .returned none) :
    ∃ d : Device cfg, wgSetIf c env n req = (setPortAddr { n with wg := d } req, .returned none) ∧
      (d.privateKey = if req.has wgIfHasPrivateKey then Crypto.clamp req.privateKey
        else n.wg.privateKey) ∧
      (req.has wgIfHasPrivateKey = true →
        d.valid = true ∧ c.generatePublicKey d.privateKey = some d.publicKey) := by
  unfold wgSetIf at h ⊢
  rw [hup, hdown, if_neg (by simp), if_neg (by simp [hstopped])] at h ⊢
  by_cases hkey : req.has wgIfHasPrivateKey = true
  · simp only [if_pos hkey] at h ⊢
    by_cases herr : (setPrivateKey c env n req.privateKey).2 = none
    · obtain ⟨d, hd, hprivate, hown⟩ := setPrivateKey_accepted c env herr
      rw [hd]
      exact ⟨d, rfl, hprivate, fun _ => hown⟩
    · rw [if_pos herr] at h
      exact absurd (Outcome.returned.inj h) herr
  · simp only [if_neg hkey]
    exact ⟨n.wg, rfl, rfl, fun hc => absurd hc hkey⟩

end Interface

/-! ### The peers -/

/-- Only the table of peers may differ. -/
def SameButPeers (n m : Netdev cfg) : Prop :=
  ∃ peers, m = { n with wg := { n.wg with peers := peers } }

section Peers

variable {n m k : Netdev cfg}

theorem SameButPeers.refl (n : Netdev cfg) : SameButPeers n n := ⟨n.wg.peers, rfl⟩

theorem SameButPeers.trans (h : SameButPeers n m) (h' : SameButPeers m k) : SameButPeers n k := by
  obtain ⟨peers, rfl⟩ := h
  obtain ⟨peers', rfl⟩ := h'
  exact ⟨peers', rfl⟩

theorem SameButPeers.setPeer (n : Netdev cfg) (x : Fin cfg.maxPeers) (p : Peer cfg) :
    SameButPeers n (n.setPeer x p) := ⟨_, rfl⟩

/-- **The loop removes every peer** of a stopped interface. -/
theorem removePeers_spec (now : U32) : ∀ (count : Nat) (n : Netdev cfg), n.bifup = false →
    n.rxpid = 0 → (configuredPeers n).length = count →
      SameButPeers n (removePeers now count n) ∧ configuredPeers (removePeers now count n) = [] := by
  intro count
  induction count with
  | zero =>
      intro n _ _ hlength
      exact ⟨.refl n, List.eq_nil_of_length_eq_zero hlength⟩
  | succ count ih =>
      intro n hdown hpid hlength
      obtain ⟨x, rest, hpeers⟩ := List.exists_cons_of_length_eq_add_one hlength
      obtain ⟨-, hfound⟩ := peerByPubkey_first hpeers
      have hget : wgGetPeer now n 0 = some (peerInfo now (n.peer x)) := by
        unfold wgGetPeer
        rw [hpeers]
        rfl
      have hdel : wgDelPeer n (peerInfo now (n.peer x)).publicKey = (n.setPeer x Peer.zero, none) := by
        unfold wgDelPeer
        rw [if_neg (by simp [hdown, hpid])]
        simp only [peerInfo, hfound]
      unfold removePeers
      rw [hget]
      dsimp only
      rw [hdel]
      have hrest := configuredPeers_remove hpeers
      obtain ⟨hsame, hnone⟩ := ih (n.setPeer x Peer.zero) hdown hpid (by
        rw [hrest]
        rw [hpeers, List.length_cons] at hlength
        omega)
      exact ⟨(SameButPeers.setPeer n x Peer.zero).trans hsame, hnone⟩

/-- A peer without a session, at its configured endpoint. -/
def AtHome (v : PeerView cfg) : Prop :=
  v.valid = true → v.ip = v.connectIp ∧ v.port = v.connectPort ∧ (v.slots .curr).valid = false

theorem atHome_applyPeerReq {req : PeerReq} {created : Bool} {allowed : List AllowedIp}
    {p : Peer cfg} (h : AtHome p.view) : AtHome (applyPeerReq n req created allowed p).view := by
  rw [applyPeerReq_view]
  split
  · intro hvalid
    obtain ⟨-, -, hcurr⟩ := h hvalid
    have hlive : created = true ∨ ¬p.currKeypair.valid = true :=
      Or.inr (by rw [show p.currKeypair.valid = false from hcurr]; exact Bool.false_ne_true)
    exact ⟨if_pos hlive, if_pos hlive, hcurr⟩
  · exact h

theorem wgPeerInit_atHome (d : Device cfg) (publicKey : Key) (psk : Option Key) :
    AtHome (wgPeerInit c d publicKey psk).view := by
  unfold wgPeerInit
  split
  · intro hvalid
    cases hvalid
  · split
    · intro hvalid
      cases hvalid
    · exact fun _ => ⟨rfl, rfl, rfl⟩

theorem wgSetPeer_atHome (req : PeerReq) (hn : ∀ x, AtHome (n.peer x).view) :
    SameButPeers n (wgSetPeer c n req).1 ∧ ∀ x, AtHome ((wgSetPeer c n req).1.peer x).view := by
  have hset : ∀ (x : Fin cfg.maxPeers) (p : Peer cfg), AtHome p.view →
      SameButPeers n (n.setPeer x p) ∧ ∀ y, AtHome ((n.setPeer x p).peer y).view := by
    intro x p hp
    refine ⟨.setPeer n x p, fun y => ?_⟩
    by_cases hy : y = x
    · rw [hy, setPeer_peer_self]
      exact hp
    · rw [setPeer_peer_of_ne n x p hy]
      exact hn y
  rcases wgSetPeer_outcomes c n req with ⟨err, h⟩ | ⟨x, allowed, -, -, ⟨-, h⟩ | ⟨-, -, -, h⟩ |
    ⟨-, -, -, h⟩⟩
  · rw [h]
    exact ⟨.refl n, hn⟩
  · rw [h]
    refine hset x _ (atHome_applyPeerReq ?_)
    unfold rekeyedPeer
    split <;> exact hn x
  · rw [h]
    exact hset x _ (atHome_applyPeerReq (wgPeerInit_atHome c _ _ _))
  · rw [h]
    exact hset x _ (wgPeerInit_atHome c _ _ _)

/-- **The loop adds the sections up to the first one that is refused.** -/
theorem addPeers_spec : ∀ (reqs : List PeerReq) (n : Netdev cfg), PeerKeysDistinct n.wg →
    (∀ x, AtHome (n.peer x).view) → (∀ req ∈ reqs, req.Replaces) →
      SameButPeers n (addPeers c reqs n).1 ∧ PeerKeysDistinct (addPeers c reqs n).1.wg ∧
      (∀ x, AtHome ((addPeers c reqs n).1.peer x).view) ∧
      ∃ done rest, reqs = done ++ rest ∧ ((addPeers c reqs n).2 = true ↔ rest = []) ∧
        configured (addPeers c reqs n).1.wg = done.foldl Configured.ask (configured n.wg) ∧
        ∀ req more, rest = req :: more → ∃ err, addPeers c done n = ((addPeers c done n).1, true) ∧
          wgSetPeer c (addPeers c done n).1 req = ((addPeers c reqs n).1, some err) := by
  intro reqs
  induction reqs with
  | nil =>
      intro n hkeys hhome _
      exact ⟨.refl n, hkeys, hhome, [], [], rfl, ⟨fun _ => rfl, fun _ => rfl⟩, rfl,
        fun req more hc => absurd hc.symm (List.cons_ne_nil _ _)⟩
  | cons req reqs ih =>
      intro n hkeys hhome hreplace
      have hkeys' := @wgSetPeer_distinct _ c n req hkeys
      have hconf := wgSetPeer_configured c hkeys (hreplace req List.mem_cons_self)
      obtain ⟨hsame, hhome'⟩ := wgSetPeer_atHome c req hhome
      rcases hr : wgSetPeer c n req with ⟨n', err⟩
      rw [hr] at hkeys' hconf hsame hhome'
      cases err with
      | some err =>
          have hstop : addPeers c (req :: reqs) n = (n', false) := by
            unfold addPeers
            rw [hr]
          rw [hstop]
          refine ⟨hsame, hkeys', hhome', [], req :: reqs, rfl, ?_, hconf, ?_⟩
          · exact ⟨fun hc => absurd hc Bool.false_ne_true, fun hc => absurd hc (List.cons_ne_nil _ _)⟩
          · intro req' more hc
            cases hc
            exact ⟨err, rfl, hr⟩
      | none =>
          have hgo : ∀ more, addPeers c (req :: more) n = addPeers c more n' := by
            intro more
            rw [addPeers, hr]
          rw [hgo]
          dsimp only at hkeys' hconf hsame hhome'
          rw [if_pos rfl] at hconf
          obtain ⟨hsame', hkeys'', hhome'', done, rest, hsplit, hall, hdone, hrefused⟩ :=
            ih n' hkeys' hhome' fun r hr => hreplace r (List.mem_cons_of_mem _ hr)
          refine ⟨hsame.trans hsame', hkeys'', hhome'', req :: done, rest, ?_, hall, ?_, ?_⟩
          · rw [hsplit, List.cons_append]
          · rw [hdone, hconf, List.foldl_cons]
          · rw [hgo]
            exact hrefused

end Peers

/-! ### The whole command -/

theorem configured_of_none {n : Netdev cfg} (h : configuredPeers n = []) :
    (∀ x, (n.peer x).valid = false) ∧ PeerKeysDistinct n.wg ∧ configured n.wg = fun _ => none := by
  have hnone : ∀ x, (n.peer x).valid = false := by
    intro x
    have hx := List.filter_eq_nil_iff.mp h x (List.mem_finRange x)
    simpa using hx
  have hkeys : PeerKeysDistinct n.wg := by
    intro x y hx
    rw [show (n.wg.peers x).valid = false from hnone x] at hx
    cases hx
  refine ⟨hnone, hkeys, ?_⟩
  funext publicKey
  ext conf
  rw [hkeys.configured_iff]
  constructor
  · rintro ⟨x, hx, -⟩
    rw [show (n.wg.peers x).valid = false from hnone x] at hx
    cases hx
  · intro hc
    cases hc

/-- The sections' peers are the configured ones: each at its endpoint, and none besides. -/
structure Loaded (n : Netdev cfg) (sections : List PeerReq) : Prop where
  distinct : PeerKeysDistinct n.wg
  peers : configured n.wg = sections.foldl Configured.ask fun _ => none
  home : ∀ x, (n.peer x).valid = true →
    (n.peer x).ip = (n.peer x).connectIp ∧ (n.peer x).port = (n.peer x).connectPort

/-- **The sections are added to an empty table**, up to the first one that is refused. -/
theorem addPeers_loaded {n : Netdev cfg} {reqs : List PeerReq} (hnone : configuredPeers n = [])
    (hreplace : ∀ req ∈ reqs, req.Replaces) :
    ∃ done rest, reqs = done ++ rest ∧ ((addPeers c reqs n).2 = true ↔ rest = []) ∧
      Loaded (addPeers c reqs n).1 done ∧ SameButPeers n (addPeers c reqs n).1 ∧
      ∀ req more, rest = req :: more → ∃ err, addPeers c done n = ((addPeers c done n).1, true) ∧
        wgSetPeer c (addPeers c done n).1 req = ((addPeers c reqs n).1, some err) := by
  obtain ⟨hinvalid, hkeys, hempty⟩ := configured_of_none hnone
  have hhome : ∀ x, AtHome (n.peer x).view := by
    intro x hvalid
    rw [show (n.peer x).view.valid = false from hinvalid x] at hvalid
    cases hvalid
  obtain ⟨hsame, hkeys', hhome', done, rest, hsplit, hall, hdone, hrefused⟩ :=
    addPeers_spec c reqs n hkeys hhome hreplace
  rw [hempty] at hdone
  refine ⟨done, rest, hsplit, hall, ⟨hkeys', hdone, fun x hx => ?_⟩, hsame, hrefused⟩
  obtain ⟨hip, hport, -⟩ := hhome' x hx
  exact ⟨hip, hport⟩

theorem wgCmdSetconf_unread {n : Netdev cfg} {file : Text} {err : ConfError}
    (hfile : readConf w cfg.maxPeers file = .error err) :
    wgCmdSetconf c env w n (some file) = (n, false) := by
  unfold wgCmdSetconf
  dsimp only
  rw [hfile]

theorem wgCmdSetconf_refused {n : Netdev cfg} {file : Text} {conf : Conf}
    (hfile : readConf w cfg.maxPeers file = .ok conf) (h : Refuses env n conf.ifr) :
    wgCmdSetconf c env w n (some file) = (n, false) := by
  obtain ⟨err, herr⟩ := wgSetIf_refused c env (readConf_plain hfile).up h
  unfold wgCmdSetconf
  dsimp only
  rw [hfile]
  dsimp only
  rw [herr]

/-- With a stopped interface and an accepted request, the sections are added to an empty table. -/
theorem wgCmdSetconf_adds (hpeers : cfg.maxPeers < 2 ^ 16) {n : Netdev cfg} {file : Text}
    {conf : Conf} (hfile : readConf w cfg.maxPeers file = .ok conf)
    (hstopped : n.bifup = false ∧ n.rxpid = 0)
    (hset : (wgSetIf c env n conf.ifr).2 = .returned none) :
    ∃ (d : Device cfg) (m : Netdev cfg),
      (d.privateKey = if conf.ifr.has wgIfHasPrivateKey then Crypto.clamp conf.ifr.privateKey
        else n.wg.privateKey) ∧
      (conf.ifr.has wgIfHasPrivateKey = true →
        d.valid = true ∧ c.generatePublicKey d.privateKey = some d.publicKey) ∧
      SameButPeers (setPortAddr { n with wg := d } conf.ifr) m ∧ configuredPeers m = [] ∧
      wgCmdSetconf c env w n (some file) = addPeers c conf.peers m := by
  have hplain := readConf_plain hfile
  obtain ⟨d, hd, hprivate, hown⟩ := wgSetIf_accepted c env hplain.up hplain.down hstopped hset
  have hport : (setPortAddr { n with wg := d } conf.ifr).bifup = false ∧
      (setPortAddr { n with wg := d } conf.ifr).rxpid = 0 := by
    unfold setPortAddr
    dsimp only
    split <;> split <;> exact hstopped
  have hcount : (wgGetIf (setPortAddr { n with wg := d } conf.ifr)).npeers.toNat
      = (configuredPeers (setPortAddr { n with wg := d } conf.ifr)).length :=
    npeers_toNat hpeers _
  obtain ⟨hsame, hnone⟩ := removePeers_spec env.now _ _ hport.1 hport.2 hcount.symm
  refine ⟨d, _, hprivate, hown, hsame, hnone, ?_⟩
  unfold wgCmdSetconf
  dsimp only
  rw [hfile]
  dsimp only
  rw [hd]

/-- **Loading a file into a stopped interface.** -/
theorem wgCmdSetconf_stopped (hpeers : cfg.maxPeers < 2 ^ 16) {n : Netdev cfg} {file : Text}
    {conf : Conf} (hfile : readConf w cfg.maxPeers file = .ok conf)
    (hstopped : n.bifup = false ∧ n.rxpid = 0)
    (hset : (wgSetIf c env n conf.ifr).2 = .returned none) :
    ∃ (d : Device cfg) (done rest : List PeerReq),
      (d.privateKey = if conf.ifr.has wgIfHasPrivateKey then Crypto.clamp conf.ifr.privateKey
        else n.wg.privateKey) ∧
      (conf.ifr.has wgIfHasPrivateKey = true →
        d.valid = true ∧ c.generatePublicKey d.privateKey = some d.publicKey) ∧
      SameButPeers (setPortAddr { n with wg := d } conf.ifr)
        (wgCmdSetconf c env w n (some file)).1 ∧
      conf.peers = done ++ rest ∧ ((wgCmdSetconf c env w n (some file)).2 = true ↔ rest = []) ∧
      Loaded (wgCmdSetconf c env w n (some file)).1 done ∧
      ∀ req more, rest = req :: more → ∃ m err, Loaded m done ∧
        SameButPeers (setPortAddr { n with wg := d } conf.ifr) m ∧
        wgSetPeer c m req = ((wgCmdSetconf c env w n (some file)).1, some err) := by
  have hplain := readConf_plain hfile
  obtain ⟨d, m, hprivate, hown, hsame, hnone, heq⟩ :=
    wgCmdSetconf_adds c env hpeers hfile hstopped hset
  rw [heq]
  obtain ⟨done, rest, hsplit, hall, hloaded, hsame', hrefused⟩ :=
    addPeers_loaded c hnone hplain.replaces
  refine ⟨d, done, rest, hprivate, hown, hsame.trans hsame', hsplit, hall, hloaded,
    fun req more hrest => ?_⟩
  obtain ⟨err, hdone, hreq⟩ := hrefused req more hrest
  have hreplace : ∀ r ∈ done, r.Replaces := by
    intro r hr
    refine hplain.replaces r ?_
    rw [hsplit]
    exact List.mem_append_left _ hr
  obtain ⟨done', rest', hsplit', hall', hloaded', hdoneSame, -⟩ := addPeers_loaded c hnone hreplace
  have hrest' : rest' = [] := hall'.mp (by rw [hdone])
  rw [hrest', List.append_nil] at hsplit'
  exact ⟨_, err, hsplit' ▸ hloaded', hsame.trans hdoneSame, hreq⟩

/-- **Loading a file, step by step.**  A file that cannot be read or does not parse, and an
interface request the driver refuses, leave the device as it was.  With the interface stopped
and the request accepted, no old peer survives: the peers are what the sections of the file ask
for, each merged into the peer with its key, up to the first section the driver refuses; zero is
returned exactly if it refuses none; and the private key, the port and the address are those of
the file, where it gives them. -/
theorem setconf_loads (hpeers : cfg.maxPeers < 2 ^ 16) (n : Netdev cfg) (file : Option Text) :
    let r := wgCmdSetconf c env w n file
    ((file = none ∨ ∃ text err, file = some text ∧ readConf w cfg.maxPeers text = .error err) →
      r = (n, false)) ∧
    ∀ text conf, file = some text → readConf w cfg.maxPeers text = .ok conf →
      (Refuses env n conf.ifr → r = (n, false)) ∧
      (n.bifup = false → n.rxpid = 0 → (wgSetIf c env n conf.ifr).2 = .returned none →
        ∃ done rest, conf.peers = done ++ rest ∧ (r.2 = true ↔ rest = []) ∧
          Loaded r.1 done ∧
          ((done.map PeerReq.publicKey).Nodup → ∀ key, configured r.1.wg key =
            (done.find? fun req => decide (req.publicKey = key)).map PeerConf.empty.asked) ∧
          (∀ req more, rest = req :: more →
            ∃ m err, Loaded m done ∧ wgSetPeer c m req = (r.1, some err)) ∧
          r.1.wg.privateKey = (if conf.ifr.has wgIfHasPrivateKey
            then Crypto.clamp conf.ifr.privateKey else n.wg.privateKey) ∧
          r.1.listenPort = (if conf.ifr.has wgIfHasListenPort
            then conf.ifr.listenPort else n.listenPort) ∧
          r.1.ipaddr = (if conf.ifr.has wgIfHasAddr then conf.ifr.addr else n.ipaddr) ∧
          r.1.netmask = (if conf.ifr.has wgIfHasAddr then conf.ifr.netmask else n.netmask)) := by
  intro r
  refine ⟨?_, ?_⟩
  · rintro (rfl | ⟨text, err, rfl, herr⟩)
    · rfl
    · exact wgCmdSetconf_unread c env herr
  · rintro text conf rfl hconf
    refine ⟨fun hrefuses => ?_, fun hdown hpid hset => ?_⟩
    · exact wgCmdSetconf_refused c env hconf hrefuses
    · obtain ⟨d, done, rest, hprivate, -, hsame, hsplit, hall, hloaded, hrefused⟩ :=
        wgCmdSetconf_stopped c env hpeers hconf ⟨hdown, hpid⟩ hset
      obtain ⟨peers, hr⟩ := hsame
      refine ⟨done, rest, hsplit, hall, hloaded, fun hnodup key => ?_, fun req more hrest => ?_, ?_⟩
      · rw [hloaded.peers, foldl_ask_of_nodup done _ hnodup fun _ _ => rfl]
        cases done.find? fun req => decide (req.publicKey = key) <;> rfl
      · obtain ⟨m, err, hm, -, hreq⟩ := hrefused req more hrest
        exact ⟨m, err, hm, hreq⟩
      · show (wgCmdSetconf c env w n (some text)).1.wg.privateKey = _ ∧ _
        rw [← hprivate]
        show _ ∧ (wgCmdSetconf c env w n (some text)).1.listenPort = _ ∧
          (wgCmdSetconf c env w n (some text)).1.ipaddr = _ ∧
          (wgCmdSetconf c env w n (some text)).1.netmask = _
        rw [hr]
        unfold setPortAddr
        dsimp only
        refine ⟨?_, ?_, ?_, ?_⟩ <;> split <;> split <;> rfl

/-! ### Runs on a small network -/

/-- A file with a private key and one peer. -/
def sampleFile : Text :=
  confEntry Word.privateKey (wgB64Encode (Sample.key 8 64)) ++ Word.peer ++ ['\n'] ++
    confEntry Word.publicKey (wgB64Encode (Sample.key 5 0))

/-- Another peer takes the place of the one there was. -/
theorem setconf_loads_sample : ∃ (n : Netdev Sample.config) (conf : Conf),
    ReachableState Crypto.plain n ∧ (n.peer Sample.first).valid = true ∧
      readConf .lp64 Sample.config.maxPeers sampleFile = .ok conf ∧
      ∃ done rest, conf.peers = done ++ rest ∧
        Loaded (wgCmdSetconf Crypto.plain (Sample.env 2000) .lp64 n (some sampleFile)).1 done := by
  obtain ⟨n, hn, hrun⟩ := Sample.exists_reachable [Sample.setKey 1000, Sample.setFirst none]
    (fun n => (n.peer Sample.first).valid && !n.bifup && decide (n.rxpid = 0) &&
      match readConf .lp64 Sample.config.maxPeers sampleFile with
      | .ok conf =>
        decide ((wgSetIf Crypto.plain (Sample.env 2000) n conf.ifr).2 = .returned none)
      | .error _ => false) (by decide +kernel)
  simp only [Bool.and_eq_true, Bool.not_eq_true', decide_eq_true_eq] at hrun
  obtain ⟨⟨⟨hvalid, hdown⟩, hpid⟩, hset⟩ := hrun
  cases hconf : readConf .lp64 Sample.config.maxPeers sampleFile with
  | error err =>
      rw [hconf] at hset
      cases hset
  | ok conf =>
      rw [hconf] at hset
      obtain ⟨done, rest, hsplit, -, hloaded, -⟩ :=
        ((setconf_loads Crypto.plain (Sample.env 2000) (by decide) n (some sampleFile)).2
          sampleFile conf rfl hconf).2 hdown hpid (of_decide_eq_true hset)
      exact ⟨n, conf, hn, hvalid, rfl, done, rest, hsplit, hloaded⟩

/-- A file whose one section names no peer. -/
def namelessFile : Text := Word.peer ++ ['\n']

/-- **Loading is no transaction**: it returns nonzero, and the peer there was is gone. -/
theorem not_setconf_loads_nameless : ∃ n : Netdev Sample.config,
    ReachableState Crypto.plain n ∧ (n.peer Sample.first).valid = true ∧
      (wgCmdSetconf Crypto.plain (Sample.env 2000) .lp64 n (some namelessFile)).2 = false ∧
      ∀ x, ((wgCmdSetconf Crypto.plain (Sample.env 2000) .lp64 n (some namelessFile)).1.peer x).valid
        = false := by
  obtain ⟨n, hn, hrun⟩ := Sample.exists_reachable [Sample.setKey 1000, Sample.setFirst none]
    (fun n => (n.peer Sample.first).valid &&
      decide ((wgCmdSetconf Crypto.plain (Sample.env 2000) .lp64 n (some namelessFile)).2 = false) &&
      decide (∀ x, ((wgCmdSetconf Crypto.plain (Sample.env 2000) .lp64 n (some namelessFile)).1.peer
        x).valid = false)) (by decide +kernel)
  simp only [Bool.and_eq_true, decide_eq_true_eq] at hrun
  obtain ⟨⟨hvalid, hzero⟩, hgone⟩ := hrun
  exact ⟨n, hn, hvalid, hzero, hgone⟩

end NuttxWireguard.Cli
