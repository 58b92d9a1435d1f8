/-
The configuration file of the flat port (`wg_writeconf`, `wg_setconf`).

The file is read line by line.  A `PrivateKey` line is applied as it is read; the other keys
fill an accumulator, which the next section header and the end of the file turn into a staged
peer.  An error ends the reading and empties the list of peers, so that a file that is
refused leaves none: `wg_initialize` then falls back on the peer of the build, if it has one.
-/
import NuttxWireguard.Flat.Staged
import Mathlib.Data.List.DropRight

namespace NuttxWireguard.Flat

open Lib

/-! ### Words -/

namespace Word

def interface : Text := ['[', 'I', 'n', 't', 'e', 'r', 'f', 'a', 'c', 'e', ']']
def peer : Text := ['[', 'P', 'e', 'e', 'r', ']']
def privateKey : Text := ['P', 'r', 'i', 'v', 'a', 't', 'e', 'K', 'e', 'y']
def listenPort : Text := ['L', 'i', 's', 't', 'e', 'n', 'P', 'o', 'r', 't']
def publicKey : Text := ['P', 'u', 'b', 'l', 'i', 'c', 'K', 'e', 'y']
def endpoint : Text := ['E', 'n', 'd', 'p', 'o', 'i', 'n', 't']
def allowedIps : Text := ['A', 'l', 'l', 'o', 'w', 'e', 'd', 'I', 'P', 's']
def persistentKeepalive : Text :=
  ['P', 'e', 'r', 's', 'i', 's', 't', 'e', 'n', 't', 'K', 'e', 'e', 'p', 'a', 'l', 'i', 'v', 'e']

end Word

/-! ### Writing -/

/-- The loop of `wg_mask_to_prefix`, with `left` rounds to go. -/
def maskPrefixLoop : (left : Nat) → U32 → Nat
  | 0, _ => 0
  | left + 1, m => if m &&& 0x80000000 ≠ 0 then maskPrefixLoop left (m <<< 1) + 1 else 0

/-- `wg_mask_to_prefix`. -/
def wgMaskToPrefix (mask : Text) : Nat :=
  match inetPton mask with
  | none => 32
  | some addr => maskPrefixLoop 32 (ntohl addr)

/-- `"PrivateKey = %s\n"` and its like. -/
def confEntry (key val : Text) : Text := key ++ [' ', '=', ' '] ++ val ++ ['\n']

/-- `wg_showconf_peer`. -/
def wgShowconfPeer (kc : Kconfig) (p : StagedPeer) : Text :=
  ['\n'] ++ Word.peer ++ ['\n'] ++ confEntry Word.publicKey p.publicKey ++
    confEntry Word.allowedIps (p.allowedIp ++ '/' :: decimal (wgMaskToPrefix p.allowedMask)) ++
    (if p.endpointIp.length > 0 then
      confEntry Word.endpoint (p.endpointIp ++ ':' :: decimalInt
        (if p.endpointPort ≠ 0 then (p.endpointPort.toNat : Int) else kc.peerEndpointPort.toInt))
    else []) ++
    confEntry Word.persistentKeepalive
      (decimalInt (if p.keepalive.toInt ≥ 0 then p.keepalive.toInt else kc.peerKeepalive.toInt))

/-- `wg_writeconf`: what it writes, and what it returns. -/
def wgWriteconf (kc : Kconfig) (st : Staged) : Text × Option Errno :=
  let key := wgCfgStr st.privateKey kc.privateKey
  if key.length = 0 then ([], some .enodata)
  else
    (Word.interface ++ ['\n'] ++ confEntry Word.privateKey key ++
      confEntry Word.listenPort (decimalInt kc.listenPort.toInt) ++
      (if st.peers.length > 0 then st.peers.flatMap (wgShowconfPeer kc)
      else if kc.peerPublicKey.length = 0 then []
      else wgShowconfPeer kc kc.peer), none)

/-! ### Reading -/

/-- What `wg_conf_trim` drops at the end. -/
def isTrailing (ch : Char) : Bool := ch == ' ' || ch == '\t' || ch == '\r' || ch == '\n'

/-- `wg_conf_trim`. -/
def wgConfTrim (s : Text) : Text := (skipBlanks s).rdropWhile isTrailing

/-- `struct wg_conf_peer_s`. -/
structure ConfPeer where
  pubkey : Text
  endpoint : Text
  allowed : Text
  keepalive : BitVec 32
  valid : Bool

/-- A cleared accumulator. -/
def ConfPeer.zero : ConfPeer := ⟨[], [], [], -1, false⟩

/-- The staged configuration and the section that is being read. -/
structure Loading where
  staged : Staged
  acc : ConfPeer

/-- A string of the accumulator, or a null pointer. -/
def unlessEmpty (s : Text) : Option Text := if s ≠ [] then some s else none

/-- `wg_conf_flush_peer`. -/
def wgConfFlushPeer (kc : Kconfig) (maxPeers : Nat) (l : Loading) : Except Errno Staged :=
  if l.acc.valid then
    wgSetPeer kc maxPeers false l.staged (some l.acc.pubkey) (unlessEmpty l.acc.endpoint)
      (unlessEmpty l.acc.allowed) l.acc.keepalive
  else .ok l.staged

/-- What a key and its value do. -/
def confKey (w : LongWidth) (k v : Text) (l : Loading) : Except Errno Loading :=
  if strcasecmp k Word.privateKey then
    (wgSetPrivateKey false l.staged v).map fun staged => { l with staged := staged }
  else if strcasecmp k Word.publicKey then
    .ok { l with acc := { l.acc with pubkey := strlcpy wgKeyStrlen v, valid := true } }
  else if strcasecmp k Word.endpoint then
    .ok { l with acc := { l.acc with endpoint := strlcpy (inetAddrstrlen + 8) v } }
  else if strcasecmp k Word.allowedIps then
    .ok { l with acc := { l.acc with allowed := strlcpy (inetAddrstrlen + 8) v } }
  else if strcasecmp k Word.persistentKeepalive then
    .ok { l with acc := { l.acc with keepalive := BitVec.ofInt 32 (atoi w v) } }
  else .ok l

/-- The body of the loop of `wg_setconf`; `line` is what `fgets` delivered. -/
def confLine (kc : Kconfig) (maxPeers : Nat) (line : Text) (l : Loading) : Except Errno Loading :=
  let k := wgConfTrim (cString line)
  if k = [] ∨ k.head? = some '#' ∨ k.head? = some ';' then .ok l
  else if k.head? = some '[' then
    (wgConfFlushPeer kc maxPeers l).map fun staged => ⟨staged, ConfPeer.zero⟩
  else
    match strchr '=' k with
    | none => .ok l
    | some (k, eq) => confKey kc.long (wgConfTrim k) (wgConfTrim eq) l

/-- The loop: what it leaves, and the error that ended it. -/
def confLines (kc : Kconfig) (maxPeers : Nat) : List Text → Loading → Loading × Option Errno
  | [], l => (l, none)
  | line :: rest, l =>
    match confLine kc maxPeers line l with
    | .error errno => (l, some errno)
    | .ok l => confLines kc maxPeers rest l

/-- The size of `line`. -/
def confLineMax : Nat := 128

/-- `wg_setconf` from `fopen` on, of what stands in the file: the staged configuration it
leaves and what it returns. -/
def wgLoadconf (kc : Kconfig) (maxPeers : Nat) (st : Staged) (file : Text) :
    Staged × Option Errno :=
  match confLines kc maxPeers (lines confLineMax file) ⟨{ st with peers := [] }, ConfPeer.zero⟩ with
  | (l, some errno) => ({ l.staged with peers := [] }, some errno)
  | (l, none) =>
    match wgConfFlushPeer kc maxPeers l with
    | .error errno => ({ l.staged with peers := [] }, some errno)
    | .ok staged => (staged, none)

/-- `wg_setconf`, of a file or its absence; `registered` says that the device is up. -/
def wgSetconf (kc : Kconfig) (maxPeers : Nat) (registered : Bool) (st : Staged)
    (file : Option Text) : Staged × Option Errno :=
  if registered then (st, some .ebusy)
  else
    match file with
    | none => (st, some .enoent)
    | some file => wgLoadconf kc maxPeers st file

/-! ### A file that is refused -/

section Refused

variable {cfg : Config} (c : Crypto) {kc : Kconfig}

/-- Nothing is staged after an error. -/
theorem wgLoadconf_error {maxPeers : Nat} {st st' : Staged} {file : Text} {errno : Errno}
    (h : wgLoadconf kc maxPeers st file = (st', some errno)) : st'.peers = [] := by
  unfold wgLoadconf at h
  split at h
  · cases h
    rfl
  · split at h
    · cases h
      rfl
    · cases h

/-- The build names a peer that the device, with this private key, registers. -/
def Kconfig.BuiltIn (kc : Kconfig) (maxPeers : Nat) (key : Key) : Prop :=
  0 < maxPeers ∧ kc.peerPublicKey ≠ [] ∧
    ∃ publicKey, wgDecodeKey (strlcpy wgKeyStrlen kc.peerPublicKey) = some publicKey ∧
      c.dh (Crypto.clamp key) publicKey ≠ none

/-- No peer is registered. -/
def NoPeer (n : Netdev cfg) : Prop := ∀ x, (n.peer x).valid = false

/-- A device that was just initialised, with the peers of the configuration. -/
theorem wgInitialize_some {env : Env cfg} {probe key : Key} {peers : List PeerConfig}
    {n : Netdev cfg} (h : wgInitialize c env probe key peers = some n) : ∃ d : Device cfg,
      wireguardDeviceInit c env key = some d ∧
        n.wg = { peers.foldl (wgAddPeer c) d with
          peers := fun x => wgIfupPeer ((peers.foldl (wgAddPeer c) d).peers x) } := by
  unfold wgInitialize at h
  split at h
  · cases h
  · split at h
    · cases h
    · rename_i d hd
      cases h
      exact ⟨d, hd, rfl⟩

@[simp] theorem wgIfupPeer_valid (p : Peer cfg) : (wgIfupPeer p).valid = p.valid := by
  unfold wgIfupPeer
  split <;> rfl

theorem wireguardDeviceInit_key {env : Env cfg} {key : Key} {d : Device cfg}
    (h : wireguardDeviceInit c env key = some d) :
    d.valid = true ∧ d.privateKey = Crypto.clamp key ∧ ∀ x, (d.peers x).valid = false := by
  unfold wireguardDeviceInit at h
  split at h
  · cases h
  · cases h
    exact ⟨rfl, rfl, fun _ => rfl⟩

/-- The peer's record is valid if the key agreement worked. -/
theorem wireguardPeerInit_valid {d : Device cfg} (hd : d.valid = true) (publicKey : Key) :
    (wireguardPeerInit c d publicKey none).valid = true ↔ c.dh d.privateKey publicKey ≠ none := by
  unfold wireguardPeerInit
  rw [if_neg (not_not.mpr hd)]
  dsimp only
  cases c.dh d.privateKey publicKey with
  | none => exact ⟨fun h => (by cases h), fun h => absurd rfl h⟩
  | some dh => exact ⟨fun _ => Option.some_ne_none _, fun _ => rfl⟩

theorem PeerConfig.configure_valid (pc : PeerConfig) (p : Peer cfg) :
    (pc.configure p).valid = p.valid := by
  unfold PeerConfig.configure
  dsimp only
  split <;> rfl

/-- One peer, added to a device that has none. -/
theorem wgAddPeer_noPeer {d : Device cfg} (hd : d.valid = true)
    (hnone : ∀ x, (d.peers x).valid = false) (pc : PeerConfig) :
    (∀ x, ((wgAddPeer c d pc).peers x).valid = false) ↔
      ¬(0 < cfg.maxPeers ∧ ∃ publicKey, pc.publicKey = some publicKey ∧
        c.dh d.privateKey publicKey ≠ none) := by
  unfold wgAddPeer
  cases hkey : pc.publicKey with
  | none =>
      refine ⟨fun _ h => ?_, fun _ => hnone⟩
      obtain ⟨-, publicKey, hc, -⟩ := h
      cases hc
  | some publicKey =>
      dsimp only
      cases halloc : peerAlloc d with
      | none =>
          refine ⟨fun _ h => ?_, fun _ => hnone⟩
          have hfull := List.find?_eq_none.mp halloc ⟨0, h.1⟩ (List.mem_finRange _)
          rw [hnone] at hfull
          exact hfull rfl
      | some x =>
          have hvalid := wireguardPeerInit_valid c hd publicKey
          dsimp only
          split
          · rename_i hp
            refine ⟨fun h => ?_, fun h => absurd ⟨x.pos, publicKey, rfl, hvalid.mp hp⟩ h⟩
            have hx := h x
            rw [Device.setPeer_peers_self, PeerConfig.configure_valid, hp] at hx
            cases hx
          · rename_i hp
            refine ⟨fun _ h => ?_, fun _ y => ?_⟩
            · obtain ⟨-, key, hkey', hdh⟩ := h
              cases hkey'
              exact hp (hvalid.mpr hdh)
            · by_cases hy : y = x
              · rw [hy, Device.setPeer_peers_self]
                exact Bool.eq_false_iff.mpr hp
              · rw [Device.setPeer_peers_of_ne d _ hy]
                exact hnone y

/-- **After a file that was refused the device comes up with no peer**, exactly if the build
names none that it would register. -/
theorem failedLoad_noPeer_iff {env : Env cfg} {probe : Key} {st st' : Staged} {file : Text}
    {errno : Errno} {n : Netdev cfg}
    (h : wgSetconf kc cfg.maxPeers false st (some file) = (st', some errno))
    (hup : wgInitializeStaged c env probe kc st' = some n) :
    NoPeer n ↔ ∀ key, wgStagedKey kc st' = some key → ¬kc.BuiltIn c cfg.maxPeers key := by
  have hpeers : st'.peers = [] := wgLoadconf_error h
  unfold wgInitializeStaged at hup
  split at hup
  · cases hup
  rename_i key hkey
  have hsame : (∀ k, wgStagedKey kc st' = some k → ¬kc.BuiltIn c cfg.maxPeers k) ↔
      ¬kc.BuiltIn c cfg.maxPeers key := by
    refine ⟨fun h => h key hkey, fun h k hk => ?_⟩
    rw [← Option.some.inj (hkey.symm.trans hk)]
    exact h
  rw [hsame]
  obtain ⟨d, hd, hwg⟩ := wgInitialize_some c hup
  obtain ⟨hvalid, hprivate, hnone⟩ := wireguardDeviceInit_key c hd
  have hpeer : NoPeer n ↔
      ∀ x, ((((wgConfigurePeer kc st').map (·.config kc)).foldl (wgAddPeer c) d).peers x).valid
        = false := by
    refine forall_congr' fun x => ?_
    unfold Netdev.peer
    rw [hwg, wgIfupPeer_valid]
  rw [hpeer]
  unfold wgConfigurePeer Kconfig.BuiltIn
  rw [hpeers, if_neg (show ¬([] : List StagedPeer).length > 0 from Nat.lt_irrefl 0)]
  by_cases hbuild : kc.peerPublicKey = []
  · rw [hbuild, List.length_nil, if_pos rfl]
    exact ⟨fun _ h => h.2.1 rfl, fun _ => hnone⟩
  · rw [if_neg (mt List.length_eq_zero_iff.mp hbuild)]
    have hadd := wgAddPeer_noPeer c hvalid hnone (kc.peer.config kc)
    rw [hprivate] at hadd
    refine hadd.trans (not_congr (and_congr_right fun _ => ?_))
    exact ⟨fun h => ⟨hbuild, h⟩, fun h => h.2⟩

end Refused

namespace Sample

open NuttxWireguard.Sample

/-- A file with a private key that is none. -/
def badFile : Text := Word.interface ++ ['\n'] ++ confEntry Word.privateKey ['x']

/-- The device comes up all the same, with the private key of the build. -/
theorem up_refused (peer : Text) (registered : Bool) (h : (wgInitializeStaged Crypto.plain
      (Sample.env 1000) (NuttxWireguard.Sample.key 1 1) (build peer) Staged.empty).any
        (fun n : Netdev config => decide ((List.finRange config.maxPeers).any
          (fun x => (n.peer x).valid) = registered)) = true) :
    ∃ n : Netdev config, wgInitializeStaged Crypto.plain (Sample.env 1000) (key 1 1)
      (build peer) Staged.empty = some n ∧
        (List.finRange config.maxPeers).any (fun x => (n.peer x).valid) = registered := by
  obtain ⟨n, hn, hregistered⟩ := (Option.any_eq_true _ _).mp h
  exact ⟨n, hn, of_decide_eq_true hregistered⟩

end Sample

/-- A file that is refused, and a build without a peer. -/
theorem failedLoad_noPeer_iff_sample : ∃ n : Netdev Sample.config,
    wgInitializeStaged Crypto.plain (Sample.env 1000) (NuttxWireguard.Sample.key 1 1)
      (Sample.build []) Staged.empty = some n ∧ NoPeer n := by
  have hrefused : wgSetconf (Sample.build []) Sample.config.maxPeers false Staged.empty
      (some Sample.badFile) = (Staged.empty, some .einval) := by decide +kernel
  obtain ⟨n, hn, -⟩ := Sample.up_refused [] false (by decide +kernel)
  refine ⟨n, hn, (failedLoad_noPeer_iff Crypto.plain hrefused hn).mpr ?_⟩
  intro key _ hbuilt
  exact hbuilt.2.1 rfl

/-- A build with a peer brings it up instead of the file's. -/
theorem not_failedLoad_noPeer :
    ¬∀ (cfg : Config) (c : Crypto) (env : Env cfg) (probe : Key) (kc : Kconfig) (st st' : Staged)
      (file : Text) (errno : Errno) (n : Netdev cfg),
      wgSetconf kc cfg.maxPeers false st (some file) = (st', some errno) →
        wgInitializeStaged c env probe kc st' = some n → NoPeer n := by
  intro hall
  have hrefused : wgSetconf (Sample.build (Sample.zeroText 'A')) Sample.config.maxPeers false
      Staged.empty (some Sample.badFile) = (Staged.empty, some .einval) := by decide +kernel
  obtain ⟨n, hn, hpeer⟩ := Sample.up_refused (Sample.zeroText 'A') true (by decide +kernel)
  have hnone := hall _ _ _ _ _ _ _ _ _ n hrefused hn
  obtain ⟨x, -, hx⟩ := List.any_eq_true.mp hpeer
  rw [hnone x] at hx
  cases hx

end NuttxWireguard.Flat
