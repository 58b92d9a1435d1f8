/-
Any two ends with the cryptography of the sources.

Both drivers can be either end.  Over the primitives the flat port is built with the keys no longer
matter: any two private keys agree on a secret, and no public key is zero.  In every reachable
state what a device stores belongs to its keys.  So two devices that find each other in their peer
tables come to share a session, from any states their runs lead to.

The in-kernel driver has its primitives from the operating system; here they are the same.
-/
import NuttxWireguard.Flat.Identity
import NuttxWireguard.Kernel.Identity
import NuttxWireguard.Interop.Flat
import NuttxWireguard.Interop.Kernel
import NuttxWireguard.Refc.Primitives

namespace NuttxWireguard

open Lib
open Interop (Coherent Knows Driver)
open Refc (refc refc_aeadCorrect refc_keysAgree refc_publicKey_ne_zero refc_x25519_clamp)

variable {cfg : Config} {c : Crypto} {w : Nat}

/-! ### Reachable devices -/

theorem x25519_of_dh {a u k : Key} (h : c.dh a u = some k) : c.x25519 a u = k := by
  unfold Crypto.dh at h
  dsimp only at h
  split at h
  · cases h
  · exact Option.some.inj h

theorem publicKey_of_generate {k out : Key} (h : c.generatePublicKey k = some out) :
    c.publicKey k = out := by
  unfold Crypto.generatePublicKey at h
  split at h
  · cases h
  · exact x25519_of_dh h

theorem Flat.ReachableState.coherent {n : Flat.Netdev cfg} (h : Flat.ReachableState (refc w) n)
    {x : Fin cfg.maxPeers} (hvalid : (n.peer x).valid = true) : Coherent (refc w) n.wg x := by
  obtain ⟨⟨k, hprivate, hpublic⟩, hpeer⟩ := h.keyedAt (refc w) x
  have hlabels := h.labelledAt (refc w) x
  refine ⟨?_, hlabels.mac1, (x25519_of_dh (hpeer hvalid).1).symm, (hlabels.peer hvalid).1⟩
  rw [hprivate, ← publicKey_of_generate hpublic]
  exact (refc_x25519_clamp w k Crypto.basepoint).symm

theorem Kernel.ReachableState.coherent {n : Kernel.Netdev cfg} (h : Kernel.ReachableState c n)
    {x : Fin cfg.maxPeers} (hvalid : (n.peer x).valid = true) : Coherent c n.wg x := by
  obtain ⟨hown, -, hpeers⟩ := Kernel.kept c h
  obtain ⟨hlabels, hderived⟩ := Kernel.derived h
  have hd := (hpeers x hvalid).1
  rw [if_pos hd] at hown
  have hx := hderived x hvalid
  exact ⟨(publicKey_of_generate hown).symm, (hlabels hd).1, (x25519_of_dh hx.dh).symm, hx.mac1⟩

/-! ### From the configuration on -/

namespace Flat

variable {env : Env cfg} {probe k pk own dh : Key} {pc : PeerConfig}

/-- A port brought up with one peer finds it by its key. -/
theorem wgInitialize_one (env : Env cfg) (hprobe : probe ≠ Bytes.zero 32) (hpk : pc.publicKey = some pk)
    (hown : c.generatePublicKey k = some own) (hdh : c.dh (Crypto.clamp k) pk = some dh)
    (hpos : 0 < cfg.maxPeers) :
    ∃ n, wgInitialize c env probe k [pc] = some n ∧ n.wg.publicKey = own ∧
      peerByPubkey n.wg pk = some ⟨0, hpos⟩ := by
  have hfirst : ∀ f : Fin cfg.maxPeers → Bool, f ⟨0, hpos⟩ = true →
      (List.finRange cfg.maxPeers).find? f = some ⟨0, hpos⟩ :=
    fun f hf => find?_finRange_eq_some_iff.mpr ⟨hf, fun y hy => absurd hy (Nat.not_lt_zero y)⟩
  have hinit : ∃ d : Device cfg, wireguardDeviceInit c env k = some d ∧ d.valid = true ∧
      d.privateKey = Crypto.clamp k ∧ d.publicKey = own ∧ d.peers = fun _ => Peer.zero := by
    unfold wireguardDeviceInit
    rw [hown]
    exact ⟨_, rfl, rfl, rfl, rfl, rfl⟩
  obtain ⟨d, hd, hvalid, hprivate, hpublic, hpeers⟩ := hinit
  have halloc : peerAlloc d = some ⟨0, hpos⟩ := by
    refine hfirst _ ?_
    rw [hpeers]
    rfl
  have hadd : ∃ p, wgAddPeer c d pc = d.setPeer ⟨0, hpos⟩ p ∧ p.valid = true ∧ p.publicKey = pk := by
    unfold wgAddPeer wireguardPeerInit
    rw [hpk]
    dsimp only
    rw [halloc, if_neg (not_not.mpr hvalid), hprivate, hdh]
    refine ⟨_, rfl, ?_, ?_⟩
    · unfold PeerConfig.configure
      dsimp only
      split <;> rfl
    · unfold PeerConfig.configure
      dsimp only
      split <;> rfl
  obtain ⟨p, hadd, hp, hkey⟩ := hadd
  unfold wgInitialize
  rw [if_neg hprobe, hd]
  refine ⟨_, rfl, ?_, hfirst _ ?_⟩
  · show (wgAddPeer c d pc).publicKey = own
    rw [hadd]
    exact hpublic
  · show ((wgIfupPeer ((wgAddPeer c d pc).peers ⟨0, hpos⟩)).valid &&
      decide ((wgIfupPeer ((wgAddPeer c d pc).peers ⟨0, hpos⟩)).publicKey = pk)) = true
    rw [hadd, Device.setPeer_peers_self]
    unfold wgIfupPeer
    split <;> simp [hp, hkey]

/-- The first value drawn for `x` can be an index. -/
def DrawsProper (env : Env cfg) (x : Fin cfg.maxPeers) : Prop :=
  ∃ buf draws, env.draws x = buf :: draws ∧
    ¬(readLe 32 buf.toList = 0 ∨ readLe 32 buf.toList = 0xFFFFFFFF)

theorem Initial.drawsUnused {n : Netdev cfg} (h : Initial c n) {x : Fin cfg.maxPeers}
    (henv : DrawsProper env x) : DrawsUnused env n.wg x := by
  obtain ⟨buf, draws, hdraws, hproper⟩ := henv
  exact drawsUnused_of_blank h.blank hdraws hproper

/-- Nothing has come in yet that could hold an initiation up. -/
theorem Initial.admits {n : Netdev cfg} (h : Initial c n) (env : Env cfg)
    (hload : 0 < cfg.loadThreshold) (now : U32) (x : Fin cfg.maxPeers) :
    (wgUnderLoad env n).2 = false ∧ rateLimited now (n.peer x) = false ∧
      beNat (n.peer x).greatestTimestamp.toList = 0 := by
  obtain ⟨hrx, hgreatest⟩ := h.each c
    (P := fun p => p.lastInitiationRx = 0 ∧ p.greatestTimestamp = Bytes.zero 12) ⟨rfl, rfl⟩
    (fun d key => by
      unfold wireguardPeerInit
      split
      · exact ⟨rfl, rfl⟩
      · dsimp only
        split <;> exact ⟨rfl, rfl⟩)
    (fun pc p hp => by
      unfold PeerConfig.configure
      dsimp only
      split <;> exact hp)
    (fun p hp => by
      unfold wgIfupPeer
      split <;> exact hp) x
  refine ⟨?_, ?_, ?_⟩
  · obtain ⟨env', probe, key, pcs, h⟩ := h
    unfold wgInitialize at h
    split at h
    · cases h
    split at h
    · cases h
    cases h
    unfold wgUnderLoad
    dsimp only
    have hone : ¬((0 : U32) + 1 > cfg.loadThreshold) := by
      rw [gt_iff_lt, BitVec.lt_def] at *
      have h1 : ((0 : U32) + 1).toNat = 1 := rfl
      have h0 : (0 : U32).toNat = 0 := rfl
      omega
    split <;> exact decide_eq_false hone
  · unfold rateLimited
    rw [hrx]
    rfl
  · rw [hgreatest]
    rfl

end Flat

namespace Interop

open Flat (wgInitialize wgStartHandshake PeerConfig DrawsProper)

variable {cfgA cfgB : Config} {probeA probeB kA kB : Key} {pcA pcB : PeerConfig}

/-- Two flat ports brought up with each other's public keys know each other. -/
theorem configured_knows (envA : Flat.Env cfgA) (envB : Flat.Env cfgB)
    (hprobeA : probeA ≠ Bytes.zero 32) (hprobeB : probeB ≠ Bytes.zero 32) (hA : kA ≠ Bytes.zero 32) (hB : kB ≠ Bytes.zero 32)
    (hpcA : pcA.publicKey = some ((refc w).publicKey kB))
    (hpcB : pcB.publicKey = some ((refc w).publicKey kA)) (hposA : 0 < cfgA.maxPeers)
    (hposB : 0 < cfgB.maxPeers) :
    ∃ a b, wgInitialize (refc w) envA probeA kA [pcA] = some a ∧
      wgInitialize (refc w) envB probeB kB [pcB] = some b ∧
      Knows a.wg ⟨0, hposA⟩ b.wg ⟨0, hposB⟩ := by
  have hagree : ∀ k k' : Key, (refc w).dh (Crypto.clamp k) ((refc w).publicKey k')
      = some ((refc w).x25519 k ((refc w).publicKey k')) := by
    intro k k'
    unfold Crypto.dh
    rw [refc_x25519_clamp]
    exact (refc_keysAgree w k k').dh
  obtain ⟨a, ha, hpublicA, hfoundA⟩ := Flat.wgInitialize_one envA hprobeA hpcA
    (generatePublicKey_eq hA (refc_publicKey_ne_zero w kA)) (hagree kA kB) hposA
  obtain ⟨b, hb, hpublicB, hfoundB⟩ := Flat.wgInitialize_one envB hprobeB hpcB
    (generatePublicKey_eq hB (refc_publicKey_ne_zero w kB)) (hagree kB kA) hposB
  have hreachA : Flat.ReachableState (refc w) a := ⟨a, [], ⟨_, _, _, _, ha⟩, .nil⟩
  have hreachB : Flat.ReachableState (refc w) b := ⟨b, [], ⟨_, _, _, _, hb⟩, .nil⟩
  have hpsk : (a.wg.peers ⟨0, hposA⟩).presharedKey = (b.wg.peers ⟨0, hposB⟩).presharedKey :=
    ((hreachA.keyedAt (refc w) _).peer (valid_of_peerByPubkey hfoundA)).2.trans
      ((hreachB.keyedAt (refc w) _).peer (valid_of_peerByPubkey hfoundB)).2.symm
  exact ⟨a, b, ha, hb, by rw [hpublicB]; exact hfoundA, by rw [hpublicA]; exact hfoundB, hpsk⟩

namespace Sample

open NuttxWireguard.Sample

/-- A peer with this key, where the other port is. -/
def peerWith (publicKey : Key) : PeerConfig where
  publicKey := some publicKey
  keepalive := 25
  allowedIp := some (address 10 0 0 0)
  allowedMask := some (address 255 255 255 0)
  endpointIp := some (address 9 9 9 9)
  endpointPort := 51820

theorem key_ne_zero (first last : Byte) (h : first ≠ 0) : key first last ≠ Bytes.zero 32 := by
  intro hc
  exact h (congrArg (fun k : Key => k.toList.head?) hc |> Option.some.inj)

theorem drawsProper (time : Nat) (x : Fin config.maxPeers) :
    DrawsProper (Flat.Sample.env time) x :=
  ⟨draw 1, [], rfl, by decide⟩

/-- Each is the other's peer. -/
theorem knows : ∃ a b : Flat.Netdev config,
    wgInitialize (refc 64) (Flat.Sample.env 1000) (key 1 0) (key 8 64)
        [peerWith ((refc 64).publicKey (key 16 64))] = some a ∧
      wgInitialize (refc 64) (Flat.Sample.env 1000) (key 1 0) (key 16 64)
        [peerWith ((refc 64).publicKey (key 8 64))] = some b ∧
      Knows a.wg first b.wg first :=
  configured_knows _ _ (key_ne_zero 1 0 (by decide)) (key_ne_zero 1 0 (by decide))
    (key_ne_zero 8 64 (by decide)) (key_ne_zero 16 64 (by decide)) rfl rfl (by decide) (by decide)

end Sample

/-! ### The two drivers -/

inductive Kind
  | flat
  | kernel

/-- The driver of a kind, over the primitives of the sources. -/
def Kind.driver (w : Nat) (cfg : Config) : Kind → Driver (refc w) cfg
  | .flat => Flat.driver (refc w) (refc_aeadCorrect w) cfg
  | .kernel => Kernel.driver (refc w) (refc_aeadCorrect w) cfg

/-- The states of its runs. -/
def Kind.Reachable : (k : Kind) → (k.driver w cfg).State → Prop
  | .flat => Flat.ReachableState (refc w)
  | .kernel => Kernel.ReachableState (refc w)

theorem Kind.Reachable.coherent {k : Kind} {s : (k.driver w cfg).State} (h : k.Reachable s)
    {x : Fin cfg.maxPeers} (hvalid : (((k.driver w cfg).device s).peers x).valid = true) :
    Coherent (refc w) ((k.driver w cfg).device s) x := by
  cases k with
  | flat => exact Flat.ReachableState.coherent h hvalid
  | kernel => exact Kernel.ReachableState.coherent h hvalid

variable {k l : Kind} {s : (k.driver w cfgA).State} {r : (l.driver w cfgB).State}
  {x : Fin cfgA.maxPeers} {y : Fin cfgB.maxPeers}

/-- Down and up again. -/
def Sample.restarted (n : Flat.Netdev cfg) : Flat.Netdev cfg := Flat.wgIfup (Flat.wgIfdown n)

theorem Sample.restarted_setup (n : Flat.Netdev cfg) (x : Fin cfg.maxPeers) :
    ((Sample.restarted n).peer x).setup = (n.peer x).setup :=
  ((Flat.wgIfdownPeer_carried (n.peer x)).trans (wgIfupPeer_carried _)).setup

theorem Sample.restarted_greatestTimestamp (n : Flat.Netdev cfg) (x : Fin cfg.maxPeers) :
    ((Sample.restarted n).peer x).greatestTimestamp = (n.peer x).greatestTimestamp := by
  show (wgIfupPeer (Flat.wgIfdownPeer (n.peer x))).greatestTimestamp = _
  unfold wgIfupPeer Flat.wgIfdownPeer
  split <;> split <;> rfl

namespace Sample

open NuttxWireguard.Sample

/-- An in-kernel driver with an endpoint for its peer, brought up. -/
def kernelEnd : Option (Kernel.Netdev config) :=
  Kernel.Sample.state
    [.setIf (Kernel.Sample.env 1000)
        { flags := Kernel.wgIfHasPrivateKey, privateKey := key 8 64, listenPort := 0, addr := 0,
          netmask := 0 },
      .setPeer { Kernel.Sample.firstReq (some (address 9 9 9 9, 1234)) with publicKey := key 25 64 },
      .ifup (Kernel.Sample.env 1000)]

/-- A flat port with the other key pair. -/
def flatEnd : Option (Flat.Netdev config) :=
  wgInitialize Crypto.plain (Flat.Sample.env 1000) (key 1 0) (key 16 64) [peerWith (key 1 64)]

/-- What the two know of each other, and that the one can start and the other answer. -/
theorem ends : ∃ (a a₁ : Kernel.Netdev config) (b : Flat.Netdev config),
    Kernel.ReachableState Crypto.plain a ∧ Flat.Initial Crypto.plain b ∧
      Acquainted Crypto.plain a.wg first b.wg first ∧
      Starts (Kernel.driver Crypto.plain Crypto.plain_aeadCorrect config)
        (Flat.driver Crypto.plain Crypto.plain_aeadCorrect config)
        (Kernel.Sample.drawing (key 24 64)) a b first first (timestamp 1) ∧
      Kernel.wgSendInitiation Crypto.plain (Kernel.Sample.drawing (key 24 64)) a first = some a₁ ∧
      Kernel.Reads a₁ ∧ Kernel.HasRoom (Kernel.Sample.env 1003) a₁ ∧ a.wg.privateKey = key 8 64 := by
  have hpair : (kernelEnd.any fun n => flatEnd.any fun m =>
      (Kernel.wgSendInitiation Crypto.plain (Kernel.Sample.drawing (key 24 64)) n first).any fun n₁ =>
        decide (n.running = true ∧ n.ntx < Kernel.wgTxQuota) &&
        decide (n₁.idle ∧ n₁.running = true ∧ n₁.ntx < Kernel.wgTxQuota) &&
        decide ((n.wg.peers first).ip ≠ 0 ∧ (n.wg.peers first).port ≠ 0) &&
        decide (n.wg.privateKey = key 8 64 ∧ m.wg.privateKey = key 16 64) &&
        decide (n.wg.publicKey = key 1 64 ∧ m.wg.publicKey = key 25 64) &&
        decide (peerByPubkey n.wg (key 25 64) = some first ∧
          peerByPubkey m.wg (key 1 64) = some first) &&
        decide ((n.wg.peers first).publicKeyDh = Crypto.plain.x25519 (key 8 64) (key 25 64) ∧
          (m.wg.peers first).publicKeyDh = Crypto.plain.x25519 (key 16 64) (key 1 64)) &&
        decide ((n.wg.peers first).presharedKey = (m.wg.peers first).presharedKey) &&
        decide ((n.wg.peers first).labelMac1Key = m.wg.labelMac1Key ∧
          (m.wg.peers first).labelMac1Key = n.wg.labelMac1Key) &&
        decide (beNat (m.wg.peers first).greatestTimestamp.toList < beNat (timestamp 1).toList) &&
        decide (Kernel.wgUniqueIndex n.wg ((Kernel.Sample.env 1001).draws first) = some 1)) = true := by
    decide +kernel
  obtain ⟨n, hn, hpair⟩ := (Option.any_eq_true _ _).mp hpair
  obtain ⟨m, hm, hpair⟩ := (Option.any_eq_true _ _).mp hpair
  obtain ⟨n₁, hn₁, hpair⟩ := (Option.any_eq_true _ _).mp hpair
  simp only [Bool.and_eq_true, decide_eq_true_eq] at hpair
  obtain ⟨⟨⟨⟨⟨⟨⟨⟨⟨⟨hroom, hreads⟩, haddr⟩, hpriv⟩, hpub⟩, hpeer⟩, hdh⟩, hpsk⟩, hlabel⟩, hnewer⟩,
    hdraws⟩ := hpair
  have hagree : KeysAgree Crypto.plain (Crypto.clamp (key 24 64)) (key 16 64) ∧
      KeysAgree Crypto.plain (key 8 64) (key 16 64) := by
    refine ⟨⟨?_, ?_⟩, ⟨?_, ?_⟩⟩
    all_goals decide +kernel
  refine ⟨n, n₁, m, Kernel.Sample.reachable hn, ⟨_, _, _, _, hm⟩, ⟨⟨?_, ?_, ?_⟩, ⟨?_, ?_, ?_⟩, hpsk,
    hlabel.1, hlabel.2, ?_⟩, ⟨⟨haddr, ⟨hroom.1, hroom.2, rfl⟩, rfl,
      Kernel.exists_wgUniqueIndex_iff.mp ⟨1, hdraws⟩⟩, rfl, hnewer, ?_, ?_⟩, hn₁,
    ⟨hreads.1, hreads.2.1, by decide⟩, ⟨hreads.2.1, hreads.2.2, rfl⟩, hpriv.1⟩
  · rw [hpub.1, hpriv.1]
    decide +kernel
  · rw [hpub.2]
    exact hpeer.1
  · rw [hpub.2, hpriv.1]
    exact hdh.1
  · rw [hpub.2, hpriv.2]
    decide +kernel
  · rw [hpub.1]
    exact hpeer.2
  · rw [hpub.1, hpriv.2]
    exact hdh.2
  · rw [hpriv.1, hpriv.2]
    exact hagree.2
  · show Crypto.plain.publicKey (Crypto.clamp (key 24 64)) ≠ Bytes.zero 32
    decide +kernel
  · show KeysAgree Crypto.plain (Crypto.clamp (key 24 64)) m.wg.privateKey
    rw [hpriv.2]
    exact hagree.1

end Sample

/-- An in-kernel driver starts a handshake with a flat port. -/
theorem connects_sample : ∃ (a a₂ : Kernel.Netdev Sample.config) (b b₂ : Flat.Netdev Sample.config),
    Kernel.ReachableState Crypto.plain a ∧ Flat.Initial Crypto.plain b ∧
      Connected a₂.wg Sample.first b₂.wg Sample.first (Sample.address 8 8 8 8) 4321
        (Sample.address 9 9 9 9) 1234 := by
  obtain ⟨a, a₁, b, ha, hb, hknown, hstart, hsent, hreads, hroom, hpriv⟩ := Sample.ends
  obtain ⟨s₁, init, hs₁, -, hrest⟩ := Driver.connects
    (Kernel.driver Crypto.plain Crypto.plain_aeadCorrect Sample.config)
    (Flat.driver Crypto.plain Crypto.plain_aeadCorrect Sample.config) Crypto.plain_aeadCorrect
    hknown hstart
  cases hs₁.symm.trans hsent
  have hadmits := hb.admits (Flat.Sample.env 1002) (by decide) (sysNow 1002) Sample.first
  obtain ⟨b₁, resp, -, -, hrest⟩ := hrest (Flat.Sample.env 1002) (Sample.address 8 8 8 8) 4321
    ⟨⟨hadmits.1, hb.drawsUnused (Sample.drawsProper _ _)⟩, hadmits.2.1, by decide +kernel,
      ⟨by decide +kernel, by decide +kernel⟩, by
        show KeysAgree Crypto.plain a.wg.privateKey _
        rw [hpriv]
        exact ⟨by decide +kernel, by decide +kernel⟩⟩
  obtain ⟨a₂, data, -, -, hrest⟩ := hrest (Kernel.Sample.env 1003) (Sample.address 9 9 9 9) 1234
    ⟨hreads, hroom⟩
  obtain ⟨b₂, -, hconnected⟩ := hrest (Flat.Sample.env 1004) (Sample.address 8 8 8 8) 4321 trivial
    (by decide)
  exact ⟨a, a₂, b, b₂, ha, hb, hconnected⟩

end Interop

end NuttxWireguard
