/-
Public keys, and what a new private key does to them.

A request for a peer is refused if its key is zero or the device's own.  A private key is not
looked at in that way: it gives the device another public key, which may be a peer's, and a
peer it cannot agree with is dropped without a word.  So the keys are apart, and every peer is
kept, exactly along the runs that set only private keys that fit the peers there are.
-/
import NuttxWireguard.Kernel.Kept
import NuttxWireguard.Kernel.Timestamps

namespace NuttxWireguard.Kernel

open Lib

variable {cfg : Config} (c : Crypto)

/-- The peers' public keys are pairwise distinct, not zero and not the device's own. -/
structure PeerKeysApart (d : Device cfg) : Prop where
  distinct : PeerKeysDistinct d
  nonzero : ∀ x, (d.peers x).valid = true → (d.peers x).publicKey ≠ Bytes.zero 32
  foreign : ∀ x, (d.peers x).valid = true → (d.peers x).publicKey ≠ d.publicKey

/-- Every peer is still there, under its key and configured as it was. -/
def KeepsPeers (d e : Device cfg) : Prop :=
  ∀ x, (d.peers x).valid = true → (e.peers x).valid = true ∧
    (e.peers x).publicKey = (d.peers x).publicKey ∧ peerConf (e.peers x) = peerConf (d.peers x)

/-- The event is a `SIOCSWGIF` that succeeds. -/
def Event.setsIf (n : Netdev cfg) : Event cfg → Bool
  | .setIf env req =>
    match (wgSetIf c env n req).2 with
    | .returned (some _) => false
    | _ => true
  | _ => false

/-- Should the request ask for it, the interface can come up. -/
def ComesUp (env : Env cfg) (req : IfReq) : Prop :=
  req.has wgIfUp = true →
    env.psockSocket = none ∧ env.psockBind = none ∧ ∃ pid, env.kthreadCreate = .ok pid

/-- If the event sets a private key, the key fits the peers: it agrees with each on a secret,
and the public key that goes with it is none of theirs. -/
def KeyFits (n : Netdev cfg) (e : Event cfg) : Prop :=
  ∀ env req own, e = .setIf env req → e.setsKey n = true →
    c.generatePublicKey (Crypto.clamp req.privateKey) = some own →
    ∀ x, (n.peer x).valid = true →
      ((c.dh (Crypto.clamp req.privateKey) (n.peer x).publicKey).isSome →
        (n.peer x).publicKey ≠ own) ∧
      (ComesUp env req → (c.dh (Crypto.clamp req.privateKey) (n.peer x).publicKey).isSome)

/-! ### A private key -/

section Key

variable {c} {env : Env cfg} {n : Netdev cfg} {req : IfReq} {d e : Device cfg}

theorem KeepsPeers.carried (h : d.Carried e) : KeepsPeers d e := by
  intro x hx
  have hsetup := h.setup x
  exact ⟨(h.valid x).trans hx, congrArg Setup.publicKey hsetup, peerConf_of_setup hsetup⟩

theorem PeerKeysApart.carried (hd : PeerKeysApart d) (h : d.Carried e) : PeerKeysApart e := by
  have hpublic : e.publicKey = d.publicKey := congrArg Identity.publicKey h.identity
  have hkey : ∀ x, (e.peers x).publicKey = (d.peers x).publicKey :=
    fun x => congrArg Setup.publicKey (h.setup x)
  refine ⟨fun x y hx hy hxy => ?_, fun x hx => ?_, fun x hx => ?_⟩
  · rw [h.valid] at hx hy
    rw [hkey, hkey] at hxy
    exact hd.distinct x y hx hy hxy
  · rw [h.valid] at hx
    rw [hkey]
    exact hd.nonzero x hx
  · rw [h.valid] at hx
    rw [hkey, hpublic]
    exact hd.foreign x hx

/-- A peer that is set up again is there if the new key agrees with it, as it was configured. -/
theorem restorePeer_spec (d : Device cfg) (saved : Peer cfg) :
    ((restorePeer c d saved).valid = true ↔
      saved.valid = true ∧ d.valid = true ∧ (c.dh d.privateKey saved.publicKey).isSome) ∧
    ((restorePeer c d saved).valid = true →
      (restorePeer c d saved).publicKey = saved.publicKey ∧
        peerConf (restorePeer c d saved) = peerConf saved) := by
  have hpsk : (if saved.presharedKey = Bytes.zero 32 then none else some saved.presharedKey).getD
      (Bytes.zero 32) = saved.presharedKey := by
    split
    · rename_i hzero
      exact hzero.symm
    · rfl
  unfold restorePeer
  dsimp only
  by_cases hsaved : saved.valid = true
  · rw [if_neg (not_not.mpr hsaved)]
    unfold wgPeerInit
    by_cases hd : d.valid = true
    · rw [if_neg (not_not.mpr hd)]
      cases hdh : c.dh d.privateKey saved.publicKey with
      | none =>
          refine ⟨⟨fun hc => absurd hc Bool.false_ne_true, fun hc => ?_⟩,
            fun hc => absurd hc Bool.false_ne_true⟩
          cases hc.2.2
      | some dh =>
          rw [hpsk]
          exact ⟨⟨fun _ => ⟨hsaved, hd, rfl⟩, fun _ => rfl⟩, fun _ => ⟨rfl, rfl⟩⟩
    · rw [if_pos hd]
      refine ⟨⟨fun hc => absurd hc Bool.false_ne_true, fun hc => absurd hc.2.1 hd⟩,
        fun hc => absurd hc Bool.false_ne_true⟩
  · rw [if_pos hsaved]
    exact ⟨⟨fun hc => absurd hc Bool.false_ne_true, fun hc => absurd hc.1 hsaved⟩,
      fun hc => absurd hc Bool.false_ne_true⟩

theorem wgDeviceInit_cases (c : Crypto) (env : Env cfg) (privateKey : Key) :
    (c.generatePublicKey (Crypto.clamp privateKey) = none ∧
      wgDeviceInit c env privateKey = Device.zero) ∨
    ∃ own, c.generatePublicKey (Crypto.clamp privateKey) = some own ∧
      (wgDeviceInit c env privateKey).valid = true ∧
      (wgDeviceInit c env privateKey).privateKey = Crypto.clamp privateKey ∧
      (wgDeviceInit c env privateKey).publicKey = own := by
  unfold wgDeviceInit
  dsimp only
  cases hown : c.generatePublicKey (Crypto.clamp privateKey) with
  | none => exact Or.inl ⟨rfl, rfl⟩
  | some own => exact Or.inr ⟨own, rfl, rfl, rfl, rfl⟩

/-- The device a private key leaves: none, or one with that key and the peers set up again. -/
theorem setPrivateKey_device (hkey : req.privateKey ≠ Bytes.zero 32) (hsaved : env.savedMalloc = true) :
    (c.generatePublicKey (Crypto.clamp req.privateKey) = none ∧
      ∃ err, setPrivateKey c env n req.privateKey = ({ n with wg := Device.zero }, some err)) ∨
    ∃ (d : Device cfg) (own : Key), c.generatePublicKey (Crypto.clamp req.privateKey) = some own ∧
      d.valid = true ∧ d.privateKey = Crypto.clamp req.privateKey ∧ d.publicKey = own ∧
      setPrivateKey c env n req.privateKey
        = ({ n with wg := { d with peers := fun x => restorePeer c d (n.peer x) } }, none) := by
  unfold setPrivateKey
  dsimp only
  rw [if_neg hkey, if_neg (by simp [hsaved])]
  rcases wgDeviceInit_cases c env req.privateKey with ⟨hown, hd⟩ | ⟨own, hown, hd, hprivate, hpublic⟩
  · rw [hd]
    exact Or.inl ⟨hown, .einval, rfl⟩
  · rw [if_neg (not_not.mpr hd)]
    exact Or.inr ⟨_, own, hown, hd, hprivate, hpublic, rfl⟩

end Key

/-! ### The whole request -/

/-- What a request asks for beside the private key. -/
def wgSetIfRest (env : Env cfg) (n : Netdev cfg) (req : IfReq) : Netdev cfg × Outcome :=
  if req.has wgIfUp then
    ((wgIfup env (setPortAddr n req)).1, .returned (wgIfup env (setPortAddr n req)).2)
  else if req.has wgIfDown then wgIfdown (setPortAddr n req)
  else (setPortAddr n req, .returned none)

section Request

variable {env : Env cfg} {n : Netdev cfg} {req : IfReq}

theorem wgSetIfRest_carried : n.wg.Carried (wgSetIfRest env n req).1.wg := by
  have hport : n.wg.Carried (setPortAddr n req).wg := by
    rw [setPortAddr_wg]
    exact .refl _
  unfold wgSetIfRest
  split
  · exact hport.trans (wgIfup_device env _)
  split
  · exact hport.trans (wgIfdown_device _)
  · exact hport

/-- On a stopped interface with a key it succeeds if the interface can come up. -/
theorem wgSetIfRest_ok (hdown : n.bifup = false) (hpid : n.rxpid = 0) (hvalid : n.wg.valid = true) :
    (∃ err, (wgSetIfRest env n req).2 = .returned (some err)) ↔ ¬ComesUp env req := by
  have hport : (setPortAddr n req).bifup = false ∧ (setPortAddr n req).rxpid = 0 ∧
      (setPortAddr n req).wg.valid = true := by
    unfold setPortAddr
    dsimp only
    split <;> split <;> exact ⟨hdown, hpid, hvalid⟩
  unfold wgSetIfRest ComesUp
  generalize setPortAddr n req = m at hport
  obtain ⟨hdown, hpid, hvalid⟩ := hport
  by_cases hup : req.has wgIfUp = true
  · rw [if_pos hup]
    unfold wgIfup
    rw [if_neg (by simp [hdown]), if_neg (by simp [hpid]), if_neg (by simp [hvalid])]
    cases hsocket : env.psockSocket with
    | some err => simp [hup]
    | none =>
        cases hbind : env.psockBind with
        | some err => simp [hup]
        | none =>
            dsimp only
            cases hcreate : env.kthreadCreate with
            | error err => simp [hup]
            | ok pid => simp [hup]
  · rw [if_neg hup]
    have hstill : wgIfdown m = (m, .returned none) := if_pos ⟨by simp [hdown], hpid⟩
    rw [hstill, ite_self]
    simp [hup]

/-- **What `SIOCSWGIF` comes to.** -/
theorem wgSetIf_outcomes :
    ((Event.setIf env req).setsKey n = false ∧
      ((∃ err, wgSetIf c env n req = (n, .returned (some err))) ∨
        wgSetIf c env n req = wgSetIfRest env n req)) ∨
    (Event.setIf env req).setsKey n = true ∧
      ((∃ err, (setPrivateKey c env n req.privateKey).2 = some err ∧
          wgSetIf c env n req = ((setPrivateKey c env n req.privateKey).1, .returned (some err))) ∨
        (setPrivateKey c env n req.privateKey).2 = none ∧
          wgSetIf c env n req = wgSetIfRest env (setPrivateKey c env n req.privateKey).1 req) := by
  by_cases hbusy : (req.has wgIfUp ∧ ¬n.bifup ∧ n.rxpid ≠ 0) ∨
      (req.has wgIfHasPrivateKey ∨ req.has wgIfHasListenPort) ∧ (n.bifup ∨ n.rxpid ≠ 0)
  · have hrefused : wgSetIf c env n req = (n, .returned (some .ebusy)) := by
      unfold wgSetIf
      rcases hbusy with hbusy | hbusy
      · rw [if_pos hbusy]
      · by_cases hup : req.has wgIfUp ∧ ¬n.bifup ∧ n.rxpid ≠ 0
        · rw [if_pos hup]
        · rw [if_neg hup, if_pos hbusy]
    refine Or.inl ⟨?_, Or.inl ⟨_, hrefused⟩⟩
    by_contra hsets
    obtain ⟨⟨-, hdown, hpid⟩, -⟩ := (setsKey_setIf_iff env n req).mp (eq_true_of_ne_false hsets)
    rw [hdown] at hbusy
    simp [hpid] at hbusy
  · obtain ⟨hup, hset⟩ := not_or.mp hbusy
    by_cases hkey : req.has wgIfHasPrivateKey = true
    · have hstopped : n.bifup = false ∧ n.rxpid = 0 := by
        constructor
        · by_contra hc
          exact hset ⟨Or.inl hkey, Or.inl (by simpa using hc)⟩
        · by_contra hc
          exact hset ⟨Or.inl hkey, Or.inr hc⟩
      have heq : wgSetIf c env n req = if (setPrivateKey c env n req.privateKey).2 ≠ none then
          ((setPrivateKey c env n req.privateKey).1,
            .returned (setPrivateKey c env n req.privateKey).2)
          else wgSetIfRest env (setPrivateKey c env n req.privateKey).1 req := by
        unfold wgSetIf
        rw [if_neg hup, if_neg hset, if_pos hkey]
        rfl
      cases hsets : (Event.setIf env req).setsKey n with
      | false =>
          rcases setPrivateKey_cases c env n req.privateKey with ⟨-, err, herr⟩ | ⟨hset, -⟩
          · refine Or.inl ⟨rfl, Or.inl ⟨err, ?_⟩⟩
            rw [heq, herr]
            rfl
          · rw [(setsKey_setIf_iff env n req).mpr ⟨⟨hkey, hstopped⟩, hset⟩] at hsets
            cases hsets
      | true =>
          refine Or.inr ⟨rfl, ?_⟩
          rw [heq]
          cases herr : (setPrivateKey c env n req.privateKey).2 with
          | some err => exact Or.inl ⟨err, rfl, rfl⟩
          | none => exact Or.inr ⟨rfl, rfl⟩
    · refine Or.inl ⟨?_, Or.inr ?_⟩
      · by_contra hsets
        obtain ⟨⟨hc, -⟩, -⟩ := (setsKey_setIf_iff env n req).mp (eq_true_of_ne_false hsets)
        exact hkey hc
      · unfold wgSetIf
        rw [if_neg hup, if_neg hset, if_neg hkey]
        rfl

end Request

/-! ### Steps and runs -/

section Steps

variable {c} {n n' : Netdev cfg}

theorem setsIf_iff {env : Env cfg} {req : IfReq} :
    (Event.setIf env req).setsIf c n = true ↔
      ¬∃ err, (wgSetIf c env n req).2 = .returned (some err) := by
  unfold Event.setsIf
  dsimp only
  cases (wgSetIf c env n req).2 with
  | waiting => simp
  | returned err => cases err <;> simp

/-- Every peer is set up again under a new private key: the keys stay apart, and no peer is lost
where the interface comes up, exactly if that key fits each peer. -/
theorem restored_keysApart_iff {d e : Device cfg} (hn : PeerKeysApart n.wg) (hd : d.valid = true)
    (hcarried : ({ d with peers := fun x => restorePeer c d (n.peer x) } : Device cfg).Carried e)
    (up : Prop) :
    (PeerKeysApart e ∧ (up → KeepsPeers n.wg e)) ↔ ∀ x, (n.peer x).valid = true →
      ((c.dh d.privateKey (n.peer x).publicKey).isSome → (n.peer x).publicKey ≠ d.publicKey) ∧
      (up → (c.dh d.privateKey (n.peer x).publicKey).isSome) := by
  have hvalid : ∀ x, (e.peers x).valid = true ↔ (n.peer x).valid = true ∧
      (c.dh d.privateKey (n.peer x).publicKey).isSome := by
    intro x
    rw [hcarried.valid x, (restorePeer_spec d (n.peer x)).1]
    simp [hd]
  have hspec : ∀ x, (e.peers x).valid = true → (e.peers x).publicKey = (n.peer x).publicKey ∧
      peerConf (e.peers x) = peerConf (n.peer x) := by
    intro x hx
    obtain ⟨hsame, hconf⟩ :=
      (restorePeer_spec d (n.peer x)).2 ((hcarried.valid x).symm.trans hx)
    have hsetup := hcarried.setup x
    exact ⟨(congrArg Setup.publicKey hsetup).trans hsame,
      (peerConf_of_setup hsetup).trans hconf⟩
  have hpublic : e.publicKey = d.publicKey := congrArg Identity.publicKey hcarried.identity
  constructor
  · rintro ⟨hapart, hkeeps⟩ x hx
    refine ⟨fun hagrees hc => ?_, fun hup => ((hvalid x).mp (hkeeps hup x hx).1).2⟩
    have hx' := (hvalid x).mpr ⟨hx, hagrees⟩
    refine hapart.foreign x hx' ?_
    rw [(hspec x hx').1, hpublic, hc]
  · intro hfits
    refine ⟨⟨fun x y hx hy hxy => ?_, fun x hx => ?_, fun x hx => ?_⟩, fun hup x hx => ?_⟩
    · rw [(hspec x hx).1, (hspec y hy).1] at hxy
      exact hn.distinct x y ((hvalid x).mp hx).1 ((hvalid y).mp hy).1 hxy
    · rw [(hspec x hx).1]
      exact hn.nonzero x ((hvalid x).mp hx).1
    · obtain ⟨hold, hagrees⟩ := (hvalid x).mp hx
      rw [(hspec x hx).1, hpublic]
      exact (hfits x hold).1 hagrees
    · have hx' := (hvalid x).mpr ⟨hx, (hfits x hx).2 hup⟩
      exact ⟨hx', hspec x hx'⟩

/-- **A private key fits or does harm.**  With the keys apart before, they are apart after the
request, and if it succeeds every peer is kept, exactly if the key fits the peers there are. -/
theorem wgSetIf_keysApart {env : Env cfg} {req : IfReq} (hn : PeerKeysApart n.wg) :
    (PeerKeysApart (wgSetIf c env n req).1.wg ∧
      ((Event.setIf env req).setsIf c n = true → KeepsPeers n.wg (wgSetIf c env n req).1.wg)) ↔
    KeyFits c n (.setIf env req) := by
  rcases wgSetIf_outcomes c with ⟨hsets, h⟩ | ⟨hsets, h⟩
  · -- no private key is set
    have hcarried : n.wg.Carried (wgSetIf c env n req).1.wg := by
      rcases h with ⟨err, h⟩ | h
      · rw [h]
        exact .refl _
      · rw [h]
        exact wgSetIfRest_carried
    refine ⟨fun _ env' req' own he hc => ?_, fun _ => ⟨hn.carried hcarried, fun _ => .carried hcarried⟩⟩
    rw [hsets] at hc
    cases hc
  obtain ⟨⟨-, hdown, hpid⟩, hkey, hsaved⟩ := (setsKey_setIf_iff env n req).mp hsets
  rcases @setPrivateKey_device _ c env n req hkey hsaved with
    ⟨hown, err, hset⟩ | ⟨d, own, hown, hd, hprivate, hpublic, hset⟩
  · -- there is no device any more
    rw [hset] at h
    rcases h with ⟨err', -, h⟩ | ⟨hc, -⟩
    · refine ⟨fun _ env' req' own he _ hown' => ?_, fun _ => ⟨?_, fun hok => ?_⟩⟩
      · cases he
        rw [hown] at hown'
        cases hown'
      · rw [h]
        exact ⟨fun _ _ hx => absurd hx Bool.false_ne_true, fun _ hx => absurd hx Bool.false_ne_true,
          fun _ hx => absurd hx Bool.false_ne_true⟩
      · exact absurd ⟨err', congrArg Prod.snd h⟩ (setsIf_iff.mp hok)
    · cases hc
  · -- every peer is set up again
    rw [hset] at h
    rcases h with ⟨err', hc, -⟩ | ⟨-, h⟩
    · cases hc
    have hcarried : ({ d with peers := fun x => restorePeer c d (n.peer x) } : Device cfg).Carried
        (wgSetIf c env n req).1.wg := by
      rw [h]
      exact wgSetIfRest_carried (n := { n with wg := { d with peers := _ } })
    have hok : (Event.setIf env req).setsIf c n = true ↔ ComesUp env req := by
      rw [setsIf_iff, h]
      exact not_iff_comm.mp
        (wgSetIfRest_ok (n := { n with wg := { d with peers := fun x => restorePeer c d (n.peer x) } })
          hdown hpid hd).symm
    rw [hok, restored_keysApart_iff hn hd hcarried, hprivate, hpublic]
    constructor
    · intro hfits env' req' own' he _ hown'
      cases he
      rw [hown] at hown'
      cases hown'
      exact hfits
    · exact fun hfits => hfits env req own rfl hsets hown

theorem PeerKeysApart.setPeer {d : Device cfg} (h : PeerKeysApart d) {x : Fin cfg.maxPeers}
    {p : Peer cfg} (hdistinct : PeerKeysDistinct (d.setPeer x p))
    (hp : p.valid = true → p.publicKey ≠ Bytes.zero 32 ∧ p.publicKey ≠ d.publicKey) :
    PeerKeysApart (d.setPeer x p) := by
  have hall : ∀ y, ((d.setPeer x p).peers y).valid = true →
      ((d.setPeer x p).peers y).publicKey ≠ Bytes.zero 32 ∧
        ((d.setPeer x p).peers y).publicKey ≠ d.publicKey := by
    intro y hy
    by_cases hyx : y = x
    · rw [hyx, Device.setPeer_peers_self] at hy ⊢
      exact hp hy
    · rw [Device.setPeer_peers_of_ne d p hyx] at hy ⊢
      exact ⟨h.nonzero y hy, h.foreign y hy⟩
  exact ⟨hdistinct, fun y hy => (hall y hy).1, fun y hy => (hall y hy).2⟩

theorem wgSetPeer_keysApart (req : PeerReq) (hn : PeerKeysApart n.wg) :
    PeerKeysApart (wgSetPeer c n req).1.wg := by
  have hdistinct := @wgSetPeer_distinct _ c n req hn.distinct
  rcases wgSetPeer_writes c hn.distinct with ⟨err, h⟩ |
    ⟨x, created, allowed, p, hreq, -, h, -, hkey, -⟩ | ⟨x, p, -, hp, h⟩
  · rw [h]
    exact hn
  · rw [h] at hdistinct ⊢
    refine hn.setPeer hdistinct fun _ => ?_
    rw [(applyPeerReq_identity created allowed p).2, hkey]
    exact ⟨hreq.nonzero, hreq.foreign⟩
  · rw [h] at hdistinct ⊢
    refine hn.setPeer hdistinct fun hvalid => ?_
    rw [hp] at hvalid
    cases hvalid

theorem wgDelPeer_keysApart (publicKey : Key) (hn : PeerKeysApart n.wg) :
    PeerKeysApart (wgDelPeer n publicKey).1.wg := by
  unfold wgDelPeer
  split
  · exact hn
  split
  · exact hn
  · exact hn.setPeer (hn.distinct.clearPeer rfl) fun hvalid => (by cases hvalid)

/-- One step: only a private key that does not fit does harm. -/
theorem step_keysApart {e : Event cfg} (h : step c n e = some n') (hn : PeerKeysApart n.wg) :
    (PeerKeysApart n'.wg ∧ (e.setsIf c n = true → KeepsPeers n.wg n'.wg)) ↔ KeyFits c n e := by
  by_cases he : ∃ env req, e = .setIf env req
  · obtain ⟨env, req, rfl⟩ := he
    cases h
    exact wgSetIf_keysApart hn
  · have hfits : KeyFits c n e := fun env req own hc => absurd ⟨env, req, hc⟩ he
    have hsets : e.setsIf c n = false := by
      cases e with
      | setIf env req => exact absurd ⟨env, req, rfl⟩ he
      | _ => rfl
    refine ⟨fun _ => hfits, fun _ => ⟨?_, fun hc => ?_⟩⟩
    · rcases step_device c h with hdevice | ⟨env, req, hc, -⟩ | ⟨req, -, rfl⟩ | ⟨publicKey, -, rfl⟩
      · exact hn.carried hdevice
      · exact absurd ⟨env, req, hc⟩ he
      · exact wgSetPeer_keysApart req hn
      · exact wgDelPeer_keysApart publicKey hn
    · rw [hsets] at hc
      cases hc

end Steps

/-- **Along every run from the start**, the peers' public keys are pairwise distinct, not zero and
not the device's own, and no successful `SIOCSWGIF` loses a peer, exactly if every private key
that is set fits the peers there are when it is. -/
theorem peerKeysApart_iff {n m : Netdev cfg} {ts : List (Taken (Netdev cfg) (Event cfg))}
    (hinit : Initial n) (h : Run (step c) n ts m) :
    (∀ k ∈ ts, PeerKeysApart k.after.wg ∧
      (k.event.setsIf c k.before = true → KeepsPeers k.before.wg k.after.wg)) ↔
    ∀ k ∈ ts, KeyFits c k.before k.event := by
  have hstart : PeerKeysApart n.wg := by
    obtain ⟨i, rfl⟩ := hinit
    exact ⟨fun _ _ hx => absurd hx Bool.false_ne_true, fun _ hx => absurd hx Bool.false_ne_true,
      fun _ hx => absurd hx Bool.false_ne_true⟩
  induction h with
  | nil => exact ⟨fun _ k hk => (by cases hk), fun _ k hk => (by cases hk)⟩
  | @snoc ts t u e h hs ih =>
      have hsplit : ∀ P : Taken (Netdev cfg) (Event cfg) → Prop,
          (∀ k ∈ ts ++ [⟨t, e, u⟩], P k) ↔ (∀ k ∈ ts, P k) ∧ P ⟨t, e, u⟩ := by
        intro P
        rw [List.forall_mem_append, List.forall_mem_singleton]
      have hlast := fun hbefore : ∀ k ∈ ts, PeerKeysApart k.after.wg ∧
          (k.event.setsIf c k.before = true → KeepsPeers k.before.wg k.after.wg) =>
        step_keysApart hs (h.invariant (I := fun n : Netdev cfg => PeerKeysApart n.wg) hstart
          fun k hk _ _ => (hbefore k hk).1).1
      rw [hsplit, hsplit]
      constructor
      · rintro ⟨hbefore, hstep⟩
        exact ⟨ih.mp hbefore, (hlast hbefore).mp hstep⟩
      · rintro ⟨hfits, hstep⟩
        exact ⟨ih.mpr hfits, (hlast (ih.mpr hfits)).mpr hstep⟩

/-! ### Runs on the small network -/

/-- A private key, and the public key that goes with it. -/
def sampleKey : Key := Sample.key 16 64

def samplePeerKey : Key := (Crypto.plain.generatePublicKey (Crypto.clamp sampleKey)).getD sampleKey

/-- Sets that private key. -/
def setSampleKey : Event Sample.config :=
  .setIf (Sample.env 2000)
    { flags := wgIfHasPrivateKey, privateKey := sampleKey, listenPort := 0, addr := 0, netmask := 0 }

/-- The first peer is configured before the second private key is set, which fits. -/
theorem peerKeysApart_iff_sample : ∃ (n m : Netdev Sample.config)
    (ts : List (Taken (Netdev Sample.config) _)), ts.length = 3 ∧ Run (step Crypto.plain) n ts m ∧
      ((∀ k ∈ ts, PeerKeysApart k.after.wg ∧ (k.event.setsIf Crypto.plain k.before = true →
        KeepsPeers k.before.wg k.after.wg)) ↔ ∀ k ∈ ts, KeyFits Crypto.plain k.before k.event) := by
  obtain ⟨⟨ts, m⟩, hsteps, hlength⟩ : ∃ r, steps (step Crypto.plain)
      (wireguardInitialize 0 : Netdev Sample.config)
      [Sample.setKey 1000, Sample.setFirst none, setSampleKey] = some r ∧ r.1.length = 3 :=
    ⟨_, Option.eq_some_of_isSome (by decide +kernel), by decide +kernel⟩
  have hrun := Run.of_steps hsteps
  exact ⟨wireguardInitialize 0, m, ts, hlength, hrun,
    peerKeysApart_iff Crypto.plain ⟨0, rfl⟩ hrun⟩

/-- **The device's own key is a peer's**: the peer is configured first, and the private key that
goes with its public key is set after it. -/
theorem not_peerKeysApart_own : ∃ n : Netdev Sample.config, ReachableState Crypto.plain n ∧
    (n.peer Sample.first).valid = true ∧ (n.peer Sample.first).publicKey = n.wg.publicKey := by
  obtain ⟨n, hn, hrun⟩ := Sample.exists_reachable
    [Sample.setKey 1000, .setPeer { Sample.firstReq none with publicKey := samplePeerKey },
      setSampleKey]
    (fun n => (n.peer Sample.first).valid &&
      decide ((n.peer Sample.first).publicKey = n.wg.publicKey)) (by decide +kernel)
  simp only [Bool.and_eq_true, decide_eq_true_eq] at hrun
  exact ⟨n, hn, hrun.1, hrun.2⟩

end NuttxWireguard.Kernel
