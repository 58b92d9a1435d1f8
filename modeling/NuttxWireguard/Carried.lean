/-
What traffic does to a peer's setup and indices.

Configuration writes who a peer is, where it was configured and what it may send; packets
and timers only read that.  The local indices a peer holds, in its three slots and its
handshake, packets and timers only move and forget, so long as none is issued.  A function
that does no more than this leaves the peer `Carried`.
-/
import NuttxWireguard.Lookup
import NuttxWireguard.Session
import NuttxWireguard.Lib.Tokens

namespace NuttxWireguard

open Lib

variable {cfg : Config}

/-! ### Setup -/

/-- What configuration decides of a peer. -/
structure Setup (cfg : Config) where
  valid : Bool
  connectIp : U32
  connectPort : U16
  keepaliveInterval : U16
  allowedSourceIps : Fin cfg.maxAips → AllowedIp
  publicKey : Key
  presharedKey : Key
  publicKeyDh : Key
  labelCookieKey : Key
  labelMac1Key : Key

def Peer.setup (p : Peer cfg) : Setup cfg where
  valid := p.valid
  connectIp := p.connectIp
  connectPort := p.connectPort
  keepaliveInterval := p.keepaliveInterval
  allowedSourceIps := p.allowedSourceIps
  publicKey := p.publicKey
  presharedKey := p.presharedKey
  publicKeyDh := p.publicKeyDh
  labelCookieKey := p.labelCookieKey
  labelMac1Key := p.labelMac1Key

/-! ### Indices -/

/-- Where a peer holds a local index. -/
inductive Holder
  | keypair (s : Slot)
  | handshake
  deriving DecidableEq

/-- The local indices of a peer, and which of them it answers to. -/
def Peer.indices (p : Peer cfg) : Tokens Holder U32 where
  token
    | .keypair s => (p.keypair s).localIndex
    | .handshake => p.handshake.localIndex
  live
    | .keypair s => (p.keypair s).valid = true
    | .handshake => p.handshake.valid = true ∧ p.handshake.initiator = true

/-- The local indices of all peers. -/
def Device.indices (d : Device cfg) : Tokens (Fin cfg.maxPeers × Holder) U32 :=
  Tokens.family fun x => (d.peers x).indices

theorem Device.setPeer_indices (d : Device cfg) (x : Fin cfg.maxPeers) (p : Peer cfg) :
    (d.setPeer x p).indices
      = Tokens.family (Function.update (fun y => (d.peers y).indices) x p.indices) := by
  unfold Device.indices Device.setPeer
  congr 1
  funext y
  exact Function.apply_update (fun _ q => q.indices) d.peers x p y

/-- No index is held twice, and what a peer answers to is not zero. -/
abbrev Device.Unambiguous (d : Device cfg) : Prop := d.indices.Apart 0

/-! ### Carried -/

/-- `q` is `p` with its setup, its indices at most moved and forgotten. -/
structure Peer.Carried (p q : Peer cfg) : Prop where
  setup : q.setup = p.setup
  indices : Tokens.Moved 0 p.indices q.indices

namespace Peer.Carried

variable {p q r : Peer cfg}

theorem refl (p : Peer cfg) : p.Carried p := ⟨rfl, .refl _⟩

theorem trans (h : p.Carried q) (h' : q.Carried r) : p.Carried r :=
  ⟨h'.setup.trans h.setup, h.indices.trans h'.indices⟩

/-- The slots were filled from one another or cleared, and the handshake has its index. -/
theorem of_slots (src : Slot → Option Slot) (hsetup : q.setup = p.setup)
    (hinj : ∀ s t u, src s = some u → src t = some u → s = t)
    (hslots : ∀ s, q.keypair s = Keypair.zero ∨ ∃ t, src s = some t ∧ q.keypair s = p.keypair t)
    (hhandshake : q.handshake = p.handshake ∨ q.handshake = Handshake.zero) : p.Carried q := by
  refine ⟨hsetup, fun a => ?_, ⟨?_, ?_, ?_⟩⟩
  · exact match a with
      | .keypair s => (src s).map .keypair
      | .handshake => some .handshake
  · intro a b c ha hb
    cases a with
    | keypair s =>
        obtain ⟨u, hu, rfl⟩ := Option.map_eq_some_iff.mp ha
        cases b with
        | keypair t =>
            obtain ⟨u', hu', heq⟩ := Option.map_eq_some_iff.mp hb
            cases heq
            rw [hinj s t u hu hu']
        | handshake => cases hb
    | handshake =>
        cases b with
        | keypair t =>
            obtain ⟨u', hu', heq⟩ := Option.map_eq_some_iff.mp hb
            cases ha
            cases heq
        | handshake => rfl
  · intro a ha
    cases a with
    | keypair s =>
        rcases hslots s with hzero | ⟨t, ht, heq⟩
        · exact absurd (congrArg Keypair.localIndex hzero) ha
        · exact ⟨.keypair t, Option.map_eq_some_iff.mpr ⟨t, ht, rfl⟩, congrArg Keypair.localIndex heq⟩
    | handshake =>
        rcases hhandshake with heq | hzero
        · exact ⟨.handshake, rfl, congrArg Handshake.localIndex heq⟩
        · exact absurd (congrArg Handshake.localIndex hzero) ha
  · intro a ha
    cases a with
    | keypair s =>
        have hvalid : (q.keypair s).valid = true := ha
        rcases hslots s with hzero | ⟨t, ht, heq⟩
        · rw [hzero] at hvalid
          cases hvalid
        · rw [heq] at hvalid
          exact Or.inr ⟨.keypair t, hvalid, congrArg Keypair.localIndex heq⟩
    | handshake =>
        have hvalid : q.handshake.valid = true ∧ q.handshake.initiator = true := ha
        rcases hhandshake with heq | hzero
        · rw [heq] at hvalid
          exact Or.inr ⟨.handshake, hvalid, congrArg Handshake.localIndex heq⟩
        · rw [hzero] at hvalid
          cases hvalid.1

/-- Only what is neither setup nor index was written. -/
theorem of_eq (hsetup : q.setup = p.setup) (htoken : q.indices.token = p.indices.token)
    (hlive : ∀ a, q.indices.live a → p.indices.live a) : p.Carried q :=
  ⟨hsetup, .of_eq htoken hlive⟩

/-- Neither the setup, nor a slot, nor the handshake was written. -/
theorem of_same (hsetup : q.setup = p.setup) (hslots : q.keypair = p.keypair)
    (hhandshake : q.handshake = p.handshake) : p.Carried q :=
  of_slots some hsetup (fun _ _ _ hs ht => Option.some.inj (hs.trans ht.symm))
    (fun s => Or.inr ⟨s, rfl, congrFun hslots s⟩) (Or.inl hhandshake)

end Peer.Carried

@[simp] theorem Peer.setKeypair_setup (p : Peer cfg) (s : Slot) (kp : Keypair cfg) :
    (p.setKeypair s kp).setup = p.setup := by
  cases s <;> rfl

@[simp] theorem Peer.setKeypair_handshake (p : Peer cfg) (s : Slot) (kp : Keypair cfg) :
    (p.setKeypair s kp).handshake = p.handshake := by
  cases s <;> rfl

/-! ### Keypairs -/

section Functions

variable (p : Peer cfg)

/-- A keypair is written over by one with the same index. -/
theorem setKeypair_carried {s : Slot} {kp : Keypair cfg}
    (hindex : kp.localIndex = (p.keypair s).localIndex)
    (hvalid : kp.valid = true → (p.keypair s).valid = true) : p.Carried (p.setKeypair s kp) := by
  refine .of_eq (by simp) ?_ ?_
  · funext a
    cases a with
    | keypair t =>
        show ((p.setKeypair s kp).keypair t).localIndex = (p.keypair t).localIndex
        by_cases ht : t = s
        · rw [ht, Peer.keypair_setKeypair_self, hindex]
        · rw [Peer.keypair_setKeypair_of_ne p kp ht]
    | handshake => exact congrArg Handshake.localIndex (p.setKeypair_handshake s kp)
  · intro a ha
    cases a with
    | keypair t =>
        have ha : ((p.setKeypair s kp).keypair t).valid = true := ha
        show (p.keypair t).valid = true
        by_cases ht : t = s
        · rw [ht, Peer.keypair_setKeypair_self] at ha
          rw [ht]
          exact hvalid ha
        · rwa [Peer.keypair_setKeypair_of_ne p kp ht] at ha
    | handshake =>
        have ha : (p.setKeypair s kp).handshake.valid = true ∧
          (p.setKeypair s kp).handshake.initiator = true := ha
        rwa [Peer.setKeypair_handshake] at ha

theorem keypairDestroy_carried (s : Slot) : p.Carried (keypairDestroy p s) := by
  unfold keypairDestroy
  refine .of_slots some (by simp) (fun _ _ _ hs ht => Option.some.inj (hs.trans ht.symm)) ?_
    (Or.inl (by simp))
  intro t
  by_cases ht : t = s
  · rw [ht, Peer.keypair_setKeypair_self]
    exact Or.inl rfl
  · exact Or.inr ⟨t, rfl, Peer.keypair_setKeypair_of_ne p _ ht⟩

theorem keypairUpdate_carried (s : Slot) : p.Carried (keypairUpdate p s) := by
  unfold keypairUpdate
  split
  · refine .of_slots (Slots.of (some .next) (some .curr) none) rfl ?_ ?_ (Or.inl rfl)
    · intro t u v ht hu
      cases t <;> cases u <;> cases ht <;> cases hu <;> rfl
    · intro t
      cases t with
      | curr => exact Or.inr ⟨.next, rfl, rfl⟩
      | prev => exact Or.inr ⟨.curr, rfl, rfl⟩
      | next => exact Or.inl rfl
  · exact .refl p

theorem acceptPacket_carried (now : U32) {s : Slot} {kp : Keypair cfg} (addr : U32) (port : U16)
    (dataLen : Nat) (hindex : kp.localIndex = (p.keypair s).localIndex)
    (hvalid : kp.valid = (p.keypair s).valid) :
    p.Carried (acceptPacket now p s kp addr port dataLen) := by
  have hsend : ∀ (b : Prop) [Decidable b] (q : Peer cfg),
      q.Carried (if b then { q with sendHandshake := true } else q) := by
    intro b _ q
    split
    · exact .of_same rfl rfl rfl
    · exact .refl q
  have hset : p.Carried (p.setKeypair s { kp with lastRx := now }) :=
    setKeypair_carried p hindex fun h => hvalid ▸ h
  have hwrite : ∀ q : Peer cfg, q.Carried
      { q with ip := addr, port := port, lastRx := now, rxBytes := p.rxBytes + BitVec.ofNat 64 dataLen } :=
    fun q => .of_same rfl rfl rfl
  unfold acceptPacket
  exact ((hset.trans (hwrite _)).trans (keypairUpdate_carried _ s)).trans (hsend _ _)

/-- A keypair is added beside the setup and the handshake. -/
theorem addKeypair_setup (kp : Keypair cfg) : (addKeypair p kp).setup = p.setup := by
  unfold addKeypair
  dsimp only
  split
  · split <;> rfl
  · rfl

theorem addKeypair_handshake (kp : Keypair cfg) : (addKeypair p kp).handshake = p.handshake := by
  unfold addKeypair
  dsimp only
  split
  · split <;> rfl
  · rfl

/-- Where the slots have their keypairs from after `kp` was added: `none` is a cleared slot,
`some none` holds `kp`, and the others hold what one of the slots held. -/
theorem addKeypair_src (kp : Keypair cfg) : ∃ src : Slot → Option (Option Slot),
    (∀ s t a, src s = some a → src t = some a → s = t) ∧
    ∀ s, (src s = none ∧ (addKeypair p kp).keypair s = Keypair.zero) ∨
      (src s = some none ∧ (addKeypair p kp).keypair s = kp) ∨
      ∃ t, src s = some (some t) ∧ (addKeypair p kp).keypair s = p.keypair t := by
  have hinj : ∀ {a b d : Option (Option Slot)}, a ≠ b → a ≠ d → (b ≠ d ∨ b = none) →
      ∀ s t r, Slots.of a b d s = some r → Slots.of a b d t = some r → s = t := by
    intro a b d hab had hbd s t r hs ht
    cases s <;> cases t <;> simp_all [Slots.of]
  unfold addKeypair
  dsimp only
  by_cases hinitiator : kp.initiator = true
  · rw [if_pos hinitiator]
    by_cases hnext : p.nextKeypair.valid = true
    · rw [if_pos hnext]
      refine ⟨Slots.of (some none) (some (some .next)) none,
        hinj (by simp) (by simp) (by simp), fun s => ?_⟩
      cases s with
      | curr => exact Or.inr (Or.inl ⟨rfl, rfl⟩)
      | prev => exact Or.inr (Or.inr ⟨.next, rfl, rfl⟩)
      | next => exact Or.inl ⟨rfl, rfl⟩
    · rw [if_neg hnext]
      refine ⟨Slots.of (some none) (some (some .curr)) (some (some .next)),
        hinj (by simp) (by simp) (by simp), fun s => ?_⟩
      cases s with
      | curr => exact Or.inr (Or.inl ⟨rfl, rfl⟩)
      | prev => exact Or.inr (Or.inr ⟨.curr, rfl, rfl⟩)
      | next => exact Or.inr (Or.inr ⟨.next, rfl, rfl⟩)
  · rw [if_neg hinitiator]
    refine ⟨Slots.of (some (some .curr)) none (some none),
      hinj (by simp) (by simp) (by simp), fun s => ?_⟩
    cases s with
    | curr => exact Or.inr (Or.inr ⟨.curr, rfl, rfl⟩)
    | prev => exact Or.inl ⟨rfl, rfl⟩
    | next => exact Or.inr (Or.inl ⟨rfl, rfl⟩)

/-- A started session takes the index over from the handshake, which is cleared. -/
theorem addKeypair_carried (c : Crypto) (now : U32) (sid born : Nat) (initiator : Bool)
    {hs : Handshake} (hnonzero : p.handshake.localIndex ≠ 0) (hindex : hs.localIndex = 0)
    (hvalid : hs.valid = false) :
    p.Carried (addKeypair { p with handshake := hs }
      (sessionKeypair c now sid born p.handshake initiator)) := by
  generalize hkp : (sessionKeypair c now sid born p.handshake initiator : Keypair cfg) = kp
  have hkpindex : kp.localIndex = p.handshake.localIndex := by
    rw [← hkp]
    rfl
  have hsetup := addKeypair_setup { p with handshake := hs } kp
  have hhandshake := addKeypair_handshake { p with handshake := hs } kp
  obtain ⟨src, hinj, hslots⟩ := addKeypair_src { p with handshake := hs } kp
  have hsame : ∀ t, ({ p with handshake := hs } : Peer cfg).keypair t = p.keypair t := by
    intro t
    cases t <;> rfl
  simp only [hsame] at hslots
  generalize addKeypair { p with handshake := hs } kp = q at hsetup hhandshake hslots
  let from' : Option Slot → Holder := fun o => o.elim .handshake .keypair
  have hfrom : ∀ a b, from' a = from' b → a = b := by
    intro a b hab
    cases a <;> cases b <;> cases hab <;> rfl
  refine ⟨hsetup, fun a => match a with | .keypair s => (src s).map from' | .handshake => none,
    ⟨?_, ?_, ?_⟩⟩
  · intro a b r ha hb
    cases a with
    | keypair s =>
        cases b with
        | keypair t =>
            obtain ⟨u, hu, rfl⟩ := Option.map_eq_some_iff.mp ha
            obtain ⟨v, hv, heq⟩ := Option.map_eq_some_iff.mp hb
            rw [hfrom v u heq] at hv
            rw [hinj s t u hu hv]
        | handshake => cases hb
    | handshake => cases ha
  · intro a ha
    cases a with
    | keypair s =>
        rcases hslots s with ⟨-, hzero⟩ | ⟨hs, heq⟩ | ⟨t, hs, heq⟩
        · exact absurd (congrArg Keypair.localIndex hzero) ha
        · exact ⟨.handshake, Option.map_eq_some_iff.mpr ⟨none, hs, rfl⟩,
            (congrArg Keypair.localIndex heq).trans hkpindex⟩
        · exact ⟨.keypair t, Option.map_eq_some_iff.mpr ⟨some t, hs, rfl⟩,
            congrArg Keypair.localIndex heq⟩
    | handshake => exact absurd ((congrArg Handshake.localIndex hhandshake).trans hindex) ha
  · intro a ha
    cases a with
    | keypair s =>
        have hlive : (q.keypair s).valid = true := ha
        rcases hslots s with ⟨-, hzero⟩ | ⟨hs, heq⟩ | ⟨t, hs, heq⟩
        · rw [hzero] at hlive
          cases hlive
        · refine Or.inl fun hc => hnonzero ?_
          rw [← hkpindex, ← heq]
          exact hc
        · rw [heq] at hlive
          exact Or.inr ⟨.keypair t, hlive, congrArg Keypair.localIndex heq⟩
    | handshake =>
        have hlive : q.handshake.valid = true ∧ q.handshake.initiator = true := ha
        rw [hhandshake, hvalid] at hlive
        cases hlive.1

/-! ### Messages and timers -/

/-- An initiation that opens is from a peer. -/
theorem openInit_valid {c : Crypto} {d : Device cfg} {msg : MsgInit} {o : OpenedInit cfg}
    (h : openInit c d msg = some o) : (d.peers o.peer).valid = true := by
  unfold openInit at h
  dsimp only at h
  simp only [Option.bind_eq_bind, Option.bind_eq_some_iff, Option.some.injEq] at h
  obtain ⟨_, _, _, _, x, hx, _, _, rfl⟩ := h
  exact valid_of_peerByPubkey hx

theorem acceptInit_carried (now : U32) (msg : MsgInit) (o : OpenedInit cfg) :
    p.Carried (acceptInit now p msg o) := by
  refine .of_eq rfl ?_ ?_
  · funext a
    cases a with
    | keypair s => cases s <;> rfl
    | handshake => rfl
  · intro a ha
    cases a with
    | keypair s => cases s <;> exact ha
    | handshake => cases ha.2

theorem processResponse_carried {c : Crypto} {d : Device cfg} {q : Peer cfg} {msg : MsgResponse}
    (h : processResponse c d p msg = some q) :
    p.Carried q ∧ q.indices.live .handshake := by
  unfold processResponse at h
  dsimp only at h
  split at h
  · cases h
  · rename_i hlive
    simp only [Option.bind_eq_bind, Option.bind_eq_some_iff, Option.some.injEq] at h
    obtain ⟨_, _, _, _, _, _, rfl⟩ := h
    refine ⟨.of_eq rfl ?_ ?_, not_not.mp hlive⟩
    · funext a
      cases a with
      | keypair s => cases s <;> rfl
      | handshake => rfl
    · intro a ha
      cases a with
      | keypair s => cases s <;> exact ha
      | handshake => exact ha

theorem processCookie_carried {c : Crypto} {now : U32} {q : Peer cfg} {msg : MsgCookie}
    (h : processCookie c now p msg = some q) : p.Carried q := by
  unfold processCookie at h
  split at h
  · cases h
  · split at h
    · cases h
    · cases h
      refine .of_same rfl ?_ rfl
      funext s
      cases s <;> rfl

theorem wgForgetPeer_carried : p.Carried (wgForgetPeer p) := by
  have hdestroy := ((keypairDestroy_carried p .next).trans (keypairDestroy_carried _ .curr)).trans
    (keypairDestroy_carried _ .prev)
  refine hdestroy.trans (.of_same rfl ?_ rfl)
  funext s
  cases s <;> rfl

theorem wgExpirePeer_carried (now : U32) : p.Carried (wgExpirePeer now p) := by
  have hdrop : ∀ (q : Peer cfg) (b : Prop) [Decidable b],
      q.Carried (if b then keypairDestroy q .curr else q) := by
    intro q b _
    split
    · exact keypairDestroy_carried q .curr
    · exact .refl q
  unfold wgExpirePeer
  dsimp only
  refine Peer.Carried.trans ?_ (hdrop _ _)
  split
  · exact wgForgetPeer_carried p
  · exact .refl p

theorem wgIfupPeer_carried : p.Carried (wgIfupPeer p) := by
  unfold wgIfupPeer
  split
  · refine .of_same rfl ?_ rfl
    funext s
    cases s <;> rfl
  · exact .refl p

end Functions

/-! ### Building messages -/

/-- A handshake record that was written without its index, its role and its validity. -/
theorem setHandshake_carried {d : Device cfg} {x : Fin cfg.maxPeers} {hs : Handshake}
    (hindex : hs.localIndex = (d.peers x).handshake.localIndex)
    (hvalid : hs.valid = (d.peers x).handshake.valid)
    (hinitiator : hs.initiator = (d.peers x).handshake.initiator) :
    (d.peers x).Carried { d.peers x with handshake := hs } := by
  refine .of_eq rfl ?_ ?_
  · funext a
    cases a with
    | keypair s => cases s <;> rfl
    | handshake => exact hindex
  · intro a ha
    cases a with
    | keypair s => cases s <;> exact ha
    | handshake =>
        have ha : hs.valid = true ∧ hs.initiator = true := ha
        rwa [hvalid, hinitiator] at ha

theorem initiate_handshake {c : Crypto} {d : Device cfg} {p : Peer cfg} {hs hs' : Handshake} {e : Key}
    {t : Bytes 12} {enc : Option (Bytes 48 × Bytes 28)} (h : initiate c d p hs e t = (hs', enc)) :
    hs'.localIndex = hs.localIndex ∧ hs'.valid = hs.valid ∧ hs'.initiator = hs.initiator := by
  unfold initiate at h
  dsimp only at h
  split at h <;> cases h <;> exact ⟨rfl, rfl, rfl⟩

theorem respond_handshake {c : Crypto} {p : Peer cfg} {hs hs' : Handshake} {e : Key} {enc : Option (Bytes 16)}
    (h : respond c p hs e = (hs', enc)) :
    hs'.localIndex = hs.localIndex ∧ hs'.valid = hs.valid ∧ hs'.initiator = hs.initiator := by
  unfold respond at h
  dsimp only at h
  split at h
  · cases h
    exact ⟨rfl, rfl, rfl⟩
  · split at h <;> cases h <;> exact ⟨rfl, rfl, rfl⟩

/-! ### Peers without sessions -/

/-- A peer without sessions. -/
structure Peer.Blank (p : Peer cfg) : Prop where
  slots : p.keypair = fun _ => Keypair.zero
  handshake : p.handshake = Handshake.zero

theorem Peer.blank_zero : (Peer.zero : Peer cfg).Blank := by
  refine ⟨?_, rfl⟩
  funext s
  cases s <;> rfl

/-- It holds no index. -/
theorem Peer.Blank.moved {q : Peer cfg} (h : q.Blank) (t : Tokens Holder U32) :
    Tokens.Moved 0 t q.indices := by
  refine ⟨fun _ => none, ⟨?_, ?_, ?_⟩⟩
  · intro a b r ha
    cases ha
  · intro a ha
    cases a with
    | keypair s => exact absurd (congrArg Keypair.localIndex (congrFun h.slots s)) ha
    | handshake => exact absurd (congrArg Handshake.localIndex h.handshake) ha
  · intro a ha
    cases a with
    | keypair s =>
        have ha : (q.keypair s).valid = true := ha
        rw [h.slots] at ha
        cases ha
    | handshake =>
        have ha : q.handshake.valid = true ∧ q.handshake.initiator = true := ha
        rw [h.handshake] at ha
        cases ha.1

/-- Slots and handshake make up the indices. -/
theorem Peer.indices_congr {p q : Peer cfg} (hslots : q.keypair = p.keypair)
    (hhandshake : q.handshake = p.handshake) : q.indices = p.indices := by
  unfold Peer.indices
  rw [hslots, hhandshake]

/-! ### The table of peers -/

namespace Device.Unambiguous

variable {d : Device cfg} {x : Fin cfg.maxPeers} {p : Peer cfg}

/-- A peer's indices moved. -/
theorem setPeer (h : d.Unambiguous) (hp : Tokens.Moved 0 (d.peers x).indices p.indices) :
    (d.setPeer x p).Unambiguous := by
  show Tokens.Apart 0 (d.setPeer x p).indices
  rw [Device.setPeer_indices]
  exact h.moved (Tokens.Moved.family_update hp)

/-- A peer's handshake was given an index no peer holds. -/
theorem issue (h : d.Unambiguous) {hs : Handshake} {i : U32} (hindex : hs.localIndex = i)
    (hfresh : ∀ a, d.indices.token a ≠ i) (hi : i ≠ 0) :
    (d.setPeer x { d.peers x with handshake := hs }).Unambiguous := by
  show Tokens.Apart 0 (d.setPeer x _).indices
  rw [Device.setPeer_indices]
  refine h.issued (Tokens.Issued.family_update ⟨.handshake, hindex, ?_⟩) hfresh hi
  intro a ha
  cases a with
  | keypair s => cases s <;> exact ⟨rfl, id⟩
  | handshake => exact absurd rfl ha

/-- A peer without indices was written over another. -/
theorem clear (h : d.Unambiguous) (hp : p.Blank) : (d.setPeer x p).Unambiguous :=
  h.setPeer (hp.moved _)

/-- The indices of every peer moved. -/
theorem each {e : Device cfg} (h : d.Unambiguous) (he : ∀ x, (d.peers x).Carried (e.peers x)) :
    e.Unambiguous :=
  h.moved (Tokens.Moved.family fun x => (he x).indices)

/-- A table of peers without indices. -/
theorem of_blank (h : ∀ x, (d.peers x).Blank) : d.Unambiguous := by
  have hzero : (Device.zero : Device cfg).Unambiguous := by
    constructor
    · rintro ⟨x, a⟩ q - hne
      cases a with
      | keypair s => cases s <;> exact absurd rfl hne
      | handshake => exact absurd rfl hne
    · rintro ⟨x, a⟩ hlive
      cases a with
      | keypair s => cases s <;> exact absurd hlive Bool.false_ne_true
      | handshake => exact absurd hlive.1 Bool.false_ne_true
  exact hzero.moved (Tokens.Moved.family fun x => (h x).moved _)

/-- **One keypair at most answers to an index.** -/
theorem holdsIndex (h : d.Unambiguous) {s : Slot} (hpeer : (d.peers x).valid = true)
    (hkeypair : ((d.peers x).keypair s).valid = true) :
    HoldsIndex d x s ((d.peers x).keypair s).localIndex := by
  refine ⟨hpeer, hkeypair, rfl, fun y t _ ht hindex => ?_⟩
  have heq := h.eq_of_live (p := (x, .keypair s)) (q := (y, .keypair t)) hkeypair hindex.symm
  cases heq
  exact ⟨rfl, rfl⟩

/-- **One handshake at most answers to an index.** -/
theorem peerByHandshake (h : d.Unambiguous) (hpeer : (d.peers x).valid = true)
    (hhandshake : (d.peers x).handshake.valid = true ∧ (d.peers x).handshake.initiator = true) :
    NuttxWireguard.peerByHandshake d (d.peers x).handshake.localIndex = some x := by
  refine peerByHandshake_of_only hpeer hhandshake rfl fun y hy hindex => hy ?_
  have heq := h.eq_of_live (p := (x, .handshake)) (q := (y, .handshake)) hhandshake hindex.symm
  cases heq
  rfl

end Device.Unambiguous

/-! ### What a lookup finds -/

/-- The keypair of a peer that is there answers to an index. -/
def Answers (d : Device cfg) (x : Fin cfg.maxPeers) (s : Slot) (receiver : U32) : Prop :=
  (d.peers x).valid = true ∧ ((d.peers x).keypair s).valid = true ∧
    ((d.peers x).keypair s).localIndex = receiver

/-- So does its half-open handshake. -/
def Awaits (d : Device cfg) (x : Fin cfg.maxPeers) (receiver : U32) : Prop :=
  (d.peers x).valid = true ∧ (d.peers x).handshake.valid = true ∧
    (d.peers x).handshake.initiator = true ∧ (d.peers x).handshake.localIndex = receiver

/-- Received indices are told apart. -/
structure Demultiplexes (d : Device cfg) : Prop where
  /-- No index but zero is held in two places, of one peer or of two. -/
  distinct : ∀ x y a b, (d.peers x).indices.token a = (d.peers y).indices.token b →
    (d.peers x).indices.token a ≠ 0 → x = y ∧ a = b
  /-- The two lookups find the keypair that answers to the index, if there is one. -/
  keypair : ∀ receiver x s, Answers d x s receiver ↔
    peerByReceiver d receiver = some x ∧ keypairByIndex (d.peers x) receiver = some s
  /-- And the lookup of handshakes the handshake. -/
  handshake : ∀ receiver x, Awaits d x receiver ↔ peerByHandshake d receiver = some x

theorem Demultiplexes.of_unambiguous {d : Device cfg} (h : d.Unambiguous) : Demultiplexes d where
  distinct := by
    intro x y a b heq hne
    have hplace := h.only (x, a) (y, b) heq hne
    cases hplace
    exact ⟨rfl, rfl⟩
  keypair := by
    intro receiver x s
    constructor
    · rintro ⟨hpeer, hkeypair, rfl⟩
      have hholds := h.holdsIndex hpeer hkeypair
      exact ⟨hholds.peerByReceiver, hholds.keypairByIndex⟩
    · rintro ⟨hpeer, hkeypair⟩
      exact ⟨peerByReceiver_valid hpeer, keypairByIndex_some hkeypair⟩
  handshake := by
    intro receiver x
    constructor
    · rintro ⟨hpeer, hvalid, hinitiator, rfl⟩
      exact h.peerByHandshake hpeer ⟨hvalid, hinitiator⟩
    · intro hfound
      have hx := List.find?_some hfound
      simp only [Bool.and_eq_true, decide_eq_true_eq] at hx
      exact ⟨hx.1.1.1, hx.1.1.2, hx.1.2, hx.2⟩

/-! ### Devices -/

/-- Who the device is. -/
structure Identity where
  valid : Bool
  publicKey : Key
  privateKey : Key
  labelCookieKey : Key
  labelMac1Key : Key

def Device.identity (d : Device cfg) : Identity where
  valid := d.valid
  publicKey := d.publicKey
  privateKey := d.privateKey
  labelCookieKey := d.labelCookieKey
  labelMac1Key := d.labelMac1Key

/-- `e` is `d` after traffic. -/
structure Device.Carried (d e : Device cfg) : Prop where
  identity : e.identity = d.identity
  setup : ∀ x, (e.peers x).setup = (d.peers x).setup
  indices : d.Unambiguous → e.Unambiguous
  /-- A record without a peer is not written. -/
  absent : ∀ x, (d.peers x).valid = false → e.peers x = d.peers x

namespace Device.Carried

variable {d e f : Device cfg} {x : Fin cfg.maxPeers}

theorem refl (d : Device cfg) : d.Carried d := ⟨rfl, fun _ => rfl, id, fun _ _ => rfl⟩

theorem valid (h : d.Carried e) (x : Fin cfg.maxPeers) : (e.peers x).valid = (d.peers x).valid :=
  congrArg Setup.valid (h.setup x)

theorem trans (h : d.Carried e) (h' : e.Carried f) : d.Carried f where
  identity := h'.identity.trans h.identity
  setup := fun x => (h'.setup x).trans (h.setup x)
  indices := h'.indices ∘ h.indices
  absent := fun x hx => (h'.absent x ((h.valid x).trans hx)).trans (h.absent x hx)

/-- Every peer was carried. -/
theorem each (hidentity : e.identity = d.identity) (he : ∀ x, (d.peers x).Carried (e.peers x))
    (habsent : ∀ x, (d.peers x).valid = false → e.peers x = d.peers x) : d.Carried e :=
  ⟨hidentity, fun x => (he x).setup, fun h => h.each he, habsent⟩

/-- The peers were left alone. -/
theorem of_peers (hidentity : e.identity = d.identity) (hpeers : e.peers = d.peers) :
    d.Carried e := by
  refine each hidentity (fun x => ?_) fun x _ => congrFun hpeers x
  rw [hpeers]
  exact .refl _

/-- A peer that is there was written, its indices apart. -/
theorem write {p : Peer cfg} (hvalid : (d.peers x).valid = true)
    (hsetup : p.setup = (d.peers x).setup) (h : d.Unambiguous → (d.setPeer x p).Unambiguous) :
    d.Carried (d.setPeer x p) where
  identity := rfl
  setup := by
    intro y
    by_cases hy : y = x
    · rw [hy, Device.setPeer_peers_self]
      exact hsetup
    · rw [Device.setPeer_peers_of_ne d _ hy]
  indices := h
  absent := by
    intro y hy
    refine Device.setPeer_peers_of_ne d p fun hyx => ?_
    rw [hyx, hvalid] at hy
    cases hy

/-- A peer that is there was carried. -/
theorem setPeer {p : Peer cfg} (hvalid : (d.peers x).valid = true) (h : (d.peers x).Carried p) :
    d.Carried (d.setPeer x p) :=
  write hvalid h.setup fun hd => hd.setPeer h.indices

end Device.Carried

end NuttxWireguard
