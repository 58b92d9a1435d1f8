/-
The handshake record after a message that was not built.

`wg_create_init` and `wg_create_response` write the transcript into the peer's handshake
record as they go.  Only the timestamp is read before the first write; when a later step
fails, what was written stays, and the record is not marked invalid.  An older handshake that
was waiting there for its answer is then still taken for one, and can no longer be finished.

So a failed call is harmless exactly if no handshake was waiting, if nothing was written yet,
or if the record already held what the call wrote, as it does when a call fails twice.
-/
import NuttxWireguard.Kernel.System

namespace NuttxWireguard.Kernel

open Lib

variable {cfg : Config}

/-! ### What is written -/

/-- What a message under construction has written into the handshake record. -/
structure Draft where
  chainingKey : Key
  hash : Key
  ephemeralPrivate : Key

namespace Draft

variable (t : Draft) (hs : Handshake)

/-- The record written over. -/
def into : Handshake :=
  { hs with
    chainingKey := t.chainingKey
    hash := t.hash
    ephemeralPrivate := t.ephemeralPrivate }

/-- The record holds it already. -/
structure Matches : Prop where
  chainingKey : hs.chainingKey = t.chainingKey
  hash : hs.hash = t.hash
  ephemeralPrivate : hs.ephemeralPrivate = t.ephemeralPrivate

/-- A public key mixed in. -/
def mix (c : Crypto) (ephemeral : Key) : Draft :=
  { t with
    chainingKey := c.kdf1 t.chainingKey ephemeral.toList
    hash := c.mixHash t.hash ephemeral.toList }

/-- A key agreement mixed in. -/
def agree (c : Crypto) (dh : Key) : Draft :=
  { t with chainingKey := c.kdf1 t.chainingKey dh.toList }

variable {t hs}

theorem Matches.into_eq (h : t.Matches hs) : t.into hs = hs := by
  unfold into
  rw [← h.chainingKey, ← h.hash, ← h.ephemeralPrivate]

theorem Matches.of_into_eq (h : t.into hs = hs) : t.Matches hs where
  chainingKey := (congrArg Handshake.chainingKey h).symm
  hash := (congrArg Handshake.hash h).symm
  ephemeralPrivate := (congrArg Handshake.ephemeralPrivate h).symm

end Draft

/-- The start of an initiation. -/
def initDraft (c : Crypto) (p : Peer cfg) (ephemeralPrivate : Key) : Draft :=
  ⟨c.constructionHash, c.mixHash c.identifierHash p.publicKey.toList, ephemeralPrivate⟩

/-- The start of a response, which goes on from the transcript in the record. -/
def responseDraft (hs : Handshake) (ephemeralPrivate : Key) : Draft :=
  ⟨hs.chainingKey, hs.hash, ephemeralPrivate⟩

/-! ### A record that is safe -/

/-- The record is as it was or not valid, and a handshake that is still valid is finished by
whatever message finished it before. -/
structure RecordSafe (c : Crypto) (d d' : Device cfg) (x : Fin cfg.maxPeers) : Prop where
  record : (d'.peers x).handshake = (d.peers x).handshake ∨ (d'.peers x).handshake.valid = false
  completes : (d'.peers x).handshake.valid = true → ∀ msg p,
    processResponse c d (d.peers x) msg = some p → processResponse c d' (d'.peers x) msg = some p

theorem RecordSafe.refl (c : Crypto) (d : Device cfg) (x : Fin cfg.maxPeers) :
    RecordSafe c d d x where
  record := Or.inl rfl
  completes := fun _ _ _ h => h

variable {c : Crypto} {env : Env cfg} {d : Device cfg} {x : Fin cfg.maxPeers}

/-- The device with a draft in the record. -/
def abandoned (d : Device cfg) (x : Fin cfg.maxPeers) (t : Draft) : Device cfg :=
  d.setPeer x { d.peers x with handshake := t.into (d.peers x).handshake }

theorem abandoned_handshake (t : Draft) :
    ((abandoned d x t).peers x).handshake = t.into (d.peers x).handshake := by
  unfold abandoned
  rw [Device.setPeer_peers_self]

/-- A draft leaves the record valid. -/
theorem abandoned_valid (t : Draft) :
    ((abandoned d x t).peers x).handshake.valid = (d.peers x).handshake.valid := by
  rw [abandoned_handshake]
  rfl

/-- **A draft is safe if no handshake is waiting, or the record holds it already.** -/
theorem recordSafe_abandoned_iff (t : Draft) : RecordSafe c d (abandoned d x t) x ↔
    ((d.peers x).handshake.valid = true → t.Matches (d.peers x).handshake) := by
  constructor
  · intro h hvalid
    rcases h.record with hsame | hinvalid
    · rw [abandoned_handshake] at hsame
      exact .of_into_eq hsame
    · rw [abandoned_valid, hvalid] at hinvalid
      cases hinvalid
  · intro h
    by_cases hvalid : (d.peers x).handshake.valid = true
    · have hsame : abandoned d x t = d := by
        unfold abandoned
        rw [(h hvalid).into_eq]
        exact Device.setPeer_self d x
      rw [hsame]
      exact .refl c d x
    · have hinvalid := (abandoned_valid (d := d) (x := x) t).trans (Bool.not_eq_true _ ▸ hvalid)
      exact ⟨Or.inr hinvalid, fun hc => absurd (hinvalid.symm.trans hc) Bool.false_ne_true⟩

/-! ### The steps that fail -/

section Steps

variable (c env d x)

/-- What the random source leaves for the ephemeral key. -/
def ephemeralLeft : Key := (wgGeneratePrivateKey env x).2

/-- Its public key, unless generating the pair fails. -/
def ephemeralPublic : Option Key :=
  if (wgGeneratePrivateKey env x).1 then c.generatePublicKey (ephemeralLeft env x) else none

/-- What a failing initiation writes is in the record already. -/
structure InitHeld : Prop where
  /-- Random bytes or the public key fail. -/
  noPair : ephemeralPublic c env x = none →
    (initDraft c (d.peers x) (ephemeralLeft env x)).Matches (d.peers x).handshake
  /-- X25519 fails. -/
  noAgreement : ∀ ephemeral, ephemeralPublic c env x = some ephemeral →
    c.dh (ephemeralLeft env x) (d.peers x).publicKey = none →
    ((initDraft c (d.peers x) (ephemeralLeft env x)).mix c ephemeral).Matches (d.peers x).handshake

/-- What a failing response writes is in the record already. -/
structure ResponseHeld : Prop where
  /-- Random bytes or the public key fail. -/
  noPair : ephemeralPublic c env x = none →
    (d.peers x).handshake.ephemeralPrivate = ephemeralLeft env x
  /-- The first X25519 fails. -/
  noEphemeral : ∀ ephemeral, ephemeralPublic c env x = some ephemeral →
    c.dh (ephemeralLeft env x) (d.peers x).handshake.remoteEphemeral = none →
    ((responseDraft (d.peers x).handshake (ephemeralLeft env x)).mix c ephemeral).Matches
      (d.peers x).handshake
  /-- The second X25519 fails. -/
  noStatic : ∀ ephemeral ee, ephemeralPublic c env x = some ephemeral →
    c.dh (ephemeralLeft env x) (d.peers x).handshake.remoteEphemeral = some ee →
    c.dh (ephemeralLeft env x) (d.peers x).publicKey = none →
    (((responseDraft (d.peers x).handshake (ephemeralLeft env x)).mix c ephemeral).agree c
      ee).Matches (d.peers x).handshake

variable {c env d x}

theorem ephemeralPublic_of_ok (h : (wgGeneratePrivateKey env x).1 = true) :
    ephemeralPublic c env x = c.generatePublicKey (wgGeneratePrivateKey env x).2 :=
  if_pos h

theorem ok_of_ephemeralPublic {ephemeral : Key} (h : ephemeralPublic c env x = some ephemeral) :
    (wgGeneratePrivateKey env x).1 = true ∧
      c.generatePublicKey (wgGeneratePrivateKey env x).2 = some ephemeral := by
  by_cases hok : (wgGeneratePrivateKey env x).1 = true
  · exact ⟨hok, (ephemeralPublic_of_ok hok).symm.trans h⟩
  · unfold ephemeralPublic at h
    rw [if_neg hok] at h
    cases h

theorem wgCreateInit_noTimestamp (h : env.tai64n x = none) :
    wgCreateInit c env d x = some (d, none) := by
  unfold wgCreateInit
  rw [h]

theorem wgCreateInit_noPair {t : Bytes 12} (ht : env.tai64n x = some t)
    (h : ephemeralPublic c env x = none) :
    wgCreateInit c env d x =
      some (abandoned d x (initDraft c (d.peers x) (ephemeralLeft env x)), none) := by
  unfold wgCreateInit
  rw [ht]
  dsimp only
  by_cases hok : (wgGeneratePrivateKey env x).1 = true
  · rw [ephemeralPublic_of_ok hok] at h
    rw [if_neg (not_not_intro hok), h]
    rfl
  · rw [if_pos hok]
    rfl

theorem wgCreateInit_noAgreement {t : Bytes 12} {ephemeral : Key} (ht : env.tai64n x = some t)
    (h : ephemeralPublic c env x = some ephemeral)
    (hes : c.dh (ephemeralLeft env x) (d.peers x).publicKey = none) :
    wgCreateInit c env d x = some (abandoned d x
      ((initDraft c (d.peers x) (ephemeralLeft env x)).mix c ephemeral), none) := by
  obtain ⟨hok, hpublic⟩ := ok_of_ephemeralPublic h
  unfold ephemeralLeft at hes
  unfold wgCreateInit
  rw [ht]
  dsimp only
  rw [if_neg (not_not_intro hok), hpublic]
  unfold initiate
  dsimp only
  rw [hes]
  rfl

/-- With a timestamp, a key pair and an agreement an initiation does not fail. -/
theorem wgCreateInit_ne_none {t : Bytes 12} {ephemeral es : Key} (ht : env.tai64n x = some t)
    (h : ephemeralPublic c env x = some ephemeral)
    (hes : c.dh (ephemeralLeft env x) (d.peers x).publicKey = some es) (d' : Device cfg) :
    wgCreateInit c env d x ≠ some (d', none) := by
  obtain ⟨hok, hpublic⟩ := ok_of_ephemeralPublic h
  unfold ephemeralLeft at hes
  unfold wgCreateInit
  rw [ht]
  dsimp only
  rw [if_neg (not_not_intro hok), hpublic]
  unfold initiate
  dsimp only
  rw [hes]
  dsimp only
  intro hc
  cases hdraw : wgUniqueIndex d (env.draws x) with
  | none =>
      rw [hdraw] at hc
      cases hc
  | some sender =>
      rw [hdraw] at hc
      cases hc

theorem wgCreateResponse_notReady
    (h : ¬((d.peers x).handshake.valid ∧ ¬(d.peers x).handshake.initiator)) :
    wgCreateResponse c env d x = some (d, none) :=
  if_pos h

section Ready

variable (hready : (d.peers x).handshake.valid ∧ ¬(d.peers x).handshake.initiator)

include hready

theorem wgCreateResponse_noPair (h : ephemeralPublic c env x = none) :
    wgCreateResponse c env d x = some (abandoned d x
      (responseDraft (d.peers x).handshake (ephemeralLeft env x)), none) := by
  unfold wgCreateResponse
  dsimp only
  rw [if_neg (not_not_intro hready)]
  by_cases hok : (wgGeneratePrivateKey env x).1 = true
  · rw [ephemeralPublic_of_ok hok] at h
    rw [if_neg (not_not_intro hok), h]
    rfl
  · rw [if_pos hok]
    rfl

theorem wgCreateResponse_noEphemeral {ephemeral : Key}
    (h : ephemeralPublic c env x = some ephemeral)
    (hee : c.dh (ephemeralLeft env x) (d.peers x).handshake.remoteEphemeral = none) :
    wgCreateResponse c env d x = some (abandoned d x
      ((responseDraft (d.peers x).handshake (ephemeralLeft env x)).mix c ephemeral), none) := by
  obtain ⟨hok, hpublic⟩ := ok_of_ephemeralPublic h
  unfold ephemeralLeft at hee
  unfold wgCreateResponse
  dsimp only
  rw [if_neg (not_not_intro hready), if_neg (not_not_intro hok), hpublic]
  unfold respond
  dsimp only
  rw [hee]
  rfl

theorem wgCreateResponse_noStatic {ephemeral ee : Key}
    (h : ephemeralPublic c env x = some ephemeral)
    (hee : c.dh (ephemeralLeft env x) (d.peers x).handshake.remoteEphemeral = some ee)
    (hse : c.dh (ephemeralLeft env x) (d.peers x).publicKey = none) :
    wgCreateResponse c env d x = some (abandoned d x
      (((responseDraft (d.peers x).handshake (ephemeralLeft env x)).mix c ephemeral).agree c ee),
        none) := by
  obtain ⟨hok, hpublic⟩ := ok_of_ephemeralPublic h
  unfold ephemeralLeft at hee hse
  unfold wgCreateResponse
  dsimp only
  rw [if_neg (not_not_intro hready), if_neg (not_not_intro hok), hpublic]
  unfold respond
  dsimp only
  rw [hee]
  dsimp only
  rw [hse]
  rfl

/-- With a key pair and both agreements a response does not fail. -/
theorem wgCreateResponse_ne_none {ephemeral ee se : Key}
    (h : ephemeralPublic c env x = some ephemeral)
    (hee : c.dh (ephemeralLeft env x) (d.peers x).handshake.remoteEphemeral = some ee)
    (hse : c.dh (ephemeralLeft env x) (d.peers x).publicKey = some se) (d' : Device cfg) :
    wgCreateResponse c env d x ≠ some (d', none) := by
  obtain ⟨hok, hpublic⟩ := ok_of_ephemeralPublic h
  unfold ephemeralLeft at hee hse
  unfold wgCreateResponse
  dsimp only
  rw [if_neg (not_not_intro hready), if_neg (not_not_intro hok), hpublic]
  unfold respond
  dsimp only
  rw [hee]
  dsimp only
  rw [hse]
  dsimp only
  intro hc
  cases hdraw : wgUniqueIndex d (env.draws x) with
  | none =>
      rw [hdraw] at hc
      cases hc
  | some sender =>
      rw [hdraw] at hc
      cases hc

end Ready

end Steps

/-! ### Failed calls -/

/-- A failure that leaves one device is safe if that device is. -/
theorem forall_failed_iff {Msg : Type} {r : Option (Device cfg × Option Msg)} {e : Device cfg}
    {p : Device cfg → Prop} (h : r = some (e, none)) : (∀ d', r = some (d', none) → p d') ↔ p e := by
  constructor
  · exact fun hall => hall e h
  · intro hp d' hd'
    rw [h] at hd'
    cases hd'
    exact hp

variable (c env d x)

theorem wgCreateInit_safe_iff :
    (∀ d', wgCreateInit c env d x = some (d', none) → RecordSafe c d d' x) ↔
      ((d.peers x).handshake.valid = true → (env.tai64n x).isSome → InitHeld c env d x) := by
  cases ht : env.tai64n x with
  | none =>
      rw [forall_failed_iff (wgCreateInit_noTimestamp ht)]
      exact iff_of_true (.refl c d x) fun _ hc => by simp at hc
  | some t =>
      cases hpublic : ephemeralPublic c env x with
      | none =>
          rw [forall_failed_iff (wgCreateInit_noPair ht hpublic), recordSafe_abandoned_iff]
          constructor
          · intro h hvalid _
            exact ⟨fun _ => h hvalid, by simp [hpublic]⟩
          · intro h hvalid
            exact (h hvalid rfl).noPair hpublic
      | some ephemeral =>
          cases hes : c.dh (ephemeralLeft env x) (d.peers x).publicKey with
          | none =>
              rw [forall_failed_iff (wgCreateInit_noAgreement ht hpublic hes),
                recordSafe_abandoned_iff]
              constructor
              · intro h hvalid _
                exact ⟨by simp [hpublic], by simpa [hpublic, hes] using h hvalid⟩
              · intro h hvalid
                exact (h hvalid rfl).noAgreement ephemeral hpublic hes
          | some es =>
              refine iff_of_true (fun d' h => ?_) fun _ _ => ⟨by simp [hpublic], by simp [hes]⟩
              exact absurd h (wgCreateInit_ne_none ht hpublic hes d')

theorem wgCreateResponse_safe_iff :
    (∀ d', wgCreateResponse c env d x = some (d', none) → RecordSafe c d d' x) ↔
      ((d.peers x).handshake.valid ∧ ¬(d.peers x).handshake.initiator →
        ResponseHeld c env d x) := by
  by_cases hready : (d.peers x).handshake.valid ∧ ¬(d.peers x).handshake.initiator
  swap
  · rw [forall_failed_iff (wgCreateResponse_notReady hready)]
    exact iff_of_true (.refl c d x) fun hc => absurd hc hready
  rw [forall_prop_of_true hready]
  cases hpublic : ephemeralPublic c env x with
  | none =>
      rw [forall_failed_iff (wgCreateResponse_noPair hready hpublic), recordSafe_abandoned_iff,
        forall_prop_of_true hready.1]
      constructor
      · intro h
        exact ⟨fun _ => h.ephemeralPrivate, by simp [hpublic], by simp [hpublic]⟩
      · intro h
        exact ⟨rfl, rfl, h.noPair hpublic⟩
  | some ephemeral =>
      cases hee : c.dh (ephemeralLeft env x) (d.peers x).handshake.remoteEphemeral with
      | none =>
          rw [forall_failed_iff (wgCreateResponse_noEphemeral hready hpublic hee),
            recordSafe_abandoned_iff, forall_prop_of_true hready.1]
          constructor
          · intro h
            exact ⟨by simp [hpublic], by simpa [hpublic, hee] using h, by simp [hee]⟩
          · intro h
            exact h.noEphemeral ephemeral hpublic hee
      | some ee =>
          cases hse : c.dh (ephemeralLeft env x) (d.peers x).publicKey with
          | none =>
              rw [forall_failed_iff (wgCreateResponse_noStatic hready hpublic hee hse),
                recordSafe_abandoned_iff, forall_prop_of_true hready.1]
              constructor
              · intro h
                exact ⟨by simp [hpublic], by simp [hee], by simpa [hpublic, hee, hse] using h⟩
              · intro h
                exact h.noStatic ephemeral ee hpublic hee hse
          | some se =>
              refine iff_of_true (fun d' h => ?_)
                ⟨by simp [hpublic], by simp [hee], by simp [hse]⟩
              exact absurd h (wgCreateResponse_ne_none hready hpublic hee hse d')

/-- **A failed call is safe exactly if no handshake is waiting, nothing was written, or the
record held it already.** -/
theorem recordSafe_iff :
    ((∀ d', wgCreateInit c env d x = some (d', none) → RecordSafe c d d' x) ↔
      ((d.peers x).handshake.valid = true → (env.tai64n x).isSome → InitHeld c env d x)) ∧
    ((∀ d', wgCreateResponse c env d x = some (d', none) → RecordSafe c d d' x) ↔
      ((d.peers x).handshake.valid ∧ ¬(d.peers x).handshake.initiator →
        ResponseHeld c env d x)) :=
  ⟨wgCreateInit_safe_iff c env d x, wgCreateResponse_safe_iff c env d x⟩

/-- The random source stops halfway. -/
def Sample.shortRandom (time : Nat) : Env NuttxWireguard.Sample.config :=
  { Sample.env time with ephemeral := fun _ => (false, NuttxWireguard.Sample.key 24 0) }

/-- An initiation is out and waiting for its answer; the next one fails, and takes its place in
the record. -/
theorem not_recordSafe :
    ¬∀ (cfg : Config) (c : Crypto) (env : Env cfg) (n : Netdev cfg) (x : Fin cfg.maxPeers),
      ReachableState c n →
      (∀ d', wgCreateInit c env n.wg x = some (d', none) → RecordSafe c n.wg d' x) ∧
        ∀ d', wgCreateResponse c env n.wg x = some (d', none) → RecordSafe c n.wg d' x := by
  intro hall
  obtain ⟨n, hreach, hwaiting⟩ := Sample.exists_reachable
    [Sample.setKey 1000, Sample.setFirst (some (NuttxWireguard.Sample.address 9 9 9 9, 1234)),
      .ifup (Sample.env 1000), .timers (Sample.env 1500)]
    (fun n => (n.peer NuttxWireguard.Sample.first).handshake.valid &&
      decide ((n.peer NuttxWireguard.Sample.first).handshake.ephemeralPrivate ≠
        NuttxWireguard.Sample.key 24 0))
    (by decide +kernel)
  obtain ⟨hvalid, hother⟩ := (Bool.and_eq_true _ _).mp hwaiting
  have hheld := (wgCreateInit_safe_iff _ _ _ _).mp (hall _ Crypto.plain (Sample.shortRandom 6600) n
    NuttxWireguard.Sample.first hreach).1 hvalid rfl
  exact of_decide_eq_true hother (hheld.noPair rfl).ephemeralPrivate

end NuttxWireguard.Kernel
