/-
Both ends compute one transcript.

Initiator and responder each mix the same values into a hash and a chaining key, in the
same order, from their own side of every key agreement.  So what the initiator seals the
responder opens with the same hash and chaining key in hand, and the other way round for
the response.

What is assumed of X25519 is assumed of the keys that meet: that it commutes for them, and
that the result is not zero.
-/
import NuttxWireguard.Lookup

namespace NuttxWireguard

open Lib

variable {cfg : Config} {c : Crypto}

/-! ### Key agreement -/

/-- The public key of a private key. -/
def Crypto.publicKey (c : Crypto) (k : Key) : Key := c.x25519 k Crypto.basepoint

/-- The two private keys agree on a secret: X25519 commutes for them and is not zero. -/
structure KeysAgree (c : Crypto) (a b : Key) : Prop where
  comm : c.x25519 a (c.publicKey b) = c.x25519 b (c.publicKey a)
  nonzero : c.x25519 a (c.publicKey b) ≠ Bytes.zero 32

theorem KeysAgree.dh {a b : Key} (h : KeysAgree c a b) :
    c.dh a (c.publicKey b) = some (c.x25519 a (c.publicKey b)) :=
  if_neg h.nonzero

theorem KeysAgree.symm {a b : Key} (h : KeysAgree c a b) : KeysAgree c b a :=
  ⟨h.comm.symm, h.comm ▸ h.nonzero⟩

theorem KeysAgree.dh_symm {a b : Key} (h : KeysAgree c a b) :
    c.dh b (c.publicKey a) = some (c.x25519 a (c.publicKey b)) := by
  rw [h.symm.dh, h.comm]

/-- Clamping sets a bit. -/
theorem clamp_ne_zero (k : Key) : Crypto.clamp k ≠ Bytes.zero 32 := by
  intro h
  have hzero : (Bytes.zero 32).get 31 = 0 := rfl
  have hbyte : (k.get 31 &&& 127) ||| 64 = 0 := by
    rw [← hzero, ← h, Crypto.clamp, List.Vector.get_ofFn]
    rfl
  have hbit := congrArg (BitVec.getLsbD · 6) hbyte
  simp at hbit

theorem generatePublicKey_eq {k : Key} (hk : k ≠ Bytes.zero 32)
    (hpublic : c.publicKey k ≠ Bytes.zero 32) :
    c.generatePublicKey k = some (c.publicKey k) := by
  unfold Crypto.generatePublicKey
  rw [if_neg hk]
  exact if_neg hpublic

/-- Device `d` has the device with public key `other` as its peer `x`. -/
structure ConfiguredFor (c : Crypto) (d : Device cfg) (x : Fin cfg.maxPeers) (other : Key) :
    Prop where
  own : d.publicKey = c.publicKey d.privateKey
  peer : peerByPubkey d other = some x
  /-- The precomputed agreement of the two static keys. -/
  dh : (d.peers x).publicKeyDh = c.x25519 d.privateKey other

section Configured

variable {d : Device cfg} {x : Fin cfg.maxPeers} {other : Key}

theorem ConfiguredFor.valid (h : ConfiguredFor c d x other) : (d.peers x).valid = true :=
  valid_of_peerByPubkey h.peer

theorem ConfiguredFor.key (h : ConfiguredFor c d x other) : (d.peers x).publicKey = other :=
  key_of_peerByPubkey h.peer

end Configured

/-! ### The initiation -/

/-- The sealed fields of an initiation, and where they leave the transcript. -/
structure SealedInit where
  encStatic : Bytes 48
  encTimestamp : Bytes 28
  hash : Key
  chainingKey : Key

/-- The initiation to `responder` under `ephemeral`, from the public key `static`; `es` and
`ss` are the agreements of the responder's static key with the two. -/
def sealedInit (c : Crypto) (responder ephemeral static es ss : Key) (t : Bytes 12) :
    SealedInit :=
  let hash := c.mixHash (c.mixHash c.identifierHash responder.toList) ephemeral.toList
  let k := c.kdf2 (c.kdf1 c.constructionHash ephemeral.toList) es.toList
  let encStatic := c.encryptField static hash k.2
  let hash := c.mixHash hash encStatic.toList
  let k := c.kdf2 k.1 ss.toList
  let encTimestamp := c.encryptField t hash k.2
  ⟨encStatic, encTimestamp, c.mixHash hash encTimestamp.toList, k.1⟩

theorem initiate_eq {d : Device cfg} {p : Peer cfg} {hs : Handshake} {es ss : Key}
    (hck : hs.chainingKey = c.constructionHash)
    (hhash : hs.hash = c.mixHash c.identifierHash p.publicKey.toList)
    (hes : c.dh hs.ephemeralPrivate p.publicKey = some es) (hss : p.publicKeyDh = ss)
    (ephemeral : Key) (t : Bytes 12) :
    let m := sealedInit c p.publicKey ephemeral d.publicKey es ss t
    initiate c d p hs ephemeral t
      = ({ hs with chainingKey := m.chainingKey, hash := m.hash },
          some (m.encStatic, m.encTimestamp)) := by
  unfold initiate
  dsimp only
  rw [hes, hck, hhash, hss]
  rfl

/-- **What was sealed so comes open**, with the hash and the chaining key it was sealed
with. -/
theorem openInit_eq (haead : c.AeadCorrect) {d : Device cfg} {y : Fin cfg.maxPeers}
    {ephemeral static es ss : Key} (hes : c.dh d.privateKey ephemeral = some es)
    (hpeer : peerByPubkey d static = some y) (hss : (d.peers y).publicKeyDh = ss) (t : Bytes 12)
    (sender : U32) (mac1 mac2 : Bytes 16) :
    let m := sealedInit c d.publicKey ephemeral static es ss t
    openInit c d ⟨sender, ephemeral, m.encStatic, m.encTimestamp, mac1, mac2⟩
      = some ⟨y, t, m.hash, m.chainingKey⟩ := by
  unfold openInit sealedInit
  simp only [hes, Option.bind_eq_bind, Option.bind_some, c.decryptField_encryptField haead, hpeer, hss]

/-! ### The response -/

/-- The sealed field of a response, and where it leaves the transcript. -/
structure SealedResponse where
  encEmpty : Bytes 16
  /-- What the field is sealed with. -/
  hash : Key
  chainingKey : Key

/-- The response under `ephemeral` to a transcript at `hash` and `chainingKey`; `ee` and `se`
are the agreements of the initiator's two keys with `ephemeral`. -/
def sealedResponse (c : Crypto) (hash chainingKey ephemeral ee se psk : Key) : SealedResponse :=
  let chainingKey := c.kdf1 (c.kdf1 (c.kdf1 chainingKey ephemeral.toList) ee.toList) se.toList
  let k := c.kdf3 chainingKey psk.toList
  let hash := c.mixHash (c.mixHash hash ephemeral.toList) k.2.1.toList
  ⟨c.encryptField (n := 0) List.Vector.nil hash k.2.2, hash, k.1⟩

theorem respond_eq {p : Peer cfg} {hs : Handshake} {ee se : Key}
    (hee : c.dh hs.ephemeralPrivate hs.remoteEphemeral = some ee)
    (hse : c.dh hs.ephemeralPrivate p.publicKey = some se) (ephemeral : Key) :
    let m := sealedResponse c hs.hash hs.chainingKey ephemeral ee se p.presharedKey
    respond c p hs ephemeral
      = ({ hs with chainingKey := m.chainingKey, hash := c.mixHash m.hash m.encEmpty.toList },
          some m.encEmpty) := by
  unfold respond
  dsimp only
  rw [hee]
  dsimp only
  rw [hse]
  rfl

/-- **What was sealed so comes open**, with the chaining key it was sealed with. -/
theorem processResponse_eq (haead : c.AeadCorrect) {d : Device cfg} {p : Peer cfg}
    {ephemeral ee se psk : Key} (hvalid : p.handshake.valid = true)
    (hinitiator : p.handshake.initiator = true) (hpsk : p.presharedKey = psk)
    (hee : c.dh p.handshake.ephemeralPrivate ephemeral = some ee)
    (hse : c.dh d.privateKey ephemeral = some se) (sender receiver : U32) (mac1 mac2 : Bytes 16) :
    let m := sealedResponse c p.handshake.hash p.handshake.chainingKey ephemeral ee se psk
    processResponse c d p ⟨sender, receiver, ephemeral, m.encEmpty, mac1, mac2⟩
      = some { p with handshake := { p.handshake with
          remoteEphemeral := ephemeral
          hash := m.hash
          chainingKey := m.chainingKey
          remoteIndex := sender } } := by
  unfold processResponse sealedResponse
  simp only [hvalid, hinitiator, hee, hse, hpsk, and_self, not_true_eq_false, if_false,
    Option.bind_eq_bind, Option.bind_some, c.decryptField_encryptField haead]

end NuttxWireguard
