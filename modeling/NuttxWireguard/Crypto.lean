/-
The primitives under the protocol, and what the protocol core builds on them.

The four primitives (BLAKE2s, X25519, ChaCha20-Poly1305 and its XChaCha20 variant)
are parameters.  What they promise as a type is in the structure: an encryption is
sixteen bytes longer than its plaintext and a successful decryption sixteen bytes
shorter than its input.  That decryption inverts encryption is `AeadCorrect`, a
hypothesis of the results that need it.

Both drivers build the same hash, MAC and key derivation functions on them, over
the same constants, so these are defined once.
-/
import NuttxWireguard.Lib.Bytes

namespace NuttxWireguard

open Lib

abbrev U16 := BitVec 16
abbrev U32 := BitVec 32
abbrev U64 := BitVec 64

/-- A Curve25519 key, a session key or a hash: 32 bytes. -/
abbrev Key := Bytes 32

/- Words of a block are indexed by literals; these are the instances the literals go by. -/

instance neZeroEight : NeZero 8 := ⟨Nat.succ_ne_zero 7⟩

instance neZeroSixteen : NeZero 16 := ⟨Nat.succ_ne_zero 15⟩

/-- Length of the Poly1305 tag. -/
def authtagLen : Nat := 16

/-- The cryptographic primitives. -/
structure Crypto where
  blake2s : (outlen : Nat) → (key input : List Byte) → Bytes outlen
  x25519 : (scalar point : Key) → Key
  aeadEncrypt : (src ad : List Byte) → (nonce : U64) → (key : Key) → List Byte
  aeadDecrypt : (src ad : List Byte) → (nonce : U64) → (key : Key) → Option (List Byte)
  xaeadEncrypt : (src ad : List Byte) → (nonce : Bytes 24) → (key : Key) → List Byte
  xaeadDecrypt : (src ad : List Byte) → (nonce : Bytes 24) → (key : Key) → Option (List Byte)
  aeadEncrypt_length : ∀ src ad nonce key,
    (aeadEncrypt src ad nonce key).length = src.length + authtagLen
  aeadDecrypt_length : ∀ src ad nonce key p,
    aeadDecrypt src ad nonce key = some p → p.length + authtagLen = src.length
  xaeadEncrypt_length : ∀ src ad nonce key,
    (xaeadEncrypt src ad nonce key).length = src.length + authtagLen
  xaeadDecrypt_length : ∀ src ad nonce key p,
    xaeadDecrypt src ad nonce key = some p → p.length + authtagLen = src.length

namespace Crypto

variable (c : Crypto)

/-- The AEAD decrypts what it encrypted. -/
def AeadCorrect : Prop :=
  ∀ src ad nonce key, c.aeadDecrypt (c.aeadEncrypt src ad nonce key) ad nonce key = some src

/-! ### Fields of fixed size -/

/-- Encrypt an `n`-byte field. -/
def encryptField {n : Nat} (src : Bytes n) (ad : Key) (key : Key) : Bytes (n + 16) :=
  ⟨c.aeadEncrypt src.toList ad.toList 0 key, by
    rw [c.aeadEncrypt_length, src.toList_length]; rfl⟩

/-- Decrypt an `n`-byte field. -/
def decryptField {n : Nat} (src : Bytes (n + 16)) (ad : Key) (key : Key) : Option (Bytes n) :=
  match h : c.aeadDecrypt src.toList ad.toList 0 key with
  | none => none
  | some p => some ⟨p, by
      have := c.aeadDecrypt_length _ _ _ _ _ h
      rw [src.toList_length] at this
      exact Nat.add_right_cancel this⟩

theorem decryptField_encryptField (h : c.AeadCorrect) {n : Nat} (src : Bytes n) (ad key : Key) :
    c.decryptField (c.encryptField src ad key) ad key = some src := by
  have hd : c.aeadDecrypt (c.encryptField src ad key).toList ad.toList 0 key = some src.toList :=
    h src.toList ad.toList 0 key
  unfold decryptField
  split
  · rename_i hn
    rw [hd] at hn
    cases hn
  · rename_i p hp
    rw [hd] at hp
    exact congrArg some (List.Vector.eq _ _ (Option.some.inj hp).symm)

/-! ### Hash, MAC and key derivation -/

/-- `wg_hash`: unkeyed BLAKE2s-256. -/
def hash (input : List Byte) : Key := c.blake2s 32 [] input

/-- `wireguard_mix_hash`, `wg_mix_hash`: hash := Hash(hash || src). -/
def mixHash (hash : Key) (src : List Byte) : Key := c.hash (hash.toList ++ src)

/-- `wireguard_mac`, `wg_mac`: keyed BLAKE2s, 16 bytes of output. -/
def mac (message key : List Byte) : Bytes 16 := c.blake2s 16 key message

/-- `WIREGUARD_BLAKE2S_BLOCK_SIZE`. -/
def blake2sBlock : Nat := 64

/-- `wireguard_hmac`, `wg_hmac`: HMAC-BLAKE2s with 64-byte blocks. -/
def hmac (key text : List Byte) : Key :=
  -- a key longer than a block is hashed first
  let key := if key.length > blake2sBlock then (c.hash key).toList else key
  let padded := key ++ List.replicate (blake2sBlock - key.length) 0
  let kIpad := padded.map (· ^^^ 0x36)
  let kOpad := padded.map (· ^^^ 0x5c)
  let digest := c.hash (kIpad ++ text)
  c.hash (kOpad ++ digest.toList)

/-- `wireguard_kdf1`, `wg_kdf1`. -/
def kdf1 (chainingKey : Key) (data : List Byte) : Key :=
  let tau0 := c.hmac chainingKey.toList data
  c.hmac tau0.toList [1]

/-- `wireguard_kdf2`, `wg_kdf2`: `tau1` and `tau2`. -/
def kdf2 (chainingKey : Key) (data : List Byte) : Key × Key :=
  let tau0 := c.hmac chainingKey.toList data
  let tau1 := c.hmac tau0.toList [1]
  let tau2 := c.hmac tau0.toList (tau1.toList ++ [2])
  (tau1, tau2)

/-- `wireguard_kdf3`, `wg_kdf3`: `tau1`, `tau2` and `tau3`. -/
def kdf3 (chainingKey : Key) (data : List Byte) : Key × Key × Key :=
  let tau0 := c.hmac chainingKey.toList data
  let tau1 := c.hmac tau0.toList [1]
  let tau2 := c.hmac tau0.toList (tau1.toList ++ [2])
  let tau3 := c.hmac tau0.toList (tau2.toList ++ [3])
  (tau1, tau2, tau3)

/-- The bytes of an ASCII constant. -/
def ascii (s : List Char) : List Byte := s.map fun ch => BitVec.ofNat 8 ch.toNat

/-- `CONSTRUCTION`. -/
def construction : List Byte :=
  ascii ['N', 'o', 'i', 's', 'e', '_', 'I', 'K', 'p', 's', 'k', '2', '_', '2', '5', '5', '1', '9',
    '_', 'C', 'h', 'a', 'C', 'h', 'a', 'P', 'o', 'l', 'y', '_', 'B', 'L', 'A', 'K', 'E', '2', 's']

/-- `IDENTIFIER`. -/
def identifier : List Byte :=
  ascii ['W', 'i', 'r', 'e', 'G', 'u', 'a', 'r', 'd', ' ', 'v', '1', ' ', 'z', 'x', '2', 'c', '4',
    ' ', 'J', 'a', 's', 'o', 'n', '@', 'z', 'x', '2', 'c', '4', '.', 'c', 'o', 'm']

/-- `LABEL_MAC1`. -/
def labelMac1 : List Byte := ascii ['m', 'a', 'c', '1', '-', '-', '-', '-']

/-- `LABEL_COOKIE`. -/
def labelCookie : List Byte := ascii ['c', 'o', 'o', 'k', 'i', 'e', '-', '-']

/-- `construction_hash`, computed by `wireguard_init` and `wg_noise_init`. -/
def constructionHash : Key := c.hash construction

/-- `identifier_hash`, likewise. -/
def identifierHash : Key := c.mixHash c.constructionHash identifier

/-- `wireguard_mac_key`, `wg_mac_key`: Hash(Label || public key). -/
def macKey (publicKey : Key) (label : List Byte) : Key := c.hash (label ++ publicKey.toList)

/-! ### Diffie-Hellman -/

/-- X25519, failing on the all-zero result of a low-order point. -/
def dh (scalar point : Key) : Option Key :=
  let out := c.x25519 scalar point
  if out = Bytes.zero 32 then none else some out

/-- The Curve25519 base point. -/
def basepoint : Key := ⟨9 :: List.replicate 31 0, rfl⟩

/-- `wireguard_clamp_private_key`, `wg_x25519_clamp`. -/
def clamp (key : Key) : Key :=
  List.Vector.ofFn fun i =>
    if i = 0 then key.get i &&& 248
    else if i = 31 then (key.get i &&& 127) ||| 64
    else key.get i

/-- `wireguard_generate_public_key`, `wg_generate_public_key`. -/
def generatePublicKey (privateKey : Key) : Option Key :=
  if privateKey = Bytes.zero 32 then none else c.dh privateKey basepoint

/-! ### An instance -/

/-- Primitives that hide nothing: the cipher is the identity with the head of the key for a
tag, X25519 adds scalar and point bitwise, and every hash is zero.  They keep all the laws
assumed anywhere, and concrete runs can be evaluated over them. -/
def plain : Crypto where
  blake2s outlen _ _ := Bytes.zero outlen
  x25519 scalar point := ⟨List.zipWith (· ^^^ ·) scalar.toList point.toList, by simp⟩
  aeadEncrypt src _ _ key := src ++ key.toList.take authtagLen
  aeadDecrypt src _ _ key :=
    if authtagLen ≤ src.length ∧ src.drop (src.length - authtagLen) = key.toList.take authtagLen
    then some (src.take (src.length - authtagLen)) else none
  xaeadEncrypt src _ _ key := src ++ key.toList.take authtagLen
  xaeadDecrypt src _ _ key :=
    if authtagLen ≤ src.length ∧ src.drop (src.length - authtagLen) = key.toList.take authtagLen
    then some (src.take (src.length - authtagLen)) else none
  aeadEncrypt_length src _ _ key := by simp [authtagLen]
  aeadDecrypt_length src _ _ key p h := by
    split at h
    · rename_i hlen
      cases h
      rw [List.length_take]
      omega
    · cases h
  xaeadEncrypt_length src _ _ key := by simp [authtagLen]
  xaeadDecrypt_length src _ _ key p h := by
    split at h
    · rename_i hlen
      cases h
      rw [List.length_take]
      omega
    · cases h

theorem plain_aeadCorrect : plain.AeadCorrect := by
  intro src ad nonce key
  have hlen : (key.toList.take authtagLen).length = authtagLen := by simp [authtagLen]
  have hsrc : plain.aeadEncrypt src ad nonce key = src ++ key.toList.take authtagLen := rfl
  rw [hsrc]
  show (if _ then _ else _) = _
  rw [List.length_append, hlen, Nat.add_sub_cancel, List.drop_left, List.take_left,
    if_pos ⟨Nat.le_add_left _ _, rfl⟩]

end Crypto

end NuttxWireguard
