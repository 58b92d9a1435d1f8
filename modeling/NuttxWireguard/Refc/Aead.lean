/-
AEAD_CHACHA20_POLY1305 and its variant with the long nonce (`crypto/refc/chacha20poly1305.c`).

Encryption adds the keystream from its second block on and appends a tag of the additional data
and the ciphertext, under a key that is the start of the first block.  Decryption compares the
tag before it decrypts.

Lengths are `size_t`, but the padding is computed with a mask of 32 bits, `chacha20` takes a
`uint32_t` and decryption keeps the length in an `int`.  So what is proved about the tag is
proved for lengths below `2^32 - 15`, where the mask loses nothing, and what is proved about
both directions for lengths an `int` holds (`Sized`).
-/
import NuttxWireguard.Refc.ChaCha20
import NuttxWireguard.Refc.Poly1305

namespace NuttxWireguard

namespace Refc

open Lib Lib.Limbs

/-- `crypto_equal`: the differences of all bytes are collected. -/
def cryptoEqual (a b : List Byte) (size : Nat) : Bool :=
  (List.range size).foldl (fun neq i => neq ||| (a.getD i 0 ^^^ b.getD i 0)) (0 : Byte) = 0

section

variable (w : Nat) (buffer : Bytes 16)

/-- `generate_poly1305_key`: the two states.  The cipher's counter is past the first block. -/
def generatePoly1305Key (key : Key) (nonce : U64) : Poly1305 w × ChaChaState :=
  let state := chacha20Init key nonce
  let (block, state) := chacha20 state (List.replicate 32 0)
  (poly1305Init w buffer (slice block 0 32), state)

/-- `padded_len`. -/
def paddedLen (len : Nat) : Nat := (len + 15) &&& 0xFFFFFFF0

variable {w}

/-- `poly1305_update` with what rounds `len` up. -/
def updatePadding (st : Poly1305 w) (len : Nat) : Poly1305 w :=
  poly1305Update st (List.replicate (paddedLen len - len) 0)

/-- The calls of `poly1305_update` and `poly1305_finish`, the same in both directions. -/
def authenticate (st : Poly1305 w) (ad ciphertext : List Byte) : Bytes 16 :=
  let st := poly1305Update st ad
  let st := updatePadding st ad.length
  let st := poly1305Update st ciphertext
  let st := updatePadding st ciphertext.length
  let st := poly1305Update st (writeLe 8 (BitVec.ofNat 64 ad.length)).toList
  let st := poly1305Update st (writeLe 8 (BitVec.ofNat 64 ciphertext.length)).toList
  poly1305Finish st

variable (w)

/-- `chacha20poly1305_encrypt`. -/
def chacha20poly1305Encrypt (src ad : List Byte) (nonce : U64) (key : Key) : List Byte :=
  let (poly1305State, chacha20State) := generatePoly1305Key w buffer key nonce
  let dst := (chacha20 chacha20State src).1
  dst ++ (authenticate poly1305State ad dst).toList

/-- `chacha20poly1305_decrypt`. -/
def chacha20poly1305Decrypt (src ad : List Byte) (nonce : U64) (key : Key) :
    Option (List Byte) :=
  if src.length ≥ authtagLen then
    let dstLen := src.length - authtagLen
    let (poly1305State, chacha20State) := generatePoly1305Key w buffer key nonce
    let mac := authenticate poly1305State ad (src.take dstLen)
    if cryptoEqual mac.toList (src.drop dstLen) authtagLen then
      some (chacha20 chacha20State (src.take dstLen)).1
    else none
  else none

/-- `new_nonce`. -/
def newNonce (nonce : Bytes 24) : U64 := readLe 64 (slice nonce.toList 16 8).toList

/-- `subkey`. -/
def subkey (nonce : Bytes 24) (key : Key) : Key := hchacha20 (slice nonce.toList 0 16) key

/-- `xchacha20poly1305_encrypt`. -/
def xchacha20poly1305Encrypt (src ad : List Byte) (nonce : Bytes 24) (key : Key) : List Byte :=
  chacha20poly1305Encrypt w buffer src ad (newNonce nonce) (subkey nonce key)

/-- `xchacha20poly1305_decrypt`. -/
def xchacha20poly1305Decrypt (src ad : List Byte) (nonce : Bytes 24) (key : Key) :
    Option (List Byte) :=
  chacha20poly1305Decrypt w buffer src ad (newNonce nonce) (subkey nonce key)

end

/-! ### Comparing -/

theorem or_eq_zero {x y : Byte} : x ||| y = 0 ↔ x = 0 ∧ y = 0 := by
  constructor
  · intro h
    have hbits : ∀ i, x.getLsbD i = false ∧ y.getLsbD i = false := by
      intro i
      have hbit := congrArg (BitVec.getLsbD · i) h
      simpa using hbit
    exact ⟨BitVec.eq_of_getLsbD_eq fun i _ => by simp [(hbits i).1],
      BitVec.eq_of_getLsbD_eq fun i _ => by simp [(hbits i).2]⟩
  · rintro ⟨rfl, rfl⟩
    rfl

/-- The collected differences vanish where every one does. -/
theorem foldl_or_eq_zero (f : Nat → Byte) (is : List Nat) (neq : Byte) :
    is.foldl (fun neq i => neq ||| f i) neq = 0 ↔ neq = 0 ∧ ∀ i ∈ is, f i = 0 := by
  induction is generalizing neq with
  | nil => simp
  | cons i is ih =>
      rw [List.foldl_cons, ih, or_eq_zero]
      simp [and_assoc]

/-- **`crypto_equal` compares all bytes.** -/
theorem cryptoEqual_iff {a b : List Byte} {size : Nat} (ha : a.length = size)
    (hb : b.length = size) : cryptoEqual a b size = true ↔ a = b := by
  unfold cryptoEqual
  rw [decide_eq_true_iff, foldl_or_eq_zero]
  constructor
  · rintro ⟨-, h⟩
    refine List.ext_getElem (ha.trans hb.symm) fun i hi hj => ?_
    have hdiff := h i (List.mem_range.mpr (ha ▸ hi))
    rw [List.getD_eq_getElem _ _ hi, List.getD_eq_getElem _ _ hj] at hdiff
    exact BitVec.xor_eq_zero_iff.mp hdiff
  · rintro rfl
    exact ⟨rfl, fun i _ => BitVec.xor_self⟩

section

variable (w : Nat) (buffer : Bytes 16)

theorem length_encrypt (src ad : List Byte) (nonce : U64) (key : Key) :
    (chacha20poly1305Encrypt w buffer src ad nonce key).length = src.length + authtagLen := by
  unfold chacha20poly1305Encrypt
  dsimp only
  rw [List.length_append, length_chacha20, List.Vector.toList_length]
  rfl

theorem decrypt_some_iff (src ad p : List Byte) (nonce : U64) (key : Key) :
    chacha20poly1305Decrypt w buffer src ad nonce key = some p
      ↔ src = chacha20poly1305Encrypt w buffer p ad nonce key := by
  unfold chacha20poly1305Decrypt chacha20poly1305Encrypt
  dsimp only
  generalize generatePoly1305Key w buffer key nonce = states
  obtain ⟨poly, chacha⟩ := states
  dsimp only
  constructor
  · intro h
    split at h
    · rename_i hlen
      split at h
      · rename_i hmac
        have htag : (authenticate poly ad (src.take (src.length - authtagLen))).toList.length
            = authtagLen := List.Vector.toList_length _
        have hrest : (src.drop (src.length - authtagLen)).length = authtagLen := by
          rw [List.length_drop]
          omega
        rw [cryptoEqual_iff htag hrest] at hmac
        obtain rfl := Option.some.inj h
        rw [chacha20_chacha20, hmac, List.take_append_drop]
      · cases h
    · cases h
  · rintro rfl
    have htag : (authenticate poly ad (chacha20 chacha p).1).toList.length = authtagLen :=
      List.Vector.toList_length _
    have hsub : ((chacha20 chacha p).1
        ++ (authenticate poly ad (chacha20 chacha p).1).toList).length - authtagLen
        = (chacha20 chacha p).1.length := by
      rw [List.length_append, htag, Nat.add_sub_cancel]
    have hlen : ((chacha20 chacha p).1
        ++ (authenticate poly ad (chacha20 chacha p).1).toList).length ≥ authtagLen := by
      rw [List.length_append, htag]
      exact Nat.le_add_left _ _
    rw [if_pos hlen, hsub, List.take_left, List.drop_left,
      if_pos ((cryptoEqual_iff htag htag).mpr rfl), chacha20_chacha20]

/-- A string whose length an `int` holds, so that no conversion of it changes the length. -/
abbrev Sized := { l : List Byte // l.length < 2 ^ 31 }

/-- **Decryption accepts what encryption of its result gives, and nothing else.** -/
theorem decrypt_eq_some_iff (src ad p : Sized) (nonce : U64) (key : Key) :
    chacha20poly1305Decrypt w buffer src ad nonce key = some p.val
      ↔ src.val = chacha20poly1305Encrypt w buffer p ad nonce key :=
  decrypt_some_iff w buffer src ad p nonce key

/-! ### The tag -/

theorem paddedLen_eq {len : Nat} (h : len < 2 ^ 32 - 15) :
    paddedLen len = (len + 15) / 16 * 16 := by
  have hlow : paddedLen len % 2 ^ 4 = 0 := by
    unfold paddedLen
    rw [Nat.and_mod_two_pow]
    exact Nat.and_zero _
  have hhigh : paddedLen len / 2 ^ 4 = (len + 15) / 2 ^ 4 := by
    have hmask : 0xFFFFFFF0 / 2 ^ 4 = 2 ^ 28 - 1 := by decide
    unfold paddedLen
    rw [Nat.and_div_two_pow, hmask, Nat.and_two_pow_sub_one_eq_mod, Nat.mod_eq_of_lt (by omega)]
  omega

/-- Zeros up to a multiple of sixteen. -/
def padTo16 (l : List Byte) : List Byte := l ++ List.replicate ((16 - l.length % 16) % 16) 0

/-- What is authenticated. -/
def macData (ad ciphertext : List Byte) : List Byte :=
  padTo16 ad ++ padTo16 ciphertext ++ (writeLe 8 (BitVec.ofNat 64 ad.length)).toList
    ++ (writeLe 8 (BitVec.ofNat 64 ciphertext.length)).toList

/-- The one-time key: the start of the keystream's first block. -/
def oneTimeKey (key : Key) (nonce : U64) : Key :=
  List.Vector.ofFn fun i => keyByte (chacha20Init key nonce) i

/-- The plaintext under the keystream from the second block on. -/
def ciphertextOf (key : Key) (nonce : U64) (src : List Byte) : List Byte :=
  src.mapIdx fun i b => b ^^^ keyByte (chacha20Init key nonce) (64 + i)

theorem generate_eq (key : Key) (nonce : U64) :
    generatePoly1305Key w buffer key nonce
      = (poly1305Init w buffer (oneTimeKey key nonce), advance (chacha20Init key nonce) 1) := by
  obtain ⟨hout, hstate⟩ := chacha20_eq (chacha20Init key nonce) (List.replicate 32 0)
  rw [List.length_replicate] at hstate
  have hblock : slice (chacha20 (chacha20Init key nonce) (List.replicate 32 0)).1 0 32
      = oneTimeKey key nonce := by
    apply List.Vector.ext
    intro i
    have hi : (List.replicate 32 (0 : Byte))[(i : Nat)]? = some 0 := by
      rw [List.getElem?_replicate, if_pos i.isLt]
    unfold slice oneTimeKey
    rw [List.Vector.get_ofFn, List.Vector.get_ofFn, Nat.zero_add, List.getD_eq_getElem?_getD,
      hout, hi]
    simp
  unfold generatePoly1305Key
  dsimp only
  rw [hstate, hblock]

theorem chacha20_second (key : Key) (nonce : U64) (src : List Byte) :
    (chacha20 (advance (chacha20Init key nonce) 1) src).1 = ciphertextOf key nonce src := by
  refine List.ext_getElem? fun i => ?_
  rw [(chacha20_eq _ src).1, keyByte_advance]
  unfold ciphertextOf
  rw [List.getElem?_mapIdx]

theorem padding_eq {l : List Byte} (h : l.length < 2 ^ 32 - 15) :
    l ++ List.replicate (paddedLen l.length - l.length) 0 = padTo16 l := by
  have hcount : paddedLen l.length - l.length = (16 - l.length % 16) % 16 := by
    rw [paddedLen_eq h]
    omega
  rw [hcount, padTo16]

theorem authenticate_eq {w : Nat} (st : Poly1305 w) (ad ciphertext : List Byte) :
    authenticate st ad ciphertext = poly1305Finish ([ad,
      List.replicate (paddedLen ad.length - ad.length) 0, ciphertext,
      List.replicate (paddedLen ciphertext.length - ciphertext.length) 0,
      (writeLe 8 (BitVec.ofNat 64 ad.length)).toList,
      (writeLe 8 (BitVec.ofNat 64 ciphertext.length)).toList].foldl poly1305Update st) := by
  simp only [authenticate, updatePadding, List.foldl_cons, List.foldl_nil]

/-- **The code is the construction**: keystream from the second block on, and the authenticator of
the padded data and the lengths under the start of the first. -/
theorem encrypt_eq (hlow : 32 ≤ w) (hw : w ≤ 64) {src ad : List Byte} (nonce : U64) (key : Key)
    (hsrc : src.length < 2 ^ 32 - 15) (had : ad.length < 2 ^ 32 - 15) :
    chacha20poly1305Encrypt w buffer src ad nonce key
      = ciphertextOf key nonce src
        ++ (poly1305Tag (oneTimeKey key nonce) (macData ad (ciphertextOf key nonce src))).toList := by
  have hct : (ciphertextOf key nonce src).length < 2 ^ 32 - 15 := by
    rw [ciphertextOf, List.length_mapIdx]
    exact hsrc
  unfold chacha20poly1305Encrypt
  dsimp only
  rw [generate_eq]
  dsimp only
  rw [chacha20_second]
  rw [authenticate_eq, poly1305_tag hlow hw]
  have hdata : [ad, List.replicate (paddedLen ad.length - ad.length) 0,
      ciphertextOf key nonce src,
      List.replicate (paddedLen (ciphertextOf key nonce src).length
        - (ciphertextOf key nonce src).length) 0,
      (writeLe 8 (BitVec.ofNat 64 ad.length)).toList,
      (writeLe 8 (BitVec.ofNat 64 (ciphertextOf key nonce src).length)).toList].flatten
      = macData ad (ciphertextOf key nonce src) := by
    unfold macData
    rw [← padding_eq had, ← padding_eq hct]
    simp only [List.flatten_cons, List.flatten_nil, List.append_nil, List.append_assoc]
  rw [hdata]

/-- Two bytes, with one beside them. -/
theorem encrypt_eq_sample :
    chacha20poly1305Encrypt 32 (Bytes.zero 16) [1, 2] [3] 7 (List.Vector.replicate 32 1)
      = ciphertextOf (List.Vector.replicate 32 1) 7 [1, 2]
        ++ (poly1305Tag (oneTimeKey (List.Vector.replicate 32 1) 7)
          (macData [3] (ciphertextOf (List.Vector.replicate 32 1) 7 [1, 2]))).toList :=
  encrypt_eq 32 (Bytes.zero 16) (by decide) (by decide) 7 (List.Vector.replicate 32 1) (by decide)
    (by decide)

end

end Refc

end NuttxWireguard
