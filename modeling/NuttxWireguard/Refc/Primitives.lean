/-
The vendored primitives, as the flat port uses them (`crypto.h`).

The protocol core is modelled over any primitives, with what it relies on as hypotheses where a
result needs them.  Here the primitives are the ones the port is built with, and the hypotheses
are theorems: decryption undoes encryption, every two private keys agree on a secret, and the
hash may be fed in pieces.

What the functions find on their stack is a parameter of each of them and zero here.  That it
does not matter, and neither does the size of an `unsigned long`, is `refc_stack`.
-/
import NuttxWireguard.Flat.CookieReply
import NuttxWireguard.Lib.Hmac
import NuttxWireguard.Refc.Aead
import NuttxWireguard.Refc.Blake2s
import NuttxWireguard.Refc.KeyAgreement
import NuttxWireguard.Transcript

namespace NuttxWireguard

namespace Refc

open Lib

theorem length_decrypt {w : Nat} {buffer : Bytes 16} {src ad p : List Byte} {nonce : U64}
    {key : Key} (h : chacha20poly1305Decrypt w buffer src ad nonce key = some p) :
    p.length + authtagLen = src.length := by
  rw [(decrypt_some_iff w buffer src ad p nonce key).mp h, length_encrypt]

/-- `fe xs[5]`, not initialised. -/
def zeroXs : Xs := ⟨Fe.small 0, Fe.small 0, Fe.small 0, Fe.small 0, Fe.small 0⟩

/-- `wireguard_blake2s`, `wireguard_x25519` and the four AEAD functions, with an `unsigned long`
of `w` bits.  Where the hash refuses its parameters, nothing is written. -/
def refc (w : Nat) : Crypto where
  blake2s outlen key input :=
    slice ((blake2s (Bytes.zero 64) outlen key input).getD []) 0 outlen
  x25519 scalar point := (x25519 zeroXs scalar point true).1
  aeadEncrypt := chacha20poly1305Encrypt w (Bytes.zero 16)
  aeadDecrypt := chacha20poly1305Decrypt w (Bytes.zero 16)
  xaeadEncrypt := xchacha20poly1305Encrypt w (Bytes.zero 16)
  xaeadDecrypt := xchacha20poly1305Decrypt w (Bytes.zero 16)
  aeadEncrypt_length := length_encrypt w (Bytes.zero 16)
  aeadDecrypt_length _ _ _ _ _ := length_decrypt
  xaeadEncrypt_length _ _ _ _ := length_encrypt w (Bytes.zero 16) _ _ _ _
  xaeadDecrypt_length _ _ _ _ _ := length_decrypt

variable (w : Nat)

theorem refc_aeadCorrect : (refc w).AeadCorrect := by
  intro src ad nonce key
  exact (decrypt_some_iff w _ _ ad src nonce key).mpr rfl

theorem refc_xaeadCorrect : (refc w).XaeadCorrect := by
  intro src ad nonce key
  exact (decrypt_some_iff w _ _ ad src (newNonce nonce) (subkey nonce key)).mpr rfl

theorem refc_publicKey_ne_zero (a : Key) : (refc w).publicKey a ≠ Bytes.zero 32 :=
  (shared_ne_zero zeroXs zeroXs a a).1

/-- **Any two private keys agree on a secret.** -/
theorem refc_keysAgree (a b : Key) : KeysAgree (refc w) a b where
  comm := x25519_comm zeroXs zeroXs zeroXs zeroXs a b Crypto.basepoint true true
  nonzero := (shared_ne_zero zeroXs zeroXs a b).2

theorem clamp_clamp (k : Key) : Crypto.clamp (Crypto.clamp k) = Crypto.clamp k := by
  have hlow : ∀ b : Byte, (b &&& 248) &&& 248 = b &&& 248 := by decide
  have hhigh : ∀ b : Byte, (((b &&& 127) ||| 64) &&& 127) ||| 64 = (b &&& 127) ||| 64 := by decide
  apply List.Vector.ext
  intro i
  unfold Crypto.clamp
  simp only [List.Vector.get_ofFn]
  by_cases h0 : i = 0
  · rw [if_pos h0, if_pos h0, hlow]
  · rw [if_neg h0, if_neg h0]
    by_cases h31 : i = 31
    · rw [if_pos h31, if_pos h31, hhigh]
    · rw [if_neg h31, if_neg h31]

/-- X25519 clamps its scalar itself. -/
theorem refc_x25519_clamp (a u : Key) :
    (refc w).x25519 (Crypto.clamp a) u = (refc w).x25519 a u := by
  obtain ⟨P, hP⟩ := exists_point u
  refine x25519_inj ?_
  rw [x25519_nsmul zeroXs (Crypto.clamp a) u true hP, x25519_nsmul zeroXs a u true hP]
  unfold scalarValue effectiveScalar
  rw [if_pos rfl, if_pos rfl, clamp_clamp]

/-! ### The hash in pieces -/

theorem blake2sUpdate_append (ctx : Blake2sCtx) (a b : List Byte) :
    blake2sUpdate (blake2sUpdate ctx a) b = blake2sUpdate ctx (a ++ b) :=
  List.foldl_append.symm

/-- `wireguard_blake2s_init`, `_update` and `_final`, as `wireguard_hmac` and `wireguard_mix_hash`
call them. -/
def refcStreamed : Streamed (refc w).hash where
  State := Option Blake2sCtx
  init := blake2sInit (Bytes.zero 64) 32 []
  update ctx input := ctx.map (blake2sUpdate · input)
  final ctx := slice ((ctx.map blake2sFinal).getD []) 0 32
  update_append := by
    intro ctx a b
    cases ctx with
    | none => rfl
    | some ctx => exact congrArg some (blake2sUpdate_append ctx a b)
  final_update := by
    intro input
    show _ = slice ((blake2s (Bytes.zero 64) 32 [] input).getD []) 0 32
    unfold blake2s
    cases blake2sInit (Bytes.zero 64) 32 [] <;> rfl

theorem length_blake2sDigest (outlen : Nat) (key input : List Byte) :
    (blake2sDigest outlen key input).length = outlen := by
  unfold blake2sDigest digest
  rw [List.length_map, List.length_range]

/-- Within its limits the hash is BLAKE2s. -/
theorem refc_blake2s {outlen : Nat} {key : List Byte} (hout : 1 ≤ outlen ∧ outlen ≤ 32)
    (hkey : key.length ≤ 32) (input : List Byte) :
    ((refc w).blake2s outlen key input).toList = blake2sDigest outlen key input := by
  have hslice := slice_toList
    (⟨blake2sDigest outlen key input, length_blake2sDigest outlen key input⟩ : Bytes outlen)
  show (slice ((blake2s (Bytes.zero 64) outlen key input).getD []) 0 outlen).toList = _
  rw [blake2s_eq _ hout hkey, Option.getD_some]
  exact congrArg List.Vector.toList hslice

/-! ### What is on the stack -/

section Stack

variable {w} {w' : Nat} (hlow : 32 ≤ w) (hw : w ≤ 64) (hlow' : 32 ≤ w') (hw' : w' ≤ 64)
  (buffer buffer' : Bytes 16)

include hlow hw hlow' hw'

/-- The tag is the same on every target. -/
theorem authenticate_stack (key : Key) (ad ciphertext : List Byte) :
    authenticate (poly1305Init w buffer key) ad ciphertext
      = authenticate (poly1305Init w' buffer' key) ad ciphertext := by
  rw [authenticate_eq, authenticate_eq, poly1305_tag hlow hw, poly1305_tag hlow' hw']

theorem encrypt_stack (src ad : List Byte) (nonce : U64) (key : Key) :
    chacha20poly1305Encrypt w buffer src ad nonce key
      = chacha20poly1305Encrypt w' buffer' src ad nonce key := by
  unfold chacha20poly1305Encrypt
  dsimp only
  rw [generate_eq, generate_eq]
  dsimp only
  rw [authenticate_stack hlow hw hlow' hw' buffer buffer']

theorem decrypt_stack (src ad : List Byte) (nonce : U64) (key : Key) :
    chacha20poly1305Decrypt w buffer src ad nonce key
      = chacha20poly1305Decrypt w' buffer' src ad nonce key := by
  refine Option.ext fun p => ?_
  rw [decrypt_some_iff, decrypt_some_iff, encrypt_stack hlow hw hlow' hw' buffer buffer']

/-- **Nothing the functions find on their stack reaches a result**, and a target with a 32-bit
`unsigned long` computes what one with a 64-bit one does. -/
theorem refc_stack (buffer64 : Bytes 64) (xs : Xs) {outlen : Nat} {hashKey : List Byte}
    (hout : 1 ≤ outlen ∧ outlen ≤ 32) (hkey : hashKey.length ≤ 32) (input : List Byte)
    (src ad : Sized) (scalar point key : Key) (nonce : U64) (xnonce : Bytes 24) :
    blake2s buffer64 outlen hashKey input
        = some ((refc w').blake2s outlen hashKey input).toList ∧
      (x25519 xs scalar point true).1 = (refc w').x25519 scalar point ∧
      chacha20poly1305Encrypt w buffer src ad nonce key = (refc w').aeadEncrypt src ad nonce key ∧
      chacha20poly1305Decrypt w buffer src ad nonce key = (refc w').aeadDecrypt src ad nonce key ∧
      xchacha20poly1305Encrypt w buffer src ad xnonce key
        = (refc w').xaeadEncrypt src ad xnonce key ∧
      xchacha20poly1305Decrypt w buffer src ad xnonce key
        = (refc w').xaeadDecrypt src ad xnonce key := by
  refine ⟨?_, ?_, encrypt_stack hlow hw hlow' hw' _ _ src ad nonce key,
    decrypt_stack hlow hw hlow' hw' _ _ src ad nonce key,
    encrypt_stack hlow hw hlow' hw' _ _ src ad _ _, decrypt_stack hlow hw hlow' hw' _ _ src ad _ _⟩
  · rw [refc_blake2s w' hout hkey, blake2s_eq buffer64 hout hkey]
  · exact congrArg Prod.fst (x25519_stack xs zeroXs scalar point true)

omit hlow hw hlow' hw'

/-- A 32-bit target whose stack is full of ones, and a 64-bit one. -/
theorem refc_stack_sample :
    blake2s (List.Vector.replicate 64 1) 32 [] [1]
        = some ((refc 64).blake2s 32 [] [1]).toList ∧
      chacha20poly1305Encrypt 32 (List.Vector.replicate 16 1) [1] [2] 0 (Bytes.zero 32)
        = (refc 64).aeadEncrypt [1] [2] 0 (Bytes.zero 32) := by
  obtain ⟨hhash, -, hseal, -⟩ := refc_stack (by decide : 32 ≤ 32) (by decide : 32 ≤ 64)
    (by decide : 32 ≤ 64) (by decide : 64 ≤ 64) (List.Vector.replicate 16 1)
    (List.Vector.replicate 64 1) zeroXs (by decide : 1 ≤ 32 ∧ 32 ≤ 32)
    (by decide : ([] : List Byte).length ≤ 32) [1] ⟨[1], by decide⟩ ⟨[2], by decide⟩
    (Bytes.zero 32) (Bytes.zero 32) (Bytes.zero 32) 0 (Bytes.zero 24)
  exact ⟨hhash, hseal⟩

end Stack

end Refc

end NuttxWireguard
