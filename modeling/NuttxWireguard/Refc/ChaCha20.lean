/-
ChaCha20 and HChaCha20 (`crypto/refc/chacha20.c`).

The cipher adds a keystream to its input, in blocks of 64 bytes that a counter numbers.  The
context is the sixteen words the block function starts from; the counter is word 12, and a call
that ends within a block still uses the block up.
-/
import NuttxWireguard.Crypto

namespace NuttxWireguard

namespace Refc

open Lib

/-- `struct chacha20_ctx`. -/
abbrev ChaChaState := List.Vector U32 16

/-- `ROTL32`. -/
def rotl32 (v : U32) (n : Nat) : U32 := (v <<< n) ||| (v >>> (32 - n))

/-- `QUARTERROUND`. -/
def quarterRound (block : ChaChaState) (a b c d : Fin 16) : ChaChaState :=
  let block := block.set a (block.get a + block.get b)
  let block := block.set d (block.get d ^^^ block.get a)
  let block := block.set d (rotl32 (block.get d) 16)
  let block := block.set c (block.get c + block.get d)
  let block := block.set b (block.get b ^^^ block.get c)
  let block := block.set b (rotl32 (block.get b) 12)
  let block := block.set a (block.get a + block.get b)
  let block := block.set d (block.get d ^^^ block.get a)
  let block := block.set d (rotl32 (block.get d) 8)
  let block := block.set c (block.get c + block.get d)
  let block := block.set b (block.get b ^^^ block.get c)
  block.set b (rotl32 (block.get b) 7)

/-- `INNER_BLOCK`: the columns, then the diagonals. -/
def innerBlock (block : ChaChaState) : ChaChaState :=
  let block := quarterRound block 0 4 8 12
  let block := quarterRound block 1 5 9 13
  let block := quarterRound block 2 6 10 14
  let block := quarterRound block 3 7 11 15
  let block := quarterRound block 0 5 10 15
  let block := quarterRound block 1 6 11 12
  let block := quarterRound block 2 7 8 13
  quarterRound block 3 4 9 14

/-- `TWENTY_ROUNDS`. -/
def twentyRounds (block : ChaChaState) : ChaChaState :=
  (List.range 10).foldl (fun block _ => innerBlock block) block

/-- `chacha20_block`. -/
def chacha20Block (ctx : ChaChaState) : Bytes 64 :=
  let workingState := twentyRounds ctx
  List.Vector.ofFn fun i =>
    (writeLe 4 (workingState.get ⟨i / 4, by omega⟩ + ctx.get ⟨i / 4, by omega⟩)).get
      ⟨i % 4, by omega⟩

/-- `PLUSONE` of word 12. -/
def nextBlock (ctx : ChaChaState) : ChaChaState := ctx.set 12 (ctx.get 12 + 1)

/-- `out[i] = in[i] ^ output[i]`. -/
def xorBlock (input : List Byte) (output : Bytes 64) : List Byte :=
  List.zipWith (· ^^^ ·) input output.toList

/-- `chacha20`: what is written to `out`, and the context after it. -/
def chacha20 (ctx : ChaChaState) (input : List Byte) : List Byte × ChaChaState :=
  if input.length = 0 then ([], ctx)
  else if _h : input.length ≤ 64 then (xorBlock input (chacha20Block ctx), nextBlock ctx)
  else
    let (out, last) := chacha20 (nextBlock ctx) (input.drop 64)
    (xorBlock (input.take 64) (chacha20Block ctx) ++ out, last)
termination_by input.length
decreasing_by
  rw [List.length_drop]
  omega

/-- The constants of the first four words. -/
def chachaConstants : List U32 := [0x61707865, 0x3320646e, 0x79622d32, 0x6b206574]

/-- `U8TO32_LITTLE` of eight words of a key. -/
def keyWords (key : Key) : List U32 :=
  List.ofFn fun i : Fin 8 => readLe 32 (slice key.toList (4 * i) 4).toList

/-- `chacha20_init`. -/
def chacha20Init (key : Key) (nonce : U64) : ChaChaState :=
  ⟨chachaConstants ++ keyWords key
    ++ [0, 0, (nonce &&& 0xffffffff).setWidth 32, (nonce >>> 32).setWidth 32], by
      simp [chachaConstants, keyWords]⟩

/-- `hchacha20`. -/
def hchacha20 (nonce : Bytes 16) (key : Key) : Key :=
  let state : ChaChaState :=
    ⟨chachaConstants ++ keyWords key
      ++ List.ofFn (fun i : Fin 4 => readLe 32 (slice nonce.toList (4 * i) 4).toList), by
        simp [chachaConstants, keyWords]⟩
  let state := twentyRounds state
  List.Vector.ofFn fun i =>
    -- the first four words, and the last four
    (writeLe 4 (state.get ⟨if (i : Nat) < 16 then i / 4 else i / 4 + 8, by split <;> omega⟩)).get
      ⟨i % 4, by omega⟩

/-! ### The keystream -/

/-- The context `n` blocks on. -/
def advance (ctx : ChaChaState) (n : Nat) : ChaChaState :=
  ctx.set 12 (ctx.get 12 + BitVec.ofNat 32 n)

/-- Byte `i` of the keystream. -/
def keyByte (ctx : ChaChaState) (i : Nat) : Byte :=
  (chacha20Block (advance ctx (i / 64))).get ⟨i % 64, Nat.mod_lt _ (by decide)⟩

theorem set_get_self {α : Type} {n : Nat} (v : List.Vector α n) (i : Fin n) :
    v.set i (v.get i) = v := by
  apply List.Vector.ext
  intro j
  by_cases h : i = j
  · rw [h, List.Vector.get_set_same]
  · rw [List.Vector.get_set_of_ne h]

theorem set_set {α : Type} {n : Nat} (v : List.Vector α n) (i : Fin n) (a b : α) :
    (v.set i a).set i b = v.set i b := by
  apply List.Vector.ext
  intro j
  by_cases h : i = j
  · rw [h, List.Vector.get_set_same, List.Vector.get_set_same]
  · rw [List.Vector.get_set_of_ne h, List.Vector.get_set_of_ne h, List.Vector.get_set_of_ne h]

@[simp] theorem advance_zero (ctx : ChaChaState) : advance ctx 0 = ctx := by
  have hzero : ctx.get 12 + BitVec.ofNat 32 0 = ctx.get 12 := BitVec.add_zero _
  rw [advance, hzero, set_get_self]

theorem advance_advance (ctx : ChaChaState) (m n : Nat) :
    advance (advance ctx m) n = advance ctx (m + n) := by
  unfold advance
  rw [set_set, List.Vector.get_set_same, BitVec.add_assoc, BitVec.ofNat_add]

theorem nextBlock_eq (ctx : ChaChaState) : nextBlock ctx = advance ctx 1 := rfl

theorem keyByte_advance (ctx : ChaChaState) (n i : Nat) :
    keyByte (advance ctx n) i = keyByte ctx (64 * n + i) := by
  have hdiv : (64 * n + i) / 64 = n + i / 64 := by omega
  have hmod : (64 * n + i) % 64 = i % 64 := by omega
  unfold keyByte
  simp only [advance_advance, hdiv, hmod]

theorem length_xorBlock {input : List Byte} (h : input.length ≤ 64) (output : Bytes 64) :
    (xorBlock input output).length = input.length := by
  rw [xorBlock, List.length_zipWith, output.toList_length, Nat.min_eq_left h]

theorem getElem?_xorBlock (ctx : ChaChaState) {input : List Byte} (h : input.length ≤ 64)
    (i : Nat) :
    (xorBlock input (chacha20Block ctx))[i]? = (input[i]?).map (· ^^^ keyByte ctx i) := by
  unfold xorBlock
  rw [List.getElem?_zipWith]
  by_cases hi : i < input.length
  · have hlt : i < 64 := by omega
    have hkey : (chacha20Block ctx).toList[i]? = some (keyByte ctx i) := by
      have hbyte : keyByte ctx i = (chacha20Block ctx).get ⟨i, hlt⟩ := by
        unfold keyByte
        simp only [Nat.div_eq_of_lt hlt, Nat.mod_eq_of_lt hlt, advance_zero]
      rw [hbyte, List.getElem?_eq_getElem (by simpa using hlt)]
      rfl
    rw [hkey, List.getElem?_eq_getElem hi]
    rfl
  · rw [List.getElem?_eq_none (Nat.not_lt.mp hi)]
    rfl

/-- **The cipher adds the keystream, byte by byte, and uses up the blocks it touched.** -/
theorem chacha20_eq (ctx : ChaChaState) (input : List Byte) :
    (∀ i, (chacha20 ctx input).1[i]? = (input[i]?).map (· ^^^ keyByte ctx i)) ∧
      (chacha20 ctx input).2 = advance ctx ((input.length + 63) / 64) := by
  induction hlen : input.length using Nat.strongRecOn generalizing ctx input with
  | ind len ih =>
      unfold chacha20
      by_cases hzero : input.length = 0
      · rw [if_pos hzero, List.length_eq_zero_iff.mp hzero, ← hlen, hzero]
        exact ⟨fun i => rfl, (advance_zero ctx).symm⟩
      rw [if_neg hzero]
      by_cases hshort : input.length ≤ 64
      · rw [dif_pos hshort, nextBlock_eq]
        have hone : (len + 63) / 64 = 1 := by omega
        rw [hone]
        exact ⟨getElem?_xorBlock ctx hshort, rfl⟩
      · obtain ⟨hout, hlast⟩ := ih (input.drop 64).length (by rw [List.length_drop]; omega)
          (nextBlock ctx) (input.drop 64) rfl
        have htake : (input.take 64).length = 64 := by
          rw [List.length_take]
          omega
        rw [dif_neg hshort]
        refine ⟨fun i => ?_, ?_⟩
        · by_cases hi : i < 64
          · rw [List.getElem?_append_left (by rw [length_xorBlock (by omega)]; omega),
              getElem?_xorBlock ctx (by omega), List.getElem?_take, if_pos hi]
          · rw [List.getElem?_append_right (by rw [length_xorBlock (by omega)]; omega),
              length_xorBlock (by omega), htake, hout, List.getElem?_drop, nextBlock_eq,
              keyByte_advance]
            simp only [Nat.mul_one, show 64 + (i - 64) = i by omega]
        · rw [hlast, nextBlock_eq, advance_advance, List.length_drop]
          congr 1
          omega

theorem length_chacha20 (ctx : ChaChaState) (input : List Byte) :
    (chacha20 ctx input).1.length = input.length := by
  have h := (chacha20_eq ctx input).1
  refine Nat.le_antisymm ?_ ?_
  · have hend := h input.length
    rw [List.getElem?_eq_none le_rfl] at hend
    exact List.getElem?_eq_none_iff.mp hend
  · have hend := h (chacha20 ctx input).1.length
    rw [List.getElem?_eq_none le_rfl] at hend
    exact List.getElem?_eq_none_iff.mp (Option.map_eq_none_iff.mp hend.symm)

/-- **Twice is not at all**: the cipher decrypts what it encrypted. -/
theorem chacha20_chacha20 (ctx : ChaChaState) (input : List Byte) :
    (chacha20 ctx (chacha20 ctx input).1).1 = input := by
  refine List.ext_getElem? fun i => ?_
  rw [(chacha20_eq ctx _).1, (chacha20_eq ctx input).1]
  cases input[i]? with
  | none => rfl
  | some b =>
      simp only [Option.map_some]
      rw [BitVec.xor_assoc, BitVec.xor_self, BitVec.xor_zero]

end Refc

end NuttxWireguard
