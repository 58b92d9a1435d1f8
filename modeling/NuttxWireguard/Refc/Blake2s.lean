/-
BLAKE2s (`crypto/refc/blake2s.c`).

The hash works through its input in blocks of 64 bytes.  The last block is marked, so a full
buffer waits until another byte comes; a key is a block of its own before the input.  Two words
count the bytes.

`blake2s_update` goes byte by byte, and callers feed the hash in pieces.  What is proved is that
the pieces do not matter: the digest is the one of all bytes in a row.
-/
import NuttxWireguard.Crypto
import NuttxWireguard.Lib.Blocks
import NuttxWireguard.Lib.Hmac

namespace NuttxWireguard

namespace Refc

open Lib Lib.Blocks

/-- `ROTR32`. -/
def rotr32 (x : U32) (y : Nat) : U32 := (x >>> y) ^^^ (x <<< (32 - y))

/-- The sixteen words the rounds work on. -/
abbrev Work := List.Vector U32 16

/-- `B2S_G`. -/
def b2sG (v : Work) (a b c d : Fin 16) (x y : U32) : Work :=
  let v := v.set a (v.get a + v.get b + x)
  let v := v.set d (rotr32 (v.get d ^^^ v.get a) 16)
  let v := v.set c (v.get c + v.get d)
  let v := v.set b (rotr32 (v.get b ^^^ v.get c) 12)
  let v := v.set a (v.get a + v.get b + y)
  let v := v.set d (rotr32 (v.get d ^^^ v.get a) 8)
  let v := v.set c (v.get c + v.get d)
  v.set b (rotr32 (v.get b ^^^ v.get c) 7)

/-- `blake2s_iv`. -/
def blake2sIv : List.Vector U32 8 :=
  ⟨[0x6A09E667, 0xBB67AE85, 0x3C6EF372, 0xA54FF53A,
    0x510E527F, 0x9B05688C, 0x1F83D9AB, 0x5BE0CD19], rfl⟩

/-- `sigma`. -/
def sigma : List (List (Fin 16)) :=
  [[0, 1, 2, 3, 4, 5, 6, 7, 8, 9, 10, 11, 12, 13, 14, 15],
   [14, 10, 4, 8, 9, 15, 13, 6, 1, 12, 0, 2, 11, 7, 5, 3],
   [11, 8, 12, 0, 5, 2, 15, 13, 10, 14, 3, 6, 7, 1, 9, 4],
   [7, 9, 3, 1, 13, 12, 11, 14, 2, 6, 5, 10, 4, 0, 15, 8],
   [9, 0, 5, 7, 2, 4, 10, 15, 14, 1, 11, 12, 6, 8, 3, 13],
   [2, 12, 6, 10, 0, 11, 8, 3, 4, 13, 7, 5, 15, 14, 1, 9],
   [12, 5, 1, 15, 14, 13, 4, 10, 0, 7, 6, 3, 9, 2, 8, 11],
   [13, 11, 7, 14, 12, 1, 3, 9, 5, 0, 15, 4, 8, 6, 2, 10],
   [6, 15, 14, 9, 11, 3, 0, 8, 12, 2, 13, 7, 1, 4, 10, 5],
   [10, 2, 8, 4, 7, 6, 1, 5, 15, 11, 9, 14, 3, 12, 13, 0]]

/-- One of the ten rounds, with its row of `sigma`. -/
def b2sRound (m : Work) (v : Work) (s : List (Fin 16)) : Work :=
  let x := fun j => m.get (s.getD j 0)
  let v := b2sG v 0 4 8 12 (x 0) (x 1)
  let v := b2sG v 1 5 9 13 (x 2) (x 3)
  let v := b2sG v 2 6 10 14 (x 4) (x 5)
  let v := b2sG v 3 7 11 15 (x 6) (x 7)
  let v := b2sG v 0 5 10 15 (x 8) (x 9)
  let v := b2sG v 1 6 11 12 (x 10) (x 11)
  let v := b2sG v 2 7 8 13 (x 12) (x 13)
  b2sG v 3 4 9 14 (x 14) (x 15)

/-- The chained state. -/
abbrev Chain := List.Vector U32 8

/-- What `blake2s_compress` makes of the chained state. -/
def mix (h : Chain) (b : Bytes 64) (t0 t1 : U32) (last : Bool) : Chain :=
  let v : Work := List.Vector.ofFn fun i =>
    if hi : (i : Nat) < 8 then h.get ⟨i, hi⟩ else blake2sIv.get ⟨i - 8, by omega⟩
  let v := v.set 12 (v.get 12 ^^^ t0)
  let v := v.set 13 (v.get 13 ^^^ t1)
  let v := if last then v.set 14 (~~~v.get 14) else v
  let m : Work := List.Vector.ofFn fun i => readLe 32 (slice b.toList (4 * i) 4).toList
  let v := sigma.foldl (b2sRound m) v
  List.Vector.ofFn fun i =>
    h.get i ^^^ (v.get ⟨i, by omega⟩ ^^^ v.get ⟨i + 8, by omega⟩)

/-- `blake2s_ctx`. -/
structure Blake2sCtx where
  b : Bytes 64
  h : Chain
  t0 : U32
  t1 : U32
  c : Nat
  outlen : Nat

/-- `blake2s_compress`. -/
def blake2sCompress (ctx : Blake2sCtx) (last : Bool) : Blake2sCtx :=
  { ctx with h := mix ctx.h ctx.b ctx.t0 ctx.t1 last }

/-- `add counters`, with the carry. -/
def addCounters (ctx : Blake2sCtx) : Blake2sCtx :=
  let t0 := ctx.t0 + BitVec.ofNat 32 ctx.c
  { ctx with t0, t1 := if t0.toNat < ctx.c then ctx.t1 + 1 else ctx.t1 }

/-- One turn of the loop of `blake2s_update`. -/
def blake2sByte (ctx : Blake2sCtx) (x : Byte) : Blake2sCtx :=
  let ctx := if ctx.c = 64 then { blake2sCompress (addCounters ctx) false with c := 0 } else ctx
  { ctx with b := writeAt ctx.b ctx.c [x], c := ctx.c + 1 }

/-- `blake2s_update`. -/
def blake2sUpdate (ctx : Blake2sCtx) (input : List Byte) : Blake2sCtx :=
  input.foldl blake2sByte ctx

/-- `blake2s_init`; `none` for illegal parameters.  Of the buffer only what the key does not fill
is set to zero. -/
def blake2sInit (buffer : Bytes 64) (outlen : Nat) (key : List Byte) : Option Blake2sCtx :=
  if outlen = 0 ∨ outlen > 32 ∨ key.length > 32 then none
  else
    let ctx : Blake2sCtx := {
      b := writeAt buffer key.length (List.replicate (64 - key.length) 0)
      h := blake2sIv.set 0 (blake2sIv.get 0 ^^^
        (0x01010000 ^^^ BitVec.ofNat 32 (key.length <<< 8) ^^^ BitVec.ofNat 32 outlen))
      t0 := 0
      t1 := 0
      c := 0
      outlen := outlen }
    some (if key.length > 0 then { blake2sUpdate ctx key with c := 64 } else ctx)

/-- `little endian convert and store`. -/
def digest (h : Chain) (outlen : Nat) : List Byte :=
  (List.range outlen).map fun i => (h.toList.getD (i / 4) 0 >>> (8 * (i % 4))).setWidth 8

/-- `blake2s_final`. -/
def blake2sFinal (ctx : Blake2sCtx) : List Byte :=
  let ctx := addCounters ctx
  let ctx := { ctx with b := writeAt ctx.b ctx.c (List.replicate (64 - ctx.c) 0), c := 64 }
  digest (blake2sCompress ctx true).h ctx.outlen

/-- `blake2s`. -/
def blake2s (buffer : Bytes 64) (outlen : Nat) (key input : List Byte) : Option (List Byte) :=
  match blake2sInit buffer outlen key with
  | none => none
  | some ctx => some (blake2sFinal (blake2sUpdate ctx input))

/-! ### What the hash is -/

/-- A block of up to 64 bytes, zeros after it. -/
def padBlock (block : List Byte) : Bytes 64 := slice block 0 64

/-- The compression with the bytes counted in one number. -/
def compress (h : Chain) (block : List Byte) (off : U64) (last : Bool) : Chain :=
  mix h (padBlock block) (off.setWidth 32) ((off >>> 32).setWidth 32) last

/-- All blocks in a row, the last one marked; `off` bytes came before. -/
def compressAll (h : Chain) (off : U64) (msg : List Byte) : Chain :=
  if _h : msg.length ≤ 64 then compress h msg (off + BitVec.ofNat 64 msg.length) true
  else compressAll (compress h (msg.take 64) (off + 64) false) (off + 64) (msg.drop 64)
termination_by msg.length
decreasing_by
  rw [List.length_drop]
  omega

/-- The first state: the length of the digest and of the key are part of it. -/
def firstChain (outlen keylen : Nat) : Chain :=
  blake2sIv.set 0 (blake2sIv.get 0 ^^^
    (0x01010000 ^^^ BitVec.ofNat 32 (keylen <<< 8) ^^^ BitVec.ofNat 32 outlen))

/-- A key is a block of its own. -/
def keyBlock (key : List Byte) : List Byte :=
  if key.length = 0 then [] else key ++ List.replicate (64 - key.length) 0

/-- The digest of a message. -/
def blake2sDigest (outlen : Nat) (key input : List Byte) : List Byte :=
  digest (compressAll (firstChain outlen key.length) 0 (keyBlock key ++ input)) outlen

/-! ### Counting -/

/-- The bytes counted so far. -/
def Blake2sCtx.off (ctx : Blake2sCtx) : U64 := BitVec.ofNat 64 (ctx.t0.toNat + 2 ^ 32 * ctx.t1.toNat)

theorem off_low (ctx : Blake2sCtx) : ctx.off.setWidth 32 = ctx.t0 := by
  apply BitVec.eq_of_toNat_eq
  have h0 := ctx.t0.isLt
  have h1 := ctx.t1.isLt
  rw [BitVec.toNat_setWidth, Blake2sCtx.off, BitVec.toNat_ofNat]
  omega

theorem off_high (ctx : Blake2sCtx) : (ctx.off >>> 32).setWidth 32 = ctx.t1 := by
  apply BitVec.eq_of_toNat_eq
  have h0 := ctx.t0.isLt
  have h1 := ctx.t1.isLt
  rw [BitVec.toNat_setWidth, BitVec.toNat_ushiftRight, Nat.shiftRight_eq_div_pow, Blake2sCtx.off,
    BitVec.toNat_ofNat]
  omega

/-- **The two words count as one.** -/
theorem addCounters_off {ctx : Blake2sCtx} (hc : ctx.c ≤ 64) :
    (addCounters ctx).off = ctx.off + BitVec.ofNat 64 ctx.c := by
  have h0 := ctx.t0.isLt
  have h1 := ctx.t1.isLt
  have hsum : (ctx.t0 + BitVec.ofNat 32 ctx.c).toNat = (ctx.t0.toNat + ctx.c) % 2 ^ 32 := by
    rw [BitVec.toNat_add, BitVec.toNat_ofNat]
    omega
  have hone : (ctx.t1 + 1).toNat = (ctx.t1.toNat + 1) % 2 ^ 32 := BitVec.toNat_add _ _
  apply BitVec.eq_of_toNat_eq
  rw [BitVec.toNat_add]
  unfold Blake2sCtx.off addCounters
  dsimp only
  rw [BitVec.toNat_ofNat, BitVec.toNat_ofNat, BitVec.toNat_ofNat, hsum]
  split
  · rw [hone]
    omega
  · omega

theorem mix_eq_compress (ctx : Blake2sCtx) (last : Bool) {block : List Byte}
    (hb : ctx.b = padBlock block) :
    (blake2sCompress ctx last).h = compress ctx.h block ctx.off last := by
  unfold blake2sCompress compress
  dsimp only
  rw [off_low, off_high, hb]

/-! ### Feeding -/

/-- What the context stands for: the chained state, the count, and the bytes that wait. -/
def Blake2sCtx.view (ctx : Blake2sCtx) : (Chain × U64) × List Byte :=
  ((ctx.h, ctx.off), ctx.b.toList.take ctx.c)

/-- A block that is not the last. -/
def takeBlock (s : Chain × U64) (block : List Byte) : Chain × U64 :=
  (compress s.1 block (s.2 + 64) false, s.2 + 64)

/-- Between bytes: no more than a block waits. -/
structure Blake2sCtx.Fed (outlen : Nat) (ctx : Blake2sCtx) : Prop where
  c : ctx.c ≤ 64
  outlen : ctx.outlen = outlen

theorem padBlock_toList (b : Bytes 64) : padBlock b.toList = b := by
  apply List.Vector.ext
  intro i
  rw [padBlock, slice, List.Vector.get_ofFn, Nat.zero_add, List.getD_eq_getElem _ _ (by simp)]
  rfl

/-- **One byte: a full buffer is compressed first.** -/
theorem blake2sByte_view {outlen : Nat} {ctx : Blake2sCtx} (hf : ctx.Fed outlen) (x : Byte) :
    (blake2sByte ctx x).view = consume takeBlock 64 64 ctx.view.1 (ctx.view.2 ++ [x]) ∧
      (blake2sByte ctx x).Fed outlen := by
  obtain ⟨hc, hout⟩ := hf
  unfold blake2sByte
  by_cases hfull : ctx.c = 64
  · rw [if_pos hfull]
    have hheld : ctx.view.2 = ctx.b.toList := by
      unfold Blake2sCtx.view
      dsimp only
      rw [hfull, List.take_of_length_le (by simp)]
    have hlen : ctx.b.toList.length = 64 := ctx.b.toList_length
    have hlong : 64 < (ctx.b.toList ++ [x]).length := by
      rw [List.length_append, hlen, List.length_singleton]
      decide
    have hmix := mix_eq_compress (addCounters ctx) false (padBlock_toList _).symm
    rw [addCounters_off hc, hfull] at hmix
    have hoff := addCounters_off hc
    rw [hfull] at hoff
    have htake := take_writeAt ctx.b 0 [x] (by simp)
    rw [hheld, consume_of_lt (by decide) _ hlong, List.take_left' hlen, List.drop_left' hlen,
      consume_of_le _ (by simp)]
    exact ⟨Prod.ext (Prod.ext hmix hoff) htake, Nat.succ_le_succ (Nat.zero_le 63), hout⟩
  · rw [if_neg hfull]
    have hheld : (ctx.view.2 ++ [x]).length ≤ 64 := by
      unfold Blake2sCtx.view
      simp only [List.length_append, List.length_take, List.Vector.toList_length,
        List.length_singleton]
      omega
    have htake := take_writeAt ctx.b ctx.c [x] (by simp; omega)
    rw [consume_of_le _ hheld]
    refine ⟨Prod.ext rfl htake, ?_, hout⟩
    show ctx.c + 1 ≤ 64
    omega

/-- **`blake2s_update` takes what waits and the new bytes.** -/
theorem blake2sUpdate_view {outlen : Nat} {ctx : Blake2sCtx} (hf : ctx.Fed outlen)
    (input : List Byte) :
    (blake2sUpdate ctx input).view = consume takeBlock 64 64 ctx.view.1 (ctx.view.2 ++ input) ∧
      (blake2sUpdate ctx input).Fed outlen := by
  have hheld : ctx.view.2.length ≤ 64 := by
    unfold Blake2sCtx.view
    simp only [List.length_take, List.Vector.toList_length]
    omega
  exact foldl_consume_units Blake2sCtx.view blake2sByte (Blake2sCtx.Fed outlen)
    (by decide : 0 < 64) (by decide : 64 ≤ 64 + 1) (fun _ x hf => blake2sByte_view hf x) input hf
    hheld

/-- The rest, in a last block. -/
theorem blake2sFinal_eq {outlen : Nat} {ctx : Blake2sCtx} (hf : ctx.Fed outlen) :
    blake2sFinal ctx = digest (compress ctx.view.1.1 ctx.view.2
      (ctx.view.1.2 + BitVec.ofNat 64 ctx.view.2.length) true) outlen := by
  obtain ⟨hc, hout⟩ := hf
  have hlen : ctx.view.2.length = ctx.c := by
    unfold Blake2sCtx.view
    simp only [List.length_take, List.Vector.toList_length]
    omega
  have hpad : writeAt ctx.b ctx.c (List.replicate (64 - ctx.c) 0) = padBlock ctx.view.2 := by
    have htake := take_writeAt ctx.b ctx.c (List.replicate (64 - ctx.c) 0) (by simp; omega)
    rw [List.length_replicate, Nat.add_sub_cancel' hc, List.take_of_length_le (by simp)] at htake
    rw [← padBlock_toList (writeAt ctx.b ctx.c (List.replicate (64 - ctx.c) 0)), htake]
    apply List.Vector.ext
    intro i
    simp only [padBlock, slice, List.Vector.get_ofFn, Nat.zero_add]
    show (ctx.view.2 ++ List.replicate (64 - ctx.c) 0).getD i 0 = ctx.view.2.getD i 0
    simp only [List.getD_eq_getElem?_getD, List.getElem?_append, hlen]
    split
    · rfl
    · rename_i hi
      rw [List.getElem?_replicate, List.getElem?_eq_none (by omega)]
      split <;> rfl
  have hcompress := mix_eq_compress
    { addCounters ctx with
      b := writeAt ctx.b ctx.c (List.replicate (64 - ctx.c) 0), c := 64 } true hpad
  have hoff := addCounters_off hc
  have hoff' : Blake2sCtx.off { addCounters ctx with
      b := writeAt ctx.b ctx.c (List.replicate (64 - ctx.c) 0), c := 64 }
      = ctx.off + BitVec.ofNat 64 ctx.c := hoff
  rw [hoff'] at hcompress
  have hfinal : blake2sFinal ctx = digest (blake2sCompress { addCounters ctx with
      b := writeAt ctx.b ctx.c (List.replicate (64 - ctx.c) 0), c := 64 } true).h ctx.outlen := rfl
  rw [hfinal, hcompress, hout, hlen]
  rfl

/-- The loop over blocks, and the last block apart. -/
theorem compressAll_eq (s : Chain × U64) (msg : List Byte) :
    compressAll s.1 s.2 msg = compress (consume takeBlock 64 64 s msg).1.1
      (consume takeBlock 64 64 s msg).2 ((consume takeBlock 64 64 s msg).1.2
        + BitVec.ofNat 64 (consume takeBlock 64 64 s msg).2.length) true := by
  induction hlen : msg.length using Nat.strongRecOn generalizing s msg with
  | ind len ih =>
      unfold compressAll
      by_cases hshort : msg.length ≤ 64
      · rw [dif_pos hshort, consume_of_le s hshort]
      · rw [dif_neg hshort, consume_of_lt (by decide) s (Nat.not_le.mp hshort)]
        exact ih _ (by rw [List.length_drop]; omega) (takeBlock s (msg.take 64)) _ rfl

/-- A context that holds all there was digests it. -/
theorem final_update {outlen : Nat} {ctx : Blake2sCtx} (hf : ctx.Fed outlen) (input : List Byte) :
    blake2sFinal (blake2sUpdate ctx input)
      = digest (compressAll ctx.h ctx.off (ctx.view.2 ++ input)) outlen := by
  obtain ⟨hview, hfed⟩ := blake2sUpdate_view hf input
  rw [blake2sFinal_eq hfed, hview, ← compressAll_eq]
  rfl

/-! ### The key -/

/-- What fits is only written. -/
theorem blake2sUpdate_fits (ctx : Blake2sCtx) (input : List Byte) (h : ctx.c + input.length ≤ 64) :
    blake2sUpdate ctx input
      = { ctx with b := writeAt ctx.b ctx.c input, c := ctx.c + input.length } := by
  induction input generalizing ctx with
  | nil =>
      rw [writeAt_nil]
      rfl
  | cons x input ih =>
      rw [List.length_cons] at h
      have hbyte : blake2sByte ctx x
          = { ctx with b := writeAt ctx.b ctx.c [x], c := ctx.c + 1 } := by
        unfold blake2sByte
        rw [if_neg (by omega)]
      have hstep : blake2sUpdate ctx (x :: input) = blake2sUpdate (blake2sByte ctx x) input := rfl
      rw [hstep, hbyte, ih _ (by show ctx.c + 1 + input.length ≤ 64; omega)]
      dsimp only
      rw [writeAt_cons, List.length_cons, Nat.add_assoc, Nat.add_comm 1]

/-- **`blake2s_init` leaves the block of the key waiting.** -/
theorem blake2sInit_view (buffer : Bytes 64) {outlen : Nat} {key : List Byte}
    (hout : 1 ≤ outlen ∧ outlen ≤ 32) (hkey : key.length ≤ 32) :
    ∃ ctx, blake2sInit buffer outlen key = some ctx ∧ ctx.Fed outlen ∧
      ctx.view = ((firstChain outlen key.length, 0), keyBlock key) := by
  unfold blake2sInit
  rw [if_neg (by omega)]
  refine ⟨_, rfl, ?_⟩
  by_cases hzero : key.length = 0
  · rw [if_neg (by omega)]
    refine ⟨⟨Nat.zero_le 64, rfl⟩, Prod.ext rfl ?_⟩
    unfold Blake2sCtx.view keyBlock
    rw [if_pos hzero]
    rfl
  · rw [if_pos (by omega), blake2sUpdate_fits _ key (by show 0 + key.length ≤ 64; omega)]
    refine ⟨⟨le_refl 64, rfl⟩, Prod.ext rfl ?_⟩
    have hzeros := take_writeAt buffer key.length (List.replicate (64 - key.length) 0)
      (by simp; omega)
    rw [List.length_replicate, Nat.add_sub_cancel' (by omega),
      List.take_of_length_le (by simp)] at hzeros
    have hdrop := drop_writeAt (writeAt buffer key.length (List.replicate (64 - key.length) 0)) 0 key
    have htake := take_writeAt (writeAt buffer key.length (List.replicate (64 - key.length) 0)) 0 key
      (by omega)
    rw [Nat.zero_add] at hdrop htake
    unfold Blake2sCtx.view keyBlock
    dsimp only
    rw [if_neg hzero, List.take_of_length_le (by simp),
      ← List.take_append_drop key.length (writeAt _ 0 key).toList, htake, hdrop, hzeros,
      List.drop_left' (by simp; omega)]
    rfl

/-- **The digest depends on the bytes only, not on the pieces they came in.** -/
theorem blake2s_pieces (buffer : Bytes 64) {outlen : Nat} {key : List Byte}
    (hout : 1 ≤ outlen ∧ outlen ≤ 32) (hkey : key.length ≤ 32) (pieces : List (List Byte)) :
    (blake2sInit buffer outlen key).map (fun ctx => blake2sFinal (pieces.foldl blake2sUpdate ctx))
      = some (blake2sDigest outlen key pieces.flatten) := by
  obtain ⟨ctx, hinit, hfed, hview⟩ := blake2sInit_view buffer hout hkey
  have hflat : pieces.foldl blake2sUpdate ctx = blake2sUpdate ctx pieces.flatten :=
    List.foldl_flatten.symm
  have hh : ctx.h = firstChain outlen key.length := congrArg (fun v => v.1.1) hview
  have hoff : ctx.off = 0 := congrArg (fun v => v.1.2) hview
  rw [hinit, Option.map_some, hflat, final_update hfed, hview, hh, hoff]
  rfl

/-- Three bytes in two pieces. -/
theorem blake2s_pieces_sample :
    (blake2sInit (Bytes.zero 64) 32 [7]).map (fun ctx =>
        blake2sFinal ([[1], [2, 3]].foldl blake2sUpdate ctx))
      = some (blake2sDigest 32 [7] [[1], [2, 3]].flatten) :=
  blake2s_pieces (Bytes.zero 64) (by decide) (by decide) [[1], [2, 3]]

/-- The hash in one call. -/
theorem blake2s_eq (buffer : Bytes 64) {outlen : Nat} {key : List Byte}
    (hout : 1 ≤ outlen ∧ outlen ≤ 32) (hkey : key.length ≤ 32) (input : List Byte) :
    blake2s buffer outlen key input = some (blake2sDigest outlen key input) := by
  have h := blake2s_pieces buffer hout hkey [input]
  rw [List.flatten_singleton] at h
  rw [← h]
  unfold blake2s
  cases blake2sInit buffer outlen key <;> rfl

end Refc

end NuttxWireguard
