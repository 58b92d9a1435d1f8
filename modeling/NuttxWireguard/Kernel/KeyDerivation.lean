/-
Key derivation in the driver's buffers (`wg_hmac`, `wg_kdf1`, `wg_kdf2`, `wg_kdf3`).

The rest of the development takes these as functions on bytes.  Here they are the code's:
they read and write one memory, into buffers that may overlap, and one array is at once the
output of an HMAC and its next input.  The handshake passes the chaining key both as the
first output and as the key.

A local array stands at a fixed offset of its function's frame, which starts at the stack
pointer `top`.  Nothing clears a frame before it is used.  The hash state is a local too,
which only the hash reads and writes.
-/
import NuttxWireguard.Crypto
import NuttxWireguard.Lib.Hmac
import NuttxWireguard.Lib.Memory

namespace NuttxWireguard.Kernel

open Lib Memory

variable {c : Crypto} (h : Streamed c.hash) (m : Memory) {top keylen inlen datalen : Nat}

/-! ### The functions -/

/-- `wg_hash`. -/
def wgHash (c : Crypto) (m : Memory) (out inp inlen : Nat) : Memory :=
  m.write out (c.hash (m.read inp inlen)).toList

/-- The key of at most a block, in `tk` if it had to be hashed: where it is, and its length. -/
def hmacKey (c : Crypto) (m : Memory) (tk key keylen : Nat) : Memory × Nat × Nat :=
  if keylen > Crypto.blake2sBlock then (wgHash c m tk key keylen, tk, 32) else (m, key, keylen)

/-- The two pads cleared, with the key at the start of each. -/
def hmacPads (m : Memory) (kIpad kOpad key keylen : Nat) : Memory :=
  (((m.zero kIpad 64).zero kOpad 64).copy kIpad key keylen).copy kOpad key keylen

/-- The loop over the two pads. -/
def hmacXor (m : Memory) (kIpad kOpad : Nat) : Memory :=
  (List.range Crypto.blake2sBlock).foldl (fun m i =>
    let m := m.set (kIpad + i) (m (kIpad + i) ^^^ 0x36)
    m.set (kOpad + i) (m (kOpad + i) ^^^ 0x5c)) m

/-- `wg_hmac`; `k_ipad`, `k_opad` and `tk` are its frame. -/
def wgHmac (out : Buffer top 32) (key : Buffer top keylen) (inp : Buffer top inlen) : Memory :=
  let kIpad := top
  let kOpad := top + 64
  let tk := top + 128
  let (m, key, keylen) := hmacKey c m tk key.addr keylen
  let m := hmacPads m kIpad kOpad key keylen
  let m := hmacXor m kIpad kOpad
  let s := h.update h.init (m.read kIpad 64)
  let s := h.update s (m.read inp.addr inlen)
  let m := m.write out.addr (h.final s).toList
  let s := h.update h.init (m.read kOpad 64)
  let s := h.update s (m.read out.addr 32)
  let m := m.write out.addr (h.final s).toList
  let m := m.zero kIpad 64
  let m := m.zero kOpad 64
  m.zero tk 32

/-- The frame of the three derivations: `tau0`, and `output` behind it. -/
abbrev kdfFrame : Nat := 65

/-- `wg_hmac(tau0, chaining_key, ..)`, `output[0] = 1` and the first key into `output`: how
all three start. -/
def kdfStart (chainingKey : Buffer top 32) (data : Buffer top datalen) : Memory :=
  let tau0 : Buffer (top + kdfFrame) 32 := .inFrame top 0 32 (by decide)
  let output : Buffer (top + kdfFrame) 32 := .inFrame top 32 32 (by decide)
  let m := wgHmac h m tau0 (chainingKey.under kdfFrame) (data.under kdfFrame)
  let m := m.set output.addr 1
  wgHmac h m output tau0 (.inFrame top 32 1 (by decide))

/-- `output[WG_HASH_LEN] = k` and the next key into `output`. -/
def kdfNext (top : Nat) (k : Byte) : Memory :=
  let tau0 : Buffer (top + kdfFrame) 32 := .inFrame top 0 32 (by decide)
  let output : Buffer (top + kdfFrame) 32 := .inFrame top 32 32 (by decide)
  let m := m.set (output.addr + 32) k
  wgHmac h m output tau0 (.inFrame top 32 33 (by decide))

/-- The wiping at the end. -/
def kdfWipe (m : Memory) (top : Nat) : Memory := (m.zero top 32).zero (top + 32) 33

/-- `wg_kdf1`. -/
def wgKdf1 (t1 chainingKey : Buffer top 32) (data : Buffer top datalen) : Memory :=
  let m := kdfStart h m chainingKey data
  let m := m.copy t1.addr (top + 32) 32
  kdfWipe m top

/-- `wg_kdf2`. -/
def wgKdf2 (t1 t2 chainingKey : Buffer top 32) (data : Buffer top datalen) : Memory :=
  let m := kdfStart h m chainingKey data
  let m := m.copy t1.addr (top + 32) 32
  let m := kdfNext h m top 2
  let m := m.copy t2.addr (top + 32) 32
  kdfWipe m top

/-- `wg_kdf3`. -/
def wgKdf3 (t1 t2 t3 chainingKey : Buffer top 32) (data : Buffer top datalen) : Memory :=
  let m := kdfStart h m chainingKey data
  let m := m.copy t1.addr (top + 32) 32
  let m := kdfNext h m top 2
  let m := m.copy t2.addr (top + 32) 32
  let m := kdfNext h m top 3
  let m := m.copy t3.addr (top + 32) 32
  kdfWipe m top

/-! ### One HMAC -/

variable {m} {kIpad kOpad : Nat}

/-- The key in use, and nothing else that the caller can see. -/
theorem hmacKey_spec (c : Crypto) (key : Buffer top keylen) :
    ∃ m₁ addr len, hmacKey c m (top + 128) key.addr keylen = (m₁, addr, len) ∧
      AgreesBelow top m₁ m ∧ len ≤ 64 ∧ Apart top 128 addr len ∧
      m₁.read addr len
        = if keylen > Crypto.blake2sBlock then (c.hash (key.read m)).toList else key.read m := by
  have hlive := key.live
  unfold hmacKey
  by_cases hlong : keylen > Crypto.blake2sBlock
  · refine ⟨_, _, _, if_pos hlong, (AgreesBelow.refl m).writeLocal (by omega) _, by decide,
      Or.inl (Nat.le_refl _), ?_⟩
    rw [if_pos hlong]
    exact read_write_of_length (by simp)
  · refine ⟨_, _, _, if_neg hlong, AgreesBelow.refl m, Nat.not_lt.mp hlong, Or.inr hlive, ?_⟩
    rw [if_neg hlong]
    rfl

/-- What the loop over the pads has done after `n` turns. -/
theorem hmacXor_turns (hapart : kIpad + 64 ≤ kOpad) {n : Nat} (hn : n ≤ 64) (a : Nat) :
    (List.range n).foldl (fun (m : Memory) i =>
        let m := m.set (kIpad + i) (m (kIpad + i) ^^^ 0x36)
        m.set (kOpad + i) (m (kOpad + i) ^^^ 0x5c)) m a
      = if kIpad ≤ a ∧ a < kIpad + n then m a ^^^ 0x36
        else if kOpad ≤ a ∧ a < kOpad + n then m a ^^^ 0x5c else m a := by
  induction n generalizing a with
  | zero =>
      rw [if_neg (by omega), if_neg (by omega)]
      rfl
  | succ n ih =>
      have hle : n ≤ 64 := Nat.le_of_succ_le hn
      rw [List.range_succ, List.foldl_append, List.foldl_cons, List.foldl_nil]
      dsimp only
      rw [set_apply, set_apply, set_apply, ih hle, ih hle, ih hle]
      by_cases hopad : a = kOpad + n
      · subst hopad
        rw [if_pos rfl, if_neg (by omega), if_neg (by omega), if_neg (by omega), if_neg (by omega),
          if_pos (by omega)]
      · rw [if_neg hopad]
        by_cases hipad : a = kIpad + n
        · subst hipad
          rw [if_pos rfl, if_neg (by omega), if_neg (by omega), if_pos (by omega)]
        · rw [if_neg hipad]
          refine if_congr (by omega) rfl (if_congr (by omega) rfl rfl)

/-- Each pad is xored with its byte, and nothing else changes. -/
theorem hmacXor_spec (m : Memory) (top : Nat) :
    (hmacXor m top (top + 64)).read top 64 = (m.read top 64).map (· ^^^ 0x36) ∧
    (hmacXor m top (top + 64)).read (top + 64) 64 = (m.read (top + 64) 64).map (· ^^^ 0x5c) ∧
    AgreesBelow top (hmacXor m top (top + 64)) m := by
  have happly : ∀ a, hmacXor m top (top + 64) a
      = if top ≤ a ∧ a < top + 64 then m a ^^^ 0x36
        else if top + 64 ≤ a ∧ a < top + 64 + 64 then m a ^^^ 0x5c else m a :=
    fun a => hmacXor_turns (Nat.le_refl _) (Nat.le_refl 64) a
  refine ⟨?_, ?_, ?_⟩
  · unfold Memory.read
    rw [List.map_map]
    refine List.map_congr_left fun i hi => ?_
    have hlt := List.mem_range.mp hi
    rw [happly, if_pos (by omega)]
    rfl
  · unfold Memory.read
    rw [List.map_map]
    refine List.map_congr_left fun i hi => ?_
    have hlt := List.mem_range.mp hi
    rw [happly, if_neg (by omega), if_pos (by omega)]
    rfl
  · intro a ha
    rw [happly, if_neg (by omega), if_neg (by omega)]

/-- Each pad holds the key and zeros behind it. -/
theorem hmacPads_spec {m : Memory} {key len : Nat} (hlen : len ≤ 64)
    (hapart : Apart top 128 key len) :
    (hmacPads m top (top + 64) key len).read top 64
        = m.read key len ++ List.replicate (64 - len) 0 ∧
      (hmacPads m top (top + 64) key len).read (top + 64) 64
        = m.read key len ++ List.replicate (64 - len) 0 ∧
      AgreesBelow top (hmacPads m top (top + 64) key len) m := by
  have hlength : ∀ m : Memory, (m.read key len).length = len := fun m => m.length_read key len
  have hkey₁ : ((m.zero top 64).zero (top + 64) 64).read key len = m.read key len := by
    unfold Memory.zero
    rw [read_write_apart, read_write_apart]
    · rw [List.length_replicate]
      unfold Apart at hapart ⊢
      omega
    · rw [List.length_replicate]
      unfold Apart at hapart ⊢
      omega
  have hkey₂ : (((m.zero top 64).zero (top + 64) 64).write top (m.read key len)).read key len
      = m.read key len := by
    rw [read_write_apart, hkey₁]
    rw [hlength]
    unfold Apart at hapart ⊢
    omega
  unfold hmacPads Memory.copy
  rw [hkey₁, hkey₂]
  refine ⟨?_, ?_, ?_⟩
  · rw [read_write_apart, read_write_start, hlength]
    · congr 1
      unfold Memory.zero
      rw [read_write_apart]
      · exact read_zero_part (by omega) (by omega)
      · rw [List.length_replicate]
        exact Or.inr (by omega)
    · rw [hlength]
      exact hlen
    · exact Or.inr (by omega)
  · rw [read_write_start, hlength]
    · congr 1
      rw [read_write_apart]
      · exact read_zero_part (by omega) (by omega)
      · rw [hlength]
        exact Or.inl (by omega)
    · rw [hlength]
      exact hlen
  · unfold Memory.zero
    refine AgreesBelow.writeLocal (AgreesBelow.writeLocal (AgreesBelow.writeLocal
      ((AgreesBelow.refl m).writeLocal ?_ _) ?_ _) ?_ _) ?_ _ <;> omega

/-- **`wg_hmac` leaves the HMAC in its output, whatever the output overlaps.** -/
theorem wgHmac_spec (out : Buffer top 32) (key : Buffer top keylen) (inp : Buffer top inlen) :
    AgreesBelow top (wgHmac h m out key inp)
      (m.write out.addr (c.hmac (key.read m) (inp.read m)).toList) := by
  obtain ⟨m₁, addr, len, hkey, hsame₁, hlen, hapart, hread⟩ := hmacKey_spec (m := m) c key
  obtain ⟨hipad, hopad, hsame₂⟩ := hmacPads_spec (m := m₁) hlen hapart
  obtain ⟨hipadX, hopadX, hsame₃⟩ := hmacXor_spec (hmacPads m₁ top (top + 64) addr len) top
  rw [hipad] at hipadX
  rw [hopad] at hopadX
  have hsame : AgreesBelow top (hmacXor (hmacPads m₁ top (top + 64) addr len) top (top + 64)) m :=
    hsame₃.trans (hsame₂.trans hsame₁)
  have hout := out.live
  unfold wgHmac
  dsimp only
  rw [hkey]
  dsimp only
  generalize hmacXor (hmacPads m₁ top (top + 64) addr len) top (top + 64) = m₃ at hsame hipadX hopadX ⊢
  -- the first hash goes to the output, where the second one reads it
  rw [h.final_two, h.final_two, hipadX, hsame.read inp.live]
  have hdigest : ∀ d : Key, (m₃.write out.addr d.toList).read out.addr 32 = d.toList :=
    fun d => read_write_of_length d.toList_length
  have hpad : ∀ d : Key, (m₃.write out.addr d.toList).read (top + 64) 64 = m₃.read (top + 64) 64 := by
    intro d
    refine read_write_apart (Or.inl ?_)
    rw [d.toList_length]
    omega
  rw [hdigest, hpad, hopadX, write_write (by rw [List.Vector.toList_length, List.Vector.toList_length])]
  have hmac : c.hmac (key.read m) (inp.read m)
      = c.hash ((m₁.read addr len ++ List.replicate (64 - len) 0).map (· ^^^ 0x5c) ++
          (c.hash ((m₁.read addr len ++ List.replicate (64 - len) 0).map (· ^^^ 0x36) ++
            m.read inp.addr inlen)).toList) := by
    have hlength : (m₁.read addr len).length = len := m₁.length_read addr len
    unfold Crypto.hmac
    dsimp only
    rw [Buffer.length_read, ← hread, hlength]
    rfl
  rw [hmac]
  refine AgreesBelow.writeLocal (AgreesBelow.writeLocal (AgreesBelow.writeLocal
    (hsame.write _ _) ?_ _) ?_ _) ?_ _ <;> omega

/-! ### The chain of keys -/

/-- Between two HMACs of a derivation: what its arrays hold, and what its caller sees. -/
structure Deriving (top : Nat) (tau0 output : Key) (seen m : Memory) : Prop where
  tau0 : m.read top 32 = tau0.toList
  output : m.read (top + 32) 32 = output.toList
  seen : AgreesBelow top m seen

variable {tau0 output : Key} {seen : Memory}

/-- An HMAC into `output` under `tau0`; the input may be the output's old content. -/
theorem Deriving.hmac (hm : m.read top 32 = tau0.toList) (hseen : AgreesBelow top m seen)
    (len : Nat) (hlen : 32 + len ≤ kdfFrame) :
    Deriving top tau0 (c.hmac tau0.toList (m.read (top + 32) len)) seen
      (wgHmac h m (.inFrame top 32 32 (by decide)) (.inFrame top 0 32 (by decide))
        (.inFrame top 32 len hlen)) := by
  have hspec := wgHmac_spec (m := m) h (.inFrame top 32 32 (by decide) : Buffer (top + kdfFrame) 32)
    (.inFrame top 0 32 (by decide)) (.inFrame top 32 len hlen)
  have hkey : (Buffer.inFrame top 0 32 (by decide) : Buffer (top + kdfFrame) 32).read m
      = tau0.toList := hm
  rw [hkey, Buffer.inFrame_addr] at hspec
  refine ⟨?_, ?_, ?_⟩
  · rw [hspec.read (by unfold kdfFrame; omega), read_write_apart (Or.inr (Nat.le_refl _)), hm]
  · rw [hspec.read (by unfold kdfFrame; omega)]
    exact read_write_of_length (List.Vector.toList_length _)
  · exact (hspec.mono (Nat.le_add_right _ _)).trans (hseen.writeLocal (Nat.le_add_right _ _) _)

theorem kdfStart_spec (chainingKey : Buffer top 32) (data : Buffer top datalen) :
    Deriving top (c.hmac (chainingKey.read m) (data.read m))
      (c.hmac (c.hmac (chainingKey.read m) (data.read m)).toList [1]) m
      (kdfStart h m chainingKey data) := by
  have hspec := wgHmac_spec (m := m) h (.inFrame top 0 32 (by decide) : Buffer (top + kdfFrame) 32)
    (chainingKey.under kdfFrame) (data.under kdfFrame)
  have htau0 : (wgHmac h m (.inFrame top 0 32 (by decide) : Buffer (top + kdfFrame) 32)
      (chainingKey.under kdfFrame) (data.under kdfFrame)).read top 32
        = (c.hmac (chainingKey.read m) (data.read m)).toList := by
    rw [hspec.read (by unfold kdfFrame; omega)]
    exact read_write_of_length (List.Vector.toList_length _)
  have hseen := (hspec.mono (Nat.le_add_right top kdfFrame)).trans
    ((AgreesBelow.refl m).writeLocal (Nat.le_refl _) _)
  unfold kdfStart
  dsimp only
  generalize wgHmac h m (.inFrame top 0 32 (by decide) : Buffer (top + kdfFrame) 32)
    (chainingKey.under kdfFrame) (data.under kdfFrame) = m₁ at htau0 hseen ⊢
  have hset : (m₁.set (top + 32) 1).read top 32 = (c.hmac (chainingKey.read m) (data.read m)).toList := by
    unfold Memory.set
    rw [read_write_apart (Or.inr (Nat.le_refl _)), htau0]
  have hone : (m₁.set (top + 32) 1).read (top + 32) 1 = [1] := read_write_of_length rfl
  have hnext := Deriving.hmac h hset (hseen.writeLocal (Nat.le_add_right _ _) [1]) 1 (by decide)
  rw [hone] at hnext
  exact hnext

theorem Deriving.next (hd : Deriving top tau0 output seen m) (k : Byte) :
    Deriving top tau0 (c.hmac tau0.toList (output.toList ++ [k])) seen (kdfNext h m top k) := by
  have hset : (m.set (top + 32 + 32) k).read top 32 = tau0.toList := by
    unfold Memory.set
    rw [read_write_apart (Or.inr (by omega)), hd.tau0]
  have hinput : (m.set (top + 32 + 32) k).read (top + 32) 33 = output.toList ++ [k] := by
    rw [read_snoc_set, hd.output]
  have hnext := Deriving.hmac h hset (hd.seen.writeLocal (by omega) [k]) 33 (by decide)
  rw [hinput] at hnext
  exact hnext

/-- The key goes to the caller. -/
theorem Deriving.copy (hd : Deriving top tau0 output seen m) (t : Buffer top 32) :
    Deriving top tau0 output (seen.write t.addr output.toList) (m.copy t.addr (top + 32) 32) := by
  have hlive := t.live
  have hlength := output.toList_length
  unfold Memory.copy
  rw [hd.output]
  refine ⟨?_, ?_, hd.seen.write _ _⟩
  · rw [read_write_apart (Or.inl (by omega)), hd.tau0]
  · rw [read_write_apart (Or.inl (by omega)), hd.output]

theorem Deriving.wipe (hd : Deriving top tau0 output seen m) :
    AgreesBelow top (kdfWipe m top) seen :=
  (hd.seen.writeLocal (Nat.le_refl _) _).writeLocal (Nat.le_add_right _ _) _

/-! ### What the caller finds -/

theorem wgKdf1_spec (t1 chainingKey : Buffer top 32) (data : Buffer top datalen) {ck : Key}
    (hck : chainingKey.read m = ck.toList) :
    AgreesBelow top (wgKdf1 h m t1 chainingKey data)
      (m.write t1.addr (c.kdf1 ck (data.read m)).toList) := by
  have hstart := kdfStart_spec (m := m) h chainingKey data
  rw [hck] at hstart
  exact (hstart.copy t1).wipe

theorem wgKdf2_spec (t1 t2 chainingKey : Buffer top 32) (data : Buffer top datalen) {ck : Key}
    (hck : chainingKey.read m = ck.toList) :
    AgreesBelow top (wgKdf2 h m t1 t2 chainingKey data)
      ((m.write t1.addr (c.kdf2 ck (data.read m)).1.toList).write t2.addr
        (c.kdf2 ck (data.read m)).2.toList) := by
  have hstart := kdfStart_spec (m := m) h chainingKey data
  rw [hck] at hstart
  exact (((hstart.copy t1).next h 2).copy t2).wipe

theorem wgKdf3_spec (t1 t2 t3 chainingKey : Buffer top 32) (data : Buffer top datalen) {ck : Key}
    (hck : chainingKey.read m = ck.toList) :
    AgreesBelow top (wgKdf3 h m t1 t2 t3 chainingKey data)
      (((m.write t1.addr (c.kdf3 ck (data.read m)).1.toList).write t2.addr
        (c.kdf3 ck (data.read m)).2.1.toList).write t3.addr
          (c.kdf3 ck (data.read m)).2.2.toList) := by
  have hstart := kdfStart_spec (m := m) h chainingKey data
  rw [hck] at hstart
  exact (((((hstart.copy t1).next h 2).copy t2).next h 3).copy t3).wipe

/-! ### The standard functions -/

/-- HMAC over the hash with 64-byte blocks. -/
def rfcHmac (c : Crypto) (key text : List Byte) : List Byte :=
  hmac (fun a => (c.hash a).toList) 64 key text

/-- The `i`-th key of the HKDF chain. -/
def tau (c : Crypto) (key data : List Byte) (i : Nat) : List Byte := derive (rfcHmac c) key data i

theorem hmac_eq_rfcHmac (key text : List Byte) : (c.hmac key text).toList = rfcHmac c key text := by
  have hlength : (blockKey (fun a => (c.hash a).toList) 64 key).length = 64 :=
    length_blockKey _ _ (fun a => by rw [List.Vector.toList_length]; decide) key
  have hxor : ∀ v : Byte, xorBytes (blockKey (fun a => (c.hash a).toList) 64 key)
      (List.replicate 64 v) = (blockKey (fun a => (c.hash a).toList) 64 key).map (· ^^^ v) := by
    intro v
    have h := xorBytes_replicate (blockKey (fun a => (c.hash a).toList) 64 key) v
    rwa [hlength] at h
  unfold rfcHmac hmac opad ipad
  rw [hxor, hxor]
  rfl

/-- **The derivations of the protocol core are the chain.** -/
theorem kdf_eq_tau (ck : Key) (data : List Byte) :
    (c.kdf1 ck data).toList = tau c ck.toList data 1 ∧
    ((c.kdf2 ck data).1.toList = tau c ck.toList data 1 ∧
      (c.kdf2 ck data).2.toList = tau c ck.toList data 2) ∧
    ((c.kdf3 ck data).1.toList = tau c ck.toList data 1 ∧
      (c.kdf3 ck data).2.1.toList = tau c ck.toList data 2 ∧
      (c.kdf3 ck data).2.2.toList = tau c ck.toList data 3) := by
  have hone : (c.kdf1 ck data).toList = tau c ck.toList data 1 := by
    unfold Crypto.kdf1
    rw [hmac_eq_rfcHmac, hmac_eq_rfcHmac]
    rfl
  have htwo : (c.kdf2 ck data).2.toList = tau c ck.toList data 2 := by
    show (c.hmac _ ((c.kdf1 ck data).toList ++ [2])).toList = _
    rw [hmac_eq_rfcHmac, hmac_eq_rfcHmac, hone]
    rfl
  have hthree : (c.kdf3 ck data).2.2.toList = tau c ck.toList data 3 := by
    show (c.hmac _ ((c.kdf2 ck data).2.toList ++ [3])).toList = _
    rw [hmac_eq_rfcHmac, hmac_eq_rfcHmac, htwo]
    rfl
  exact ⟨hone, ⟨hone, htwo⟩, hone, htwo, hthree⟩

/-- **The driver's derivations are HMAC and the HKDF chain, in place.**  Whatever the buffers
overlap, the outputs hold what the inputs held before the call derives, and the caller sees
no other change. -/
theorem derivations_exact (h : Streamed c.hash) (m : Memory) (top : Nat) :
    (∀ (keylen inlen : Nat) (out : Buffer top 32) (key : Buffer top keylen)
      (inp : Buffer top inlen),
      Leaves top m (wgHmac h m out key inp) [(out.addr, rfcHmac c (key.read m) (inp.read m))]) ∧
    (∀ (datalen : Nat) (t1 ck : Buffer top 32) (data : Buffer top datalen),
      Leaves top m (wgKdf1 h m t1 ck data) [(t1.addr, tau c (ck.read m) (data.read m) 1)]) ∧
    (∀ (datalen : Nat) (t1 t2 ck : Buffer top 32) (data : Buffer top datalen),
      Leaves top m (wgKdf2 h m t1 t2 ck data)
        [(t1.addr, tau c (ck.read m) (data.read m) 1),
          (t2.addr, tau c (ck.read m) (data.read m) 2)]) ∧
    ∀ (datalen : Nat) (t1 t2 t3 ck : Buffer top 32) (data : Buffer top datalen),
      Leaves top m (wgKdf3 h m t1 t2 t3 ck data)
        [(t1.addr, tau c (ck.read m) (data.read m) 1),
          (t2.addr, tau c (ck.read m) (data.read m) 2),
          (t3.addr, tau c (ck.read m) (data.read m) 3)] := by
  have hkey : ∀ ck : Buffer top 32, ∃ k : Key, ck.read m = k.toList :=
    fun ck => ⟨⟨ck.read m, ck.length_read m⟩, rfl⟩
  have hlive : ∀ (t : Buffer top 32) (k : Key), t.addr + k.toList.length ≤ top := by
    intro t k
    rw [k.toList_length]
    exact t.live
  refine ⟨?_, ?_, ?_, ?_⟩
  · intro keylen inlen out key inp
    rw [← hmac_eq_rfcHmac]
    refine Leaves.of_effect (wgHmac_spec h out key inp) ?_
    exact List.forall_mem_singleton.mpr (hlive out _)
  · intro datalen t1 ck data
    obtain ⟨k, hk⟩ := hkey ck
    obtain ⟨hone, -⟩ := kdf_eq_tau (c := c) k (data.read m)
    rw [hk, ← hone]
    refine Leaves.of_effect (wgKdf1_spec h t1 ck data hk) ?_
    exact List.forall_mem_singleton.mpr (hlive t1 _)
  · intro datalen t1 t2 ck data
    obtain ⟨k, hk⟩ := hkey ck
    obtain ⟨-, ⟨hone, htwo⟩, -⟩ := kdf_eq_tau (c := c) k (data.read m)
    rw [hk, ← hone, ← htwo]
    refine Leaves.of_effect (wgKdf2_spec h t1 t2 ck data hk) ?_
    exact List.forall_mem_cons.mpr ⟨hlive t1 _, List.forall_mem_singleton.mpr (hlive t2 _)⟩
  · intro datalen t1 t2 t3 ck data
    obtain ⟨k, hk⟩ := hkey ck
    obtain ⟨-, -, hone, htwo, hthree⟩ := kdf_eq_tau (c := c) k (data.read m)
    rw [hk, ← hone, ← htwo, ← hthree]
    refine Leaves.of_effect (wgKdf3_spec h t1 t2 t3 ck data hk) ?_
    exact List.forall_mem_cons.mpr ⟨hlive t1 _,
      List.forall_mem_cons.mpr ⟨hlive t2 _, List.forall_mem_singleton.mpr (hlive t3 _)⟩⟩

/-- The chaining key derived over itself, with a hash that keeps what it is fed. -/
theorem derivations_exact_sample :
    Leaves 48 (fun _ => 7)
      (wgKdf1 (Streamed.buffered Crypto.plain.hash) (fun _ => 7) (⟨0, by decide⟩ : Buffer 48 32)
        ⟨0, by decide⟩ (⟨24, by decide⟩ : Buffer 48 16))
      [(0, tau Crypto.plain (List.replicate 32 7) (List.replicate 16 7) 1)] := by
  obtain ⟨-, hkdf1, -⟩ := derivations_exact (Streamed.buffered Crypto.plain.hash) (fun _ => 7) 48
  exact hkdf1 16 ⟨0, by decide⟩ ⟨0, by decide⟩ ⟨24, by decide⟩

end NuttxWireguard.Kernel
