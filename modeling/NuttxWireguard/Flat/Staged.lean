/-
The staged configuration (`wg_set_private_key`, `wg_set_peer`, `wg_remove_peer`).

Before `wg up` the commands only fill a table of texts: the private key and the peers, with
what of them was given.  `wg_initialize` turns the table into peers, or takes the single
peer the build was configured with when the table is empty.

The array of peers and its count are a list; what the array holds behind the count is never
read.  An `int` has 32 bits.
-/
import NuttxWireguard.Flat.System
import NuttxWireguard.Lib.CText

namespace NuttxWireguard.Flat

open Lib

/-! ### Keys as text -/

/-- `base64_lookup`. -/
def base64Lookup : Text :=
  ['A', 'B', 'C', 'D', 'E', 'F', 'G', 'H', 'I', 'J', 'K', 'L', 'M', 'N', 'O', 'P',
   'Q', 'R', 'S', 'T', 'U', 'V', 'W', 'X', 'Y', 'Z', 'a', 'b', 'c', 'd', 'e', 'f',
   'g', 'h', 'i', 'j', 'k', 'l', 'm', 'n', 'o', 'p', 'q', 'r', 's', 't', 'u', 'v',
   'w', 'x', 'y', 'z', '0', '1', '2', '3', '4', '5', '6', '7', '8', '9', '+', '/']

/-- The variables of the loop in `wireguard_base64_decode`. -/
structure Base64 where
  accum : U32
  charCount : Nat
  byteCount : Nat
  out : List Byte

/-- The bits a character stands for, and how many bytes its group will give. -/
def Base64.bits (st : Base64) (ch : Char) : Option (U32 × Nat) :=
  if ch = '=' then
    if st.byteCount = 0 then none else some (0, st.byteCount - 1)
  else if st.byteCount ≠ 3 then none
  else (base64Lookup.idxOf? ch).map fun i => (BitVec.ofNat 32 i &&& 0x3f, st.byteCount)

/-- The bytes of a group that is full. -/
def Base64.group (accum : U32) (byteCount : Nat) : List Byte :=
  (accum >>> 16).setWidth 8 ::
    ((if byteCount > 1 then [(accum >>> 8).setWidth 8] else []) ++
      if byteCount > 2 then [accum.setWidth 8] else [])

/-- The loop of `wireguard_base64_decode`; `none` is a `break` with the result false. -/
def base64Loop (outlen : Nat) : Base64 → Text → Option Base64
  | st, [] => some st
  | st, ch :: rest =>
    match st.bits ch with
    | none => none
    | some (bits, byteCount) =>
      let accum := (st.accum <<< 6) ||| bits
      if st.charCount + 1 = 4 then
        if st.out.length + byteCount > outlen then none
        else base64Loop outlen ⟨0, 0, byteCount, st.out ++ Base64.group accum byteCount⟩ rest
      else base64Loop outlen ⟨accum, st.charCount + 1, byteCount, st.out⟩ rest

/-- `wireguard_base64_decode`, into a buffer of `outlen` bytes: the bytes, if it succeeds. -/
def wireguardBase64Decode (outlen : Nat) (str : Text) : Option (List Byte) :=
  match base64Loop outlen ⟨0, 0, 3, []⟩ str with
  | none => none
  | some st => if st.charCount ≠ 0 then none else some st.out

/-- `wg_decode_key`. -/
def wgDecodeKey (b64 : Text) : Option Key :=
  match wireguardBase64Decode 32 b64 with
  | none => none
  | some out => if out.length ≠ 32 then none else some (slice out 0 32)

/-- `WG_KEY_STRLEN`. -/
def wgKeyStrlen : Nat := 48

/-! ### The table -/

/-- The configuration the port is built with (`CONFIG_NET_WIREGUARD_*`), and its target. -/
structure Kconfig where
  privateKey : Text
  listenPort : BitVec 32
  peerPublicKey : Text
  peerEndpointIp : Text
  peerEndpointPort : BitVec 32
  peerAllowedIp : Text
  peerAllowedMask : Text
  peerKeepalive : BitVec 32
  long : LongWidth

/-- `struct wg_staged_peer_s`. -/
structure StagedPeer where
  publicKey : Text
  endpointIp : Text
  allowedIp : Text
  allowedMask : Text
  endpointPort : U16
  keepalive : BitVec 32
  deriving DecidableEq

/-- `struct wg_staged_s`. -/
structure Staged where
  privateKey : Text
  peers : List StagedPeer
  deriving DecidableEq

/-- What a fresh program has. -/
def Staged.empty : Staged := ⟨[], []⟩

/-- Error returns, less their signs. -/
inductive Errno
  | einval
  | ebusy
  | enospc
  | enoent
  | enodata
  deriving DecidableEq

/-- `wg_cfg_str`. -/
def wgCfgStr (staged kconfig : Text) : Text := if staged ≠ [] then staged else kconfig

/-- `INET_ADDRSTRLEN`. -/
def inetAddrstrlen : Nat := 16

/-- `wg_set_private_key`; `registered` says that the device is up. -/
def wgSetPrivateKey (registered : Bool) (st : Staged) (b64 : Text) : Except Errno Staged :=
  if registered then .error .ebusy
  else
    match wgDecodeKey b64 with
    | none => .error .einval
    | some _ => .ok { st with privateKey := strlcpy wgKeyStrlen b64 }

/-- A peer that is new, with what the build says of its allowed-ips. -/
def StagedPeer.fresh (kc : Kconfig) (pubkey : Text) : StagedPeer where
  publicKey := strlcpy wgKeyStrlen pubkey
  endpointIp := []
  allowedIp := strlcpy inetAddrstrlen kc.peerAllowedIp
  allowedMask := strlcpy inetAddrstrlen kc.peerAllowedMask
  endpointPort := 0
  keepalive := -1

/-- `"address:port"`. -/
def StagedPeer.setEndpoint (w : LongWidth) (tmp : StagedPeer) (endpoint : Text) : Option StagedPeer :=
  match strrchr ':' (strlcpy (inetAddrstrlen + 8) endpoint) with
  | none => none
  | some (scratch, sep) =>
    let port := atoi w sep
    if port ≤ 0 ∨ port > 65535 then none
    else
      match inetPton scratch with
      | none => none
      | some _ => some { tmp with
          endpointIp := strlcpy inetAddrstrlen scratch
          endpointPort := BitVec.ofInt 16 port }

/-- The mask of a prefix length, in network byte order. -/
def maskOfPrefix (len : Int) : U32 :=
  if len = 0 then 0 else ntohl (0xffffffff <<< (32 - len).toNat)

/-- `"address/prefix"`, or a bare address. -/
def StagedPeer.setAllowed (w : LongWidth) (tmp : StagedPeer) (allowed : Text) : Option StagedPeer :=
  let scratch := strlcpy (inetAddrstrlen + 8) allowed
  let (addr, len) :=
    match strchr '/' scratch with
    | none => (scratch, 32)
    | some (addr, sep) => (addr, atoi w sep)
  if len < 0 ∨ len > 32 then none
  else
    match inetPton addr with
    | none => none
    | some _ => some { tmp with
        allowedIp := strlcpy inetAddrstrlen addr
        allowedMask := inetNtop (maskOfPrefix len) }

/-- What `wg_set_peer` makes of its local copy: the fields that are given. -/
def StagedPeer.edit (w : LongWidth) (tmp : StagedPeer) (endpoint allowed : Option Text)
    (keepalive : BitVec 32) : Option StagedPeer := do
  let tmp ← match endpoint with
    | none => some tmp
    | some endpoint => tmp.setEndpoint w endpoint
  let tmp ← match allowed with
    | none => some tmp
    | some allowed => tmp.setAllowed w allowed
  some (if keepalive.toInt ≥ 0 then { tmp with keepalive := keepalive } else tmp)

/-- The loop that looks a public key up: where the entry is. -/
def findPeer (peers : List StagedPeer) (pubkey : Text) : Option Nat :=
  peers.findIdx? fun p => decide (p.publicKey = pubkey)

/-- `wg_set_peer`; `none` is a null pointer. -/
def wgSetPeer (kc : Kconfig) (maxPeers : Nat) (registered : Bool) (st : Staged)
    (pubkey endpoint allowed : Option Text) (keepalive : BitVec 32) : Except Errno Staged :=
  if registered then .error .ebusy
  else
    match pubkey with
    | none => .error .einval
    | some pubkey =>
      match wgDecodeKey pubkey with
      | none => .error .einval
      | some _ =>
        match findPeer st.peers pubkey with
        | some i =>
          match (st.peers.getD i (.fresh kc pubkey)).edit kc.long endpoint allowed keepalive with
          | none => .error .einval
          | some tmp => .ok { st with peers := st.peers.set i tmp }
        | none =>
          if st.peers.length ≥ maxPeers then .error .enospc
          else
            match (StagedPeer.fresh kc pubkey).edit kc.long endpoint allowed keepalive with
            | none => .error .einval
            | some tmp => .ok { st with peers := st.peers ++ [tmp] }

/-- `wg_remove_peer`. -/
def wgRemovePeer (registered : Bool) (st : Staged) (pubkey : Text) : Except Errno Staged :=
  if registered then .error .ebusy
  else
    match findPeer st.peers pubkey with
    | none => .error .enoent
    | some i => .ok { st with peers := st.peers.eraseIdx i }

/-! ### What becomes of it -/

/-- What `wg_add_peer` reads out of an entry. -/
def StagedPeer.config (kc : Kconfig) (p : StagedPeer) : PeerConfig where
  publicKey := wgDecodeKey p.publicKey
  keepalive := (if p.keepalive.toInt ≥ 0 then p.keepalive else kc.peerKeepalive).setWidth 16
  allowedIp := inetPton p.allowedIp
  allowedMask := inetPton p.allowedMask
  endpointIp := if p.endpointIp.length > 0 then inetPton p.endpointIp else none
  endpointPort := if p.endpointPort ≠ 0 then p.endpointPort else kc.peerEndpointPort.setWidth 16

/-- The peer of the build: `kcfg` in `wg_configure_peer` and in `wg_writeconf`. -/
def Kconfig.peer (kc : Kconfig) : StagedPeer where
  publicKey := strlcpy wgKeyStrlen kc.peerPublicKey
  endpointIp := strlcpy inetAddrstrlen kc.peerEndpointIp
  allowedIp := strlcpy inetAddrstrlen kc.peerAllowedIp
  allowedMask := strlcpy inetAddrstrlen kc.peerAllowedMask
  endpointPort := kc.peerEndpointPort.setWidth 16
  keepalive := kc.peerKeepalive

/-- The peers `wg_configure_peer` adds. -/
def wgConfigurePeer (kc : Kconfig) (st : Staged) : List StagedPeer :=
  if st.peers.length > 0 then st.peers
  else if kc.peerPublicKey.length = 0 then []
  else [kc.peer]

/-- What `wg_initialize` starts from: the private key, if there is one, and the peers. -/
def wgStagedKey (kc : Kconfig) (st : Staged) : Option Key :=
  let keystr := wgCfgStr st.privateKey kc.privateKey
  if keystr.length = 0 then none else wgDecodeKey keystr

/-- `wg_initialize` from a staged configuration, with operating system calls that succeed. -/
def wgInitializeStaged {cfg : Config} (c : Crypto) (env : Env cfg) (probe : Key) (kc : Kconfig)
    (st : Staged) : Option (Netdev cfg) :=
  match wgStagedKey kc st with
  | none => none
  | some key => wgInitialize c env probe key ((wgConfigurePeer kc st).map (·.config kc))

/-! ### Texts of keys -/

theorem base64Loop_cons {outlen : Nat} {ch : Char} {s : Text} {st fin : Base64}
    (h : base64Loop outlen st (ch :: s) = some fin) : ∃ bits byteCount,
      st.bits ch = some (bits, byteCount) ∧
      ((st.charCount + 1 = 4 ∧ base64Loop outlen ⟨0, 0, byteCount,
          st.out ++ Base64.group ((st.accum <<< 6) ||| bits) byteCount⟩ s = some fin) ∨
        (st.charCount + 1 ≠ 4 ∧ base64Loop outlen
          ⟨(st.accum <<< 6) ||| bits, st.charCount + 1, byteCount, st.out⟩ s = some fin)) := by
  unfold base64Loop at h
  split at h
  · cases h
  · rename_i bits byteCount hbits
    refine ⟨bits, byteCount, hbits, ?_⟩
    dsimp only at h
    split at h
    · rename_i hfull
      split at h
      · cases h
      · exact Or.inl ⟨hfull, h⟩
    · rename_i hfull
      exact Or.inr ⟨hfull, h⟩

/-- A character is padding, or one of the table in front of all padding. -/
theorem Base64.bits_cases {st : Base64} {ch : Char} {bits : U32} {byteCount : Nat}
    (h : st.bits ch = some (bits, byteCount)) :
    (ch = '=' ∧ byteCount + 1 = st.byteCount) ∨
      (ch ∈ base64Lookup ∧ st.byteCount = 3 ∧ byteCount = 3) := by
  unfold Base64.bits at h
  split at h
  · rename_i hch
    split at h
    · cases h
    · rename_i hne
      cases h
      exact Or.inl ⟨hch, by omega⟩
  · split at h
    · cases h
    · rename_i hthree
      obtain ⟨i, hi, heq⟩ := Option.map_eq_some_iff.mp h
      cases heq
      have hmem : ch ∈ base64Lookup := by
        rw [← List.isSome_idxOf?, hi]
        rfl
      exact Or.inr ⟨hmem, not_not.mp hthree, not_not.mp hthree⟩

/-- Behind padding there is only padding, at most as much as is allowed. -/
theorem base64Loop_padded {outlen : Nat} {s : Text} {st fin : Base64} (hb : st.byteCount < 3)
    (h : base64Loop outlen st s = some fin) :
    s = List.replicate s.length '=' ∧ s.length ≤ st.byteCount := by
  induction s generalizing st with
  | nil => exact ⟨rfl, Nat.zero_le _⟩
  | cons ch s ih =>
      obtain ⟨bits, byteCount, hbits, hrest⟩ := base64Loop_cons h
      rcases Base64.bits_cases hbits with ⟨rfl, hcount⟩ | ⟨-, hthree, -⟩
      · have hs : s = List.replicate s.length '=' ∧ s.length ≤ byteCount := by
          rcases hrest with ⟨-, hrest⟩ | ⟨-, hrest⟩
          · exact ih (show byteCount < 3 by omega) hrest
          · exact ih (show byteCount < 3 by omega) hrest
        refine ⟨?_, by rw [List.length_cons]; omega⟩
        rw [List.length_cons, List.replicate_succ, ← hs.1]
      · omega

theorem Base64.length_group (accum : U32) (byteCount : Nat) :
    (Base64.group accum byteCount).length = max 1 (min byteCount 3) := by
  unfold Base64.group
  split <;> split <;> simp <;> omega

/-- What padding makes of the last group. -/
theorem base64Loop_length_padded {outlen : Nat} {s : Text} {st fin : Base64}
    (hb : st.byteCount < 3) (hc : st.charCount < 4)
    (h : base64Loop outlen st s = some fin) (hfin : fin.charCount = 0) :
    (st.charCount = 0 ∧ s.length = 0 ∧ fin.out.length = st.out.length) ∨
      (0 < st.charCount ∧ st.charCount + s.length = 4 ∧
        fin.out.length = st.out.length + max 1 (st.byteCount - s.length)) := by
  induction s generalizing st with
  | nil =>
      cases h
      exact Or.inl ⟨hfin, rfl, rfl⟩
  | cons ch s ih =>
      obtain ⟨-, hlength⟩ := base64Loop_padded hb h
      obtain ⟨bits, byteCount, hbits, hrest⟩ := base64Loop_cons h
      rw [List.length_cons] at hlength ⊢
      rcases Base64.bits_cases hbits with ⟨-, hcount⟩ | ⟨-, hthree, -⟩
      · rcases hrest with ⟨hfull, hrest⟩ | ⟨hfull, hrest⟩
        · rcases ih (show byteCount < 3 by omega) (show 0 < 4 by decide) hrest with
            ⟨-, hnil, hout⟩ | ⟨hpos, -⟩
          · rw [List.length_append, Base64.length_group] at hout
            exact Or.inr (by omega)
          · exact absurd hpos (Nat.lt_irrefl 0)
        · have hsum := ih (show byteCount < 3 by omega) (show st.charCount + 1 < 4 by omega) hrest
          dsimp only at hsum
          omega
      · omega

/-- What the loop reads and writes, if it ends behind a group. -/
theorem base64Loop_length {outlen : Nat} {s : Text} {st fin : Base64} (hb : st.byteCount = 3)
    (hc : st.charCount < 4) (h : base64Loop outlen st s = some fin) (hfin : fin.charCount = 0) :
    ∃ groups missing, st.charCount + s.length = 4 * groups ∧ missing ≤ 2 ∧
      fin.out.length + missing = st.out.length + 3 * groups := by
  induction s generalizing st with
  | nil =>
      cases h
      exact ⟨0, 0, by rw [hfin]; rfl, by omega, rfl⟩
  | cons ch s ih =>
      obtain ⟨bits, byteCount, hbits, hrest⟩ := base64Loop_cons h
      rw [List.length_cons]
      rcases Base64.bits_cases hbits with ⟨-, hcount⟩ | ⟨-, -, hthree⟩
      · have hpad : byteCount < 3 := by omega
        rcases hrest with ⟨hfull, hrest⟩ | ⟨hfull, hrest⟩
        · have hlast := base64Loop_length_padded hpad (show 0 < 4 by decide) hrest hfin
          dsimp only at hlast
          rw [List.length_append, Base64.length_group] at hlast
          exact ⟨1, 1, by omega, by omega, by omega⟩
        · have hlast := base64Loop_length_padded hpad (show st.charCount + 1 < 4 by omega) hrest hfin
          obtain ⟨-, hlength⟩ := base64Loop_padded hpad hrest
          dsimp only at hlast hlength
          refine ⟨1, 3 - max 1 (byteCount - s.length), by omega, by omega, by omega⟩
      · rcases hrest with ⟨hfull, hrest⟩ | ⟨hfull, hrest⟩
        · obtain ⟨groups, missing, hlength, hmissing, hout⟩ :=
            ih hthree (show 0 < 4 by decide) hrest
          dsimp only at hlength
          rw [List.length_append, Base64.length_group, hthree] at hout
          exact ⟨groups + 1, missing, by omega, hmissing, by omega⟩
        · obtain ⟨groups, missing, hlength, hmissing, hout⟩ :=
            ih hthree (show st.charCount + 1 < 4 by omega) hrest
          dsimp only at hlength
          exact ⟨groups, missing, by omega, hmissing, hout⟩

theorem base64Loop_mem {outlen : Nat} {s : Text} {st fin : Base64}
    (h : base64Loop outlen st s = some fin) : ∀ ch ∈ s, ch ∈ base64Lookup ∨ ch = '=' := by
  induction s generalizing st with
  | nil =>
      intro ch hch
      cases hch
  | cons a s ih =>
      obtain ⟨bits, byteCount, hbits, hrest⟩ := base64Loop_cons h
      intro ch hch
      rcases List.mem_cons.mp hch with rfl | hch
      · rcases Base64.bits_cases hbits with ⟨heq, -⟩ | ⟨hmem, -⟩
        · exact Or.inr heq
        · exact Or.inl hmem
      · rcases hrest with ⟨-, hrest⟩ | ⟨-, hrest⟩
        · exact ih hrest ch hch
        · exact ih hrest ch hch

/-- **The text of a key has 44 characters**, all of the table or padding. -/
theorem wgDecodeKey_text {b64 : Text} {key : Key} (h : wgDecodeKey b64 = some key) :
    b64.length = 44 ∧ ∀ ch ∈ b64, ch ∈ base64Lookup ∨ ch = '=' := by
  unfold wgDecodeKey wireguardBase64Decode at h
  split at h
  · cases h
  · rename_i out hdecode
    split at hdecode
    · cases hdecode
    · rename_i fin hloop
      split at hdecode
      · cases hdecode
      · rename_i hfin
        cases hdecode
        split at h
        · cases h
        · rename_i hout
          obtain ⟨groups, missing, hlength, hmissing, hbytes⟩ :=
            @base64Loop_length 32 b64 ⟨0, 0, 3, []⟩ fin rfl (show 0 < 4 by decide) hloop
              (not_not.mp hfin)
          have hout := not_not.mp hout
          simp only [List.length_nil, Nat.zero_add] at hlength hbytes
          exact ⟨by omega, base64Loop_mem hloop⟩

/-- The text of a key fits its buffer. -/
theorem strlcpy_key {b64 : Text} {key : Key} (h : wgDecodeKey b64 = some key) :
    strlcpy wgKeyStrlen b64 = b64 :=
  List.take_of_length_le (by rw [(wgDecodeKey_text h).1]; decide)

/-! ### What a set writes -/

/-- The address and the prefix length of allowed-ips. -/
def splitPrefix (w : LongWidth) (scratch : Text) : Text × Int :=
  match strchr '/' scratch with
  | none => (scratch, 32)
  | some (addr, sep) => (addr, atoi w sep)

section Writes

variable (tmp : StagedPeer) {tmp' : StagedPeer} {text : Text} {w : LongWidth}

/-- What allowed-ips make of the entry, once they are taken apart. -/
theorem StagedPeer.setAllowed_eq (text : Text) : tmp.setAllowed w text =
    if (splitPrefix w (strlcpy (inetAddrstrlen + 8) text)).2 < 0 ∨
      (splitPrefix w (strlcpy (inetAddrstrlen + 8) text)).2 > 32 then none
    else (inetPton (splitPrefix w (strlcpy (inetAddrstrlen + 8) text)).1).map fun _ => { tmp with
      allowedIp := strlcpy inetAddrstrlen (splitPrefix w (strlcpy (inetAddrstrlen + 8) text)).1
      allowedMask := inetNtop
        (maskOfPrefix (splitPrefix w (strlcpy (inetAddrstrlen + 8) text)).2) } := by
  unfold StagedPeer.setAllowed splitPrefix
  cases hsep : strchr '/' (strlcpy (inetAddrstrlen + 8) text) with
  | none =>
      have hlen : ¬((32 : Int) < 0 ∨ (32 : Int) > 32) := by decide
      simp only [hsep, if_neg hlen]
      cases inetPton (strlcpy (inetAddrstrlen + 8) text) <;> rfl
  | some r =>
      obtain ⟨addr, sep⟩ := r
      simp only [hsep]
      by_cases hlen : atoi w sep < 0 ∨ atoi w sep > 32
      · rw [if_pos hlen, if_pos hlen]
      · rw [if_neg hlen, if_neg hlen]
        cases inetPton addr <;> rfl

theorem StagedPeer.edit_eq (endpoint allowed : Option Text) (keepalive : BitVec 32) :
    tmp.edit w endpoint allowed keepalive
      = (endpoint.elim (some tmp) (tmp.setEndpoint w)).bind fun tmp =>
          (allowed.elim (some tmp) (tmp.setAllowed w)).bind fun tmp =>
            some (if keepalive.toInt ≥ 0 then { tmp with keepalive := keepalive } else tmp) := by
  unfold StagedPeer.edit
  cases endpoint <;> cases allowed <;> rfl

variable {tmp}

/-- An endpoint that is set can be read, and has a port. -/
theorem StagedPeer.setEndpoint_some (h : tmp.setEndpoint w text = some tmp') :
    ∃ host port, (inetPton host).isSome = true ∧ port ≠ 0 ∧
      tmp' = { tmp with endpointIp := host, endpointPort := port } := by
  unfold StagedPeer.setEndpoint at h
  split at h
  · cases h
  · rename_i host sep hsep
    dsimp only at h
    split at h
    · cases h
    · rename_i hport
      split at h
      · cases h
      · rename_i ip hip
        have hcopy : strlcpy inetAddrstrlen host = host := strlcpy_inetPton hip
        rw [hcopy] at h
        refine ⟨host, BitVec.ofInt 16 (atoi w sep), by rw [hip]; rfl, fun hc => ?_,
          (Option.some.inj h).symm⟩
        have hzero := congrArg BitVec.toNat hc
        rw [BitVec.toNat_ofInt] at hzero
        have hlo : (0 : U16).toNat = 0 := rfl
        rw [hlo] at hzero
        omega

/-- Allowed-ips that are set can be read, and their mask is a prefix. -/
theorem StagedPeer.setAllowed_some (h : tmp.setAllowed w text = some tmp') :
    ∃ addr, ∃ len ≤ 32, (inetPton addr).isSome = true ∧
      tmp' = { tmp with
        allowedIp := addr
        allowedMask := inetNtop (maskOfPrefix (len : Nat)) } := by
  rw [tmp.setAllowed_eq] at h
  generalize splitPrefix w (strlcpy (inetAddrstrlen + 8) text) = net at h
  obtain ⟨addr, len⟩ := net
  dsimp only at h
  split at h
  · cases h
  · rename_i hlen
    obtain ⟨ip, hip, heq⟩ := Option.map_eq_some_iff.mp h
    have hcopy : strlcpy inetAddrstrlen addr = addr := strlcpy_inetPton hip
    have hcast : ((len.toNat : Nat) : Int) = len := by omega
    rw [hcopy, ← hcast] at heq
    exact ⟨addr, len.toNat, by omega, by rw [hip]; rfl, heq.symm⟩

end Writes

/-! ### Where a peer stands -/

section Find

variable {peers : List StagedPeer} {text : Text}

theorem findPeer_some {i : Nat} (h : findPeer peers text = some i) :
    ∃ p, peers[i]? = some p ∧ p.publicKey = text := by
  obtain ⟨hlt, hp, -⟩ := List.findIdx?_eq_some_iff_getElem.mp h
  exact ⟨peers[i], List.getElem?_eq_getElem hlt, of_decide_eq_true hp⟩

theorem findPeer_none (h : findPeer peers text = none) : ∀ p ∈ peers, p.publicKey ≠ text := by
  intro p hp hc
  have hnot := List.findIdx?_eq_none_iff.mp h p hp
  rw [hc, decide_eq_true rfl] at hnot
  cases hnot

end Find

/-- **A set that is accepted** writes over the entry with its text, or adds one. -/
theorem wgSetPeer_ok {kc : Kconfig} {maxPeers : Nat} {registered : Bool} {st st' : Staged}
    {pubkey endpoint allowed : Option Text} {keepalive : BitVec 32}
    (h : wgSetPeer kc maxPeers registered st pubkey endpoint allowed keepalive = .ok st') :
    ∃ text key, wgDecodeKey text = some key ∧
      ((∃ (i : Nat) (p tmp : StagedPeer), st.peers[i]? = some p ∧ p.publicKey = text ∧
          p.edit kc.long endpoint allowed keepalive = some tmp ∧
          st' = { st with peers := st.peers.set i tmp }) ∨
        (findPeer st.peers text = none ∧ st.peers.length < maxPeers ∧ ∃ tmp,
          (StagedPeer.fresh kc text).edit kc.long endpoint allowed keepalive = some tmp ∧
          st' = { st with peers := st.peers ++ [tmp] })) := by
  unfold wgSetPeer at h
  split at h
  · cases h
  split at h
  · cases h
  rename_i text
  split at h
  · cases h
  rename_i key hkey
  refine ⟨text, key, hkey, ?_⟩
  split at h
  · rename_i i hfind
    obtain ⟨p, hp, htext⟩ := findPeer_some hfind
    have hget : st.peers.getD i (.fresh kc text) = p := by
      rw [List.getD_eq_getElem?_getD, hp, Option.getD_some]
    rw [hget] at h
    split at h
    · cases h
    · rename_i tmp hedit
      cases h
      exact Or.inl ⟨i, p, tmp, hp, htext, hedit, rfl⟩
  · rename_i hfind
    split at h
    · cases h
    · rename_i hroom
      split at h
      · cases h
      · rename_i tmp hedit
        cases h
        exact Or.inr ⟨hfind, Nat.not_le.mp hroom, tmp, hedit, rfl⟩

/-! ### A small configuration -/

namespace Sample

/-- A text of the key of zeros, with `ch` in front of the padding. -/
def zeroText (ch : Char) : Text := List.replicate 42 'A' ++ [ch, '=']

theorem decode_zeroText : wgDecodeKey (zeroText 'A') = some (Bytes.zero 32) ∧
    wgDecodeKey (zeroText 'B') = some (Bytes.zero 32) := by decide +kernel

/-- The text of a private key. -/
def keyText : Text := ['C'] ++ List.replicate 42 'A' ++ ['=']

/-- A build with a private key, and with the peer that `peer` names. -/
def build (peer : Text) : Kconfig where
  privateKey := keyText
  listenPort := 51820
  peerPublicKey := peer
  peerEndpointIp := []
  peerEndpointPort := 51820
  peerAllowedIp := ['1', '0', '.', '0', '.', '0', '.', '0']
  peerAllowedMask := ['2', '5', '5', '.', '0', '.', '0', '.', '0']
  peerKeepalive := 25
  long := .ilp32

end Sample

end NuttxWireguard.Flat
