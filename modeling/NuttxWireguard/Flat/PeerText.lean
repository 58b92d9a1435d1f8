/-
What `wg_set_peer` makes of its texts.

An endpoint is an address, a colon and a port, and allowed-ips an address with or without a
slash and a prefix length.  The code copies a text into 24 bytes, looks for the separator,
and leaves the number behind it to `atoi`, which stops at the first character that is not a
digit and says zero where there is none.

What a text says and what is staged are the same as long as the text fits the copy and has
nothing but digits behind the separator, of a number that an `int` can hold.  Everything else
that gets through is staged as something the text does not say: an empty prefix length stands
for the whole address space, and where a `long` has 64 bits, port 4294967376 is port 80.
-/
import NuttxWireguard.Flat.PeerTable
import NuttxWireguard.Lib.AddrText

namespace NuttxWireguard.Flat

open Lib

/-! ### What a text says -/

/-- The whole text is an address, a colon and a port. -/
def EndpointText (text : Text) (ep : U32 × U16) : Prop := AddrPort text ep.1 ep.2.toNat

/-- The whole text is an address, or an address, a slash and a prefix length. -/
def AllowedText (text : Text) (net : U32 × U32) : Prop :=
  ∃ len, AddrPrefix text net.1 len ∧ net.2 = netmask len

/-- What the arguments of a set say. -/
structure Said (endpoint allowed : Option Text) (keepalive : BitVec 32) (g : Given) : Prop where
  endpoint : Option.Rel EndpointText endpoint g.endpoint
  allowed : Option.Rel AllowedText allowed g.allowed
  keepalive : g.keepalive = if keepalive.toInt ≥ 0 then some keepalive else none

/-! ### A set that does as it is told -/

/-- Nothing but the texts can be in the way: the device is down, the key is one, and its peer
is there or has room. -/
def Ready (maxPeers : Nat) (registered : Bool) (st : Staged) (pubkey : Option Text) : Prop :=
  registered = false ∧ ∃ text key, pubkey = some text ∧ wgDecodeKey text = some key ∧
    ((∃ i, findPeer st.peers text = some i) ∨
      (findPeer st.peers text = none ∧ st.peers.length < maxPeers))

/-- The peer with the text of the key has what is given, over what it had before; a new one
has it over what the build says. -/
def Stages (kc : Kconfig) (st : Staged) (text : Text) (g : Given) (st' : Staged) : Prop :=
  st'.privateKey = st.privateKey ∧ ∃ tmp : StagedPeer, tmp.publicKey = text ∧
    ((∃ i p, findPeer st.peers text = some i ∧ st.peers[i]? = some p ∧
        tmp.settings = p.settings.update g ∧ st'.peers = st.peers.set i tmp) ∨
      (findPeer st.peers text = none ∧
        tmp.settings = kc.initial.update g ∧ st'.peers = st.peers ++ [tmp]))

/-- **The texts are taken for what they say**: a set is accepted exactly when they say
something, stages just that, and changes nothing when it is refused. -/
structure TakenAtTheirWord (kc : Kconfig) (maxPeers : Nat) (registered : Bool) (st : Staged)
    (pubkey endpoint allowed : Option Text) (keepalive : BitVec 32) : Prop where
  accepted : (∃ st', wgSetPeer kc maxPeers registered st pubkey endpoint allowed keepalive = .ok st') ↔
    Ready maxPeers registered st pubkey ∧ ∃ g, Said endpoint allowed keepalive g
  staged : ∀ st', wgSetPeer kc maxPeers registered st pubkey endpoint allowed keepalive = .ok st' →
    ∃ text g, pubkey = some text ∧ Said endpoint allowed keepalive g ∧ Stages kc st text g st'
  refused : ∀ errno,
    wgSetPeer kc maxPeers registered st pubkey endpoint allowed keepalive = .error errno →
      stage kc maxPeers st (.set registered pubkey endpoint allowed keepalive) = some st

/-! ### Texts without anything else -/

/-- What the copy holds of a text. -/
def scratchLength : Nat := inetAddrstrlen + 8 - 1

/-- The copy holds the text, and there are only digits behind its last colon, of a number that
an `int` can hold. -/
def EndpointPlain (text : Text) : Prop :=
  text.length ≤ scratchLength ∧
    ∀ host tail, strrchr ':' text = some (host, tail) → IntDigits tail

/-- There are digits and nothing else behind a slash, of a number that an `int` can hold; if the
copy does not hold them, they are zeros. -/
def AllowedPlain (text : Text) : Prop :=
  ∀ host tail, strchr '/' text = some (host, tail) →
    tail ≠ [] ∧ IntDigits tail ∧ (text.length ≤ scratchLength ∨ ∀ a ∈ tail, a = '0')

/-- The library finds an address and a port in the copy. -/
def EndpointRead (w : LongWidth) (text : Text) : Prop :=
  ∃ host tail addr, strrchr ':' (text.take scratchLength) = some (host, tail) ∧
    inetPton host = some addr ∧ 1 ≤ atoi w tail ∧ atoi w tail ≤ 65535

/-- It finds an address in the copy, and a prefix length behind a slash. -/
def AllowedRead (w : LongWidth) (text : Text) : Prop :=
  ∃ addr, inetPton (splitPrefix w (text.take scratchLength)).1 = some addr ∧
    0 ≤ (splitPrefix w (text.take scratchLength)).2 ∧
    (splitPrefix w (text.take scratchLength)).2 ≤ 32

/-! ### Masks -/

theorem netmask_table : ∀ i j : Fin 33, netmask i = netmask j → i = j := by decide +kernel

theorem netmask_injective {n m : Nat} (hn : n ≤ 32) (hm : m ≤ 32) (h : netmask n = netmask m) :
    n = m :=
  congrArg Fin.val (netmask_table ⟨n, by omega⟩ ⟨m, by omega⟩ h)

theorem maskOfPrefix_eq (len : Nat) : maskOfPrefix len = netmask len := by
  unfold maskOfPrefix netmask
  by_cases hlen : (len : Int) = 0
  · have hzero : len = 0 := by omega
    rw [if_pos hlen, hzero]
    rfl
  · have hsub : (32 - (len : Int)).toNat = 32 - len := by omega
    rw [if_neg hlen, hsub]
    rfl

/-! ### Endpoints -/

section Endpoint

variable {text : Text} {ep : U32 × U16} {w : LongWidth}

theorem endpointOf_eq : endpointOf w text = some ep ↔
    ∃ host tail, strrchr ':' (text.take scratchLength) = some (host, tail) ∧
      inetPton host = some ep.1 ∧ 1 ≤ atoi w tail ∧ atoi w tail ≤ 65535 ∧
      ep.2 = BitVec.ofInt 16 (atoi w tail) := by
  have hcopy : strlcpy (inetAddrstrlen + 8) text = text.take scratchLength := rfl
  unfold endpointOf
  rw [hcopy]
  cases hsep : strrchr ':' (text.take scratchLength) with
  | none =>
      constructor
      · intro h
        cases h
      · rintro ⟨_, _, h, -⟩
        cases h
  | some r =>
      obtain ⟨host, tail⟩ := r
      dsimp only
      constructor
      · intro h
        split at h
        · cases h
        · obtain ⟨ip, hip, heq⟩ := Option.map_eq_some_iff.mp h
          cases heq
          exact ⟨host, tail, rfl, hip, by omega, by omega, rfl⟩
      · rintro ⟨host', tail', heq, hip, hlo, hhi, hport⟩
        cases heq
        rw [if_neg (by omega), hip, Option.map_some, ← hport]

theorem endpointRead_iff : EndpointRead w text ↔ ∃ ep, endpointOf w text = some ep := by
  constructor
  · rintro ⟨host, tail, addr, hsep, hip, hlo, hhi⟩
    exact ⟨(addr, BitVec.ofInt 16 (atoi w tail)),
      endpointOf_eq.mpr ⟨host, tail, hsep, hip, hlo, hhi, rfl⟩⟩
  · rintro ⟨ep, h⟩
    obtain ⟨host, tail, hsep, hip, hlo, hhi, -⟩ := endpointOf_eq.mp h
    exact ⟨host, tail, ep.1, hsep, hip, hlo, hhi⟩

theorem toNat_ofInt_port {i : Int} (hlo : 1 ≤ i) (hhi : i ≤ 65535) :
    ((BitVec.ofInt 16 i).toNat : Int) = i := by
  rw [BitVec.toNat_ofInt]
  omega

/-- **A plain endpoint is read as what it says.** -/
theorem endpointOf_of_plain (h : EndpointPlain text) :
    endpointOf w text = some ep ↔ EndpointText text ep := by
  obtain ⟨hlength, hdigits⟩ := h
  rw [endpointOf_eq, List.take_of_length_le hlength]
  constructor
  · rintro ⟨host, tail, hsep, hip, hlo, hhi, hport⟩
    have hvalue := toNat_ofInt_port hlo hhi
    have hint := hdigits host tail hsep
    rw [← hport] at hvalue
    rw [hint.atoi_eq] at hlo hhi hvalue
    have hsaid := addrPort_of_read hsep hip hint.1 hlo hhi
    have hnat : (strtol w tail).toNat = ep.2.toNat := by omega
    rw [hnat] at hsaid
    exact hsaid
  · intro hsaid
    have hpos := hsaid.pos
    have hlt := ep.2.isLt
    obtain ⟨host, tail, hsep, hip, hint, hvalue⟩ := AddrPort.read hsaid
    have hatoi : atoi w tail = ep.2.toNat := (hint.atoi_eq).trans hvalue
    refine ⟨host, tail, hsep, hip, by omega, by omega, ?_⟩
    rw [hatoi, BitVec.ofInt_natCast, BitVec.ofNat_toNat, BitVec.setWidth_eq]

/-- **An endpoint that is read as what it says is plain.** A number of which digits are cut
off is smaller. -/
theorem endpointPlain_of (hread : endpointOf w text = some ep) (hsaid : EndpointText text ep) :
    EndpointPlain text := by
  obtain ⟨host, tail, rfl, hip, hnum, -, hport⟩ := hsaid
  have hcolon : ':' ∉ tail := hnum.not_mem rfl
  refine ⟨?_, fun host' tail' hsep => ?_⟩
  · by_contra hlong
    have hhost := (inetPton_text hip).1
    have hroom : scratchLength = 23 := rfl
    -- the copy ends within the number
    have hcopy : (host ++ ':' :: tail).take scratchLength
        = host ++ ':' :: tail.take (22 - host.length) := by
      have hsub : scratchLength - host.length = (22 - host.length) + 1 := by omega
      rw [List.take_append, List.take_of_length_le (by omega), hsub, List.take_succ_cons]
    obtain ⟨host', tail', hsep, -, hlo, hhi, hport'⟩ := endpointOf_eq.mp hread
    rw [hcopy, strrchr_append host fun hmem => hcolon (List.mem_of_mem_take hmem)] at hsep
    obtain ⟨-, rfl⟩ := Prod.mk.inj (Option.some.inj hsep)
    have hvalue := toNat_ofInt_port hlo hhi
    rw [← hport'] at hvalue
    have hcut : tail.take (22 - host.length) ≠ [] := by
      intro hc
      rw [hc, atoi_nil] at hlo
      exact absurd hlo (by decide)
    rw [← List.take_append_drop (22 - host.length) tail] at hnum
    obtain ⟨m, r, hm, -, -, hsum⟩ := hnum.append hcut
    have hdropped : 10 ≤ 10 ^ (tail.drop (22 - host.length)).length := by
      refine Nat.le_self_pow ?_ 10
      rw [List.length_append, List.length_cons] at hlong
      rw [List.length_drop]
      omega
    have hle : 10 * m ≤ 10 ^ (tail.drop (22 - host.length)).length * m :=
      Nat.mul_le_mul_right m hdropped
    have hatoi : atoi w (tail.take (22 - host.length)) = m := atoi_numeral hm (by omega)
    omega
  · rw [strrchr_append host hcolon] at hsep
    obtain ⟨-, rfl⟩ := Prod.mk.inj (Option.some.inj hsep)
    exact hnum.intDigits (by omega)

end Endpoint

/-! ### Allowed-ips -/

section Allowed

variable {text host tail : Text} {net : U32 × U32} {addr : U32} {w : LongWidth}

theorem allowedOf_eq : allowedOf w text = some net ↔
    inetPton (splitPrefix w (text.take scratchLength)).1 = some net.1 ∧
      0 ≤ (splitPrefix w (text.take scratchLength)).2 ∧
      (splitPrefix w (text.take scratchLength)).2 ≤ 32 ∧
      net.2 = maskOfPrefix (splitPrefix w (text.take scratchLength)).2 := by
  have hcopy : strlcpy (inetAddrstrlen + 8) text = text.take scratchLength := rfl
  unfold allowedOf
  rw [hcopy]
  dsimp only
  constructor
  · intro h
    split at h
    · cases h
    · obtain ⟨ip, hip, heq⟩ := Option.map_eq_some_iff.mp h
      cases heq
      exact ⟨hip, by omega, by omega, rfl⟩
  · rintro ⟨hip, hlo, hhi, hmask⟩
    rw [if_neg (by omega), hip, Option.map_some, ← hmask]

theorem allowedRead_iff : AllowedRead w text ↔ ∃ net, allowedOf w text = some net := by
  constructor
  · rintro ⟨addr, hip, hlo, hhi⟩
    exact ⟨(addr, _), allowedOf_eq.mpr ⟨hip, hlo, hhi, rfl⟩⟩
  · rintro ⟨net, h⟩
    obtain ⟨hip, hlo, hhi, -⟩ := allowedOf_eq.mp h
    exact ⟨net.1, hip, hlo, hhi⟩

/-- The copy ends behind the slash. -/
theorem take_slash (h : inetPton host = some addr) (tail : Text) :
    (host ++ '/' :: tail).take scratchLength = host ++ '/' :: tail.take (22 - host.length) := by
  have hhost := (inetPton_text h).1
  have hroom : scratchLength = 23 := rfl
  have hsub : scratchLength - host.length = (22 - host.length) + 1 := by omega
  rw [List.take_append, List.take_of_length_le (by omega), hsub, List.take_succ_cons]

theorem splitPrefix_slash (h : inetPton host = some addr) (tail : Text) :
    splitPrefix w ((host ++ '/' :: tail).take scratchLength)
      = (host, atoi w (tail.take (22 - host.length))) := by
  unfold splitPrefix
  rw [take_slash h, strchr_slash h]

/-- The address that is found is all that stands in front of the slash. -/
theorem host_of_read (hhost : '/' ∉ host)
    (h : inetPton (splitPrefix w ((host ++ '/' :: tail).take scratchLength)).1 = some addr) :
    inetPton host = some addr := by
  have hroom : scratchLength = 23 := rfl
  by_cases hshort : host.length < scratchLength
  · have hsub : scratchLength - host.length = (22 - host.length) + 1 := by omega
    have htake : (host ++ '/' :: tail).take scratchLength
        = host ++ '/' :: tail.take (22 - host.length) := by
      rw [List.take_append, List.take_of_length_le (by omega), hsub, List.take_succ_cons]
    unfold splitPrefix at h
    rw [htake, strchr_append hhost] at h
    exact h
  · have htake : (host ++ '/' :: tail).take scratchLength = host.take scratchLength :=
      List.take_append_of_le_length (by omega)
    have hnone : strchr '/' (host.take scratchLength) = none :=
      strchr_none fun hmem => hhost (List.mem_of_mem_take hmem)
    unfold splitPrefix at h
    rw [htake, hnone] at h
    have hlength := (inetPton_text h).1
    rw [List.length_take] at hlength
    omega

/-- Digits that the copy holds, or that are all zeros, are read as what they say. -/
theorem atoi_take {k n : Nat} (hk : 0 < k) (hn : n ≤ 32) (hne : tail ≠ [])
    (hdigits : IntDigits tail) (hfit : tail.length ≤ k ∨ ∀ a ∈ tail, a = '0') :
    atoi w (tail.take k) = n ↔ Numeral tail n := by
  rcases hfit with hfit | hzeros
  · rw [List.take_of_length_le hfit, hdigits.atoi_eq]
    refine ⟨fun h => ?_, fun h => strtol_numeral_int h (by omega)⟩
    have hnum := numeral_of_strtol_le (w := w) hne hdigits.1 (by omega)
    rw [h] at hnum
    exact hnum
  · have hnum : Numeral tail 0 := numeral_zeros hne hzeros
    have hcut : Numeral (tail.take k) 0 := by
      refine numeral_zeros (fun hc => ?_) fun a ha => hzeros a (List.mem_of_mem_take ha)
      rcases List.take_eq_nil_iff.mp hc with hc | hc
      · omega
      · exact hne hc
    have hatoi : atoi w (tail.take k) = (0 : Nat) := atoi_numeral hcut (by decide)
    rw [hatoi]
    constructor
    · intro h
      have hzero : n = 0 := by omega
      rw [hzero]
      exact hnum
    · intro h
      rw [hnum.unique h]

/-- **Plain allowed-ips are read as what they say.** -/
theorem allowedOf_of_plain (h : AllowedPlain text) :
    allowedOf w text = some net ↔ AllowedText text net := by
  have hroom : scratchLength = 23 := rfl
  rw [allowedOf_eq]
  cases hsep : strchr '/' text with
  | none =>
      have hslash := not_mem_of_strchr_none hsep
      have hnone : strchr '/' (text.take scratchLength) = none :=
        strchr_none fun hmem => hslash (List.mem_of_mem_take hmem)
      have hsplit : splitPrefix w (text.take scratchLength) = (text.take scratchLength, 32) := by
        unfold splitPrefix
        rw [hnone]
      have hmask : maskOfPrefix 32 = netmask 32 := maskOfPrefix_eq 32
      rw [hsplit]
      constructor
      · rintro ⟨hip, -, -, hnet⟩
        have hlength := (inetPton_text hip).1
        rw [List.length_take] at hlength
        rw [List.take_of_length_le (by omega)] at hip
        exact ⟨32, Or.inl ⟨hip, rfl⟩, hnet.trans hmask⟩
      · rintro ⟨len, hsaid, hnet⟩
        obtain ⟨hip, rfl⟩ := hsaid.bare hsep
        have hlength := (inetPton_text hip).1
        rw [List.take_of_length_le (by omega)]
        exact ⟨hip, (by decide : (0 : Int) ≤ 32), Int.le_refl 32, hnet.trans hmask.symm⟩
  | some r =>
      obtain ⟨host, tail⟩ := r
      obtain ⟨hne, hdigits, hfit⟩ := h host tail hsep
      -- behind an address, the copy has room for some of the digits
      have hread : inetPton host = some net.1 → ∀ n ≤ 32,
          atoi w (tail.take (22 - host.length)) = (n : Nat) ↔ Numeral tail n := by
        intro hip n hn
        have hlength := (inetPton_text hip).1
        refine atoi_take (by omega) hn hne hdigits (hfit.imp_left fun hfit => ?_)
        rw [strchr_some hsep, List.length_append, List.length_cons] at hfit
        omega
      constructor
      · rintro ⟨hip, hlo, hhi, hnet⟩
        rw [strchr_some hsep] at hip hlo hhi hnet
        have hip' := host_of_read (not_mem_of_strchr hsep) hip
        rw [splitPrefix_slash hip'] at hlo hhi hnet
        have hcast : ((atoi w (tail.take (22 - host.length))).toNat : Int)
            = atoi w (tail.take (22 - host.length)) := by omega
        rw [← hcast, maskOfPrefix_eq] at hnet
        exact ⟨_, Or.inr ⟨host, tail, strchr_some hsep, hip',
          (hread hip' _ (by omega)).mp hcast.symm, by omega⟩, hnet⟩
      · rintro ⟨len, hsaid, hnet⟩
        obtain ⟨hip, hnum, hlen⟩ := hsaid.read hsep
        have hatoi := (hread hip len hlen).mpr hnum
        rw [strchr_some hsep, splitPrefix_slash hip, hatoi]
        exact ⟨hip, by omega, by omega, hnet.trans (maskOfPrefix_eq len).symm⟩

/-- **Allowed-ips that are read as what they say are plain.** -/
theorem allowedPlain_of (hread : allowedOf w text = some net) (hsaid : AllowedText text net) :
    AllowedPlain text := by
  intro host tail hsep
  obtain ⟨len, hsaid, hnet⟩ := hsaid
  obtain ⟨hip, hnum, hlen⟩ := hsaid.read hsep
  refine ⟨hnum.ne_nil, hnum.intDigits (by omega), ?_⟩
  by_cases hlong : text.length ≤ scratchLength
  · exact Or.inl hlong
  have hhost := (inetPton_text hip).1
  have hroom : scratchLength = 23 := rfl
  obtain ⟨-, hlo, hhi, hmask⟩ := allowedOf_eq.mp hread
  rw [strchr_some hsep, splitPrefix_slash hip] at hlo hhi hmask
  rw [strchr_some hsep, List.length_append, List.length_cons] at hlong
  have hcast : ((atoi w (tail.take (22 - host.length))).toNat : Int)
      = atoi w (tail.take (22 - host.length)) := by omega
  rw [← hcast, maskOfPrefix_eq, hnet] at hmask
  have hsame := netmask_injective hlen (by omega) hmask
  -- the digits that are cut off leave the number as it is only when it is zero
  have hsplit := hnum
  rw [← List.take_append_drop (22 - host.length) tail] at hsplit
  obtain ⟨m, r, hm, -, -, hsum⟩ := hsplit.append fun hc => by
    rcases List.take_eq_nil_iff.mp hc with hc | hc
    · omega
    · exact hnum.ne_nil hc
  have hdropped : 10 ≤ 10 ^ (tail.drop (22 - host.length)).length := by
    refine Nat.le_self_pow ?_ 10
    rw [List.length_drop]
    omega
  have hle : 10 * m ≤ 10 ^ (tail.drop (22 - host.length)).length * m :=
    Nat.mul_le_mul_right m hdropped
  have hatoi : atoi w (tail.take (22 - host.length)) = m := atoi_numeral hm (by omega)
  have hzero : Nat.ofDigitChars 10 tail 0 = 0 := hnum.value.trans (by omega)
  exact Or.inr (eq_zero_of_ofDigitChars hnum.digits hzero)

end Allowed

/-! ### The arguments of a set -/

section Arguments

variable {endpoint allowed : Option Text} {keepalive : BitVec 32} {g : Given} {w : LongWidth}

/-- An optional text is read as what it says when a text that is given is. -/
theorem readOptional_iff {α : Type} {read : Text → Option α} {Says : Text → α → Prop}
    {arg : Option Text} {o : Option α}
    (h : ∀ text ∈ arg, ∀ a, read text = some a ↔ Says text a) :
    readOptional read arg = some o ↔ Option.Rel Says arg o := by
  cases arg with
  | none =>
      constructor
      · intro hread
        cases hread
        exact .none
      · intro hsays
        cases hsays
        rfl
  | some text =>
      have htext := h text rfl
      have hread : readOptional read (some text) = (read text).map some := rfl
      rw [hread]
      constructor
      · intro hread
        obtain ⟨a, ha, rfl⟩ := Option.map_eq_some_iff.mp hread
        exact .some ((htext a).mp ha)
      · intro hsays
        cases hsays with
        | some ha => rw [(htext _).mpr ha, Option.map_some]

theorem givenOf_eq : givenOf w endpoint allowed keepalive = some g ↔
    readOptional (endpointOf w) endpoint = some g.endpoint ∧
      readOptional (allowedOf w) allowed = some g.allowed ∧
      g.keepalive = if keepalive.toInt ≥ 0 then some keepalive else none := by
  unfold givenOf
  constructor
  · intro h
    obtain ⟨ep, hep, h⟩ := Option.bind_eq_some_iff.mp h
    obtain ⟨net, hnet, rfl⟩ := Option.map_eq_some_iff.mp h
    exact ⟨hep, hnet, rfl⟩
  · rintro ⟨hep, hnet, hkeepalive⟩
    rw [hep, hnet, Option.bind_some, Option.map_some, ← hkeepalive]

/-- **Plain texts give what they say.** -/
theorem givenOf_of_plain (hendpoint : ∀ text ∈ endpoint, EndpointPlain text)
    (hallowed : ∀ text ∈ allowed, AllowedPlain text) :
    givenOf w endpoint allowed keepalive = some g ↔ Said endpoint allowed keepalive g := by
  rw [givenOf_eq, readOptional_iff fun text htext ep => endpointOf_of_plain (hendpoint text htext),
    readOptional_iff fun text htext net => allowedOf_of_plain (hallowed text htext)]
  exact ⟨fun ⟨hep, hnet, hkeepalive⟩ => ⟨hep, hnet, hkeepalive⟩,
    fun h => ⟨h.endpoint, h.allowed, h.keepalive⟩⟩

theorem exists_readOptional {α : Type} {read : Text → Option α} {arg : Option Text}
    (h : ∀ text ∈ arg, ∃ a, read text = some a) : ∃ o, readOptional read arg = some o := by
  cases arg with
  | none => exact ⟨none, rfl⟩
  | some text =>
      obtain ⟨a, ha⟩ := h text rfl
      exact ⟨some a, by rw [readOptional, ha, Option.map_some]⟩

theorem exists_givenOf (hendpoint : ∀ text ∈ endpoint, EndpointRead w text)
    (hallowed : ∀ text ∈ allowed, AllowedRead w text) (keepalive : BitVec 32) :
    ∃ g, givenOf w endpoint allowed keepalive = some g := by
  obtain ⟨ep, hep⟩ := exists_readOptional fun text htext =>
    endpointRead_iff.mp (hendpoint text htext)
  obtain ⟨net, hnet⟩ := exists_readOptional fun text htext =>
    allowedRead_iff.mp (hallowed text htext)
  exact ⟨⟨ep, net, _⟩, givenOf_eq.mpr ⟨hep, hnet, rfl⟩⟩

theorem read_of_given (h : givenOf w endpoint allowed keepalive = some g) :
    (∀ text ∈ endpoint, ∃ ep, endpointOf w text = some ep ∧ g.endpoint = some ep) ∧
      ∀ text ∈ allowed, ∃ net, allowedOf w text = some net ∧ g.allowed = some net := by
  obtain ⟨hep, hnet, -⟩ := givenOf_eq.mp h
  constructor
  · rintro text rfl
    obtain ⟨ep, hread, heq⟩ := Option.map_eq_some_iff.mp hep
    exact ⟨ep, hread, heq.symm⟩
  · rintro text rfl
    obtain ⟨net, hread, heq⟩ := Option.map_eq_some_iff.mp hnet
    exact ⟨net, hread, heq.symm⟩

theorem said_of_given (h : Said endpoint allowed keepalive g) :
    (∀ text ∈ endpoint, ∃ ep, EndpointText text ep ∧ g.endpoint = some ep) ∧
      ∀ text ∈ allowed, ∃ net, AllowedText text net ∧ g.allowed = some net := by
  obtain ⟨hep, hnet, -⟩ := h
  constructor
  · rintro text rfl
    generalize g.endpoint = o at hep
    cases hep with
    | some hsaid => exact ⟨_, hsaid, rfl⟩
  · rintro text rfl
    generalize g.allowed = o at hnet
    cases hnet with
    | some hsaid => exact ⟨_, hsaid, rfl⟩

/-- **Texts that give what they say are plain**: what is given shows in the entry. -/
theorem plain_of_update {g' : Given} {s : Settings}
    (hg : givenOf w endpoint allowed keepalive = some g) (hsaid : Said endpoint allowed keepalive g')
    (hupdate : s.update g = s.update g') :
    (∀ text ∈ endpoint, EndpointPlain text) ∧ ∀ text ∈ allowed, AllowedPlain text := by
  obtain ⟨hread, hreadNet⟩ := read_of_given hg
  obtain ⟨htext, htextNet⟩ := said_of_given hsaid
  constructor
  · intro text hmem
    obtain ⟨ep, hep, hgiven⟩ := hread text hmem
    obtain ⟨ep', hep', hgiven'⟩ := htext text hmem
    have hfield : (s.update g).endpoint = (s.update g').endpoint := by rw [hupdate]
    unfold Settings.update at hfield
    rw [hgiven, hgiven', Option.some_or, Option.some_or] at hfield
    rw [← Option.some.inj hfield] at hep'
    exact endpointPlain_of hep hep'
  · intro text hmem
    obtain ⟨net, hnet, hgiven⟩ := hreadNet text hmem
    obtain ⟨net', hnet', hgiven'⟩ := htextNet text hmem
    have hfield : (s.update g).allowed = (s.update g').allowed := by rw [hupdate]
    unfold Settings.update at hfield
    rw [hgiven, hgiven', Option.map_some, Option.map_some, Option.getD_some, Option.getD_some]
      at hfield
    obtain ⟨haddr, hmask⟩ := Prod.mk.inj hfield
    have hsame : net = net' := Prod.ext (Option.some.inj haddr) (Option.some.inj hmask)
    rw [← hsame] at hnet'
    exact allowedPlain_of hnet hnet'

end Arguments

/-! ### A call -/

section Call

variable {kc : Kconfig} {maxPeers : Nat} {registered : Bool} {st st' : Staged}
  {pubkey endpoint allowed : Option Text} {keepalive : BitVec 32} {g : Given} {text : Text}

variable (kc) in
/-- **A set that finds nothing in its way stages what is given.** -/
theorem wgSetPeer_stages (hready : Ready maxPeers registered st pubkey)
    (hg : givenOf kc.long endpoint allowed keepalive = some g) : ∃ st' text, pubkey = some text ∧
      wgSetPeer kc maxPeers registered st pubkey endpoint allowed keepalive = .ok st' ∧
      Stages kc st text g st' := by
  obtain ⟨rfl, text, key, rfl, hkey, hroom⟩ := hready
  rcases hroom with ⟨i, hfind⟩ | ⟨hfind, hroom⟩
  · obtain ⟨p, tmp, hp, -, htmp, hsettings, hset⟩ :=
      @wgSetPeer_found kc maxPeers st _ _ _ _ _ hkey _ hg _ hfind
    exact ⟨_, text, rfl, hset, rfl, tmp, htmp, Or.inl ⟨i, p, hfind, hp, hsettings, rfl⟩⟩
  · obtain ⟨tmp, htmp, hsettings, hset⟩ := wgSetPeer_new kc hkey hg hfind (Nat.not_le.mpr hroom)
    exact ⟨_, text, rfl, hset, rfl, tmp, htmp, Or.inr ⟨hfind, hsettings, rfl⟩⟩

/-- A set that is accepted found nothing in its way. -/
theorem wgSetPeer_accepted
    (h : wgSetPeer kc maxPeers registered st pubkey endpoint allowed keepalive = .ok st') :
    Ready maxPeers registered st pubkey ∧ ∃ g, givenOf kc.long endpoint allowed keepalive = some g := by
  cases registered with
  | true => cases h
  | false =>
      cases pubkey with
      | none => cases h
      | some text =>
          cases hkey : wgDecodeKey text with
          | none =>
              unfold wgSetPeer at h
              rw [if_neg Bool.false_ne_true] at h
              simp only [hkey] at h
              cases h
          | some key =>
              cases hg : givenOf kc.long endpoint allowed keepalive with
              | none =>
                  obtain ⟨errno, hrefused⟩ := @wgSetPeer_unread kc maxPeers st _ _ _ _ _ hkey hg
                  rw [hrefused] at h
                  cases h
              | some g =>
                  refine ⟨⟨rfl, text, key, rfl, hkey, ?_⟩, g, rfl⟩
                  cases hfind : findPeer st.peers text with
                  | some i => exact Or.inl ⟨i, rfl⟩
                  | none =>
                      refine Or.inr ⟨rfl, ?_⟩
                      by_contra hfull
                      rw [wgSetPeer_full hkey hfind (Nat.not_lt.mp hfull)] at h
                      cases h

/-- What is staged says what was given. -/
theorem Stages.update_eq {g' : Given} (h : Stages kc st text g st') (h' : Stages kc st text g' st') :
    ∃ s : Settings, s.update g = s.update g' := by
  obtain ⟨-, tmp, -, hcases⟩ := h
  obtain ⟨-, tmp', -, hcases'⟩ := h'
  rcases hcases with ⟨i, p, hfind, hp, hsettings, hpeers⟩ | ⟨hfind, hsettings, hpeers⟩
  · rcases hcases' with ⟨i', p', hfind', hp', hsettings', hpeers'⟩ | ⟨hfind', -, -⟩
    · obtain rfl : i = i' := Option.some.inj (hfind.symm.trans hfind')
      obtain rfl : p = p' := Option.some.inj (hp.symm.trans hp')
      have hi := (List.getElem?_eq_some_iff.mp hp).1
      have hentry := congrArg (·[i]?) (hpeers.symm.trans hpeers')
      simp only [List.getElem?_set_self hi, Option.some.injEq] at hentry
      exact ⟨p.settings, by rw [← hsettings, ← hsettings', hentry]⟩
    · rw [hfind] at hfind'
      cases hfind'
  · rcases hcases' with ⟨i', p', hfind', -⟩ | ⟨-, hsettings', hpeers'⟩
    · rw [hfind] at hfind'
      cases hfind'
    · have hentry := List.append_cancel_left (hpeers.symm.trans hpeers')
      obtain rfl := List.singleton_injective hentry
      exact ⟨kc.initial, hsettings.symm.trans hsettings'⟩

theorem stage_refused {errno : Errno}
    (h : wgSetPeer kc maxPeers registered st pubkey endpoint allowed keepalive = .error errno) :
    stage kc maxPeers st (.set registered pubkey endpoint allowed keepalive) = some st := by
  have hperform : (StageCall.set registered pubkey endpoint allowed keepalive).perform kc maxPeers st
      = .error errno := h
  unfold stage
  rw [hperform]

/-- **A set takes its texts at their word exactly when they are plain**, or when neither the
library nor anyone else can read them, or something else is in the way. -/
theorem setPeer_texts_iff (kc : Kconfig) (maxPeers : Nat) (registered : Bool) (st : Staged)
    (pubkey endpoint allowed : Option Text) (keepalive : BitVec 32) :
    TakenAtTheirWord kc maxPeers registered st pubkey endpoint allowed keepalive ↔
      (Ready maxPeers registered st pubkey →
        ((∀ text ∈ endpoint, EndpointRead kc.long text) ∧ ∀ text ∈ allowed, AllowedRead kc.long text) ∨
          (∃ g, Said endpoint allowed keepalive g) →
        (∀ text ∈ endpoint, EndpointPlain text) ∧ ∀ text ∈ allowed, AllowedPlain text) := by
  constructor
  · intro h hready hread
    have haccepted : ∃ st', wgSetPeer kc maxPeers registered st pubkey endpoint allowed keepalive
        = .ok st' := by
      rcases hread with ⟨hendpoint, hallowed⟩ | hsaid
      · obtain ⟨g, hg⟩ := exists_givenOf hendpoint hallowed keepalive
        obtain ⟨st', -, -, hset, -⟩ := wgSetPeer_stages kc hready hg
        exact ⟨st', hset⟩
      · exact h.accepted.mpr ⟨hready, hsaid⟩
    obtain ⟨st', hset⟩ := haccepted
    obtain ⟨-, g, hg⟩ := wgSetPeer_accepted hset
    obtain ⟨st'', text, hpubkey, hset', hstages⟩ := wgSetPeer_stages kc hready hg
    obtain rfl : st'' = st' := Except.ok.inj (hset'.symm.trans hset)
    obtain ⟨text', g', hpubkey', hsaid, hstages'⟩ := h.staged st'' hset
    obtain rfl : text = text' := Option.some.inj (hpubkey.symm.trans hpubkey')
    obtain ⟨s, hupdate⟩ := hstages.update_eq hstages'
    exact plain_of_update hg hsaid hupdate
  · intro hplain
    have hgiven : Ready maxPeers registered st pubkey → ∀ g,
        givenOf kc.long endpoint allowed keepalive = some g ↔ Said endpoint allowed keepalive g := by
      intro hready g
      constructor
      · intro hg
        obtain ⟨hendpoint, hallowed⟩ := read_of_given hg
        obtain ⟨hep, hnet⟩ := hplain hready (Or.inl
          ⟨fun text htext => endpointRead_iff.mpr ((hendpoint text htext).imp fun _ h => h.1),
            fun text htext => allowedRead_iff.mpr ((hallowed text htext).imp fun _ h => h.1)⟩)
        exact (givenOf_of_plain hep hnet).mp hg
      · intro hsaid
        obtain ⟨hep, hnet⟩ := hplain hready (Or.inr ⟨g, hsaid⟩)
        exact (givenOf_of_plain hep hnet).mpr hsaid
    refine ⟨⟨?_, ?_⟩, ?_, fun errno => stage_refused⟩
    · rintro ⟨st', hset⟩
      obtain ⟨hready, g, hg⟩ := wgSetPeer_accepted hset
      exact ⟨hready, g, (hgiven hready g).mp hg⟩
    · rintro ⟨hready, g, hsaid⟩
      obtain ⟨st', -, -, hset, -⟩ := wgSetPeer_stages kc hready ((hgiven hready g).mpr hsaid)
      exact ⟨st', hset⟩
    · intro st' hset
      obtain ⟨hready, g, hg⟩ := wgSetPeer_accepted hset
      obtain ⟨st'', text, hpubkey, hset', hstages⟩ := wgSetPeer_stages kc hready hg
      obtain rfl : st'' = st' := Except.ok.inj (hset'.symm.trans hset)
      exact ⟨text, g, hpubkey, (hgiven hready g).mp hg, hstages⟩

end Call

/-! ### An empty prefix length -/

namespace Sample

/-- An address and a slash, and nothing behind it. -/
def slashText : Text := ['1', '0', '.', '0', '.', '0', '.', '1', '/']

theorem not_allowedText_slashText (net : U32 × U32) : ¬AllowedText slashText net := by
  rintro ⟨len, hsaid, -⟩
  have hsep : strchr '/' slashText = some (['1', '0', '.', '0', '.', '0', '.', '1'], []) := by
    decide +kernel
  exact (hsaid.read hsep).2.1.ne_nil rfl

end Sample

/-- A slash with nothing behind it is accepted, and routes every address to the peer. -/
theorem not_setPeer_texts :
    ¬∀ (kc : Kconfig) (maxPeers : Nat) (registered : Bool) (st : Staged)
      (pubkey endpoint allowed : Option Text) (keepalive : BitVec 32),
      TakenAtTheirWord kc maxPeers registered st pubkey endpoint allowed keepalive := by
  intro hall
  have hset : wgSetPeer (Sample.build []) 1 false Staged.empty (some (Sample.zeroText 'A')) none
      (some Sample.slashText) (-1) = .ok ⟨[], [{ Sample.named 'A' (-1) with
        allowedIp := ['1', '0', '.', '0', '.', '0', '.', '1']
        allowedMask := ['0', '.', '0', '.', '0', '.', '0'] }]⟩ := by
    decide +kernel
  have htaken := hall (Sample.build []) 1 false Staged.empty (some (Sample.zeroText 'A')) none
    (some Sample.slashText) (-1)
  obtain ⟨-, g, hsaid⟩ := htaken.accepted.mp ⟨_, hset⟩
  obtain ⟨net, htext, -⟩ := (said_of_given hsaid).2 _ rfl
  exact Sample.not_allowedText_slashText net htext

end NuttxWireguard.Flat
