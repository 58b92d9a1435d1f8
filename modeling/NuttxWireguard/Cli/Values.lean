/-
The values of the commands (`wg_cmd_set`, and the keys of `wg_cmd_setconf`).

`wg set` takes a listen port, an address, and a peer with its options; a configuration file
says the same under other names.  Both hand the texts to `wg_parse_endpoint`,
`wg_parse_aips` and `wg_parse_aip`, which leave the number behind the separator to `strtol`,
and a port or a keepalive goes straight from `strtoul` into 16 bits.

So a value that is accepted is what its text says as long as the text has digits where it
should have a number, and nothing else; a listen port or a keepalive is never refused.
-/
import NuttxWireguard.Cli.Conf
import NuttxWireguard.Lib.AddrText
import Mathlib.Data.List.Forall2

namespace NuttxWireguard.Cli

open Lib Kernel

variable {w : LongWidth}

/-! ### `wg set` -/

namespace Item

def privateKey : Text := ['p', 'r', 'i', 'v', 'a', 't', 'e', '-', 'k', 'e', 'y']
def listenPort : Text := ['l', 'i', 's', 't', 'e', 'n', '-', 'p', 'o', 'r', 't']
def address : Text := ['a', 'd', 'd', 'r', 'e', 's', 's']
def peer : Text := ['p', 'e', 'e', 'r']
def remove : Text := ['r', 'e', 'm', 'o', 'v', 'e']
def endpoint : Text := ['e', 'n', 'd', 'p', 'o', 'i', 'n', 't']
def allowedIps : Text := ['a', 'l', 'l', 'o', 'w', 'e', 'd', '-', 'i', 'p', 's']
def persistentKeepalive : Text :=
  ['p', 'e', 'r', 's', 'i', 's', 't', 'e', 'n', 't', '-',
   'k', 'e', 'e', 'p', 'a', 'l', 'i', 'v', 'e']
def presharedKey : Text :=
  ['p', 'r', 'e', 's', 'h', 'a', 'r', 'e', 'd', '-', 'k', 'e', 'y']

end Item

/-- Why `wg set` stops before it asks the driver. -/
inductive SetError
  | needsItem
  | badKey
  | badAddress
  | badEndpoint
  | badAllowedIps
  | unknownOption (opt : Text)
  | unknownItem (item : Text)

/-- What `wg set` asks the driver. -/
inductive SetRequest
  | setIf (req : IfReq)
  | setPeer (req : PeerReq)
  | delPeer (req : PeerReq)

/-- An item of the interface. -/
def setInterface (w : LongWidth) (item val : Text) (ifr : IfReq) : Except SetError IfReq :=
  if item = Item.privateKey then
    match wgB64Decode val with
    | none => .error .badKey
    | some k => .ok { ifr with privateKey := k, flags := wgIfHasPrivateKey }
  else if item = Item.listenPort then
    .ok { ifr with
      flags := wgIfHasListenPort
      listenPort := BitVec.ofNat 16 (strtoul w val) }
  else if item = Item.address then
    match wgParseAip w val with
    | none => .error .badAddress
    | some a => .ok { ifr with
        flags := wgIfHasAddr
        addr := a.addr
        netmask := prefixMask a.cidr }
  else .error (.unknownItem item)

/-- An option of a peer. -/
def setOption (w : LongWidth) (opt val : Text) (peer : PeerReq) : Except SetError PeerReq :=
  if opt = Item.endpoint then
    match wgParseEndpoint w val with
    | none => .error .badEndpoint
    | some r => .ok { peer with
        sinFamily := afInet
        sinPort := r.1
        sinAddr := r.2
        flags := peer.flags ||| wgPeerHasEndpoint }
  else if opt = Item.allowedIps then
    match wgParseAips w val with
    | none => .error .badAllowedIps
    | some aips => .ok { peer with
        aips := fun j => aips.getD j (peer.aips j)
        naips := BitVec.ofNat 8 aips.length
        flags := peer.flags ||| (wgPeerHasAips ||| wgPeerReplaceAips) }
  else if opt = Item.persistentKeepalive then
    .ok { peer with
      keepalive := if val = Word.off then 0 else BitVec.ofNat 16 (strtoul w val)
      flags := peer.flags ||| wgPeerHasKeepalive }
  else if opt = Item.presharedKey then
    match wgB64Decode val with
    | none => .error .badKey
    | some k => .ok { peer with presharedKey := k, flags := peer.flags ||| wgPeerHasPsk }
  else .error (.unknownOption opt)

/-- The loop over the options; a last one without a value is not looked at. -/
def setOptions (w : LongWidth) : List Text → PeerReq → Except SetError PeerReq
  | opt :: val :: rest, peer =>
    match setOption w opt val peer with
    | .error err => .error err
    | .ok peer => setOptions w rest peer
  | _, peer => .ok peer

/-- `wg_cmd_set`, from `argv[2]` on, up to the request. -/
def wgCmdSet (w : LongWidth) : List Text → Except SetError SetRequest
  | item :: val :: rest =>
    if item = Item.peer then
      match wgB64Decode val with
      | none => .error .badKey
      | some k =>
        let peer := { PeerReq.zero with publicKey := k }
        if rest.head? = some Item.remove then .ok (.delPeer peer)
        else (setOptions w rest peer).map .setPeer
    else (setInterface w item val IfReq.zero).map .setIf
  | _ => .error .needsItem

/-! ### Where a value stands -/

inductive Field
  | listenPort
  | address
  | endpoint
  | allowedIps
  | keepalive

/-- A value. -/
inductive Value
  | number (n : U16)
  | net (addr mask : U32)
  | endpoint (addr : U32) (port : U16)
  | nets (aips : List Aip)

/-- A request that is being filled in. -/
inductive Request
  | ofIf (req : IfReq)
  | ofPeer (req : PeerReq)

/-- The word in front of a value, and the request as the words before left it. -/
inductive Place
  | item (item : Text) (ifr : IfReq)
  | option (opt : Text) (peer : PeerReq)
  | interfaceLine (key : Text) (ifr : IfReq)
  | peerLine (key : Text) (req : PeerReq)

/-- What the word names, if it is one of the five. -/
def Place.field : Place → Option Field
  | .item word _ =>
    if word = Item.listenPort then some .listenPort
    else if word = Item.address then some .address
    else none
  | .option opt _ =>
    if opt = Item.endpoint then some .endpoint
    else if opt = Item.allowedIps then some .allowedIps
    else if opt = Item.persistentKeepalive then some .keepalive
    else none
  | .interfaceLine key _ =>
    if strcasecmp key Word.listenPort then some .listenPort
    else if strcasecmp key Word.address then some .address
    else none
  | .peerLine key _ =>
    if strcasecmp key Word.allowedIps then some .allowedIps
    else if strcasecmp key Word.endpoint then some .endpoint
    else if strcasecmp key Word.persistentKeepalive then some .keepalive
    else none

/-- What the command makes of the value; `none` is a refusal. -/
def Place.put (w : LongWidth) : Place → Text → Option Request
  | .item word ifr, val => (setInterface w word val ifr).toOption.map .ofIf
  | .option opt peer, val => (setOption w opt val peer).toOption.map .ofPeer
  | .interfaceLine key ifr, val => (interfaceKey w key val ifr).map .ofIf
  | .peerLine key req, val => (peerKey w key val req).map .ofPeer

/-- The value in a request, if the flag of its field is set. -/
def Field.carried : Field → Request → Option Value
  | .listenPort, .ofIf r => if r.has wgIfHasListenPort then some (.number r.listenPort) else none
  | .address, .ofIf r => if r.has wgIfHasAddr then some (.net r.addr r.netmask) else none
  | .endpoint, .ofPeer r =>
    if r.has wgPeerHasEndpoint then some (.endpoint r.sinAddr (ntohs r.sinPort)) else none
  | .allowedIps, .ofPeer r =>
    if r.has wgPeerHasAips then
      some (.nets (((List.finRange wgMaxAips).take r.naips.toNat).map r.aips))
    else none
  | .keepalive, .ofPeer r => if r.has wgPeerHasKeepalive then some (.number r.keepalive) else none
  | _, _ => none

/-! ### What a text says -/

/-- A list of prefixes: the commas are between them, and blanks may stand in front of one. -/
def AipsText (text : Text) (aips : List Aip) : Prop :=
  (text = [] ∧ aips = []) ∨ (text ≠ [] ∧
    List.Forall₂ (fun item aip => AddrPrefix (item.dropWhile (· == ' ')) aip.addr aip.cidr.toNat)
      (text.splitOn ',') aips)

/-- The whole text says the value. -/
def Field.Denotes : Field → Text → Value → Prop
  | .listenPort, text, .number n => Numeral text n.toNat
  | .address, text, .net addr mask => ∃ len, AddrPrefix text addr len ∧ mask = netmask len
  | .endpoint, text, .endpoint addr port => AddrPort text addr port.toNat
  | .allowedIps, text, .nets aips => AipsText text aips
  | .keepalive, text, .number n =>
    Numeral text n.toNat ∨ (strcasecmp text Word.off = true ∧ n = 0)
  | _, _, _ => False

/-- **A value is refused, or put into the request as what its whole text says.** -/
def Exact (w : LongWidth) (place : Place) (f : Field) (val : Text) : Prop :=
  ∀ req, place.put w val = some req → ∃ v, f.carried req = some v ∧ f.Denotes val v

/-! ### Texts without anything else -/

/-- The library finds an address and a port in the text. -/
def PortRead (w : LongWidth) (text : Text) : Prop :=
  ∃ host tail addr, strrchr ':' text = some (host, tail) ∧ inetPton host = some addr ∧
    1 ≤ strtol w tail ∧ strtol w tail ≤ 65535

/-- There are only digits behind the last colon. -/
def PortPlain (text : Text) : Prop :=
  ∀ host tail, strrchr ':' text = some (host, tail) → ∀ a ∈ tail, a.isDigit = true

/-- The library finds an address and a prefix length in the text, or an address alone in what
is copied of it. -/
def AipRead (w : LongWidth) (text : Text) : Prop :=
  (∃ host tail addr, strchr '/' text = some (host, tail) ∧ inetPton host = some addr ∧
    0 ≤ strtol w tail ∧ strtol w tail ≤ 32) ∨
  (strchr '/' text = none ∧ ∃ addr, inetPton (text.take (inetAddrstrlen - 1)) = some addr)

/-- There are digits and nothing else behind a slash; without one, all of the text is copied. -/
def AipPlain (text : Text) : Prop :=
  (∀ host tail, strchr '/' text = some (host, tail) → tail ≠ [] ∧ ∀ a ∈ tail, a.isDigit = true) ∧
    (strchr '/' text = none → text.length < inetAddrstrlen)

/-- Every token is read, and there is room for them. -/
def AipsRead (w : LongWidth) (text : Text) : Prop :=
  (strtok ',' text).length ≤ wgMaxAips ∧
    ∀ tok ∈ strtok ',' text, AipRead w (tok.dropWhile (· == ' '))

/-- No item between two commas is empty, and every one is plain. -/
def AipsPlain (text : Text) : Prop :=
  text = [] ∨ ∀ item ∈ text.splitOn ',', item ≠ [] ∧ AipPlain (item.dropWhile (· == ' '))

/-- The text has nothing in it that the command reads over. -/
def Field.Plain (w : LongWidth) : Field → Text → Prop
  | .listenPort, text => ∃ n ≤ 65535, Numeral text n
  | .address, text => AipRead w text → AipPlain text
  | .endpoint, text => PortRead w text → PortPlain text
  | .allowedIps, text => AipsRead w text → AipsPlain text
  | .keepalive, text => strcasecmp text Word.off = true ∨ ∃ n ≤ 65535, Numeral text n

/-! ### Endpoints -/

section Endpoint

variable {text : Text}

theorem wgParseEndpoint_eq {r : U16 × U32} : wgParseEndpoint w text = some r ↔
    ∃ host tail, strrchr ':' text = some (host, tail) ∧ inetPton host = some r.2 ∧
      1 ≤ strtol w tail ∧ strtol w tail ≤ 65535 ∧
      r.1 = ntohs (BitVec.ofInt 16 (strtol w tail)) := by
  unfold wgParseEndpoint
  cases hsep : strrchr ':' text with
  | none =>
      constructor
      · intro h
        cases h
      · rintro ⟨_, _, h, -⟩
        cases h
  | some s =>
      obtain ⟨host, tail⟩ := s
      dsimp only
      constructor
      · intro h
        split at h
        · cases h
        split at h
        · cases h
        obtain ⟨addr, haddr, rfl⟩ := Option.map_eq_some_iff.mp h
        exact ⟨host, tail, rfl, haddr, by omega, by omega, rfl⟩
      · rintro ⟨host', tail', heq, haddr, hlo, hhi, hport⟩
        cases heq
        have hlength := (inetPton_text haddr).1
        have hroom : inetAddrstrlen = 16 := rfl
        rw [if_neg (by omega), if_neg (by omega), haddr, Option.map_some, ← hport]

theorem ofInt_port {i : Int} (hlo : 1 ≤ i) (hhi : i ≤ 65535) :
    (ntohs (ntohs (BitVec.ofInt 16 i))).toNat = i.toNat := by
  rw [ntohs_ntohs, BitVec.toNat_ofInt]
  omega

/-- **An endpoint is what its text says when it is plain, and only then.** -/
theorem wgParseEndpoint_exact_iff :
    (∀ r, wgParseEndpoint w text = some r → AddrPort text r.2 (ntohs r.1).toNat) ↔
      (PortRead w text → PortPlain text) := by
  constructor
  · rintro h ⟨host, tail, addr, hsep, haddr, hlo, hhi⟩ host' tail' hsep'
    rw [hsep'] at hsep
    obtain ⟨rfl, rfl⟩ := Prod.mk.inj (Option.some.inj hsep)
    have hsaid := h (_, addr) (wgParseEndpoint_eq.mpr ⟨host', tail', hsep', haddr, hlo, hhi, rfl⟩)
    obtain ⟨host, tail, hsep, -, hdigits, -⟩ := hsaid.read (w := w)
    rw [hsep'] at hsep
    obtain ⟨-, rfl⟩ := Prod.mk.inj (Option.some.inj hsep)
    exact hdigits.1
  · intro h r hr
    obtain ⟨host, tail, hsep, haddr, hlo, hhi, hport⟩ := wgParseEndpoint_eq.mp hr
    have hdigits := h ⟨host, tail, r.2, hsep, haddr, hlo, hhi⟩ host tail hsep
    rw [hport, ofInt_port hlo hhi]
    exact addrPort_of_read hsep haddr hdigits hlo hhi

end Endpoint

/-! ### Prefixes -/

section Prefix

variable {text : Text} {aip : Aip}

theorem wgParseAip_eq : wgParseAip w text = some aip ↔
    (∃ host tail, strchr '/' text = some (host, tail) ∧ inetPton host = some aip.addr ∧
      0 ≤ strtol w tail ∧ strtol w tail ≤ 32 ∧
      aip.cidr = BitVec.ofInt 8 (strtol w tail)) ∨
    (strchr '/' text = none ∧ inetPton (text.take (inetAddrstrlen - 1)) = some aip.addr ∧
      aip.cidr = 32) := by
  unfold wgParseAip
  cases hsep : strchr '/' text with
  | none =>
      dsimp only
      constructor
      · intro h
        obtain ⟨addr, haddr, rfl⟩ := Option.map_eq_some_iff.mp h
        exact Or.inr ⟨rfl, haddr, rfl⟩
      · rintro (⟨_, _, h, -⟩ | ⟨-, haddr, hcidr⟩)
        · cases h
        · rw [haddr, Option.map_some, ← hcidr]
  | some s =>
      obtain ⟨host, tail⟩ := s
      dsimp only
      constructor
      · intro h
        split at h
        · cases h
        split at h
        · cases h
        obtain ⟨addr, haddr, rfl⟩ := Option.map_eq_some_iff.mp h
        exact Or.inl ⟨host, tail, rfl, haddr, by omega, by omega, rfl⟩
      · rintro (⟨host', tail', heq, haddr, hlo, hhi, hcidr⟩ | ⟨h, -⟩)
        · cases heq
          have hlength := (inetPton_text haddr).1
          have hroom : inetAddrstrlen = 16 := rfl
          rw [if_neg (by omega), if_neg (by omega), haddr, Option.map_some, ← hcidr]
        · cases h

theorem aipRead_iff : AipRead w text ↔ ∃ aip, wgParseAip w text = some aip := by
  constructor
  · rintro (⟨host, tail, addr, hsep, haddr, hlo, hhi⟩ | ⟨hsep, addr, haddr⟩)
    · exact ⟨⟨addr, _⟩, wgParseAip_eq.mpr (Or.inl ⟨host, tail, hsep, haddr, hlo, hhi, rfl⟩)⟩
    · exact ⟨⟨addr, 32⟩, wgParseAip_eq.mpr (Or.inr ⟨hsep, haddr, rfl⟩)⟩
  · rintro ⟨aip, h⟩
    rcases wgParseAip_eq.mp h with ⟨host, tail, hsep, haddr, hlo, hhi, -⟩ | ⟨hsep, haddr, -⟩
    · exact Or.inl ⟨host, tail, aip.addr, hsep, haddr, hlo, hhi⟩
    · exact Or.inr ⟨hsep, aip.addr, haddr⟩

theorem ofInt_cidr {i : Int} (hlo : 0 ≤ i) (hhi : i ≤ 32) :
    (BitVec.ofInt 8 i).toNat = i.toNat := by
  rw [BitVec.toNat_ofInt]
  omega

/-- **A plain prefix is what its text says.** -/
theorem wgParseAip_said (hplain : AipPlain text) (h : wgParseAip w text = some aip) :
    AddrPrefix text aip.addr aip.cidr.toNat := by
  rcases wgParseAip_eq.mp h with ⟨host, tail, hsep, haddr, hlo, hhi, hcidr⟩ | ⟨hsep, haddr, hcidr⟩
  · obtain ⟨hne, hdigits⟩ := hplain.1 host tail hsep
    rw [hcidr, ofInt_cidr hlo hhi]
    exact addrPrefix_of_read hsep haddr hne hdigits hhi
  · have hlength := hplain.2 hsep
    rw [List.take_of_length_le (by omega)] at haddr
    rw [hcidr]
    exact Or.inl ⟨haddr, rfl⟩

/-- **Only a plain prefix says something.** -/
theorem AddrPrefix.plain {addr : U32} {len : Nat} (h : AddrPrefix text addr len) :
    AipPlain text := by
  constructor
  · intro host tail hsep
    obtain ⟨-, hnum, -⟩ := h.read hsep
    exact ⟨hnum.ne_nil, hnum.digits⟩
  · intro hsep
    exact (inetPton_text (h.bare hsep).1).1

theorem wgParseAip_exact_iff :
    (∀ aip, wgParseAip w text = some aip → AddrPrefix text aip.addr aip.cidr.toNat) ↔
      (AipRead w text → AipPlain text) := by
  constructor
  · intro h hread
    obtain ⟨aip, haip⟩ := aipRead_iff.mp hread
    exact AddrPrefix.plain (h aip haip)
  · intro h aip haip
    exact wgParseAip_said (h (aipRead_iff.mpr ⟨aip, haip⟩)) haip

end Prefix

/-! ### Lists of prefixes -/

section List

variable {text : Text} {aips : List Aip}

theorem parseAipTokens_eq {toks : List Text} {n : Nat} (hn : n ≤ wgMaxAips) :
    parseAipTokens w n toks = some aips ↔ n + toks.length ≤ wgMaxAips ∧
      List.Forall₂ (fun tok aip => wgParseAip w (tok.dropWhile (· == ' ')) = some aip) toks aips := by
  induction toks generalizing n aips with
  | nil =>
      rw [List.forall₂_nil_left_iff]
      constructor
      · intro h
        cases h
        exact ⟨hn, rfl⟩
      · rintro ⟨-, rfl⟩
        rfl
  | cons tok toks ih =>
      rw [List.length_cons, List.forall₂_cons_left_iff, parseAipTokens]
      by_cases hfull : n ≥ wgMaxAips
      · rw [if_pos hfull]
        constructor
        · intro h
          cases h
        · rintro ⟨hroom, -⟩
          omega
      · rw [if_neg hfull]
        constructor
        · intro h
          obtain ⟨aip, haip, h⟩ := Option.bind_eq_some_iff.mp h
          obtain ⟨rest, hrest, h⟩ := Option.bind_eq_some_iff.mp h
          cases h
          obtain ⟨hroom, hforall⟩ := (ih (by omega)).mp hrest
          exact ⟨by omega, aip, rest, haip, hforall, rfl⟩
        · rintro ⟨hroom, aip, rest, haip, hforall, rfl⟩
          have hrest := (ih (n := n + 1) (by omega)).mpr ⟨by omega, hforall⟩
          rw [haip, hrest]
          rfl

theorem wgParseAips_eq : wgParseAips w text = some aips ↔ (strtok ',' text).length ≤ wgMaxAips ∧
    List.Forall₂ (fun tok aip => wgParseAip w (tok.dropWhile (· == ' ')) = some aip)
      (strtok ',' text) aips := by
  unfold wgParseAips
  rw [parseAipTokens_eq (Nat.zero_le _), Nat.zero_add]

theorem exists_forall₂ {α β : Type*} {R : α → β → Prop} {l : List α}
    (h : ∀ a ∈ l, ∃ b, R a b) : ∃ l', List.Forall₂ R l l' := by
  induction l with
  | nil => exact ⟨[], .nil⟩
  | cons a l ih =>
      obtain ⟨b, hb⟩ := h a List.mem_cons_self
      obtain ⟨l', hl'⟩ := ih fun x hx => h x (List.mem_cons_of_mem _ hx)
      exact ⟨b :: l', .cons hb hl'⟩

theorem forall_of_forall₂ {α β : Type*} {R : α → β → Prop} {p : α → Prop} {l : List α} {l' : List β}
    (h : List.Forall₂ R l l') (hp : ∀ a b, R a b → p a) : ∀ a ∈ l, p a :=
  ((List.forall₂_and_left l l').mp (h.imp fun a b hab => ⟨hp a b hab, hab⟩)).1

theorem aipsRead_iff : AipsRead w text ↔ ∃ aips, wgParseAips w text = some aips := by
  constructor
  · rintro ⟨hroom, hread⟩
    obtain ⟨aips, haips⟩ := exists_forall₂ fun tok htok => aipRead_iff.mp (hread tok htok)
    exact ⟨aips, wgParseAips_eq.mpr ⟨hroom, haips⟩⟩
  · rintro ⟨aips, h⟩
    obtain ⟨hroom, haips⟩ := wgParseAips_eq.mp h
    exact ⟨hroom, forall_of_forall₂ haips fun tok aip haip => aipRead_iff.mpr ⟨aip, haip⟩⟩

/-- Nothing is a prefix. -/
theorem not_addrPrefix_nil {addr : U32} {len : Nat} : ¬AddrPrefix [] addr len := by
  intro h
  cases (h.bare rfl).1

/-- **A list of prefixes is what its text says when it is plain, and only then.** -/
theorem wgParseAips_exact_iff :
    (∀ aips, wgParseAips w text = some aips → AipsText text aips) ↔
      (AipsRead w text → AipsPlain text) := by
  constructor
  · intro h hread
    obtain ⟨aips, haips⟩ := aipsRead_iff.mp hread
    rcases h aips haips with ⟨rfl, -⟩ | ⟨-, hsaid⟩
    · exact Or.inl rfl
    · refine Or.inr (forall_of_forall₂ hsaid fun item aip hitem => ⟨?_, AddrPrefix.plain hitem⟩)
      rintro rfl
      exact not_addrPrefix_nil hitem
  · intro h aips haips
    by_cases hnil : text = []
    · rw [hnil] at haips
      obtain ⟨-, hforall⟩ := wgParseAips_eq.mp haips
      exact Or.inl ⟨hnil, List.forall₂_nil_left_iff.mp hforall⟩
    · rcases h (aipsRead_iff.mpr ⟨aips, haips⟩) with hempty | hplain
      · exact absurd hempty hnil
      -- no token is dropped
      have htokens : strtok ',' text = text.splitOn ',' := by
        refine List.filter_eq_self.mpr fun item hitem => ?_
        exact decide_eq_true (hplain item hitem).1
      obtain ⟨-, hforall⟩ := wgParseAips_eq.mp haips
      rw [htokens] at hforall
      refine Or.inr ⟨hnil, ?_⟩
      have hboth := (List.forall₂_and_left _ _).mpr
        ⟨fun item hitem => (hplain item hitem).2, hforall⟩
      exact hboth.imp fun item aip hitem => wgParseAip_said hitem.1 hitem.2

/-- The entries that are written are the first ones of the request. -/
theorem map_aips (h : aips.length ≤ wgMaxAips) (old : Fin wgMaxAips → Aip) :
    ((List.finRange wgMaxAips).take (BitVec.ofNat 8 aips.length).toNat).map
      (fun j : Fin wgMaxAips => aips.getD j (old j)) = aips := by
  have hroom : wgMaxAips = 8 := rfl
  have hlength : (BitVec.ofNat 8 aips.length).toNat = aips.length := by
    rw [BitVec.toNat_ofNat]
    omega
  rw [hlength]
  refine List.ext_getElem ?_ fun i hi hi' => ?_
  · rw [List.length_map, List.length_take, List.length_finRange]
    omega
  · rw [List.getElem_map, List.getElem_take, List.getElem_finRange]
    exact List.getD_eq_getElem _ _ hi'

end List

/-! ### Numbers -/

section Number

variable {text : Text}

/-- **A number is what its text says** when that is digits for at most 16 bits, and only
then. -/
theorem strtoul_exact_iff : Numeral text (BitVec.ofNat 16 (strtoul w text)).toNat ↔
    ∃ n ≤ 65535, Numeral text n := by
  constructor
  · intro h
    have hlt := (BitVec.ofNat 16 (strtoul w text)).isLt
    exact ⟨_, by omega, h⟩
  · rintro ⟨n, hn, h⟩
    have hpow := w.two_pow_bits_le
    rw [strtoul_numeral h, if_neg (by omega), BitVec.toNat_ofNat]
    rw [Nat.mod_eq_of_lt (by omega)]
    exact h

/-- No number starts like `off`. -/
theorem strtoul_off (h : strcasecmp text Word.off = true) : strtoul w text = 0 := by
  unfold strcasecmp at h
  have hmap : text.map Char.toLower = ['o', 'f', 'f'] := beq_iff_eq.mp h
  cases text with
  | nil => cases hmap
  | cons a rest =>
      rw [List.map_cons] at hmap
      have ha : a.toLower = 'o' := (List.cons.inj hmap).1
      have hnumber : readNumber (a :: rest) = (false, 0) := by
        have hspace : isSpace a = false := by
          by_contra hc
          simp only [Bool.not_eq_false, isSpace, Bool.or_eq_true, beq_iff_eq] at hc
          rcases hc with ((((rfl | rfl) | rfl) | rfl) | rfl) | rfl <;> exact absurd ha (by decide)
        have hdigit : a.isDigit = false := by
          by_contra hc
          rw [Bool.not_eq_false] at hc
          rw [toLower_of_isDigit hc] at ha
          rw [ha] at hc
          exact absurd hc (by decide)
        have hsign : readSign (a :: rest) = (false, a :: rest) := by
          unfold readSign
          split
          · rename_i hc
            cases hc
            exact absurd ha (by decide)
          · rename_i hc
            cases hc
            exact absurd ha (by decide)
          · rfl
        unfold readNumber
        rw [List.dropWhile_cons_of_neg (by rw [hspace]; exact Bool.false_ne_true), hsign]
        dsimp only
        rw [List.takeWhile_cons_of_neg (by rw [hdigit]; exact Bool.false_ne_true)]
        rfl
      unfold strtoul
      rw [hnumber]
      dsimp only
      rw [if_neg (Nat.not_le.mpr (Nat.two_pow_pos _)), if_neg Bool.false_ne_true]

/-- **A keepalive is what its text says**: `off`, or digits for at most 16 bits. -/
theorem keepalive_exact_iff {n : U16} (hoff : strcasecmp text Word.off = true → n = 0)
    (hnumber : strcasecmp text Word.off ≠ true → n = BitVec.ofNat 16 (strtoul w text)) :
    (Numeral text n.toNat ∨ (strcasecmp text Word.off = true ∧ n = 0)) ↔
      (strcasecmp text Word.off = true ∨ ∃ n ≤ 65535, Numeral text n) := by
  by_cases h : strcasecmp text Word.off = true
  · exact ⟨fun _ => Or.inl h, fun _ => Or.inr ⟨h, hoff h⟩⟩
  · rw [hnumber h, strtoul_exact_iff]
    constructor
    · rintro (hnum | ⟨hc, -⟩)
      · exact Or.inr hnum
      · exact absurd hc h
    · rintro (hc | hnum)
      · exact absurd hc h
      · exact Or.inl hnum

end Number

/-! ### Every value -/

theorem prefixMask_eq (cidr : Byte) : prefixMask cidr = netmask cidr.toNat := by
  unfold prefixMask netmask
  split
  · rename_i hzero
    rw [hzero]
    rfl
  · rfl

section Exact

variable {place : Place} {f : Field} {val : Text}

/-- A value that is parsed and then put into the request. -/
theorem exact_of_parse {α : Type} {parsed : Option α} {put : α → Request} {value : α → Value}
    (hput : place.put w val = parsed.map put)
    (hcarried : ∀ a, parsed = some a → f.carried (put a) = some (value a)) :
    Exact w place f val ↔ ∀ a, parsed = some a → f.Denotes val (value a) := by
  unfold Exact
  rw [hput]
  constructor
  · intro h a ha
    obtain ⟨v, hv, hsaid⟩ := h (put a) (by rw [ha, Option.map_some])
    rw [hcarried a ha] at hv
    cases hv
    exact hsaid
  · intro h req hreq
    obtain ⟨a, ha, rfl⟩ := Option.map_eq_some_iff.mp hreq
    exact ⟨value a, hcarried a ha, h a ha⟩

/-- The same, for a value that is not refused. -/
theorem exact_of_number {req : Request} {v : Value} (hput : place.put w val = some req)
    (hcarried : f.carried req = some v) : Exact w place f val ↔ f.Denotes val v := by
  have h := @exact_of_parse w place f val Unit (some ()) (fun _ => req) (fun _ => v) hput
    fun _ _ => hcarried
  rw [h]
  exact ⟨fun h => h () rfl, fun h _ _ => h⟩

theorem address_exact {put : Aip → Request}
    (hput : place.put w val = (wgParseAip w val).map put)
    (hcarried : ∀ a, Field.address.carried (put a) = some (.net a.addr (prefixMask a.cidr))) :
    Exact w place .address val ↔ Field.address.Plain w val := by
  rw [exact_of_parse hput fun a _ => hcarried a]
  have hplain : Field.address.Plain w val ↔ (AipRead w val → AipPlain val) := Iff.rfl
  rw [hplain, ← wgParseAip_exact_iff]
  constructor
  · intro h aip haip
    obtain ⟨len, hsaid, -⟩ := h aip haip
    have hread := aipRead_iff.mpr ⟨aip, haip⟩
    exact wgParseAip_said (AddrPrefix.plain hsaid) haip
  · intro h aip haip
    exact ⟨_, h aip haip, prefixMask_eq _⟩

theorem endpoint_exact {put : U16 × U32 → Request}
    (hput : place.put w val = (wgParseEndpoint w val).map put)
    (hcarried : ∀ r, Field.endpoint.carried (put r) = some (.endpoint r.2 (ntohs r.1))) :
    Exact w place .endpoint val ↔ Field.endpoint.Plain w val := by
  rw [exact_of_parse hput fun r _ => hcarried r]
  exact wgParseEndpoint_exact_iff

theorem allowedIps_exact {put : List Aip → Request}
    (hput : place.put w val = (wgParseAips w val).map put)
    (hcarried : ∀ aips, aips.length ≤ wgMaxAips →
      Field.allowedIps.carried (put aips) = some (.nets aips)) :
    Exact w place .allowedIps val ↔ Field.allowedIps.Plain w val := by
  have hparsed : ∀ aips, wgParseAips w val = some aips →
      Field.allowedIps.carried (put aips) = some (.nets aips) := by
    intro aips haips
    obtain ⟨hroom, hforall⟩ := wgParseAips_eq.mp haips
    refine hcarried aips ?_
    rw [← hforall.length_eq]
    exact hroom
  rw [exact_of_parse hput hparsed]
  exact wgParseAips_exact_iff

theorem listenPort_exact {ifr : IfReq} (hput : place.put w val = some (.ofIf ifr))
    (hflag : ifr.has wgIfHasListenPort = true)
    (hport : ifr.listenPort = BitVec.ofNat 16 (strtoul w val)) :
    Exact w place .listenPort val ↔ Field.listenPort.Plain w val := by
  have hcarried : Field.listenPort.carried (.ofIf ifr) = some (.number ifr.listenPort) :=
    if_pos hflag
  rw [exact_of_number hput hcarried, hport]
  exact strtoul_exact_iff

theorem keepalive_exact {req : PeerReq} (hput : place.put w val = some (.ofPeer req))
    (hflag : req.has wgPeerHasKeepalive = true)
    (hoff : strcasecmp val Word.off = true → req.keepalive = 0)
    (hnumber : strcasecmp val Word.off ≠ true →
      req.keepalive = BitVec.ofNat 16 (strtoul w val)) :
    Exact w place .keepalive val ↔ Field.keepalive.Plain w val := by
  have hcarried : Field.keepalive.carried (.ofPeer req) = some (.number req.keepalive) :=
    if_pos hflag
  rw [exact_of_number hput hcarried]
  exact keepalive_exact_iff hoff hnumber

/-! ### The four places -/

/-- A word is spelled like one word only. -/
theorem strcasecmp_other {key word word' : Text} (h : strcasecmp key word = true)
    (hne : word'.map Char.toLower ≠ word.map Char.toLower) : ¬strcasecmp key word' = true := by
  intro hc
  unfold strcasecmp at h hc
  exact hne ((beq_iff_eq.mp hc).symm.trans (beq_iff_eq.mp h))

theorem item_exact {word : Text} {ifr : IfReq} (hf : (Place.item word ifr).field = some f) :
    Exact w (.item word ifr) f val ↔ f.Plain w val := by
  unfold Place.field at hf
  dsimp only at hf
  split at hf
  · rename_i hword
    cases hf
    rw [hword]
    exact @listenPort_exact _ _ val { ifr with
      flags := wgIfHasListenPort
      listenPort := BitVec.ofNat 16 (strtoul w val) } rfl (IfReq.has_of_eq rfl (by decide)) rfl
  split at hf
  · rename_i hword
    cases hf
    rw [hword]
    refine @address_exact _ _ val (fun a => .ofIf { ifr with
      flags := wgIfHasAddr
      addr := a.addr
      netmask := prefixMask a.cidr }) ?_
      fun a => if_pos (IfReq.has_of_eq rfl (by decide : wgIfHasAddr ≠ 0))
    have hput : (Place.item Item.address ifr).put w val
        = (setInterface w Item.address val ifr).toOption.map .ofIf := rfl
    have hprivate : Item.address ≠ Item.privateKey := by decide
    have hport : Item.address ≠ Item.listenPort := by decide
    rw [hput, setInterface, if_neg hprivate, if_neg hport, if_pos rfl]
    cases wgParseAip w val <;> rfl
  · cases hf

theorem option_exact {opt : Text} {peer : PeerReq} (hf : (Place.option opt peer).field = some f) :
    Exact w (.option opt peer) f val ↔ f.Plain w val := by
  have hput : (Place.option opt peer).put w val = (setOption w opt val peer).toOption.map .ofPeer := rfl
  unfold Place.field at hf
  dsimp only at hf
  split at hf
  · rename_i hopt
    cases hf
    refine @endpoint_exact _ _ val (fun r => .ofPeer { peer with
      sinFamily := afInet
      sinPort := r.1
      sinAddr := r.2
      flags := peer.flags ||| wgPeerHasEndpoint }) ?_
      fun r => if_pos (PeerReq.has_or rfl (by decide) (by decide))
    rw [hput, setOption, if_pos hopt]
    cases wgParseEndpoint w val <;> rfl
  rename_i hendpoint
  split at hf
  · rename_i hopt
    cases hf
    refine @allowedIps_exact _ _ val (fun aips => .ofPeer { peer with
      aips := fun j => aips.getD j (peer.aips j)
      naips := BitVec.ofNat 8 aips.length
      flags := peer.flags ||| (wgPeerHasAips ||| wgPeerReplaceAips) }) ?_ fun aips haips => ?_
    · rw [hput, setOption, if_neg hendpoint, if_pos hopt]
      cases wgParseAips w val <;> rfl
    · refine (if_pos (PeerReq.has_or rfl (by decide) (by decide))).trans ?_
      exact congrArg (some ∘ Value.nets) (map_aips haips peer.aips)
  rename_i haips
  split at hf
  · rename_i hopt
    cases hf
    refine @keepalive_exact _ _ val { peer with
      keepalive := if val = Word.off then 0 else BitVec.ofNat 16 (strtoul w val)
      flags := peer.flags ||| wgPeerHasKeepalive } ?_ (PeerReq.has_or rfl (by decide) (by decide))
      (fun hoff => ?_) fun hoff => ?_
    · rw [hput, setOption, if_neg hendpoint, if_neg haips, if_pos hopt]
      rfl
    · dsimp only
      split
      · rfl
      · rw [strtoul_off hoff]
        rfl
    · dsimp only
      refine if_neg fun hval => hoff ?_
      rw [hval]
      decide
  · cases hf

theorem interfaceLine_exact {key : Text} {ifr : IfReq}
    (hf : (Place.interfaceLine key ifr).field = some f) :
    Exact w (.interfaceLine key ifr) f val ↔ f.Plain w val := by
  have hput : (Place.interfaceLine key ifr).put w val = (interfaceKey w key val ifr).map .ofIf := rfl
  unfold Place.field at hf
  dsimp only at hf
  split at hf
  · rename_i hkey
    cases hf
    refine @listenPort_exact _ _ val { ifr with
      listenPort := BitVec.ofNat 16 (strtoul w val)
      flags := ifr.flags ||| wgIfHasListenPort } ?_
      (IfReq.has_or rfl (by decide) (by decide)) rfl
    rw [hput, interfaceKey, if_neg (strcasecmp_other hkey (by decide)), if_pos hkey]
    rfl
  rename_i hport
  split at hf
  · rename_i hkey
    cases hf
    refine @address_exact _ _ val (fun a => .ofIf { ifr with
      addr := a.addr
      netmask := prefixMask a.cidr
      flags := ifr.flags ||| wgIfHasAddr }) ?_
      fun a => if_pos (IfReq.has_or rfl (by decide) (by decide))
    rw [hput, interfaceKey, if_neg (strcasecmp_other hkey (by decide)), if_neg hport, if_pos hkey]
    cases wgParseAip w val <;> rfl
  · cases hf

theorem peerLine_exact {key : Text} {req : PeerReq} (hf : (Place.peerLine key req).field = some f) :
    Exact w (.peerLine key req) f val ↔ f.Plain w val := by
  have hput : (Place.peerLine key req).put w val = (peerKey w key val req).map .ofPeer := rfl
  unfold Place.field at hf
  dsimp only at hf
  split at hf
  · rename_i hkey
    cases hf
    refine @allowedIps_exact _ _ val (fun aips => .ofPeer { req with
      aips := fun j => aips.getD j (req.aips j)
      naips := BitVec.ofNat 8 aips.length
      flags := req.flags ||| (wgPeerHasAips ||| wgPeerReplaceAips) }) ?_ fun aips haips => ?_
    · rw [hput, peerKey, if_neg (strcasecmp_other hkey (by decide)),
        if_neg (strcasecmp_other hkey (by decide)), if_pos hkey]
      cases wgParseAips w val <;> rfl
    · refine (if_pos (PeerReq.has_or rfl (by decide) (by decide))).trans ?_
      exact congrArg (some ∘ Value.nets) (map_aips haips req.aips)
  rename_i haips
  split at hf
  · rename_i hkey
    cases hf
    refine @endpoint_exact _ _ val (fun r => .ofPeer { req with
      sinFamily := afInet
      sinPort := r.1
      sinAddr := r.2
      flags := req.flags ||| wgPeerHasEndpoint }) ?_
      fun r => if_pos (PeerReq.has_or rfl (by decide) (by decide))
    rw [hput, peerKey, if_neg (strcasecmp_other hkey (by decide)),
      if_neg (strcasecmp_other hkey (by decide)), if_neg haips, if_pos hkey]
    cases wgParseEndpoint w val <;> rfl
  rename_i hendpoint
  split at hf
  · rename_i hkey
    cases hf
    refine @keepalive_exact _ _ val { req with
      keepalive := if strcasecmp val Word.off then 0 else BitVec.ofNat 16 (strtoul w val)
      flags := req.flags ||| wgPeerHasKeepalive } ?_ (PeerReq.has_or rfl (by decide) (by decide))
      (fun hoff => if_pos hoff) fun hoff => if_neg hoff
    rw [hput, peerKey, if_neg (strcasecmp_other hkey (by decide)),
      if_neg (strcasecmp_other hkey (by decide)), if_neg haips, if_neg hendpoint, if_pos hkey]
    rfl
  · cases hf

/-- **A value of a command is what its text says exactly when the text is plain**, wherever
it stands and whatever was put into the request before. -/
theorem values_exact_iff (w : LongWidth) (place : Place) (f : Field) (hf : place.field = some f)
    (val : Text) :
    Exact w place f val ↔ f.Plain w val := by
  cases place with
  | item word ifr => exact item_exact hf
  | option opt peer => exact option_exact hf
  | interfaceLine key ifr => exact interfaceLine_exact hf
  | peerLine key req => exact peerLine_exact hf

end Exact

namespace Sample

def twoPrefixes : Text :=
  ['1', '0', '.', '0', '.', '0', '.', '0', '/', '8', ',', ' ',
    '1', '9', '2', '.', '1', '6', '8', '.', '7', '.', '9']

theorem twoPrefixes_plain : AipsPlain twoPrefixes := by
  have hitems : twoPrefixes.splitOn ',' = [twoPrefixes.take 10, twoPrefixes.drop 11] := by decide
  have hfirst : strchr '/' (twoPrefixes.take 10) = some (twoPrefixes.take 8, ['8']) := by decide
  refine Or.inr fun item hitem => ?_
  rw [hitems] at hitem
  rcases List.mem_pair.mp hitem with rfl | rfl
  · refine ⟨by decide, fun host tail hsep => ?_, fun hnone => ?_⟩
    · cases hfirst.symm.trans hsep
      exact ⟨List.cons_ne_nil _ _, List.forall_mem_singleton.mpr rfl⟩
    · cases hfirst.symm.trans hnone
  · refine ⟨by decide, fun host tail hsep => ?_, fun _ => by decide⟩
    cases hsep

end Sample

/-- Two prefixes, read in a file and on the command line. -/
theorem values_exact_iff_sample :
    Exact .lp64 (.peerLine Word.allowedIps PeerReq.zero) .allowedIps Sample.twoPrefixes ∧
      Exact .ilp32 (.option Item.allowedIps PeerReq.zero) .allowedIps Sample.twoPrefixes :=
  ⟨(values_exact_iff _ _ _ rfl _).mpr fun _ => Sample.twoPrefixes_plain,
    (values_exact_iff _ _ _ rfl _).mpr fun _ => Sample.twoPrefixes_plain⟩

/-- A listen port of more than 16 bits loses the upper ones. -/
theorem not_values_exact : ¬∀ (w : LongWidth) (place : Place) (f : Field), place.field = some f →
    ∀ val, Exact w place f val := by
  intro hall
  have hexact := hall .ilp32 (.item Item.listenPort IfReq.zero) .listenPort rfl
    ['7', '0', '0', '0', '0']
  obtain ⟨n, hn, hnum⟩ := (item_exact rfl).mp hexact
  have hvalue : Numeral ['7', '0', '0', '0', '0'] 70000 :=
    ⟨by simp, List.all_eq_true.mp (by decide), by decide⟩
  have hsame := hnum.unique hvalue
  omega

end NuttxWireguard.Cli
