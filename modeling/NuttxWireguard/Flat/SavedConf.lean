/-
What a saved configuration restores.

`wg_saveconf` writes the staged configuration, or the build's where nothing is staged, and
`wg_setconf` on a fresh program stages it again.  The entries differ in their texts: a mask
is written as a prefix length, and a keepalive that was not given comes back as the build's.
What `wg_initialize` makes of them is the same.

The writer's output is a list of lines that fit the reader's buffer; each section of it is
what the accumulator holds at its end, and staging that gives the entry again.
-/
import NuttxWireguard.Flat.ConfFile
import NuttxWireguard.Lib.Run

namespace NuttxWireguard.Flat

open Lib

/-! ### Lines -/

/-- Neither blank nor an end of a line or of the string. -/
def Printed (a : Char) : Prop := a ≠ ' ' ∧ a ≠ '\t' ∧ a ≠ '\r' ∧ a ≠ '\n' ∧ a ≠ '\x00'

/-- What stands behind `=` in a line that was written. -/
structure ValueText (val : Text) : Prop where
  nonempty : val ≠ []
  printed : ∀ a ∈ val, Printed a

/-- What stands in front of it. -/
structure KeyName (key : Text) : Prop extends ValueText key where
  plain : ∀ a ∈ key, a ≠ '=' ∧ a ≠ '#' ∧ a ≠ ';' ∧ a ≠ '['

theorem KeyName.of_all {key : Text} (hne : key ≠ [])
    (h : (key.all fun a => decide (a ≠ ' ' ∧ a ≠ '\t' ∧ a ≠ '\r' ∧ a ≠ '\n' ∧ a ≠ '\x00' ∧
      a ≠ '=' ∧ a ≠ '#' ∧ a ≠ ';' ∧ a ≠ '[')) = true) : KeyName key := by
  have hall : ∀ a ∈ key, a ≠ ' ' ∧ a ≠ '\t' ∧ a ≠ '\r' ∧ a ≠ '\n' ∧ a ≠ '\x00' ∧
      a ≠ '=' ∧ a ≠ '#' ∧ a ≠ ';' ∧ a ≠ '[' :=
    fun a ha => of_decide_eq_true (List.all_eq_true.mp h a ha)
  refine ⟨⟨hne, fun a ha => ?_⟩, fun a ha => ?_⟩
  · obtain ⟨h₁, h₂, h₃, h₄, h₅, -⟩ := hall a ha
    exact ⟨h₁, h₂, h₃, h₄, h₅⟩
  · obtain ⟨-, -, -, -, -, h₁, h₂, h₃, h₄⟩ := hall a ha
    exact ⟨h₁, h₂, h₃, h₄⟩

theorem Printed.of_isDigit {a : Char} (h : a.isDigit = true) : Printed a := by
  refine ⟨?_, ?_, ?_, ?_, ?_⟩ <;> rintro rfl <;> exact absurd h (by decide)

theorem Printed.isBlank {a : Char} (h : Printed a) : isBlank a = false := by
  simp [Lib.isBlank, h.1, h.2.1]

theorem Printed.isTrailing {a : Char} (h : Printed a) : isTrailing a = false := by
  obtain ⟨hspace, htab, hcr, hlf, -⟩ := h
  simp [Flat.isTrailing, hspace, htab, hcr, hlf]

/-- What is trimmed away: blanks in front, and behind also ends of lines. -/
theorem wgConfTrim_around {front body back : Text} (hfront : ∀ a ∈ front, isBlank a = true)
    (hback : ∀ a ∈ back, isTrailing a = true) (hne : body ≠ [])
    (hhead : ∀ a ∈ body.head?, isBlank a = false)
    (hlast : ∀ a ∈ body.getLast?, isTrailing a = false) :
    wgConfTrim (front ++ body ++ back) = body := by
  obtain ⟨first, rest, hfirst⟩ := List.exists_cons_of_ne_nil hne
  have hskip : skipBlanks (front ++ body ++ back) = body ++ back := by
    unfold skipBlanks
    rw [List.append_assoc]
    refine dropWhile_append_stop hfront fun a ha => hhead a ?_
    rw [hfirst] at ha ⊢
    exact ha
  have hdrop : ∀ back : Text, (∀ a ∈ back, isTrailing a = true) →
      (body ++ back).rdropWhile isTrailing = body := by
    intro back
    induction back using List.reverseRecOn with
    | nil =>
        intro _
        rw [List.append_nil, List.rdropWhile_eq_self_iff]
        intro hl hc
        rw [hlast _ (List.getLast?_eq_some_getLast hl)] at hc
        cases hc
    | append_singleton back a ih =>
        intro hall
        rw [← List.append_assoc, List.rdropWhile_concat_pos _ _ _ (hall a (by simp))]
        exact ih fun b hb => hall b (List.mem_append_left _ hb)
  unfold wgConfTrim
  rw [hskip, hdrop back hback]

/-- Nothing is trimmed inside a value. -/
theorem wgConfTrim_value {front val back : Text} (hfront : ∀ a ∈ front, isBlank a = true)
    (hback : ∀ a ∈ back, isTrailing a = true) (hval : ValueText val) :
    wgConfTrim (front ++ val ++ back) = val :=
  wgConfTrim_around hfront hback hval.nonempty
    (fun a ha => (hval.printed a (List.mem_of_mem_head? ha)).isBlank)
    fun a ha => (hval.printed a (List.mem_of_getLast? ha)).isTrailing

section Lines

variable {kc : Kconfig} {maxPeers : Nat} {key val : Text} {l : Loading}

/-- A line of `key = val`, without its end. -/
def entryBody (key val : Text) : Text := key ++ [' ', '=', ' '] ++ val

theorem entryBody_printed (hkey : KeyName key) (hval : ValueText val) {a : Char}
    (ha : a ∈ entryBody key val) : a = ' ' ∨ a = '=' ∨ Printed a := by
  rcases List.mem_append.mp ha with ha | ha
  · rcases List.mem_append.mp ha with ha | ha
    · exact Or.inr (Or.inr (hkey.printed a ha))
    · simp only [List.mem_cons, List.not_mem_nil, or_false] at ha
      rcases ha with rfl | rfl | rfl
      · exact Or.inl rfl
      · exact Or.inr (Or.inl rfl)
      · exact Or.inl rfl
  · exact Or.inr (Or.inr (hval.printed a ha))

/-- An entry ends nowhere but at its end. -/
theorem not_mem_entryBody (hkey : KeyName key) (hval : ValueText val) :
    '\n' ∉ entryBody key val ∧ '\x00' ∉ entryBody key val := by
  constructor
  · intro hc
    rcases entryBody_printed hkey hval hc with h | h | h
    · exact absurd h (by decide)
    · exact absurd h (by decide)
    · exact h.2.2.2.1 rfl
  · intro hc
    rcases entryBody_printed hkey hval hc with h | h | h
    · exact absurd h (by decide)
    · exact absurd h (by decide)
    · exact h.2.2.2.2 rfl

/-- **What the reader makes of an entry.** -/
theorem confLine_entry (hkey : KeyName key) (hval : ValueText val) :
    confLine kc maxPeers (entryBody key val ++ ['\n']) l = confKey kc.long key val l := by
  obtain ⟨first, rest, hfirst⟩ := List.exists_cons_of_ne_nil hkey.nonempty
  have hbody : entryBody key val = first :: (rest ++ [' ', '=', ' '] ++ val) := by
    unfold entryBody
    rw [hfirst]
    rfl
  have hnul : '\x00' ∉ entryBody key val ++ ['\n'] := by
    intro hc
    rcases List.mem_append.mp hc with hc | hc
    · exact (not_mem_entryBody hkey hval).2 hc
    · exact absurd hc (by decide)
  have htrim : wgConfTrim (cString (entryBody key val ++ ['\n'])) = entryBody key val := by
    rw [cString_eq hnul]
    have haround := @wgConfTrim_around [] (entryBody key val) ['\n'] (by intro a ha; cases ha)
      (List.forall_mem_singleton.mpr rfl) (by rw [hbody]; exact List.cons_ne_nil _ _) ?_ ?_
    · exact haround
    · rw [hbody]
      intro a ha
      cases ha
      exact (hkey.printed first (hfirst ▸ List.mem_cons_self)).isBlank
    · unfold entryBody
      rw [List.getLast?_append_of_ne_nil _ hval.nonempty]
      intro a ha
      exact (hval.printed a (List.mem_of_getLast? ha)).isTrailing
  have hchr : strchr '=' (entryBody key val) = some (key ++ [' '], ' ' :: val) := by
    have hsplit : entryBody key val = (key ++ [' ']) ++ '=' :: (' ' :: val) := by
      simp [entryBody]
    rw [hsplit]
    refine strchr_append (fun hc => ?_) _
    rcases List.mem_append.mp hc with hc | hc
    · exact (hkey.plain _ hc).1 rfl
    · exact absurd hc (by decide)
  have hk : wgConfTrim (key ++ [' ']) = key :=
    @wgConfTrim_value [] key [' '] (by intro a ha; cases ha)
      (List.forall_mem_singleton.mpr rfl) hkey.toValueText
  have hv : wgConfTrim (' ' :: val) = val := by
    have hvalue := @wgConfTrim_value [' '] val [] (List.forall_mem_singleton.mpr rfl)
      (by intro a ha; cases ha) hval
    rwa [List.append_nil] at hvalue
  obtain ⟨-, hhash, hsemi, hbracket⟩ := hkey.plain first (hfirst ▸ List.mem_cons_self)
  have hhead : (entryBody key val).head? = some first := by rw [hbody]; rfl
  unfold confLine
  dsimp only
  rw [htrim, hhead, if_neg (by simp [hbody, hhash, hsemi]), if_neg (by simp [hbracket]), hchr]
  dsimp only
  rw [hk, hv]

theorem confLine_blank : confLine kc maxPeers ([] ++ ['\n']) l = .ok l := by
  have htrim : wgConfTrim (cString ([] ++ ['\n'])) = [] := by decide
  unfold confLine
  dsimp only
  rw [htrim, if_pos (Or.inl rfl)]

/-- A section header stages what was read before it. -/
theorem confLine_header {word : Text} {st : Staged}
    (hword : wgConfTrim (cString (word ++ ['\n'])) = word) (hhead : word.head? = some '[')
    (h : wgConfFlushPeer kc maxPeers l = .ok st) :
    confLine kc maxPeers (word ++ ['\n']) l = .ok ⟨st, ConfPeer.zero⟩ := by
  have hne : word ≠ [] := by
    rintro rfl
    cases hhead
  unfold confLine
  dsimp only
  rw [hword, hhead, if_neg (by simp [hne]), if_pos rfl, h]
  rfl

/-! ### Several lines -/

/-- Lines that are read without an error, and what they lead to. -/
def Reads (kc : Kconfig) (maxPeers : Nat) (ls : List Text) (l l' : Loading) : Prop :=
  confLines kc maxPeers (ls.map (· ++ ['\n'])) l = (l', none)

theorem Reads.nil : Reads kc maxPeers [] l l := rfl

theorem Reads.cons {body : Text} {ls : List Text} {l' l'' : Loading}
    (h : confLine kc maxPeers (body ++ ['\n']) l = .ok l') (hrest : Reads kc maxPeers ls l' l'') :
    Reads kc maxPeers (body :: ls) l l'' := by
  unfold Reads
  rw [List.map_cons, confLines, h]
  exact hrest

theorem Reads.append {ls ls' : List Text} {l' l'' : Loading} (h : Reads kc maxPeers ls l l')
    (hrest : Reads kc maxPeers ls' l' l'') : Reads kc maxPeers (ls ++ ls') l l'' := by
  induction ls generalizing l with
  | nil =>
      cases h
      exact hrest
  | cons body ls ih =>
      unfold Reads at h
      rw [List.map_cons, confLines] at h
      cases hline : confLine kc maxPeers (body ++ ['\n']) l with
      | error errno =>
          rw [hline] at h
          cases h
      | ok l₁ =>
          rw [hline] at h
          exact Reads.cons hline (ih h)

end Lines

/-! ### The words of the file -/

theorem keyName_words : KeyName Word.privateKey ∧ KeyName Word.listenPort ∧
    KeyName Word.publicKey ∧ KeyName Word.allowedIps ∧ KeyName Word.endpoint ∧
    KeyName Word.persistentKeepalive :=
  ⟨.of_all (by decide) (by decide), .of_all (by decide) (by decide),
    .of_all (by decide) (by decide), .of_all (by decide) (by decide),
    .of_all (by decide) (by decide), .of_all (by decide) (by decide)⟩

theorem valueText_key {b64 : Text} {key : Key} (h : wgDecodeKey b64 = some key) :
    ValueText b64 := by
  obtain ⟨hlength, hmem⟩ := wgDecodeKey_text h
  refine ⟨fun hc => ?_, fun a ha => ?_⟩
  · rw [hc] at hlength
    cases hlength
  · have htable : (base64Lookup.all fun a => decide (a ≠ ' ' ∧ a ≠ '\t' ∧ a ≠ '\r' ∧ a ≠ '\n' ∧
        a ≠ '\x00')) = true := by decide
    rcases hmem a ha with ha | rfl
    · have hall : a ≠ ' ' ∧ a ≠ '\t' ∧ a ≠ '\r' ∧ a ≠ '\n' ∧ a ≠ '\x00' :=
        of_decide_eq_true (List.all_eq_true.mp htable a ha)
      exact hall
    · exact ⟨by decide, by decide, by decide, by decide, by decide⟩

theorem printed_of_mem_decimalInt {n : Int} {a : Char} (ha : a ∈ decimalInt n) : Printed a := by
  rcases mem_decimalInt ha with rfl | ha
  · exact ⟨by decide, by decide, by decide, by decide, by decide⟩
  · exact Printed.of_isDigit ha

theorem valueText_decimalInt (n : Int) : ValueText (decimalInt n) := by
  refine ⟨fun hc => ?_, fun a => printed_of_mem_decimalInt⟩
  unfold decimalInt at hc
  split at hc
  · cases hc
  · exact Nat.toDigits_ne_nil hc

theorem printed_of_inetPton {s : Text} {addr : U32} (h : inetPton s = some addr) {a : Char}
    (ha : a ∈ s) : Printed a := by
  rcases (inetPton_text h).2 a ha with rfl | ha
  · exact ⟨by decide, by decide, by decide, by decide, by decide⟩
  · exact Printed.of_isDigit ha

/-- An address, a separator and a number. -/
theorem valueText_pair {s tail : Text} {addr : U32} {sep : Char} (h : inetPton s = some addr)
    (hsep : Printed sep) (htail : ∀ a ∈ tail, Printed a) : ValueText (s ++ sep :: tail) := by
  refine ⟨by simp, fun a ha => ?_⟩
  rcases List.mem_append.mp ha with ha | ha
  · exact printed_of_inetPton h ha
  · rcases List.mem_cons.mp ha with rfl | ha
    · exact hsep
    · exact htail a ha

/-! ### A peer that is written -/

/-- What can be saved of an entry: its texts can be read, its mask is a prefix, and its port
is given if its address is. -/
structure StagedPeer.Savable (kc : Kconfig) (p : StagedPeer) : Prop where
  key : (wgDecodeKey p.publicKey).isSome = true
  allowedIp : (inetPton p.allowedIp).isSome = true
  allowedMask : ∃ len ≤ 32, inetPton p.allowedMask = some (maskOfPrefix (len : Nat))
  endpoint : p.endpointIp = [] ∨
    ((inetPton p.endpointIp).isSome = true ∧ p.endpointPort ≠ 0)
  port : p.endpointIp = [] →
    p.endpointPort = 0 ∨ p.endpointPort = kc.peerEndpointPort.setWidth 16

/-- The keepalive that is written. -/
def StagedPeer.writtenKeepalive (kc : Kconfig) (p : StagedPeer) : BitVec 32 :=
  if p.keepalive.toInt ≥ 0 then p.keepalive else kc.peerKeepalive

def StagedPeer.writtenAllowed (p : StagedPeer) : Text :=
  p.allowedIp ++ '/' :: decimal (wgMaskToPrefix p.allowedMask)

/-- The endpoint that is written, if there is one. -/
def StagedPeer.writtenEndpoint (p : StagedPeer) : Text :=
  if p.endpointIp = [] then [] else p.endpointIp ++ ':' :: decimal p.endpointPort.toNat

/-- The lines of `wg_showconf_peer`. -/
def peerLines (kc : Kconfig) (p : StagedPeer) : List Text :=
  [[], Word.peer, entryBody Word.publicKey p.publicKey,
    entryBody Word.allowedIps p.writtenAllowed] ++
  (if p.endpointIp = [] then [] else [entryBody Word.endpoint p.writtenEndpoint]) ++
  [entryBody Word.persistentKeepalive (decimalInt (p.writtenKeepalive kc).toInt)]

/-- What the accumulator holds behind them. -/
def StagedPeer.acc (kc : Kconfig) (p : StagedPeer) : ConfPeer where
  pubkey := p.publicKey
  endpoint := p.writtenEndpoint
  allowed := p.writtenAllowed
  keepalive := p.writtenKeepalive kc
  valid := true

/-- The entry that is staged from it. -/
def StagedPeer.restored (kc : Kconfig) (p : StagedPeer) : StagedPeer where
  publicKey := p.publicKey
  endpointIp := p.endpointIp
  allowedIp := p.allowedIp
  allowedMask := inetNtop (maskOfPrefix (wgMaskToPrefix p.allowedMask))
  endpointPort := if p.endpointIp = [] then 0 else p.endpointPort
  keepalive := if (p.writtenKeepalive kc).toInt ≥ 0 then p.writtenKeepalive kc else -1

theorem maskPrefix_table : ∀ len : Fin 33,
    maskPrefixLoop 32 (ntohl (maskOfPrefix ((len : Nat) : Int))) = len := by decide +kernel

theorem maskPrefixLoop_le (left : Nat) (m : U32) : maskPrefixLoop left m ≤ left := by
  induction left generalizing m with
  | zero => exact Nat.le_refl 0
  | succ left ih =>
      unfold maskPrefixLoop
      split
      · exact Nat.succ_le_succ (ih _)
      · exact Nat.zero_le _

theorem wgMaskToPrefix_le (mask : Text) : wgMaskToPrefix mask ≤ 32 := by
  unfold wgMaskToPrefix
  cases inetPton mask with
  | none => exact Nat.le_refl 32
  | some addr => exact maskPrefixLoop_le 32 _

section Peer

variable {kc : Kconfig} {p : StagedPeer} (h : p.Savable kc)

include h

/-- A mask that is a prefix is written as its length. -/
theorem StagedPeer.Savable.mask :
    inetPton p.allowedMask = some (maskOfPrefix (wgMaskToPrefix p.allowedMask)) := by
  obtain ⟨len, hle, hmask⟩ := h.allowedMask
  have hlen : wgMaskToPrefix p.allowedMask = len := by
    unfold wgMaskToPrefix
    rw [hmask]
    exact maskPrefix_table ⟨len, by omega⟩
  rw [hlen, hmask]

/-- **What `wg_initialize` makes of the restored entry is what it makes of the saved one.** -/
theorem StagedPeer.Savable.config_restored : (p.restored kc).config kc = p.config kc := by
  have hmask : inetPton (p.restored kc).allowedMask = inetPton p.allowedMask := by
    rw [h.mask]
    exact inetPton_inetNtop _
  have hkeepalive : (if (p.restored kc).keepalive.toInt ≥ 0 then (p.restored kc).keepalive
      else kc.peerKeepalive) = if p.keepalive.toInt ≥ 0 then p.keepalive else kc.peerKeepalive := by
    have hwritten : (p.restored kc).keepalive
        = if (p.writtenKeepalive kc).toInt ≥ 0 then p.writtenKeepalive kc else -1 := rfl
    rw [hwritten]
    unfold StagedPeer.writtenKeepalive
    by_cases hpos : p.keepalive.toInt ≥ 0
    · rw [if_pos hpos, if_pos hpos, if_pos hpos]
    · rw [if_neg hpos]
      by_cases hbuild : kc.peerKeepalive.toInt ≥ 0
      · rw [if_pos hbuild, if_pos hbuild]
      · rw [if_neg hbuild, if_neg (by decide)]
  have hport : (if (p.restored kc).endpointPort ≠ 0 then (p.restored kc).endpointPort
      else kc.peerEndpointPort.setWidth 16) =
      if p.endpointPort ≠ 0 then p.endpointPort else kc.peerEndpointPort.setWidth 16 := by
    have hrestored : (p.restored kc).endpointPort
        = if p.endpointIp = [] then 0 else p.endpointPort := rfl
    rw [hrestored]
    by_cases hip : p.endpointIp = []
    · rw [if_pos hip, if_neg (not_not.mpr rfl)]
      rcases h.port hip with hzero | hbuild
      · rw [hzero, if_neg (not_not.mpr rfl)]
      · rw [hbuild, ite_self]
    · rw [if_neg hip]
  unfold StagedPeer.config
  rw [hmask, hkeepalive, hport]
  rfl

theorem StagedPeer.Savable.allowed_text :
    ValueText p.writtenAllowed ∧ p.writtenAllowed.length < inetAddrstrlen + 8 := by
  obtain ⟨addr, haddr⟩ := Option.isSome_iff_exists.mp h.allowedIp
  refine ⟨valueText_pair haddr ⟨by decide, by decide, by decide, by decide, by decide⟩
    fun a ha => Printed.of_isDigit (isDigit_of_mem_decimal ha), ?_⟩
  have hip := (inetPton_text haddr).1
  have hlen : (decimal (wgMaskToPrefix p.allowedMask)).length ≤ 2 :=
    decimal_length_le (Nat.lt_of_le_of_lt (wgMaskToPrefix_le _) (by decide)) (by decide)
  unfold StagedPeer.writtenAllowed inetAddrstrlen
  rw [List.length_append, List.length_cons]
  omega

/-- An endpoint that is written has an address and a port. -/
theorem StagedPeer.Savable.endpoint_text (hip : p.endpointIp ≠ []) :
    ValueText p.writtenEndpoint ∧ p.writtenEndpoint.length < inetAddrstrlen + 8 := by
  rcases h.endpoint with hc | ⟨haddr, -⟩
  · exact absurd hc hip
  obtain ⟨addr, haddr⟩ := Option.isSome_iff_exists.mp haddr
  have hlength := (inetPton_text haddr).1
  have hport : (decimal p.endpointPort.toNat).length ≤ 5 :=
    decimal_length_le (Nat.lt_of_lt_of_le p.endpointPort.isLt (by decide)) (by decide)
  unfold StagedPeer.writtenEndpoint inetAddrstrlen
  rw [if_neg hip]
  refine ⟨valueText_pair haddr ⟨by decide, by decide, by decide, by decide, by decide⟩
    fun a ha => Printed.of_isDigit (isDigit_of_mem_decimal ha), ?_⟩
  rw [List.length_append, List.length_cons]
  omega

/-- `wg_showconf_peer` writes these lines. -/
theorem StagedPeer.Savable.showconf : wgShowconfPeer kc p = unlines (peerLines kc p) := by
  have hkeepalive : (if p.keepalive.toInt ≥ 0 then p.keepalive.toInt else kc.peerKeepalive.toInt)
      = (p.writtenKeepalive kc).toInt := (apply_ite BitVec.toInt _ _ _).symm
  unfold wgShowconfPeer peerLines
  rw [hkeepalive]
  by_cases hip : p.endpointIp = []
  · rw [if_pos hip, if_neg (by rw [hip]; exact Nat.lt_irrefl 0)]
    simp [unlines, confEntry, entryBody, StagedPeer.writtenAllowed]
  · have hport : p.endpointPort ≠ 0 := (h.endpoint.resolve_left hip).2
    rw [if_neg hip, if_pos (List.length_pos_iff.mpr hip), if_pos hport, decimalInt_natCast]
    simp [unlines, confEntry, entryBody, StagedPeer.writtenAllowed, StagedPeer.writtenEndpoint, hip]

end Peer

theorem writtenKeepalive_length (kc : Kconfig) (p : StagedPeer) :
    (decimalInt (p.writtenKeepalive kc).toInt).length ≤ 11 := by
  have hlo := BitVec.le_two_mul_toInt (x := p.writtenKeepalive kc)
  have hhi := BitVec.two_mul_toInt_lt (x := p.writtenKeepalive kc)
  exact decimalInt_length_le (k := 10) (by omega) (by decide)

/-- An entry fits the reader's buffer. -/
theorem entryBody_fits {key val : Text} (hkey : KeyName key) (hval : ValueText val)
    (hlength : key.length + val.length ≤ 64) :
    '\n' ∉ entryBody key val ∧ (entryBody key val).length + 1 < confLineMax := by
  refine ⟨(not_mem_entryBody hkey hval).1, ?_⟩
  unfold entryBody confLineMax
  simp only [List.length_append, List.length_cons, List.length_nil]
  omega

section Section

variable {kc : Kconfig} {p : StagedPeer} (h : p.Savable kc) {maxPeers : Nat}

include h

theorem peerLines_fit : ∀ line ∈ peerLines kc p, '\n' ∉ line ∧ line.length + 1 < confLineMax := by
  obtain ⟨-, -, hpublic, hallowed, hendpoint, hkeepalive⟩ := keyName_words
  obtain ⟨key, hkey⟩ := Option.isSome_iff_exists.mp h.key
  have hkeylength := (wgDecodeKey_text hkey).1
  obtain ⟨haips, haipslength⟩ := h.allowed_text
  have hka := writtenKeepalive_length kc p
  unfold inetAddrstrlen at haipslength
  intro line hline
  unfold peerLines at hline
  simp only [List.mem_append, List.mem_cons, List.not_mem_nil, or_false] at hline
  rcases hline with ((rfl | rfl | rfl | rfl) | hline) | rfl
  · decide
  · decide
  · exact entryBody_fits hpublic (valueText_key hkey) (by rw [hkeylength]; decide)
  · refine entryBody_fits hallowed haips ?_
    have hword : Word.allowedIps.length = 10 := rfl
    omega
  · by_cases hip : p.endpointIp = []
    · rw [if_pos hip] at hline
      cases hline
    · rw [if_neg hip, List.mem_singleton] at hline
      obtain ⟨hep, heplength⟩ := h.endpoint_text hip
      unfold inetAddrstrlen at heplength
      rw [hline]
      refine entryBody_fits hendpoint hep ?_
      have hword : Word.endpoint.length = 8 := rfl
      omega
  · refine entryBody_fits hkeepalive (valueText_decimalInt _) ?_
    have hword : Word.persistentKeepalive.length = 19 := rfl
    omega

/-- **A section is read into the accumulator**, and what was in it before is staged. -/
theorem reads_peerLines {l : Loading} {st : Staged}
    (hflush : wgConfFlushPeer kc maxPeers l = .ok st) :
    Reads kc maxPeers (peerLines kc p) l ⟨st, p.acc kc⟩ := by
  obtain ⟨-, -, hpublic, hallowed, hendpoint, hkeepalive⟩ := keyName_words
  obtain ⟨key, hkey⟩ := Option.isSome_iff_exists.mp h.key
  obtain ⟨haips, haipslength⟩ := h.allowed_text
  have haipscopy : strlcpy (inetAddrstrlen + 8) p.writtenAllowed = p.writtenAllowed :=
    List.take_of_length_le (by omega)
  have hheader : confLine kc maxPeers (Word.peer ++ ['\n']) l = .ok ⟨st, ConfPeer.zero⟩ :=
    confLine_header (by decide) rfl hflush
  have hpubkey : ∀ acc : ConfPeer, confKey kc.long Word.publicKey p.publicKey ⟨st, acc⟩
      = .ok ⟨st, { acc with pubkey := p.publicKey, valid := true }⟩ := by
    intro acc
    have hcopy : strlcpy wgKeyStrlen p.publicKey = p.publicKey := strlcpy_key hkey
    unfold confKey
    rw [if_neg (by decide), if_pos (by decide), hcopy]
  have hallow : ∀ acc : ConfPeer, confKey kc.long Word.allowedIps p.writtenAllowed ⟨st, acc⟩
      = .ok ⟨st, { acc with allowed := p.writtenAllowed }⟩ := by
    intro acc
    unfold confKey
    rw [if_neg (by decide), if_neg (by decide), if_neg (by decide), if_pos (by decide), haipscopy]
  have hkeep : ∀ acc : ConfPeer, confKey kc.long Word.persistentKeepalive
      (decimalInt (p.writtenKeepalive kc).toInt) ⟨st, acc⟩
      = .ok ⟨st, { acc with keepalive := p.writtenKeepalive kc }⟩ := by
    intro acc
    have hread : atoi kc.long (decimalInt (p.writtenKeepalive kc).toInt)
        = (p.writtenKeepalive kc).toInt := by
      have hlo := BitVec.le_two_mul_toInt (x := p.writtenKeepalive kc)
      have hhi := BitVec.two_mul_toInt_lt (x := p.writtenKeepalive kc)
      exact atoi_decimalInt (by omega) (by omega)
    unfold confKey
    rw [if_neg (by decide), if_neg (by decide), if_neg (by decide), if_neg (by decide),
      if_pos (by decide), hread, BitVec.ofInt_toInt]
  have hfirst : Reads kc maxPeers [[], Word.peer, entryBody Word.publicKey p.publicKey,
      entryBody Word.allowedIps p.writtenAllowed] l
      ⟨st, ⟨p.publicKey, [], p.writtenAllowed, -1, true⟩⟩ :=
    .cons confLine_blank (.cons hheader (.cons
      ((confLine_entry hpublic (valueText_key hkey)).trans (hpubkey _)) (.cons
        ((confLine_entry hallowed haips).trans (hallow _)) .nil)))
  have hmiddle : Reads kc maxPeers
      (if p.endpointIp = [] then [] else [entryBody Word.endpoint p.writtenEndpoint])
      ⟨st, ⟨p.publicKey, [], p.writtenAllowed, -1, true⟩⟩
      ⟨st, ⟨p.publicKey, p.writtenEndpoint, p.writtenAllowed, -1, true⟩⟩ := by
    by_cases hip : p.endpointIp = []
    · have hnone : p.writtenEndpoint = [] := if_pos hip
      rw [if_pos hip, hnone]
      exact .nil
    · obtain ⟨hep, heplength⟩ := h.endpoint_text hip
      have hcopy : strlcpy (inetAddrstrlen + 8) p.writtenEndpoint = p.writtenEndpoint :=
        List.take_of_length_le (by omega)
      rw [if_neg hip]
      refine .cons ((confLine_entry hendpoint hep).trans ?_) .nil
      unfold confKey
      rw [if_neg (by decide), if_neg (by decide), if_pos (by decide), hcopy]
  exact (hfirst.append hmiddle).append
    (.cons ((confLine_entry hkeepalive (valueText_decimalInt _)).trans (hkeep _)) .nil)

/-- The endpoint that was written, set again. -/
theorem StagedPeer.Savable.setEndpoint (hip : p.endpointIp ≠ []) (tmp : StagedPeer) :
    tmp.setEndpoint kc.long p.writtenEndpoint
      = some { tmp with endpointIp := p.endpointIp, endpointPort := p.endpointPort } := by
  obtain ⟨-, heplength⟩ := h.endpoint_text hip
  obtain ⟨haddr, hport⟩ := h.endpoint.resolve_left hip
  obtain ⟨ip, hread⟩ := Option.isSome_iff_exists.mp haddr
  have hcopy : strlcpy (inetAddrstrlen + 8) p.writtenEndpoint = p.writtenEndpoint :=
    List.take_of_length_le (by omega)
  have hhost : strlcpy inetAddrstrlen p.endpointIp = p.endpointIp := strlcpy_inetPton hread
  have hlt := p.endpointPort.isLt
  have hne : p.endpointPort.toNat ≠ 0 := fun hc => hport (BitVec.eq_of_toNat_eq hc)
  have hnumber : atoi kc.long (decimal p.endpointPort.toNat) = p.endpointPort.toNat :=
    atoi_decimal (by omega)
  have hsplit : strrchr ':' p.writtenEndpoint
      = some (p.endpointIp, decimal p.endpointPort.toNat) := by
    unfold StagedPeer.writtenEndpoint
    rw [if_neg hip]
    exact strrchr_append _ (not_mem_decimal rfl)
  unfold StagedPeer.setEndpoint
  simp only [hcopy, hsplit, hnumber, hread, hhost]
  rw [if_neg (by omega), BitVec.ofInt_natCast, BitVec.ofNat_toNat, BitVec.setWidth_eq]

/-- The allowed-ips that were written, set again. -/
theorem StagedPeer.Savable.setAllowed (tmp : StagedPeer) :
    tmp.setAllowed kc.long p.writtenAllowed = some { tmp with
      allowedIp := p.allowedIp
      allowedMask := inetNtop (maskOfPrefix (wgMaskToPrefix p.allowedMask)) } := by
  obtain ⟨-, hlength⟩ := h.allowed_text
  obtain ⟨ip, hread⟩ := Option.isSome_iff_exists.mp h.allowedIp
  have hcopy : strlcpy (inetAddrstrlen + 8) p.writtenAllowed = p.writtenAllowed :=
    List.take_of_length_le (by omega)
  have haddr : strlcpy inetAddrstrlen p.allowedIp = p.allowedIp := strlcpy_inetPton hread
  have hle := wgMaskToPrefix_le p.allowedMask
  have hslash : '/' ∉ p.allowedIp := by
    intro hc
    rcases (inetPton_text hread).2 _ hc with hc | hc <;> exact absurd hc (by decide)
  have hsplit : splitPrefix kc.long p.writtenAllowed
      = (p.allowedIp, (wgMaskToPrefix p.allowedMask : Int)) := by
    have hnumber : atoi kc.long (decimal (wgMaskToPrefix p.allowedMask))
        = wgMaskToPrefix p.allowedMask := atoi_decimal (by omega)
    unfold splitPrefix StagedPeer.writtenAllowed
    rw [strchr_append hslash]
    dsimp only
    rw [hnumber]
  rw [StagedPeer.setAllowed_eq, hcopy, hsplit]
  dsimp only
  rw [if_neg (by omega), hread, haddr]
  rfl

/-- **What was read stages the entry again**, behind the others. -/
theorem flush_acc {st : Staged} (hfind : findPeer st.peers p.publicKey = none)
    (hroom : st.peers.length < maxPeers) : wgConfFlushPeer kc maxPeers ⟨st, p.acc kc⟩
      = .ok { st with peers := st.peers ++ [p.restored kc] } := by
  obtain ⟨key, hkey⟩ := Option.isSome_iff_exists.mp h.key
  have hcopy : strlcpy wgKeyStrlen p.publicKey = p.publicKey := strlcpy_key hkey
  have hallowed : unlessEmpty p.writtenAllowed = some p.writtenAllowed :=
    if_pos h.allowed_text.1.nonempty
  have hedit : (StagedPeer.fresh kc p.publicKey).edit kc.long
      (unlessEmpty p.writtenEndpoint) (some p.writtenAllowed) (p.writtenKeepalive kc)
      = some (p.restored kc) := by
    have hendpoint : (unlessEmpty p.writtenEndpoint).elim (some (StagedPeer.fresh kc p.publicKey))
        ((StagedPeer.fresh kc p.publicKey).setEndpoint kc.long)
        = some { StagedPeer.fresh kc p.publicKey with
            endpointIp := p.endpointIp
            endpointPort := if p.endpointIp = [] then 0 else p.endpointPort } := by
      by_cases hip : p.endpointIp = []
      · have hnone : unlessEmpty p.writtenEndpoint = none := by
          unfold StagedPeer.writtenEndpoint
          rw [if_pos hip]
          rfl
        rw [hnone, Option.elim_none, if_pos hip, hip]
        rfl
      · have hsome : unlessEmpty p.writtenEndpoint = some p.writtenEndpoint :=
          if_pos (h.endpoint_text hip).1.nonempty
        rw [hsome, Option.elim_some, h.setEndpoint hip, if_neg hip]
    rw [StagedPeer.edit_eq, hendpoint, Option.bind_some, Option.elim_some, h.setAllowed,
      Option.bind_some]
    unfold StagedPeer.restored StagedPeer.fresh
    dsimp only
    rw [hcopy]
    split <;> rfl
  have hset : wgSetPeer kc maxPeers false st (some p.publicKey) (unlessEmpty p.writtenEndpoint)
      (some p.writtenAllowed) (p.writtenKeepalive kc)
      = .ok { st with peers := st.peers ++ [p.restored kc] } := by
    unfold wgSetPeer
    rw [if_neg Bool.false_ne_true]
    simp only [hkey, hfind, hedit, if_neg (Nat.not_le.mpr hroom)]
  rw [← hallowed] at hset
  exact hset

end Section

/-! ### The file -/

section File

variable {kc : Kconfig} {maxPeers : Nat}

/-- **The sections of a file stage its peers**, in their order. -/
theorem reads_sections {peers : List StagedPeer} {l : Loading} {st : Staged}
    (hsavable : ∀ p ∈ peers, p.Savable kc) (hflush : wgConfFlushPeer kc maxPeers l = .ok st)
    (hapart : ((st.peers ++ peers).map (·.publicKey)).Nodup)
    (hroom : st.peers.length + peers.length ≤ maxPeers) :
    ∃ l', Reads kc maxPeers (peers.flatMap (peerLines kc)) l l' ∧
      wgConfFlushPeer kc maxPeers l'
        = .ok { st with peers := st.peers ++ peers.map (·.restored kc) } := by
  induction peers generalizing l st with
  | nil =>
      refine ⟨l, .nil, ?_⟩
      rw [List.map_nil, List.append_nil]
      exact hflush
  | cons p peers ih =>
      have hp := hsavable p List.mem_cons_self
      rw [List.length_cons] at hroom
      have hfind : findPeer st.peers p.publicKey = none := by
        refine List.findIdx?_eq_none_iff.mpr fun q hq => decide_eq_false fun hc => ?_
        rw [List.map_append, List.nodup_append] at hapart
        exact hapart.2.2 _ (List.mem_map_of_mem hq) _ (List.mem_map_of_mem List.mem_cons_self) hc
      have hnext := flush_acc hp hfind (show st.peers.length < maxPeers by omega)
      obtain ⟨l', hreads, hlast⟩ := ih (fun q hq => hsavable q (List.mem_cons_of_mem _ hq)) hnext
        (by simpa [StagedPeer.restored] using hapart)
        (by rw [List.length_append, List.length_singleton]; omega)
      refine ⟨l', (reads_peerLines hp hflush).append hreads, ?_⟩
      rw [hlast, List.map_cons, List.append_assoc]
      rfl

/-- The lines of the `[Interface]` section. -/
def interfaceLines (kc : Kconfig) (key : Text) : List Text :=
  [Word.interface, entryBody Word.privateKey key,
    entryBody Word.listenPort (decimalInt kc.listenPort.toInt)]

theorem listenPort_length (kc : Kconfig) : (decimalInt kc.listenPort.toInt).length ≤ 11 := by
  have hlo := BitVec.le_two_mul_toInt (x := kc.listenPort)
  have hhi := BitVec.two_mul_toInt_lt (x := kc.listenPort)
  exact decimalInt_length_le (k := 10) (by omega) (by decide)

theorem interfaceLines_fit {b64 : Text} {key : Key} (hkey : wgDecodeKey b64 = some key) :
    ∀ line ∈ interfaceLines kc b64, '\n' ∉ line ∧ line.length + 1 < confLineMax := by
  obtain ⟨hprivate, hlisten, -⟩ := keyName_words
  have hlength := (wgDecodeKey_text hkey).1
  have hport := listenPort_length kc
  intro line hline
  simp only [interfaceLines, List.mem_cons, List.not_mem_nil, or_false] at hline
  rcases hline with rfl | rfl | rfl
  · decide
  · exact entryBody_fits hprivate (valueText_key hkey) (by rw [hlength]; decide)
  · refine entryBody_fits hlisten (valueText_decimalInt _) ?_
    have hword : Word.listenPort.length = 10 := rfl
    omega

/-- The private key is applied as it is read. -/
theorem reads_interface {b64 : Text} {key : Key} (hkey : wgDecodeKey b64 = some key) :
    Reads kc maxPeers (interfaceLines kc b64) ⟨Staged.empty, ConfPeer.zero⟩
      ⟨⟨b64, []⟩, ConfPeer.zero⟩ := by
  obtain ⟨hprivate, hlisten, -⟩ := keyName_words
  have hset : confKey kc.long Word.privateKey b64 ⟨Staged.empty, ConfPeer.zero⟩
      = .ok ⟨⟨b64, []⟩, ConfPeer.zero⟩ := by
    unfold confKey wgSetPrivateKey
    rw [if_pos (by decide), if_neg Bool.false_ne_true, hkey, strlcpy_key hkey]
    rfl
  have hport : ∀ v l, confKey kc.long Word.listenPort v l = .ok l := by
    intro v l
    unfold confKey
    rw [if_neg (by decide), if_neg (by decide), if_neg (by decide), if_neg (by decide),
      if_neg (by decide)]
  refine .cons (confLine_header (by decide) rfl rfl) (.cons
    ((confLine_entry hprivate (valueText_key hkey)).trans hset) (.cons
      ((confLine_entry hlisten (valueText_decimalInt _)).trans (hport _ _)) .nil))

/-- What `wg_writeconf` writes, if there is a private key. -/
theorem wgWriteconf_lines {st : Staged} (hkey : wgCfgStr st.privateKey kc.privateKey ≠ [])
    (hsavable : ∀ p ∈ wgConfigurePeer kc st, p.Savable kc) : wgWriteconf kc st
      = (unlines (interfaceLines kc (wgCfgStr st.privateKey kc.privateKey) ++
          (wgConfigurePeer kc st).flatMap (peerLines kc)), none) := by
  have hpeers : (if st.peers.length > 0 then st.peers.flatMap (wgShowconfPeer kc)
      else if kc.peerPublicKey.length = 0 then [] else wgShowconfPeer kc kc.peer)
      = unlines ((wgConfigurePeer kc st).flatMap (peerLines kc)) := by
    rw [unlines_flatMap, List.flatMap_congr fun p hp => (hsavable p hp).showconf.symm]
    unfold wgConfigurePeer
    split
    · rfl
    · split
      · rfl
      · exact (List.flatMap_singleton _ _).symm
  unfold wgWriteconf
  dsimp only
  rw [if_neg (mt List.length_eq_zero_iff.mp hkey), hpeers, unlines_append]
  simp [interfaceLines, unlines, entryBody, confEntry]

end File

/-! ### What can be staged -/

/-- The build's own settings can be read, its mask is a prefix and its port a port. -/
structure Kconfig.Valid (kc : Kconfig) : Prop where
  privateKey : kc.privateKey = [] ∨ (wgDecodeKey kc.privateKey).isSome = true
  peerPublicKey : kc.peerPublicKey = [] ∨ (wgDecodeKey kc.peerPublicKey).isSome = true
  peerEndpointIp : kc.peerEndpointIp = [] ∨ (inetPton kc.peerEndpointIp).isSome = true
  peerEndpointPort : 0 < kc.peerEndpointPort.toInt ∧ kc.peerEndpointPort.toInt ≤ 65535
  peerAllowedIp : (inetPton kc.peerAllowedIp).isSome = true
  peerAllowedMask : ∃ len ≤ 32, inetPton kc.peerAllowedMask = some (maskOfPrefix (len : Nat))

/-- A staged configuration that can be saved. -/
structure Staged.Savable (kc : Kconfig) (maxPeers : Nat) (st : Staged) : Prop where
  key : st.privateKey = [] ∨ (wgDecodeKey st.privateKey).isSome = true
  peers : ∀ p ∈ st.peers, p.Savable kc
  apart : (st.peers.map (·.publicKey)).Nodup
  room : st.peers.length ≤ maxPeers

/-- A call that configures the program, with the device down. -/
inductive ConfigCall
  | setPrivateKey (b64 : Text)
  | setPeer (pubkey endpoint allowed : Option Text) (keepalive : BitVec 32)
  | removePeer (pubkey : Text)

/-- What it does, if it is accepted. -/
def configure (kc : Kconfig) (maxPeers : Nat) (st : Staged) : ConfigCall → Option Staged
  | .setPrivateKey b64 => (wgSetPrivateKey false st b64).toOption
  | .setPeer pubkey endpoint allowed keepalive =>
    (wgSetPeer kc maxPeers false st pubkey endpoint allowed keepalive).toOption
  | .removePeer pubkey => (wgRemovePeer false st pubkey).toOption

section Kept

variable {kc : Kconfig} {maxPeers : Nat}

theorem Kconfig.Valid.allowed_copies (hkc : kc.Valid) :
    strlcpy inetAddrstrlen kc.peerAllowedIp = kc.peerAllowedIp ∧
      strlcpy inetAddrstrlen kc.peerAllowedMask = kc.peerAllowedMask := by
  obtain ⟨ip, hip⟩ := Option.isSome_iff_exists.mp hkc.peerAllowedIp
  obtain ⟨len, -, hmask⟩ := hkc.peerAllowedMask
  exact ⟨strlcpy_inetPton hip, strlcpy_inetPton hmask⟩

theorem Kconfig.Valid.fresh (hkc : kc.Valid) {text : Text} {key : Key}
    (hkey : wgDecodeKey text = some key) : (StagedPeer.fresh kc text).Savable kc := by
  obtain ⟨hip, hmask⟩ := hkc.allowed_copies
  constructor
  · show (wgDecodeKey (strlcpy wgKeyStrlen text)).isSome = true
    rw [strlcpy_key hkey, hkey]
    rfl
  · show (inetPton (strlcpy inetAddrstrlen kc.peerAllowedIp)).isSome = true
    rw [hip]
    exact hkc.peerAllowedIp
  · show ∃ len ≤ 32, inetPton (strlcpy inetAddrstrlen kc.peerAllowedMask)
      = some (maskOfPrefix (len : Nat))
    rw [hmask]
    exact hkc.peerAllowedMask
  · exact Or.inl rfl
  · exact fun _ => Or.inl rfl

/-- The build's own peer. -/
theorem Kconfig.Valid.peer (hkc : kc.Valid) (hne : kc.peerPublicKey ≠ []) :
    kc.peer.Savable kc := by
  obtain ⟨hip, hmask⟩ := hkc.allowed_copies
  obtain ⟨key, hkey⟩ := Option.isSome_iff_exists.mp (hkc.peerPublicKey.resolve_left hne)
  obtain ⟨hlo, hhi⟩ := hkc.peerEndpointPort
  constructor
  · show (wgDecodeKey (strlcpy wgKeyStrlen kc.peerPublicKey)).isSome = true
    rw [strlcpy_key hkey, hkey]
    rfl
  · show (inetPton (strlcpy inetAddrstrlen kc.peerAllowedIp)).isSome = true
    rw [hip]
    exact hkc.peerAllowedIp
  · show ∃ len ≤ 32, inetPton (strlcpy inetAddrstrlen kc.peerAllowedMask)
      = some (maskOfPrefix (len : Nat))
    rw [hmask]
    exact hkc.peerAllowedMask
  · show strlcpy inetAddrstrlen kc.peerEndpointIp = [] ∨
      ((inetPton (strlcpy inetAddrstrlen kc.peerEndpointIp)).isSome = true ∧
        kc.peerEndpointPort.setWidth 16 ≠ 0)
    rcases hkc.peerEndpointIp with hnone | hsome
    · rw [hnone]
      exact Or.inl rfl
    · obtain ⟨ip, hread⟩ := Option.isSome_iff_exists.mp hsome
      have hcopy : strlcpy inetAddrstrlen kc.peerEndpointIp = kc.peerEndpointIp :=
        strlcpy_inetPton hread
      rw [hcopy]
      refine Or.inr ⟨hsome, fun hc => ?_⟩
      have hzero := congrArg BitVec.toNat hc
      have hlt : 2 * kc.peerEndpointPort.toNat < 2 ^ 32 := by
        rw [BitVec.toInt_eq_toNat_cond] at hlo
        split at hlo
        · assumption
        · have := kc.peerEndpointPort.isLt
          omega
      rw [BitVec.toInt_eq_toNat_of_lt hlt] at hlo hhi
      have hright : (0 : U16).toNat = 0 := rfl
      rw [BitVec.toNat_setWidth, hright] at hzero
      omega
  · exact fun _ => Or.inr rfl

/-- A set leaves an entry that can be saved, with its key. -/
theorem StagedPeer.Savable.edit {tmp tmp' : StagedPeer} (h : tmp.Savable kc)
    {endpoint allowed : Option Text} {keepalive : BitVec 32}
    (hedit : tmp.edit kc.long endpoint allowed keepalive = some tmp') :
    tmp'.Savable kc ∧ tmp'.publicKey = tmp.publicKey := by
  rw [tmp.edit_eq] at hedit
  obtain ⟨tmp₁, hendpoint, hedit⟩ := Option.bind_eq_some_iff.mp hedit
  obtain ⟨tmp₂, hallowed, hedit⟩ := Option.bind_eq_some_iff.mp hedit
  have h₁ : tmp₁.Savable kc ∧ tmp₁.publicKey = tmp.publicKey := by
    cases endpoint with
    | none =>
        cases hendpoint
        exact ⟨h, rfl⟩
    | some text =>
        obtain ⟨host, port, hhost, hport, rfl⟩ := StagedPeer.setEndpoint_some hendpoint
        refine ⟨⟨h.key, h.allowedIp, h.allowedMask, Or.inr ⟨hhost, hport⟩, fun hc => ?_⟩, rfl⟩
        have hc : host = [] := hc
        rw [hc] at hhost
        cases hhost
  have h₂ : tmp₂.Savable kc ∧ tmp₂.publicKey = tmp.publicKey := by
    cases allowed with
    | none =>
        cases hallowed
        exact h₁
    | some text =>
        obtain ⟨addr, len, hlen, haddr, rfl⟩ := StagedPeer.setAllowed_some hallowed
        exact ⟨⟨h₁.1.key, haddr, ⟨len, hlen, inetPton_inetNtop _⟩, h₁.1.endpoint, h₁.1.port⟩, h₁.2⟩
  rw [← Option.some.inj hedit]
  split
  · exact ⟨⟨h₂.1.key, h₂.1.allowedIp, h₂.1.allowedMask, h₂.1.endpoint, h₂.1.port⟩, h₂.2⟩
  · exact h₂

theorem Staged.Savable.setPeer (hkc : kc.Valid) {st st' : Staged} (h : st.Savable kc maxPeers)
    {pubkey endpoint allowed : Option Text} {keepalive : BitVec 32}
    (hset : wgSetPeer kc maxPeers false st pubkey endpoint allowed keepalive = .ok st') :
    st'.Savable kc maxPeers := by
  obtain ⟨text, key, hkey, ⟨i, p, tmp, hp, htext, hedit, rfl⟩ | ⟨hfind, hroom, tmp, hedit, rfl⟩⟩ :=
    wgSetPeer_ok hset
  · obtain ⟨htmp, hsame⟩ := (h.peers p (List.mem_of_getElem? hp)).edit hedit
    refine ⟨h.key, fun q hq => ?_, ?_, ?_⟩
    · rcases List.mem_or_eq_of_mem_set hq with hq | rfl
      · exact h.peers q hq
      · exact htmp
    · -- the keys are those there were
      have hkeys : (st.peers.set i tmp).map (·.publicKey) = st.peers.map (·.publicKey) := by
        have hget : (st.peers.map (·.publicKey))[i]? = some tmp.publicKey := by
          rw [List.getElem?_map, hp, Option.map_some, hsame]
        obtain ⟨hlt, hkey⟩ := List.getElem?_eq_some_iff.mp hget
        rw [List.map_set, ← hkey, List.set_getElem_self hlt]
      show ((st.peers.set i tmp).map (·.publicKey)).Nodup
      rw [hkeys]
      exact h.apart
    · show (st.peers.set i tmp).length ≤ maxPeers
      rw [List.length_set]
      exact h.room
  · obtain ⟨htmp, hsame⟩ := (hkc.fresh hkey).edit hedit
    have htext : tmp.publicKey = text := hsame.trans (strlcpy_key hkey)
    refine ⟨h.key, fun q hq => ?_, ?_, ?_⟩
    · rcases List.mem_append.mp hq with hq | hq
      · exact h.peers q hq
      · rw [List.mem_singleton.mp hq]
        exact htmp
    · show ((st.peers ++ [tmp]).map (·.publicKey)).Nodup
      rw [List.map_append, List.map_singleton, List.nodup_append, htext]
      refine ⟨h.apart, List.nodup_singleton _, fun a ha b hb hc => ?_⟩
      obtain ⟨q, hq, rfl⟩ := List.mem_map.mp ha
      exact findPeer_none hfind q hq (hc.trans (List.mem_singleton.mp hb))
    · show (st.peers ++ [tmp]).length ≤ maxPeers
      rw [List.length_append, List.length_singleton]
      omega

theorem Staged.Savable.setPrivateKey {st st' : Staged} (h : st.Savable kc maxPeers) {b64 : Text}
    (hset : wgSetPrivateKey false st b64 = .ok st') : st'.Savable kc maxPeers := by
  unfold wgSetPrivateKey at hset
  rw [if_neg Bool.false_ne_true] at hset
  split at hset
  · cases hset
  · rename_i key hkey
    cases hset
    refine ⟨Or.inr ?_, h.peers, h.apart, h.room⟩
    show (wgDecodeKey (strlcpy wgKeyStrlen b64)).isSome = true
    rw [strlcpy_key hkey, hkey]
    rfl

theorem Staged.Savable.removePeer {st st' : Staged} (h : st.Savable kc maxPeers) {pubkey : Text}
    (hremove : wgRemovePeer false st pubkey = .ok st') : st'.Savable kc maxPeers := by
  unfold wgRemovePeer at hremove
  rw [if_neg Bool.false_ne_true] at hremove
  split at hremove
  · cases hremove
  · rename_i i hfind
    cases hremove
    have hsub : (st.peers.eraseIdx i).Sublist st.peers := List.eraseIdx_sublist _ _
    exact ⟨h.key, fun p hp => h.peers p (hsub.subset hp), h.apart.sublist (hsub.map _),
      Nat.le_trans hsub.length_le h.room⟩

theorem ok_of_toOption {ε α : Type} {r : Except ε α} {a : α} (h : r.toOption = some a) :
    r = .ok a := by
  cases r with
  | error err => cases h
  | ok b => exact congrArg _ (Option.some.inj h)

/-- **Every configuration that can be staged can be saved.** -/
theorem Staged.Savable.of_reachable (hkc : kc.Valid) {st : Staged}
    (h : Reachable (· = Staged.empty) (configure kc maxPeers) st) : st.Savable kc maxPeers := by
  obtain ⟨st₀, ts, rfl, hrun⟩ := h
  induction hrun with
  | nil => exact ⟨Or.inl rfl, (by intro p hp; cases hp), List.nodup_nil, Nat.zero_le _⟩
  | @snoc _ st st' call _ hstep ih =>
      cases call with
      | setPrivateKey b64 => exact ih.setPrivateKey (ok_of_toOption hstep)
      | setPeer pubkey endpoint allowed keepalive => exact ih.setPeer hkc (ok_of_toOption hstep)
      | removePeer pubkey => exact ih.removePeer (ok_of_toOption hstep)

end Kept

/-! ### Saving and restoring -/

/-- What `wg_initialize` registers: the private key and the peers, if it gets that far. -/
def wgRegistered (kc : Kconfig) (st : Staged) : Option (Key × List PeerConfig) :=
  (wgStagedKey kc st).map fun key => (key, (wgConfigurePeer kc st).map (·.config kc))

section Restore

variable {kc : Kconfig} {maxPeers : Nat} {st : Staged}

/-- The peers `wg_initialize` adds can all be saved, and staged again. -/
theorem configured_savable (hkc : kc.Valid) (hmax : 0 < maxPeers) (h : st.Savable kc maxPeers) :
    (∀ p ∈ wgConfigurePeer kc st, p.Savable kc) ∧
      ((wgConfigurePeer kc st).map (·.publicKey)).Nodup ∧
      (wgConfigurePeer kc st).length ≤ maxPeers := by
  unfold wgConfigurePeer
  split
  · exact ⟨h.peers, h.apart, h.room⟩
  split
  · exact ⟨(by intro p hp; cases hp), List.nodup_nil, Nat.zero_le _⟩
  · rename_i hne
    refine ⟨fun p hp => ?_, List.nodup_singleton _, hmax⟩
    rw [List.mem_singleton.mp hp]
    exact hkc.peer (mt List.length_eq_zero_iff.mpr hne)

/-- The private key that is written is the one that is used. -/
theorem writtenKey (hkc : kc.Valid) (h : st.Savable kc maxPeers) :
    wgCfgStr st.privateKey kc.privateKey = [] ∨
      ∃ key, wgDecodeKey (wgCfgStr st.privateKey kc.privateKey) = some key := by
  unfold wgCfgStr
  split
  · rename_i hne
    exact Or.inr (Option.isSome_iff_exists.mp (h.key.resolve_left hne))
  · exact hkc.privateKey.imp_right Option.isSome_iff_exists.mp

/-- What a file that was written restores, if there is a private key in it. -/
theorem wgLoadconf_written (hkc : kc.Valid) (hmax : 0 < maxPeers) (h : st.Savable kc maxPeers)
    {key : Key} (hkey : wgDecodeKey (wgCfgStr st.privateKey kc.privateKey) = some key) :
    wgLoadconf kc maxPeers Staged.empty (wgWriteconf kc st).1
      = (⟨wgCfgStr st.privateKey kc.privateKey,
          (wgConfigurePeer kc st).map (·.restored kc)⟩, none) := by
  obtain ⟨hsavable, hapart, hroom⟩ := configured_savable hkc hmax h
  have hfits : ∀ line ∈ interfaceLines kc (wgCfgStr st.privateKey kc.privateKey) ++
      (wgConfigurePeer kc st).flatMap (peerLines kc), '\n' ∉ line ∧ line.length + 1 < confLineMax := by
    intro line hline
    rcases List.mem_append.mp hline with hline | hline
    · exact interfaceLines_fit hkey line hline
    · obtain ⟨p, hp, hline⟩ := List.mem_flatMap.mp hline
      exact peerLines_fit (hsavable p hp) line hline
  obtain ⟨l', hreads, hflush⟩ := @reads_sections kc maxPeers (wgConfigurePeer kc st)
    ⟨⟨wgCfgStr st.privateKey kc.privateKey, []⟩, ConfPeer.zero⟩ _ hsavable rfl
    (by rw [List.nil_append]; exact hapart) (by rw [List.length_nil, Nat.zero_add]; exact hroom)
  have hall := (@reads_interface kc maxPeers _ _ hkey).append hreads
  unfold Reads at hall
  unfold wgLoadconf
  rw [wgWriteconf_lines (valueText_key hkey).nonempty hsavable, lines_unlines _ hfits]
  have hstart : (⟨{ Staged.empty with peers := [] }, ConfPeer.zero⟩ : Loading)
      = ⟨Staged.empty, ConfPeer.zero⟩ := rfl
  rw [hstart, hall]
  dsimp only
  rw [hflush]
  rfl

/-- The peers that were staged again are the ones that are added. -/
theorem configured_restored (b64 : Text) :
    wgConfigurePeer kc ⟨b64, (wgConfigurePeer kc st).map (·.restored kc)⟩
      = (wgConfigurePeer kc st).map (·.restored kc) := by
  cases hpeers : wgConfigurePeer kc st with
  | cons p peers => rfl
  | nil =>
      have hbuild : kc.peerPublicKey.length = 0 := by
        unfold wgConfigurePeer at hpeers
        split at hpeers
        · rename_i hlength
          rw [hpeers] at hlength
          exact absurd hlength (Nat.lt_irrefl 0)
        split at hpeers
        · assumption
        · cases hpeers
      unfold wgConfigurePeer
      rw [List.map_nil, if_neg (show ¬([] : List StagedPeer).length > 0 from Nat.lt_irrefl 0),
        if_pos hbuild]

theorem wgInitializeStaged_eq {cfg : Config} (c : Crypto) (env : Env cfg) (probe : Key) :
    wgInitializeStaged c env probe kc st
      = (wgRegistered kc st).bind fun r => wgInitialize c env probe r.1 r.2 := by
  unfold wgInitializeStaged wgRegistered
  cases wgStagedKey kc st <;> rfl

theorem registered_restored (hkc : kc.Valid) (hmax : 0 < maxPeers) (h : st.Savable kc maxPeers)
    (hne : wgCfgStr st.privateKey kc.privateKey ≠ []) :
    wgRegistered kc ⟨wgCfgStr st.privateKey kc.privateKey,
      (wgConfigurePeer kc st).map (·.restored kc)⟩ = wgRegistered kc st := by
  obtain ⟨hsavable, -, -⟩ := configured_savable hkc hmax h
  have hkey : wgCfgStr (wgCfgStr st.privateKey kc.privateKey) kc.privateKey
      = wgCfgStr st.privateKey kc.privateKey := if_pos hne
  have hconfigs : (wgConfigurePeer kc st).map ((·.config kc) ∘ (·.restored kc))
      = (wgConfigurePeer kc st).map (·.config kc) :=
    List.map_congr_left fun p hp => (hsavable p hp).config_restored
  unfold wgRegistered wgStagedKey
  rw [configured_restored, List.map_map, hconfigs]
  dsimp only
  rw [hkey]

/-- Without a private key nothing is written, and nothing would be registered. -/
theorem registered_nothing (hnone : wgCfgStr st.privateKey kc.privateKey = []) :
    wgLoadconf kc maxPeers Staged.empty (wgWriteconf kc st).1 = (Staged.empty, none) ∧
      wgRegistered kc Staged.empty = wgRegistered kc st := by
  have hwritten : (wgWriteconf kc st).1 = [] := by
    unfold wgWriteconf
    rw [hnone]
    rfl
  have hbuild : wgCfgStr Staged.empty.privateKey kc.privateKey = [] := by
    unfold wgCfgStr at hnone
    split at hnone
    · rename_i hne
      exact absurd hnone hne
    · exact hnone
  refine ⟨by rw [hwritten]; rfl, ?_⟩
  unfold wgRegistered wgStagedKey
  rw [hnone, hbuild]
  rfl

end Restore

/-- **A saved configuration registers what the original does**: the file is accepted, and
`wg_initialize` starts from the same private key and the same peers, in the same order. -/
theorem saved_registers {kc : Kconfig} (hkc : kc.Valid) {maxPeers : Nat} (hmax : 0 < maxPeers)
    {st : Staged} (h : Reachable (· = Staged.empty) (configure kc maxPeers) st) :
    ∃ st', wgSetconf kc maxPeers false Staged.empty (some (wgWriteconf kc st).1) = (st', none) ∧
      wgRegistered kc st' = wgRegistered kc st ∧
      ∀ (cfg : Config) (c : Crypto) (env : Env cfg) (probe : Key),
        wgInitializeStaged c env probe kc st' = wgInitializeStaged c env probe kc st := by
  have hst := Staged.Savable.of_reachable hkc h
  have hfound : ∃ st', wgLoadconf kc maxPeers Staged.empty (wgWriteconf kc st).1 = (st', none) ∧
      wgRegistered kc st' = wgRegistered kc st := by
    rcases writtenKey hkc hst with hnone | ⟨key, hkey⟩
    · exact ⟨_, registered_nothing hnone⟩
    · exact ⟨_, wgLoadconf_written hkc hmax hst hkey,
        registered_restored hkc hmax hst (valueText_key hkey).nonempty⟩
  obtain ⟨st', hload, hregistered⟩ := hfound
  refine ⟨st', hload, hregistered, fun cfg c env probe => ?_⟩
  rw [wgInitializeStaged_eq, wgInitializeStaged_eq, hregistered]

namespace Sample

theorem build_valid : (build []).Valid :=
  ⟨Or.inr (by decide +kernel), Or.inl rfl, Or.inl rfl, by decide, by decide +kernel,
    ⟨8, by decide, by decide +kernel⟩⟩

/-- A peer without an endpoint, in the network `10.0.0.0/24`. -/
def setPeer : ConfigCall :=
  .setPeer (some (zeroText 'A')) none
    (some ['1', '0', '.', '0', '.', '0', '.', '0', '/', '2', '4']) (-1)

/-- Another one, at `9.9.9.9:80`, that is kept alive. -/
def setOther : ConfigCall :=
  .setPeer (some (zeroText 'E')) (some ['9', '.', '9', '.', '9', '.', '9', ':', '8', '0'])
    (some ['1', '0', '.', '0', '.', '1', '.', '7']) 25

theorem setPeers_accepted :
    ((configure (build []) 2 Staged.empty setPeer).any fun st₁ =>
      (configure (build []) 2 st₁ setOther).any fun st => decide (st.peers.length = 2)) = true := by
  decide +kernel

end Sample

/-- Two peers, saved and restored. -/
theorem saved_registers_sample : ∃ st st', st.peers.length = 2 ∧
    wgSetconf (Sample.build []) 2 false Staged.empty (some (wgWriteconf (Sample.build []) st).1)
      = (st', none) ∧ wgRegistered (Sample.build []) st' = wgRegistered (Sample.build []) st := by
  obtain ⟨st₁, hst₁, hrest⟩ := (Option.any_eq_true _ _).mp Sample.setPeers_accepted
  obtain ⟨st, hst, hlength⟩ := (Option.any_eq_true _ _).mp hrest
  obtain ⟨st', hload, hsame, -⟩ := saved_registers Sample.build_valid (show 0 < 2 by decide)
    ⟨Staged.empty, _, rfl, .cons hst₁ (.cons hst .nil)⟩
  exact ⟨st, st', of_decide_eq_true hlength, hload, hsame⟩

end NuttxWireguard.Flat
