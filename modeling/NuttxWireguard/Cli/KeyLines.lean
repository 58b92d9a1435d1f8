/-
The private key of a configuration file, read in two ways.

The parser of `wg_cmd_setconf` takes the last `PrivateKey` of the `[Interface]` sections, and
`wg_file_private_key`, which `wg saveconf` goes by, the first line of the whole file that
starts with the word and has 44 characters behind `=`.  So they agree when no line in front
of the one that counts gives another key: not an earlier one of the interface, nor one of a
`[Peer]` section, nor one of a longer name.
-/
import NuttxWireguard.Cli.ReadBack

namespace NuttxWireguard.Cli

open Lib Kernel

variable {w : LongWidth}

/-! ### What the parser sees -/

/-- A line as the parser takes it. -/
inductive Seen
  | blank
  | interface
  | peer
  | noValue
  | entry (key val : Text)

/-- The line without its end and without the blanks in front. -/
def lineText (line : Text) : Text := skipBlanks (cutAt ['\r', '\n'] (cString line))

def seen (line : Text) : Seen :=
  if lineText line = [] ∨ (lineText line).head? = some '#' then .blank
  else if strcasecmp (lineText line) Word.interface then .interface
  else if strcasecmp (lineText line) Word.peer then .peer
  else
    match strchr '=' (lineText line) with
    | none => .noValue
    | some (key, val) => .entry (cutAt [' ', '\t'] key) (skipBlanks val)

/-- Whether a `[Peer]` section goes on behind the line. -/
def sectionAfter (inPeer : Bool) (line : Text) : Bool :=
  match seen line with
  | .interface => false
  | .peer => true
  | _ => inPeer

/-- The value of a line that is a `PrivateKey` to the parser. -/
def privateKeyOf (line : Text) : Option Text :=
  match seen line with
  | .entry key val => if strcasecmp key Word.privateKey then some val else none
  | _ => none

/-- The values of the `PrivateKey` lines that are not in a `[Peer]` section. -/
def interfaceKeys : (inPeer : Bool) → List Text → List Text
  | _, [] => []
  | inPeer, line :: rest =>
    (if inPeer then [] else (privateKeyOf line).toList) ++
      interfaceKeys (sectionAfter inPeer line) rest

/-- The private key of a request, if it has one. -/
def givenKey (ifr : IfReq) : Option Key :=
  if ifr.has wgIfHasPrivateKey then some ifr.privateKey else none

/-- What the parser does about it. -/
def Seen.read (w : LongWidth) (maxPeers lineno : Nat) (conf : Conf) : Seen → Except ConfError Conf
  | .blank => .ok conf
  | .interface => .ok { conf with inPeer := false }
  | .peer =>
    if conf.peers.length ≥ maxPeers then .error (.tooManyPeers lineno)
    else .ok { conf with peers := conf.peers ++ [PeerReq.zero], inPeer := true }
  | .noValue => .error (.expectedKeyValue lineno)
  | .entry key val =>
    if conf.inPeer then
      match peerKey w key val (conf.peers.getLastD PeerReq.zero) with
      | none => .error (.badValue lineno key)
      | some req => .ok { conf with peers := conf.peers.dropLast ++ [req] }
    else
      match interfaceKey w key val conf.ifr with
      | none => .error (.badValue lineno key)
      | some ifr => .ok { conf with ifr := ifr }

section Line

variable {maxPeers lineno : Nat} {line : Text} {conf conf' : Conf}

theorem seen_of_split (hblank : ¬(lineText line = [] ∨ (lineText line).head? = some '#'))
    (hinterface : ¬strcasecmp (lineText line) Word.interface = true)
    (hpeer : ¬strcasecmp (lineText line) Word.peer = true) {key val : Text}
    (hchr : strchr '=' (lineText line) = some (key, val)) :
    seen line = .entry (cutAt [' ', '\t'] key) (skipBlanks val) := by
  unfold seen
  rw [if_neg hblank, if_neg hinterface, if_neg hpeer, hchr]

theorem confLine_eq (w : LongWidth) (maxPeers lineno : Nat) (line : Text) (conf : Conf) :
    confLine w maxPeers lineno line conf = (seen line).read w maxPeers lineno conf := by
  have htext : skipBlanks (cutAt ['\r', '\n'] (cString line)) = lineText line := rfl
  unfold confLine
  dsimp only
  rw [htext]
  by_cases hblank : lineText line = [] ∨ (lineText line).head? = some '#'
  · have hseen : seen line = .blank := if_pos hblank
    rw [if_pos hblank, hseen]
    rfl
  by_cases hinterface : strcasecmp (lineText line) Word.interface = true
  · have hseen : seen line = .interface := by
      unfold seen
      rw [if_neg hblank, if_pos hinterface]
    rw [if_neg hblank, if_pos hinterface, hseen]
    rfl
  by_cases hpeer : strcasecmp (lineText line) Word.peer = true
  · have hseen : seen line = .peer := by
      unfold seen
      rw [if_neg hblank, if_neg hinterface, if_pos hpeer]
    rw [if_neg hblank, if_neg hinterface, if_pos hpeer, hseen]
    rfl
  rw [if_neg hblank, if_neg hinterface, if_neg hpeer]
  cases hchr : strchr '=' (lineText line) with
  | none =>
      have hseen : seen line = .noValue := by
        unfold seen
        rw [if_neg hblank, if_neg hinterface, if_neg hpeer, hchr]
      rw [hseen]
      rfl
  | some r =>
      obtain ⟨key, val⟩ := r
      rw [seen_of_split hblank hinterface hpeer hchr, Seen.read]
      dsimp only
      cases conf.inPeer
      · exact if_pos Bool.false_ne_true
      · exact if_neg (not_not.mpr rfl)

end Line

/-! ### The key the parser takes -/

theorem wgB64Value_mem {ch : Char} {v : BitVec 32} (h : wgB64Value ch = some v) : ch ∈ gB64 := by
  obtain ⟨i, hi, -⟩ := Option.map_eq_some_iff.mp h
  rw [← List.isSome_idxOf?, hi]
  rfl

theorem b64DecodeGroups_mem {s : Text} {out : List Byte} (h : b64DecodeGroups s = some out)
    (hlength : s.length % 4 = 0) : ∀ a ∈ s.dropLast, a ∈ gB64 := by
  induction s using b64DecodeGroups.induct generalizing out with
  | case1 a b c d =>
      obtain ⟨va, ha, h⟩ := Option.bind_eq_some_iff.mp h
      obtain ⟨vb, hb, h⟩ := Option.bind_eq_some_iff.mp h
      obtain ⟨vc, hc, h⟩ := Option.bind_eq_some_iff.mp h
      intro x hx
      simp only [List.dropLast_cons_cons, List.dropLast_singleton, List.mem_cons, List.not_mem_nil,
        or_false] at hx
      rcases hx with rfl | rfl | rfl
      · exact wgB64Value_mem ha
      · exact wgB64Value_mem hb
      · exact wgB64Value_mem hc
  | case2 a b c d rest hrest ih =>
      have hne : rest ≠ [] := by
        rintro rfl
        exact hrest rfl
      rw [b64DecodeGroups_cons _ _ _ _ hne] at h
      obtain ⟨va, ha, h⟩ := Option.bind_eq_some_iff.mp h
      obtain ⟨vb, hb, h⟩ := Option.bind_eq_some_iff.mp h
      obtain ⟨vc, hc, h⟩ := Option.bind_eq_some_iff.mp h
      obtain ⟨vd, hd, h⟩ := Option.bind_eq_some_iff.mp h
      obtain ⟨out', hout, -⟩ := Option.bind_eq_some_iff.mp h
      have hlater := ih hout (by simp only [List.length_cons] at hlength; omega)
      intro x hx
      rw [List.dropLast_cons_of_ne_nil (by simp), List.dropLast_cons_of_ne_nil (by simp),
        List.dropLast_cons_of_ne_nil (by simp), List.dropLast_cons_of_ne_nil hne] at hx
      simp only [List.mem_cons] at hx
      rcases hx with rfl | rfl | rfl | rfl | hx
      · exact wgB64Value_mem ha
      · exact wgB64Value_mem hb
      · exact wgB64Value_mem hc
      · exact wgB64Value_mem hd
      · exact hlater x hx
  | case3 s h₁ h₂ =>
      intro x hx
      rcases s with - | ⟨a, - | ⟨b, - | ⟨c, - | ⟨d, rest⟩⟩⟩⟩
      · cases hx
      · exact absurd hlength (by simp)
      · exact absurd hlength (by simp)
      · exact absurd hlength (by simp)
      · exact absurd rfl (h₂ a b c d rest)

/-- **What is decoded has no blanks in it.** -/
theorem keyText_of_decode {val : Text} {k : Key} (h : wgB64Decode val = some k) : KeyText val := by
  unfold wgB64Decode at h
  split at h
  · cases h
  · rename_i hform
    rw [not_or, not_not, not_not] at hform
    obtain ⟨hlength, hlast⟩ := hform
    obtain ⟨out, hout, -⟩ := Option.map_eq_some_iff.mp h
    have hmem := b64DecodeGroups_mem hout (by rw [hlength]; rfl)
    have hne : val ≠ [] := by
      rintro rfl
      cases hlength
    have hchars : ∀ a ∈ val, a ∈ gB64 ∨ a = '=' := by
      intro a ha
      rw [← List.dropLast_append_getLast hne] at ha
      rcases List.mem_append.mp ha with ha | ha
      · exact Or.inl (hmem a ha)
      · refine Or.inr ?_
        rw [List.mem_singleton.mp ha, List.getLast_eq_getElem]
        have hlt : wgB64Len - 1 < val.length := by rw [hlength]; decide
        rw [List.getD_eq_getElem _ _ hlt] at hlast
        simpa only [hlength] using hlast
    refine ⟨hlength, fun a ha => ?_⟩
    rcases hchars a ha with hb64 | rfl
    · have hall : (gB64.all fun a => decide (a ≠ ' ' ∧ a ≠ '\t' ∧ a ≠ '\r' ∧ a ≠ '\n' ∧
          a ≠ '\x00')) = true := by decide
      exact of_decide_eq_true (List.all_eq_true.mp hall a hb64)
    · decide

/-- The line starts with `PrivateKey`. -/
def isKeyLine (line : Text) : Bool := strncasecmp (skipBlanks (cString line)) Word.privateKey

/-- The parts of a line that is a `PrivateKey` to the parser; `rest` is what ends it. -/
theorem privateKeyOf_parts {line val : Text} (h : privateKeyOf line = some val) :
    ∃ before after rest : Text, (∀ a ∈ rest.head?, a = '\r' ∨ a = '\n') ∧
      skipBlanks (cString line) = before ++ '=' :: (after ++ rest) ∧ '=' ∉ before ∧
      strcasecmp (cutAt [' ', '\t'] before) Word.privateKey = true ∧ skipBlanks after = val := by
  have hparts : ∃ before after, strchr '=' (lineText line) = some (before, after) ∧
      strcasecmp (cutAt [' ', '\t'] before) Word.privateKey = true ∧ skipBlanks after = val := by
    unfold privateKeyOf at h
    split at h
    · rename_i key val' hseen
      unfold seen at hseen
      split at hseen
      · cases hseen
      split at hseen
      · cases hseen
      split at hseen
      · cases hseen
      split at hseen
      · cases hseen
      · rename_i before after hchr
        cases hseen
        split at h
        · rename_i hword
          cases h
          exact ⟨before, after, hchr, hword, rfl⟩
        · cases h
    · cases h
  obtain ⟨before, after, hchr, hword, hval⟩ := hparts
  have hsplit : cutAt ['\r', '\n'] (cString line) ++
      (cString line).dropWhile (fun a => !(['\r', '\n'].contains a)) = cString line :=
    List.takeWhile_append_dropWhile
  have htext := strchr_some hchr
  refine ⟨before, after, (cString line).dropWhile fun a => !(['\r', '\n'].contains a),
    fun a ha => ?_, ?_, not_mem_of_strchr hchr, hword, hval⟩
  · have hstop := List.head?_dropWhile_not (fun a => !(['\r', '\n'].contains a)) (cString line)
    rw [Option.mem_def.mp ha] at hstop
    simpa [or_iff_not_imp_left] using hstop
  · -- the text in front of the end is not all blank
    have hne : (lineText line).isEmpty = false := by
      rw [htext]
      simp
    conv_lhs => rw [← hsplit]
    unfold lineText skipBlanks at hne htext
    unfold skipBlanks
    rw [List.dropWhile_append, hne, if_neg Bool.false_ne_true, htext, List.append_assoc,
      List.cons_append]

theorem isKeyLine_of_privateKeyOf {line val : Text} (h : privateKeyOf line = some val) :
    isKeyLine line = true := by
  obtain ⟨before, after, rest, -, hp, -, hword, -⟩ := privateKeyOf_parts h
  have hcut : cutAt [' ', '\t'] before <+: before ++ '=' :: (after ++ rest) :=
    (List.takeWhile_prefix _).trans (List.prefix_append _ _)
  have hlength : (cutAt [' ', '\t'] before).length = Word.privateKey.length := by
    have hmap := congrArg List.length (beq_iff_eq.mp hword)
    rwa [List.length_map, List.length_map] at hmap
  unfold isKeyLine strncasecmp
  rw [hp, ← hlength, ← List.prefix_iff_eq_take.mp hcut]
  exact hword

/-- A line that is a `PrivateKey` to the parser gives it to the other reader, too. -/
theorem linePrivateKey_of_privateKeyOf {line val : Text} (h : privateKeyOf line = some val)
    (hval : KeyText val) : linePrivateKey line = some val := by
  have hword : strncasecmp (skipBlanks (cString line)) Word.privateKey = true :=
    isKeyLine_of_privateKeyOf h
  obtain ⟨before, after, rest, hrest, hp, hbefore, -, rfl⟩ := privateKeyOf_parts h
  have hskip : skipBlanks (after ++ rest) = skipBlanks after ++ rest := by
    have hne : (skipBlanks after).isEmpty = false := by
      cases hnil : skipBlanks after with
      | nil =>
          have hlength := hval.length
          rw [hnil] at hlength
          cases hlength
      | cons a s => rfl
    unfold skipBlanks at hne ⊢
    rw [List.dropWhile_append, hne, if_neg Bool.false_ne_true]
  have hcut : cutAt [' ', '\t', '\r', '\n'] (skipBlanks after ++ rest) = skipBlanks after := by
    refine takeWhile_append_stop (fun a ha => ?_) fun a ha => ?_
    · obtain ⟨hspace, htab, hcr, hlf, -⟩ := hval.plain a ha
      simp [hspace, htab, hcr, hlf]
    · rcases hrest a ha with rfl | rfl <;> rfl
  unfold linePrivateKey
  dsimp only
  rw [if_neg (not_not.mpr hword), hp, strchr_append hbefore]
  dsimp only
  rw [hskip, hcut, if_pos hval.length]

/-- Only a `PrivateKey` changes the key. -/
theorem interfaceKey_givenKey {key val : Text} {ifr ifr' : IfReq}
    (h : interfaceKey w key val ifr = some ifr') :
    (strcasecmp key Word.privateKey = true →
      ∃ k, wgB64Decode val = some k ∧ givenKey ifr' = some k) ∧
    (¬strcasecmp key Word.privateKey = true → givenKey ifr' = givenKey ifr) := by
  unfold interfaceKey at h
  split at h
  · rename_i hword
    obtain ⟨k, hk, rfl⟩ := Option.map_eq_some_iff.mp h
    exact ⟨fun _ => ⟨k, hk, if_pos (IfReq.has_or rfl (by decide) (by decide))⟩,
      fun hc => absurd hword hc⟩
  · rename_i hword
    refine ⟨fun hc => absurd hc hword, fun _ => ?_⟩
    have hsame : ∀ {bits : U32}, bits &&& wgIfHasPrivateKey = 0 → ∀ {req : IfReq},
        req.flags = ifr.flags ||| bits → req.privateKey = ifr.privateKey →
        givenKey req = givenKey ifr := by
      intro bits hbits req hflags hkey
      unfold givenKey IfReq.has
      rw [hflags, or_and_of_disjoint hbits, hkey]
    split at h
    · cases h
      exact hsame (by decide : wgIfHasListenPort &&& wgIfHasPrivateKey = 0) rfl rfl
    split at h
    · obtain ⟨a, -, rfl⟩ := Option.map_eq_some_iff.mp h
      exact hsame (by decide : wgIfHasAddr &&& wgIfHasPrivateKey = 0) rfl rfl
    · cases h
      rfl

section Parser

variable {maxPeers lineno done : Nat} {line : Text} {ls : List Text}
  {conf conf' : Conf}

/-- **What a line that is accepted does to the section and to the key.** -/
theorem confLine_key (h : confLine w maxPeers lineno line conf = .ok conf') :
    conf'.inPeer = sectionAfter conf.inPeer line ∧
    (conf.inPeer = true → givenKey conf'.ifr = givenKey conf.ifr) ∧
    (conf.inPeer = false →
      (privateKeyOf line = none ∧ givenKey conf'.ifr = givenKey conf.ifr) ∨
        ∃ val k, privateKeyOf line = some val ∧ wgB64Decode val = some k ∧
          givenKey conf'.ifr = some k) := by
  rw [confLine_eq] at h
  unfold sectionAfter privateKeyOf
  cases hseen : seen line with
  | blank =>
      rw [hseen] at h
      cases h
      exact ⟨rfl, fun _ => rfl, fun _ => Or.inl ⟨rfl, rfl⟩⟩
  | interface =>
      rw [hseen] at h
      cases h
      exact ⟨rfl, fun _ => rfl, fun _ => Or.inl ⟨rfl, rfl⟩⟩
  | peer =>
      rw [hseen] at h
      unfold Seen.read at h
      dsimp only at h
      split at h
      · cases h
      · cases h
        exact ⟨rfl, fun _ => rfl, fun _ => Or.inl ⟨rfl, rfl⟩⟩
  | noValue =>
      rw [hseen] at h
      cases h
  | entry key val =>
      rw [hseen] at h
      unfold Seen.read at h
      dsimp only at h ⊢
      split at h
      · rename_i hin
        split at h
        · cases h
        · cases h
          exact ⟨rfl, fun _ => rfl, fun hout => by rw [hin] at hout; cases hout⟩
      · rename_i hin
        split at h
        · cases h
        · rename_i ifr hifr
          cases h
          obtain ⟨hkey, hother⟩ := interfaceKey_givenKey hifr
          refine ⟨rfl, fun hc => absurd hc hin, fun _ => ?_⟩
          by_cases hword : strcasecmp key Word.privateKey = true
          · obtain ⟨k, hk, hgiven⟩ := hkey hword
            exact Or.inr ⟨val, k, if_pos hword, hk, hgiven⟩
          · exact Or.inl ⟨if_neg hword, hother hword⟩

theorem confLines_cons (h : confLines w maxPeers done (line :: ls) conf = .ok conf') :
    ∃ next, confLine w maxPeers (done + 1) line conf = .ok next ∧
      confLines w maxPeers (done + 1) ls next = .ok conf' := by
  unfold confLines at h
  split at h
  · cases h
  · rename_i next hnext
    exact ⟨next, hnext, h⟩

/-- **The parser takes the last `PrivateKey` of the interface.** -/
theorem confLines_key (h : confLines w maxPeers done ls conf = .ok conf') :
    (interfaceKeys conf.inPeer ls = [] ∧ givenKey conf'.ifr = givenKey conf.ifr) ∨
      ∃ val k, (interfaceKeys conf.inPeer ls).getLast? = some val ∧ wgB64Decode val = some k ∧
        givenKey conf'.ifr = some k := by
  induction ls generalizing done conf with
  | nil =>
      cases h
      exact Or.inl ⟨rfl, rfl⟩
  | cons line ls ih =>
      obtain ⟨next, hline, hrest⟩ := confLines_cons h
      obtain ⟨hsection, hpeer, hinterface⟩ := confLine_key hline
      have hnext := ih hrest
      rw [hsection] at hnext
      unfold interfaceKeys
      rcases hnext with ⟨hnil, hsame⟩ | ⟨val, k, hlast, hk, hgiven⟩
      · rw [hnil, List.append_nil, hsame]
        cases hin : conf.inPeer with
        | true => exact Or.inl ⟨rfl, hpeer hin⟩
        | false =>
            rcases hinterface hin with ⟨hnone, hkept⟩ | ⟨val, k, hval, hk, hgiven⟩
            · rw [hnone]
              exact Or.inl ⟨rfl, hkept⟩
            · rw [hval]
              exact Or.inr ⟨val, k, rfl, hk, hgiven⟩
      · refine Or.inr ⟨val, k, ?_, hk, hgiven⟩
        rw [List.getLast?_append, hlast]
        rfl

end Parser

/-! ### Where the two readers agree -/

/-- The value of the last `PrivateKey` that is not in a `[Peer]` section, and the lines in
front of it. -/
def LastKey (ls before : List Text) (val : Text) : Prop :=
  ∃ line after, ls = before ++ line :: after ∧ before.foldl sectionAfter false = false ∧
    privateKeyOf line = some val ∧ interfaceKeys false after = []

/-- In front of the `PrivateKey` that counts, the first line that starts like one and has 44
characters for a key gives the same key. -/
def EarlierKeysAgree (ls : List Text) : Prop :=
  ∀ before val, LastKey ls before val →
    ∀ text, before.findSome? linePrivateKey = some text → wgB64Decode text = wgB64Decode val

/-- A `PrivateKey` does not end its section. -/
theorem sectionAfter_of_privateKeyOf {line val : Text} (h : privateKeyOf line = some val)
    (inPeer : Bool) : sectionAfter inPeer line = inPeer := by
  unfold privateKeyOf at h
  unfold sectionAfter
  split at h
  · rename_i hseen
    rw [hseen]
  · cases h

theorem interfaceKeys_append (inPeer : Bool) (before rest : List Text) :
    interfaceKeys inPeer (before ++ rest) =
      interfaceKeys inPeer before ++ interfaceKeys (before.foldl sectionAfter inPeer) rest := by
  induction before generalizing inPeer with
  | nil => rfl
  | cons line before ih =>
      rw [List.cons_append, interfaceKeys, ih, interfaceKeys, List.append_assoc, List.foldl_cons]

theorem LastKey.getLast {ls before : List Text} {val : Text} (h : LastKey ls before val) :
    (interfaceKeys false ls).getLast? = some val := by
  obtain ⟨line, after, rfl, hsection, hval, hafter⟩ := h
  rw [interfaceKeys_append, hsection, interfaceKeys, sectionAfter_of_privateKeyOf hval, hafter,
    hval]
  simp

theorem exists_lastKey {inPeer : Bool} {ls : List Text} {val : Text}
    (h : (interfaceKeys inPeer ls).getLast? = some val) : ∃ before line after,
      ls = before ++ line :: after ∧ before.foldl sectionAfter inPeer = false ∧
        privateKeyOf line = some val ∧ interfaceKeys false after = [] := by
  induction ls generalizing inPeer with
  | nil => cases h
  | cons line ls ih =>
      rw [interfaceKeys] at h
      by_cases hlater : interfaceKeys (sectionAfter inPeer line) ls = []
      · rw [hlater, List.append_nil] at h
        cases inPeer with
        | true => cases h
        | false =>
            have hval : privateKeyOf line = some val := by
              cases hkey : privateKeyOf line with
              | none =>
                  rw [hkey] at h
                  cases h
              | some val' =>
                  rw [hkey] at h
                  exact h
            rw [sectionAfter_of_privateKeyOf hval] at hlater
            exact ⟨[], line, ls, rfl, rfl, hval, hlater⟩
      · rw [List.getLast?_append_of_ne_nil _ hlater] at h
        obtain ⟨before, line', after, rfl, hsection, hval, hafter⟩ := ih h
        exact ⟨line :: before, line', after, rfl, hsection, hval, hafter⟩

/-- **The key that `wg saveconf` would write is the one of the device exactly when no line in
front of the `PrivateKey` that counts gives another.** -/
theorem readers_agree_iff {maxPeers : Nat} {file : Text} {conf : Conf}
    (h : readConf w maxPeers file = .ok conf) (hkey : conf.ifr.has wgIfHasPrivateKey = true) :
    (∃ text, wgFilePrivateKey file = some text ∧
      wgB64Decode text = some conf.ifr.privateKey) ↔
        EarlierKeysAgree (lines wgLineMax file) := by
  have hgiven : givenKey conf.ifr = some conf.ifr.privateKey := if_pos hkey
  -- the parser has taken a key, so there is a line that gave it
  obtain ⟨val, hlast, hdecode⟩ : ∃ val,
      (interfaceKeys false (lines wgLineMax file)).getLast? = some val ∧
        wgB64Decode val = some conf.ifr.privateKey := by
    rcases confLines_key h with ⟨-, hnone⟩ | ⟨val, k, hlast, hk, hsome⟩
    · have hempty : givenKey Conf.empty.ifr = none := if_neg (by decide)
      rw [hgiven, hempty] at hnone
      cases hnone
    · rw [hgiven] at hsome
      exact ⟨val, hlast, hsome ▸ hk⟩
  unfold wgFilePrivateKey
  constructor
  · rintro ⟨text, hfile, htext⟩ before val' hlast' earlier hearlier
    have hval' : val' = val := Option.some.inj (hlast'.getLast.symm.trans hlast)
    obtain ⟨line, after, hsplit, -⟩ := hlast'
    rw [hsplit, List.findSome?_append, hearlier, Option.some_or] at hfile
    rw [Option.some.inj hfile, htext, hval', hdecode]
  · intro hagree
    obtain ⟨before, line, after, hsplit, hsection, hval, hafter⟩ := exists_lastKey hlast
    have hline := linePrivateKey_of_privateKeyOf hval (keyText_of_decode hdecode)
    rw [hsplit, List.findSome?_append, List.findSome?_cons, hline]
    cases hearlier : before.findSome? linePrivateKey with
    | none => exact ⟨val, rfl, hdecode⟩
    | some text =>
        have hsame := hagree before val ⟨line, after, hsplit, hsection, hval, hafter⟩ text hearlier
        exact ⟨text, rfl, hsame.trans hdecode⟩

namespace Sample

/-- The text of a key of zeros, but for its first character. -/
def keyText (ch : Char) : Text := ch :: (List.replicate 42 'A' ++ ['='])

/-- A file with a private key, and another one behind it. -/
def twoKeys (first second : Char) : Text :=
  Word.interface ++ ['\n'] ++ confEntry Word.privateKey (keyText first) ++
    confEntry Word.privateKey (keyText second)

/-- What the parser makes of it. -/
theorem readConf_twoKeys (first second : Char)
    (h : ((readConf .ilp32 1 (twoKeys first second)).toOption.any fun conf =>
      conf.ifr.has wgIfHasPrivateKey &&
        decide (wgB64Decode (keyText second) = some conf.ifr.privateKey)) = true) :
    ∃ conf, readConf .ilp32 1 (twoKeys first second) = .ok conf ∧
      conf.ifr.has wgIfHasPrivateKey = true ∧
      wgB64Decode (keyText second) = some conf.ifr.privateKey := by
  cases hread : readConf .ilp32 1 (twoKeys first second) with
  | error err =>
      rw [hread] at h
      cases h
  | ok conf =>
      rw [hread] at h
      obtain ⟨hflag, hkey⟩ := Bool.and_eq_true_iff.mp h
      exact ⟨conf, rfl, hflag, of_decide_eq_true hkey⟩

end Sample

/-- The same key twice. -/
theorem readers_agree_iff_sample : ∃ conf, readConf .ilp32 1 (Sample.twoKeys 'C' 'C') = .ok conf ∧
    conf.ifr.has wgIfHasPrivateKey = true ∧
    ((∃ text, wgFilePrivateKey (Sample.twoKeys 'C' 'C') = some text ∧
      wgB64Decode text = some conf.ifr.privateKey) ↔
        EarlierKeysAgree (lines wgLineMax (Sample.twoKeys 'C' 'C'))) := by
  obtain ⟨conf, hread, hkey, -⟩ := Sample.readConf_twoKeys 'C' 'C' (by decide +kernel)
  exact ⟨conf, hread, hkey, readers_agree_iff hread hkey⟩

/-- The device has the second of two keys, and `wg saveconf` would write the first. -/
theorem not_readers_agree : ¬∀ (w : LongWidth) (maxPeers : Nat) (file : Text) (conf : Conf),
    readConf w maxPeers file = .ok conf → conf.ifr.has wgIfHasPrivateKey = true →
      ∃ text, wgFilePrivateKey file = some text ∧
        wgB64Decode text = some conf.ifr.privateKey := by
  intro hall
  obtain ⟨conf, hread, hkey, hsecond⟩ := Sample.readConf_twoKeys 'C' 'D' (by decide +kernel)
  obtain ⟨text, hfile, hfirst⟩ := hall _ 1 _ conf hread hkey
  have htext : wgFilePrivateKey (Sample.twoKeys 'C' 'D') = some (Sample.keyText 'C') := by
    decide +kernel
  have hdiffer : wgB64Decode (Sample.keyText 'C') ≠ wgB64Decode (Sample.keyText 'D') := by
    decide +kernel
  rw [htext] at hfile
  rw [← Option.some.inj hfile, ← hsecond] at hfirst
  exact hdiffer hfirst

end NuttxWireguard.Cli
