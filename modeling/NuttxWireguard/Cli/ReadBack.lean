/-
Reading a written configuration file back.

What `wg_write_conf` writes is a list of lines, none of them longer than the buffer it is
read into, so that the readers see them one by one.
-/
import NuttxWireguard.Cli.Conf

namespace NuttxWireguard.Cli

open Lib Kernel

variable {w : LongWidth}

/-! ### The private key -/

/-- What a private key in a file looks like. -/
structure KeyText (key : Text) : Prop where
  length : key.length = wgB64Len
  plain : ∀ a ∈ key, a ≠ ' ' ∧ a ≠ '\t' ∧ a ≠ '\r' ∧ a ≠ '\n' ∧ a ≠ '\x00'

theorem linePrivateKey_text {line key : Text} (h : linePrivateKey line = some key) : KeyText key := by
  unfold linePrivateKey at h
  dsimp only at h
  split at h
  · cases h
  split at h
  · cases h
  · rename_i before eq hchr
    split at h
    · rename_i hlength
      cases h
      refine ⟨hlength, fun a ha => ?_⟩
      have hstop := mem_cutAt ha
      have hline : a ∈ cString line := by
        refine mem_of_skipBlanks ?_
        rw [strchr_some hchr]
        exact List.mem_append_right _ (List.mem_cons_of_mem _ (mem_of_skipBlanks (mem_of_cutAt ha)))
      simp only [List.mem_cons, List.not_mem_nil, or_false, not_or] at hstop
      obtain ⟨hspace, htab, hcr, hlf⟩ := hstop
      exact ⟨hspace, htab, hcr, hlf, mem_cString hline⟩
    · cases h

theorem wgFilePrivateKey_text {file key : Text} (h : wgFilePrivateKey file = some key) :
    KeyText key := by
  obtain ⟨line, -, hline⟩ := List.exists_of_findSome?_eq_some h
  exact linePrivateKey_text hline

/-- A line that gives a private key. -/
theorem linePrivateKey_entry {key : Text} (hkey : KeyText key) :
    linePrivateKey (confEntry Word.privateKey key) = some key := by
  obtain ⟨first, rest, rfl⟩ : ∃ first rest, key = first :: rest := by
    cases key with
    | nil => cases hkey.length
    | cons first rest => exact ⟨first, rest, rfl⟩
  obtain ⟨hspace, htab, -⟩ := hkey.plain first List.mem_cons_self
  have hblank : isBlank first = false := by simp [isBlank, hspace, htab]
  have hnul : '\x00' ∉ confEntry Word.privateKey (first :: rest) := by
    intro hc
    simp only [confEntry, List.append_assoc, List.mem_append] at hc
    rcases hc with hc | hc | hc | hc
    · exact absurd hc (by decide)
    · exact absurd hc (by decide)
    · exact (hkey.plain _ hc).2.2.2.2 rfl
    · exact absurd hc (by decide)
  have hp : skipBlanks (cString (confEntry Word.privateKey (first :: rest)))
      = confEntry Word.privateKey (first :: rest) := by
    rw [cString_eq hnul]
    exact skipBlanks_cons rfl
  have hword : strncasecmp (confEntry Word.privateKey (first :: rest)) Word.privateKey = true := by
    unfold strncasecmp confEntry
    rw [List.append_assoc, List.append_assoc, List.take_left]
    decide
  have hchr : strchr '=' (confEntry Word.privateKey (first :: rest))
      = some (Word.privateKey ++ [' '], ' ' :: first :: rest ++ ['\n']) := by
    have hsplit : confEntry Word.privateKey (first :: rest)
        = (Word.privateKey ++ [' ']) ++ '=' :: (' ' :: first :: rest ++ ['\n']) := by
      simp [confEntry]
    rw [hsplit]
    exact strchr_append (by decide) _
  have hskip : skipBlanks (' ' :: first :: rest ++ ['\n']) = (first :: rest) ++ '\n' :: [] := by
    show skipBlanks (first :: rest ++ ['\n']) = _
    exact skipBlanks_cons hblank
  have hcut : cutAt [' ', '\t', '\r', '\n'] ((first :: rest) ++ '\n' :: []) = first :: rest := by
    refine cutAt_append (fun a ha => ?_) (by decide)
    obtain ⟨h₁, h₂, h₃, h₄, -⟩ := hkey.plain a ha
    simp [h₁, h₂, h₃, h₄]
  unfold linePrivateKey
  dsimp only
  rw [hp, hword, if_neg (by simp), hchr]
  dsimp only
  rw [hskip, hcut, if_pos hkey.length]

/-- **The key a file is written with is the one it gives.** -/
theorem wgFilePrivateKey_writeConf {key : Text} (hkey : KeyText key) (ifr : IfInfo)
    (peers : List PeerInfo) : wgFilePrivateKey (wgWriteConf ifr peers key) = some key := by
  have hfile : ∃ rest, wgWriteConf ifr peers key
      = Word.interface ++ '\n' :: ((Word.privateKey ++ [' ', '=', ' '] ++ key) ++ '\n' :: rest) := by
    unfold wgWriteConf writeInterface confEntry
    simp only [List.append_assoc, List.cons_append, List.nil_append]
    exact ⟨_, rfl⟩
  obtain ⟨rest, hfile⟩ := hfile
  have hlf : '\n' ∉ Word.privateKey ++ [' ', '=', ' '] ++ key := by
    intro hc
    rcases List.mem_append.mp hc with hc | hc
    · exact absurd hc (by decide)
    · exact (hkey.plain _ hc).2.2.2.1 rfl
  have hlength : (Word.privateKey ++ [' ', '=', ' '] ++ key).length + 1 < wgLineMax := by
    rw [List.length_append, hkey.length]
    decide
  unfold wgFilePrivateKey
  rw [hfile, lines_line (by decide) (by decide), lines_line hlf hlength,
    List.findSome?_cons_of_isNone (by decide), List.findSome?_cons]
  have hentry : linePrivateKey (Word.privateKey ++ [' ', '=', ' '] ++ key ++ ['\n']) = some key :=
    linePrivateKey_entry hkey
  rw [hentry]

/-! ### A line -/

/-- What can stand in a line behind `=`. -/
structure ValText (val : Text) : Prop where
  plain : ∀ a ∈ val, a ≠ '\r' ∧ a ≠ '\n' ∧ a ≠ '\x00'
  start : ∀ a ∈ val.head?, isBlank a = false

/-- What the parser can tell from a section's name, a comment and a value. -/
structure KeyWord (key : Text) : Prop where
  nonempty : key ≠ []
  plain : ∀ a ∈ key, a ≠ ' ' ∧ a ≠ '\t' ∧ a ≠ '\r' ∧ a ≠ '\n' ∧ a ≠ '\x00' ∧ a ≠ '=' ∧ a ≠ '#' ∧
    a.toLower ≠ '['

/-- It can be told letter by letter. -/
theorem KeyWord.of_all {key : Text} (hne : key ≠ [])
    (h : (key.all fun a => decide (a ≠ ' ' ∧ a ≠ '\t' ∧ a ≠ '\r' ∧ a ≠ '\n' ∧ a ≠ '\x00' ∧ a ≠ '=' ∧
      a ≠ '#' ∧ a.toLower ≠ '[')) = true) : KeyWord key :=
  ⟨hne, fun a ha => of_decide_eq_true (List.all_eq_true.mp h a ha)⟩

theorem KeyText.val {key : Text} (h : KeyText key) : ValText key := by
  refine ⟨fun a ha => ?_, fun a ha => ?_⟩
  · obtain ⟨-, -, hcr, hlf, hnul⟩ := h.plain a ha
    exact ⟨hcr, hlf, hnul⟩
  · obtain ⟨hspace, htab, -⟩ := h.plain a (List.mem_of_mem_head? ha)
    simp [isBlank, hspace, htab]

/-- The line the parser sees of one that was written. -/
theorem confLine_text {body : Text} (hplain : ∀ a ∈ body, a ≠ '\r' ∧ a ≠ '\n' ∧ a ≠ '\x00')
    (hstart : ∀ a ∈ body.head?, isBlank a = false) :
    skipBlanks (cutAt ['\r', '\n'] (cString (body ++ ['\n']))) = body := by
  have hnul : '\x00' ∉ body ++ ['\n'] := by
    intro hc
    rcases List.mem_append.mp hc with hc | hc
    · exact (hplain _ hc).2.2 rfl
    · exact absurd hc (by decide)
  have hcut : cutAt ['\r', '\n'] (body ++ '\n' :: []) = body := by
    refine cutAt_append (fun a ha => ?_) (by decide)
    obtain ⟨hcr, hlf, -⟩ := hplain a ha
    simp [hcr, hlf]
  rw [cString_eq hnul, hcut]
  cases body with
  | nil => rfl
  | cons a body => exact skipBlanks_cons (hstart a rfl)

theorem strcasecmp_head_ne {a b : Char} (h : a.toLower ≠ b.toLower) (s t : Text) :
    strcasecmp (a :: s) (b :: t) = false := by
  unfold strcasecmp
  simp [h]

/-- What the parser makes of an entry's line: its key and its value. -/
theorem entry_parts {key val : Text} (hkey : KeyWord key) (hval : ValText val) :
    ∃ text, skipBlanks (cutAt ['\r', '\n'] (cString (key ++ [' ', '=', ' '] ++ val ++ ['\n']))) = text ∧
      ¬(text = [] ∨ text.head? = some '#') ∧ ¬strcasecmp text Word.interface = true ∧
      ¬strcasecmp text Word.peer = true ∧ ∃ before after, strchr '=' text = some (before, after) ∧
        cutAt [' ', '\t'] before = key ∧ skipBlanks after = val := by
  obtain ⟨first, rest, hfirst⟩ := List.exists_cons_of_ne_nil hkey.nonempty
  obtain ⟨hspace, htab, -, -, -, -, hhash, hbracket⟩ := hkey.plain first (by simp [hfirst])
  have hbody : skipBlanks (cutAt ['\r', '\n'] (cString (key ++ [' ', '=', ' '] ++ val ++ ['\n'])))
      = first :: (rest ++ [' ', '=', ' '] ++ val) := by
    rw [confLine_text]
    · rw [hfirst]
      simp
    · intro a ha
      rw [List.append_assoc] at ha
      rcases List.mem_append.mp ha with ha | ha
      · obtain ⟨-, -, hcr, hlf, hnul, -⟩ := hkey.plain a ha
        exact ⟨hcr, hlf, hnul⟩
      rcases List.mem_append.mp ha with ha | ha
      · simp only [List.mem_cons, List.not_mem_nil, or_false] at ha
        rcases ha with rfl | rfl | rfl <;> decide
      · exact hval.plain a ha
    · rw [hfirst]
      intro a ha
      cases ha
      simp [isBlank, hspace, htab]
  have hsection : ∀ word : Text, ¬strcasecmp (first :: (rest ++ [' ', '=', ' '] ++ val))
      ('[' :: word) = true := by
    intro word
    rw [strcasecmp_head_ne hbracket]
    exact Bool.false_ne_true
  refine ⟨_, hbody, by simp [hhash], hsection _, hsection _, key ++ [' '], ' ' :: val, ?_, ?_, ?_⟩
  · have hsplit : first :: (rest ++ [' ', '=', ' '] ++ val) = (key ++ [' ']) ++ '=' :: (' ' :: val) := by
      rw [hfirst]
      simp
    rw [hsplit]
    refine strchr_append (fun hc => ?_) _
    rcases List.mem_append.mp hc with hc | hc
    · exact (hkey.plain _ hc).2.2.2.2.2.1 rfl
    · exact absurd hc (by decide)
  · refine cutAt_append (fun a ha => ?_) (by decide)
    obtain ⟨hspace, htab, -⟩ := hkey.plain a ha
    simp [hspace, htab]
  · show skipBlanks val = val
    cases val with
    | nil => rfl
    | cons a val => exact skipBlanks_cons (hval.start a rfl)

section Entries

variable {maxPeers lineno : Nat} {key val : Text} {conf : Conf}

/-- An entry of the interface. -/
theorem confLine_interface (hkey : KeyWord key) (hval : ValText val) (hin : conf.inPeer = false)
    {ifr : IfReq} (h : interfaceKey w key val conf.ifr = some ifr) :
    confLine w maxPeers lineno (key ++ [' ', '=', ' '] ++ val ++ ['\n']) conf
      = .ok { conf with ifr := ifr } := by
  obtain ⟨text, htext, hblank, hsection, hpeer, before, after, hchr, hcut, hskip⟩ :=
    entry_parts hkey hval
  unfold confLine
  dsimp only
  rw [htext, if_neg hblank, if_neg hsection, if_neg hpeer, hchr]
  dsimp only
  rw [hcut, hskip, if_pos (by simp [hin]), h]

/-- An entry of a peer. -/
theorem confLine_peer (hkey : KeyWord key) (hval : ValText val) (hin : conf.inPeer = true)
    {req : PeerReq} (h : peerKey w key val (conf.peers.getLastD PeerReq.zero) = some req) :
    confLine w maxPeers lineno (key ++ [' ', '=', ' '] ++ val ++ ['\n']) conf
      = .ok { conf with peers := conf.peers.dropLast ++ [req] } := by
  obtain ⟨text, htext, hblank, hsection, hpeer, before, after, hchr, hcut, hskip⟩ :=
    entry_parts hkey hval
  unfold confLine
  dsimp only
  rw [htext, if_neg hblank, if_neg hsection, if_neg hpeer, hchr]
  dsimp only
  rw [hcut, hskip, if_neg (by simp [hin]), h]

/-- One whose value is refused. -/
theorem confLine_bad (hkey : KeyWord key) (hval : ValText val) (hin : conf.inPeer = true)
    (h : peerKey w key val (conf.peers.getLastD PeerReq.zero) = none) :
    confLine w maxPeers lineno (key ++ [' ', '=', ' '] ++ val ++ ['\n']) conf
      = .error (.badValue lineno key) := by
  obtain ⟨text, htext, hblank, hsection, hpeer, before, after, hchr, hcut, hskip⟩ :=
    entry_parts hkey hval
  unfold confLine
  dsimp only
  rw [htext, if_neg hblank, if_neg hsection, if_neg hpeer, hchr]
  dsimp only
  rw [hcut, hskip, if_neg (by simp [hin]), h]

end Entries

/-! ### Values -/

/-- Neither blank nor an end of a line or of the string. -/
def Visible (a : Char) : Prop := a ≠ ' ' ∧ a ≠ '\t' ∧ a ≠ '\r' ∧ a ≠ '\n' ∧ a ≠ '\x00'

theorem visible_of_isDigit {a : Char} (h : a.isDigit = true) : Visible a := by
  refine ⟨?_, ?_, ?_, ?_, ?_⟩ <;> rintro rfl <;> exact absurd h (by decide)

theorem ValText.of_visible {val : Text} (h : ∀ a ∈ val, Visible a) : ValText val := by
  refine ⟨fun a ha => ?_, fun a ha => ?_⟩
  · obtain ⟨-, -, hcr, hlf, hnul⟩ := h a ha
    exact ⟨hcr, hlf, hnul⟩
  · obtain ⟨hspace, htab, -⟩ := h a (List.mem_of_mem_head? ha)
    simp [isBlank, hspace, htab]

theorem visible_inetNtop {addr : U32} {a : Char} (ha : a ∈ inetNtop addr) : Visible a := by
  rcases mem_inetNtop ha with rfl | ha
  · exact ⟨by decide, by decide, by decide, by decide, by decide⟩
  · exact visible_of_isDigit ha

theorem visible_confPrefix {addr : U32} {cidr : Nat} {a : Char} (ha : a ∈ confPrefix addr cidr) :
    Visible a ∧ a ≠ ',' := by
  rcases List.mem_append.mp ha with ha | ha
  · refine ⟨visible_inetNtop ha, ?_⟩
    rintro rfl
    rcases mem_inetNtop ha with hc | hc <;> exact absurd hc (by decide)
  · rcases List.mem_cons.mp ha with rfl | ha
    · exact ⟨⟨by decide, by decide, by decide, by decide, by decide⟩, by decide⟩
    · refine ⟨visible_of_isDigit (isDigit_of_mem_decimal ha), ?_⟩
      rintro rfl
      exact absurd (isDigit_of_mem_decimal ha) (by decide)

/-- **A prefix is read back.** -/
theorem wgParseAip_confPrefix (addr : U32) {cidr : Nat} (h : cidr ≤ 32) :
    wgParseAip w (confPrefix addr cidr) = some ⟨addr, BitVec.ofNat 8 cidr⟩ := by
  have hslash : '/' ∉ inetNtop addr := by
    intro hc
    rcases mem_inetNtop hc with hc | hc <;> exact absurd hc (by decide)
  have hcidr : strtol w (decimal cidr) = cidr :=
    strtol_numeral_int (numeral_decimal cidr) (by omega)
  have hhost : ¬(inetNtop addr).length ≥ inetAddrstrlen := Nat.not_le.mpr (inetNtop_length addr)
  unfold wgParseAip confPrefix
  rw [strchr_append hslash]
  dsimp only
  rw [if_neg hhost, hcidr, if_neg (by omega), inetPton_inetNtop]
  rfl

/-- **An endpoint is read back**, if it has a port. -/
theorem wgParseEndpoint_written (addr : U32) (port : U16) :
    wgParseEndpoint w (inetNtop addr ++ ':' :: decimal port.toNat) =
      if port = 0 then none else some (ntohs port, addr) := by
  have hport : strtol w (decimal port.toNat) = port.toNat := by
    have hlt := port.isLt
    exact strtol_numeral_int (numeral_decimal _) (by omega)
  have hhost : ¬(inetNtop addr).length ≥ inetAddrstrlen := Nat.not_le.mpr (inetNtop_length addr)
  unfold wgParseEndpoint
  rw [strrchr_append _ (not_mem_decimal rfl)]
  dsimp only
  rw [if_neg hhost, hport, inetPton_inetNtop]
  have hlt := port.isLt
  by_cases hzero : port = 0
  · rw [if_pos hzero, if_pos (by rw [hzero]; decide)]
  · have hne : port.toNat ≠ 0 := fun hc => hzero (BitVec.eq_of_toNat_eq hc)
    rw [if_neg hzero, if_neg (by omega), BitVec.ofInt_natCast, BitVec.ofNat_toNat]
    simp

/-- A token of a list of prefixes; all but the first have a space in front. -/
theorem wgParseAip_token (aip : Aip) (h : aip.cidr.toNat ≤ 32) (blanks : Text)
    (hblanks : ∀ a ∈ blanks, (a == ' ') = true) :
    wgParseAip w ((blanks ++ confPrefix aip.addr aip.cidr.toNat).dropWhile (· == ' ')) = some aip := by
  have hdrop : (blanks ++ confPrefix aip.addr aip.cidr.toNat).dropWhile (· == ' ')
      = confPrefix aip.addr aip.cidr.toNat := by
    refine dropWhile_append_stop hblanks fun a ha => ?_
    obtain ⟨⟨hspace, -⟩, -⟩ := visible_confPrefix (List.mem_of_mem_head? ha)
    exact beq_eq_false_iff_ne.mpr hspace
  rw [hdrop, wgParseAip_confPrefix aip.addr h, BitVec.ofNat_toNat, BitVec.setWidth_eq]

theorem parseAipTokens_written (blanks : Text) (hblanks : ∀ a ∈ blanks, (a == ' ') = true) :
    ∀ (aips : List Aip) (n : Nat), n + aips.length ≤ wgMaxAips →
      (∀ aip ∈ aips, aip.cidr.toNat ≤ 32) →
      parseAipTokens w n (aips.map fun aip => blanks ++ confPrefix aip.addr aip.cidr.toNat)
        = some aips := by
  intro aips
  induction aips with
  | nil => intro n _ _; rfl
  | cons aip aips ih =>
      intro n hlength hcidr
      rw [List.length_cons] at hlength
      rw [List.map_cons, parseAipTokens, if_neg (by omega),
        wgParseAip_token aip (hcidr aip List.mem_cons_self) blanks hblanks,
        ih (n + 1) (by omega) fun a ha => hcidr a (List.mem_cons_of_mem _ ha)]
      rfl

/-- **A list of prefixes is read back.** -/
theorem wgParseAips_written {aips : List Aip} (hne : aips ≠ []) (hlength : aips.length ≤ wgMaxAips)
    (hcidr : ∀ aip ∈ aips, aip.cidr.toNat ≤ 32) :
    wgParseAips w ([',', ' '].intercalate (aips.map fun aip => confPrefix aip.addr aip.cidr.toNat))
      = some aips := by
  obtain ⟨aip, rest, rfl⟩ := List.exists_cons_of_ne_nil hne
  have htokens : strtok ',' ([',', ' '].intercalate
      ((aip :: rest).map fun aip => confPrefix aip.addr aip.cidr.toNat))
      = confPrefix aip.addr aip.cidr.toNat ::
        rest.map fun aip => [' '] ++ confPrefix aip.addr aip.cidr.toNat := by
    have hnonempty : ∀ aip : Aip, confPrefix aip.addr aip.cidr.toNat ≠ [] := by
      intro aip
      simp [confPrefix]
    have hcomma : ∀ aip : Aip, ',' ∉ confPrefix aip.addr aip.cidr.toNat :=
      fun aip hc => (visible_confPrefix hc).2 rfl
    unfold strtok
    rw [List.map_cons, intercalate_pair, List.map_map, List.splitOn_intercalate ',' _ (by simp)]
    · rw [List.filter_cons_of_pos (by simp [hnonempty]), List.filter_eq_self.mpr]
      · rfl
      · intro s hs
        obtain ⟨aip, -, rfl⟩ := List.mem_map.mp hs
        simp
    · intro s hs
      rcases List.mem_cons.mp hs with rfl | hs
      · exact hcomma aip
      · obtain ⟨aip, -, rfl⟩ := List.mem_map.mp hs
        simpa using hcomma aip
  rw [List.length_cons] at hlength
  unfold wgParseAips
  have hfirst := wgParseAip_token (w := w) aip (hcidr aip List.mem_cons_self) []
    fun a ha => (by cases ha)
  rw [List.nil_append] at hfirst
  rw [htokens, parseAipTokens, if_neg (by unfold wgMaxAips; omega), hfirst,
    parseAipTokens_written [' '] (by simp) rest 1 (by omega)
      fun a ha => hcidr a (List.mem_cons_of_mem _ ha)]
  rfl

/-! ### Sections -/

theorem confLines_append (maxPeers : Nat) (ls ls' : List Text) (done : Nat) (conf : Conf) :
    confLines w maxPeers done (ls ++ ls') conf =
      (confLines w maxPeers done ls conf).bind fun conf =>
        confLines w maxPeers (done + ls.length) ls' conf := by
  induction ls generalizing done conf with
  | nil => rfl
  | cons line ls ih =>
      rw [List.cons_append, confLines, confLines]
      cases confLine w maxPeers (done + 1) line conf with
      | error err => rfl
      | ok conf =>
          dsimp only
          rw [ih, List.length_cons, Nat.add_right_comm, Nat.add_assoc]

/-- Lines the parser accepts, and what it makes of them. -/
def Reads (w : LongWidth) (maxPeers : Nat) (ls : List Text) (conf conf' : Conf) : Prop :=
  ∀ done, confLines w maxPeers done (ls.map (· ++ ['\n'])) conf = .ok conf'

/-- Lines it refuses. -/
def Rejects (w : LongWidth) (maxPeers : Nat) (ls : List Text) (conf : Conf) : Prop :=
  ∀ done, ∃ err, confLines w maxPeers done (ls.map (· ++ ['\n'])) conf = .error err

section Reading

variable {maxPeers : Nat} {ls ls' : List Text} {a b d : Conf} {body : Text}

theorem Reads.nil : Reads w maxPeers [] a a := fun _ => rfl

theorem Reads.line (h : ∀ lineno, confLine w maxPeers lineno (body ++ ['\n']) a = .ok b) :
    Reads w maxPeers [body] a b := by
  intro done
  rw [List.map_singleton, confLines, h]
  rfl

theorem Rejects.line
    (h : ∀ lineno, ∃ err, confLine w maxPeers lineno (body ++ ['\n']) a = .error err) :
    Rejects w maxPeers [body] a := by
  intro done
  obtain ⟨err, herr⟩ := h (done + 1)
  rw [List.map_singleton, confLines, herr]
  exact ⟨err, rfl⟩

theorem Reads.append (h : Reads w maxPeers ls a b) (h' : Reads w maxPeers ls' b d) :
    Reads w maxPeers (ls ++ ls') a d := by
  intro done
  rw [List.map_append, confLines_append, h]
  exact h' _

/-- What is refused behind accepted lines is refused. -/
theorem Reads.rejects (h : Reads w maxPeers ls a b) (h' : Rejects w maxPeers ls' b) :
    Rejects w maxPeers (ls ++ ls') a := by
  intro done
  rw [List.map_append, confLines_append, h]
  exact h' _

theorem Rejects.append (h : Rejects w maxPeers ls a) (ls' : List Text) :
    Rejects w maxPeers (ls ++ ls') a := by
  intro done
  obtain ⟨err, herr⟩ := h done
  rw [List.map_append, confLines_append, herr]
  exact ⟨err, rfl⟩

end Reading

/-! ### The sections of a written file -/

/-- An entry without the end of its line. -/
def entryLine (key val : Text) : Text := key ++ [' ', '=', ' '] ++ val

/-- The lines of `writeInterface`. -/
def interfaceLines (ifr : IfInfo) (privkey : Text) : List Text :=
  [Word.interface, entryLine Word.privateKey privkey,
    entryLine Word.listenPort (decimal ifr.listenPort.toNat)] ++
  if ifr.has wgIfHasAddr ∧ ifr.addr ≠ 0 then
    [entryLine Word.address (confPrefix ifr.addr (maskCidr ifr.netmask))]
  else []

/-- The allowed-ips a peer is reported with. -/
def PeerInfo.reported (peer : PeerInfo) : List Aip :=
  ((List.finRange wgMaxAips).take peer.naips.toNat).map peer.aips

theorem length_reported (peer : PeerInfo) : (PeerInfo.reported peer).length ≤ wgMaxAips := by
  unfold PeerInfo.reported
  rw [List.length_map, List.length_take, List.length_finRange]
  exact Nat.min_le_right _ _

/-- The lines of `writePeer`. -/
def peerLines (peer : PeerInfo) : List Text :=
  [[], Word.peer, entryLine Word.publicKey (wgB64Encode peer.publicKey)] ++
  (if peer.has wgPeerHasAips then
    [entryLine Word.allowedIps ([',', ' '].intercalate
      ((PeerInfo.reported peer).map fun aip => confPrefix aip.addr aip.cidr.toNat))]
  else []) ++
  (if peer.has wgPeerHasEndpoint then
    [entryLine Word.endpoint (inetNtop peer.sinAddr ++ ':' :: decimal (ntohs peer.sinPort).toNat)]
  else []) ++
  if peer.keepalive > 0 then
    [entryLine Word.persistentKeepalive (decimal peer.keepalive.toNat)]
  else []

theorem writeInterface_lines (ifr : IfInfo) (privkey : Text) :
    writeInterface ifr privkey = unlines (interfaceLines ifr privkey) := by
  unfold writeInterface interfaceLines confEntry
  split <;> simp [unlines, entryLine]

theorem writePeer_lines (peer : PeerInfo) : writePeer peer = unlines (peerLines peer) := by
  unfold writePeer peerLines confEntry PeerInfo.reported
  rw [List.map_map]
  split <;> split <;> split <;> simp [unlines, entryLine] <;> rfl

/-- **The file is these lines.** -/
theorem wgWriteConf_lines (ifr : IfInfo) (peers : List PeerInfo) (privkey : Text) :
    wgWriteConf ifr peers privkey
      = unlines (interfaceLines ifr privkey ++ peers.flatMap peerLines) := by
  unfold wgWriteConf
  rw [unlines_append, unlines_flatMap, writeInterface_lines,
    show writePeer = fun peer => unlines (peerLines peer) from funext writePeer_lines]

/-! ### Reading the sections -/

/-- The interface request a written section reads as, for the key `k`. -/
def interfaceReq (ifr : IfInfo) (k : Key) : IfReq :=
  let req := { IfReq.zero with
    privateKey := k
    flags := IfReq.zero.flags ||| wgIfHasPrivateKey }
  let req := { req with listenPort := ifr.listenPort, flags := req.flags ||| wgIfHasListenPort }
  if ifr.has wgIfHasAddr ∧ ifr.addr ≠ 0 then { req with
    addr := ifr.addr
    netmask := prefixMask (BitVec.ofNat 8 (maskCidr ifr.netmask))
    flags := req.flags ||| wgIfHasAddr }
  else req

theorem ValText.decimal {n : Nat} : ValText (Lib.decimal n) :=
  .of_visible fun _ ha => visible_of_isDigit (isDigit_of_mem_decimal ha)

theorem strtoul_half (v : U16) : BitVec.ofNat 16 (strtoul w (decimal v.toNat)) = v := by
  have hlt := v.isLt
  have hpow := w.two_pow_bits_le
  rw [strtoul_decimal_end (by omega), BitVec.ofNat_toNat, BitVec.setWidth_eq]

/-- **The interface section is read back.** -/
theorem reads_interfaceLines {maxPeers : Nat} (ifr : IfInfo) {privkey : Text} {k : Key}
    (htext : KeyText privkey) (hkey : wgB64Decode privkey = some k) :
    Reads w maxPeers (interfaceLines ifr privkey) Conf.empty ⟨interfaceReq ifr k, [], false⟩ := by
  have hsection : Reads w maxPeers [Word.interface] Conf.empty Conf.empty := .line fun _ => rfl
  have hprivate : Reads w maxPeers [entryLine Word.privateKey privkey] Conf.empty
      ⟨{ IfReq.zero with privateKey := k, flags := IfReq.zero.flags ||| wgIfHasPrivateKey }, [],
        false⟩ := by
    refine .line fun _ => confLine_interface (.of_all (by decide) (by decide)) htext.val rfl ?_
    rw [interfaceKey, if_pos (by decide), hkey]
    rfl
  have hport : ∀ req : IfReq, Reads w maxPeers
      [entryLine Word.listenPort (Lib.decimal ifr.listenPort.toNat)] ⟨req, [], false⟩
      ⟨{ req with listenPort := ifr.listenPort, flags := req.flags ||| wgIfHasListenPort }, [],
        false⟩ := by
    intro req
    refine .line fun _ => confLine_interface (.of_all (by decide) (by decide)) .decimal rfl ?_
    rw [interfaceKey, if_neg (by decide), if_pos (by decide), strtoul_half]
  have haddress : ∀ req : IfReq, Reads w maxPeers
      [entryLine Word.address (confPrefix ifr.addr (maskCidr ifr.netmask))] ⟨req, [], false⟩
      ⟨{ req with
        addr := ifr.addr
        netmask := prefixMask (BitVec.ofNat 8 (maskCidr ifr.netmask))
        flags := req.flags ||| wgIfHasAddr }, [], false⟩ := by
    intro req
    refine .line fun _ => confLine_interface (.of_all (by decide) (by decide))
      (.of_visible fun _ ha => (visible_confPrefix ha).1) rfl ?_
    rw [interfaceKey, if_neg (by decide), if_neg (by decide), if_pos (by decide),
      wgParseAip_confPrefix _ (maskCidr_le _)]
    rfl
  unfold interfaceLines interfaceReq
  dsimp only
  refine Reads.append ((hsection.append hprivate).append (hport _)) ?_
  split
  · exact haddress _
  · exact .nil

/-- What the `AllowedIPs` line, if there is one, makes of a request. -/
def aipsRead (peer : PeerInfo) (req : PeerReq) : PeerReq :=
  if peer.has wgPeerHasAips then { req with
    aips := fun j => (PeerInfo.reported peer).getD j (req.aips j)
    naips := BitVec.ofNat 8 (PeerInfo.reported peer).length
    flags := req.flags ||| (wgPeerHasAips ||| wgPeerReplaceAips) }
  else req

/-- The `Endpoint` line. -/
def endpointRead (peer : PeerInfo) (req : PeerReq) : PeerReq :=
  if peer.has wgPeerHasEndpoint then { req with
    sinFamily := afInet
    sinPort := peer.sinPort
    sinAddr := peer.sinAddr
    flags := req.flags ||| wgPeerHasEndpoint }
  else req

/-- The `PersistentKeepalive` line. -/
def keepaliveRead (peer : PeerInfo) (req : PeerReq) : PeerReq :=
  if peer.keepalive > 0 then { req with
    keepalive := peer.keepalive
    flags := req.flags ||| wgPeerHasKeepalive }
  else req

/-- The request a written `[Peer]` section reads as. -/
def sectionReq (peer : PeerInfo) : PeerReq :=
  keepaliveRead peer (endpointRead peer (aipsRead peer
    { PeerReq.zero with publicKey := peer.publicKey }))

/-- What the driver reports of allowed-ips can be read back. -/
structure Reportable (peer : PeerInfo) : Prop where
  cidr : ∀ aip ∈ PeerInfo.reported peer, aip.cidr.toNat ≤ 32
  some : peer.has wgPeerHasAips = true → PeerInfo.reported peer ≠ []

/-- The endpoint it reports can be one. -/
def PortGiven (peer : PeerInfo) : Prop := peer.has wgPeerHasEndpoint = true → peer.sinPort ≠ 0

section PeerSections

variable {maxPeers : Nat} {ifr : IfReq} {peers : List PeerReq} {key val : Text}
  {req req' : PeerReq}

theorem reads_peerEntry (hkey : KeyWord key) (hval : ValText val)
    (h : peerKey w key val req = some req') :
    Reads w maxPeers [entryLine key val] ⟨ifr, peers ++ [req], true⟩ ⟨ifr, peers ++ [req'], true⟩ := by
  have hlast : (peers ++ [req]).getLastD PeerReq.zero = req := by simp
  refine .line fun lineno => (confLine_peer hkey hval rfl (by rw [hlast]; exact h)).trans ?_
  rw [List.dropLast_concat]

theorem rejects_peerEntry (hkey : KeyWord key) (hval : ValText val)
    (h : peerKey w key val req = none) :
    Rejects w maxPeers [entryLine key val] ⟨ifr, peers ++ [req], true⟩ := by
  refine .line fun _ => ⟨_, confLine_bad hkey hval rfl ?_⟩
  have hlast : (peers ++ [req]).getLastD PeerReq.zero = req := by simp
  rw [hlast]
  exact h

theorem ValText.endpoint {addr : U32} {port : U16} :
    ValText (inetNtop addr ++ ':' :: Lib.decimal port.toNat) := by
  refine .of_visible fun a ha => ?_
  rcases List.mem_append.mp ha with ha | ha
  · exact visible_inetNtop ha
  rcases List.mem_cons.mp ha with rfl | ha
  · exact ⟨by decide, by decide, by decide, by decide, by decide⟩
  · exact visible_of_isDigit (isDigit_of_mem_decimal ha)

theorem ValText.aips {aips : List Aip} (hne : aips ≠ []) :
    ValText ([',', ' '].intercalate (aips.map fun aip => confPrefix aip.addr aip.cidr.toNat)) := by
  obtain ⟨aip, rest, rfl⟩ := List.exists_cons_of_ne_nil hne
  rw [List.map_cons, intercalate_pair, List.map_map]
  refine ⟨fun a ha => ?_, fun a ha => ?_⟩
  · have hvisible : a = ' ' ∨ a = ',' ∨ Visible a := by
      rcases mem_intercalate _ ha with ha | ⟨s, hs, has⟩
      · exact Or.inr (Or.inl ha)
      · rcases List.mem_cons.mp hs with rfl | hs
        · exact Or.inr (Or.inr (visible_confPrefix has).1)
        · obtain ⟨aip, -, rfl⟩ := List.mem_map.mp hs
          rcases List.mem_cons.mp has with ha | ha
          · exact Or.inl ha
          · exact Or.inr (Or.inr (visible_confPrefix ha).1)
    rcases hvisible with rfl | rfl | ⟨-, -, hcr, hlf, hnul⟩
    · decide
    · decide
    · exact ⟨hcr, hlf, hnul⟩
  · -- the first character is the first one of the first prefix
    have hfirst : a ∈ confPrefix aip.addr aip.cidr.toNat := by
      have hhead : ∀ rest : List Text, ([','].intercalate
          (confPrefix aip.addr aip.cidr.toNat :: rest)).head? =
          (confPrefix aip.addr aip.cidr.toNat).head? := by
        intro rest
        have hne : confPrefix aip.addr aip.cidr.toNat ≠ [] := by simp [confPrefix]
        obtain ⟨b, s, hs⟩ := List.exists_cons_of_ne_nil hne
        rw [hs]
        cases rest with
        | nil => simp
        | cons r rest => rw [List.intercalate_cons_of_ne_nil (List.cons_ne_nil r rest)]; rfl
      rw [hhead] at ha
      exact List.mem_of_mem_head? ha
    obtain ⟨⟨hspace, htab, -⟩, -⟩ := visible_confPrefix hfirst
    simp [isBlank, hspace, htab]

/-- A key that was encoded looks like one. -/
theorem keyText_encode (key : Key) : KeyText (wgB64Encode key) := by
  refine ⟨wgB64Encode_length key, fun a ha => ?_⟩
  have htable : ((gB64 ++ ['=']).all fun b => decide (b ≠ ' ' ∧ b ≠ '\t' ∧ b ≠ '\r' ∧ b ≠ '\n' ∧
      b ≠ '\x00')) = true := by decide
  refine of_decide_eq_true (List.all_eq_true.mp htable a ?_)
  rcases mem_wgB64Encode ha with ha | rfl
  · exact List.mem_append_left _ ha
  · exact List.mem_append_right _ List.mem_cons_self

/-- The section's first three lines open a request for the peer. -/
theorem reads_peerHead (peer : PeerInfo) {inPeer : Bool} (hroom : peers.length < maxPeers) :
    Reads w maxPeers [[], Word.peer, entryLine Word.publicKey (wgB64Encode peer.publicKey)]
      ⟨ifr, peers, inPeer⟩
      ⟨ifr, peers ++ [{ PeerReq.zero with publicKey := peer.publicKey }], true⟩ := by
  have hblank : Reads w maxPeers [[]] ⟨ifr, peers, inPeer⟩ ⟨ifr, peers, inPeer⟩ := .line fun _ => rfl
  have hsection : Reads w maxPeers [Word.peer] ⟨ifr, peers, inPeer⟩
      ⟨ifr, peers ++ [PeerReq.zero], true⟩ := by
    refine .line fun _ => ?_
    show (if peers.length ≥ maxPeers then _ else _) = _
    rw [if_neg (by omega)]
  have hkey : Reads w maxPeers [entryLine Word.publicKey (wgB64Encode peer.publicKey)]
      ⟨ifr, peers ++ [PeerReq.zero], true⟩ _ :=
    reads_peerEntry (.of_all (by decide) (by decide)) (keyText_encode _).val
      (by rw [peerKey, if_pos (by decide), wgB64Decode_encode]; rfl)
  exact (hblank.append hsection).append hkey

theorem reads_aipsLine {peer : PeerInfo} (hpeer : Reportable peer) (req : PeerReq) :
    Reads w maxPeers
      (if peer.has wgPeerHasAips then
        [entryLine Word.allowedIps ([',', ' '].intercalate
          ((PeerInfo.reported peer).map fun aip => confPrefix aip.addr aip.cidr.toNat))]
      else [])
      ⟨ifr, peers ++ [req], true⟩ ⟨ifr, peers ++ [aipsRead peer req], true⟩ := by
  unfold aipsRead
  split
  · rename_i hhas
    refine reads_peerEntry (.of_all (by decide) (by decide)) (.aips (hpeer.some hhas)) ?_
    rw [peerKey, if_neg (by decide), if_neg (by decide), if_pos (by decide),
      wgParseAips_written (hpeer.some hhas) (length_reported peer) hpeer.cidr]
    rfl
  · exact .nil

theorem reads_endpointLine {peer : PeerInfo} (hport : PortGiven peer) (req : PeerReq) :
    Reads w maxPeers
      (if peer.has wgPeerHasEndpoint then
        [entryLine Word.endpoint
          (inetNtop peer.sinAddr ++ ':' :: Lib.decimal (ntohs peer.sinPort).toNat)]
      else [])
      ⟨ifr, peers ++ [req], true⟩ ⟨ifr, peers ++ [endpointRead peer req], true⟩ := by
  unfold endpointRead
  split
  · rename_i hhas
    have hne : ntohs peer.sinPort ≠ 0 := by
      intro hc
      refine hport hhas ?_
      rw [← ntohs_ntohs peer.sinPort, hc]
      rfl
    refine reads_peerEntry (.of_all (by decide) (by decide)) .endpoint ?_
    rw [peerKey, if_neg (by decide), if_neg (by decide), if_neg (by decide), if_pos (by decide),
      wgParseEndpoint_written, if_neg hne, ntohs_ntohs]
    rfl
  · exact .nil

theorem reads_keepaliveLine (peer : PeerInfo) (req : PeerReq) :
    Reads w maxPeers
      (if peer.keepalive > 0 then
        [entryLine Word.persistentKeepalive (Lib.decimal peer.keepalive.toNat)]
      else [])
      ⟨ifr, peers ++ [req], true⟩ ⟨ifr, peers ++ [keepaliveRead peer req], true⟩ := by
  unfold keepaliveRead
  split
  · obtain ⟨a, s, hs, ha⟩ := decimal_cons peer.keepalive.toNat
    have hoff : strcasecmp (Lib.decimal peer.keepalive.toNat) Word.off = false := by
      rw [hs]
      refine strcasecmp_head_ne ?_ _ _
      rw [toLower_of_isDigit ha]
      rintro rfl
      exact absurd ha (by decide)
    refine reads_peerEntry (.of_all (by decide) (by decide)) .decimal ?_
    rw [peerKey, if_neg (by decide), if_neg (by decide), if_neg (by decide), if_neg (by decide),
      if_pos (by decide), hoff, strtoul_half]
    rfl
  · exact .nil

/-- **A peer's section is read back**, if its endpoint has a port. -/
theorem reads_peerLines {peer : PeerInfo} (hpeer : Reportable peer) (hport : PortGiven peer)
    {inPeer : Bool} (hroom : peers.length < maxPeers) :
    Reads w maxPeers (peerLines peer) ⟨ifr, peers, inPeer⟩
      ⟨ifr, peers ++ [sectionReq peer], true⟩ :=
  (((reads_peerHead peer hroom).append (reads_aipsLine hpeer _)).append
    (reads_endpointLine hport _)).append (reads_keepaliveLine peer _)

/-- And refused if it has none. -/
theorem rejects_peerLines {peer : PeerInfo} (hpeer : Reportable peer) (hport : ¬PortGiven peer)
    {inPeer : Bool} (hroom : peers.length < maxPeers) :
    Rejects w maxPeers (peerLines peer) ⟨ifr, peers, inPeer⟩ := by
  obtain ⟨hhas, hzero⟩ := Classical.not_imp.mp hport
  have hzero : peer.sinPort = 0 := by simpa using hzero
  refine (((reads_peerHead peer hroom).append (reads_aipsLine hpeer _)).rejects ?_).append _
  rw [if_pos hhas]
  refine rejects_peerEntry (.of_all (by decide) (by decide)) .endpoint ?_
  rw [peerKey, if_neg (by decide), if_neg (by decide), if_neg (by decide), if_pos (by decide),
    wgParseEndpoint_written, if_pos (by rw [hzero]; decide)]
  rfl

end PeerSections

/-! ### The whole file -/

/-- A line that fits the buffer. -/
def Fits (line : Text) : Prop := '\n' ∉ line ∧ line.length + 1 < wgLineMax

theorem fits_entryLine {key val : Text} (hkey : KeyWord key) (hval : ValText val)
    (hlength : key.length + val.length < 250) : Fits (entryLine key val) := by
  unfold entryLine
  constructor
  · intro hc
    rw [List.append_assoc] at hc
    rcases List.mem_append.mp hc with hc | hc
    · exact (hkey.plain _ hc).2.2.2.1 rfl
    rcases List.mem_append.mp hc with hc | hc
    · exact absurd hc (by decide)
    · exact (hval.plain _ hc).2.1 rfl
  · unfold wgLineMax
    simp only [List.length_append, List.length_cons, List.length_nil]
    omega

theorem length_decimal_half (v : U16) : (Lib.decimal v.toNat).length ≤ 5 := by
  have hlt := v.isLt
  exact decimal_length_le (by omega) (by decide)

theorem length_confPrefix (addr : U32) (cidr : Nat) (h : cidr < 1000) :
    (confPrefix addr cidr).length < 20 := by
  have haddr := inetNtop_length addr
  have hcidr : (Lib.decimal cidr).length ≤ 3 := decimal_length_le h (by decide)
  unfold confPrefix
  rw [List.length_append, List.length_cons]
  omega

theorem fits_interfaceLines (ifr : IfInfo) {privkey : Text} (htext : KeyText privkey) :
    ∀ line ∈ interfaceLines ifr privkey, Fits line := by
  have hport := length_decimal_half ifr.listenPort
  have haddress : (confPrefix ifr.addr (maskCidr ifr.netmask)).length < 20 :=
    length_confPrefix _ _ (Nat.lt_of_le_of_lt (maskCidr_le _) (by decide))
  intro line hline
  unfold interfaceLines at hline
  rcases List.mem_append.mp hline with hline | hline
  · simp only [List.mem_cons, List.not_mem_nil, or_false] at hline
    rcases hline with rfl | rfl | rfl
    · exact ⟨by decide, by decide⟩
    · exact fits_entryLine (.of_all (by decide) (by decide)) htext.val (by rw [htext.length]; decide)
    · refine fits_entryLine (.of_all (by decide) (by decide)) .decimal ?_
      rw [show Word.listenPort.length = 10 from rfl]
      omega
  · split at hline
    · rw [List.mem_singleton] at hline
      subst hline
      refine fits_entryLine (.of_all (by decide) (by decide))
        (.of_visible fun _ ha => (visible_confPrefix ha).1) ?_
      rw [show Word.address.length = 7 from rfl]
      omega
    · cases hline

theorem length_aips {aips : List Aip} (hlength : aips.length ≤ wgMaxAips) :
    ([',', ' '].intercalate (aips.map fun aip => confPrefix aip.addr aip.cidr.toNat)).length
      < 200 := by
  cases aips with
  | nil => decide
  | cons aip rest =>
      rw [List.map_cons, intercalate_pair, List.map_map]
      have hlt := length_intercalate_lt (a := ',') (k := 20)
        (confPrefix aip.addr aip.cidr.toNat ::
          rest.map ((' ' :: ·) ∘ fun aip => confPrefix aip.addr aip.cidr.toNat)) (by simp)
        fun s hs => ?_
      · rw [List.length_cons, List.length_map] at hlt
        rw [List.length_cons] at hlength
        unfold wgMaxAips at hlength
        omega
      · rcases List.mem_cons.mp hs with rfl | hs
        · have hlt := aip.cidr.isLt
          have hprefix := length_confPrefix aip.addr aip.cidr.toNat (by omega)
          omega
        · obtain ⟨aip, -, rfl⟩ := List.mem_map.mp hs
          have hlt := aip.cidr.isLt
          have hprefix := length_confPrefix aip.addr aip.cidr.toNat (by omega)
          simp only [Function.comp_apply, List.length_cons]
          omega

theorem fits_peerLines {peer : PeerInfo} (hpeer : Reportable peer) :
    ∀ line ∈ peerLines peer, Fits line := by
  intro line hline
  unfold peerLines at hline
  rw [List.append_assoc, List.append_assoc] at hline
  rcases List.mem_append.mp hline with hline | hline
  · simp only [List.mem_cons, List.not_mem_nil, or_false] at hline
    rcases hline with rfl | rfl | rfl
    · exact ⟨by decide, by decide⟩
    · exact ⟨by decide, by decide⟩
    · exact fits_entryLine (.of_all (by decide) (by decide)) (keyText_encode _).val
        (by rw [wgB64Encode_length]; decide)
  rcases List.mem_append.mp hline with hline | hline
  · split at hline
    · rename_i hhas
      rw [List.mem_singleton] at hline
      subst hline
      have hlength := length_aips (length_reported peer)
      refine fits_entryLine (.of_all (by decide) (by decide)) (.aips (hpeer.some hhas)) ?_
      rw [show Word.allowedIps.length = 10 from rfl]
      omega
    · cases hline
  rcases List.mem_append.mp hline with hline | hline
  · split at hline
    · rw [List.mem_singleton] at hline
      subst hline
      have haddr := inetNtop_length peer.sinAddr
      have hport := length_decimal_half (ntohs peer.sinPort)
      refine fits_entryLine (.of_all (by decide) (by decide)) .endpoint ?_
      rw [show Word.endpoint.length = 8 from rfl, List.length_append, List.length_cons]
      omega
    · cases hline
  · split at hline
    · rw [List.mem_singleton] at hline
      subst hline
      have hkeepalive := length_decimal_half peer.keepalive
      refine fits_entryLine (.of_all (by decide) (by decide)) .decimal ?_
      rw [show Word.persistentKeepalive.length = 19 from rfl]
      omega
    · cases hline

theorem reads_sections {maxPeers : Nat} (ifr : IfReq) : ∀ (infos : List PeerInfo)
    (peers : List PeerReq) (inPeer : Bool), (∀ info ∈ infos, Reportable info) →
    (∀ info ∈ infos, PortGiven info) → peers.length + infos.length ≤ maxPeers →
      ∃ inPeer', Reads w maxPeers (infos.flatMap peerLines) ⟨ifr, peers, inPeer⟩
        ⟨ifr, peers ++ infos.map sectionReq, inPeer'⟩ := by
  intro infos
  induction infos with
  | nil =>
      intro peers inPeer _ _ _
      refine ⟨inPeer, ?_⟩
      rw [List.map_nil, List.append_nil]
      exact .nil
  | cons info infos ih =>
      intro peers inPeer hinfos hports hroom
      rw [List.length_cons] at hroom
      have hfirst : Reads w maxPeers (peerLines info) ⟨ifr, peers, inPeer⟩
          ⟨ifr, peers ++ [sectionReq info], true⟩ :=
        reads_peerLines (hinfos info List.mem_cons_self) (hports info List.mem_cons_self) (by omega)
      obtain ⟨inPeer', hrest⟩ := ih (peers ++ [sectionReq info]) true
        (fun i hi => hinfos i (List.mem_cons_of_mem _ hi))
        (fun i hi => hports i (List.mem_cons_of_mem _ hi)) (by
          rw [List.length_append, List.length_singleton]
          omega)
      refine ⟨inPeer', ?_⟩
      rw [List.flatMap_cons, List.map_cons]
      rw [List.append_assoc, List.singleton_append] at hrest
      exact hfirst.append hrest

theorem rejects_sections {maxPeers : Nat} {ifr : IfReq} : ∀ (infos : List PeerInfo)
    (peers : List PeerReq) (inPeer : Bool), (∀ info ∈ infos, Reportable info) →
    (¬∀ info ∈ infos, PortGiven info) → peers.length + infos.length ≤ maxPeers →
      Rejects w maxPeers (infos.flatMap peerLines) ⟨ifr, peers, inPeer⟩ := by
  intro infos
  induction infos with
  | nil =>
      intro peers inPeer _ hports _
      exact absurd (fun info hinfo => (by cases hinfo)) hports
  | cons info infos ih =>
      intro peers inPeer hinfos hports hroom
      rw [List.length_cons] at hroom
      have hreport := hinfos info List.mem_cons_self
      have hlt : peers.length < maxPeers := by omega
      rw [List.flatMap_cons]
      by_cases hport : PortGiven info
      · refine (reads_peerLines hreport hport hlt).rejects (ih _ true
          (fun i hi => hinfos i (List.mem_cons_of_mem _ hi)) (fun hall => hports ?_) ?_)
        · intro i hi
          rcases List.mem_cons.mp hi with rfl | hi
          · exact hport
          · exact hall i hi
        · rw [List.length_append, List.length_singleton]
          omega
      · exact (rejects_peerLines hreport hport hlt).append _

section File

variable {maxPeers : Nat} {ifr : IfInfo} {infos : List PeerInfo} {privkey : Text} {k : Key}

theorem readConf_lines (htext : KeyText privkey) (hinfos : ∀ info ∈ infos, Reportable info) :
    readConf w maxPeers (wgWriteConf ifr infos privkey) = confLines w maxPeers 0
      ((interfaceLines ifr privkey ++ infos.flatMap peerLines).map (· ++ ['\n'])) Conf.empty := by
  unfold readConf
  rw [wgWriteConf_lines, lines_unlines]
  intro line hline
  rcases List.mem_append.mp hline with hline | hline
  · exact fits_interfaceLines ifr htext line hline
  · obtain ⟨info, hinfo, hline⟩ := List.mem_flatMap.mp hline
    exact fits_peerLines (hinfos info hinfo) line hline

/-- **What was written is read back**, if every endpoint has a port. -/
theorem readConf_writeConf (htext : KeyText privkey) (hkey : wgB64Decode privkey = some k)
    (hinfos : ∀ info ∈ infos, Reportable info) (hports : ∀ info ∈ infos, PortGiven info)
    (hroom : infos.length ≤ maxPeers) :
    ∃ inPeer, readConf w maxPeers (wgWriteConf ifr infos privkey)
      = .ok ⟨interfaceReq ifr k, infos.map sectionReq, inPeer⟩ := by
  obtain ⟨inPeer, hsections⟩ := reads_sections (interfaceReq ifr k) infos [] false hinfos
    hports (by simpa using hroom)
  refine ⟨inPeer, ?_⟩
  rw [readConf_lines htext hinfos]
  exact ((reads_interfaceLines ifr htext hkey).append hsections) 0

/-- And it is refused if one has none. -/
theorem readConf_writeConf_bad (htext : KeyText privkey) (hkey : wgB64Decode privkey = some k)
    (hinfos : ∀ info ∈ infos, Reportable info) (hports : ¬∀ info ∈ infos, PortGiven info)
    (hroom : infos.length ≤ maxPeers) :
    ∃ err, readConf w maxPeers (wgWriteConf ifr infos privkey) = .error err := by
  rw [readConf_lines htext hinfos]
  exact ((reads_interfaceLines ifr htext hkey).rejects
    (rejects_sections infos [] false hinfos hports (by simpa using hroom))) 0

end File

end NuttxWireguard.Cli
