/-
Recording a private key (`wg_record_private_key`).

The file is copied line by line.  The key takes the place of the first line that starts with
`PrivateKey`, or goes behind the first one that starts with `[Interface]`, if that comes
before, or into a section of its own at the end; the other lines that start with `PrivateKey`
are left out.

So the new file says what the old one said, and has the key, as long as the key and what is
left out stand at the start of a line, no line that is kept has a NUL in it, and the place of
the key is not in a `[Peer]` section.
-/
import NuttxWireguard.Cli.KeyLines
import NuttxWireguard.Lib.Lines

namespace NuttxWireguard.Cli

open Lib Kernel

variable {w : LongWidth}

/-! ### The new file -/

/-- The line starts with `[Interface]`. -/
def isHeaderLine (line : Text) : Bool := strncasecmp (skipBlanks (cString line)) Word.interface

def headerLine : Text := Word.interface ++ ['\n']

/-- The lines of the new file. -/
def recorded (key : Text) : (written : Bool) → List Text → List Text
  | written, [] => if written then [] else [headerLine, confEntry Word.privateKey key]
  | written, line :: rest =>
    if isKeyLine line then
      if written then recorded key true rest
      else confEntry Word.privateKey key :: recorded key true rest
    else if written = false ∧ isHeaderLine line = true then
      line :: confEntry Word.privateKey key :: recorded key true rest
    else line :: recorded key written rest

/-- What is written or left out stands at the start of a line, and no line that is kept has a
NUL in it; `opened` says that what was kept last has not ended its line. -/
def Unbroken : (written opened : Bool) → List Text → Prop
  | written, opened, [] => written = true ∨ opened = false
  | written, opened, line :: rest =>
    if isKeyLine line then opened = false ∧ Unbroken true false rest
    else '\x00' ∉ line ∧
      if written = false ∧ isHeaderLine line = true then
        endsLine line = true ∧ Unbroken true false rest
      else Unbroken written (!endsLine line) rest

instance decidableUnbroken : ∀ written opened ls, Decidable (Unbroken written opened ls)
  | written, opened, [] => inferInstanceAs (Decidable (written = true ∨ opened = false))
  | _, _, line :: rest =>
    have := decidableUnbroken true false rest
    have := fun written => decidableUnbroken written (!endsLine line) rest
    inferInstanceAs (Decidable (if isKeyLine line then _ else _))

/-- The place of the key is not in a `[Peer]` section. -/
def KeyOutside : (inPeer : Bool) → List Text → Prop
  | _, [] => True
  | inPeer, line :: rest =>
    if isKeyLine line then inPeer = false
    else if isHeaderLine line then sectionAfter inPeer line = false
    else KeyOutside (sectionAfter inPeer line) rest

instance decidableKeyOutside : ∀ inPeer ls, Decidable (KeyOutside inPeer ls)
  | _, [] => inferInstanceAs (Decidable True)
  | inPeer, line :: rest =>
    have := decidableKeyOutside (sectionAfter inPeer line) rest
    inferInstanceAs (Decidable (if isKeyLine line then _ else _))

/-- **The key is recorded, and nothing else is changed**: it is found in the new file; if the
old one loads, the new one does, and gives the interface the key; and the lines of the old
one that do not start with `PrivateKey` are in the new one, in order. -/
structure Recorded (w : LongWidth) (maxPeers : Nat) (key : Text) (file : Option Text) : Prop where
  found : wgFilePrivateKey (wgRecordPrivateKey key file) = some key
  loads : ∀ conf, readConf w maxPeers (file.getD []) = .ok conf →
    ∃ conf', readConf w maxPeers (wgRecordPrivateKey key file) = .ok conf' ∧
      conf'.ifr.has wgIfHasPrivateKey = true ∧ wgB64Decode key = some conf'.ifr.privateKey
  kept : ((wholeLines (file.getD [])).filter fun line => !isKeyLine line).Sublist
    (wholeLines (wgRecordPrivateKey key file))

/-- What the file has to be like. -/
structure Recordable (w : LongWidth) (maxPeers : Nat) (file : Option Text) : Prop where
  unbroken : Unbroken false false (lines wgLineMax (file.getD []))
  outside : (∃ conf, readConf w maxPeers (file.getD []) = .ok conf) →
    KeyOutside false (lines wgLineMax (file.getD []))

/-! ### What is written -/

section Written

variable {key : Text} {written opened : Bool} {ls : List Text} {line rest : Text}

theorem isKeyLine_headerLine : isKeyLine headerLine = false := by decide

/-- **The new file is its lines**, one after the other. -/
theorem recordLines_eq (h : Unbroken written opened ls) :
    recordLines key written ls = (recorded key written ls).flatten := by
  induction ls generalizing written opened with
  | nil =>
      unfold recordLines recorded
      cases written <;> simp [headerLine]
  | cons line ls ih =>
      have hkeyline : strncasecmp (skipBlanks (cString line)) Word.privateKey = isKeyLine line := rfl
      have hheader : strncasecmp (skipBlanks (cString line)) Word.interface = isHeaderLine line := rfl
      unfold Unbroken at h
      unfold recordLines recorded
      dsimp only
      rw [hkeyline, hheader]
      by_cases hkey : isKeyLine line = true
      · rw [if_pos hkey] at h
        rw [if_pos hkey, if_pos hkey]
        cases written with
        | true =>
            rw [if_neg (not_not.mpr rfl), if_pos rfl]
            exact ih h.2
        | false =>
            rw [if_pos Bool.false_ne_true, if_neg Bool.false_ne_true, List.flatten_cons, ih h.2]
      · rw [if_neg hkey] at h
        obtain ⟨hnul, h⟩ := h
        rw [if_neg hkey, if_neg hkey, cString_eq hnul]
        by_cases hplace : written = false ∧ isHeaderLine line = true
        · rw [if_pos hplace] at h
          rw [if_pos hplace, if_pos ⟨by rw [hplace.1]; exact Bool.false_ne_true, hplace.2⟩,
            List.flatten_cons, List.flatten_cons, ih h.2, List.append_assoc]
        · rw [if_neg hplace] at h
          rw [if_neg hplace, if_neg (by rwa [Bool.not_eq_true]), List.flatten_cons, ih h]

theorem endsLine_entry (key : Text) : endsLine (confEntry Word.privateKey key) = true :=
  endsLine_iff.mpr ⟨_, rfl⟩

theorem piece_entry (hkey : KeyText key) : Piece wgLineMax (confEntry Word.privateKey key) := by
  have hlast : confEntry Word.privateKey key = Word.privateKey ++ [' ', '=', ' '] ++ key ++ ['\n'] := rfl
  refine ⟨by simp [confEntry], ?_, ?_⟩
  · rw [hlast, List.dropLast_concat]
    intro hc
    rcases List.mem_append.mp hc with hc | hc
    · exact absurd hc (by decide)
    · exact (hkey.plain _ hc).2.2.2.1 rfl
  · rw [hlast, List.length_append, List.length_append, hkey.length]
    decide

theorem piece_headerLine : Piece wgLineMax headerLine := ⟨by decide, by decide, by decide⟩

/-- Every line of the new file that has another behind it is complete. -/
theorem recorded_delivered (hkey : KeyText key) (h : Delivered wgLineMax ls)
    (hunbroken : Unbroken written opened ls) : Delivered wgLineMax (recorded key written ls) := by
  have hentry : ∀ rest, Delivered wgLineMax rest →
      Delivered wgLineMax (confEntry Word.privateKey key :: rest) :=
    fun rest hrest => ⟨piece_entry hkey, fun _ => Or.inl (endsLine_entry key), hrest⟩
  induction ls generalizing written opened with
  | nil =>
      unfold recorded
      cases written with
      | true => exact trivial
      | false => exact ⟨piece_headerLine, fun _ => Or.inl (by decide), hentry [] trivial⟩
  | cons line ls ih =>
      obtain ⟨hpiece, hfull, hrest⟩ := h
      unfold Unbroken at hunbroken
      unfold recorded
      by_cases hline : isKeyLine line = true
      · rw [if_pos hline] at hunbroken ⊢
        cases written with
        | true => exact ih hrest hunbroken.2
        | false => exact hentry _ (ih hrest hunbroken.2)
      · rw [if_neg hline] at hunbroken ⊢
        obtain ⟨-, hunbroken⟩ := hunbroken
        by_cases hplace : written = false ∧ isHeaderLine line = true
        · rw [if_pos hplace] at hunbroken ⊢
          exact ⟨hpiece, fun _ => Or.inl hunbroken.1, hentry _ (ih hrest hunbroken.2)⟩
        · rw [if_neg hplace] at hunbroken ⊢
          refine ⟨hpiece, fun hne => ?_, ih hrest hunbroken⟩
          by_cases hnil : ls = []
          · -- only the section of the key can be behind the last line
            rw [hnil] at hne hunbroken
            unfold recorded at hne
            rcases hunbroken with hwritten | hends
            · rw [if_pos hwritten] at hne
              exact absurd rfl hne
            · exact Or.inl (Bool.not_eq_false' .. ▸ hends)
          · exact hfull hnil

/-- **The new file is read as its lines.** -/
theorem lines_recorded (hkey : KeyText key) {file : Option Text}
    (h : Unbroken false false (lines wgLineMax (file.getD []))) :
    lines wgLineMax (wgRecordPrivateKey key file) =
      recorded key false (lines wgLineMax (file.getD [])) := by
  unfold wgRecordPrivateKey
  rw [recordLines_eq h]
  exact lines_flatten (recorded_delivered hkey (lines_delivered (by decide) _) h)

/-! ### The key is found -/

theorem linePrivateKey_none (h : isKeyLine line = false) : linePrivateKey line = none := by
  have hword : strncasecmp (skipBlanks (cString line)) Word.privateKey = false := h
  unfold linePrivateKey
  dsimp only
  rw [if_pos (by rw [hword]; exact Bool.false_ne_true)]

theorem findSome_recorded (hkey : KeyText key) (ls : List Text) :
    (recorded key false ls).findSome? linePrivateKey = some key := by
  have hentry := linePrivateKey_entry hkey
  induction ls with
  | nil =>
      have hnil : recorded key false [] = [headerLine, confEntry Word.privateKey key] := rfl
      rw [hnil, List.findSome?_cons, linePrivateKey_none isKeyLine_headerLine, List.findSome?_cons,
        hentry]
  | cons line ls ih =>
      unfold recorded
      by_cases hline : isKeyLine line = true
      · rw [if_pos hline, if_neg Bool.false_ne_true, List.findSome?_cons, hentry]
      · have hnone := linePrivateKey_none (Bool.not_eq_true _ ▸ hline)
        rw [if_neg hline]
        split
        · rw [List.findSome?_cons, hnone, List.findSome?_cons, hentry]
        · rw [List.findSome?_cons, hnone]
          exact ih

/-! ### The lines are kept -/

/-- A line that starts with the word does, however it goes on. -/
theorem isKeyLine_append (h : isKeyLine line = true) (rest : Text) :
    isKeyLine (line ++ rest) = true := by
  have hprefix : cString line <+: cString (line ++ rest) := by
    unfold cString
    rw [List.takeWhile_append]
    split
    · rename_i hfull
      rw [(List.takeWhile_prefix _).eq_of_length hfull]
      exact List.prefix_append _ _
    · exact List.prefix_rfl
  obtain ⟨more, hmore⟩ := hprefix
  have hword : strncasecmp (skipBlanks (cString line)) Word.privateKey = true := h
  have hlength : Word.privateKey.length ≤ (skipBlanks (cString line)).length := by
    unfold strncasecmp strcasecmp at hword
    have hmap := congrArg List.length (beq_iff_eq.mp hword)
    rw [List.length_map, List.length_map, List.length_take] at hmap
    omega
  have hne : (skipBlanks (cString line)).isEmpty = false := by
    cases hskip : skipBlanks (cString line) with
    | nil =>
        rw [hskip] at hlength
        exact absurd hlength (by decide)
    | cons a s => rfl
  unfold isKeyLine
  rw [← hmore]
  unfold skipBlanks at hne hlength hword ⊢
  rw [List.dropWhile_append, hne, if_neg Bool.false_ne_true]
  unfold strncasecmp at hword ⊢
  rw [List.take_append_of_le_length hlength]
  exact hword

/-- What has been read of a line of the old file, and what has been written of it: the same,
or the line starts with the word. -/
def InStep (old new : Text) : Prop :=
  old = new ∨ (old ≠ [] ∧ ∀ rest, isKeyLine (old ++ rest) = true)

namespace InStep

variable {old new : Text}

theorem goesOn (h : InStep old new) (more : Text) : InStep (old ++ more) (new ++ more) := by
  rcases h with rfl | ⟨hne, hold⟩
  · exact Or.inl rfl
  · refine Or.inr ⟨List.append_ne_nil_of_left_ne_nil hne _, fun rest => ?_⟩
    rw [List.append_assoc]
    exact hold _

/-- The old line starts with the word, whatever was there of it. -/
theorem keyLine (h : InStep old []) (hline : isKeyLine line = true) (rest : Text) :
    isKeyLine (old ++ line ++ rest) = true := by
  rcases h with rfl | ⟨-, hold⟩
  · exact isKeyLine_append hline rest
  · rw [List.append_assoc]
    exact hold _

/-- A line that ends here is kept, or starts with the word. -/
theorem ends (h : InStep old new) {body more more' : Text} (hbody : '\n' ∉ body)
    (hsub : ((wholeLinesFrom [] more).filter fun line => !isKeyLine line).Sublist
      (wholeLinesFrom [] more')) :
    ((wholeLinesFrom old (body ++ ['\n'] ++ more)).filter fun line => !isKeyLine line).Sublist
      (wholeLinesFrom new (body ++ ['\n'] ++ more')) := by
  rw [wholeLinesFrom_ends hbody, wholeLinesFrom_ends hbody]
  rcases h with rfl | ⟨-, hold⟩
  · by_cases hwhole : isKeyLine (old ++ body ++ ['\n']) = true
    · rw [List.filter_cons_of_neg (by rw [hwhole]; decide)]
      exact hsub.cons _
    · rw [List.filter_cons_of_pos (by simpa using hwhole)]
      exact hsub.cons_cons _
  · have hwhole := hold (body ++ ['\n'])
    rw [← List.append_assoc] at hwhole
    rw [List.filter_cons_of_neg (by rw [hwhole]; decide)]
    exact hsub.cons _

end InStep

/-- A line that starts with the word is left out, also behind the last newline. -/
theorem filter_keyLine (hne : line ≠ []) (hline : isKeyLine line = true) :
    ((wholeLinesFrom line []).filter fun line => !isKeyLine line) = [] := by
  rw [wholeLinesFrom_nil hne, List.filter_cons_of_neg (by rw [hline]; decide), List.filter_nil]

theorem wholeLinesFrom_entry (hkey : KeyText key) (ls : List Text) :
    wholeLinesFrom [] (confEntry Word.privateKey key :: ls).flatten =
      confEntry Word.privateKey key :: wholeLinesFrom [] ls.flatten := by
  have hnewline : '\n' ∉ Word.privateKey ++ [' ', '=', ' '] ++ key := by
    intro hc
    rcases List.mem_append.mp hc with hc | hc
    · exact absurd hc (by decide)
    · exact (hkey.plain _ hc).2.2.2.1 rfl
  exact wholeLinesFrom_ends hnewline [] ls.flatten

theorem kept_recorded (hpiece : ∀ line ∈ ls, Piece wgLineMax line) (hkey : KeyText key)
    (h : Unbroken written opened ls) {old new : Text} (hstep : InStep old new)
    (hopened : opened = false → new = []) :
    ((wholeLinesFrom old ls.flatten).filter fun line => !isKeyLine line).Sublist
      (wholeLinesFrom new (recorded key written ls).flatten) := by
  induction ls generalizing written opened old new with
  | nil =>
      rcases hstep with rfl | ⟨hne, hold⟩
      · by_cases hold : old = []
        · rw [hold]
          exact List.nil_sublist _
        · have hwritten : written = true := h.resolve_right fun hc => hold (hopened hc)
          have hdone : recorded key written [] = [] := by
            unfold recorded
            exact if_pos hwritten
          rw [hdone]
          exact List.filter_sublist
      · have hline := hold []
        rw [List.append_nil] at hline
        rw [List.flatten_nil, filter_keyLine hne hline]
        exact List.nil_sublist _
  | cons line ls ih =>
      have hrest := fun line' hline' => hpiece line' (List.mem_cons_of_mem _ hline')
      have hcases := (hpiece line List.mem_cons_self).cases
      unfold Unbroken at h
      unfold recorded
      by_cases hline : isKeyLine line = true
      · rw [if_pos hline] at h ⊢
        obtain ⟨hclosed, h⟩ := h
        obtain rfl := hopened hclosed
        have hold := hstep.keyLine hline
        have hsub : ((wholeLinesFrom old (line :: ls).flatten).filter fun line => !isKeyLine line).Sublist
            (wholeLinesFrom [] (recorded key true ls).flatten) := by
          rw [List.flatten_cons]
          rcases hcases with ⟨-, body, rfl, hbody⟩ | ⟨-, hbody⟩
          · have hwhole := hold []
            rw [List.append_nil, ← List.append_assoc] at hwhole
            rw [wholeLinesFrom_ends hbody, List.filter_cons_of_neg (by rw [hwhole]; decide)]
            exact ih hrest h (Or.inl rfl) fun _ => rfl
          · rw [wholeLinesFrom_goesOn hbody]
            refine ih hrest h (Or.inr ⟨?_, hold⟩) fun _ => rfl
            exact List.append_ne_nil_of_right_ne_nil _ (hpiece line List.mem_cons_self).ne_nil
        split
        · exact hsub
        · rw [wholeLinesFrom_entry hkey]
          exact hsub.cons _
      · rw [if_neg hline] at h ⊢
        obtain ⟨-, h⟩ := h
        by_cases hplace : written = false ∧ isHeaderLine line = true
        · rw [if_pos hplace] at h ⊢
          rcases hcases with ⟨-, body, rfl, hbody⟩ | ⟨hnot, -⟩
          · rw [List.flatten_cons, List.flatten_cons]
            refine hstep.ends hbody ?_
            rw [wholeLinesFrom_entry hkey]
            exact (ih hrest h.2 (Or.inl rfl) fun _ => rfl).cons _
          · rw [hnot] at h
            exact absurd h.1 Bool.false_ne_true
        · rw [if_neg hplace] at h ⊢
          rw [List.flatten_cons, List.flatten_cons]
          rcases hcases with ⟨-, body, rfl, hbody⟩ | ⟨hnot, hbody⟩
          · exact hstep.ends hbody (ih hrest h (Or.inl rfl) fun _ => rfl)
          · rw [wholeLinesFrom_goesOn hbody, wholeLinesFrom_goesOn hbody]
            refine ih hrest h (hstep.goesOn line) fun hc => ?_
            rw [hnot] at hc
            cases hc

end Written

/-! ### What the parser makes of the new lines -/

section Parser

variable {maxPeers lineno done : Nat} {key line : Text} {k : Key} {ls : List Text}
  {a a' b : Conf}

/-- A line that starts with the word is an entry, if it is anything. -/
theorem seen_keyLine (h : isKeyLine line = true) :
    seen line = .noValue ∨ ∃ key val, seen line = .entry key val := by
  have hword : strcasecmp ((skipBlanks (cString line)).take 10) Word.privateKey = true := h
  have hmap := beq_iff_eq.mp hword
  have hblanks : (cString line).takeWhile isBlank ++ skipBlanks (cString line) = cString line :=
    List.takeWhile_append_dropWhile
  have hsplit := List.take_append_drop 10 (skipBlanks (cString line))
  generalize (skipBlanks (cString line)).take 10 = word at hmap hsplit
  generalize (skipBlanks (cString line)).drop 10 = more at hsplit
  have hletter : ∀ ch ∈ word, ch.toLower ∈ Word.privateKey.map Char.toLower := by
    intro ch hch
    rw [← hmap]
    exact List.mem_map_of_mem hch
  -- neither the blanks nor the word have the end of the line in them
  have htext : lineText line = skipBlanks (word ++ cutAt ['\r', '\n'] more) := by
    have hkeep : ∀ ch ∈ (cString line).takeWhile isBlank ++ word,
        (!(['\r', '\n'].contains ch)) = true := by
      intro ch hch
      rcases List.mem_append.mp hch with hch | hch
      · have hblank := List.mem_takeWhile_imp hch
        simp only [isBlank, Bool.or_eq_true, beq_iff_eq] at hblank
        rcases hblank with rfl | rfl <;> rfl
      · have hmem := hletter ch hch
        by_contra hstop
        simp only [Bool.not_eq_true', Bool.not_eq_false, List.contains_iff_mem, List.mem_cons,
          List.not_mem_nil, or_false] at hstop
        rcases hstop with rfl | rfl <;> exact absurd hmem (by decide)
    unfold lineText
    rw [← hblanks, ← hsplit, ← List.append_assoc]
    unfold cutAt skipBlanks
    rw [List.takeWhile_append_of_pos hkeep, List.append_assoc, List.dropWhile_append_of_pos]
    intro ch hch
    exact List.mem_takeWhile_imp hch
  cases word with
  | nil => exact absurd hmap (by decide)
  | cons first word =>
      have hfirst : first.toLower = 'p' := (List.cons.inj hmap).1
      have hnot : ∀ ch : Char, ch.toLower ≠ 'p' → first ≠ ch := by
        rintro ch hch rfl
        exact hch hfirst
      have hblank : isBlank first = false := by
        unfold isBlank
        rw [beq_eq_false_iff_ne.mpr (hnot ' ' (by decide)),
          beq_eq_false_iff_ne.mpr (hnot '\t' (by decide))]
        rfl
      rw [List.cons_append, skipBlanks_cons hblank] at htext
      have hbracket : ∀ s : Text, ¬strcasecmp (lineText line) ('[' :: s) = true := by
        intro s
        rw [htext, strcasecmp_head_ne (by rw [hfirst]; decide)]
        exact Bool.false_ne_true
      have hstart : ¬(lineText line = [] ∨ (lineText line).head? = some '#') := by
        rw [htext]
        rintro (hc | hc)
        · cases hc
        · exact hnot '#' (by decide) (Option.some.inj hc)
      have hinterface : ¬strcasecmp (lineText line) Word.interface = true := hbracket _
      have hpeer : ¬strcasecmp (lineText line) Word.peer = true := hbracket _
      cases hchr : strchr '=' (lineText line) with
      | none =>
          left
          unfold seen
          rw [if_neg hstart, if_neg hinterface, if_neg hpeer, hchr]
      | some r =>
          obtain ⟨before, after⟩ := r
          exact Or.inr ⟨_, _, seen_of_split hstart hinterface hpeer hchr⟩

/-- A value is accepted or not, whatever was read before. -/
theorem interfaceKey_accepts {word val : Text} {ifr ifr' : IfReq}
    (h : interfaceKey w word val ifr = some ifr') (other : IfReq) :
    ∃ next, interfaceKey w word val other = some next := by
  unfold interfaceKey at h ⊢
  split
  · rename_i hword
    rw [if_pos hword] at h
    obtain ⟨k, hk, -⟩ := Option.map_eq_some_iff.mp h
    exact ⟨_, by rw [hk, Option.map_some]⟩
  rename_i hprivate
  split
  · exact ⟨_, rfl⟩
  rename_i hport
  split
  · rename_i hword
    rw [if_neg hprivate, if_neg hport, if_pos hword] at h
    obtain ⟨aip, haip, -⟩ := Option.map_eq_some_iff.mp h
    exact ⟨_, by rw [haip, Option.map_some]⟩
  · exact ⟨_, rfl⟩

theorem peerKey_accepts {word val : Text} {req req' : PeerReq}
    (h : peerKey w word val req = some req') (other : PeerReq) :
    ∃ next, peerKey w word val other = some next := by
  unfold peerKey at h ⊢
  split
  · rename_i hword
    rw [if_pos hword] at h
    obtain ⟨k, hk, -⟩ := Option.map_eq_some_iff.mp h
    exact ⟨_, by rw [hk, Option.map_some]⟩
  rename_i hpublic
  split
  · rename_i hword
    rw [if_neg hpublic, if_pos hword] at h
    obtain ⟨k, hk, -⟩ := Option.map_eq_some_iff.mp h
    exact ⟨_, by rw [hk, Option.map_some]⟩
  rename_i hpsk
  split
  · rename_i hword
    rw [if_neg hpublic, if_neg hpsk, if_pos hword] at h
    obtain ⟨aips, haips, -⟩ := Option.map_eq_some_iff.mp h
    exact ⟨_, by rw [haips, Option.map_some]⟩
  rename_i haips
  split
  · rename_i hword
    rw [if_neg hpublic, if_neg hpsk, if_neg haips, if_pos hword] at h
    obtain ⟨r, hr, -⟩ := Option.map_eq_some_iff.mp h
    exact ⟨_, by rw [hr, Option.map_some]⟩
  split
  · exact ⟨_, rfl⟩
  · exact ⟨_, rfl⟩

/-- Two readings that are in the same section, with as many peers. -/
structure SameSection (a b : Conf) : Prop where
  inPeer : a.inPeer = b.inPeer
  length : a.peers.length = b.peers.length
  current : a.inPeer = true → a.peers ≠ []

theorem length_replaceLast {α : Type*} {l : List α} (h : l ≠ []) (x : α) :
    (l.dropLast ++ [x]).length = l.length := by
  have hpos := List.length_pos_iff.mpr h
  rw [List.length_append, List.length_dropLast, List.length_singleton]
  omega

/-- **A line that is accepted in one reading is in the other.** -/
theorem SameSection.accepts (hsame : SameSection a b) (h : confLine w maxPeers lineno line a = .ok a')
    (lineno' : Nat) : ∃ b', confLine w maxPeers lineno' line b = .ok b' ∧ SameSection a' b' := by
  rw [confLine_eq] at h
  rw [confLine_eq]
  cases hseen : seen line with
  | blank =>
      rw [hseen] at h
      cases h
      exact ⟨b, rfl, hsame⟩
  | interface =>
      rw [hseen] at h
      cases h
      exact ⟨_, rfl, rfl, hsame.length, fun hc => by cases hc⟩
  | peer =>
      rw [hseen] at h
      unfold Seen.read at h ⊢
      dsimp only at h ⊢
      split at h
      · cases h
      · rename_i hroom
        cases h
        rw [if_neg (by rw [← hsame.length]; exact hroom)]
        refine ⟨_, rfl, rfl, ?_, fun _ => by simp⟩
        rw [List.length_append, List.length_append, hsame.length]
  | noValue =>
      rw [hseen] at h
      cases h
  | entry word val =>
      rw [hseen] at h
      unfold Seen.read at h ⊢
      dsimp only at h ⊢
      rw [← hsame.inPeer]
      split at h
      · rename_i hin
        split at h
        · cases h
        · rename_i req hreq
          cases h
          obtain ⟨next, hnext⟩ := peerKey_accepts hreq (b.peers.getLastD PeerReq.zero)
          have hne := hsame.current hin
          have hne' : b.peers ≠ [] := by
            rw [← List.length_pos_iff, ← hsame.length]
            exact List.length_pos_iff.mpr hne
          rw [if_pos hin, hnext]
          refine ⟨_, rfl, rfl, ?_, fun _ => by simp⟩
          rw [length_replaceLast hne, length_replaceLast hne', hsame.length]
      · rename_i hin
        split at h
        · cases h
        · rename_i ifr hifr
          cases h
          obtain ⟨next, hnext⟩ := interfaceKey_accepts hifr b.ifr
          rw [if_neg hin, hnext]
          exact ⟨_, rfl, rfl, hsame.length, hsame.current⟩

/-- Leaving a line out that starts with the word leaves the section as it is. -/
theorem SameSection.without (hsame : SameSection a b) (hline : isKeyLine line = true)
    (h : confLine w maxPeers lineno line a = .ok a') : SameSection a' b := by
  rw [confLine_eq] at h
  rcases seen_keyLine hline with hseen | ⟨word, val, hseen⟩
  · rw [hseen] at h
    cases h
  · rw [hseen] at h
    unfold Seen.read at h
    dsimp only at h
    split at h
    · rename_i hin
      split at h
      · cases h
      · cases h
        refine ⟨hsame.inPeer, ?_, fun _ => by simp⟩
        rw [length_replaceLast (hsame.current hin), hsame.length]
    · split at h
      · cases h
      · cases h
        exact ⟨hsame.inPeer, hsame.length, hsame.current⟩

/-- A line that does not start with the word leaves the key. -/
theorem givenKey_kept (hline : isKeyLine line = false)
    (h : confLine w maxPeers lineno line a = .ok a') : givenKey a'.ifr = givenKey a.ifr := by
  obtain ⟨-, hpeer, hinterface⟩ := confLine_key h
  cases hin : a.inPeer with
  | true => exact hpeer hin
  | false =>
      rcases hinterface hin with ⟨-, hkept⟩ | ⟨val, k, hval, -⟩
      · exact hkept
      · rw [isKeyLine_of_privateKeyOf hval] at hline
        cases hline

theorem keyWord_privateKey : KeyWord Word.privateKey := .of_all (by decide) (by decide)

/-- **The entry gives the interface the key**, and a peer nothing. -/
theorem SameSection.entry (hsame : SameSection a b) (hk : wgB64Decode key = some k)
    (lineno : Nat) : ∃ b', confLine w maxPeers lineno (confEntry Word.privateKey key) b = .ok b' ∧
      SameSection a b' ∧ (a.inPeer = false → givenKey b'.ifr = some k) ∧
      (a.inPeer = true → givenKey b'.ifr = givenKey b.ifr) := by
  have hval := (keyText_of_decode hk).val
  cases hin : b.inPeer with
  | false =>
      obtain ⟨ifr, hifr⟩ : ∃ ifr, interfaceKey w Word.privateKey key b.ifr = some ifr := by
        unfold interfaceKey
        rw [if_pos (by decide), hk]
        exact ⟨_, rfl⟩
      obtain ⟨k', hk', hgiven⟩ := (interfaceKey_givenKey hifr).1 (by decide)
      rw [hk] at hk'
      cases hk'
      refine ⟨_, confLine_interface keyWord_privateKey hval hin hifr,
        ⟨hsame.inPeer, hsame.length, hsame.current⟩, fun _ => hgiven, fun hc => ?_⟩
      rw [hsame.inPeer, hin] at hc
      cases hc
  | true =>
      have hreq : peerKey w Word.privateKey key (b.peers.getLastD PeerReq.zero) =
          some (b.peers.getLastD PeerReq.zero) := by
        unfold peerKey
        rw [if_neg (by decide), if_neg (by decide), if_neg (by decide), if_neg (by decide),
          if_neg (by decide)]
      have hne : b.peers ≠ [] := by
        rw [← List.length_pos_iff, ← hsame.length]
        exact List.length_pos_iff.mpr (hsame.current (hsame.inPeer.trans hin))
      refine ⟨_, confLine_peer keyWord_privateKey hval hin hreq,
        ⟨hsame.inPeer, ?_, hsame.current⟩, fun hc => ?_, fun _ => rfl⟩
      · rw [length_replaceLast hne, hsame.length]
      · rw [hsame.inPeer, hin] at hc
        cases hc

theorem confLines_ok {conf : Conf} {next : Conf}
    (h : confLine w maxPeers (done + 1) line conf = .ok next) (ls : List Text) :
    confLines w maxPeers done (line :: ls) conf = confLines w maxPeers (done + 1) ls next := by
  rw [confLines, h]

/-- **Behind the key, the new lines are read like the old ones**, and the key stays. -/
theorem confLines_recorded_true {conf : Conf} (h : confLines w maxPeers done ls a = .ok conf)
    (hsame : SameSection a b) (done' : Nat) : ∃ b',
      confLines w maxPeers done' (recorded key true ls) b = .ok b' ∧
        givenKey b'.ifr = givenKey b.ifr := by
  induction ls generalizing done done' a b with
  | nil => exact ⟨b, rfl, rfl⟩
  | cons line ls ih =>
      obtain ⟨next, hline, hrest⟩ := confLines_cons h
      unfold recorded
      by_cases hkey : isKeyLine line = true
      · rw [if_pos hkey, if_pos rfl]
        exact ih hrest (hsame.without hkey hline) done'
      · rw [if_neg hkey, if_neg (by rintro ⟨hc, -⟩; cases hc)]
        obtain ⟨b', hb', hnext⟩ := hsame.accepts hline (done' + 1)
        obtain ⟨b'', hb'', hgiven⟩ := ih hrest hnext (done' + 1)
        refine ⟨b'', (confLines_ok hb' _).trans hb'', hgiven.trans ?_⟩
        exact givenKey_kept (Bool.not_eq_true _ ▸ hkey) hb'

/-- **The new lines are accepted if the old ones are**, and give the interface the key when its
place is not in a `[Peer]` section. -/
theorem confLines_recorded {conf : Conf} (hk : wgB64Decode key = some k)
    (h : confLines w maxPeers done ls a = .ok conf) (hsame : SameSection a b) (done' : Nat) :
    ∃ b', confLines w maxPeers done' (recorded key false ls) b = .ok b' ∧
      (KeyOutside a.inPeer ls → givenKey b'.ifr = some k) ∧
      (¬KeyOutside a.inPeer ls → givenKey b'.ifr = givenKey b.ifr) := by
  induction ls generalizing done done' a b with
  | nil =>
      have hheader : confLine w maxPeers (done' + 1) headerLine b = .ok { b with inPeer := false } := by
        rw [confLine_eq]
        rfl
      have hsame' : SameSection { a with inPeer := false } { b with inPeer := false } :=
        ⟨rfl, hsame.length, fun hc => by cases hc⟩
      obtain ⟨b', hb', -, hgiven, -⟩ := hsame'.entry hk (done' + 2)
      have hread : confLines w maxPeers done' (recorded key false []) b = .ok b' := by
        have hnil : recorded key false [] = [headerLine, confEntry Word.privateKey key] := rfl
        rw [hnil, confLines_ok hheader, confLines_ok hb']
        rfl
      exact ⟨b', hread, fun _ => hgiven rfl, fun hc => absurd trivial hc⟩
  | cons line ls ih =>
      obtain ⟨next, hline, hrest⟩ := confLines_cons h
      obtain ⟨hsection, -⟩ := confLine_key hline
      -- the entry, and behind it the rest of the file
      have hput : ∀ {a b : Conf} {done : Nat}, SameSection a b →
          (∃ done conf', confLines w maxPeers done ls a = .ok conf') →
          ∃ b', confLines w maxPeers done (confEntry Word.privateKey key :: recorded key true ls) b =
              .ok b' ∧ (a.inPeer = false → givenKey b'.ifr = some k) ∧
            (¬a.inPeer = false → givenKey b'.ifr = givenKey b.ifr) := by
        intro a b done hsame ⟨done₀, conf', hread⟩
        obtain ⟨b', hb', hnext, hout, hin⟩ := hsame.entry hk (done + 1)
        obtain ⟨b'', hb'', hgiven⟩ :=
          @confLines_recorded_true _ _ _ key _ _ _ _ hread hnext (done + 1)
        exact ⟨b'', (confLines_ok hb' _).trans hb'', fun hc => hgiven.trans (hout hc),
          fun hc => hgiven.trans (hin (Bool.not_eq_false _ ▸ hc))⟩
      unfold recorded KeyOutside
      by_cases hkey : isKeyLine line = true
      · rw [if_pos hkey, if_pos hkey, if_neg Bool.false_ne_true]
        have hwithout := hsame.without hkey hline
        have hin : next.inPeer = a.inPeer := hwithout.inPeer.trans hsame.inPeer.symm
        obtain ⟨b', hb', hout, hpeer⟩ := @hput _ _ done' hwithout ⟨_, _, hrest⟩
        rw [hin] at hout hpeer
        exact ⟨b', hb', hout, hpeer⟩
      · rw [if_neg hkey, if_neg hkey]
        obtain ⟨b', hb', hnext⟩ := hsame.accepts hline (done' + 1)
        have hkept := givenKey_kept (Bool.not_eq_true _ ▸ hkey) hb'
        by_cases hheader : isHeaderLine line = true
        · rw [if_pos ⟨rfl, hheader⟩, if_pos hheader, ← hsection]
          obtain ⟨b'', hb'', hout, hpeer⟩ := @hput _ _ (done' + 1) hnext ⟨_, _, hrest⟩
          exact ⟨b'', (confLines_ok hb' _).trans hb'', hout, fun hc => (hpeer hc).trans hkept⟩
        · rw [if_neg (fun hc => hheader hc.2), if_neg hheader, ← hsection]
          obtain ⟨b'', hb'', hout, hpeer⟩ := ih hrest hnext (done' + 1)
          exact ⟨b'', (confLines_ok hb' _).trans hb'', hout, fun hc => (hpeer hc).trans hkept⟩

theorem sameSection_empty : SameSection Conf.empty Conf.empty :=
  ⟨rfl, rfl, fun hc => by cases hc⟩

end Parser

/-! ### Every file -/

section Files

variable {maxPeers : Nat} {key : Text} {k : Key} {file : Option Text}

/-- **A file that can be recorded in keeps all it says.** -/
theorem recorded_of_recordable (hk : wgB64Decode key = some k) (h : Recordable w maxPeers file) :
    Recorded w maxPeers key file := by
  have htext := keyText_of_decode hk
  have hlines := lines_recorded htext h.unbroken
  refine ⟨?_, fun conf hconf => ?_, ?_⟩
  · unfold wgFilePrivateKey
    rw [hlines]
    exact findSome_recorded htext _
  · obtain ⟨conf', hread, hgiven, -⟩ := confLines_recorded hk hconf sameSection_empty 0
    have hkey := hgiven (h.outside ⟨conf, hconf⟩)
    unfold givenKey at hkey
    split at hkey
    · rename_i hflag
      refine ⟨conf', ?_, hflag, hk.trans hkey.symm⟩
      unfold readConf
      rw [hlines]
      exact hread
    · cases hkey
  · have hpieces := (@lines_delivered wgLineMax (by decide) (file.getD [])).piece
    have hkept := kept_recorded hpieces htext h.unbroken (Or.inl rfl : InStep [] []) fun _ => rfl
    rw [flatten_lines, ← recordLines_eq h.unbroken] at hkept
    exact hkept

/-- The place of the key, if the new file loads with it. -/
theorem outside_of_recorded (hk : wgB64Decode key = some k) (h : Recorded w maxPeers key file)
    (hunbroken : Unbroken false false (lines wgLineMax (file.getD [])))
    (hconf : ∃ conf, readConf w maxPeers (file.getD []) = .ok conf) :
    KeyOutside false (lines wgLineMax (file.getD [])) := by
  obtain ⟨conf, hconf⟩ := hconf
  obtain ⟨conf', hread, hflag, -⟩ := h.loads conf hconf
  unfold readConf at hread
  rw [lines_recorded (keyText_of_decode hk) hunbroken] at hread
  obtain ⟨conf'', hread', -, hnot⟩ := confLines_recorded hk hconf sameSection_empty 0
  obtain rfl : conf' = conf'' := Except.ok.inj (hread.symm.trans hread')
  by_contra hinside
  have hgiven : givenKey conf'.ifr = none := hnot hinside
  unfold givenKey at hgiven
  rw [if_pos hflag] at hgiven
  cases hgiven

/-! ### Files whose lines fit -/

/-- No NUL is written. -/
theorem not_nul_recordLines (hkey : KeyText key) (written : Bool) (ls : List Text) :
    '\x00' ∉ recordLines key written ls := by
  have hentry : '\x00' ∉ confEntry Word.privateKey key := by
    unfold confEntry
    simp only [List.mem_append, not_or]
    exact ⟨⟨⟨by decide, by decide⟩, fun hc => (hkey.plain _ hc).2.2.2.2 rfl⟩, by decide⟩
  have hline : ∀ line : Text, '\x00' ∉ cString line := fun line hc => mem_cString hc rfl
  induction ls generalizing written with
  | nil =>
      unfold recordLines
      split
      · exact List.not_mem_nil
      · rw [List.mem_append, not_or]
        exact ⟨by decide, hentry⟩
  | cons line ls ih =>
      unfold recordLines
      dsimp only
      split
      · split
        · rw [List.mem_append, not_or]
          exact ⟨hentry, ih true⟩
        · exact ih written
      · split
        · rw [List.mem_append, List.mem_append, not_or, not_or]
          exact ⟨⟨hline line, hentry⟩, ih true⟩
        · rw [List.mem_append, not_or]
          exact ⟨hline line, ih written⟩

/-- Only the last line can be in the way of what is written; then the new file ends with a
newline, which that line does not. -/
theorem unbroken_or (hlined : Lined ls) (hnul : ∀ line ∈ ls, isKeyLine line = false → '\x00' ∉ line)
    (written : Bool) : Unbroken written false ls ∨
      ((∃ line ∈ ls, isKeyLine line = false ∧ endsLine line = false) ∧
        endsLine (recordLines key written ls) = true) := by
  have hentry : ∀ s : Text, endsLine (s ++ confEntry Word.privateKey key) = true :=
    fun s => endsLine_append s (endsLine_entry key)
  induction ls generalizing written with
  | nil => exact Or.inl (Or.inr rfl)
  | cons line ls ih =>
      obtain ⟨hends, hrest⟩ := hlined
      have hlater := ih hrest fun line' hline' => hnul line' (List.mem_cons_of_mem _ hline')
      have hkeyline : strncasecmp (skipBlanks (cString line)) Word.privateKey = isKeyLine line := rfl
      have hheader : strncasecmp (skipBlanks (cString line)) Word.interface = isHeaderLine line := rfl
      unfold Unbroken recordLines
      dsimp only
      rw [hkeyline, hheader]
      by_cases hkey : isKeyLine line = true
      · rw [if_pos hkey, if_pos hkey]
        rcases hlater true with hrest | ⟨⟨last, hlast, hopen⟩, hnew⟩
        · exact Or.inl ⟨rfl, hrest⟩
        · refine Or.inr ⟨⟨last, List.mem_cons_of_mem _ hlast, hopen⟩, ?_⟩
          split
          · exact endsLine_append _ hnew
          · rename_i hwritten
            rwa [not_not.mp hwritten]
      · have hplain := Bool.not_eq_true _ ▸ hkey
        have hline := hnul line List.mem_cons_self hplain
        rw [if_neg hkey, if_neg hkey, cString_eq hline]
        by_cases hplace : written = false ∧ isHeaderLine line = true
        · rw [if_pos hplace, if_pos ⟨by rw [hplace.1]; exact Bool.false_ne_true, hplace.2⟩]
          cases hopen : endsLine line with
          | true =>
              rcases hlater true with hrest | ⟨⟨last, hlast, hopen⟩, hnew⟩
              · exact Or.inl ⟨hline, rfl, hrest⟩
              · exact Or.inr ⟨⟨last, List.mem_cons_of_mem _ hlast, hopen⟩, endsLine_append _ hnew⟩
          | false =>
              have hnil : ls = [] := by
                by_contra hne
                rw [hends hne] at hopen
                cases hopen
              refine Or.inr ⟨⟨line, List.mem_cons_self, hplain, hopen⟩, ?_⟩
              rw [hnil]
              unfold recordLines
              rw [if_pos rfl, List.append_nil]
              exact hentry line
        · rw [if_neg hplace, if_neg (by rwa [Bool.not_eq_true])]
          cases hopen : endsLine line with
          | true =>
              rcases hlater written with hrest | ⟨⟨last, hlast, hopen⟩, hnew⟩
              · exact Or.inl ⟨hline, hrest⟩
              · exact Or.inr ⟨⟨last, List.mem_cons_of_mem _ hlast, hopen⟩, endsLine_append _ hnew⟩
          | false =>
              have hnil : ls = [] := by
                by_contra hne
                rw [hends hne] at hopen
                cases hopen
              rw [hnil]
              cases written with
              | true => exact Or.inl ⟨hline, Or.inl rfl⟩
              | false =>
                  refine Or.inr ⟨⟨line, List.mem_cons_self, hplain, hopen⟩, ?_⟩
                  unfold recordLines
                  rw [if_neg Bool.false_ne_true, ← List.append_assoc]
                  exact hentry _

/-- **A file whose lines fit, and that keeps its lines, was unbroken.** -/
theorem unbroken_of_kept (hkey : KeyText key)
    (hfit : ∀ line ∈ wholeLines (file.getD []), line.length ≤ wgLineMax - 1)
    (h : ((wholeLines (file.getD [])).filter fun line => !isKeyLine line).Sublist
      (wholeLines (wgRecordPrivateKey key file))) :
    Unbroken false false (lines wgLineMax (file.getD [])) := by
  have hlines : lines wgLineMax (file.getD []) = wholeLines (file.getD []) :=
    lines_eq_wholeLines (by decide) hfit
  have hkept : ∀ line ∈ wholeLines (file.getD []), isKeyLine line = false →
      line ∈ wholeLines (wgRecordPrivateKey key file) := by
    intro line hline hplain
    exact h.subset (List.mem_filter.mpr ⟨hline, by rw [hplain]; rfl⟩)
  rw [hlines]
  have hnul : ∀ line ∈ wholeLines (file.getD []), isKeyLine line = false → '\x00' ∉ line := by
    intro line hline hplain hc
    rcases mem_of_mem_wholeLines (hkept line hline hplain) hc with hc | hc
    · cases hc
    · exact not_nul_recordLines hkey false _ hc
  rcases @unbroken_or key _ (wholeLines_lined [] (file.getD [])) hnul false with
    hunbroken | ⟨⟨line, hline, hplain, hopen⟩, hnew⟩
  · exact hunbroken
  · have hends := endsLine_wholeLines (s := wgRecordPrivateKey key file)
      (by unfold wgRecordPrivateKey; rw [hlines]; exact hnew) [] line (hkept line hline hplain)
    rw [hopen] at hends
    cases hends

end Files

end NuttxWireguard.Cli
