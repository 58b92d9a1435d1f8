/-
Text as the C library reads and writes it.

A byte of a file or of a string is a character.  The functions are those of the standard
library that a program uses on its configuration: a line is what `fgets` delivers into a
buffer of a given size, a string ends at the first NUL, and numbers and IPv4 addresses are
read and written in decimal.  What is written is read back, whatever stands behind it, as
long as that does not go on with a digit.
-/
import NuttxWireguard.Lib.Bytes
import Mathlib.Data.List.TakeWhile

namespace Lib

/-- A path, a string, or what stands in a file. -/
abbrev Text := List Char

/-! ### Strings -/

/-- The string in a buffer: up to the first NUL. -/
def cString (buf : Text) : Text := buf.takeWhile (· != '\x00')

def isBlank (ch : Char) : Bool := ch == ' ' || ch == '\t'

/-- `while (*p == ' ' || *p == '\t') p++`. -/
def skipBlanks (s : Text) : Text := s.dropWhile isBlank

/-- `s[strcspn(s, stop)] = '\0'`. -/
def cutAt (stop s : Text) : Text := s.takeWhile fun ch => !stop.contains ch

/-- `strcasecmp(a, b) == 0`. -/
def strcasecmp (a b : Text) : Bool := a.map Char.toLower == b.map Char.toLower

/-- `strncasecmp(s, word, strlen(word)) == 0`. -/
def strncasecmp (s word : Text) : Bool := strcasecmp (s.take word.length) word

/-- `strchr`: what stands before the first `ch`, and behind it. -/
def strchr (ch : Char) (s : Text) : Option (Text × Text) :=
  match s.dropWhile (· != ch) with
  | [] => none
  | _ :: after => some (s.takeWhile (· != ch), after)

/-- `strrchr`: the same for the last one. -/
def strrchr (ch : Char) (s : Text) : Option (Text × Text) :=
  (strchr ch s.reverse).map fun r => (r.2.reverse, r.1.reverse)

/-- What `strlcpy` leaves in a buffer of `size` bytes. -/
def strlcpy (size : Nat) (s : Text) : Text := s.take (size - 1)

/-- The tokens `strtok_r` finds between the separators. -/
def strtok (sep : Char) (s : Text) : List Text := (s.splitOn sep).filter (· ≠ [])

/-! ### Lines -/

/-- What `fgets` delivers call by call; `room` is what is left of the buffer and `line` what
is in it. -/
def fgetsLoop (size : Nat) : (room : Nat) → (line : Text) → Text → List Text
  | _, [], [] => []
  | _, line, [] => [line]
  | room, line, ch :: rest =>
    if ch = '\n' ∨ room ≤ 1 then (line ++ [ch]) :: fgetsLoop size (size - 1) [] rest
    else fgetsLoop size (room - 1) (line ++ [ch]) rest

/-- The lines of a file, for a buffer of `size` bytes. -/
def lines (size : Nat) (file : Text) : List Text := fgetsLoop size (size - 1) [] file

/-! ### Numbers -/

/-- `isspace`. -/
def isSpace (ch : Char) : Bool :=
  ch == ' ' || ch == '\t' || ch == '\n' || ch == '\x0b' || ch == '\x0c' || ch == '\r'

/-- `"%u"`. -/
def decimal (n : Nat) : Text := Nat.toDigits 10 n

/-- `"%d"`. -/
def decimalInt (n : Int) : Text := if n < 0 then '-' :: decimal n.natAbs else decimal n.natAbs

/-- An optional sign: whether it is a minus, and what follows. -/
def readSign (s : Text) : Bool × Text :=
  match s with
  | '-' :: rest => (true, rest)
  | '+' :: rest => (false, rest)
  | _ => (false, s)

/-- The sign and the magnitude at the start of a string. -/
def readNumber (s : Text) : Bool × Nat :=
  let (negative, s) := readSign (s.dropWhile isSpace)
  (negative, Nat.ofDigitChars 10 (s.takeWhile Char.isDigit) 0)

/-- How wide a `long` is; an `int` has 32 bits. -/
structure LongWidth where
  bits : Nat
  ge : 32 ≤ bits

/-- The two data models in use. -/
def LongWidth.ilp32 : LongWidth := ⟨32, Nat.le_refl 32⟩

def LongWidth.lp64 : LongWidth := ⟨64, by decide⟩

/-- `strtoul(s, NULL, 10)`. -/
def strtoul (w : LongWidth) (s : Text) : Nat :=
  let (negative, n) := readNumber s
  if n ≥ 2 ^ w.bits then 2 ^ w.bits - 1
  else if negative then (2 ^ w.bits - n) % 2 ^ w.bits
  else n

/-- `strtol(s, NULL, 10)`. -/
def strtol (w : LongWidth) (s : Text) : Int :=
  let (negative, n) := readNumber s
  if negative then max (-(n : Int)) (-2 ^ (w.bits - 1)) else min n (2 ^ (w.bits - 1) - 1)

/-- `atoi`: the `int` that is left of the `long`. -/
def atoi (w : LongWidth) (s : Text) : Int := (BitVec.ofInt 32 (strtol w s)).toInt

/-- Digits and nothing else, of a number that an `int` can hold. -/
def IntDigits (s : Text) : Prop :=
  (∀ a ∈ s, a.isDigit = true) ∧ Nat.ofDigitChars 10 s 0 < 2 ^ 31

/-! ### Addresses -/

/-- One number of a dotted quad: up to three digits, at most 255. -/
def readOctet (s : Text) : Option Byte :=
  if s ≠ [] ∧ s.length ≤ 3 ∧ s.all Char.isDigit ∧ Nat.ofDigitChars 10 s 0 ≤ 255 then
    some (BitVec.ofNat 8 (Nat.ofDigitChars 10 s 0))
  else none

/-- `inet_pton(AF_INET, s)`: the address, as its bytes lie in memory. -/
def inetPton (s : Text) : Option (BitVec 32) :=
  let parts := s.splitOn '.'
  if parts.length = 4 then (parts.mapM readOctet).map (readLe 32) else none

/-- `inet_ntop(AF_INET, addr)`. -/
def inetNtop (addr : BitVec 32) : Text :=
  ['.'].intercalate ((writeLe 4 addr).toList.map fun b => decimal b.toNat)

/-! ### Reading what was written -/

section Strings

variable {s rest : Text} {ch : Char}

/-- What is taken up to a character that ends it. -/
theorem takeWhile_append_stop {p : Char → Bool} (hs : ∀ a ∈ s, p a = true)
    (hrest : ∀ a ∈ rest.head?, p a = false) : (s ++ rest).takeWhile p = s := by
  rw [List.takeWhile_append_of_pos hs]
  cases rest with
  | nil => simp
  | cons a rest =>
      have ha : p a = false := hrest a rfl
      simp [ha]

theorem dropWhile_append_stop {p : Char → Bool} (hs : ∀ a ∈ s, p a = true)
    (hrest : ∀ a ∈ rest.head?, p a = false) : (s ++ rest).dropWhile p = rest := by
  rw [List.dropWhile_append_of_pos hs]
  cases rest with
  | nil => rfl
  | cons a rest =>
      have ha : p a = false := hrest a rfl
      simp [ha]

theorem strchr_append (h : ch ∉ s) (rest : Text) : strchr ch (s ++ ch :: rest) = some (s, rest) := by
  have hs : ∀ a ∈ s, (a != ch) = true := by
    intro a ha
    exact bne_iff_ne.mpr fun hc => h (hc ▸ ha)
  have hrest : ∀ a ∈ (ch :: rest).head?, (a != ch) = false := by
    intro a ha
    cases ha
    simp
  unfold strchr
  rw [takeWhile_append_stop hs hrest, dropWhile_append_stop hs hrest]

theorem strrchr_append (s : Text) (h : ch ∉ rest) :
    strrchr ch (s ++ ch :: rest) = some (s, rest) := by
  unfold strrchr
  rw [List.reverse_append, List.reverse_cons, List.append_assoc, List.singleton_append,
    strchr_append (by simpa using h)]
  simp

theorem strchr_none (h : ch ∉ s) : strchr ch s = none := by
  unfold strchr
  have hall : ∀ a ∈ s, (a != ch) = true := by
    intro a ha
    exact bne_iff_ne.mpr fun hc => h (hc ▸ ha)
  rw [List.dropWhile_eq_nil_iff.mpr hall]

/-- `strchr` splits the string. -/
theorem strchr_some {before after : Text} (h : strchr ch s = some (before, after)) :
    s = before ++ ch :: after := by
  unfold strchr at h
  cases hdrop : s.dropWhile (· != ch) with
  | nil =>
      rw [hdrop] at h
      cases h
  | cons a rest =>
      rw [hdrop] at h
      cases h
      have ha : a = ch := by
        have hhead := List.head?_dropWhile_not (· != ch) s
        rw [hdrop] at hhead
        simpa using hhead
      have hsplit : s.takeWhile (· != ch) ++ s.dropWhile (· != ch) = s := List.takeWhile_append_dropWhile
      rw [hdrop, ha] at hsplit
      exact hsplit.symm

theorem not_mem_of_strchr {before after : Text} (h : strchr ch s = some (before, after)) :
    ch ∉ before := by
  unfold strchr at h
  split at h
  · cases h
  · cases h
    intro hmem
    have hne := List.mem_takeWhile_imp hmem
    rw [bne_self_eq_false] at hne
    cases hne

theorem not_mem_of_strchr_none (h : strchr ch s = none) : ch ∉ s := by
  intro hmem
  obtain ⟨before, after, rfl, hbefore⟩ := List.eq_append_cons_of_mem hmem
  rw [strchr_append hbefore] at h
  cases h

theorem strrchr_some {before after : Text} (h : strrchr ch s = some (before, after)) :
    s = before ++ ch :: after ∧ ch ∉ after := by
  obtain ⟨⟨front, back⟩, hr, heq⟩ := Option.map_eq_some_iff.mp h
  cases heq
  have hsplit := congrArg List.reverse (strchr_some hr)
  refine ⟨by simpa using hsplit, fun hmem => not_mem_of_strchr hr (List.mem_reverse.mp hmem)⟩

theorem mem_cString {a : Char} (h : a ∈ cString s) : a ≠ '\x00' := by
  have ha := List.mem_takeWhile_imp h
  simpa using ha

theorem mem_cutAt {stop : Text} {a : Char} (h : a ∈ cutAt stop s) : a ∉ stop := by
  have ha := List.mem_takeWhile_imp h
  simpa using ha

theorem mem_of_cutAt {stop : Text} {a : Char} (h : a ∈ cutAt stop s) : a ∈ s :=
  (List.takeWhile_prefix _).subset h

theorem mem_of_skipBlanks {a : Char} (h : a ∈ skipBlanks s) : a ∈ s :=
  (List.dropWhile_suffix _).subset h

/-- A string without NUL is all of its buffer. -/
theorem cString_eq (h : '\x00' ∉ s) : cString s = s := by
  refine List.takeWhile_eq_self_iff.mpr fun a ha => ?_
  exact bne_iff_ne.mpr fun hc => h (hc ▸ ha)

theorem cutAt_append {stop : Text} (hs : ∀ a ∈ s, a ∉ stop) (hch : ch ∈ stop) :
    cutAt stop (s ++ ch :: rest) = s := by
  refine takeWhile_append_stop (fun a ha => ?_) fun a ha => ?_
  · simpa using hs a ha
  · cases ha
    simpa using hch

/-- Nothing is skipped before a character that is not blank. -/
theorem skipBlanks_cons (h : isBlank ch = false) : skipBlanks (ch :: rest) = ch :: rest :=
  List.dropWhile_cons_of_neg (by rw [h]; exact Bool.false_ne_true)

end Strings

/-! ### Lines that fit -/

/-- The line ends here, or the buffer is full. -/
theorem fgetsLoop_stop {size room : Nat} {line : Text} {ch : Char} (h : ch = '\n' ∨ room ≤ 1)
    (rest : Text) : fgetsLoop size room line (ch :: rest)
      = (line ++ [ch]) :: fgetsLoop size (size - 1) [] rest := by
  cases line <;> rw [fgetsLoop, if_pos h]

theorem fgetsLoop_next {size room : Nat} {line : Text} {ch : Char} (h : ¬(ch = '\n' ∨ room ≤ 1))
    (rest : Text) : fgetsLoop size room line (ch :: rest)
      = fgetsLoop size (room - 1) (line ++ [ch]) rest := by
  cases line <;> rw [fgetsLoop, if_neg h]

/-- A line that fits the buffer is delivered whole. -/
theorem fgetsLoop_line {size room : Nat} {line s : Text} (hs : '\n' ∉ s) (hroom : s.length < room)
    (rest : Text) : fgetsLoop size room line (s ++ '\n' :: rest)
      = (line ++ s ++ ['\n']) :: fgetsLoop size (size - 1) [] rest := by
  induction s generalizing room line with
  | nil =>
      rw [List.nil_append, List.append_nil]
      exact fgetsLoop_stop (Or.inl rfl) rest
  | cons a s ih =>
      rw [List.length_cons] at hroom
      have ha : ¬(a = '\n' ∨ room ≤ 1) := by
        rintro (hc | hc)
        · exact hs (hc ▸ List.mem_cons_self)
        · omega
      have hnext := @ih (room - 1) (line ++ [a]) (fun hc => hs (List.mem_cons_of_mem _ hc))
        (by omega)
      rw [List.cons_append, fgetsLoop_next ha, hnext, List.append_assoc line, List.singleton_append]

/-- **Lines that fit are read back.** -/
theorem lines_line {size : Nat} {s : Text} (hs : '\n' ∉ s) (hsize : s.length + 1 < size)
    (rest : Text) : lines size (s ++ '\n' :: rest) = (s ++ ['\n']) :: lines size rest := by
  unfold lines
  rw [fgetsLoop_line hs (by omega), List.nil_append]

/-- Lines written one after the other. -/
def unlines : List Text → Text
  | [] => []
  | line :: rest => line ++ '\n' :: unlines rest

theorem unlines_append (ls ls' : List Text) : unlines (ls ++ ls') = unlines ls ++ unlines ls' := by
  induction ls with
  | nil => rfl
  | cons line ls ih => simp [unlines, ih]

theorem unlines_flatMap {α : Type*} (f : α → List Text) (as : List α) :
    unlines (as.flatMap f) = as.flatMap fun a => unlines (f a) := by
  induction as with
  | nil => rfl
  | cons a as ih => rw [List.flatMap_cons, List.flatMap_cons, unlines_append, ih]

theorem lines_unlines {size : Nat} (ls : List Text)
    (h : ∀ line ∈ ls, '\n' ∉ line ∧ line.length + 1 < size) :
    lines size (unlines ls) = ls.map (· ++ ['\n']) := by
  induction ls with
  | nil => rfl
  | cons line ls ih =>
      obtain ⟨hlf, hsize⟩ := h line List.mem_cons_self
      rw [unlines, lines_line hlf hsize, ih fun l hl => h l (List.mem_cons_of_mem _ hl),
        List.map_cons]

/-! ### Lines that do not fit -/

/-- A file split behind its newlines; `line` is what of the first line was seen already. -/
def wholeLinesFrom : (line : Text) → Text → List Text
  | [], [] => []
  | line, [] => [line]
  | line, ch :: rest =>
    if ch = '\n' then (line ++ [ch]) :: wholeLinesFrom [] rest
    else wholeLinesFrom (line ++ [ch]) rest

def wholeLines (file : Text) : List Text := wholeLinesFrom [] file

theorem wholeLinesFrom_newline (line rest : Text) :
    wholeLinesFrom line ('\n' :: rest) = (line ++ ['\n']) :: wholeLinesFrom [] rest := by
  cases line <;> rw [wholeLinesFrom, if_pos rfl]

theorem wholeLinesFrom_next {ch : Char} (h : ch ≠ '\n') (line rest : Text) :
    wholeLinesFrom line (ch :: rest) = wholeLinesFrom (line ++ [ch]) rest := by
  cases line <;> rw [wholeLinesFrom, if_neg h]

/-- What is left of a line at the end of the file is one, too. -/
theorem wholeLinesFrom_nil {line : Text} (h : line ≠ []) : wholeLinesFrom line [] = [line] := by
  cases line with
  | nil => exact absurd rfl h
  | cons a line => rfl

/-- What goes on behind `line` makes its line longer. -/
theorem wholeLinesFrom_cons (line : Text) (ch : Char) (rest : Text) :
    ∃ l ls, wholeLinesFrom line (ch :: rest) = l :: ls ∧ line.length < l.length := by
  have hlonger : line.length < (line ++ [ch]).length := by simp
  induction rest generalizing line ch with
  | nil =>
      by_cases hch : ch = '\n'
      · rw [hch] at hlonger ⊢
        exact ⟨line ++ ['\n'], [], wholeLinesFrom_newline line [], hlonger⟩
      · refine ⟨line ++ [ch], [], ?_, hlonger⟩
        rw [wholeLinesFrom_next hch, wholeLinesFrom_nil (by simp)]
  | cons ch' rest ih =>
      by_cases hch : ch = '\n'
      · rw [hch] at hlonger ⊢
        exact ⟨line ++ ['\n'], _, wholeLinesFrom_newline line (ch' :: rest), hlonger⟩
      · obtain ⟨l, ls, hl, hlt⟩ := ih (line ++ [ch]) ch' (by simp)
        rw [wholeLinesFrom_next hch]
        exact ⟨l, ls, hl, Nat.lt_trans hlonger hlt⟩

/-- The lines a reader takes, up to the one it stops at. -/
def consumed {σ : Type*} (read : σ → Text → Option σ) : σ → List Text → List Text
  | _, [] => []
  | st, line :: rest =>
    match read st line with
    | none => [line]
    | some st' => line :: consumed read st' rest

/-- The last line is taken whether or not the reader stops at it. -/
theorem consumed_singleton {σ : Type*} (read : σ → Text → Option σ) (st : σ) (line : Text) :
    consumed read st [line] = [line] := by
  unfold consumed
  split <;> rfl

theorem mem_consumed_head {σ : Type*} (read : σ → Text → Option σ) (st : σ) (line : Text)
    (rest : List Text) : ∃ ls, consumed read st (line :: rest) = line :: ls := by
  unfold consumed
  split
  · exact ⟨[], rfl⟩
  · exact ⟨_, rfl⟩

/-- What is left of the buffer and what is in it make it up. -/
theorem consumed_fgetsLoop_iff {σ : Type*} (read : σ → Text → Option σ) {size room : Nat}
    {line : Text} (hroom : 0 < room) (hsize : line.length + room = size - 1) (st : σ) (s : Text) :
    consumed read st (fgetsLoop size room line s) = consumed read st (wholeLinesFrom line s) ↔
      ∀ l ∈ consumed read st (wholeLinesFrom line s), l.length ≤ size - 1 := by
  induction s generalizing room line st with
  | nil =>
      cases line with
      | nil => exact ⟨fun _ l hl => (by cases hl), fun _ => rfl⟩
      | cons a line =>
          refine ⟨fun _ l hl => ?_, fun _ => rfl⟩
          rw [wholeLinesFrom_nil (List.cons_ne_nil a line), consumed_singleton,
            List.mem_singleton] at hl
          rw [hl]
          omega
  | cons ch rest ih =>
      have hlength : (line ++ [ch]).length = line.length + 1 := by simp
      by_cases hch : ch = '\n'
      · -- the line ends here
        rw [hch] at hlength ⊢
        rw [fgetsLoop_stop (Or.inl rfl), wholeLinesFrom_newline]
        unfold consumed
        cases hread : read st (line ++ ['\n']) with
        | none =>
            refine ⟨fun _ l hl => ?_, fun _ => rfl⟩
            rw [List.mem_singleton.mp hl]
            omega
        | some st' =>
            have hrest := @ih (size - 1) [] (by omega) (by simp) st'
            rw [List.cons.injEq, List.forall_mem_cons, hrest]
            exact ⟨fun h => ⟨by omega, h.2⟩, fun h => ⟨rfl, h.2⟩⟩
      by_cases hfull : room ≤ 1
      · -- the buffer is full, and the line may go on
        obtain ⟨ls, hls⟩ := mem_consumed_head read st (line ++ [ch])
          (fgetsLoop size (size - 1) [] rest)
        rw [fgetsLoop_stop (Or.inr hfull), wholeLinesFrom_next hch]
        cases rest with
        | nil =>
            have hnone : fgetsLoop size (size - 1) [] [] = [] := rfl
            rw [wholeLinesFrom_nil (by simp), hnone, consumed_singleton]
            refine ⟨fun _ l hl => ?_, fun _ => rfl⟩
            rw [List.mem_singleton.mp hl]
            omega
        | cons ch' rest =>
            obtain ⟨l, ls', hl, hlt⟩ := wholeLinesFrom_cons (line ++ [ch]) ch' rest
            obtain ⟨ls'', hls''⟩ := mem_consumed_head read st l ls'
            rw [hl, hls, hls'']
            constructor
            · intro h
              rw [← (List.cons.inj h).1] at hlt
              exact absurd hlt (Nat.lt_irrefl _)
            · intro h
              have hle := h l List.mem_cons_self
              omega
      · rw [fgetsLoop_next (not_or.mpr ⟨hch, hfull⟩), wholeLinesFrom_next hch]
        exact ih (by omega) (by omega) st

/-- **A reader finds whole lines exactly when all it takes of them fit the buffer.** -/
theorem consumed_lines_iff {σ : Type*} (read : σ → Text → Option σ) {size : Nat} (hsize : 2 ≤ size)
    (st : σ) (file : Text) :
    consumed read st (lines size file) = consumed read st (wholeLines file) ↔
      ∀ line ∈ consumed read st (wholeLines file), line.length ≤ size - 1 :=
  consumed_fgetsLoop_iff read (by omega) (by simp) st file

/-! ### Numerals -/

/-- Nothing of the number goes on in what follows it. -/
def EndsNumber (rest : Text) : Prop := ∀ a ∈ rest.head?, a.isDigit = false

/-- The text is digits and nothing else, and they stand for `n`. -/
structure Numeral (s : Text) (n : Nat) : Prop where
  ne_nil : s ≠ []
  digits : ∀ a ∈ s, a.isDigit = true
  value : Nat.ofDigitChars 10 s 0 = n

section Numerals

variable {s t rest : Text} {w : LongWidth} {n m : Nat}

theorem not_isSpace_of_isDigit {a : Char} (ha : a.isDigit = true) : isSpace a = false := by
  by_contra hc
  simp only [Bool.not_eq_false, isSpace, Bool.or_eq_true, beq_iff_eq] at hc
  rcases hc with ((((rfl | rfl) | rfl) | rfl) | rfl) | rfl <;> exact absurd ha (by decide)

/-- A digit is no sign. -/
theorem readSign_of_isDigit {a : Char} (ha : a.isDigit = true) :
    readSign (a :: s) = (false, a :: s) := by
  unfold readSign
  split
  · rename_i hc
    cases hc
    exact absurd ha (by decide)
  · rename_i hc
    cases hc
    exact absurd ha (by decide)
  · rfl

theorem Numeral.unique (h : Numeral s n) (h' : Numeral s m) : n = m := h.value.symm.trans h'.value

theorem numeral_of_digits (hne : s ≠ []) (hs : ∀ a ∈ s, a.isDigit = true) :
    Numeral s (Nat.ofDigitChars 10 s 0) := ⟨hne, hs, rfl⟩

/-- **A numeral is read**, whatever stands behind it that is no digit. -/
theorem readNumber_numeral (h : Numeral s n) (hrest : EndsNumber rest) :
    readNumber (s ++ rest) = (false, n) := by
  obtain ⟨hne, hs, hvalue⟩ := h
  have hskip : (s ++ rest).dropWhile isSpace = s ++ rest ∧
      readSign (s ++ rest) = (false, s ++ rest) := by
    cases s with
    | nil => exact absurd rfl hne
    | cons a s =>
        have ha := hs a List.mem_cons_self
        refine ⟨List.dropWhile_cons_of_neg ?_, readSign_of_isDigit ha⟩
        rw [not_isSpace_of_isDigit ha]
        exact Bool.false_ne_true
  unfold readNumber
  rw [hskip.1, hskip.2]
  dsimp only
  rw [takeWhile_append_stop hs hrest, hvalue]

theorem readNumber_numeral_end (h : Numeral s n) : readNumber s = (false, n) := by
  have hend := @readNumber_numeral s [] n h fun a ha => (by cases ha)
  rwa [List.append_nil] at hend

theorem strtol_numeral (h : Numeral s n) : strtol w s = min (n : Int) (2 ^ (w.bits - 1) - 1) := by
  unfold strtol
  rw [readNumber_numeral_end h]
  exact if_neg Bool.false_ne_true

theorem strtoul_numeral (h : Numeral s n) :
    strtoul w s = if n ≥ 2 ^ w.bits then 2 ^ w.bits - 1 else n := by
  unfold strtoul
  rw [readNumber_numeral_end h]
  dsimp only
  rw [if_neg Bool.false_ne_true]

/-- Digits that `strtol` reads as less than it can, and not as nothing. -/
theorem numeral_of_strtol (hne : s ≠ []) (hs : ∀ a ∈ s, a.isDigit = true)
    (hlt : strtol w s < 2 ^ (w.bits - 1) - 1) : Numeral s (strtol w s).toNat := by
  have h := numeral_of_digits hne hs
  have hvalue := strtol_numeral (w := w) h
  have hn : (strtol w s).toNat = Nat.ofDigitChars 10 s 0 := by omega
  rw [hn]
  exact h

/-- A `long` holds an `int`. -/
theorem LongWidth.two_pow_le (w : LongWidth) : (2 : Int) ^ 31 ≤ 2 ^ (w.bits - 1) := by
  have hbits := w.ge
  have hle : 2 ^ 31 ≤ 2 ^ (w.bits - 1) := Nat.pow_le_pow_right Nat.two_pos (by omega)
  exact_mod_cast hle

/-- An `unsigned long` holds an `unsigned int`. -/
theorem LongWidth.two_pow_bits_le (w : LongWidth) : 2 ^ 32 ≤ 2 ^ w.bits :=
  Nat.pow_le_pow_right Nat.two_pos w.ge

/-- **A number that an `int` can hold is read**, however long a `long` is. -/
theorem strtol_numeral_int (h : Numeral s n) (hn : n < 2 ^ 31) : strtol w s = n := by
  have hpow := w.two_pow_le
  rw [strtol_numeral h]
  omega

theorem atoi_of_strtol {i : Int} (h : strtol w s = i) (hlo : -2 ^ 31 ≤ i) (hhi : i < 2 ^ 31) :
    atoi w s = i := by
  unfold atoi
  rw [h, BitVec.toInt_ofInt]
  exact Int.bmod_eq_of_le (by omega) (by omega)

theorem atoi_numeral (h : Numeral s n) (hn : n < 2 ^ 31) : atoi w s = n :=
  atoi_of_strtol (strtol_numeral_int h hn) (by omega) (by omega)

/-- Where there is no number, it is zero. -/
theorem strtol_nil (w : LongWidth) : strtol w [] = 0 := by
  have hpow := w.two_pow_le
  show min ((0 : Nat) : Int) (2 ^ (w.bits - 1) - 1) = 0
  omega

theorem atoi_nil (w : LongWidth) : atoi w [] = 0 :=
  atoi_of_strtol (strtol_nil w) (by decide) (by decide)

/-- Nothing is lost of such a number. -/
theorem IntDigits.atoi_eq (h : IntDigits s) : atoi w s = strtol w s := by
  by_cases hne : s = []
  · rw [hne, atoi_nil, strtol_nil]
  · have hnum := numeral_of_digits hne h.1
    rw [atoi_numeral hnum h.2, strtol_numeral_int hnum h.2]

theorem Numeral.intDigits (h : Numeral s n) (hn : n < 2 ^ 31) : IntDigits s :=
  ⟨h.digits, by rw [h.value]; exact hn⟩

/-- More digits make a larger number. -/
theorem Numeral.append (h : Numeral (s ++ t) n) (hs : s ≠ []) : ∃ m r, Numeral s m ∧
    (∀ a ∈ t, a.isDigit = true) ∧ Nat.ofDigitChars 10 t 0 = r ∧ n = 10 ^ t.length * m + r := by
  refine ⟨_, _, numeral_of_digits hs fun a ha => h.digits a (List.mem_append_left _ ha),
    fun a ha => h.digits a (List.mem_append_right _ ha), rfl, ?_⟩
  rw [← h.value, Nat.ofDigitChars_append, Nat.ofDigitChars_eq_ofDigitChars_zero]

/-- Only zeros stand for zero. -/
theorem eq_zero_of_ofDigitChars (hs : ∀ a ∈ s, a.isDigit = true)
    (h : Nat.ofDigitChars 10 s 0 = 0) : ∀ a ∈ s, a = '0' := by
  induction s with
  | nil =>
      intro a ha
      cases ha
  | cons b s ih =>
      have hb := hs b List.mem_cons_self
      simp only [Char.isDigit, Bool.and_eq_true, decide_eq_true_eq] at hb
      have hlo : 48 ≤ b.toNat := UInt32.le_iff_toNat_le.mp hb.1
      rw [Nat.ofDigitChars_cons, Nat.ofDigitChars_eq_ofDigitChars_zero] at h
      have hpow : 0 < 10 ^ s.length := Nat.pow_pos (by decide)
      have hhead : b.toNat - '0'.toNat = 0 := by
        rcases Nat.eq_zero_of_add_eq_zero_right h |> Nat.mul_eq_zero.mp with hc | hc
        · omega
        · omega
      have hzero : ('0').toNat = 48 := rfl
      intro a ha
      rcases List.mem_cons.mp ha with rfl | ha
      · exact Char.toNat_inj.mp (by omega)
      · exact ih (fun c hc => hs c (List.mem_cons_of_mem _ hc))
          (Nat.eq_zero_of_add_eq_zero_left h) a ha

theorem numeral_zeros (hne : s ≠ []) (hs : ∀ a ∈ s, a = '0') : Numeral s 0 := by
  have hrep : s = List.replicate s.length '0' := List.eq_replicate_of_mem hs
  refine ⟨hne, fun a ha => hs a ha ▸ rfl, ?_⟩
  rw [hrep, Nat.ofDigitChars_replicate_zero, Nat.mul_zero]

end Numerals

/-! ### Numbers that were written -/

theorem isDigit_of_mem_decimal {n : Nat} {a : Char} (ha : a ∈ decimal n) : a.isDigit = true :=
  Nat.isDigit_of_mem_toDigits (by decide) (by decide) ha

theorem toLower_of_isDigit {a : Char} (h : a.isDigit = true) : a.toLower = a := by
  have hle : a.val.toNat ≤ 57 := by
    simp only [Char.isDigit, Bool.and_eq_true, decide_eq_true_eq] at h
    exact UInt32.le_iff_toNat_le.mp h.2
  unfold Char.toLower
  rw [dif_neg]
  rintro ⟨hupper, -⟩
  have hge : 65 ≤ a.val.toNat := UInt32.le_iff_toNat_le.mp hupper
  omega

/-- A number below a power of ten has no more digits. -/
theorem decimal_length_le {n k : Nat} (h : n < 10 ^ k) (hk : 0 < k) : (decimal n).length ≤ k :=
  (Nat.length_toDigits_le_iff (by decide) hk).mpr h

theorem not_mem_decimal {n : Nat} {a : Char} (ha : a.isDigit = false) : a ∉ decimal n := by
  intro hmem
  rw [isDigit_of_mem_decimal hmem] at ha
  cases ha

/-- A number starts with a digit, and so neither with a space nor with a sign. -/
theorem decimal_cons (n : Nat) : ∃ a s, decimal n = a :: s ∧ a.isDigit = true := by
  cases h : decimal n with
  | nil => exact absurd h Nat.toDigits_ne_nil
  | cons a s =>
      refine ⟨a, s, rfl, isDigit_of_mem_decimal (n := n) ?_⟩
      rw [h]
      exact List.mem_cons_self

theorem numeral_decimal (n : Nat) : Numeral (decimal n) n :=
  ⟨Nat.toDigits_ne_nil, fun _ => isDigit_of_mem_decimal, Nat.ofDigitChars_ten_toDigits⟩

/-- **A number is read back.** -/
theorem strtoul_decimal {w : LongWidth} {n : Nat} (hn : n < 2 ^ w.bits) {rest : Text}
    (hrest : EndsNumber rest) :
    strtoul w (decimal n ++ rest) = n := by
  unfold strtoul
  rw [readNumber_numeral (numeral_decimal n) hrest]
  dsimp only
  rw [if_neg (by omega), if_neg Bool.false_ne_true]

theorem strtol_decimal {w : LongWidth} {n : Nat} (hn : n < 2 ^ (w.bits - 1)) {rest : Text}
    (hrest : EndsNumber rest) :
    strtol w (decimal n ++ rest) = n := by
  unfold strtol
  rw [readNumber_numeral (numeral_decimal n) hrest]
  dsimp only
  have hpow : ((2 ^ (w.bits - 1) : Nat) : Int) = 2 ^ (w.bits - 1) := by push_cast; rfl
  rw [if_neg Bool.false_ne_true]
  omega

/-- A number alone. -/
theorem strtoul_decimal_end {w : LongWidth} {n : Nat} (hn : n < 2 ^ w.bits) :
    strtoul w (decimal n) = n := by
  have h := @strtoul_decimal w n hn [] fun a ha => (by cases ha)
  rwa [List.append_nil] at h

theorem strtol_decimal_end {w : LongWidth} {n : Nat} (hn : n < 2 ^ (w.bits - 1)) :
    strtol w (decimal n) = n := by
  have h := @strtol_decimal w n hn [] fun a ha => (by cases ha)
  rwa [List.append_nil] at h

/-- What an `int` is written with. -/
theorem mem_decimalInt {n : Int} {a : Char} (ha : a ∈ decimalInt n) : a = '-' ∨ a.isDigit = true := by
  unfold decimalInt at ha
  split at ha
  · rcases List.mem_cons.mp ha with rfl | ha
    · exact Or.inl rfl
    · exact Or.inr (isDigit_of_mem_decimal ha)
  · exact Or.inr (isDigit_of_mem_decimal ha)

theorem decimalInt_natCast (n : Nat) : decimalInt n = decimal n := by
  unfold decimalInt
  rw [if_neg (by omega), Int.natAbs_natCast]

theorem decimalInt_length_le {n : Int} {k : Nat} (h : n.natAbs < 10 ^ k) (hk : 0 < k) :
    (decimalInt n).length ≤ k + 1 := by
  have hlength := decimal_length_le h hk
  unfold decimalInt
  split
  · rw [List.length_cons]
    omega
  · omega

/-- **An `int` is read back.** -/
theorem strtol_decimalInt {w : LongWidth} {n : Int} (hlo : -2 ^ (w.bits - 1) ≤ n)
    (hhi : n < 2 ^ (w.bits - 1)) :
    strtol w (decimalInt n) = n := by
  have hpow : ((2 ^ (w.bits - 1) : Nat) : Int) = 2 ^ (w.bits - 1) := by push_cast; rfl
  unfold decimalInt
  split
  · rename_i hneg
    have hnumber : readNumber ('-' :: decimal n.natAbs) = (true, n.natAbs) := by
      have htake : (decimal n.natAbs).takeWhile Char.isDigit = decimal n.natAbs :=
        List.takeWhile_eq_self_iff.mpr fun _ ha => isDigit_of_mem_decimal ha
      have hskip : ('-' :: decimal n.natAbs).dropWhile isSpace = '-' :: decimal n.natAbs := rfl
      have hsign : readSign ('-' :: decimal n.natAbs) = (true, decimal n.natAbs) := rfl
      unfold readNumber
      rw [hskip, hsign]
      dsimp only
      rw [htake, decimal, Nat.ofDigitChars_ten_toDigits]
    unfold strtol
    rw [hnumber]
    dsimp only
    rw [if_pos rfl]
    omega
  · rename_i hpos
    rw [strtol_decimal_end (by omega)]
    omega

/-- However long a `long` is. -/
theorem atoi_decimalInt {w : LongWidth} {n : Int} (hlo : -2 ^ 31 ≤ n) (hhi : n < 2 ^ 31) :
    atoi w (decimalInt n) = n := by
  have hpow := w.two_pow_le
  exact atoi_of_strtol (strtol_decimalInt (by omega) (by omega)) hlo hhi

theorem atoi_decimal {w : LongWidth} {n : Nat} (hn : n < 2 ^ 31) : atoi w (decimal n) = n :=
  atoi_numeral (numeral_decimal n) hn

/-! ### Addresses that were written -/

theorem decimal_octet_length (b : Byte) : (decimal b.toNat).length ≤ 3 := by
  have hlt := b.isLt
  exact (Nat.length_toDigits_le_iff (by decide) (by decide)).mpr (by omega)

theorem readOctet_decimal (b : Byte) : readOctet (decimal b.toNat) = some b := by
  have hlt := b.isLt
  unfold readOctet
  rw [if_pos]
  · rw [decimal, Nat.ofDigitChars_ten_toDigits]
    exact congrArg some (by simp)
  · refine ⟨Nat.toDigits_ne_nil, decimal_octet_length b, List.all_eq_true.mpr fun _ => isDigit_of_mem_decimal, ?_⟩
    rw [decimal, Nat.ofDigitChars_ten_toDigits]
    omega

theorem mapM_readOctet (bs : List Byte) :
    (bs.map fun b => decimal b.toNat).mapM readOctet = some bs := by
  induction bs with
  | nil => rfl
  | cons b bs ih =>
      rw [List.map_cons, List.mapM_cons, readOctet_decimal, ih]
      rfl

/-- **An address is read back.** -/
theorem inetPton_inetNtop (addr : BitVec 32) : inetPton (inetNtop addr) = some addr := by
  have hsplit : (inetNtop addr).splitOn '.' = (writeLe 4 addr).toList.map fun b => decimal b.toNat := by
    refine List.splitOn_intercalate '.' ?_ ?_
    · intro s hs
      obtain ⟨b, -, rfl⟩ := List.mem_map.mp hs
      exact not_mem_decimal rfl
    · intro hnil
      have hlength := congrArg List.length hnil
      simp at hlength
  unfold inetPton
  dsimp only
  rw [hsplit, if_pos (by simp), mapM_readOctet]
  exact congrArg some (readLe_writeLe (by decide) addr)

theorem mem_intercalate {sep : Char} {a : Char} (ls : List Text)
    (ha : a ∈ [sep].intercalate ls) : a = sep ∨ ∃ s ∈ ls, a ∈ s := by
  induction ls with
  | nil => simp at ha
  | cons s ls ih =>
      cases ls with
      | nil => exact Or.inr ⟨s, List.mem_cons_self, by simpa using ha⟩
      | cons s' ls =>
          rw [List.intercalate_cons_of_ne_nil (by simp)] at ha
          simp only [List.append_assoc, List.mem_append, List.mem_singleton] at ha
          rcases ha with ha | rfl | ha
          · exact Or.inr ⟨s, List.mem_cons_self, ha⟩
          · exact Or.inl rfl
          · rcases ih ha with rfl | ⟨r, hr, har⟩
            · exact Or.inl rfl
            · exact Or.inr ⟨r, List.mem_cons_of_mem _ hr, har⟩

/-- A separator of two characters is one, with the other in front of what follows. -/
theorem intercalate_pair (a b : Char) (s : Text) (ls : List Text) :
    [a, b].intercalate (s :: ls) = [a].intercalate (s :: ls.map (b :: ·)) := by
  induction ls generalizing s with
  | nil => simp
  | cons s' ls ih =>
      have ih := ih s'
      rw [List.intercalate_cons_of_ne_nil (List.cons_ne_nil s' ls), ih, List.map_cons,
        List.intercalate_cons_of_ne_nil (List.cons_ne_nil (b :: s') _)]
      -- the separator's second character moves to the front of `s'`
      cases ls with
      | nil => simp
      | cons s'' ls =>
          rw [List.map_cons, List.intercalate_cons_of_ne_nil (List.cons_ne_nil (b :: s'') _),
            List.intercalate_cons_of_ne_nil (List.cons_ne_nil (b :: s'') _)]
          simp

theorem length_intercalate_lt {a : Char} {k : Nat} (ls : List Text) (hne : ls ≠ [])
    (hls : ∀ s ∈ ls, s.length ≤ k) : ([a].intercalate ls).length < (k + 1) * ls.length := by
  induction ls with
  | nil => exact absurd rfl hne
  | cons s ls ih =>
      have hs := hls s List.mem_cons_self
      rw [List.length_cons, Nat.mul_add, Nat.mul_one]
      cases ls with
      | nil =>
          simp only [List.intercalate_singleton]
          omega
      | cons s' ls =>
          have hrest := ih (by simp) fun r hr => hls r (List.mem_cons_of_mem _ hr)
          rw [List.intercalate_cons_of_ne_nil (by simp)]
          simp only [List.length_append, List.length_singleton]
          omega

/-- What an address is written with. -/
theorem mem_inetNtop {addr : BitVec 32} {a : Char} (ha : a ∈ inetNtop addr) :
    a = '.' ∨ a.isDigit = true := by
  rcases mem_intercalate _ ha with h | ⟨s, hs, has⟩
  · exact Or.inl h
  · obtain ⟨b, -, rfl⟩ := List.mem_map.mp hs
    exact Or.inr (isDigit_of_mem_decimal has)

theorem inetNtop_length (addr : BitVec 32) : (inetNtop addr).length < 16 := by
  have hlength : ((writeLe 4 addr).toList.map fun b => decimal b.toNat).length = 4 := by simp
  have hlt := length_intercalate_lt (a := '.') (k := 3)
    ((writeLe 4 addr).toList.map fun b => decimal b.toNat) (List.ne_nil_of_length_eq_add_one hlength)
    fun s hs => ?_
  · rw [hlength] at hlt
    exact hlt
  · obtain ⟨b, -, rfl⟩ := List.mem_map.mp hs
    exact decimal_octet_length b

/-- What reads as an octet. -/
theorem readOctet_text {s : Text} {b : Byte} (h : readOctet s = some b) :
    s.length ≤ 3 ∧ ∀ a ∈ s, a.isDigit = true := by
  unfold readOctet at h
  split at h
  · rename_i hs
    exact ⟨hs.2.1, List.all_eq_true.mp hs.2.2.1⟩
  · cases h

theorem mapM_readOctet_text {ls : List Text} {bs : List Byte} (h : ls.mapM readOctet = some bs) :
    ∀ s ∈ ls, s.length ≤ 3 ∧ ∀ a ∈ s, a.isDigit = true := by
  induction ls generalizing bs with
  | nil =>
      intro s hs
      cases hs
  | cons r ls ih =>
      rw [List.mapM_cons] at h
      obtain ⟨b, hb, h⟩ := Option.bind_eq_some_iff.mp h
      obtain ⟨bs', hbs, -⟩ := Option.bind_eq_some_iff.mp h
      intro s hs
      rcases List.mem_cons.mp hs with rfl | hs
      · exact readOctet_text hb
      · exact ih hbs s hs

/-- **What reads as an address** is short, and has only digits and dots. -/
theorem inetPton_text {s : Text} {addr : BitVec 32} (h : inetPton s = some addr) :
    s.length < 16 ∧ ∀ a ∈ s, a = '.' ∨ a.isDigit = true := by
  unfold inetPton at h
  dsimp only at h
  split at h
  · rename_i hfour
    obtain ⟨bs, hbs, -⟩ := Option.map_eq_some_iff.mp h
    have hparts := mapM_readOctet_text hbs
    have hjoin : ['.'].intercalate (s.splitOn '.') = s := List.intercalate_splitOn '.'
    refine ⟨?_, fun a ha => ?_⟩
    · have hlt := length_intercalate_lt (a := '.') (k := 3) (s.splitOn '.')
        (List.ne_nil_of_length_eq_add_one hfour) fun r hr => (hparts r hr).1
      rw [hjoin, hfour] at hlt
      exact hlt
    · rw [← hjoin] at ha
      rcases mem_intercalate _ ha with hdot | ⟨r, hr, har⟩
      · exact Or.inl hdot
      · exact Or.inr ((hparts r hr).2 a har)
  · cases h

/-- An address fits the buffer it is copied into. -/
theorem strlcpy_inetPton {s : Text} {addr : BitVec 32} (h : inetPton s = some addr) :
    strlcpy 16 s = s :=
  List.take_of_length_le (Nat.le_of_lt_succ (inetPton_text h).1)

end Lib
