/-
Files that are written line by line.

`fgets` cuts a file into pieces: a line with its newline, what the buffer holds of a line
that is longer, or what is left at the end.  Pieces written one after the other are read as
the same pieces, as long as each one that has another behind it is complete.
-/
import NuttxWireguard.Lib.CText

namespace Lib

/-- The text ends its line. -/
def endsLine (line : Text) : Bool := line.getLast? == some '\n'

/-- What `fgets` can deliver: a newline is the last character, and the buffer holds it. -/
structure Piece (size : Nat) (line : Text) : Prop where
  ne_nil : line ≠ []
  newline : '\n' ∉ line.dropLast
  length : line.length ≤ size - 1

/-- Every piece that has another behind it ends its line, or fills the buffer. -/
def Delivered (size : Nat) : List Text → Prop
  | [] => True
  | line :: rest =>
    Piece size line ∧ (rest ≠ [] → endsLine line = true ∨ line.length = size - 1) ∧
      Delivered size rest

section Pieces

variable {size room : Nat} {line s rest : Text} {ls : List Text}

theorem endsLine_iff : endsLine line = true ↔ ∃ body, line = body ++ ['\n'] := by
  unfold endsLine
  rw [beq_iff_eq, List.getLast?_eq_some_iff]

theorem endsLine_append (s : Text) (h : endsLine line = true) : endsLine (s ++ line) = true := by
  obtain ⟨body, rfl⟩ := endsLine_iff.mp h
  exact endsLine_iff.mpr ⟨s ++ body, (List.append_assoc s body _).symm⟩

/-- A piece is a line with its newline, or has none. -/
theorem Piece.cases (h : Piece size line) :
    (endsLine line = true ∧ ∃ body, line = body ++ ['\n'] ∧ '\n' ∉ body) ∨
      (endsLine line = false ∧ '\n' ∉ line) := by
  cases hends : endsLine line with
  | true =>
      obtain ⟨body, rfl⟩ := endsLine_iff.mp hends
      refine Or.inl ⟨rfl, body, rfl, ?_⟩
      have hnewline := h.newline
      rwa [List.dropLast_concat] at hnewline
  | false =>
      refine Or.inr ⟨rfl, fun hmem => ?_⟩
      rw [← List.dropLast_append_getLast h.ne_nil] at hmem
      rcases List.mem_append.mp hmem with hmem | hmem
      · exact h.newline hmem
      · have hlast : endsLine line = true := by
          unfold endsLine
          rw [List.getLast?_eq_getLast_of_ne_nil h.ne_nil, ← List.mem_singleton.mp hmem]
          rfl
        rw [hends] at hlast
        cases hlast

theorem Delivered.piece (h : Delivered size ls) : ∀ line ∈ ls, Piece size line := by
  induction ls with
  | nil =>
      intro line hline
      cases hline
  | cons first ls ih =>
      intro line hline
      rcases List.mem_cons.mp hline with rfl | hline
      · exact h.1
      · exact ih h.2.2 line hline

/-! ### Reading what was written -/

/-- A piece that is complete is delivered. -/
theorem fgetsLoop_piece (hne : s ≠ []) (hnewline : '\n' ∉ s.dropLast) (hroom : s.length ≤ room)
    (hfull : endsLine s = true ∨ s.length = room) (line rest : Text) :
    fgetsLoop size room line (s ++ rest) = (line ++ s) :: fgetsLoop size (size - 1) [] rest := by
  induction s generalizing room line with
  | nil => exact absurd rfl hne
  | cons a s ih =>
      have hstep : fgetsLoop size room line (a :: s ++ rest) =
          if a = '\n' ∨ room ≤ 1 then (line ++ [a]) :: fgetsLoop size (size - 1) [] (s ++ rest)
          else fgetsLoop size (room - 1) (line ++ [a]) (s ++ rest) := by
        cases line <;> rw [List.cons_append, fgetsLoop]
      rw [hstep]
      rw [List.length_cons] at hroom hfull
      cases s with
      | nil =>
          rw [if_pos, List.nil_append]
          rcases hfull with hends | hlength
          · left
            simpa [endsLine] using hends
          · right
            simp only [List.length_nil] at hlength
            omega
      | cons b s =>
          rw [List.dropLast_cons_cons, List.mem_cons, not_or] at hnewline
          rw [List.length_cons] at hroom hfull
          rw [if_neg (by
            rintro (hc | hc)
            · exact hnewline.1 hc.symm
            · omega)]
          rw [ih (List.cons_ne_nil b s) hnewline.2 (by rw [List.length_cons]; omega) ?_]
          · rw [List.append_assoc, List.singleton_append]
          · refine hfull.imp (fun hends => ?_) fun hlength => ?_
            · simpa [endsLine] using hends
            · rw [List.length_cons]
              omega

/-- What is left at the end is delivered, too. -/
theorem fgetsLoop_end (hne : line ++ s ≠ []) (hnewline : '\n' ∉ s) (hroom : s.length < room) :
    fgetsLoop size room line s = [line ++ s] := by
  induction s generalizing room line with
  | nil =>
      rw [List.append_nil] at hne ⊢
      cases line with
      | nil => exact absurd rfl hne
      | cons a line =>
          rw [fgetsLoop]
          exact hne
  | cons a s ih =>
      rw [List.mem_cons, not_or] at hnewline
      rw [List.length_cons] at hroom
      have hgo : ¬(a = '\n' ∨ room ≤ 1) := by
        rintro (hc | hc)
        · exact hnewline.1 hc.symm
        · omega
      rw [fgetsLoop_next hgo, ih (by simp) hnewline.2 (by omega), List.append_assoc,
        List.singleton_append]

/-- **Pieces are read as they were written.** -/
theorem lines_flatten (h : Delivered size ls) : lines size ls.flatten = ls := by
  induction ls with
  | nil => rfl
  | cons line ls ih =>
      obtain ⟨hpiece, hfull, hrest⟩ := h
      have hread := ih hrest
      unfold lines at hread ⊢
      rw [List.flatten_cons]
      by_cases hcomplete : endsLine line = true ∨ line.length = size - 1
      · rw [fgetsLoop_piece hpiece.ne_nil hpiece.newline hpiece.length hcomplete, hread,
          List.nil_append]
      · have hnil : ls = [] := by
          by_contra hne
          exact hcomplete (hfull hne)
        rw [not_or] at hcomplete
        have hlength := hpiece.length
        rcases hpiece.cases with ⟨hends, -⟩ | ⟨-, hnewline⟩
        · exact absurd hends hcomplete.1
        · rw [hnil, List.flatten_nil, List.append_nil,
            fgetsLoop_end (by simpa using hpiece.ne_nil) hnewline (by omega), List.nil_append]

/-! ### What is read -/

theorem fgetsLoop_flatten (size room : Nat) (line s : Text) :
    (fgetsLoop size room line s).flatten = line ++ s := by
  induction s generalizing room line with
  | nil => cases line <;> simp [fgetsLoop]
  | cons a s ih =>
      cases line <;> rw [fgetsLoop] <;> split <;> simp [ih]

/-- **A file is what is read of it.** -/
theorem flatten_lines (size : Nat) (file : Text) : (lines size file).flatten = file := by
  unfold lines
  rw [fgetsLoop_flatten, List.nil_append]

theorem fgetsLoop_delivered (hroom : 0 < room) (hsize : line.length + room = size - 1)
    (hnewline : '\n' ∉ line) : Delivered size (fgetsLoop size room line s) := by
  induction s generalizing room line with
  | nil =>
      cases line with
      | nil => exact trivial
      | cons a line =>
          have hlast : fgetsLoop size room (a :: line) [] = [a :: line] := by
            rw [fgetsLoop]
            exact List.cons_ne_nil a line
          rw [hlast]
          refine ⟨⟨List.cons_ne_nil a line, fun hc => hnewline (List.dropLast_subset _ hc), ?_⟩,
            fun hc => absurd rfl hc, trivial⟩
          omega
  | cons a s ih =>
      have hlength : (line ++ [a]).length = line.length + 1 := by simp
      by_cases hstop : a = '\n' ∨ room ≤ 1
      · rw [fgetsLoop_stop hstop]
        refine ⟨⟨by simp, by rwa [List.dropLast_concat], by omega⟩, fun _ => ?_,
          ih (by omega) (by simp) List.not_mem_nil⟩
        rcases hstop with rfl | hfull
        · exact Or.inl (endsLine_iff.mpr ⟨line, rfl⟩)
        · exact Or.inr (by omega)
      · rw [fgetsLoop_next hstop]
        rw [not_or] at hstop
        refine ih (by omega) (by omega) ?_
        simpa using ⟨hnewline, fun hc => hstop.1 hc.symm⟩

theorem lines_delivered (hsize : 2 ≤ size) (file : Text) : Delivered size (lines size file) :=
  fgetsLoop_delivered (by omega) (by simp) List.not_mem_nil

/-- **Lines that fit are what is read.** -/
theorem lines_eq_wholeLines (hsize : 2 ≤ size) {file : Text}
    (h : ∀ line ∈ wholeLines file, line.length ≤ size - 1) : lines size file = wholeLines file := by
  have hall : ∀ ls : List Text, consumed (fun (_ : Unit) _ => some ()) () ls = ls := by
    intro ls
    induction ls with
    | nil => rfl
    | cons line ls ih =>
        rw [consumed]
        exact congrArg (line :: ·) ih
  have hread := (consumed_lines_iff (fun (_ : Unit) _ => some ()) hsize () file).mpr
  rw [hall, hall] at hread
  exact hread h

/-! ### Whole lines -/

/-- A piece that ends the line. -/
theorem wholeLinesFrom_ends (hnewline : '\n' ∉ s) (line rest : Text) :
    wholeLinesFrom line (s ++ ['\n'] ++ rest) = (line ++ s ++ ['\n']) :: wholeLinesFrom [] rest := by
  induction s generalizing line with
  | nil =>
      rw [List.nil_append, List.append_nil]
      exact wholeLinesFrom_newline line rest
  | cons a s ih =>
      rw [List.mem_cons, not_or] at hnewline
      rw [List.cons_append, List.cons_append, wholeLinesFrom_next fun hc => hnewline.1 hc.symm,
        ih hnewline.2, List.append_assoc line, List.singleton_append]

/-- One that does not. -/
theorem wholeLinesFrom_goesOn (hnewline : '\n' ∉ s) (line rest : Text) :
    wholeLinesFrom line (s ++ rest) = wholeLinesFrom (line ++ s) rest := by
  induction s generalizing line with
  | nil => rw [List.nil_append, List.append_nil]
  | cons a s ih =>
      rw [List.mem_cons, not_or] at hnewline
      rw [List.cons_append, wholeLinesFrom_next fun hc => hnewline.1 hc.symm, ih hnewline.2,
        List.append_assoc, List.singleton_append]

/-- A file that ends its last line ends all of them. -/
theorem endsLine_wholeLines (h : endsLine s = true) (before : Text) :
    ∀ line ∈ wholeLinesFrom before s, endsLine line = true := by
  induction s generalizing before with
  | nil => cases h
  | cons a s ih =>
      intro line hline
      by_cases hs : s = []
      · rw [hs] at h hline
        have ha : a = '\n' := by simpa [endsLine] using h
        rw [ha, wholeLinesFrom_newline] at hline
        rw [List.mem_singleton.mp hline]
        exact endsLine_iff.mpr ⟨before, rfl⟩
      · have hends : endsLine s = true := by
          unfold endsLine at h ⊢
          rwa [List.getLast?_cons_of_ne_nil hs] at h
        by_cases ha : a = '\n'
        · rw [ha, wholeLinesFrom_newline] at hline
          rcases List.mem_cons.mp hline with rfl | hline
          · exact endsLine_iff.mpr ⟨before, rfl⟩
          · exact ih hends [] line hline
        · rw [wholeLinesFrom_next ha] at hline
          exact ih hends _ line hline

/-- Every line that has another behind it is complete. -/
def Lined : List Text → Prop
  | [] => True
  | line :: rest => (rest ≠ [] → endsLine line = true) ∧ Lined rest

theorem wholeLines_lined (before s : Text) : Lined (wholeLinesFrom before s) := by
  induction s generalizing before with
  | nil => cases before <;> simp [wholeLinesFrom, Lined]
  | cons a s ih =>
      by_cases ha : a = '\n'
      · rw [ha, wholeLinesFrom_newline]
        exact ⟨fun _ => endsLine_iff.mpr ⟨before, rfl⟩, ih []⟩
      · rw [wholeLinesFrom_next ha]
        exact ih _

/-- A line is made of what the file has. -/
theorem mem_of_mem_wholeLines {before : Text} {ch : Char} (hline : line ∈ wholeLinesFrom before s)
    (hch : ch ∈ line) : ch ∈ before ∨ ch ∈ s := by
  have hflat : (wholeLinesFrom before s).flatten = before ++ s := by
    clear hline
    induction s generalizing before with
    | nil => cases before <;> simp [wholeLinesFrom]
    | cons a s ih => cases before <;> rw [wholeLinesFrom] <;> split <;> simp [ih]
  have hmem : ch ∈ (wholeLinesFrom before s).flatten := List.mem_flatten.mpr ⟨line, hline, hch⟩
  rw [hflat] at hmem
  exact List.mem_append.mp hmem

end Pieces

end Lib
