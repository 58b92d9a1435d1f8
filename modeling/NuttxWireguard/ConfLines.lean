/-
The lines the two readers of configuration files take.

`wg_setconf` of the flat port and `wg_cmd_setconf` of the command read a file with `fgets`, into
buffers of 128 and 256 bytes.  What each makes of a file depends on the lines it takes and on
nothing else, so it is what the lines of the file ask for as long as these fit the buffer.  The
rest of a line that does not fit is read as a line of its own.
-/
import NuttxWireguard.Flat.ConfFile
import NuttxWireguard.Cli.Conf

namespace NuttxWireguard

open Lib

/-! ### The flat port -/

namespace Flat

variable {kc : Kconfig} {maxPeers : Nat}

/-- One turn of the loop of `wg_setconf`. -/
def readLine (kc : Kconfig) (maxPeers : Nat) (l : Loading) (line : Text) : Option Loading :=
  (confLine kc maxPeers line l).toOption

/-- `wg_setconf` on a file that was split at its newlines. -/
def loadWholeLines (kc : Kconfig) (maxPeers : Nat) (st : Staged) (file : Text) :
    Staged × Option Errno :=
  match confLines kc maxPeers (wholeLines file) ⟨{ st with peers := [] }, ConfPeer.zero⟩ with
  | (l, some errno) => ({ l.staged with peers := [] }, some errno)
  | (l, none) =>
    match wgConfFlushPeer kc maxPeers l with
    | .error errno => ({ l.staged with peers := [] }, some errno)
    | .ok staged => (staged, none)

/-- The lines behind the one the loop stops at do not matter. -/
theorem confLines_consumed (ls : List Text) (l : Loading) :
    confLines kc maxPeers (consumed (readLine kc maxPeers) l ls) l = confLines kc maxPeers ls l := by
  induction ls generalizing l with
  | nil => rfl
  | cons line rest ih =>
      unfold consumed readLine
      cases hline : confLine kc maxPeers line l with
      | error errno => simp [confLines, hline, Except.toOption]
      | ok l' =>
          simp only [Except.toOption, confLines, hline]
          exact ih l'

/-- What `wg_setconf` has read when it starts on the first line. -/
def Loading.start (st : Staged) : Loading := ⟨{ st with peers := [] }, ConfPeer.zero⟩

/-- The lines that are interpreted are lines of the file, and the outcome is theirs. -/
structure LineBased (kc : Kconfig) (maxPeers : Nat) (st : Staged) (file : Text) : Prop where
  interpreted : consumed (readLine kc maxPeers) (.start st) (lines confLineMax file) =
    consumed (readLine kc maxPeers) (.start st) (wholeLines file)
  outcome : wgLoadconf kc maxPeers st file = loadWholeLines kc maxPeers st file

theorem lineBased_iff (st : Staged) (file : Text) : LineBased kc maxPeers st file ↔
    ∀ line ∈ consumed (readLine kc maxPeers) (.start st) (wholeLines file),
      line.length ≤ confLineMax - 1 := by
  rw [← consumed_lines_iff (readLine kc maxPeers) (by decide)]
  refine ⟨fun h => h.interpreted, fun h => ⟨h, ?_⟩⟩
  have hsame : confLines kc maxPeers (lines confLineMax file) (.start st) =
      confLines kc maxPeers (wholeLines file) (.start st) := by
    rw [← confLines_consumed, h, confLines_consumed]
  unfold Loading.start at hsame
  unfold wgLoadconf loadWholeLines
  generalize confLines kc maxPeers (lines confLineMax file)
    ⟨{ st with peers := [] }, ConfPeer.zero⟩ = outcome at hsame ⊢
  subst hsame
  rfl

end Flat

/-! ### The command -/

namespace Cli

variable {w : LongWidth} {maxPeers : Nat}

/-- One turn of the loop of `wg_cmd_setconf`; the state has the number of the last line. -/
def readLine (w : LongWidth) (maxPeers : Nat) (st : Nat × Conf) (line : Text) : Option (Nat × Conf) :=
  (confLine w maxPeers (st.1 + 1) line st.2).toOption.map fun conf => (st.1 + 1, conf)

theorem confLines_consumed (ls : List Text) (done : Nat) (conf : Conf) :
    confLines w maxPeers done (consumed (readLine w maxPeers) (done, conf) ls) conf =
      confLines w maxPeers done ls conf := by
  induction ls generalizing done conf with
  | nil => rfl
  | cons line rest ih =>
      unfold consumed readLine
      cases hline : confLine w maxPeers (done + 1) line conf with
      | error err => simp [confLines, hline, Except.toOption]
      | ok conf' =>
          simp only [Except.toOption, Option.map_some, confLines, hline]
          exact ih (done + 1) conf'

/-- The same for `wg_cmd_setconf`. -/
structure LineBased (w : LongWidth) (maxPeers : Nat) (file : Text) : Prop where
  interpreted : consumed (readLine w maxPeers) (0, .empty) (lines wgLineMax file) =
    consumed (readLine w maxPeers) (0, .empty) (wholeLines file)
  outcome : readConf w maxPeers file = confLines w maxPeers 0 (wholeLines file) .empty

theorem lineBased_iff (file : Text) : LineBased w maxPeers file ↔
    ∀ line ∈ consumed (readLine w maxPeers) (0, .empty) (wholeLines file),
      line.length ≤ wgLineMax - 1 := by
  rw [← consumed_lines_iff (readLine w maxPeers) (by decide)]
  refine ⟨fun h => h.interpreted, fun h => ⟨h, ?_⟩⟩
  unfold readConf
  rw [← confLines_consumed, h, confLines_consumed]

end Cli

/-- **Both readers go by the lines of a file exactly as far as these fit their buffers**: every
line up to the one at which reading the file line by line would stop. -/
theorem confFile_lineBased_iff (file : Text) :
    (∀ kc maxPeers st, Flat.LineBased kc maxPeers st file ↔
      ∀ line ∈ consumed (Flat.readLine kc maxPeers) (.start st) (wholeLines file),
        line.length ≤ Flat.confLineMax - 1) ∧
    ∀ w maxPeers, Cli.LineBased w maxPeers file ↔
      ∀ line ∈ consumed (Cli.readLine w maxPeers) (0, .empty) (wholeLines file),
        line.length ≤ Cli.wgLineMax - 1 :=
  ⟨fun _ _ st => Flat.lineBased_iff st file, fun _ _ => Cli.lineBased_iff file⟩

namespace Sample

/-- A comment of 127 characters, and what it goes on with. -/
def longComment : Text :=
  '#' :: List.replicate 126 '-' ++ Flat.Word.privateKey ++ ['=', 'x', '\n']

/-- A build with nothing in it. -/
def nothingBuiltIn : Flat.Kconfig := ⟨[], 0, [], [], 0, [], [], 0, .ilp32⟩

end Sample

/-- The end of a comment is read as a directive. -/
theorem not_confFile_lineBased : ¬∀ (file : Text) (kc : Flat.Kconfig) (maxPeers : Nat)
    (st : Flat.Staged), Flat.LineBased kc maxPeers st file := by
  intro h
  have houtcome := (h Sample.longComment Sample.nothingBuiltIn 1 .empty).outcome
  have hrefused : (Flat.wgLoadconf Sample.nothingBuiltIn 1 .empty Sample.longComment).2 =
      some .einval := by decide
  have hloaded : (Flat.loadWholeLines Sample.nothingBuiltIn 1 .empty Sample.longComment).2 =
      none := by decide
  rw [houtcome, hloaded] at hrefused
  cases hrefused

end NuttxWireguard
