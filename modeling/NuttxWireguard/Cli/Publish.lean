/-
Publishing a configuration file (`wg_replace_file`).

The new content is staged in a file of its own; to publish it is to rename that file over
the configuration.  A rename can remove its destination and still fail, so the old content
is first copied to a backup, created exclusively.  Whatever fails on the way, the old
content is then in one of the two places, and a backup that is left bars every later
publisher until someone has seen to it.

Every operation may fail: `Faults` says which do in one call.  Streams report their errors
as they are documented to, a read error by `ferror` and a write error by a short `fwrite`
or by `fclose`.
-/
import NuttxWireguard.Lib.Files
import NuttxWireguard.Lib.CText
import Mathlib.Data.List.Infix
import Mathlib.Data.Vector.Basic

namespace NuttxWireguard.Cli

open Lib

/-! ### Names -/

/-- `"%s.bak"`. -/
def backupName (path : Text) : Text := path ++ ['.', 'b', 'a', 'k']

/-- `"%s.tmp.XXXXXX"`, with what `mkstemp` makes of the six. -/
def tempName (path : Text) (suffix : List.Vector Char 6) : Text :=
  path ++ ['.', 't', 'm', 'p', '.'] ++ suffix.toList

theorem backupName_ne (path : Text) : backupName path ≠ path := by
  intro h
  have hlength := congrArg List.length h
  simp [backupName] at hlength

theorem tempName_ne (path : Text) (suffix : List.Vector Char 6) : tempName path suffix ≠ path := by
  intro h
  have hlength := congrArg List.length h
  simp [tempName] at hlength

theorem tempName_ne_backupName (path : Text) (suffix : List.Vector Char 6) :
    tempName path suffix ≠ backupName path := by
  intro h
  have hlength := congrArg List.length h
  simp [tempName, backupName] at hlength

/-! ### Copying -/

variable {α : Type*}

/-- One turn of the copying loop. -/
structure Turn where
  /-- `fread` meets an error, and delivers this many bytes at most. -/
  readError : Option Nat
  /-- `fwrite` takes all it is given. -/
  write : Bool

/-- What `fread` of `size` bytes delivers. -/
def Turn.fread (turn : Turn) (size : Nat) (rest : List α) : List α :=
  rest.take (min size (turn.readError.getD size))

/-- Where the copying loop stopped. -/
structure Copied (α : Type*) where
  written : List α
  /-- A write fell short. -/
  failed : Bool
  /-- `ferror(in)`. -/
  readError : Bool

/-- The size of `buf`. -/
def bufSize : Nat := 128

/-- The loop that copies the old content; it is at turn `i`. -/
def copyLoop (turns : Nat → Turn) (i : Nat) (rest written : List α) (readError : Bool) : Copied α :=
  let n := (turns i).fread bufSize rest
  let readError := readError || (turns i).readError.isSome
  if n.length = 0 then ⟨written, false, readError⟩
  else if ¬(turns i).write then ⟨written, true, readError⟩
  else copyLoop turns (i + 1) (rest.drop n.length) (written ++ n) readError
termination_by rest.length
decreasing_by
  rename_i hread _
  have hle : ((turns i).fread bufSize rest).length ≤ rest.length := by
    unfold Turn.fread
    rw [List.length_take]
    omega
  have hread : ((turns i).fread bufSize rest).length ≠ 0 := hread
  rw [List.length_drop]
  omega

/-- What fails in one call. -/
structure Faults (α : Type*) where
  /-- `open` creates the backup, if there is none. -/
  reserve : Bool
  fdopen : Bool
  /-- `fopen` opens the configuration, or reports that there is none. -/
  fopen : Bool
  turns : Nat → Turn
  closeIn : Bool
  closeOut : Bool
  /-- What a backup that was not closed properly holds. -/
  torn : List α
  rename : Renaming
  unlinkBackup : Bool
  unlinkTmp : Bool

/-- The old content on its way to the backup: what the backup holds once it is closed, and
whether anything failed. -/
def wgBackUp (faults : Faults α) (old : Opened (List α)) : List α × Bool :=
  let copied : Copied α :=
    match old with
    | .file content => copyLoop faults.turns 0 content [] false
    | _ => ⟨[], false, false⟩
  let failed :=
    match old with
    | .file _ => copied.failed || copied.readError || !faults.closeIn
    | .absent => false
    | .failed => true
  let failed := failed || !faults.closeOut
  (if copied.failed ∨ ¬faults.closeOut then faults.torn else copied.written, failed)

/-- `wg_replace_file`; whether it returns zero. -/
def wgReplaceFile (faults : Faults α) (fs : Files Text (List α)) (tmp path : Text) :
    Files Text (List α) × Bool :=
  let backup := backupName path
  if backup.length ≥ 160 then ((fs.unlink faults.unlinkTmp tmp).1, false)
  else
    match fs.create faults.reserve backup [] with
    | none => ((fs.unlink faults.unlinkTmp tmp).1, false)
    | some fs =>
      if ¬faults.fdopen then
        (((fs.unlink faults.unlinkBackup backup).1.unlink faults.unlinkTmp tmp).1, false)
      else
        let (content, failed) := wgBackUp faults (fs.read faults.fopen path)
        let fs := fs.write backup content
        if failed then
          (((fs.unlink faults.unlinkBackup backup).1.unlink faults.unlinkTmp tmp).1, false)
        else
          match fs.rename faults.rename tmp path with
          | (fs, false) => (fs, false)
          | (fs, true) => fs.unlink faults.unlinkBackup backup

/-! ### The backup -/

/-- A copy without failures is complete. -/
theorem copyLoop_written (turns : Nat → Turn) (i : Nat) (rest written : List α) (readError : Bool)
    (hfailed : (copyLoop turns i rest written readError).failed = false)
    (herror : (copyLoop turns i rest written readError).readError = false) :
    (copyLoop turns i rest written readError).written = written ++ rest := by
  induction i, rest, written, readError using copyLoop.induct turns with
  | case1 i rest written readError n hend =>
      rw [copyLoop, if_pos hend] at herror ⊢
      -- without an error nothing was read only because nothing was left
      have hnone : (turns i).readError = none := by
        simpa using (Bool.or_eq_false_iff.mp herror).2
      have hrest : rest = [] := by
        simpa [n, Turn.fread, hnone, bufSize] using hend
      rw [hrest, List.append_nil]
  | case2 i rest written readError n hread hwrite =>
      rw [copyLoop, if_neg hread, if_pos hwrite] at hfailed
      cases hfailed
  | case3 i rest written readError n readError' hread hwrite ih =>
      rw [copyLoop, if_neg hread, if_neg hwrite] at hfailed herror ⊢
      have hsplit : n ++ rest.drop n.length = rest :=
        (List.prefix_append_drop (List.take_prefix _ rest)).symm
      rw [ih hfailed herror, List.append_assoc, hsplit]

/-- **A backup that did not fail is the old content**, and empty if there was none. -/
theorem wgBackUp_complete {faults : Faults α} {old : Opened (List α)}
    (h : (wgBackUp faults old).2 = false) :
    (∀ content, old = .file content → (wgBackUp faults old).1 = content) ∧ old ≠ .failed := by
  unfold wgBackUp at h ⊢
  dsimp only at h ⊢
  cases old with
  | file content =>
      simp only [Bool.or_eq_false_iff, Bool.not_eq_false'] at h
      obtain ⟨⟨⟨hfailed, herror⟩, -⟩, hclose⟩ := h
      refine ⟨fun content' hcontent => ?_, fun hc => (by cases hc)⟩
      cases hcontent
      rw [if_neg (by simp [hfailed, hclose]), copyLoop_written _ _ _ _ _ hfailed herror]
      rfl
  | absent => exact ⟨fun content hc => (by cases hc), fun hc => (by cases hc)⟩
  | failed => cases h

/-! ### One call -/

section Call

variable (faults : Faults α) (fs : Files Text (List α)) (path : Text) (suffix : List.Vector Char 6)

/-- What a call comes to. -/
inductive Replaced (path backup : Text) (before : Files Text (List α)) (staged : Option (List α)) :
    Files Text (List α) → Bool → Prop
  /-- It gave up before the configuration was touched. -/
  | aborted {after : Files Text (List α)} (hpath : after path = before path)
      (hbackup : ∀ content, before backup = some content → after backup = some content) :
      Replaced path backup before staged after false
  /-- The rename failed, with the old content in the backup. -/
  | stuck {after : Files Text (List α)} {saved : List α} (hfree : before backup = none)
      (hsaved : ∀ old, before path = some old → saved = old) (hbackup : after backup = some saved) :
      Replaced path backup before staged after false
  /-- The new content is published, and the backup is left. -/
  | uncleared {after : Files Text (List α)} {saved : List α} (hfree : before backup = none)
      (hsaved : ∀ old, before path = some old → saved = old) (hpath : after path = staged)
      (hbackup : after backup = some saved) : Replaced path backup before staged after false
  /-- The new content is published. -/
  | published {after : Files Text (List α)} (hfree : before backup = none)
      (hpath : after path = staged) (hbackup : after backup = none) :
      Replaced path backup before staged after true

/-- Giving up leaves the configuration, and a backup that was there. -/
theorem aborted_unlink {fs' : Files Text (List α)} (hpath : fs' path = fs path)
    (hbackup : ∀ content, fs (backupName path) = some content →
      fs' (backupName path) = some content) :
    Replaced path (backupName path) fs (fs (tempName path suffix))
      (fs'.unlink faults.unlinkTmp (tempName path suffix)).1 false := by
  refine .aborted ?_ fun content h => ?_
  · rw [Files.unlink_of_ne (tempName_ne path suffix).symm, hpath]
  · rw [Files.unlink_of_ne (tempName_ne_backupName path suffix).symm]
    exact hbackup content h

/-- **What a call comes to, whatever fails.** -/
theorem wgReplaceFile_replaced :
    Replaced path (backupName path) fs (fs (tempName path suffix))
      (wgReplaceFile faults fs (tempName path suffix) path).1
      (wgReplaceFile faults fs (tempName path suffix) path).2 := by
  unfold wgReplaceFile
  dsimp only
  split
  · exact aborted_unlink faults fs path suffix rfl fun _ h => h
  split
  · exact aborted_unlink faults fs path suffix rfl fun _ h => h
  · rename_i fs₁ hcreate
    obtain ⟨hfree, rfl⟩ := Files.create_some hcreate
    have hnone : ∀ (fs' : Files Text (List α)) content, fs (backupName path) = some content →
        fs' (backupName path) = some content := by
      intro fs' content h
      rw [hfree] at h
      cases h
    have hpath : ∀ content,
        (fs.write (backupName path) content) path = fs path :=
      fun content => Files.write_of_ne (backupName_ne path).symm
    split
    · refine aborted_unlink faults fs path suffix ?_ (hnone _)
      rw [Files.unlink_of_ne (backupName_ne path).symm, hpath]
    have hread : (fs.write (backupName path) []).read faults.fopen path
        = fs.read faults.fopen path := by
      unfold Files.read
      rw [hpath]
    rw [hread]
    have hcomplete := @wgBackUp_complete _ faults (fs.read faults.fopen path)
    generalize wgBackUp faults (fs.read faults.fopen path) = backedUp at hcomplete
    obtain ⟨saved, failed⟩ := backedUp
    dsimp only at hcomplete ⊢
    split
    · refine aborted_unlink faults fs path suffix ?_ (hnone _)
      rw [Files.unlink_of_ne (backupName_ne path).symm,
        Files.write_of_ne (backupName_ne path).symm, hpath]
    · rename_i hok
      obtain ⟨hsaved, hopened⟩ := hcomplete (by simpa using hok)
      have hold : ∀ old, fs path = some old → saved = old := by
        intro old hold
        refine hsaved old ?_
        unfold Files.read at hopened ⊢
        split
        · rename_i hc
          rw [if_pos hc] at hopened
          exact absurd rfl hopened
        · rw [hold]
      have hbackup : ∀ outcome, (((fs.write (backupName path) []).write (backupName path) saved).rename
          outcome (tempName path suffix) path).1 (backupName path) = some saved := by
        intro outcome
        rw [Files.rename_of_ne (tempName_ne_backupName path suffix).symm (backupName_ne path),
          Files.write_self]
      specialize hbackup faults.rename
      have htrue := @Files.rename_true _ _ _
        ((fs.write (backupName path) []).write (backupName path) saved) faults.rename
        (tempName path suffix) path
      generalize Files.rename _ faults.rename (tempName path suffix) path = renamed at hbackup htrue
      obtain ⟨fs₂, moved⟩ := renamed
      cases moved with
      | false => exact .stuck hfree hold hbackup
      | true =>
          obtain ⟨staged, hstaged, hfs₂⟩ := htrue rfl
          dsimp only at hfs₂ hbackup ⊢
          rw [Files.write_of_ne (tempName_ne_backupName path suffix),
            Files.write_of_ne (tempName_ne_backupName path suffix)] at hstaged
          have hnew : fs₂ path = fs (tempName path suffix) := by
            rw [hfs₂, Files.write_self, hstaged]
          cases hcleared : (fs₂.unlink faults.unlinkBackup (backupName path)).2 with
          | true =>
              have hunlink := Files.unlink_true hcleared
              refine .published hfree ?_ ?_
              · rw [hunlink, Files.remove_of_ne (backupName_ne path).symm, hnew]
              · rw [hunlink, Files.remove_self]
          | false =>
              have hunlink := Files.unlink_false hcleared
              refine .uncleared hfree hold ?_ (?_ : _ = some saved)
              · rw [hunlink, hnew]
              · rw [hunlink, hbackup]

end Call

/-! ### Later calls -/

/-- A writer: the content it stages, where, and what fails when it publishes it. -/
structure Publisher (α : Type*) where
  suffix : List.Vector Char 6
  staged : List α
  faults : Faults α

/-- It stages its content and publishes it. -/
def Publisher.run (path : Text) (fs : Files Text (List α)) (p : Publisher α) :
    Files Text (List α) × Bool :=
  wgReplaceFile p.faults (fs.write (tempName path p.suffix) p.staged) (tempName path p.suffix) path

theorem Publisher.replaced (p : Publisher α) (fs : Files Text (List α)) (path : Text) :
    Replaced path (backupName path) fs (some p.staged) (p.run path fs).1 (p.run path fs).2 := by
  have h := wgReplaceFile_replaced p.faults (fs.write (tempName path p.suffix) p.staged) path p.suffix
  rw [Files.write_self] at h
  have hpath : fs.write (tempName path p.suffix) p.staged path = fs path :=
    Files.write_of_ne (tempName_ne path p.suffix).symm
  have hbackup : fs.write (tempName path p.suffix) p.staged (backupName path) = fs (backupName path) :=
    Files.write_of_ne (tempName_ne_backupName path p.suffix).symm
  unfold Publisher.run
  generalize wgReplaceFile p.faults (fs.write (tempName path p.suffix) p.staged)
    (tempName path p.suffix) path = r at h
  obtain ⟨after, ok⟩ := r
  cases h with
  | aborted h₁ h₂ => exact .aborted (h₁.trans hpath) fun content hc => h₂ content (hbackup.trans hc)
  | stuck h₁ h₂ h₃ =>
      exact .stuck (hbackup.symm.trans h₁) (fun old ho => h₂ old (hpath.trans ho)) h₃
  | uncleared h₁ h₂ h₃ h₄ =>
      exact .uncleared (hbackup.symm.trans h₁) (fun old ho => h₂ old (hpath.trans ho)) h₃ h₄
  | published h₁ h₂ h₃ => exact .published (hbackup.symm.trans h₁) h₂ h₃

/-- A backup bars the publisher. -/
theorem Publisher.barred (p : Publisher α) {fs : Files Text (List α)} {path : Text}
    {content : List α} (h : fs (backupName path) = some content) :
    (p.run path fs).1 path = fs path ∧ (p.run path fs).1 (backupName path) = some content := by
  have hfree : fs (backupName path) ≠ none := by
    rw [h]
    exact Option.some_ne_none content
  have hreplaced := p.replaced fs path
  generalize p.run path fs = r at hreplaced
  obtain ⟨after, ok⟩ := r
  cases hreplaced with
  | aborted hpath hbackup => exact ⟨hpath, hbackup content h⟩
  | stuck hc => exact absurd hc hfree
  | uncleared hc => exact absurd hc hfree
  | published hc => exact absurd hc hfree

/-- It bars every later one. -/
theorem barred_run {path : Text} {content : List α} (later : List (Publisher α)) :
    ∀ fs : Files Text (List α), fs (backupName path) = some content →
      let after := later.foldl (fun fs p => (p.run path fs).1) fs
      after path = fs path ∧ after (backupName path) = some content := by
  induction later with
  | nil => intro fs h; exact ⟨rfl, h⟩
  | cons p later ih =>
      intro fs h
      obtain ⟨hpath, hbackup⟩ := p.barred h
      obtain ⟨hpath', hbackup'⟩ := ih _ hbackup
      exact ⟨hpath'.trans hpath, hbackup'⟩

/-- **Publishing is safe against every pattern of failures.**  A call that returns zero has
published and left no backup; one that does not has the old content, if there was one, in
the configuration or in the backup; a backup that was there is left as it was; and as long
as there is a backup the configuration stays as it is, whatever later publishers stage. -/
theorem publish_faultSafe (p : Publisher α) (fs : Files Text (List α)) (path : Text) :
    let r := p.run path fs
    (r.2 = true → r.1 path = some p.staged ∧ r.1 (backupName path) = none) ∧
    (r.2 = false → ∀ old, fs path = some old →
      r.1 path = some old ∨ r.1 (backupName path) = some old) ∧
    (∀ content, fs (backupName path) = some content → r.1 (backupName path) = some content) ∧
    (∀ content (later : List (Publisher α)), fs (backupName path) = some content →
      (later.foldl (fun fs p => (p.run path fs).1) fs) path = fs path) := by
  intro r
  have hreplaced := p.replaced fs path
  refine ⟨fun hzero => ?_, fun hfailed old hold => ?_, fun content h => (p.barred h).2,
    fun content later h => (barred_run later fs h).1⟩
  · rw [show (p.run path fs).2 = true from hzero] at hreplaced
    cases hreplaced with
    | published _ hpath hbackup => exact ⟨hpath, hbackup⟩
  · rw [show (p.run path fs).2 = false from hfailed] at hreplaced
    cases hreplaced with
    | aborted hpath _ => exact Or.inl (hpath.trans hold)
    | stuck _ hsaved hbackup => exact Or.inr (hsaved old hold ▸ hbackup)
    | uncleared _ hsaved _ hbackup => exact Or.inr (hsaved old hold ▸ hbackup)

/-! ### Without failures -/

/-- Nothing fails. -/
def Faults.none : Faults α where
  reserve := true
  fdopen := true
  fopen := true
  turns := fun _ => ⟨Option.none, true⟩
  closeIn := true
  closeOut := true
  torn := []
  rename := .done
  unlinkBackup := true
  unlinkTmp := true

end NuttxWireguard.Cli
