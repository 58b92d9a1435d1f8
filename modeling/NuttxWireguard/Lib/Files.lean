/-
A directory and the operations on its files.

A name holds a content or nothing.  Each operation takes what the system makes of it, so
that a program that uses it can be followed through every pattern of failures.  What the
operations promise when they succeed, and what they leave alone when they fail, is all that
is said about them: no name but the ones given is ever touched, an exclusive create never
opens a file that is there, and a rename that fails has at worst removed its destination.
-/
import Mathlib.Logic.Function.Basic

namespace Lib

/-- What each name holds. -/
abbrev Files (ν κ : Type*) := ν → Option κ

/-- What opening a file for reading comes to. -/
inductive Opened (κ : Type*)
  | file (content : κ)
  /-- There is no such file. -/
  | absent
  | failed

/-- What the system makes of a rename. -/
inductive Renaming
  | done
  | refused
  /-- The destination is removed, and then the rename fails. -/
  | destroyed
  deriving DecidableEq

namespace Files

variable {ν κ : Type*} [DecidableEq ν]

/-- A file is written, over what the name held. -/
def write (fs : Files ν κ) (name : ν) (content : κ) : Files ν κ :=
  Function.update fs name (some content)

def remove (fs : Files ν κ) (name : ν) : Files ν κ := Function.update fs name none

/-- Exclusive create: not of a file that is there. -/
def create (fs : Files ν κ) (ok : Bool) (name : ν) (empty : κ) : Option (Files ν κ) :=
  if (fs name).isSome ∨ ¬ok then none else some (fs.write name empty)

/-- An absent file is the only one reported absent. -/
def read (fs : Files ν κ) (ok : Bool) (name : ν) : Opened κ :=
  if ¬ok then .failed
  else
    match fs name with
    | none => .absent
    | some content => .file content

/-- The name is given up; without effect if that fails. -/
def unlink (fs : Files ν κ) (ok : Bool) (name : ν) : Files ν κ × Bool :=
  if ok ∧ (fs name).isSome then (fs.remove name, true) else (fs, false)

/-- `src` takes the place of `dst`. -/
def rename (fs : Files ν κ) (outcome : Renaming) (src dst : ν) : Files ν κ × Bool :=
  match outcome, fs src with
  | .done, some content => ((fs.remove src).write dst content, true)
  | .destroyed, _ => (fs.remove dst, false)
  | _, _ => (fs, false)

variable {fs : Files ν κ} {name other : ν} {content : κ}

/-! ### What an operation writes -/

@[simp] theorem write_self : fs.write name content name = some content :=
  Function.update_self _ _ _

@[simp] theorem remove_self : fs.remove name name = none := Function.update_self _ _ _

theorem create_some {ok : Bool} {fs' : Files ν κ} (h : fs.create ok name content = some fs') :
    fs name = none ∧ fs' = fs.write name content := by
  unfold create at h
  split at h
  · cases h
  · rename_i hfree
    obtain ⟨habsent, -⟩ := not_or.mp hfree
    exact ⟨by simpa using habsent, (Option.some.inj h).symm⟩

theorem unlink_true {ok : Bool} (h : (fs.unlink ok name).2 = true) :
    (fs.unlink ok name).1 = fs.remove name := by
  unfold unlink at h ⊢
  split
  · rfl
  · rename_i hno
    rw [if_neg hno] at h
    cases h

theorem unlink_false {ok : Bool} (h : (fs.unlink ok name).2 = false) :
    (fs.unlink ok name).1 = fs := by
  unfold unlink at h ⊢
  split
  · rename_i hyes
    rw [if_pos hyes] at h
    cases h
  · rfl

/-- **A rename that succeeds moves the content.** -/
theorem rename_true {outcome : Renaming} {src dst : ν} (h : (fs.rename outcome src dst).2 = true) :
    ∃ content, fs src = some content ∧
      (fs.rename outcome src dst).1 = (fs.remove src).write dst content := by
  unfold rename at h ⊢
  cases outcome with
  | done =>
      cases hsrc : fs src with
      | none =>
          rw [hsrc] at h
          cases h
      | some content => exact ⟨content, rfl, rfl⟩
  | refused => cases h
  | destroyed => cases h

/-! ### What an operation leaves alone -/

theorem write_of_ne (h : other ≠ name) : fs.write name content other = fs other :=
  Function.update_of_ne h _ _

theorem remove_of_ne (h : other ≠ name) : fs.remove name other = fs other :=
  Function.update_of_ne h _ _

theorem unlink_of_ne {ok : Bool} (h : other ≠ name) : (fs.unlink ok name).1 other = fs other := by
  unfold unlink
  split
  · exact remove_of_ne h
  · rfl

theorem rename_of_ne {outcome : Renaming} {src dst : ν} (hsrc : other ≠ src) (hdst : other ≠ dst) :
    (fs.rename outcome src dst).1 other = fs other := by
  unfold rename
  cases outcome with
  | done =>
      cases fs src with
      | none => rfl
      | some content =>
          show (fs.remove src).write dst content other = fs other
          rw [write_of_ne hdst, remove_of_ne hsrc]
  | refused => rfl
  | destroyed => exact remove_of_ne hdst

end Files

end Lib
