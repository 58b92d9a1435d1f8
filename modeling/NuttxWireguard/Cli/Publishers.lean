/-
Several processes that write one configuration file.

`wg set private-key` records the key in the file, and `wg saveconf` writes the file anew
with the key it finds there.  Each reads the configuration, stages what it makes of it and
publishes that.  Between its steps any of the others may run; every file operation is
atomic, and none fails for a reason of its own.

A stream stays with the file it was opened on, and no file is written once it has been
published, so what a process reads is what stood there when it opened the file.
-/
import NuttxWireguard.Cli.Publish
import NuttxWireguard.Cli.ReadBack
import NuttxWireguard.Lib.Run

namespace NuttxWireguard.Cli

open Lib Kernel

/-! ### The processes -/

/-- What a process has to do. -/
inductive Job
  /-- `wg_record_private_key`. -/
  | record (key : Text)
  /-- `wg_cmd_saveconf`, with what the driver reports to it, if it answers. -/
  | saveconf (report : Option (IfInfo × List PeerInfo))

/-- What a job makes of the configuration. -/
def Job.apply : Job → Option Text → Option Text
  | .record key, file => some (wgRecordPrivateKey key file)
  | .saveconf report, file => do
    let key ← file.bind wgFilePrivateKey
    let (ifr, peers) ← report
    some (wgWriteConf ifr peers key)

/-- How far a process has come. -/
inductive Stage
  | start
  /-- `wg_record_private_key` has its temporary. -/
  | opened (suffix : List.Vector Char 6)
  /-- It has opened the configuration, if there is one. -/
  | oldRead (suffix : List.Vector Char 6) (old : Option Text)
  /-- `wg_cmd_saveconf` knows the private key. -/
  | keyRead (key : Text)
  | keyOpened (key : Text) (suffix : List.Vector Char 6)
  /-- `wg_write_conf` failed. -/
  | unwritten (suffix : List.Vector Char 6)
  /-- The new content stands in the temporary; `wg_replace_file` is called. -/
  | staged (suffix : List.Vector Char 6)
  /-- It cannot reserve the backup. -/
  | barred (suffix : List.Vector Char 6)
  /-- It has created the backup. -/
  | reserved (suffix : List.Vector Char 6)
  | copying (suffix : List.Vector Char 6) (old : Option Text)
  | copied (suffix : List.Vector Char 6)
  | renamed
  /-- It has returned; with zero? -/
  | returned (ok : Bool)
  deriving DecidableEq

section Step

variable (job : Job) (path : Text) (suffix : List.Vector Char 6) (fs : Files Text Text)

/-- `wg_open_temp`, where `mkstemp` comes upon `suffix`. -/
def wgOpenTemp (next : Stage) : Option (Files Text Text × Stage) :=
  if (tempName path suffix).length ≥ 128 then some (fs, .returned false)
  else (fs.create true (tempName path suffix) []).map fun fs => (fs, next)

/-- The next file operation of a process. -/
def Stage.step : Stage → Option (Files Text Text × Stage)
  | .start =>
    match job with
    | .record _ => wgOpenTemp path suffix fs (.opened suffix)
    | .saveconf _ =>
      match (fs path).bind wgFilePrivateKey with
      | none => some (fs, .returned false)
      | some key => some (fs, .keyRead key)
  | .opened suffix => some (fs, .oldRead suffix (fs path))
  | .oldRead suffix old =>
    match job with
    | .record key => some (fs.write (tempName path suffix) (wgRecordPrivateKey key old), .staged suffix)
    | .saveconf _ => none
  | .keyRead key => wgOpenTemp path suffix fs (.keyOpened key suffix)
  | .keyOpened key suffix =>
    match job with
    | .record _ => none
    | .saveconf none => some (fs, .unwritten suffix)
    | .saveconf (some (ifr, peers)) =>
      some (fs.write (tempName path suffix) (wgWriteConf ifr peers key), .staged suffix)
  | .unwritten suffix => some ((fs.unlink true (tempName path suffix)).1, .returned false)
  | .staged suffix =>
    if (backupName path).length ≥ 160 then some (fs, .barred suffix)
    else
      match fs.create true (backupName path) [] with
      | none => some (fs, .barred suffix)
      | some fs => some (fs, .reserved suffix)
  | .barred suffix => some ((fs.unlink true (tempName path suffix)).1, .returned false)
  | .reserved suffix => some (fs, .copying suffix (fs path))
  | .copying suffix old => some (fs.write (backupName path) (old.getD []), .copied suffix)
  | .copied suffix =>
    let (fs, ok) := fs.rename .done (tempName path suffix) path
    some (fs, if ok then .renamed else .returned false)
  | .renamed =>
    let (fs, ok) := fs.unlink true (backupName path)
    some (fs, .returned ok)
  | .returned _ => none

end Step

/-- The directory and the processes. -/
structure Writers (ι : Type*) where
  files : Files Text Text
  stage : ι → Stage

/-- A process is scheduled; should it call `mkstemp`, that comes upon this suffix. -/
structure Scheduled (ι : Type*) where
  proc : ι
  suffix : List.Vector Char 6

section Writers

variable {ι : Type*} [DecidableEq ι] (jobs : ι → Job) (path : Text)

/-- One file operation of one process. -/
def Writers.step (s : Writers ι) (e : Scheduled ι) : Option (Writers ι) :=
  ((s.stage e.proc).step (jobs e.proc) path e.suffix s.files).map fun r =>
    ⟨r.1, Function.update s.stage e.proc r.2⟩

/-- No process has done anything yet. -/
def Writers.initial (files : Files Text Text) : Writers ι := ⟨files, fun _ => .start⟩

/-- The jobs done one after the other, each of them with success. -/
def serially (order : List ι) (file : Option Text) : Option (Option Text) :=
  order.foldlM (fun file i => ((jobs i).apply file).map some) file

end Writers

/-! ### What a process holds -/

namespace Stage

/-- The name of its temporary. -/
def temp : Stage → Option (List.Vector Char 6)
  | .opened suffix | .oldRead suffix _ | .keyOpened _ suffix | .unwritten suffix | .staged suffix
  | .barred suffix | .reserved suffix | .copying suffix _ | .copied suffix => some suffix
  | .start | .keyRead _ | .renamed | .returned _ => none

/-- Its content is staged, and it has yet to reserve the backup. -/
def ready : Stage → Option (List.Vector Char 6)
  | .staged suffix => some suffix
  | _ => none

/-- It has the backup, and has yet to rename. -/
def saving : Stage → Option (List.Vector Char 6)
  | .reserved suffix | .copying suffix _ | .copied suffix => some suffix
  | _ => none

/-- Its content is in place. -/
def published (stage : Stage) : Prop := stage = .renamed ∨ stage = .returned true

/-- The backup is its own. -/
def holds (stage : Stage) : Prop := stage.saving.isSome ∨ stage = .renamed

/-- It has neither the backup nor its content in place. -/
def aside : Stage → Prop
  | .reserved _ | .copying _ _ | .copied _ | .renamed | .returned true => False
  | _ => True

theorem not_holds_of_aside {stage : Stage} (h : stage.aside) : ¬stage.holds := by
  rintro (hsaving | rfl)
  · cases stage <;> first | exact h | cases hsaving
  · exact h

theorem not_published_of_aside {stage : Stage} (h : stage.aside) : ¬stage.published := by
  rintro (rfl | rfl) <;> exact h

theorem holds_of_saving {stage : Stage} {suffix : List.Vector Char 6}
    (h : stage.saving = some suffix) : stage.holds := by
  refine Or.inl ?_
  rw [h]
  rfl

theorem temp_of_saving {stage : Stage} {suffix : List.Vector Char 6}
    (h : stage.saving = some suffix) : stage.temp = some suffix := by
  cases stage <;> first | exact h | cases h

end Stage

/-! ### What one step does -/

section Moves

variable {job : Job} {path : Text} {suffix : List.Vector Char 6} {fs fs' : Files Text Text}
variable {stage stage' : Stage}

/-- What one step does to the files, and to what the process holds. -/
inductive Move (path : Text) (fs : Files Text Text) (stage : Stage) :
    Files Text Text → Stage → Prop
  /-- It works on its temporary, before it has the backup or after it has failed. -/
  | stages {fs' : Files Text Text} {stage' : Stage} (hbefore : stage.aside)
      (hafter : stage'.aside)
      (hothers : ∀ name, (∀ suffix, stage.temp = some suffix ∨ stage'.temp = some suffix →
        name ≠ tempName path suffix) → fs' name = fs name)
      (htemp : ∀ suffix, stage'.temp = some suffix →
        stage.temp = some suffix ∧
          (fs (tempName path suffix) ≠ none → fs' (tempName path suffix) ≠ none) ∨
        fs (tempName path suffix) = none ∧ fs' (tempName path suffix) ≠ none) :
      Move path fs stage fs' stage'
  | reserves {suffix : List.Vector Char 6} (hstage : stage = .staged suffix)
      (hfree : fs (backupName path) = none) :
      Move path fs stage (fs.write (backupName path) []) (.reserved suffix)
  | opens {suffix : List.Vector Char 6} (hstage : stage = .reserved suffix) :
      Move path fs stage fs (.copying suffix (fs path))
  | saves {suffix : List.Vector Char 6} {old : Option Text} (hstage : stage = .copying suffix old) :
      Move path fs stage (fs.write (backupName path) (old.getD [])) (.copied suffix)
  | publishes {suffix : List.Vector Char 6} {content : Text} (hstage : stage = .copied suffix)
      (hstaged : fs (tempName path suffix) = some content) :
      Move path fs stage ((fs.remove (tempName path suffix)).write path content) .renamed
  | releases (hstage : stage = .renamed) :
      Move path fs stage (fs.remove (backupName path)) (.returned true)

/-- What the process relies on is not there. -/
def Lost (path : Text) (fs : Files Text Text) (stage : Stage) : Prop :=
  (∃ suffix, stage = .copied suffix ∧ fs (tempName path suffix) = none) ∨
    stage = .renamed ∧ fs (backupName path) = none

/-- A step that leaves the files alone. -/
theorem Move.quiet (hbefore : stage.aside) (hafter : stage'.aside)
    (htemp : ∀ suffix, stage'.temp = some suffix → stage.temp = some suffix) :
    Move path fs stage fs stage' :=
  .stages hbefore hafter (fun _ _ => rfl) fun suffix h => Or.inl ⟨htemp suffix h, id⟩

/-- It gets a temporary that was not there, or gives up. -/
theorem Move.openTemp {next : Stage} (h : wgOpenTemp path suffix fs next = some (fs', stage'))
    (htemp : next.temp = some suffix) (hbefore : stage.aside) (hnext : next.aside) :
    Move path fs stage fs' stage' := by
  unfold wgOpenTemp at h
  split at h
  · cases h
    exact .quiet hbefore trivial fun _ hc => (by cases hc)
  · obtain ⟨fs₁, hcreate, hr⟩ := Option.map_eq_some_iff.mp h
    cases hr
    obtain ⟨hfresh, rfl⟩ := Files.create_some hcreate
    refine .stages hbefore hnext (fun name hname => ?_) fun suffix' h => ?_
    · exact Files.write_of_ne (hname suffix (Or.inr htemp))
    · cases htemp.symm.trans h
      refine Or.inr ⟨hfresh, ?_⟩
      rw [Files.write_self]
      exact Option.some_ne_none []

/-- It writes its temporary. -/
theorem Move.write (htemp : stage.temp = some suffix) (htemp' : stage'.temp = some suffix)
    (hbefore : stage.aside) (hafter : stage'.aside) {content : Text} :
    Move path fs stage (fs.write (tempName path suffix) content) stage' := by
  refine .stages hbefore hafter (fun name hname => ?_) fun suffix' h => ?_
  · exact Files.write_of_ne (hname suffix (Or.inl htemp))
  · cases htemp'.symm.trans h
    refine Or.inl ⟨htemp, fun _ => ?_⟩
    rw [Files.write_self]
    exact Option.some_ne_none content

/-- It gives its temporary up. -/
theorem Move.unlink (hbefore : stage.aside) (htemp : stage.temp = some suffix) :
    Move path fs stage (fs.unlink true (tempName path suffix)).1 (.returned false) := by
  refine .stages hbefore trivial (fun name hname => ?_) fun suffix' h => ?_
  · exact Files.unlink_of_ne (hname suffix (Or.inl htemp))
  · cases h

/-- **Every step is one of these.** -/
theorem step_move (h : stage.step job path suffix fs = some (fs', stage')) :
    Move path fs stage fs' stage' ∨ Lost path fs stage := by
  cases stage with
  | start =>
      cases job with
      | record key => exact Or.inl (.openTemp h rfl trivial trivial)
      | saveconf report =>
          unfold Stage.step at h
          dsimp only at h
          split at h
          · cases h
            exact Or.inl (.quiet trivial trivial fun _ hc => (by cases hc))
          · cases h
            exact Or.inl (.quiet trivial trivial fun _ hc => (by cases hc))
  | opened suffix =>
      cases h
      exact Or.inl (.quiet trivial trivial fun _ => id)
  | oldRead suffix old =>
      cases job with
      | record key =>
          cases h
          exact Or.inl (.write rfl rfl (by trivial) (by trivial))
      | saveconf report => cases h
  | keyRead key => exact Or.inl (.openTemp h rfl trivial trivial)
  | keyOpened key suffix =>
      cases job with
      | record key => cases h
      | saveconf report =>
          cases report with
          | none =>
              cases h
              exact Or.inl (.quiet trivial trivial fun _ => id)
          | some report =>
              cases h
              exact Or.inl (.write rfl rfl (by trivial) (by trivial))
  | unwritten suffix =>
      cases h
      exact Or.inl (.unlink trivial rfl)
  | staged suffix =>
      unfold Stage.step at h
      dsimp only at h
      split at h
      · cases h
        exact Or.inl (.quiet trivial trivial fun _ => id)
      · split at h
        · cases h
          exact Or.inl (.quiet trivial trivial fun _ => id)
        · rename_i fs₁ hcreate
          cases h
          obtain ⟨hfree, rfl⟩ := Files.create_some hcreate
          exact Or.inl (.reserves rfl hfree)
  | barred suffix =>
      cases h
      exact Or.inl (.unlink trivial rfl)
  | reserved suffix =>
      cases h
      exact Or.inl (.opens rfl)
  | copying suffix old =>
      cases h
      exact Or.inl (.saves rfl)
  | copied suffix =>
      cases hstaged : fs (tempName path suffix) with
      | none => exact Or.inr (Or.inl ⟨suffix, rfl, hstaged⟩)
      | some content =>
          simp only [Stage.step, Files.rename, hstaged] at h
          cases h
          exact Or.inl (.publishes rfl hstaged)
  | renamed =>
      cases hbackup : fs (backupName path) with
      | none => exact Or.inr (Or.inr ⟨rfl, hbackup⟩)
      | some content =>
          simp only [Stage.step, Files.unlink, hbackup] at h
          cases h
          exact Or.inl (.releases rfl)
  | returned ok => cases h

/-! ### What a step keeps -/

theorem tempName_inj {suffix suffix' : List.Vector Char 6}
    (h : tempName path suffix = tempName path suffix') : suffix = suffix' :=
  List.Vector.eq _ _ (List.append_cancel_left h)

/-- A temporary is kept, or was not there. -/
theorem Move.temp (h : Move path fs stage fs' stage') (htemp : stage'.temp = some suffix) :
    stage.temp = some suffix ∧
        (fs (tempName path suffix) ≠ none → fs' (tempName path suffix) ≠ none) ∨
      fs (tempName path suffix) = none ∧ fs' (tempName path suffix) ≠ none := by
  cases h with
  | stages _ _ _ htemps => exact htemps suffix htemp
  | reserves hstage _ =>
      subst hstage
      rw [Files.write_of_ne (tempName_ne_backupName path suffix)]
      exact Or.inl ⟨htemp, id⟩
  | opens hstage =>
      subst hstage
      exact Or.inl ⟨htemp, id⟩
  | saves hstage =>
      subst hstage
      rw [Files.write_of_ne (tempName_ne_backupName path suffix)]
      exact Or.inl ⟨htemp, id⟩
  | publishes => cases htemp
  | releases => cases htemp

/-- The temporaries of others are left alone. -/
theorem Move.frame (h : Move path fs stage fs' stage') (hnot : stage.temp ≠ some suffix)
    (hthere : fs (tempName path suffix) ≠ none) :
    fs' (tempName path suffix) = fs (tempName path suffix) := by
  cases h with
  | stages _ _ hothers htemps =>
      refine hothers _ fun suffix' hsuffix hname => ?_
      cases tempName_inj hname
      rcases hsuffix with hold | hnew
      · exact hnot hold
      · rcases htemps suffix hnew with ⟨hold, -⟩ | ⟨hfresh, -⟩
        · exact hnot hold
        · exact hthere hfresh
  | reserves => exact Files.write_of_ne (tempName_ne_backupName path suffix)
  | opens => rfl
  | saves => exact Files.write_of_ne (tempName_ne_backupName path suffix)
  | @publishes own content hstage hstaged =>
      have hne : tempName path suffix ≠ tempName path own := by
        intro hname
        rw [hstage] at hnot
        exact hnot (congrArg some (tempName_inj hname).symm)
      rw [Files.write_of_ne (tempName_ne path suffix), Files.remove_of_ne hne]
  | releases => exact Files.remove_of_ne (tempName_ne_backupName path suffix)

/-- The backup of another is left alone. -/
theorem Move.backup_frame (h : Move path fs stage fs' stage') (hnot : ¬stage.holds)
    (hthere : fs (backupName path) ≠ none) : fs' (backupName path) = fs (backupName path) := by
  cases h with
  | stages _ _ hothers _ =>
      exact hothers _ fun suffix _ hname => tempName_ne_backupName path suffix hname.symm
  | reserves _ hfree => exact absurd hfree hthere
  | opens => rfl
  | saves hstage => exact absurd (Or.inl (by rw [hstage]; rfl)) hnot
  | publishes hstage _ => exact absurd (Or.inl (by rw [hstage]; rfl)) hnot
  | releases hstage => exact absurd (Or.inr hstage) hnot

/-- The backup is there as long as the process has it, and was not before. -/
theorem Move.backup (h : Move path fs stage fs' stage') (hholds : stage'.holds) :
    stage.holds ∧ (fs (backupName path) ≠ none → fs' (backupName path) ≠ none) ∨
      fs (backupName path) = none ∧ fs' (backupName path) ≠ none := by
  cases h with
  | stages _ hafter => exact absurd hholds (Stage.not_holds_of_aside hafter)
  | reserves _ hfree =>
      refine Or.inr ⟨hfree, ?_⟩
      rw [Files.write_self]
      exact Option.some_ne_none []
  | opens hstage => exact Or.inl ⟨Or.inl (by rw [hstage]; rfl), id⟩
  | saves hstage =>
      refine Or.inl ⟨Or.inl (by rw [hstage]; rfl), fun _ => ?_⟩
      rw [Files.write_self]
      exact Option.some_ne_none _
  | @publishes suffix content hstage hstaged =>
      refine Or.inl ⟨Or.inl (by rw [hstage]; rfl), fun hthere => ?_⟩
      rw [Files.write_of_ne (backupName_ne path),
        Files.remove_of_ne (tempName_ne_backupName path suffix).symm]
      exact hthere
  | releases =>
      rcases hholds with hc | hc
      · cases hc
      · cases hc

/-- **Only a process that has the backup publishes**, and what it publishes is what it staged. -/
theorem Move.publication (h : Move path fs stage fs' stage') :
    fs' path = fs path ∧ (stage'.published ↔ stage.published) ∨
      ∃ suffix content, stage = .copied suffix ∧ stage' = .renamed ∧
        fs (tempName path suffix) = some content ∧ fs' path = some content := by
  cases h with
  | stages hbefore hafter hothers _ =>
      refine Or.inl ⟨hothers _ fun suffix _ hname => tempName_ne path suffix hname.symm, ?_⟩
      exact ⟨fun h => absurd h (Stage.not_published_of_aside hafter),
        fun h => absurd h (Stage.not_published_of_aside hbefore)⟩
  | reserves hstage _ =>
      subst hstage
      exact Or.inl ⟨Files.write_of_ne (backupName_ne path).symm, by simp [Stage.published]⟩
  | opens hstage =>
      subst hstage
      exact Or.inl ⟨rfl, by simp [Stage.published]⟩
  | saves hstage =>
      subst hstage
      exact Or.inl ⟨Files.write_of_ne (backupName_ne path).symm, by simp [Stage.published]⟩
  | @publishes suffix content hstage hstaged =>
      exact Or.inr ⟨suffix, content, hstage, rfl, hstaged, Files.write_self⟩
  | releases hstage =>
      subst hstage
      exact Or.inl ⟨Files.remove_of_ne (backupName_ne path).symm, by simp [Stage.published]⟩

/-- A process that is about to publish was so before, or has just reserved the backup. -/
theorem Move.saving (h : Move path fs stage fs' stage') (hsaving : stage'.saving = some suffix) :
    fs' (tempName path suffix) = fs (tempName path suffix) ∧ fs' path = fs path ∧
      (stage.saving = some suffix ∨
        stage = .staged suffix ∧ fs (backupName path) = none) := by
  cases h with
  | stages _ hafter =>
      exact absurd (Stage.holds_of_saving hsaving) (Stage.not_holds_of_aside hafter)
  | reserves hstage hfree =>
      cases hsaving
      exact ⟨Files.write_of_ne (tempName_ne_backupName path suffix),
        Files.write_of_ne (backupName_ne path).symm, Or.inr ⟨hstage, hfree⟩⟩
  | opens hstage =>
      cases hsaving
      exact ⟨rfl, rfl, Or.inl (by rw [hstage]; rfl)⟩
  | saves hstage =>
      cases hsaving
      exact ⟨Files.write_of_ne (tempName_ne_backupName path suffix),
        Files.write_of_ne (backupName_ne path).symm, Or.inl (by rw [hstage]; rfl)⟩
  | publishes => cases hsaving
  | releases => cases hsaving

end Moves

/-! ### What holds in every run -/

section Invariant

variable {ι : Type*} {jobs : ι → Job} {path : Text} {original : Files Text Text}

/-- What holds of the processes and of the files they work on. -/
structure Orderly (jobs : ι → Job) (path : Text) (original : Files Text Text) (s : Writers ι) :
    Prop where
  temps : ∀ i suffix, (s.stage i).temp = some suffix → s.files (tempName path suffix) ≠ none
  /-- No two have the same temporary. -/
  apart : ∀ i j suffix, (s.stage i).temp = some suffix → (s.stage j).temp = some suffix → i = j
  held : ∀ i, (s.stage i).holds → s.files (backupName path) ≠ none
  /-- One of them has the backup at a time. -/
  alone : ∀ i j, (s.stage i).holds → (s.stage j).holds → i = j
  /-- What it is about to publish is what its job makes of the configuration. -/
  current : ∀ i suffix, (s.stage i).saving = some suffix →
    s.files (tempName path suffix) = (jobs i).apply (s.files path)
  /-- What was published, was so one after the other. -/
  serial : ∃ order : List ι, order.Nodup ∧ (∀ i, i ∈ order ↔ (s.stage i).published) ∧
    serially jobs order (original path) = some (s.files path)

/-- What the step's process has staged, when it reserves the backup, is what its job makes of
the configuration that is there. -/
def Current (jobs : ι → Job) (path : Text) (t : Taken (Writers ι) (Scheduled ι)) : Prop :=
  ∀ suffix ∈ (t.before.stage t.event.proc).ready, t.before.files (backupName path) = none →
    t.before.files (tempName path suffix) = (jobs t.event.proc).apply (t.before.files path)

instance (jobs : ι → Job) (path : Text) : DecidablePred (Current jobs path) :=
  fun _ => inferInstanceAs (Decidable (∀ _ ∈ _, _ → _))

theorem Writers.initial_orderly : Orderly jobs path original (Writers.initial original) where
  temps _ _ h := by cases h
  apart _ _ _ h _ := by cases h
  held _ h := by
    rcases h with h | h
    · cases h
    · cases h
  alone _ _ h _ := by
    rcases h with h | h
    · cases h
    · cases h
  current _ _ h := by cases h
  serial := by
    refine ⟨[], List.nodup_nil, fun i => ⟨fun h => (by cases h), fun h => ?_⟩, rfl⟩
    rcases h with h | h
    · cases h
    · cases h

/-- What a step of the system does, for the process that takes it. -/
theorem step_files [DecidableEq ι] {s s' : Writers ι} {e : Scheduled ι} (h : s.step jobs path e = some s') :
    ∃ stage', (s.stage e.proc).step (jobs e.proc) path e.suffix s.files = some (s'.files, stage') ∧
      s'.stage = Function.update s.stage e.proc stage' := by
  obtain ⟨⟨files, stage'⟩, hstep, rfl⟩ := Option.map_eq_some_iff.mp h
  exact ⟨stage', hstep, rfl⟩

/-- What a process relies on is there. -/
theorem Orderly.not_lost {s : Writers ι} (h : Orderly jobs path original s) (i : ι) :
    ¬Lost path s.files (s.stage i) := by
  rintro (⟨suffix, hstage, hgone⟩ | ⟨hstage, hgone⟩)
  · exact h.temps i suffix (by rw [hstage]; rfl) hgone
  · exact h.held i (Or.inr hstage) hgone

theorem step_is_move [DecidableEq ι] {s s' : Writers ι} {e : Scheduled ι} (h : Orderly jobs path original s)
    (hstep : s.step jobs path e = some s') :
    Move path s.files (s.stage e.proc) s'.files (s'.stage e.proc) ∧
      ∀ j, j ≠ e.proc → s'.stage j = s.stage j := by
  obtain ⟨stage', hproc, hstage⟩ := step_files hstep
  rw [hstage, Function.update_self]
  refine ⟨?_, fun j hj => Function.update_of_ne hj _ _⟩
  rcases step_move hproc with hmove | hlost
  · exact hmove
  · exact absurd hlost (h.not_lost e.proc)

section Step

variable {s s' : Writers ι} {i : ι}

/-- The others' temporaries. -/
theorem Orderly.frame (h : Orderly jobs path original s)
    (hmove : Move path s.files (s.stage i) s'.files (s'.stage i)) {j : ι} (hj : j ≠ i)
    {suffix : List.Vector Char 6} (htemp : (s.stage j).temp = some suffix) :
    s'.files (tempName path suffix) = s.files (tempName path suffix) :=
  hmove.frame (fun hc => hj (h.apart j i suffix htemp hc)) (h.temps j suffix htemp)

/-- The others do not have the backup, if one has it. -/
theorem Orderly.not_holds (h : Orderly jobs path original s) {j : ι} (hj : j ≠ i)
    (hholds : (s.stage j).holds) : ¬(s.stage i).holds :=
  fun hc => hj (h.alone j i hholds hc)

theorem Orderly.temps_step (h : Orderly jobs path original s)
    (hmove : Move path s.files (s.stage i) s'.files (s'.stage i))
    (hothers : ∀ j, j ≠ i → s'.stage j = s.stage j) (j : ι) (suffix : List.Vector Char 6)
    (htemp : (s'.stage j).temp = some suffix) : s'.files (tempName path suffix) ≠ none := by
  by_cases hj : j = i
  · subst hj
    rcases hmove.temp htemp with ⟨hold, hkept⟩ | ⟨-, hnew⟩
    · exact hkept (h.temps j suffix hold)
    · exact hnew
  · rw [hothers j hj] at htemp
    rw [h.frame hmove hj htemp]
    exact h.temps j suffix htemp

theorem Orderly.apart_step (h : Orderly jobs path original s)
    (hmove : Move path s.files (s.stage i) s'.files (s'.stage i))
    (hothers : ∀ j, j ≠ i → s'.stage j = s.stage j) {j : ι} (hj : j ≠ i)
    {suffix : List.Vector Char 6} (hi : (s'.stage i).temp = some suffix) :
    (s'.stage j).temp ≠ some suffix := by
  intro htemp
  rw [hothers j hj] at htemp
  rcases hmove.temp hi with ⟨hold, -⟩ | ⟨hfresh, -⟩
  · exact hj (h.apart j i suffix htemp hold)
  · exact h.temps j suffix htemp hfresh

theorem Orderly.held_step (h : Orderly jobs path original s)
    (hmove : Move path s.files (s.stage i) s'.files (s'.stage i))
    (hothers : ∀ j, j ≠ i → s'.stage j = s.stage j) (j : ι) (hholds : (s'.stage j).holds) :
    s'.files (backupName path) ≠ none := by
  by_cases hj : j = i
  · subst hj
    rcases hmove.backup hholds with ⟨hold, hkept⟩ | ⟨-, hnew⟩
    · exact hkept (h.held j hold)
    · exact hnew
  · rw [hothers j hj] at hholds
    rw [hmove.backup_frame (h.not_holds hj hholds) (h.held j hholds)]
    exact h.held j hholds

theorem Orderly.alone_step (h : Orderly jobs path original s)
    (hmove : Move path s.files (s.stage i) s'.files (s'.stage i))
    (hothers : ∀ j, j ≠ i → s'.stage j = s.stage j) {j : ι} (hj : j ≠ i)
    (hi : (s'.stage i).holds) : ¬(s'.stage j).holds := by
  intro hholds
  rw [hothers j hj] at hholds
  rcases hmove.backup hi with ⟨hold, -⟩ | ⟨hfree, -⟩
  · exact hj (h.alone j i hholds hold)
  · exact h.held j hholds hfree

theorem Orderly.current_step (h : Orderly jobs path original s)
    (hmove : Move path s.files (s.stage i) s'.files (s'.stage i))
    (hothers : ∀ j, j ≠ i → s'.stage j = s.stage j)
    (hcurrent : ∀ suffix ∈ (s.stage i).ready, s.files (backupName path) = none →
      s.files (tempName path suffix) = (jobs i).apply (s.files path))
    (j : ι) (suffix : List.Vector Char 6) (hsaving : (s'.stage j).saving = some suffix) :
    s'.files (tempName path suffix) = (jobs j).apply (s'.files path) := by
  by_cases hj : j = i
  · subst hj
    obtain ⟨htemp, hpath, hwas⟩ := hmove.saving hsaving
    rw [htemp, hpath]
    rcases hwas with hwas | ⟨hstaged, hfree⟩
    · exact h.current j suffix hwas
    · exact hcurrent suffix (by rw [hstaged]; rfl) hfree
  · rw [hothers j hj] at hsaving
    rw [h.frame hmove hj (Stage.temp_of_saving hsaving), h.current j suffix hsaving]
    rcases hmove.publication with ⟨hpath, -⟩ | ⟨own, content, hcopied, -⟩
    · rw [hpath]
    · exact absurd (Or.inl (by rw [hcopied]; rfl))
        (h.not_holds hj (Stage.holds_of_saving hsaving))

theorem Orderly.serial_step (h : Orderly jobs path original s)
    (hmove : Move path s.files (s.stage i) s'.files (s'.stage i))
    (hothers : ∀ j, j ≠ i → s'.stage j = s.stage j) :
    ∃ order : List ι, order.Nodup ∧ (∀ j, j ∈ order ↔ (s'.stage j).published) ∧
      serially jobs order (original path) = some (s'.files path) := by
  obtain ⟨order, hnodup, hmem, hserial⟩ := h.serial
  rcases hmove.publication with ⟨hpath, hsame⟩ | ⟨suffix, content, hcopied, hrenamed, hstaged, hpath⟩
  · refine ⟨order, hnodup, fun j => ?_, by rw [hpath, hserial]⟩
    rw [hmem j]
    by_cases hj : j = i
    · rw [hj]
      exact hsame.symm
    · rw [hothers j hj]
  · have hnew : i ∉ order := by
      rw [hmem i, hcopied]
      simp [Stage.published]
    refine ⟨order ++ [i], ?_, fun j => ?_, ?_⟩
    · exact List.nodup_append.mpr ⟨hnodup, List.nodup_singleton i, by
        intro a ha b hb hab
        rw [List.mem_singleton] at hb
        exact hnew (hb ▸ hab ▸ ha)⟩
    · rw [List.mem_append, List.mem_singleton, hmem j]
      by_cases hj : j = i
      · subst hj
        simp [hrenamed, Stage.published]
      · rw [hothers j hj]
        simp [hj]
    · have happly := h.current i suffix (by rw [hcopied]; rfl)
      unfold serially at hserial ⊢
      rw [List.foldlM_append, hserial, hpath]
      simp [← happly, hstaged]

/-- **A step keeps the order**, if what is being published is current. -/
theorem step_orderly [DecidableEq ι] {e : Scheduled ι} (hstep : s.step jobs path e = some s')
    (hcurrent : Current jobs path ⟨s, e, s'⟩) (h : Orderly jobs path original s) :
    Orderly jobs path original s' := by
  obtain ⟨hmove, hothers⟩ := step_is_move h hstep
  exact {
    temps := h.temps_step hmove hothers
    apart := by
      intro j k suffix hj hk
      by_contra hne
      by_cases hji : j = e.proc
      · subst hji
        exact h.apart_step hmove hothers (Ne.symm hne) hj hk
      · by_cases hki : k = e.proc
        · subst hki
          exact h.apart_step hmove hothers hne hk hj
        · rw [hothers j hji] at hj
          rw [hothers k hki] at hk
          exact hne (h.apart j k suffix hj hk)
    held := h.held_step hmove hothers
    alone := by
      intro j k hj hk
      by_contra hne
      by_cases hji : j = e.proc
      · subst hji
        exact h.alone_step hmove hothers (Ne.symm hne) hj hk
      · by_cases hki : k = e.proc
        · subst hki
          exact h.alone_step hmove hothers hne hk hj
        · rw [hothers j hji] at hj
          rw [hothers k hki] at hk
          exact hne (h.alone j k hj hk)
    current := h.current_step hmove hothers hcurrent
    serial := h.serial_step hmove hothers }

end Step

/-- What a step publishes is what its job makes of the configuration it finds. -/
theorem Orderly.published_step [DecidableEq ι] {s s' : Writers ι} {e : Scheduled ι}
    (h : Orderly jobs path original s) (hstep : s.step jobs path e = some s') :
    s'.files path = s.files path ∨ ∃ content,
      (jobs e.proc).apply (s.files path) = some content ∧ s'.files path = some content := by
  rcases (step_is_move h hstep).1.publication with
    ⟨hpath, -⟩ | ⟨suffix, content, hcopied, -, hstaged, hpath⟩
  · exact Or.inl hpath
  · refine Or.inr ⟨content, ?_, hpath⟩
    rw [← hstaged]
    exact (h.current e.proc suffix (by rw [hcopied]; rfl)).symm

/-- A `saveconf` by itself keeps the private key of the file. -/
theorem Job.saveconf_privateKey {report : Option (IfInfo × List PeerInfo)} {file : Option Text}
    {content : Text} (h : (Job.saveconf report).apply file = some content) :
    wgFilePrivateKey content = file.bind wgFilePrivateKey := by
  obtain ⟨key, hkey, h⟩ := Option.bind_eq_some_iff.mp h
  obtain ⟨⟨ifr, peers⟩, -, h⟩ := Option.bind_eq_some_iff.mp h
  cases h
  obtain ⟨old, -, hold⟩ := Option.bind_eq_some_iff.mp hkey
  rw [hkey]
  exact wgFilePrivateKey_writeConf (wgFilePrivateKey_text hold) ifr peers

/-- **Publishers whose staged contents are current act one after the other.**  In a run of any
number of processes in which every one that reserves the backup has staged what its job makes
of the configuration then in place, the content at any time is what the jobs published so far
make of the original one in some order, the ones that returned zero among them; each content
that is published is made of the one it replaces; and no `saveconf` brings an older private
key back. -/
theorem publishers_serial [DecidableEq ι] {ts : List (Taken (Writers ι) (Scheduled ι))}
    {s : Writers ι} (hrun : Run (Writers.step jobs path) (Writers.initial original) ts s)
    (hcurrent : ∀ t ∈ ts, Current jobs path t) :
    (∃ order : List ι, order.Nodup ∧
      (∀ i, i ∈ order ↔ s.stage i = .renamed ∨ s.stage i = .returned true) ∧
      serially jobs order (original path) = some (s.files path)) ∧
    (∀ t ∈ ts, t.after.files path = t.before.files path ∨ ∃ content,
      (jobs t.event.proc).apply (t.before.files path) = some content ∧
        t.after.files path = some content) ∧
    ∀ t ∈ ts, ∀ report, jobs t.event.proc = .saveconf report →
      (t.after.files path).bind wgFilePrivateKey = (t.before.files path).bind wgFilePrivateKey := by
  obtain ⟨hs, hall⟩ := hrun.invariant Writers.initial_orderly
    fun t ht hstep h => step_orderly hstep (hcurrent t ht) h
  have hpublished : ∀ t ∈ ts, t.after.files path = t.before.files path ∨ ∃ content,
      (jobs t.event.proc).apply (t.before.files path) = some content ∧
        t.after.files path = some content :=
    fun t ht => (hall t ht).1.published_step (hrun.step_of_mem ht)
  refine ⟨hs.serial, hpublished, fun t ht report hjob => ?_⟩
  rcases hpublished t ht with hsame | ⟨content, happly, hafter⟩
  · rw [hsame]
  · rw [hjob] at happly
    rw [hafter]
    exact Job.saveconf_privateKey happly

end Invariant

/-! ### A key that is recorded, and lost -/

namespace Overtaken

def path : Text := ['c']
def oldKey : Text := List.replicate 43 'A' ++ ['=']
def newKey : Text := List.replicate 43 'B' ++ ['=']

/-- The configuration gives the old key. -/
def files : Files Text Text := fun name =>
  if name = path then some (confEntry Word.privateKey oldKey) else none

def report : IfInfo := { IfReq.zero with publicKey := Bytes.zero 32, npeers := 0 }

/-- One process records the new key, the other saves the configuration. -/
def jobs : Bool → Job
  | true => .record newKey
  | false => .saveconf (some (report, []))

/-- The process `proc`, with a suffix of its own. -/
def turn (proc : Bool) : Scheduled Bool :=
  ⟨proc, List.Vector.replicate 6 (if proc then 'r' else 's')⟩

/-- The key is recorded after `saveconf` has read the old one. -/
def events : List (Scheduled Bool) :=
  turn false :: (List.replicate 8 (turn true) ++ List.replicate 7 (turn false))

/-- One of them after the other. -/
def inTurn : List (Scheduled Bool) :=
  List.replicate 8 (turn true) ++ List.replicate 8 (turn false)

def run (events : List (Scheduled Bool)) :
    Option (List (Taken (Writers Bool) (Scheduled Bool)) × Writers Bool) :=
  steps (Writers.step jobs path) (Writers.initial files) events

end Overtaken

open Overtaken in
theorem publishers_serial_inTurn :
    ∃ ts s, Run (Writers.step jobs path) (Writers.initial files) ts s ∧
      (∀ i, s.stage i = .returned true) ∧
      (∃ order : List Bool, order.Nodup ∧
        (∀ i, i ∈ order ↔ s.stage i = .renamed ∨ s.stage i = .returned true) ∧
        serially jobs order (files path) = some (s.files path)) := by
  have hsome : (Overtaken.run inTurn).isSome := by decide +kernel
  have hdone : (Overtaken.run inTurn).all fun r =>
    r.1.all (Current jobs path ·) && r.2.stage true = .returned true &&
      r.2.stage false = .returned true := by decide +kernel
  obtain ⟨⟨ts, s⟩, hrun⟩ := Option.isSome_iff_exists.mp hsome
  rw [hrun] at hdone
  simp only [Option.all_some, Bool.and_eq_true, List.all_eq_true, decide_eq_true_eq] at hdone
  obtain ⟨⟨hcurrent, htrue⟩, hfalse⟩ := hdone
  refine ⟨ts, s, .of_steps hrun, fun i => ?_, (publishers_serial (.of_steps hrun) hcurrent).1⟩
  cases i with
  | true => exact htrue
  | false => exact hfalse

open Overtaken in
/-- **Publishing is not serial**: both return zero, and in no order would the old key stay. -/
theorem not_publishers_serial_overtaken :
    ∃ ts s, Run (Writers.step jobs path) (Writers.initial files) ts s ∧
      (∀ i, s.stage i = .returned true) ∧
      (¬∃ order : List Bool, order.Nodup ∧ (∀ i, i ∈ order ↔ s.stage i = .returned true) ∧
        serially jobs order (files path) = some (s.files path)) ∧
      (s.files path).bind wgFilePrivateKey = some oldKey := by
  have hsome : (Overtaken.run events).isSome := by decide +kernel
  have hdone : (Overtaken.run events).all fun r =>
    r.2.stage true = .returned true && r.2.stage false = .returned true &&
      (r.2.files path).bind wgFilePrivateKey = some oldKey := by decide +kernel
  have horders : ∀ order ∈ [[true, false], [false, true]],
      ((serially jobs order (files path)).join.bind wgFilePrivateKey) = some newKey := by
    decide +kernel
  obtain ⟨⟨ts, s⟩, hrun⟩ := Option.isSome_iff_exists.mp hsome
  rw [hrun] at hdone
  simp only [Option.all_some, Bool.and_eq_true, decide_eq_true_eq] at hdone
  obtain ⟨⟨htrue, hfalse⟩, hkey⟩ := hdone
  have hall : ∀ i, s.stage i = .returned true := by
    intro i
    cases i with
    | true => exact htrue
    | false => exact hfalse
  refine ⟨ts, s, .of_steps hrun, hall, ?_, hkey⟩
  rintro ⟨order, hnodup, hmem, hserial⟩
  have hperm : order.Perm [true, false] := by
    refine (List.perm_ext_iff_of_nodup hnodup (by decide)).mpr fun i => ?_
    cases i <;> simp [hmem, hall]
  obtain ⟨a, b, rfl⟩ := List.length_eq_two.mp hperm.length_eq
  have horder : [a, b] ∈ [[true, false], [false, true]] := by
    cases a <;> cases b <;> simp at hnodup ⊢
  have hnew := horders _ horder
  rw [hserial] at hnew
  exact absurd (hnew.symm.trans hkey) (by decide)

end NuttxWireguard.Cli
