/-
Saving the configuration (`wg_saveconf`).

The file is opened for writing, which empties it, before anything is known of what there is to
write; and the writes are not checked, only the closing is.  So without a private key the file
is lost, an error leaves what the stream got rid of, and a write that failed before the last
one is not reported at all.
-/
import NuttxWireguard.Flat.ConfFile
import NuttxWireguard.Lib.Stream

namespace NuttxWireguard.Flat

open Lib

/-- What `wg_saveconf` returns, less its sign. -/
inductive SaveError
  | conf (err : Errno)
  /-- `errno`. -/
  | errno (code : Nat)
  deriving DecidableEq

/-- The operating system in one call. -/
structure SaveFaults where
  /-- `fopen` fails, with this `errno`. -/
  fopen : Option Nat
  stream : StreamFaults
  /-- `errno` behind `fclose`. -/
  fcloseErrno : Nat

/-- The size of the stream's buffer, which is not empty. -/
abbrev StreamSize := { size : Nat // 0 < size }

/-- The stream onto the file, with all of `text` written to it. -/
def saveStream (size : StreamSize) (faults : SaveFaults) (text : Text) : Stream Char :=
  Stream.empty.write faults.stream size text

/-- `wg_saveconf`: what stands in the file, and what it returns. -/
def wgSaveconf (size : StreamSize) (kc : Kconfig) (st : Staged) (faults : SaveFaults)
    (old : Option Text) : Option Text × Option SaveError :=
  match faults.fopen with
  | some code => (old, some (.errno code))
  | none =>
    let (text, ret) := wgWriteconf kc st
    let (file, closed) := (saveStream size faults text).close faults.stream
    let ret := ret.map SaveError.conf
    (some file, if ¬closed ∧ ret = none then some (.errno faults.fcloseErrno) else ret)

/-- Success means that all of the configuration is in the file, and an error that the file is
as it was. -/
def SavesSafely (size : StreamSize) (kc : Kconfig) (st : Staged) (faults : SaveFaults)
    (old : Option Text) : Prop :=
  ((wgSaveconf size kc st faults old).2 = none →
    (wgWriteconf kc st).2 = none ∧
      (wgSaveconf size kc st faults old).1 = some (wgWriteconf kc st).1) ∧
  ((wgSaveconf size kc st faults old).2 ≠ none → (wgSaveconf size kc st faults old).1 = old)

/-- There is no private key to write. -/
def NoKey (kc : Kconfig) (st : Staged) : Prop := wgCfgStr st.privateKey kc.privateKey = []

instance (kc : Kconfig) (st : Staged) : Decidable (NoKey kc st) :=
  inferInstanceAs (Decidable (_ = _))

theorem wgWriteconf_noKey {kc : Kconfig} {st : Staged} (h : NoKey kc st) :
    wgWriteconf kc st = ([], some .enodata) := by
  unfold wgWriteconf
  rw [h]
  rfl

theorem wgWriteconf_key {kc : Kconfig} {st : Staged} (h : ¬NoKey kc st) :
    (wgWriteconf kc st).2 = none := by
  unfold wgWriteconf
  dsimp only
  rw [if_neg fun hc => h (List.length_eq_zero_iff.mp hc)]

section Outcomes

variable {size : StreamSize} {kc : Kconfig} {st : Staged} {faults : SaveFaults} {old : Option Text}

/-- The file is opened, and then there is nothing to write to it. -/
theorem wgSaveconf_noKey (hopen : faults.fopen = none) (hkey : NoKey kc st) :
    wgSaveconf size kc st faults old = (some [], some (.conf .enodata)) := by
  have hclose : (saveStream size faults []).close faults.stream = ([], faults.stream.close) := rfl
  unfold wgSaveconf
  rw [hopen, wgWriteconf_noKey hkey]
  dsimp only
  rw [hclose]
  dsimp only
  rw [if_neg fun hc => Option.some_ne_none _ hc.2]
  rfl

/-- The configuration is written, and the stream closed. -/
theorem wgSaveconf_key (hopen : faults.fopen = none) (hkey : ¬NoKey kc st) :
    wgSaveconf size kc st faults old =
      (some ((saveStream size faults (wgWriteconf kc st).1).close faults.stream).1,
        if ((saveStream size faults (wgWriteconf kc st).1).close faults.stream).2 then none
        else some (.errno faults.fcloseErrno)) := by
  have hret := wgWriteconf_key hkey
  unfold wgSaveconf
  generalize wgWriteconf kc st = written at hret
  obtain ⟨text, ret⟩ := written
  cases hret
  rw [hopen]
  dsimp only
  cases ((saveStream size faults text).close faults.stream).2 <;> rfl

/-- With a key: all of it is in the file, or an error is reported and the file is as it was. -/
theorem savesSafely_key_iff (hopen : faults.fopen = none) (hkey : ¬NoKey kc st) :
    SavesSafely size kc st faults old ↔
      Stream.TakesAll faults.stream size (wgWriteconf kc st).1 ∨
        ¬Stream.Closes faults.stream size (wgWriteconf kc st).1 ∧
          old = some (Stream.taken faults.stream size (wgWriteconf kc st).1) := by
  have hholds : (saveStream size faults (wgWriteconf kc st).1).Holds (wgWriteconf kc st).1 :=
    Stream.holds_write_empty size.2 _
  obtain ⟨hfile, hcloses, herror⟩ : _ ∧ _ ∧
      ((saveStream size faults (wgWriteconf kc st).1).error = false ↔ _) :=
    Stream.close_write faults.stream size.2 (wgWriteconf kc st).1
  unfold SavesSafely
  rw [wgSaveconf_key hopen hkey, Stream.takesAll_iff, ← hcloses, ← herror, ← hfile]
  change _ ↔ ((saveStream size faults (wgWriteconf kc st).1).close faults.stream).2 = true ∧ _ ∨
    ¬((saveStream size faults (wgWriteconf kc st).1).close faults.stream).2 = true ∧
      old = some ((saveStream size faults (wgWriteconf kc st).1).close faults.stream).1
  cases hclosed : ((saveStream size faults (wgWriteconf kc st).1).close faults.stream).2 with
  | true =>
      rw [← hholds.close_iff hclosed]
      constructor
      · rintro ⟨hcomplete, -⟩
        exact Or.inl ⟨rfl, Option.some.inj (hcomplete rfl).2⟩
      · rintro (⟨-, hall⟩ | ⟨hfails, -⟩)
        · exact ⟨fun _ => ⟨wgWriteconf_key hkey, congrArg some hall⟩, fun hc => absurd rfl hc⟩
        · exact absurd rfl hfails
  | false =>
      constructor
      · rintro ⟨-, hintact⟩
        exact Or.inr ⟨Bool.false_ne_true, (hintact (Option.some_ne_none _)).symm⟩
      · rintro (⟨hc, -⟩ | ⟨-, hold⟩)
        · cases hc
        · exact ⟨fun hc => absurd hc (Option.some_ne_none _), fun _ => hold.symm⟩

end Outcomes

/-- **When saving is safe**: where there is nothing to save, the file was empty; and what is
saved is taken by the system piece by piece, with nothing failing, or `fclose` reports that it
was not, and the pieces taken happen to be what the file held. -/
theorem savesSafely_iff (size : StreamSize) (kc : Kconfig) (st : Staged) (faults : SaveFaults)
    (old : Option Text) : SavesSafely size kc st faults old ↔
      faults.fopen ≠ none ∨
      if NoKey kc st then old = some []
      else Stream.TakesAll faults.stream size (wgWriteconf kc st).1 ∨
        ¬Stream.Closes faults.stream size (wgWriteconf kc st).1 ∧
          old = some (Stream.taken faults.stream size (wgWriteconf kc st).1) := by
  by_cases hopen : faults.fopen = none
  · rw [or_iff_right (not_not.mpr hopen)]
    by_cases hkey : NoKey kc st
    · unfold SavesSafely
      rw [wgSaveconf_noKey hopen hkey, if_pos hkey]
      constructor
      · rintro ⟨-, hintact⟩
        exact (hintact (Option.some_ne_none _)).symm
      · intro hold
        exact ⟨fun hc => absurd hc (Option.some_ne_none _), fun _ => hold.symm⟩
    · rw [if_neg hkey]
      exact savesSafely_key_iff hopen hkey
  · -- the file was not touched
    obtain ⟨code, hcode⟩ := Option.ne_none_iff_exists'.mp hopen
    have hfailed : wgSaveconf size kc st faults old = (old, some (.errno code)) := by
      unfold wgSaveconf
      rw [hcode]
    unfold SavesSafely
    rw [hfailed]
    exact ⟨fun _ => Or.inl hopen, fun _ => ⟨fun hc => absurd hc (Option.some_ne_none _),
      fun _ => rfl⟩⟩

namespace Sample

/-- Nothing fails. -/
def noFaults : SaveFaults := ⟨none, ⟨fun _ => none, true⟩, 0⟩

/-- A build without a private key. -/
def keyless : Kconfig := ⟨[], 0, [], [], 0, [], [], 0, .ilp32⟩

end Sample

/-- A saved key is lost when there is none to save. -/
theorem not_savesSafely : ¬∀ (size : StreamSize) (kc : Kconfig) (st : Staged)
    (faults : SaveFaults) (old : Option Text), SavesSafely size kc st faults old := by
  intro h
  obtain ⟨-, hintact⟩ := h ⟨64, by decide⟩ Sample.keyless .empty Sample.noFaults (some ['x'])
  rw [@wgSaveconf_noKey ⟨64, by decide⟩ Sample.keyless .empty Sample.noFaults (some ['x']) rfl rfl]
    at hintact
  have hlost := hintact (Option.some_ne_none _)
  cases hlost

end NuttxWireguard.Flat
