import Unbroken.Proofs.Spoken

/-! What a check keeps of the files. It changes them in two ways only, by mending one of them and by what
those who hear of it do, so that a property that neither of these ends lasts. Checks on two sources come
to the same if, on files with such a property, no survey can tell the sources apart. -/

namespace Unbroken

namespace Check

/-- Whether no step of a check ends a property of the files. -/
structure Kept (around : Surroundings) (Held : FileSystem → Prop) : Prop where
  heard : ∀ message files, Held files → Held (around.listener message files)
  mended : ∀ files path breaks after, Held files →
    files.mendFile path breaks = .ok (some after) → Held after

def filesLeft {Result : Type} (progress : Result → Progress) : Except Halted Result → FileSystem
  | .ok result => (progress result).files
  | .error halted => halted.progress.files

namespace Kept

variable {around : Surroundings} {Held : FileSystem → Prop} (kept : Kept around Held)

include kept

theorem lasting : Lasting around fun progress => Held progress.files where
  told _ message _ held := kept.heard message _ held
  mended _ _ _ _ held mended := kept.mended _ _ _ _ held mended

theorem mendFiles {progress : Progress} (held : Held progress.files) (breaks : List Break) :
    Held (mendFiles around progress breaks).progress.files :=
  kept.lasting.mendFiles held breaks

theorem tellListing {progress : Progress} (held : Held progress.files) (breaks : List Break) :
    Held (progress.tellAll around (listing breaks)).files :=
  kept.lasting.tellAll held fun _ => .listed

theorem run (source : Source) (options : Options) {files : FileSystem} (held : Held files) :
    Held (filesLeft Prod.fst (run source around options files)) := by
  have left := kept.lasting.run source options held
  cases result : Check.run source around options files with
  | ok done =>
      rw [result] at left
      exact left
  | error halted =>
      rw [result] at left
      exact left

end Kept

def AlikeOn (Held : FileSystem → Prop) (left right : Source) : Prop :=
  ∀ round files, Held files → ∃ paths others, left.list round files = .ok paths ∧
    right.list round files = .ok others ∧ surveyFiles files paths = surveyFiles files others

section

variable {around : Surroundings} {Held : FileSystem → Prop} {left right : Source}

theorem mendPasses_congr (kept : Kept around Held) (alike : AlikeOn Held left right) (count : Nat)
    {mending : Mending} (held : Held mending.progress.files) :
    ∃ done, mendPasses left around count mending = .ok done ∧
      mendPasses right around count mending = .ok done := by
  induction count generalizing mending with
  | zero => exact ⟨mending, rfl, rfl⟩
  | succ count ih =>
      have pass := kept.mendFiles held mending.remaining
      rw [mendPasses, mendPasses]
      dsimp only
      split_ifs with idle
      · exact ⟨_, rfl, rfl⟩
      · have told := kept.heard (.info ("\nAuto-fixed " ++
            toString (mendFiles around mending.progress mending.remaining).mended.length ++
            " file(s). Re-running check...\n")) _ pass
        change Held (Progress.tell around _ _).files at told
        generalize Progress.tell around _ _ = progress at told ⊢
        obtain ⟨paths, others, leftLists, rightLists, same⟩ := alike (mending.passes + 1 + 1) _ told
        simp only [leftLists, rightLists, same]
        split_ifs
        · exact ⟨_, rfl, rfl⟩
        · apply ih
          exact kept.tellListing told _

/-- Checks come to the same results if the surveys do. -/
theorem run_congr (kept : Kept around Held) (alike : AlikeOn Held left right) (options : Options)
    {files : FileSystem} (held : Held files) :
    ∃ progress report, run left around options files = .ok (progress, report) ∧
      run right around options files = .ok (progress, report) := by
  have start : Held (Progress.mk files []).files := held
  obtain ⟨paths, others, leftLists, rightLists, same⟩ := alike 1 files held
  rw [run, run, leftLists, rightLists]
  simp only [same]
  split_ifs
  · exact ⟨_, _, rfl, rfl⟩
  · have listed := kept.tellListing start (surveyFiles files others).breaks
    have begun : ∀ message, Held (Mending.mk (Progress.tell around _ message) 0 []
        (surveyFiles files others).breaks).progress.files :=
      fun message => kept.heard message _ listed
    obtain ⟨done, leftDone, rightDone⟩ := mendPasses_congr kept alike (max 1 options.maxPasses)
      (begun (.info "Attempting to auto-fix...\n"))
    rw [leftDone, rightDone]
    exact ⟨_, _, rfl, rfl⟩
  · exact ⟨_, _, rfl, rfl⟩

end

end Check

end Unbroken
