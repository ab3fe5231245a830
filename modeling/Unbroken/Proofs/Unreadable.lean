import Unbroken.Proofs.Kept
import Unbroken.Proofs.Passes

/-! Listed paths that cannot be read. Nothing is found in them and nothing is written to them, and the
texts that a check does write leave every other path as readable or unreadable as it was. At any stage
a survey of the list is therefore a survey of the readable paths in it. -/

namespace Unbroken

def FileSystem.readable (files : FileSystem) (paths : List Path) : List Path :=
  paths.filter fun path => (files.read path).toOption.isSome

def FileSystem.Edited (files later : FileSystem) : Prop :=
  ∃ edits, later = files.editedBy edits

namespace FileSystem.Edited

variable {files later : FileSystem} {path : Path}

theorem refl (files : FileSystem) : files.Edited files :=
  ⟨fun _ text => text, files.editedBy_id.symm⟩

theorem locate_of_unreadable (edited : files.Edited later)
    (unreadable : (files.read path).toOption = none) :
    later.locate .access path = files.locate .access path := by
  obtain ⟨edits, rfl⟩ := edited
  exact locate_editedBy_of_unreadable unreadable edits

theorem mendFile (sound : files.top.Sound) (edited : files.Edited later) {breaks : List Break}
    {after : FileSystem} (mended : later.mendFile path breaks = .ok (some after)) :
    files.Edited after := by
  obtain ⟨edits, rfl⟩ := edited
  cases given : files.read path with
  | error failed =>
      have unreadable : (files.read path).toOption = none := by
        rw [given]
        rfl
      exact absurd (toOption_read_editedBy_of_none unreadable edits)
        (toOption_read_ne_none_of_mendFile mended)
  | ok text =>
      obtain ⟨location, holds⟩ := exists_holds_of_read given
      have written := mendFile_editedBy sound holds edits
        (fun text => (mend (Template.ofText text) breaks).template.text) rfl
      rw [mended] at written
      split_ifs at written
      · cases written
        exact ⟨_, rfl⟩
      · cases written

end FileSystem.Edited

namespace Check

variable {files : FileSystem}

theorem kept_edited (sound : files.top.Sound) (refuses : Refusals) :
    Kept (.silent refuses) files.Edited where
  heard _ _ edited := edited
  mended _ _ _ _ edited mended := edited.mendFile sound mended

theorem surveyFiles_readable {later : FileSystem} (edited : files.Edited later) (paths : List Path) :
    surveyFiles later paths = surveyFiles later (files.readable paths) := by
  have found : paths.filterMap (fun path => (later.breaksOf path).toOption) =
      (files.readable paths).filterMap fun path => (later.breaksOf path).toOption := by
    rw [FileSystem.readable, List.filterMap_filter]
    refine List.filterMap_congr fun path _ => ?_
    split_ifs with readable
    · rfl
    · have unreadable : (files.read path).toOption = none := by simpa using readable
      obtain ⟨edits, rfl⟩ := edited
      rw [toOption_breaksOf, toOption_read_editedBy_of_none unreadable]
      rfl
  rw [surveyFiles, surveyFiles, found]

/-- A check on a list of paths comes to what a check on the readable ones among them comes to, whatever
saves are refused: the same report, messages and files. Paths that cannot be read lead afterwards to what
they led to before, with the same content if that is a file. -/
theorem run_readable (sound : files.top.Sound) (paths : List Path) (options : Options)
    (refuses : Refusals) :
    ∃ progress report, run (.fixed paths) (.silent refuses) options files = .ok (progress, report) ∧
      run (.fixed (files.readable paths)) (.silent refuses) options files = .ok (progress, report) ∧
      ∀ path, (files.read path).toOption = none →
        progress.files.locate .access path = files.locate .access path := by
  have kept := kept_edited sound refuses
  have alike : AlikeOn files.Edited (.fixed paths) (.fixed (files.readable paths)) := by
    intro round later edited
    exact ⟨paths, files.readable paths, rfl, rfl, surveyFiles_readable edited paths⟩
  obtain ⟨progress, report, all, readable⟩ := run_congr kept alike options (.refl files)
  have left := kept.run (.fixed paths) options (.refl files)
  rw [all] at left
  refine ⟨progress, report, all, readable, ?_⟩
  intro path unreadable
  exact left.locate_of_unreadable unreadable

/-- A page among a missing file, a file that holds no text, a directory and a path through a file. -/
theorem run_readable_shelf :
    let shelf : FileSystem := {
      top := .file "bad.jinja" ⟨#[0xFF]⟩
        (.folder "sub" .empty (.file "page.jinja" "_(\"a\nb\")".toUTF8 .empty))
      workingDirectory := [] }
    let paths : List Path :=
      [⟨"gone.jinja"⟩, ⟨"bad.jinja"⟩, ⟨"sub"⟩, ⟨"page.jinja/x"⟩, ⟨"page.jinja"⟩]
    shelf.top.Sound ∧ shelf.read ⟨"bad.jinja"⟩ = .error .invalidText ∧
      ∃ progress report,
        run (.fixed paths) .quiet { fix := true, maxPasses := 2 } shelf = .ok (progress, report) ∧
        run (.fixed [⟨"page.jinja"⟩]) .quiet { fix := true, maxPasses := 2 } shelf =
          .ok (progress, report) ∧
        progress.files.locate .access ⟨"bad.jinja"⟩ = .ok (.file ["bad.jinja"] ⟨#[0xFF]⟩) := by
  intro shelf paths
  have sound : shelf.top.Sound := ⟨by decide, rfl, by decide, rfl, trivial, by decide, rfl, trivial⟩
  have only : shelf.readable paths = [⟨"page.jinja"⟩] := rfl
  have unreadable : shelf.read ⟨"bad.jinja"⟩ = .error .invalidText := rfl
  obtain ⟨progress, report, all, readable, kept⟩ :=
    run_readable sound paths { fix := true, maxPasses := 2 } .never
  rw [only] at readable
  have leads := kept ⟨"bad.jinja"⟩ (by rw [unreadable]; rfl)
  exact ⟨sound, unreadable, progress, report, all, readable, leads.trans rfl⟩

end Check

end Unbroken
