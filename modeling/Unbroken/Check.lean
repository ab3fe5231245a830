import Unbroken.Progress
import Unbroken.Report
import Unbroken.Source
import Unbroken.Storage

/-! A whole check: list the files, survey them, tell what was found and, if asked to, mend it in
passes. Each pass mends the breaks of the last survey, lists the files anew and surveys them again.
A file that cannot be read or written is passed over. Files are surveyed one after another: threads, which
would find the same in the same order, are left out, and so is the log. -/

namespace Unbroken

def usualPasses : Nat := 2

structure Options where
  fix : Bool := false
  maxPasses : Nat := usualPasses
  deriving DecidableEq, Repr

namespace Check

structure Overview where
  filesRead : Nat
  breaks : List Break

def surveyFiles (files : FileSystem) (paths : List Path) : Overview :=
  let found := paths.filterMap fun path => (files.breaksOf path).toOption
  { filesRead := found.length, breaks := Break.sorted found.flatten }

def allClear : Message := .info "All translation strings are on single lines!"

structure Pass where
  progress : Progress
  mended : List Path

def mendGroup (around : Surroundings) (pass : Pass) (group : List Break) : Pass :=
  match group with
  | [] => pass
  | broken :: _ =>
    match pass.progress.files.mendFile broken.file group (around.refuses pass.progress broken.file) with
    | .ok (some files) =>
      let progress := { pass.progress with files := files }
      { progress := progress.tell around (.info ("Fixed: " ++ broken.file.spelling))
        mended := pass.mended ++ [broken.file] }
    | .ok none | .error _ => pass

/-- A group either changes nothing, or its file may be saved and has something to mend. -/
theorem mendGroup_cases (around : Surroundings) (pass : Pass) (group : List Break) :
    mendGroup around pass group = pass ∨
      ∃ broken others files, group = broken :: others ∧
        around.refuses pass.progress broken.file = none ∧
        pass.progress.files.mendFile broken.file group = .ok (some files) ∧
        mendGroup around pass group = {
          progress := { pass.progress with files := files }.tell around
            (.info ("Fixed: " ++ broken.file.spelling))
          mended := pass.mended ++ [broken.file] } := by
  cases group with
  | nil => exact Or.inl rfl
  | cons broken others =>
      rw [mendGroup]
      split
      next files mended =>
        have allowed := FileSystem.refusal_eq_none_of_mendFile mended
        rw [allowed] at mended
        exact Or.inr ⟨broken, others, files, rfl, allowed, mended, rfl⟩
      next => exact Or.inl rfl
      next => exact Or.inl rfl

def groups (breaks : List Break) : List (List Break) :=
  breaks.splitBy fun left right => left.file.same right.file

def mendFiles (around : Surroundings) (progress : Progress) (breaks : List Break) : Pass :=
  (groups breaks).foldl (mendGroup around) { progress := progress, mended := [] }

structure Halted where
  progress : Progress
  reason : String

structure Mending where
  progress : Progress
  passes : Nat
  mended : List Path
  remaining : List Break

def mendPasses (source : Source) (around : Surroundings) : (left : Nat) → Mending →
    Except Halted Mending
  | 0, mending => .ok mending
  | left + 1, mending =>
    let passes := mending.passes + 1
    let pass := mendFiles around mending.progress mending.remaining
    if pass.mended.isEmpty then .ok { mending with progress := pass.progress, passes := passes }
    else
      let progress := pass.progress.tell around (.info
        ("\nAuto-fixed " ++ toString pass.mended.length ++ " file(s). Re-running check...\n"))
      match source.list (passes + 1) progress.files with
      | .error reason => .error { progress := progress, reason := reason }
      | .ok paths =>
        let mending : Mending := {
          progress := progress
          passes := passes
          mended := pass.mended.foldl (fun known path => path.insert known) mending.mended
          remaining := (surveyFiles progress.files paths).breaks }
        if mending.remaining.isEmpty then .ok mending
        else
          mendPasses source around left
            { mending with progress := progress.tellAll around (listing mending.remaining) }

def report (first : Overview) (mending : Mending) (verdict : Verdict) : Report :=
  { verdict := verdict
    tally := {
      filesRead := first.filesRead
      breaksFound := first.breaks.length
      filesMended := mending.mended.length
      passes := mending.passes }
    breaks := first.breaks
    mendedFiles := mending.mended }

def conclude (around : Surroundings) (first : Overview) (mending : Mending) : Progress × Report :=
  if mending.remaining.isEmpty then
    (mending.progress.tell around allClear, report first mending .mended)
  else
    (mending.progress.tellAll around
      [.error "Could not auto-fix all errors. Please fix manually.", .error advice],
      report first mending (.failed (.unmended mending.remaining.length)))

/-- Runs a check on some files. It is halted if the source fails. -/
def run (source : Source) (around : Surroundings) (options : Options) (files : FileSystem) :
    Except Halted (Progress × Report) :=
  let start : Progress := { files := files, told := [] }
  match source.list 1 files with
  | .error reason => .error { progress := start, reason := reason }
  | .ok paths =>
    let first := surveyFiles files paths
    let untouched : Mending := {
      progress := start.tellAll around (listing first.breaks)
      passes := 0
      mended := []
      remaining := first.breaks }
    if first.breaks.isEmpty then .ok (start.tell around allClear, report first untouched .clean)
    else if options.fix then
      let begun := untouched.progress.tell around (.info "Attempting to auto-fix...\n")
      (mendPasses source around (max 1 options.maxPasses) { untouched with progress := begun }).map
        (conclude around first)
    else
      .ok (untouched.progress.tellAll around
        [.error "Please fix these translation strings to be on a single line.", .error advice],
        report first untouched (.failed (.broken first.breaks.length)))

end Check

end Unbroken
