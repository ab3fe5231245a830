import Unbroken.FileSystem.Access
import Unbroken.Survey
import Unbroken.Mend

/-! Templates in files: loading and saving them, and surveying and mending one file. -/

namespace Unbroken

inductive FileAction where
  | read
  | write
  | readConfig
  deriving DecidableEq, Repr

structure FileFailure where
  action : FileAction
  path : Path
  error : FileError
  deriving DecidableEq, Repr

def FileAction.words : FileAction → String
  | read => "read"
  | write => "write"
  | readConfig => "read config"

def FileFailure.message (failure : FileFailure) : String :=
  failure.action.words ++ " " ++ failure.path.spelling

namespace FileSystem

def loadTemplate (files : FileSystem) (path : Path) : Except FileFailure Template :=
  match files.read path with
  | .ok text => .ok (Template.ofText text)
  | .error error => .error { action := .read, path := path, error := error }

def saveTemplate (files : FileSystem) (path : Path) (template : Template)
    (refusal : Option FileError := none) : Except FileFailure FileSystem :=
  (files.write path template.text refusal).mapError fun error =>
    { action := .write, path := path, error := error }

def breaksOf (files : FileSystem) (path : Path) : Except FileFailure (List Break) :=
  (files.loadTemplate path).map fun template => template.breaks path

def mendFile (files : FileSystem) (path : Path) (breaks : List Break)
    (refusal : Option FileError := none) : Except FileFailure (Option FileSystem) := do
  let template ← files.loadTemplate path
  let mended := mend template breaks
  if mended.changed then some <$> files.saveTemplate path mended.template refusal
  else .ok none

theorem saveTemplate_eq_ok_iff {files after : FileSystem} {path : Path} {template : Template}
    {refusal : Option FileError} :
    files.saveTemplate path template refusal = .ok after ↔
      files.write path template.text refusal = .ok after := by
  rw [saveTemplate]
  constructor
  · intro saved
    cases written : files.write path template.text refusal with
    | error failed =>
        rw [written] at saved
        cases saved
    | ok next =>
        rw [written] at saved
        cases saved
        rfl
  · intro written
    rw [written]
    rfl

theorem mendFile_eq_some_iff {files after : FileSystem} {path : Path} {breaks : List Break}
    {refusal : Option FileError} :
    files.mendFile path breaks refusal = .ok (some after) ↔
      ∃ template, files.loadTemplate path = .ok template ∧ (mend template breaks).changed = true ∧
        files.saveTemplate path (mend template breaks).template refusal = .ok after := by
  rw [mendFile, bind_eq_ok_iff]
  refine exists_congr fun template => and_congr_right fun _ => ?_
  dsimp only
  split
  next changed =>
    simp only [changed, true_and]
    cases files.saveTemplate path (mend template breaks).template refusal <;>
      simp [Functor.map, Except.map]
  next unchanged => simp [unchanged]

theorem toOption_read_ne_none_of_mendFile {files after : FileSystem} {path : Path}
    {breaks : List Break} {refusal : Option FileError}
    (mended : files.mendFile path breaks refusal = .ok (some after)) :
    (files.read path).toOption ≠ none := by
  obtain ⟨template, loaded, -⟩ := mendFile_eq_some_iff.mp mended
  rw [loadTemplate] at loaded
  cases read : files.read path with
  | error failed =>
      rw [read] at loaded
      cases loaded
  | ok text => exact Option.some_ne_none text

theorem refusal_eq_none_of_mendFile {files after : FileSystem} {path : Path} {breaks : List Break}
    {refusal : Option FileError} (mended : files.mendFile path breaks refusal = .ok (some after)) :
    refusal = none := by
  obtain ⟨template, -, -, saved⟩ := mendFile_eq_some_iff.mp mended
  exact refusal_eq_none_of_writeBytes (saveTemplate_eq_ok_iff.mp saved)

end FileSystem

end Unbroken
