import Unbroken.FileSystem.Directory

/-! Where a path leads: names are looked up from the left, `..` goes up, and a link on the way is
replaced by its target, up to a limit that ends link cycles. -/

namespace Unbroken

inductive FileError where
  | notFound
  | notDirectory
  | isDirectory
  | invalidText
  | tooManyLinks
  | notPermitted
  | readOnlyDisk
  | fullDisk
  deriving DecidableEq, Repr

def FileError.description : FileError → String
  | notFound => "No such file or directory (os error 2)"
  | notDirectory => "Not a directory (os error 20)"
  | isDirectory => "Is a directory (os error 21)"
  | invalidText => "stream did not contain valid UTF-8"
  | tooManyLinks => "Too many levels of symbolic links (os error 40)"
  | notPermitted => "Permission denied (os error 13)"
  | readOnlyDisk => "Read-only file system (os error 30)"
  | fullDisk => "No space left on device (os error 28)"

inductive Purpose where
  | access
  | inspect
  | create
  deriving DecidableEq, Repr

inductive Spot where
  | folder (location : List String)
  | file (location : List String) (content : ByteArray)
  | link (location : List String) (target : Path)
  | vacant (location : List String)

inductive Leg where
  | ended (result : Except FileError Spot)
  | detour (location : List String) (target : Path) (rest : List String)

def walkLeg (top : Directory) (purpose : Purpose) : List String → List String → Leg
  | here, [] => .ended (.ok (.folder here))
  | here, segment :: rest =>
    if segment = "" ∨ segment = "." then walkLeg top purpose here rest
    else if segment = ".." then walkLeg top purpose here.dropLast rest
    else if purpose = .create ∧ rest ≠ [] ∧ rest.all (· == "") then .ended (.error .isDirectory)
    else
      let there := here ++ [segment]
      match top.at? there with
      | none => .ended (if rest.isEmpty then .ok (.vacant there) else .error .notFound)
      | some (.folder _) => walkLeg top purpose there rest
      | some (.file content) =>
        .ended (if rest.isEmpty then .ok (.file there content) else .error .notDirectory)
      | some (.link target) =>
        if purpose = .inspect ∧ rest = [] then .ended (.ok (.link there target))
        else .detour here target rest

def linkLimit : Nat := 40

/-- Follows segments, with `legs - 1` links at most. -/
def follow (top : Directory) (purpose : Purpose) : Nat → List String → List String →
    Except FileError Spot
  | 0, _, _ => .error .tooManyLinks
  | legs + 1, here, segments =>
    match walkLeg top purpose here segments with
    | .ended result => result
    | .detour location target rest =>
      follow top purpose legs (if target.isAbsolute then [] else location) (target.segments ++ rest)

structure FileSystem where
  top : Directory
  workingDirectory : List String
  deriving Inhabited

def FileSystem.locate (files : FileSystem) (purpose : Purpose) (path : Path) :
    Except FileError Spot :=
  if path.spelling = "" then .error .notFound
  else
    follow files.top purpose (linkLimit + 1)
      (if path.isAbsolute then [] else files.workingDirectory) path.segments

end Unbroken
