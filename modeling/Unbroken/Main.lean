import Unbroken.CommandLine.Invocation

/-! The program. It takes a picture of the files around it, runs the command on the picture, writes
back the files that the command changed, and prints what was told. It starts no other program, so
staging is left to the user. -/

namespace Unbroken.Main

/-- The picture of a directory. A link is pictured with the place it finally leads to, and left out
if there is none. -/
partial def loadFolder (spelling : String) : IO Directory := do
  let folder ← IO.FS.realPath spelling
  let mut entries := Directory.empty
  for entry in ← folder.readDir do
    let below := spelling ++ "/" ++ entry.fileName
    try
      match (← entry.path.symlinkMetadata).type with
      | .dir => entries := .folder entry.fileName (← loadFolder below) entries
      | .file => entries := .file entry.fileName (← IO.FS.readBinFile below) entries
      | .symlink => entries := .link entry.fileName ⟨toString (← IO.FS.realPath below)⟩ entries
      | .other => pure ()
    catch _ => pure ()
  return entries

def loadPlace (files : FileSystem) (spelling : String) : IO FileSystem := do
  match files.makeParents ⟨spelling⟩ with
  | .error _ => return files
  | .ok above =>
    let folder ← IO.FS.realPath spelling
    let place := (spelling.splitOn "/").filter (· ≠ "")
    match (← folder.metadata).type with
    | .dir =>
      let entries ← loadFolder spelling
      return if place.isEmpty then { above with top := entries } else above.set place (.folder entries)
    | .file => return above.set place (.file (← IO.FS.readBinFile spelling))
    | _ => return files

def loadFiles (words : List String) : IO FileSystem := do
  let here := toString (← IO.FS.realPath ".")
  let start : FileSystem := {
    top := .empty, workingDirectory := (here.splitOn "/").filter (· ≠ "") }
  let mut files ← loadPlace start here
  for word in words do
    try
      let place := toString (← IO.FS.realPath word)
      if !(place ++ "/").startsWith (here ++ "/") then files ← loadPlace files place
    catch _ => pure ()
  return files

def usage : String :=
  "usage: transline check [ROOT] [--fix] [--prepush] [--config PATH] [--ext EXTENSION]\n" ++
  "         [--exclude NAME]... [--max-file-size BYTES] [--max-passes COUNT] [--threads COUNT]\n" ++
  "         [--json PATH]\n" ++
  "       transline --version"

def run (words : List String) : IO UInt32 := do
  let files ← loadFiles words
  match Invocation.run? (fun _ => .unavailable) words files with
  | none =>
    IO.eprintln usage
    return 2
  | some done =>
    for (location, content) in files.changesSince done.files do
      IO.FS.writeBinFile ("/" ++ "/".intercalate location) content
    IO.print done.stdout
    IO.eprint done.stderr
    return UInt32.ofNat done.exitCode

end Unbroken.Main

def main (words : List String) : IO UInt32 :=
  Unbroken.Main.run words
