import Unbroken.FileSystem.Resolve

/-! Reading and writing files of a file system, and rearranging its tree. -/

namespace Unbroken

theorem bind_eq_ok_iff {ε α β : Type} {first : Except ε α} {next : α → Except ε β} {result : β} :
    first >>= next = .ok result ↔ ∃ value, first = .ok value ∧ next value = .ok result := by
  cases first <;> simp [bind, Except.bind]

namespace FileSystem

def read (files : FileSystem) (path : Path) : Except FileError (List Char) := do
  match ← files.locate .access path with
  | .file _ content =>
    match String.fromUTF8? content with
    | some text => .ok text.toList
    | none => .error .invalidText
  | .folder _ => .error .isDirectory
  | .link _ _ | .vacant _ => .error .notFound

def isFile (files : FileSystem) (path : Path) : Bool :=
  match files.locate .access path with
  | .ok (.file _ _) => true
  | _ => false

def set (files : FileSystem) (location : List String) (entry : Entry) : FileSystem :=
  { files with top := files.top.putAt entry location }

/-- Makes the content of a file, which is created unless it is there. Its directory must exist. A write
that is refused changes nothing. -/
def writeBytes (files : FileSystem) (path : Path) (content : ByteArray)
    (refusal : Option FileError := none) : Except FileError FileSystem := do
  match ← files.locate .create path with
  | .file location _ | .vacant location =>
    match refusal with
    | none => .ok (files.set location (.file content))
    | some error => .error error
  | .folder _ | .link _ _ => .error .isDirectory

def write (files : FileSystem) (path : Path) (text : List Char) (refusal : Option FileError := none) :
    Except FileError FileSystem :=
  files.writeBytes path (String.ofList text).toUTF8 refusal

theorem refusal_eq_none_of_writeBytes {files after : FileSystem} {path : Path} {content : ByteArray}
    {refusal : Option FileError} (written : files.writeBytes path content refusal = .ok after) :
    refusal = none := by
  obtain ⟨spot, -, result⟩ := bind_eq_ok_iff.mp written
  cases refusal with
  | none => rfl
  | some error => cases spot <;> cases result

def makeFolder (files : FileSystem) (path : Path) : Except FileError FileSystem := do
  match ← files.locate .access path with
  | .folder _ => .ok files
  | .vacant location => .ok (files.set location (.folder .empty))
  | .file _ _ | .link _ _ => .error .notDirectory

def waypoints (path : Path) : List Path :=
  let segments := path.segments
  let spellings := (List.range segments.length).map fun count =>
    "/".intercalate (segments.take (count + 1))
  (spellings.filter (· ≠ "")).map Path.mk

def makeFolders (files : FileSystem) (path : Path) : Except FileError FileSystem :=
  (waypoints path).foldlM makeFolder files

def makeParents (files : FileSystem) (path : Path) : Except FileError FileSystem :=
  files.makeFolders ⟨"/".intercalate path.segments.dropLast⟩

def placeFile (files : FileSystem) (path : Path) (content : ByteArray) :
    Except FileError FileSystem := do
  (← files.makeParents path).writeBytes path content

def placeLink (files : FileSystem) (path target : Path) : Except FileError FileSystem := do
  let files ← files.makeParents path
  match ← files.locate .inspect path with
  | .vacant location | .file location _ | .link location _ => .ok (files.set location (.link target))
  | .folder _ => .error .isDirectory

def remove (files : FileSystem) (path : Path) : Except FileError FileSystem := do
  match ← files.locate .inspect path with
  | .file location _ | .link location _ | .folder location =>
    .ok { files with top := files.top.eraseAt location }
  | .vacant _ => .error .notFound

def regularFiles (files : FileSystem) : List (Path × ByteArray) :=
  match files.top.at? files.workingDirectory with
  | some (.folder entries) =>
    entries.files.map fun (location, content) => (⟨"/".intercalate location⟩, content)
  | _ => []

def changesSince (earlier files : FileSystem) : List (List String × ByteArray) :=
  files.top.files.filter fun (location, content) =>
    match earlier.top.at? location with
    | some (.file known) => known != content
    | _ => true

end FileSystem

end Unbroken
