import Unbroken.Exclusions
import Unbroken.FileSystem.Access

/-! Which files are checked: those at and below a root that have the wanted extension and size,
except in directories of excluded names. -/

namespace Unbroken

def templateExtension : String := "jinja"

structure Search where
  root : Path
  extension : String
  exclusions : Exclusions
  maxFileSize : Option Nat
  deriving DecidableEq, Repr

namespace Search

def accepts (search : Search) (path : Path) (size : Nat) : Bool :=
  path.extension? == some search.extension &&
    match search.maxFileSize with
    | some limit => size ≤ limit
    | none => true

def below (search : Search) (folder : Path) : Directory → List Path
  | .empty => []
  | .file name content others =>
    let path := folder.join name
    let later := search.below folder others
    if search.accepts path content.size then path :: later else later
  | .link _ _ others => search.below folder others
  | .folder name entries others =>
    let later := search.below folder others
    if search.exclusions.excludes name then later
    else search.below (folder.join name) entries ++ later

/-- The accepted files at and below the root, unordered. A root that is a link is followed to a
directory only, and a root that is a file is its own only candidate. -/
def candidates (search : Search) (files : FileSystem) : List Path :=
  let inside := fun location =>
    match files.top.at? location with
    | some (.folder entries) => search.below search.root entries
    | _ => []
  match files.locate .inspect search.root with
  | .ok (.folder location) => inside location
  | .ok (.file _ content) => if search.accepts search.root content.size then [search.root] else []
  | .ok (.link _ _) =>
    match files.locate .access search.root with
    | .ok (.folder location) => inside location
    | _ => []
  | _ => []

def files (search : Search) (system : FileSystem) : List Path :=
  (search.candidates system).mergeSort Path.precedes

end Search

end Unbroken
