import Unbroken.Text.Pieces

/-! Paths of files. A path keeps the spelling it was given, while order and sameness go by its
components: repeated separators and inner `.` components do not count. -/

namespace Unbroken

/-- A component of a path. The constructors stand in the order in which components sort. -/
inductive Component where
  | root
  | here
  | parent
  | name (text : String)
  deriving DecidableEq, Repr

namespace Component

def rank : Component → Nat
  | root => 0
  | here => 1
  | parent => 2
  | name _ => 3

def text : Component → String
  | root => "/"
  | here => "."
  | parent => ".."
  | name text => text

def order (left right : Component) : Ordering :=
  (compare left.rank right.rank).then (compare left.text right.text)

instance : Ord Component := ⟨order⟩

end Component

structure Path where
  spelling : String
  deriving DecidableEq, Repr, Inhabited

namespace Path

instance : ToString Path := ⟨spelling⟩

def isAbsolute (path : Path) : Bool :=
  path.spelling.toList.head? == some '/'

def segments (path : Path) : List String :=
  (pieces (· == '/') path.spelling.toList).map String.ofList

def component? (first : Bool) (segment : String) : Option Component :=
  if segment == "" then none
  else if segment == "." then if first then some .here else none
  else if segment == ".." then some .parent
  else some (.name segment)

def components (path : Path) : List Component :=
  if path.isAbsolute then .root :: path.segments.filterMap (component? false)
  else
    match path.segments with
    | [] => []
    | first :: others =>
      (component? true first).toList ++ others.filterMap (component? false)

def order (left right : Path) : Ordering :=
  compare left.components right.components

instance : Ord Path := ⟨order⟩

def same (left right : Path) : Bool :=
  left.components == right.components

def precedes (left right : Path) : Bool :=
  (order left right).isLE

def join (folder : Path) (name : String) : Path :=
  match folder.spelling.toList.getLast? with
  | none | some '/' => ⟨folder.spelling ++ name⟩
  | some _ => ⟨folder.spelling ++ "/" ++ name⟩

def fileName? (path : Path) : Option String :=
  match path.components.getLast? with
  | some (.name text) => some text
  | _ => none

def extensionOf? (name : String) : Option String :=
  let fromEnd := name.toList.reverse
  let ending := fromEnd.takeWhile (· != '.')
  match fromEnd.drop ending.length with
  | _ :: _ :: _ => some (String.ofList ending.reverse)
  | _ => none

def extension? (path : Path) : Option String :=
  path.fileName?.bind extensionOf?

def insert (path : Path) : List Path → List Path
  | [] => [path]
  | first :: others =>
    match order path first with
    | .lt => path :: first :: others
    | .eq => first :: others
    | .gt => first :: insert path others

end Path

end Unbroken
