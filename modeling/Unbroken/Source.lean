import Unbroken.Search

/-! Where the files to check come from. -/

namespace Unbroken

/-- A list of files, made anew for every survey. Surveys are counted from one; a source may fail,
and then gives its reason. -/
structure Source where
  list : (round : Nat) → FileSystem → Except String (List Path)

namespace Source

def search (search : Search) : Source :=
  ⟨fun _ files => .ok (search.files files)⟩

def fixed (paths : List Path) : Source :=
  ⟨fun _ _ => .ok paths⟩

end Source

end Unbroken
