import Unbroken.Path

/-! Directories as finite trees of regular files, symbolic links and directories. A location is the list
of names that leads from a directory to an entry below it, through directories alone: links are not
followed here.

Every name owns its entry. A content that two names share, as hard links share it, has no place in a
tree, nor do devices, pipes and names that are no Unicode text. There are no permissions either: a file
that may not be read is one that holds no text, and what keeps a file from being saved is told to the
one who saves it. -/

namespace Unbroken

inductive Directory where
  | empty
  | file (name : String) (content : ByteArray) (others : Directory)
  | link (name : String) (target : Path) (others : Directory)
  | folder (name : String) (entries others : Directory)
  deriving Inhabited

inductive Entry where
  | file (content : ByteArray)
  | link (target : Path)
  | folder (entries : Directory)

namespace Directory

def cons (name : String) : Entry → Directory → Directory
  | .file content, others => file name content others
  | .link target, others => link name target others
  | .folder entries, others => folder name entries others

def find? (sought : String) : Directory → Option Entry
  | empty => none
  | file name content others => if name = sought then some (.file content) else others.find? sought
  | link name target others => if name = sought then some (.link target) else others.find? sought
  | folder name entries others =>
    if name = sought then some (.folder entries) else others.find? sought

def put (sought : String) (entry : Entry) : Directory → Directory
  | empty => cons sought entry empty
  | file name content others =>
    if name = sought then cons sought entry others else file name content (others.put sought entry)
  | link name target others =>
    if name = sought then cons sought entry others else link name target (others.put sought entry)
  | folder name entries others =>
    if name = sought then cons sought entry others else folder name entries (others.put sought entry)

def erase (sought : String) : Directory → Directory
  | empty => empty
  | file name content others => if name = sought then others else file name content (others.erase sought)
  | link name target others => if name = sought then others else link name target (others.erase sought)
  | folder name entries others =>
    if name = sought then others else folder name entries (others.erase sought)

def at? : List String → Directory → Option Entry
  | [], directory => some (.folder directory)
  | name :: below, directory =>
    match directory.find? name with
    | some (.folder entries) => at? below entries
    | some entry => if below.isEmpty then some entry else none
    | none => none

def putAt (entry : Entry) : List String → Directory → Directory
  | [], directory => directory
  | [name], directory => directory.put name entry
  | name :: below, directory =>
    match directory.find? name with
    | some (.folder entries) => directory.put name (.folder (putAt entry below entries))
    | _ => directory

def eraseAt : List String → Directory → Directory
  | [], directory => directory
  | [name], directory => directory.erase name
  | name :: below, directory =>
    match directory.find? name with
    | some (.folder entries) => directory.put name (.folder (eraseAt below entries))
    | _ => directory

def files : Directory → List (List String × ByteArray)
  | empty => []
  | file name content others => ([name], content) :: others.files
  | link _ _ others => others.files
  | folder name entries others =>
    entries.files.map (fun (below, content) => (name :: below, content)) ++ others.files

theorem find?_cons_self (name : String) (entry : Entry) (others : Directory) :
    (cons name entry others).find? name = some entry := by
  cases entry <;> simp [cons, find?]

theorem find?_cons_of_ne {name sought : String} (differs : name ≠ sought) (entry : Entry)
    (others : Directory) : (cons name entry others).find? sought = others.find? sought := by
  cases entry <;> simp [cons, find?, differs]

theorem find?_put_self (name : String) (entry : Entry) (directory : Directory) :
    (directory.put name entry).find? name = some entry := by
  induction directory with
  | empty => simp [put, find?_cons_self]
  | file other content others ih =>
      by_cases same : other = name
      · simp [put, same, find?_cons_self]
      · simp [put, same, find?, ih]
  | link other target others ih =>
      by_cases same : other = name
      · simp [put, same, find?_cons_self]
      · simp [put, same, find?, ih]
  | folder other entries others _ ih =>
      by_cases same : other = name
      · simp [put, same, find?_cons_self]
      · simp [put, same, find?, ih]

theorem find?_put_of_ne {name sought : String} (differs : name ≠ sought) (entry : Entry)
    (directory : Directory) : (directory.put name entry).find? sought = directory.find? sought := by
  induction directory with
  | empty => simp [put, find?_cons_of_ne differs, find?]
  | file other content others ih =>
      by_cases same : other = name
      · simp [put, same, find?_cons_of_ne differs, find?, differs]
      · simp [put, same, find?, ih]
  | link other target others ih =>
      by_cases same : other = name
      · simp [put, same, find?_cons_of_ne differs, find?, differs]
      · simp [put, same, find?, ih]
  | folder other entries others _ ih =>
      by_cases same : other = name
      · simp [put, same, find?_cons_of_ne differs, find?, differs]
      · simp [put, same, find?, ih]

end Directory

end Unbroken
