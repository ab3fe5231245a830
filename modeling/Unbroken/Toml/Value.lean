import Unbroken.Number.Binary64

/-! TOML values. Tables keep their members in the order in which they were written, and remember how
they came to be, because that decides who may extend them: by a header of their own, by the header of a
table inside them, by a dotted key, or between braces. The document, and every element of an array of
tables, counts as having a header. -/

namespace Unbroken.Toml

inductive Origin where
  | header
  | implied
  | dotted
  | inlined
  deriving DecidableEq, Repr

inductive Value where
  | string (text : List Char)
  | integer (value : Int)
  | float (value : Binary64)
  | boolean (value : Bool)
  | dateTime (written : List Char)
  | array (elements : List Value)
  | table (origin : Origin) (members : List (String × Value))
  | tables (elements : List (List (String × Value)))

abbrev Members := List (String × Value)

namespace Members

def find? (key : String) (members : Members) : Option Value :=
  members.lookup key

def set (key : String) (value : Value) (members : Members) : Members :=
  members.map fun member => if member.1 = key then (key, value) else member

def remove (key : String) (members : Members) : Members :=
  members.filter (·.1 ≠ key)

/-- Changes the table at the end of a path of keys. Tables that the path lacks are made on the way:
implied ones under a header, dotted ones under a dotted key. A dotted key enters no table that has
a header of its own, and nothing enters an inline table. An array of tables stands for its last
element. -/
def update (isDotted : Bool) (change : Origin → Members → Option Members) :
    List String → Origin → Members → Option Members
  | [], origin, members => change origin members
  | key :: path, _, members =>
    match find? key members with
    | none => do
      let origin := if isDotted then Origin.dotted else Origin.implied
      let inner ← update isDotted change path origin []
      some (members ++ [(key, .table origin inner)])
    | some (.table origin inner) =>
      if origin = .inlined ∨ (isDotted ∧ origin = .header) then none
      else do
        let inner ← update isDotted change path origin inner
        some (members.set key (.table origin inner))
    | some (.tables elements) => do
      let last ← elements.getLast?
      let last ← update isDotted change path .header last
      some (members.set key (.tables (elements.dropLast ++ [last])))
    | some _ => none

def assign (path : List String) (key : String) (value : Value) (origin : Origin)
    (members : Members) : Option Members :=
  update true (fun origin members =>
    if (path ≠ [] ∧ origin ≠ .dotted) ∨ (find? key members).isSome then none
    else some (members ++ [(key, value)])) path origin members

def openTable (path : List String) (key : String) (members : Members) : Option Members :=
  update false (fun _ members =>
    match find? key members with
    | none => some (members ++ [(key, .table .header [])])
    | some (.table .implied inner) => some (members.remove key ++ [(key, .table .header inner)])
    | some _ => none) path .header members

def openElement (path : List String) (key : String) (members : Members) : Option Members :=
  update false (fun _ members =>
    match find? key members with
    | none => some (members ++ [(key, .tables [[]])])
    | some (.tables elements) => some (members.set key (.tables (elements ++ [[]])))
    | some _ => none) path .header members

end Members

end Unbroken.Toml
