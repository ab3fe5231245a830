import Unbroken.Toml.Scalar

/-! TOML documents, read into a table that keeps the order of its keys. -/

namespace Unbroken.Toml

def deepestNesting : Nat := 79

def pair (value : Reader Value) : Reader (List String × Value) := fun text => do
  let (path, rest) ← key text
  let ((), rest) ← Reader.mark '=' rest
  let (value, rest) ← value (skipBlanks rest)
  some ((path, value), rest)

def element (value : Reader Value) : Reader Value := fun text =>
  (value (skipGap text)).map fun (value, rest) => (value, skipGap rest)

def arrayElements (value : Reader Value) : Reader (List Value) := fun text => do
  let (values, rest) ← Reader.separated (element value) ',' true true text
  let ((), rest) ← Reader.mark ']' (skipGap rest)
  some (values, rest)

def assignAll (origin : Origin) (pairs : List (List String × Value)) : Option Members :=
  pairs.foldlM (fun members (path, value) => do
    members.assign path.dropLast (← path.getLast?) value origin) []

def inlineMembers (value : Reader Value) : Reader Members := fun text => do
  let item := fun text => (pair value text).map fun (item, rest) => (item, skipBlanks rest)
  let (pairs, rest) ← Reader.separated item ',' false true text
  let ((), rest) ← Reader.mark '\x7d' (skipBlanks rest)
  some (← assignAll .inlined pairs, rest)

def value : (depth : Nat) → Reader Value
  | depth, '[' :: rest =>
    match depth with
    | 0 => none
    | depth + 1 => (arrayElements (value depth) rest).map fun (elements, rest) => (.array elements, rest)
  | depth, '\x7b' :: rest =>
    match depth with
    | 0 => none
    | depth + 1 =>
      (inlineMembers (value depth) rest).map fun (members, rest) => (.table .inlined members, rest)
  | _, text =>
    ((((string text).map fun (text, rest) => (Value.string text, rest)).or (boolean text)).or
      (dateTime text)).or (number text)

inductive Statement where
  | blank
  | tableHeader (path : List String)
  | elementHeader (path : List String)
  | assignment (path : List String) (value : Value)

def header (count : Nat) : Reader (List String) := fun text => do
  let (path, rest) ← key text
  let ((), rest) ← Reader.word ("".pushn ']' count) () rest
  let ((), rest) ← lineEnd rest
  some (path, rest)

def statement : Reader Statement := fun text =>
  match skipBlanks text with
  | [] => none
  | '[' :: '[' :: rest => (header 2 rest).map fun (path, rest) => (.elementHeader path, rest)
  | '[' :: rest => (header 1 rest).map fun (path, rest) => (.tableHeader path, rest)
  | letter :: rest =>
    if letter = '#' ∨ letter = '\n' ∨ letter = '\r' then
      (lineEnd (letter :: rest)).map fun ((), rest) => (.blank, rest)
    else do
      let ((path, value), rest) ← pair (value deepestNesting) (letter :: rest)
      let ((), rest) ← lineEnd rest
      some (.assignment path value, rest)

structure Draft where
  members : Members
  header : List String

def Draft.add (draft : Draft) : Statement → Option Draft
  | .blank => some draft
  | .tableHeader path => do
    let members ← draft.members.openTable path.dropLast (← path.getLast?)
    some { members := members, header := path }
  | .elementHeader path => do
    let members ← draft.members.openElement path.dropLast (← path.getLast?)
    some { members := members, header := path }
  | .assignment path value => do
    let last ← path.getLast?
    let members ← Members.update false (fun origin members =>
      members.assign path.dropLast last value origin) draft.header .header draft.members
    some { draft with members := members }

def parse? (text : List Char) : Option Members := do
  let text := match text with
    | '\ufeff' :: rest => rest
    | _ => text
  let (statements, rest) := Reader.many statement text
  if (skipBlanks rest).isEmpty then
    (statements.foldlM Draft.add { members := [], header := [] }).map Draft.members
  else none

end Unbroken.Toml
