/-! Readers: a reader takes what it wants from the front of a text, or refuses the text. -/

namespace Unbroken.Toml

abbrev Reader (α : Type) := List Char → Option (α × List Char)

namespace Reader

def many {α : Type} (item : Reader α) (text : List Char) : List α × List Char :=
  match item text with
  | some (value, rest) =>
    if rest.length < text.length then
      let (values, last) := many item rest
      (value :: values, last)
    else ([], text)
  | none => ([], text)
termination_by text.length

/-- Reads items with a separator between two of them. Where no item follows, the list may end only
if `mayEnd` says so, or, behind a separator, `trailing`. -/
def separated {α : Type} (item : Reader α) (separator : Char) (trailing mayEnd : Bool)
    (text : List Char) : Option (List α × List Char) :=
  match item text with
  | none => if mayEnd then some ([], text) else none
  | some (value, []) => some ([value], [])
  | some (value, letter :: rest) =>
    if letter = separator ∧ rest.length < text.length then
      (separated item separator trailing trailing rest).map fun (values, last) =>
        (value :: values, last)
    else some ([value], letter :: rest)
termination_by text.length

def mark (expected : Char) : Reader Unit
  | [] => none
  | letter :: rest => if letter = expected then some ((), rest) else none

def word {α : Type} (expected : String) (value : α) : Reader α := fun text =>
  if expected.toList.isPrefixOf text then some (value, text.drop expected.length) else none

end Reader

def isPlain (letter : Char) : Bool :=
  letter == '\t' || (0x20 ≤ letter.toNat && letter.toNat ≠ 0x7F)

def skipBlanks (text : List Char) : List Char :=
  text.dropWhile fun letter => letter == ' ' || letter == '\t'

def newline : Reader Unit
  | '\n' :: rest => some ((), rest)
  | '\r' :: '\n' :: rest => some ((), rest)
  | _ => none

def comment : Reader Unit
  | '#' :: rest => some ((), rest.dropWhile isPlain)
  | _ => none

def skipComment (text : List Char) : List Char :=
  match comment text with
  | some ((), rest) => rest
  | none => text

def lineEnd (text : List Char) : Option (Unit × List Char) :=
  match skipComment (skipBlanks text) with
  | [] => some ((), [])
  | rest => newline rest

def skipGap (text : List Char) : List Char :=
  skipBlanks (Reader.many (fun text => newline (skipComment (skipBlanks text))) text).2

end Unbroken.Toml
