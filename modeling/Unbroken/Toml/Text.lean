import Unbroken.Toml.Reader

/-! Strings of TOML in their four forms: basic and literal, on one line or on several. -/

namespace Unbroken.Toml

def hexValue? (letter : Char) : Option Nat :=
  let code := letter.toNat
  if 48 ≤ code ∧ code ≤ 57 then some (code - 48)
  else if 97 ≤ code ∧ code ≤ 102 then some (code - 87)
  else if 65 ≤ code ∧ code ≤ 70 then some (code - 55)
  else none

def numeral? (base : Nat) (digits : List Char) : Option Nat :=
  digits.foldlM (fun value letter => do
    let digit ← hexValue? letter
    if digit < base then some (base * value + digit) else none) 0

def codePoint (count : Nat) : Reader Char := fun text => do
  let digits := text.take count
  let code ← numeral? 16 digits
  if digits.length = count ∧ code.isValidChar then some (Char.ofNat code, text.drop count) else none

def escape : Reader Char
  | 'b' :: rest => some ('\x08', rest)
  | 't' :: rest => some ('\t', rest)
  | 'n' :: rest => some ('\n', rest)
  | 'f' :: rest => some ('\x0C', rest)
  | 'r' :: rest => some ('\r', rest)
  | '"' :: rest => some ('"', rest)
  | '\\' :: rest => some ('\\', rest)
  | 'u' :: rest => codePoint 4 rest
  | 'U' :: rest => codePoint 8 rest
  | _ => none

def basicLetter : Reader Char
  | '\\' :: rest => escape rest
  | letter :: rest => if isPlain letter ∧ letter ≠ '"' then some (letter, rest) else none
  | [] => none

def literalLetter : Reader Char
  | letter :: rest => if isPlain letter ∧ letter ≠ '\'' then some (letter, rest) else none
  | [] => none

def singleLine (quote : Char) (letter : Reader Char) : Reader (List Char) := fun text => do
  let (letters, rest) := Reader.many letter text
  let ((), rest) ← Reader.mark quote rest
  some (letters, rest)

def joinedLine : Reader (List Char)
  | '\\' :: rest => do
    let ((), rest) ← newline (skipBlanks rest)
    let (_, rest) := Reader.many (fun text => newline (skipBlanks text)) rest
    some ([], skipBlanks rest)
  | _ => none

def multiLinePiece (quote : Char) (letter : Reader Char) : Reader (List Char) := fun text =>
  let quotes := text.takeWhile (· == quote)
  if quotes.length = 1 ∨ quotes.length = 2 then some (quotes, text.drop quotes.length)
  else if 3 ≤ quotes.length then none
  else
    match newline text with
    | some ((), rest) => some (['\n'], rest)
    | none => (letter text).map fun (letter, rest) => ([letter], rest)

def multiLine (quote : Char) (piece : Reader (List Char)) : Reader (List Char) := fun text =>
  let text := match newline text with
    | some ((), rest) => rest
    | none => text
  let (pieces, rest) := Reader.many piece text
  let quotes := rest.takeWhile (· == quote)
  if 3 ≤ quotes.length ∧ quotes.length ≤ 5 then
    some (pieces.flatten ++ quotes.drop 3, rest.drop quotes.length)
  else none

def basicPiece : Reader (List Char) := fun text =>
  (joinedLine text).or (multiLinePiece '"' basicLetter text)

def string : Reader (List Char)
  | '"' :: '"' :: '"' :: rest => multiLine '"' basicPiece rest
  | '\'' :: '\'' :: '\'' :: rest => multiLine '\'' (multiLinePiece '\'' literalLetter) rest
  | '"' :: rest => singleLine '"' basicLetter rest
  | '\'' :: rest => singleLine '\'' literalLetter rest
  | _ => none

def isBare (letter : Char) : Bool :=
  letter.isAlphanum || letter == '-' || letter == '_'

def simpleKey : Reader String
  | '"' :: rest => (singleLine '"' basicLetter rest).map fun (text, rest) => (String.ofList text, rest)
  | '\'' :: rest =>
    (singleLine '\'' literalLetter rest).map fun (text, rest) => (String.ofList text, rest)
  | text =>
    let bare := text.takeWhile isBare
    if bare.isEmpty then none else some (String.ofList bare, text.drop bare.length)

def longestKey : Nat := 79

def key : Reader (List String) := fun text => do
  let part := fun text => (simpleKey (skipBlanks text)).map fun (part, rest) => (part, skipBlanks rest)
  let (parts, rest) ← Reader.separated part '.' false false text
  if parts.length ≤ longestKey then some (parts, rest) else none

end Unbroken.Toml
