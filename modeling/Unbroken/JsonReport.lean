import Unbroken.Break

/-! Breaks as a JSON array, indented by two spaces and ended by a line feed. -/

namespace Unbroken.JsonReport

def hexDigit (value : Nat) : Char :=
  if value < 10 then Char.ofNat (48 + value) else Char.ofNat (87 + value)

/-- Quotes, backslashes and control characters below U+0020 are escaped, five of the latter by a
letter; all else is written as it is. -/
def escaped (letter : Char) : List Char :=
  match letter with
  | '"' => ['\\', '"']
  | '\\' => ['\\', '\\']
  | '\x08' => ['\\', 'b']
  | '\t' => ['\\', 't']
  | '\n' => ['\\', 'n']
  | '\x0C' => ['\\', 'f']
  | '\r' => ['\\', 'r']
  | _ =>
    if letter.toNat < 0x20 then
      ['\\', 'u', '0', '0', hexDigit (letter.toNat / 16), hexDigit (letter.toNat % 16)]
    else [letter]

def quoted (text : List Char) : List Char :=
  '"' :: text.flatMap escaped ++ ['"']

def member (key : String) (value : List Char) : List Char :=
  "    ".toList ++ quoted key.toList ++ ": ".toList ++ value

def members (broken : Break) : List (List Char) := [
  member "file" (quoted broken.file.spelling.toList),
  member "start_line" (toString broken.firstLine).toList,
  member "end_line" (toString broken.lastLine).toList,
  member "quote" (quoted broken.quote.name.toList),
  member "text" (quoted broken.text),
  member "content" (quoted broken.excerpt)]

def record (broken : Break) : List Char :=
  "  \x7b\n".toList ++ ",\n".toList.intercalate (members broken) ++ "\n  \x7d".toList

def render (breaks : List Break) : List Char :=
  if breaks.isEmpty then "[]\n".toList
  else "[\n".toList ++ ",\n".toList.intercalate (breaks.map record) ++ "\n]\n".toList

end Unbroken.JsonReport
