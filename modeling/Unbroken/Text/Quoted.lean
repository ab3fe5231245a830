import Unbroken.Text.Shapeless

/-! Text in double quotes as it is shown in an error message: every character is either visible or
written as an escape. -/

namespace Unbroken.Quoted

def shown (letter : Char) : List Char :=
  match letter with
  | '\x00' => ['\\', '0']
  | '\t' => ['\\', 't']
  | '\n' => ['\\', 'n']
  | '\r' => ['\\', 'r']
  | '"' => ['\\', '"']
  | '\\' => ['\\', '\\']
  | _ =>
    if isShapeless letter then
      "\\u\x7b".toList ++ Nat.toDigits 16 letter.toNat ++ ['\x7d']
    else [letter]

def quote (text : List Char) : List Char :=
  '"' :: text.flatMap shown ++ ['"']

end Unbroken.Quoted
