import Unbroken.Text.Pieces

/-! A text as its lines. Only the line feed ends a line, and a carriage return stays in the line. -/

namespace Unbroken

def splitLines (text : List Char) : List (List Char) :=
  pieces (· == '\n') text

def joinLines (lines : List (List Char)) : List Char :=
  ['\n'].intercalate lines

end Unbroken
