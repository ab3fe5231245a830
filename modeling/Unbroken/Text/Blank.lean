import Unbroken.Text.Pieces

/-! Blank characters, and the two ways in which a text is freed of them: its ends are trimmed, or
every run of blanks becomes one space. -/

namespace Unbroken

/-- The characters with the White_Space property. The information separators U+001C to U+001F and
the zero-width characters are not among them. -/
def isBlank (letter : Char) : Bool :=
  let code := letter.toNat
  (0x09 ≤ code && code ≤ 0x0D) || code == 0x20 || code == 0x85 || code == 0xA0 || code == 0x1680 ||
    (0x2000 ≤ code && code ≤ 0x200A) || code == 0x2028 || code == 0x2029 || code == 0x202F ||
    code == 0x205F || code == 0x3000

def trimStart (text : List Char) : List Char :=
  text.dropWhile isBlank

def trimEnd (text : List Char) : List Char :=
  (text.reverse.dropWhile isBlank).reverse

def trim (text : List Char) : List Char :=
  trimEnd (trimStart text)

def words (text : List Char) : List (List Char) :=
  (pieces isBlank text).filter (!·.isEmpty)

def singleSpaced (text : List Char) : List Char :=
  [' '].intercalate (words text)

def solid (text : List Char) : List Char :=
  text.filter (!isBlank ·)

end Unbroken
