import Unbroken.Text.Lines

/-! A template as a list of lines. -/

namespace Unbroken

structure Template where
  lines : List (List Char)
  deriving DecidableEq, Repr

namespace Template

def ofText (text : List Char) : Template :=
  ⟨splitLines text⟩

def text (template : Template) : List Char :=
  joinLines template.lines

end Template

end Unbroken
