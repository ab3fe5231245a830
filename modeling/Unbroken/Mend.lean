import Unbroken.Text.Cut
import Unbroken.Break
import Unbroken.Template

/-! Putting broken messages on one line.

Breaks are mended from the bottom of the template to its top, so that the line numbers of those
still to come stay as they were. A break whose markers are not where it says is passed over. -/

namespace Unbroken

/-- The lines with one break mended: its first line up to the opening marker, the message on one
line, and its last line from behind the closing marker. There is no such result if a line does not
exist or lacks its marker. -/
def unite? (broken : Break) (lines : List (List Char)) : Option (List (List Char)) :=
  if broken.firstLine = 0 ∨ broken.lastLine < broken.firstLine then none
  else do
    let first ← lines[broken.firstLine - 1]?
    let last ← lines[broken.lastLine - 1]?
    let (before, _) ← cut broken.quote.opener first
    let (_, after) ← cut broken.quote.closer last
    let united := before ++ broken.quote.opener ++ broken.text ++ broken.quote.closer ++ after
    some (lines.take (broken.firstLine - 1) ++ united :: lines.drop broken.lastLine)

structure Mended where
  template : Template
  count : Nat
  deriving DecidableEq, Repr

namespace Mended

def changed (mended : Mended) : Bool :=
  0 < mended.count

def step (mended : Mended) (broken : Break) : Mended :=
  match unite? broken mended.template.lines with
  | some lines => { template := ⟨lines⟩, count := mended.count + 1 }
  | none => mended

end Mended

/-- Breaks that start on one line stay as they stand. -/
def bottomUp (breaks : List Break) : List Break :=
  breaks.mergeSort fun left right => decide (right.firstLine ≤ left.firstLine)

def mend (template : Template) (breaks : List Break) : Mended :=
  (bottomUp breaks).foldl Mended.step { template := template, count := 0 }

end Unbroken
