import Unbroken.Text.Blank
import Unbroken.Text.Cut
import Unbroken.Marker
import Unbroken.Break
import Unbroken.Template

/-! The search for messages that are broken over lines.

A line is read by its leftmost opening marker alone. If the message closes on the same line, there
is nothing to find; otherwise the closing marker is looked for on the next few lines, and a message
that stays open that long is left alone. Every line is judged by itself, also one that lies inside
a break found before. -/

namespace Unbroken

def reach : Nat := 9

structure Closing where
  between : List (List Char)
  head : List Char
  deriving DecidableEq, Repr

def closing? (marker : List Char) : List (List Char) → Option Closing
  | [] => none
  | line :: below =>
    match cut marker line with
    | some (head, _) => some { between := [], head := head }
    | none =>
      (closing? marker below).map fun closing =>
        { closing with between := line :: closing.between }

/-- The break that starts on a line, given the line's number and the lines below it. -/
def breakAt? (file : Path) (number : Nat) (line : List Char) (below : List (List Char)) :
    Option Break := do
  let marker ← Marker.leftmost? line
  if occurs marker.quote.closer marker.tail then none
  else
    let closing ← closing? marker.quote.closer (below.take reach)
    let depth := closing.between.length + 1
    some {
      file := file
      firstLine := number
      lastLine := number + depth
      quote := marker.quote
      text := singleSpaced ([' '].intercalate (marker.tail :: closing.between ++ [closing.head]))
      excerpt := trim (joinLines (line :: below.take depth)) }

def breaksFrom (file : Path) (number : Nat) : List (List Char) → List Break
  | [] => []
  | line :: below =>
    (breakAt? file number line below).toList ++ breaksFrom file (number + 1) below

def Template.breaks (template : Template) (file : Path) : List Break :=
  breaksFrom file 1 template.lines

def breaksIn (file : Path) (text : List Char) : List Break :=
  (Template.ofText text).breaks file

structure Survey where
  file : Path
  number : Nat
  below : List (List Char)

namespace Survey

def ofTemplate (file : Path) (template : Template) : Survey :=
  { file := file, number := 1, below := template.lines }

def breaks (survey : Survey) : List Break :=
  breaksFrom survey.file survey.number survey.below

def advance (file : Path) (number : Nat) : List (List Char) → Option (Break × Survey)
  | [] => none
  | line :: below =>
    match breakAt? file number line below with
    | some broken => some (broken, { file := file, number := number + 1, below := below })
    | none => advance file (number + 1) below

def next? (survey : Survey) : Option (Break × Survey) :=
  advance survey.file survey.number survey.below

theorem next?_eq (survey : Survey) :
    match survey.next? with
    | some (broken, later) => survey.breaks = broken :: later.breaks
    | none => survey.breaks = [] := by
  obtain ⟨file, number, below⟩ := survey
  simp only [next?, breaks]
  induction below generalizing number with
  | nil => simp [advance, breaksFrom]
  | cons line below ih =>
      rw [advance, breaksFrom]
      cases judged : breakAt? file number line below with
      | some broken => simp
      | none => simpa using ih (number + 1)

end Survey

end Unbroken
