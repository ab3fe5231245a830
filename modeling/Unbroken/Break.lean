import Unbroken.Text.Lines
import Unbroken.Quote
import Unbroken.Path

/-! A break: a message that runs over several lines of a file, which are counted from one. Its text is
the message put on one line, and its excerpt the lines it was found on. -/

namespace Unbroken

structure Break where
  file : Path
  firstLine : Nat
  lastLine : Nat
  quote : Quote
  text : List Char
  excerpt : List Char
  deriving DecidableEq, Repr

namespace Break

def numberedLines (broken : Break) : List (Nat × List Char) :=
  (splitLines broken.excerpt).mapIdx fun offset line => (broken.firstLine + offset, line)

def order (left right : Break) : Ordering :=
  ((compare left.file right.file).then (compare left.firstLine right.firstLine)).then
    (compare left.lastLine right.lastLine)

def sorted (breaks : List Break) : List Break :=
  breaks.mergeSort fun left right => (order left right).isLE

end Break

end Unbroken
