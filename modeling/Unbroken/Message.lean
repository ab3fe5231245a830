import Unbroken.Break

/-! What is told to the user: messages of three severities, and the listing of breaks. -/

namespace Unbroken

inductive Severity where
  | info
  | warn
  | error
  deriving DecidableEq, Repr

structure Message where
  severity : Severity
  text : String
  deriving DecidableEq, Repr

namespace Message

def info (text : String) : Message := ⟨.info, text⟩

def warn (text : String) : Message := ⟨.warn, text⟩

def error (text : String) : Message := ⟨.error, text⟩

def joined (messages : List Message) : String :=
  "\n".intercalate (messages.map text)

end Message

def advice : String :=
  "Example: \x7b\x7b _(\"add to cart\") \x7d\x7d instead of \x7b\x7b _(\"add\\n to cart\") \x7d\x7d"

namespace Break

def heading (position : Nat) (broken : Break) : String :=
  toString position ++ ". " ++ broken.file.spelling ++ ":" ++ toString broken.firstLine ++ "-" ++
    toString broken.lastLine

def numbered (number : Nat) (line : List Char) : String :=
  "   " ++ toString number ++ ": " ++ String.ofList line

def entry (position : Nat) (broken : Break) : List Message :=
  [.info (broken.heading position), .info "   Content:"] ++
    broken.numberedLines.map (fun (number, line) => .warn (numbered number line)) ++ [.info ""]

end Break

def listing (breaks : List Break) : List Message :=
  .error ("\nFound " ++ toString breaks.length ++ " multi-line translation string(s):\n") ::
    (breaks.mapIdx fun index broken => broken.entry (index + 1)).flatten

end Unbroken
