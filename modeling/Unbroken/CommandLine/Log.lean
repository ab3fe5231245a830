import Unbroken.Message
import Unbroken.Report
import Unbroken.CommandLine.Arguments

/-! The log of an invocation: the entries of the program itself, as they are handed on. Whether an entry
is written, and how, is not said here. What a check itself notes as it goes on is left out. -/

namespace Unbroken

inductive LogValue where
  | text (value : String)
  | path (value : Path)
  | number (value : Nat)
  | flag (value : Bool)
  deriving DecidableEq, Repr

structure LogEntry where
  severity : Severity
  text : String
  fields : List (String × LogValue)
  deriving DecidableEq, Repr

namespace LogEntry

def starting (root : Path) (fix prepush : Bool) : LogEntry :=
  { severity := .info
    text := "starting check"
    fields := [("root", .path root), ("fix", .flag fix), ("prepush", .flag prepush)] }

def unstaged (error : String) : LogEntry :=
  { severity := .warn, text := "git add failed", fields := [("error", .text error)] }

def finished (tally : Tally) : LogEntry :=
  { severity := .info
    text := "check finished"
    fields := [
      ("files_scanned", .number tally.filesRead),
      ("findings", .number tally.breaksFound),
      ("files_fixed", .number tally.filesMended)] }

def failed (failure : Failure) : LogEntry :=
  { severity := .warn, text := "check failed", fields := [("failure", .text failure.message)] }

end LogEntry

end Unbroken
