import Unbroken.Break

/-! The result of a check. -/

namespace Unbroken

inductive Failure where
  | broken (count : Nat)
  | unmended (count : Nat)
  deriving DecidableEq, Repr

def Failure.message : Failure → String
  | broken count => "found " ++ toString count ++ " multi-line translation string(s)"
  | unmended count =>
    "could not auto-fix all errors, " ++ toString count ++
      " multi-line translation string(s) remain"

inductive Verdict where
  | clean
  | mended
  | failed (failure : Failure)
  deriving DecidableEq, Repr

def Verdict.isSuccess : Verdict → Bool
  | clean | mended => true
  | failed _ => false

structure Tally where
  filesRead : Nat
  breaksFound : Nat
  filesMended : Nat
  passes : Nat
  deriving DecidableEq, Repr

structure Report where
  verdict : Verdict
  tally : Tally
  breaks : List Break
  mendedFiles : List Path
  deriving DecidableEq, Repr

end Unbroken
