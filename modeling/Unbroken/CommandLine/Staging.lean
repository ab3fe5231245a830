import Unbroken.Path

/-! Staging files for a commit, by asking another program about one after another. It stages the file or
refuses to, with a status as the system words it, or cannot be started. -/

namespace Unbroken

inductive Staging where
  | staged
  | refused (status : String := "exit status: 1")
  | unavailable
  deriving DecidableEq, Repr

abbrev Stager := Path → Staging

namespace Stager

def words (path : Path) : List String := ["add", path.spelling]

def refusalText (path : Path) (status : String) : String :=
  "git " ++ " ".intercalate (words path) ++ " exited with " ++ status

def stage (stager : Stager) : List Path → List Path × Option String
  | [] => ([], none)
  | path :: others =>
    match stager path with
    | .staged =>
      let (calls, failure) := stage stager others
      (path :: calls, failure)
    | .refused status => ([path], some (refusalText path status))
    | .unavailable => ([], some "spawn git")

end Stager

end Unbroken
