import Unbroken.FileSystem.Resolve
import Unbroken.Message

/-! The files as a check goes on, what was told so far, and what goes on around it: whoever hears a
message may change files, and a file may refuse to be saved. -/

namespace Unbroken

abbrev Listener := Message → FileSystem → FileSystem

structure Progress where
  files : FileSystem
  told : List Message

/-- Why a file cannot be saved when a check has come so far, if it cannot. -/
abbrev Refusals := Progress → Path → Option FileError

def Refusals.never : Refusals := fun _ _ => none

structure Surroundings where
  listener : Listener
  refuses : Refusals := .never

namespace Surroundings

def silent (refuses : Refusals) : Surroundings :=
  { listener := fun _ files => files, refuses := refuses }

abbrev quiet : Surroundings := silent .never

@[simp] theorem refuses_quiet (progress : Progress) (path : Path) :
    quiet.refuses progress path = none :=
  rfl

end Surroundings

namespace Progress

def tell (around : Surroundings) (progress : Progress) (message : Message) : Progress :=
  { files := around.listener message progress.files, told := progress.told ++ [message] }

def tellAll (around : Surroundings) (progress : Progress) (messages : List Message) : Progress :=
  messages.foldl (tell around) progress

theorem tell_silent (refuses : Refusals) (progress : Progress) (message : Message) :
    progress.tell (.silent refuses) message =
      { files := progress.files, told := progress.told ++ [message] } :=
  rfl

theorem tellAll_silent (refuses : Refusals) (progress : Progress) (messages : List Message) :
    progress.tellAll (.silent refuses) messages =
      { files := progress.files, told := progress.told ++ messages } := by
  induction messages generalizing progress with
  | nil => simp [tellAll]
  | cons message later ih => simpa [tellAll, tell_silent] using ih (progress.tell (.silent refuses) message)

end Progress

end Unbroken
