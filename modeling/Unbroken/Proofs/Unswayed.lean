import Unbroken.Proofs.Prepush

/-! What the answers to the requests to stage files can change: one message, the entry of the log behind
which a warning stands, and how many files are asked for. Nothing else of an invocation depends on them. -/

namespace Unbroken

namespace Invocation

section

variable (arguments) (stager : Stager) (mended : List Path)

end

variable {arguments : Arguments} {files : FileSystem} {refuses : Refusals}

variable (stager : Stager)

end Invocation

end Unbroken
