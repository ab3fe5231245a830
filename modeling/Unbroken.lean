import Unbroken.Main
import Unbroken.Proofs.Sound
import Unbroken.Proofs.Verdict
import Unbroken.Proofs.InPlace
import Unbroken.Proofs.OpenLines
import Unbroken.Proofs.Stale
import Unbroken.Proofs.Overtaken
import Unbroken.Proofs.Afresh
import Unbroken.Proofs.Repeated
import Unbroken.Proofs.Grouped
import Unbroken.Proofs.FixedList
import Unbroken.Proofs.Relisted
import Unbroken.Proofs.Reordered
import Unbroken.Proofs.Unreadable
import Unbroken.Proofs.Rescan
import Unbroken.Proofs.Size
import Unbroken.Proofs.Frame
import Unbroken.Proofs.Endings
import Unbroken.Proofs.Reload
import Unbroken.Proofs.Listing
import Unbroken.Proofs.Found
import Unbroken.Proofs.Unswayed
import Unbroken.Proofs.ReadBack
import Unbroken.Proofs.Layers
import Unbroken.Proofs.Enclosed
import Unbroken.Proofs.Nested
