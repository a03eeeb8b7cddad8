import Sigil.Main
import Sigil.Trace
import Sigil.Proofs.Dialogue
import Sigil.Proofs.Safety
import Sigil.Proofs.Printing.Inverse
import Sigil.Proofs.Machine.Balance
import Sigil.Proofs.Tokens.Tiling
import Sigil.Proofs.Scoping.Compilation
import Sigil.Proofs.Machine.Stopping
import Sigil.Proofs.Machine.Thresholds
import Sigil.Proofs.Relating
import Sigil.Proofs.Draft.Calls
import Sigil.Proofs.Session.Basic
import Sigil.Proofs.Session.Targets
import Sigil.Proofs.Draft.Relocation
import Sigil.Proofs.Session.Reuse
import Sigil.Proofs.Session.Failure
import Sigil.Proofs.Draft.Shift
import Sigil.Proofs.Reordering.Matching
import Sigil.Proofs.Draft.Parts
import Sigil.Proofs.Reordering.Order
import Sigil.Proofs.Course.Tidiness
import Sigil.Proofs.Course.Isolation
import Sigil.Proofs.Course.Height
import Sigil.Proofs.Course.Arrangement
import Sigil.Proofs.Session.Succession
import Sigil.Proofs.Tokens.Munch
import Sigil.Proofs.Tokens.Rendering
import Sigil.Proofs.Parsing.Outcome
import Sigil.Proofs.Machine.Retention
import Sigil.Proofs.Assembly
import Sigil.Proofs.Parsing.Ending
import Sigil.Proofs.Printing.Groups
import Sigil.Proofs.Scoping.History
import Sigil.Proofs.Session.Neutrality
import Sigil.Proofs.Listing.Compilation
