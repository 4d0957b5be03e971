import Provenance.CommandLine
import Provenance.Main
import Provenance.Proofs.OrderedUnion
import Provenance.Proofs.Distinct
import Provenance.Proofs.Store
import Provenance.Proofs.Table
import Provenance.Proofs.WellFormed
import Provenance.Proofs.ValueTags
import Provenance.Proofs.Recognition
import Provenance.Proofs.Writes
import Provenance.Proofs.Transfer
import Provenance.Proofs.Route
import Provenance.Proofs.Origin
import Provenance.Proofs.Related
import Provenance.Proofs.Limits
import Provenance.Proofs.Alike
import Provenance.Proofs.Order
import Provenance.Proofs.AppendOnly
import Provenance.Proofs.Built
import Provenance.Proofs.Independence
import Provenance.Proofs.Size
import Provenance.Proofs.Inherited
import Provenance.Proofs.Guarded
import Provenance.Proofs.Namesake
import Provenance.Proofs.Rendering
import Provenance.Proofs.Spelling
import Provenance.Proofs.Documents
import Provenance.Proofs.RoundTrip
import Provenance.Proofs.AllOrNothing
import Provenance.Proofs.Quotation
import Provenance.Proofs.Arguments
import Provenance.Proofs.Attempts
import Provenance.Proofs.Merging
import Provenance.Proofs.Answers
import Provenance.Proofs.Folding
import Provenance.Proofs.Copies
import Provenance.Proofs.Builder
import Provenance.Proofs.Substring
import Provenance.Proofs.Decimals
import Provenance.Proofs.Rounding
import Provenance.Proofs.Shortest
import Provenance.Proofs.DoubleText
import Provenance.Proofs.FewestDigits
import Provenance.Proofs.AnyOrder
