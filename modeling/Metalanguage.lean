import Metalanguage.Main
import Metalanguage.Expression.Assembly
import Metalanguage.GraphDocument
import Metalanguage.Proofs.Expression.ClauseOrder
import Metalanguage.Proofs.Reader.RoundTrip
import Metalanguage.Proofs.TreeGraph.Layout
import Metalanguage.Proofs.Expression.Descendants
import Metalanguage.Proofs.Expression.Containment
import Metalanguage.Proofs.Reader.Resolved
import Metalanguage.Proofs.Reader.HypertextLiterals
import Metalanguage.Proofs.Grammar.Derivation
import Metalanguage.Proofs.Grammar.Unambiguous
import Metalanguage.Proofs.Reader.Spacing
import Metalanguage.Proofs.Reader.Literals
import Metalanguage.Proofs.Reader.Rearranged
import Metalanguage.Proofs.Expression.Handle
import Metalanguage.Proofs.GraphDocument
import Metalanguage.Proofs.Reader.Limits
import Metalanguage.Proofs.Reader.Grown
import Metalanguage.Proofs.Reader.Sound
import Metalanguage.Proofs.Reader.Reread
import Metalanguage.Proofs.Expression.Modes
import Metalanguage.Proofs.Expression.ReportedCycle
import Metalanguage.Proofs.Reader.FirstUnknown
import Metalanguage.Proofs.TreeGraph.Ties
import Metalanguage.Proofs.Expression.Gathering
import Metalanguage.Proofs.Report.Drawing
import Metalanguage.Proofs.Report.Inspection
import Metalanguage.Proofs.Expression.TextBuilders
import Metalanguage.Proofs.Reader.LiteralsBack
import Metalanguage.Proofs.Reader.Loaded
import Metalanguage.Proofs.Reader.Requests
import Metalanguage.Proofs.Reader.LiteralSet
import Metalanguage.Proofs.Reader.Suggestion
import Metalanguage.Proofs.Report.Check
import Metalanguage.Proofs.Report.Column
import Metalanguage.Proofs.Reader.Scanned
import Metalanguage.Proofs.TreeGraph.Termination
