import LogQuery.Main
import LogQuery.Proofs.Amounts
import LogQuery.Proofs.Batch
import LogQuery.Proofs.Built
import LogQuery.Proofs.Decoding
import LogQuery.Proofs.Drilldown
import LogQuery.Proofs.Event.Parent
import LogQuery.Proofs.Fields
import LogQuery.Proofs.Labels.Name
import LogQuery.Proofs.Layout
import LogQuery.Proofs.Lines
import LogQuery.Proofs.Lines.Appended
import LogQuery.Proofs.Matchers.Layout
import LogQuery.Proofs.Nesting
import LogQuery.Proofs.Origin
import LogQuery.Proofs.Positions
import LogQuery.Proofs.Precedence
import LogQuery.Proofs.Report
import LogQuery.Proofs.RoundTrip
import LogQuery.Proofs.Service
import LogQuery.Proofs.Spacing
import LogQuery.Proofs.Suffix
import LogQuery.Proofs.Token.Longest
import LogQuery.Proofs.Token.Written
import LogQuery.Proofs.Values
import LogQuery.Proofs.Walk
import LogQuery.Tree.Outline
