import LiveJson.Main
import LiveJson.Session.Run
import LiveJson.Expr.Printer
import LiveJson.Segment.Printer
import LiveJson.Proofs.Expr.Parser
import LiveJson.Proofs.Match.Relabel
import LiveJson.Proofs.Run.Moves
import LiveJson.Proofs.Match.Plain
import LiveJson.Proofs.Store.Document
import LiveJson.Proofs.Run.Telling
import LiveJson.Proofs.Store.Inside
import LiveJson.Proofs.Run.Recorded
import LiveJson.Proofs.Run.Documents
import LiveJson.Proofs.Run.Views
import LiveJson.Proofs.Store.Account
import LiveJson.Proofs.Run.Delivery
import LiveJson.Proofs.Run.Mirror
import LiveJson.Proofs.Match.Extend
import LiveJson.Proofs.Run.Report
import LiveJson.Proofs.Run.Failure
import LiveJson.Proofs.Run.Behalf
import LiveJson.Proofs.Run.Origin
import LiveJson.Proofs.Match.Located
import LiveJson.Proofs.Store.Replaced
import LiveJson.Proofs.Run.Change
import LiveJson.Proofs.Run.Subscriptions
import LiveJson.Proofs.Path.Clauses
import LiveJson.Proofs.Path.Printed
import LiveJson.Proofs.Run.Detached
import LiveJson.Proofs.Run.Apart
import LiveJson.Proofs.Run.Broadcast
import LiveJson.Proofs.Session.SingleFlight
import LiveJson.Proofs.Run.Descent
import LiveJson.Proofs.Run.Cycles
import LiveJson.Proofs.Match.Genuine
import LiveJson.Proofs.Match.Prevented
import LiveJson.Proofs.Run.Removal
import LiveJson.Proofs.Run.Order
import LiveJson.Proofs.Path.Bracketed
import LiveJson.Proofs.Match.Reports
import LiveJson.Proofs.Match.Preorder
import LiveJson.Proofs.Run.Refusal
import LiveJson.Proofs.Expr.Naming
import LiveJson.Proofs.Expr.Escapes
import LiveJson.Proofs.Path.Spans
import LiveJson.Proofs.Path.Pointer
import LiveJson.Proofs.Match.Slices
import LiveJson.Proofs.Query.Shapes
import LiveJson.Proofs.Expr.Printed
import LiveJson.Proofs.Binding
import LiveJson.Proofs.Match.Markers
import LiveJson.Proofs.Path.Commas
