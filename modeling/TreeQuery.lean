import TreeQuery.Compiler
import TreeQuery.Query.Draft
import TreeQuery.Decimal.Shortest
import TreeQuery.Diagnostic
import TreeQuery.Document.Cursor
import TreeQuery.Document.Number
import TreeQuery.Document.Fault
import TreeQuery.Document.Form
import TreeQuery.Document.Meaning
import TreeQuery.Command.Arguments
import TreeQuery.Command.Event
import TreeQuery.Command.Folder
import TreeQuery.Main
import TreeQuery.Pattern.Match
import TreeQuery.Plan.Statement
import TreeQuery.Query.Satisfaction
import TreeQuery.Proofs.Arrangement.Count
import TreeQuery.Proofs.Pattern.Translation
import TreeQuery.Proofs.Plan.Compilation
import TreeQuery.Proofs.Renaming.Pattern
import TreeQuery.Proofs.Arrangement.Contradiction
import TreeQuery.Proofs.Document.Image
import TreeQuery.Proofs.Document.Meaning
import TreeQuery.Proofs.Predicate.Canonical
import TreeQuery.Proofs.Pattern.Grammar
import TreeQuery.Proofs.Pattern.Quoting
import TreeQuery.Proofs.Pattern.WordOrder
import TreeQuery.Proofs.Placement.Refusal
import TreeQuery.Proofs.Placement.Declaration
import TreeQuery.Proofs.Order.Connection
import TreeQuery.Proofs.Arrangement.Selection
import TreeQuery.Proofs.Registry
import TreeQuery.Proofs.Arrangement.Division
import TreeQuery.Proofs.Diagnostic
