import IdentCase.Unicode.Blank
import IdentCase.Unicode.Case
import IdentCase.Unicode.Letter
import IdentCase.Unicode.Number
import IdentCase.Unicode.Identifier
import IdentCase.Unicode.Printable
import IdentCase.Unicode.Interval
import IdentCase.Pattern.CharTest
import IdentCase.Pattern.Expr
import IdentCase.Pattern.Match
import IdentCase.Pattern.Reading
import IdentCase.Pattern.Grammar
import IdentCase.Decimal.Shortest
import IdentCase.Json.Basic
import IdentCase.Json.Display
import IdentCase.Json.Printer
import IdentCase.Json.Reader
import IdentCase.Fault
import IdentCase.Console
import IdentCase.Host
import IdentCase.Pattern.Compile
import IdentCase.Matcher
import IdentCase.Options
import IdentCase.Naming
import IdentCase.Tree.Heap
import IdentCase.Tree.Equality
import IdentCase.Tree.Walk
import IdentCase.Context
import IdentCase.Violation
import IdentCase.Check
import IdentCase.Proofs.Json.Distinct
import IdentCase.Proofs.Json.Reader
import IdentCase.Proofs.Run
import IdentCase.Proofs.Tree.Loading
import IdentCase.Proofs.Tree.Shorthand
import IdentCase.Proofs.Tree.Staging
import IdentCase.Proofs.Tree.Siblings
import IdentCase.Proofs.Tree.Linking
import IdentCase.Proofs.Tree.Links
import IdentCase.Proofs.Tree.Order
import IdentCase.Proofs.Pattern.Spans
import IdentCase.Proofs.Naming
import IdentCase.Proofs.Pass
import IdentCase.Proofs.Reports
import IdentCase.Proofs.Loosening
import IdentCase.Proofs.Records
import IdentCase.Proofs.Trace
import IdentCase.Proofs.Tree.Renaming
import IdentCase.Proofs.Neighbours
import IdentCase.Proofs.Tree.Statements
import IdentCase.Proofs.Tree.Parts
import IdentCase.Proofs.Tree.Comparison
import IdentCase.Proofs.Tree.Descent
import IdentCase.Proofs.Tree.Attached
import IdentCase.Proofs.Tree.Abreast
import IdentCase.Proofs.Tree.Splitting
import IdentCase.Proofs.Tree.Positions
import IdentCase.Proofs.Transport
import IdentCase.Proofs.Composition
import IdentCase.Proofs.Tree.Agreement
import IdentCase.Proofs.Session.Actions
import IdentCase.Proofs.Session.Marks
import IdentCase.Proofs.Session.Losses
import IdentCase.Proofs.Session.Restart
import IdentCase.Proofs.Tree.Relinking
import IdentCase.Proofs.Session.Repeats
import IdentCase.Proofs.Tree.Legible
import IdentCase.Proofs.WellShaped
import IdentCase.Proofs.Tree.Alike
import IdentCase.Proofs.Coincidence
import IdentCase.Proofs.Json.Reorders
import IdentCase.Proofs.Reordering
import IdentCase.Proofs.Tree.Without
import IdentCase.Proofs.Irrelevance
import IdentCase.Proofs.Tree.Acyclic
import IdentCase.Proofs.Tree.Multiplicity
import IdentCase.Proofs.Pattern.Repetition
import IdentCase.Proofs.Trimming
import IdentCase.Proofs.Decision
import IdentCase.Proofs.Destructuring
import IdentCase.Proofs.Exceptions
import IdentCase.Proofs.Affixes
import IdentCase.Proofs.Idempotence
import IdentCase.Proofs.Pattern.Plain
import IdentCase.Proofs.Elements
import IdentCase.Proofs.Pattern.Endings
import IdentCase.Proofs.Pattern.Pieces
import IdentCase.Proofs.Pattern.Limits
import IdentCase.Proofs.Resolution
import IdentCase.Proofs.Faults
import IdentCase.Proofs.Literals
import IdentCase.Proofs.Identification
import IdentCase.Proofs.Visits
import IdentCase.Proofs.Neighbourhood
