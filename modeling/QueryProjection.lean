import QueryProjection.OrderedMap
import QueryProjection.Decimal.Basic
import QueryProjection.Decimal.Shortest
import QueryProjection.Decimal.Layout
import QueryProjection.Datum
import QueryProjection.Key
import QueryProjection.TypeName
import QueryProjection.Text.Position
import QueryProjection.Text.Hex
import QueryProjection.Text.Visible
import QueryProjection.Text.Digit
import QueryProjection.Text.Literal
import QueryProjection.Json.Reader
import QueryProjection.Json.Writer
import QueryProjection.Document.Basic
import QueryProjection.Document.Lexeme
import QueryProjection.Document.Scan
import QueryProjection.Document.SyntaxError
import QueryProjection.Document.Reader
import QueryProjection.Document.Selections
import QueryProjection.Document.TypeSystems
import QueryProjection.Document.Grammar
import QueryProjection.Document.Query
import QueryProjection.Notice
import QueryProjection.Fault
import QueryProjection.Logged
import QueryProjection.Model
import QueryProjection.Conversion
import QueryProjection.Source.Basic
import QueryProjection.Source.Datamodel
import QueryProjection.Source.Schema
import QueryProjection.Source.Mapped.Catalogue
import QueryProjection.Source.Mapped
import QueryProjection.Registry
import QueryProjection.Options
import QueryProjection.Projection
import QueryProjection.Compile
import QueryProjection.Expansion
import QueryProjection.Aggregate
import QueryProjection.Client
import QueryProjection.Session
import QueryProjection.Command.Arguments
import QueryProjection.Command.Run
import QueryProjection.Main
import QueryProjection.Proofs.Merging
import QueryProjection.Proofs.Sources
import QueryProjection.Proofs.Conversion
import QueryProjection.Proofs.Registry.Outlook
import QueryProjection.Proofs.Expansion.Walk
import QueryProjection.Proofs.Expansion.Settled
import QueryProjection.Proofs.Expansion.Results
import QueryProjection.Proofs.Expansion.Occurrences
import QueryProjection.Proofs.Expansion.Strictness
import QueryProjection.Proofs.Expansion.Unguarded
import QueryProjection.Proofs.Expansion.Reentry
import QueryProjection.Proofs.Expansion.Lookups
import QueryProjection.Proofs.Registry.Requests
import QueryProjection.Proofs.Registry.Sessions
import QueryProjection.Proofs.Registry.Learning
import QueryProjection.Proofs.Registry.Faithful
import QueryProjection.Proofs.Registry.History
import QueryProjection.Proofs.Registry.Interruption
import QueryProjection.Proofs.Expansion.KnownFields
import QueryProjection.Proofs.Expansion.WellFormed
import QueryProjection.Proofs.Expansion.Agreement
import QueryProjection.Proofs.Expansion.Pruning
import QueryProjection.Proofs.Registry.Forgetting
import QueryProjection.Proofs.Registry.Coherence
import QueryProjection.Proofs.Expansion.Inlining
import QueryProjection.Proofs.Expansion.Joining
import QueryProjection.Proofs.Expansion.Closed
import QueryProjection.Proofs.Expansion.Revisions
import QueryProjection.Proofs.Expansion.Substitution
import QueryProjection.Proofs.Expansion.Failures
import QueryProjection.Proofs.Expansion.Mapped
import QueryProjection.Proofs.Expansion.Variables
import QueryProjection.Proofs.Document
import QueryProjection.Proofs.Expansion.Lenient
import QueryProjection.Proofs.Registry.Issuing
import QueryProjection.Proofs.Registry.Identity
import QueryProjection.Proofs.Command.Entries
import QueryProjection.Proofs.Command.Joined
import QueryProjection.Proofs.Decimal
import QueryProjection.Proofs.Json.RoundTrip
import QueryProjection.Proofs.Expansion.Admissible
import QueryProjection.Proofs.Command.Lossless
import QueryProjection.Proofs.Projection
import QueryProjection.Proofs.Aggregate
import QueryProjection.Proofs.Expansion.RelationCounts
import QueryProjection.Proofs.Expansion.Arguments
import QueryProjection.Proofs.Expansion.Flat
import QueryProjection.Proofs.Expansion.Visits
import QueryProjection.Proofs.Expansion.Depth
import QueryProjection.Proofs.Expansion.Reordered
import QueryProjection.Command.Help
import QueryProjection.Proofs.Command.Helping
