import PathQuery.Catalog.ColumnType
import PathQuery.Catalog.Declaration
import PathQuery.Catalog.Directory
import PathQuery.Catalog.Table
import PathQuery.Choice.Batch
import PathQuery.Choice.Lookup
import PathQuery.Choice.Resolution
import PathQuery.Constraint.Basic
import PathQuery.Decimal.Binary64
import PathQuery.Decimal.Shortest
import PathQuery.Digest.Sha256
import PathQuery.Digest.Token
import PathQuery.Facet.Compiler
import PathQuery.Facet.Error
import PathQuery.Facet.Reverse
import PathQuery.Facet.SearchBox
import PathQuery.Facet.Term
import PathQuery.Filter.Canonical
import PathQuery.Filter.Clause
import PathQuery.Filter.Expansion
import PathQuery.Filter.Template
import PathQuery.Filter.Tree
import PathQuery.Json.Basic
import PathQuery.Json.Reader
import PathQuery.Json.Text
import PathQuery.Path.Aliases
import PathQuery.Path.OfSource
import PathQuery.Path.Segment
import PathQuery.Proofs.Catalog.ColumnPairs
import PathQuery.Proofs.Catalog.Linked
import PathQuery.Proofs.Catalog.Loading
import PathQuery.Proofs.Catalog.Named
import PathQuery.Proofs.Catalog.Sound
import PathQuery.Proofs.Catalog.TypeNames
import PathQuery.Proofs.Choice.AskedOnce
import PathQuery.Proofs.Choice.Batching
import PathQuery.Proofs.Choice.OrderIndependence
import PathQuery.Proofs.Choice.Schedule
import PathQuery.Proofs.Choice.Turns
import PathQuery.Proofs.Constraint.Clauses
import PathQuery.Proofs.Constraint.Meaning
import PathQuery.Proofs.Facet.Cases
import PathQuery.Proofs.Facet.Failures
import PathQuery.Proofs.Facet.FastSources
import PathQuery.Proofs.Facet.ForcedAliases
import PathQuery.Proofs.Facet.JoinedOnce
import PathQuery.Proofs.Facet.Precedence
import PathQuery.Proofs.Facet.RawSources
import PathQuery.Proofs.Facet.Reading
import PathQuery.Proofs.Facet.Reuse
import PathQuery.Proofs.Facet.ReverseRows
import PathQuery.Proofs.Facet.RootFilters
import PathQuery.Proofs.Facet.SearchMeaning
import PathQuery.Proofs.Facet.Settled
import PathQuery.Proofs.Facet.Unshared
import PathQuery.Proofs.Facet.WellScoped
import PathQuery.Proofs.Filter.Expansion
import PathQuery.Proofs.Filter.Grammar
import PathQuery.Proofs.Filter.Meaning
import PathQuery.Proofs.Filter.NormalForm
import PathQuery.Proofs.Filter.Rendered
import PathQuery.Proofs.Filter.Reordering
import PathQuery.Proofs.Filter.Template
import PathQuery.Proofs.Filter.Unambiguous
import PathQuery.Proofs.Filter.WrittenBack
import PathQuery.Proofs.Filter.WrittenForm
import PathQuery.Proofs.Json.Equality
import PathQuery.Proofs.Json.Fields
import PathQuery.Proofs.Json.Unambiguous
import PathQuery.Proofs.Outcome
import PathQuery.Proofs.Path.Alike
import PathQuery.Proofs.Path.Alternatives
import PathQuery.Proofs.Path.BoundNames
import PathQuery.Proofs.Path.Clauses
import PathQuery.Proofs.Path.Flattening
import PathQuery.Proofs.Path.ForcedAliases
import PathQuery.Proofs.Path.Formula
import PathQuery.Proofs.Path.Grammar
import PathQuery.Proofs.Path.History
import PathQuery.Proofs.Path.LeftJoins
import PathQuery.Proofs.Path.LegReading
import PathQuery.Proofs.Path.Minting
import PathQuery.Proofs.Path.Naming
import PathQuery.Proofs.Path.Reading
import PathQuery.Proofs.Path.Rendering
import PathQuery.Proofs.Path.Reversal
import PathQuery.Proofs.Path.Rows
import PathQuery.Proofs.Path.Scoping
import PathQuery.Proofs.Path.SourceReading
import PathQuery.Proofs.Path.Trail
import PathQuery.Proofs.Path.Unfiltered
import PathQuery.Proofs.Search.Number
import PathQuery.Proofs.Search.Pattern
import PathQuery.Proofs.Search.Regex
import PathQuery.Proofs.Search.Token
import PathQuery.Proofs.Source.Bare
import PathQuery.Proofs.Source.CanonicalIdentity
import PathQuery.Proofs.Source.Consistent
import PathQuery.Proofs.Source.Declarations
import PathQuery.Proofs.Source.Dependencies
import PathQuery.Proofs.Source.Equivalence
import PathQuery.Proofs.Source.Facts
import PathQuery.Proofs.Source.Grammar
import PathQuery.Proofs.Source.Grounded
import PathQuery.Proofs.Source.Inlining
import PathQuery.Proofs.Source.Landing
import PathQuery.Proofs.Source.Legs
import PathQuery.Proofs.Source.Turning
import PathQuery.Proofs.Source.Walk
import PathQuery.Proofs.Source.WrittenBack
import PathQuery.Proofs.Text.Percent
import PathQuery.Proofs.Text.Separated
import PathQuery.Proofs.Text.Trimmed
import PathQuery.Search.Pattern
import PathQuery.Source.Definitions
import PathQuery.Source.Identity
import PathQuery.Source.Resolution
import PathQuery.Source.Resolved
import PathQuery.Source.Spec
import PathQuery.Text.Basic
import PathQuery.Yaml.Cursor
import PathQuery.Yaml.Directive
import PathQuery.Yaml.Node
import PathQuery.Yaml.Scalar
import PathQuery.Yaml.Token
import PathQuery.Yaml.Value
