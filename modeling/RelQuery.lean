import RelQuery.Engine.Catalog
import RelQuery.Engine.Scripted
import RelQuery.Fetch
import RelQuery.Proofs.Condition.Lowering
import RelQuery.Proofs.Fetch.Replays
import RelQuery.Proofs.Fetch.Variants
import RelQuery.Proofs.Query.ArgumentOrder
import RelQuery.Proofs.Query.Columns
import RelQuery.Proofs.Query.Containment
import RelQuery.Proofs.Query.Copies
import RelQuery.Proofs.Query.CountedRows
import RelQuery.Proofs.Query.Filters
import RelQuery.Proofs.Query.ForeignIds
import RelQuery.Proofs.Query.JoinedSources
import RelQuery.Proofs.Query.NameClash
import RelQuery.Proofs.Query.Rebuilding
import RelQuery.Proofs.Row.Observed
import RelQuery.Query.Draft
import RelQuery.Row.Equality
import RelQuery.Settings.Resolve
import RelQuery.Value.Json
import RelQuery.Proofs.Row.Detached
import RelQuery.Proofs.Query.FromOrder
import RelQuery.Proofs.Query.NamingRule
import RelQuery.Proofs.Query.CountedText
import RelQuery.Proofs.Text.Comments
import RelQuery.Proofs.Query.Comments
import RelQuery.Proofs.Query.Collations
import RelQuery.Proofs.Query.ForeignKeys
import RelQuery.Proofs.Query.Reversal
import RelQuery.Proofs.Engine.RowIds
import RelQuery.Proofs.Row.Resolution
import RelQuery.Proofs.Row.Accessors
import RelQuery.Proofs.Query.ListedColumns
import RelQuery.Proofs.Settings.Precedence
import RelQuery.Proofs.Row.Composition
import RelQuery.Proofs.Row.Lookups
import RelQuery.Proofs.Number.Dyadic
import RelQuery.Proofs.Number.Whole
import RelQuery.Proofs.Value.Decoding
import RelQuery.Proofs.Number.Nearest
import RelQuery.Proofs.Number.Shortest
import RelQuery.Proofs.Json.Strings
import RelQuery.Proofs.Json.Numerals
import RelQuery.Proofs.Json.Documents
import RelQuery.Proofs.Json.Written
import RelQuery.Proofs.Value.Stored
import RelQuery.Proofs.Json.ShortNumerals
import RelQuery.Proofs.Text.QuotedNames
import RelQuery.Proofs.Value.Logs
