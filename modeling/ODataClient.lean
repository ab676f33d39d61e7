import ODataClient.Cache.Schedule
import ODataClient.Command.Calls
import ODataClient.Document.Basic
import ODataClient.Expr.Codec
import ODataClient.Expr.References
import ODataClient.Expr.Rendering
import ODataClient.Files.Folder
import ODataClient.Filter.Partition
import ODataClient.Json.Printer
import ODataClient.Json.Reader
import ODataClient.Main
import ODataClient.Model.Codec
import ODataClient.Model.Memo
import ODataClient.Proofs.Cache.Abandoning
import ODataClient.Proofs.Cache.Answers
import ODataClient.Proofs.Cache.Authors
import ODataClient.Proofs.Cache.Binding
import ODataClient.Proofs.Cache.Calls
import ODataClient.Proofs.Cache.Cached
import ODataClient.Proofs.Cache.Clearing
import ODataClient.Proofs.Cache.Coherence
import ODataClient.Proofs.Cache.Moves
import ODataClient.Proofs.Cache.SingleFlight
import ODataClient.Proofs.Cache.Steps
import ODataClient.Proofs.Expr.ReadBack
import ODataClient.Proofs.Expr.Renaming
import ODataClient.Proofs.Filter.Partition
import ODataClient.Proofs.Model.Memo
import ODataClient.Proofs.Model.Path
import ODataClient.Proofs.Model.Route
import ODataClient.Proofs.Outcome
import ODataClient.Proofs.Request.ExpandItems
import ODataClient.Proofs.Request.Hygiene
import ODataClient.Proofs.Request.Remembered
import ODataClient.Proofs.Request.Routing
import ODataClient.Proofs.Request.Wrapping
import ODataClient.Proofs.Text.Grouping
import ODataClient.Proofs.Text.Segments
import ODataClient.Protocol.Literal
import ODataClient.Request.Clauses
import ODataClient.Request.Compile
import ODataClient.Session.Timeline
import ODataClient.Settings.File
import ODataClient.Text.Alphanumeric
import ODataClient.Text.Case
import ODataClient.Text.Parts
import ODataClient.Value.Conversion
import ODataClient.Proofs.Session.Moves
import ODataClient.Proofs.Session.Orderly
import ODataClient.Proofs.Session.Construction
import ODataClient.Proofs.Cache.Gate
import ODataClient.Proofs.Session.Failures
import ODataClient.Proofs.Session.Lifecycle
import ODataClient.Proofs.Session.Sharing
import ODataClient.Proofs.Request.Dialects
import ODataClient.Proofs.Filter.RootBucket
import ODataClient.Proofs.Request.Wrappers
import ODataClient.Proofs.Request.CallOrder
import ODataClient.Proofs.Request.QueryText
import ODataClient.Proofs.Request.Casts
import ODataClient.Proofs.Model.Text
import ODataClient.Proofs.Expr.TreeForm
import ODataClient.Proofs.Request.ItemFilters
import ODataClient.Proofs.Request.WrapperPaths
import ODataClient.Proofs.Filter.BucketPaths
import ODataClient.Proofs.Filter.Syntaxes
import ODataClient.Proofs.Filter.Coercion
import ODataClient.Proofs.Filter.QueryOptions
import ODataClient.Proofs.Expr.Minimality
import ODataClient.Proofs.Request.Lexemes
import ODataClient.Proofs.Request.ExpandMentions
import ODataClient.Proofs.Request.KeyPredicates
import ODataClient.Proofs.Value.Widening
import ODataClient.Proofs.Value.Reconversion
import ODataClient.Proofs.Request.DistinctKeys
import ODataClient.Proofs.Model.Questions
import ODataClient.Proofs.Command.ContentIds
import ODataClient.Proofs.Text.Trimming
import ODataClient.Proofs.Document.Detection
import ODataClient.Proofs.CommandLine.Protocol
import ODataClient.Proofs.Model.Canonical
import ODataClient.Proofs.Expr.Prefixes
import ODataClient.Proofs.Expr.Flattening
import ODataClient.Proofs.Request.OptionTerms
