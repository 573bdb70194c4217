import ConnectorQuery.Main
import ConnectorQuery.Proofs.Grammar.Tokens
import ConnectorQuery.Proofs.Grammar.Soundness
import ConnectorQuery.Proofs.Grammar.Completeness
import ConnectorQuery.Proofs.Statement.WellFormed
import ConnectorQuery.Proofs.Query.Valid
import ConnectorQuery.Proofs.Statement.Render
import ConnectorQuery.Proofs.Statement.RoundTrip
import ConnectorQuery.Proofs.Query.ClauseOrder
import ConnectorQuery.Proofs.Mapping.Conflicts
import ConnectorQuery.Proofs.Batch.Quoting
import ConnectorQuery.Proofs.Batch.Places
import ConnectorQuery.Proofs.Statement.Refusal
import ConnectorQuery.Proofs.Json.RoundTrip
import ConnectorQuery.Proofs.Batch.Joining
import ConnectorQuery.Proofs.Query.Layout
import ConnectorQuery.Proofs.Mapping.Trimming
import ConnectorQuery.Proofs.Token.Lossless
import ConnectorQuery.Proofs.Mapping.Table
import ConnectorQuery.Proofs.Query.Columns
import ConnectorQuery.Proofs.Batch.Pieces
import ConnectorQuery.Proofs.Query.Named
import ConnectorQuery.Proofs.Statement.Nesting
import ConnectorQuery.Proofs.Query.FirstError
import ConnectorQuery.Proofs.Statement.Termination
import ConnectorQuery.Proofs.Query.Numbers
import ConnectorQuery.Proofs.Query.Wildcard
import ConnectorQuery.Proofs.Log
import ConnectorQuery.Proofs.Console.Check
import ConnectorQuery.Proofs.Console.Session
import ConnectorQuery.Proofs.Text.Position
import ConnectorQuery.Proofs.Token.Spacing
