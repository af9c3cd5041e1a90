import RecordSieve.Text.Blank
import RecordSieve.Text.Quoted
import RecordSieve.Text.Utf8
import RecordSieve.Arithmetic
import RecordSieve.Binary64.Numeral
import RecordSieve.Binary64.Text
import RecordSieve.Json.Writer
import RecordSieve.Json.Fault
import RecordSieve.Json.Number
import RecordSieve.Json.Reader
import RecordSieve.Like
import RecordSieve.Token.Lexer
import RecordSieve.Value
import RecordSieve.Expr.Parser
import RecordSieve.Expr.Evaluation
import RecordSieve.Filter
import RecordSieve.Command.Arguments
import RecordSieve.Main
import RecordSieve.Proofs.Like
import RecordSieve.Proofs.Expr.Soundness
import RecordSieve.Proofs.Query
import RecordSieve.Proofs.Expr.Chain
import RecordSieve.Proofs.Token.Layout
import RecordSieve.Proofs.Filter.Composition
import RecordSieve.Proofs.Session
import RecordSieve.Proofs.Command.Opening
import RecordSieve.Proofs.Command.Filtering
import RecordSieve.Proofs.Expr.InPlace
import RecordSieve.Proofs.Expr.Numerals
import RecordSieve.Proofs.Record.Flat
import RecordSieve.Proofs.Expr.Words
import RecordSieve.Proofs.Text.SingleLine
import RecordSieve.Proofs.Filter.Streams
import RecordSieve.Proofs.Expr.Locality
import RecordSieve.Proofs.Expr.Stars
import RecordSieve.Proofs.Binary64.Precision
import RecordSieve.Proofs.Decimal
import RecordSieve.Proofs.Arithmetic
import RecordSieve.Proofs.Json.Readable
import RecordSieve.Proofs.Members
import RecordSieve.Proofs.Json.Numerals
import RecordSieve.Proofs.Json.Decimals
import RecordSieve.Proofs.Json.Range
import RecordSieve.Proofs.Json.Reals
import RecordSieve.Proofs.Json.Reading
import RecordSieve.Proofs.Record.Paths
import RecordSieve.Proofs.Record.Fields
import RecordSieve.Proofs.Filter.Projection
import RecordSieve.Proofs.Token.Quotes
import RecordSieve.Proofs.Query.Clauses
import RecordSieve.Proofs.Expr.Wrapping
import RecordSieve.Proofs.Expr.Membership
import RecordSieve.Proofs.Expr.Questions
import RecordSieve.Proofs.Expr.Signs
import RecordSieve.Proofs.Expr.Comparisons
import RecordSieve.Proofs.Expr.Keywords
