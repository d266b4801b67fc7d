import Jstn.NameMap
import Jstn.Kind
import Jstn.Schema
import Jstn.Schema.Assembly
import Jstn.Text.CodeRanges
import Jstn.Text.Extending
import Jstn.Text.Ignorable
import Jstn.Text.Unprintable
import Jstn.Text.Quoted
import Jstn.Text.Utf8
import Jstn.Token
import Jstn.Lexeme
import Jstn.Parse.Error
import Jstn.Parse.State
import Jstn.Parse
import Jstn.Parse.Descent
import Jstn.Print
import Jstn.Binary64
import Jstn.Binary64.Shortest
import Jstn.Json.Byte
import Jstn.Json.Position
import Jstn.Json.Fault
import Jstn.Json.Cursor
import Jstn.Json.Machine
import Jstn.Json.Word
import Jstn.Json.Number
import Jstn.Json.Literal
import Jstn.Json.Container
import Jstn.Json.Skip
import Jstn.Json.Watch
import Jstn.Document.Violation
import Jstn.Document.Location
import Jstn.Document.Rejection
import Jstn.Document.Walk.State
import Jstn.Document.Walk.Step
import Jstn.Document.Walk
import Jstn.Document.Check
import Jstn.Embed.Error
import Jstn.Embed.Reader
import Jstn.Embed.Entries
import Jstn.Embed.SchemaText
import Jstn.Embed.KindText
import Jstn.Embed.Endpoint
import Jstn.Proofs.Text.Utf8
import Jstn.Proofs.Text.ByteOrder
import Jstn.Proofs.Json.Grammar
import Jstn.Proofs.Json.Number
import Jstn.Proofs.Json.Literal
import Jstn.Proofs.Json.Encoding
import Jstn.Proofs.Json.Writing
import Jstn.Proofs.Json.Skip
import Jstn.Proofs.Json.SkipCompleteness
import Jstn.Proofs.Json.SkipSoundness
import Jstn.Proofs.Schema
import Jstn.Proofs.Lexeme
import Jstn.Proofs.Lexeme.Boundaries
import Jstn.Proofs.Parse.Grammar
import Jstn.Proofs.Parse.Moves
import Jstn.Proofs.Parse.Derivation
import Jstn.Proofs.Print
import Jstn.Proofs.Parse.WellFormed
import Jstn.Proofs.Schema.Extensional
import Jstn.Proofs.Parse.ViablePrefix
import Jstn.Proofs.Document.Conforms
import Jstn.Proofs.Document.Skipped
import Jstn.Proofs.Document.Erasure
import Jstn.Proofs.Document.Modes
import Jstn.Proofs.Document.Breach
import Jstn.Proofs.Document.Outcome
import Jstn.Proofs.Document.Settling
import Jstn.Proofs.Document.Entries
import Jstn.Proofs.Document.Texts
import Jstn.Proofs.Document.Accepting
import Jstn.Proofs.Document.FirstViolation
import Jstn.Proofs.Document.Usable
import Jstn.Proofs.Document.Stripping
import Jstn.Proofs.Lexeme.Tiling
import Jstn.Proofs.Embed.Reader
import Jstn.Proofs.Embed.SchemaText
import Jstn.Proofs.Embed.Endpoint
import Jstn.Proofs.Document.RootEnd
import Jstn.Proofs.Document.Enclosed
import Jstn.Proofs.Document.MoreText
import Jstn.Proofs.Document.Widening
import Jstn.Proofs.Parse.Layout
import Jstn.Proofs.Parse.Limit
import Jstn.Proofs.Parse.Lookahead
import Jstn.Proofs.Parse.Descent
import Jstn.Proofs.Parse.Parts
import Jstn.Proofs.Document.Reordering
import Jstn.Proofs.Document.TrailingData
import Jstn.Proofs.Document.Nesting
import Jstn.Proofs.Document.StrictUtf8
import Jstn.Proofs.Print.Length
import Jstn.Proofs.Print.Relayout
import Jstn.Proofs.Print.Indentation
