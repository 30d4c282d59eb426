import MipsAssembly.Assembly
import MipsAssembly.Binary64
import MipsAssembly.Binary64.Layout
import MipsAssembly.Binary64.Reading
import MipsAssembly.Binary64.Shortest
import MipsAssembly.Diagnostic
import MipsAssembly.Entry
import MipsAssembly.Error
import MipsAssembly.Json.Document
import MipsAssembly.Json.Record
import MipsAssembly.Json.Token
import MipsAssembly.Json.Value
import MipsAssembly.Json.Writer
import MipsAssembly.Listing
import MipsAssembly.Number
import MipsAssembly.Numeral
import MipsAssembly.Operand
import MipsAssembly.OrderedMap
import MipsAssembly.Position
import MipsAssembly.Program
import MipsAssembly.Program.Building
import MipsAssembly.Program.Export
import MipsAssembly.Program.Import
import MipsAssembly.Render
import MipsAssembly.Resolution
import MipsAssembly.Statement
import MipsAssembly.Statement.Cursor
import MipsAssembly.Statement.Cursor.Call
import MipsAssembly.Statement.Error
import MipsAssembly.Statement.Phase
import MipsAssembly.Text.Blank
import MipsAssembly.Text.Lines
import MipsAssembly.Text.Padding
import MipsAssembly.Text.Printable
import MipsAssembly.Text.Quoted
import MipsAssembly.Text.Style
import MipsAssembly.Token
import MipsAssembly.Token.Lexer
import MipsAssembly.Token.Numeral
import MipsAssembly.Proofs.Grammar
import MipsAssembly.Proofs.Grammar.Reading
import MipsAssembly.Proofs.Grammar.Recognition
import MipsAssembly.Proofs.Binary64.Nearest
import MipsAssembly.Proofs.Resolution.Immediate
import MipsAssembly.Proofs.Statement.CorrectPrefix
import MipsAssembly.Proofs.Binary64.Shortest
import MipsAssembly.Proofs.Number
import MipsAssembly.Proofs.Text.Quoted
import MipsAssembly.Proofs.Text.Lines
import MipsAssembly.Proofs.Token.NumeralSpan
import MipsAssembly.Proofs.Token.Span
import MipsAssembly.Proofs.Token.Cut
import MipsAssembly.Proofs.Token.LineEdit
import MipsAssembly.Proofs.Token.Positions
import MipsAssembly.Proofs.Token.Spelling
import MipsAssembly.Proofs.Render.Operand
import MipsAssembly.Proofs.Render.Statement
import MipsAssembly.Proofs.Statement.Relocation
import MipsAssembly.Proofs.Assembly.Stages
import MipsAssembly.Proofs.Assembly.Lines
import MipsAssembly.Proofs.Resolution.Labels
import MipsAssembly.Proofs.Program.LabelGroups
import MipsAssembly.Proofs.Resolution.Rebuilding
import MipsAssembly.Proofs.Resolution.Declarations
import MipsAssembly.Proofs.Assembly.Spacing
import MipsAssembly.Proofs.Resolution.Interleaving
import MipsAssembly.Proofs.Resolution.Growth
import MipsAssembly.Proofs.Assembly.Growth
import MipsAssembly.Proofs.Grammar.Declarations
import MipsAssembly.Proofs.Assembly.ErrorPositions
import MipsAssembly.Proofs.Render.Program
import MipsAssembly.Proofs.Json.Number
import MipsAssembly.Proofs.Json.Text
import MipsAssembly.Proofs.Json.Token
import MipsAssembly.Proofs.Json.Document
import MipsAssembly.Proofs.Program.Export
import MipsAssembly.Proofs.Program.RoundTrip
import MipsAssembly.Proofs.Resolution.Refusals
import MipsAssembly.Proofs.Program.Shape
import MipsAssembly.Proofs.Json.Nesting
import MipsAssembly.Proofs.Program.Nesting
import MipsAssembly.Proofs.Assembly.Size
import MipsAssembly.Proofs.Assembly.Survival
import MipsAssembly.Proofs.Text.Style
import MipsAssembly.Proofs.Listing
import MipsAssembly.Proofs.Assembly.SyntaxErrors
import MipsAssembly.Proofs.Message
import MipsAssembly.Proofs.Diagnostic
import MipsAssembly.Proofs.Statement.Cursor
import MipsAssembly.Proofs.Statement.Nesting
import MipsAssembly.Proofs.Statement.Counter
import MipsAssembly.Proofs.Statement.Depth
import MipsAssembly.Proofs.Binary64.Rounding
import MipsAssembly.Proofs.Token.LongestNumeral
import MipsAssembly.Proofs.Render.Integer
import MipsAssembly.Proofs.Statement.Negation
import MipsAssembly.Proofs.Listing.Rows
import MipsAssembly.Proofs.Resolution.Events
import MipsAssembly.Proofs.Assembly.Log
import MipsAssembly.Proofs.Text.Balanced
import MipsAssembly.Proofs.Render.Parentheses
import MipsAssembly.Proofs.Json.Walk
import MipsAssembly.Proofs.Json.TaggedRecord
import MipsAssembly.Proofs.Json.BrokenNumber
import MipsAssembly.Proofs.Json.BrokenToken
import MipsAssembly.Proofs.Json.BrokenDocument
import MipsAssembly.Proofs.Json.BrokenRecord
import MipsAssembly.Proofs.Program.BrokenText
import MipsAssembly.Proofs.Json.FieldOrder
import MipsAssembly.Proofs.Program.Edit
import MipsAssembly.Proofs.Program.KeptRecord
import MipsAssembly.Proofs.Program.TakenRecord
import MipsAssembly.Proofs.Program.FieldOrder
import MipsAssembly.Proofs.Program.Building
import MipsAssembly.Proofs.Json.Reading
import MipsAssembly.Proofs.Program.Addresses
import MipsAssembly.Proofs.Program.Ownership
