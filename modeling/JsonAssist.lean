import JsonAssist.Category.Registry
import JsonAssist.Category.Stored
import JsonAssist.Category.Table
import JsonAssist.CommandLine.Arguments
import JsonAssist.CommandLine.Command
import JsonAssist.CommandLine.Run
import JsonAssist.Completion.Candidate
import JsonAssist.Completion.Plan
import JsonAssist.Completion.Resolved
import JsonAssist.Corpus
import JsonAssist.Cursor.Context
import JsonAssist.Cursor.Frame
import JsonAssist.Disk
import JsonAssist.Files.Change
import JsonAssist.Files.Entry
import JsonAssist.Files.PathText
import JsonAssist.Files.Source
import JsonAssist.Item.Catalog
import JsonAssist.Item.Stored
import JsonAssist.Json.Double
import JsonAssist.Json.Fault
import JsonAssist.Json.Fields
import JsonAssist.Json.Printer
import JsonAssist.Json.Reader
import JsonAssist.Json.Shortest
import JsonAssist.Json.Skip
import JsonAssist.Json.Value
import JsonAssist.Main
import JsonAssist.Notice
import JsonAssist.Path
import JsonAssist.Project
import JsonAssist.Proofs.Category.Selection
import JsonAssist.Proofs.Completion.Candidates
import JsonAssist.Proofs.Completion.Insertion
import JsonAssist.Proofs.Completion.Literals
import JsonAssist.Proofs.Completion.Naming
import JsonAssist.Proofs.Completion.Offers
import JsonAssist.Proofs.Completion.Quotes
import JsonAssist.Proofs.Completion.Ranking
import JsonAssist.Proofs.Completion.Regular
import JsonAssist.Proofs.Completion.Repeats
import JsonAssist.Proofs.Corpus.Documents
import JsonAssist.Proofs.Corpus.Paths
import JsonAssist.Proofs.Cursor.Consistent
import JsonAssist.Proofs.Cursor.Elements
import JsonAssist.Proofs.Cursor.Flattened
import JsonAssist.Proofs.Cursor.Innermost
import JsonAssist.Proofs.Cursor.Kept
import JsonAssist.Proofs.Cursor.Located
import JsonAssist.Proofs.Cursor.Naming
import JsonAssist.Proofs.Cursor.Opened
import JsonAssist.Proofs.Cursor.Replay
import JsonAssist.Proofs.Cursor.Runs
import JsonAssist.Proofs.Cursor.Truncated
import JsonAssist.Proofs.Cursor.Turns
import JsonAssist.Proofs.Cursor.Written
import JsonAssist.Proofs.Files.Walk
import JsonAssist.Proofs.Item.Catalog
import JsonAssist.Proofs.Item.Hover
import JsonAssist.Proofs.Item.Lines
import JsonAssist.Proofs.Json.Accepted
import JsonAssist.Proofs.Json.Digits
import JsonAssist.Proofs.Json.Equality
import JsonAssist.Proofs.Json.Fields
import JsonAssist.Proofs.Json.Fits
import JsonAssist.Proofs.Json.Grammar
import JsonAssist.Proofs.Json.Held
import JsonAssist.Proofs.Json.Load
import JsonAssist.Proofs.Json.LoadedNumber
import JsonAssist.Proofs.Json.Number
import JsonAssist.Proofs.Json.Range
import JsonAssist.Proofs.Json.Readable
import JsonAssist.Proofs.Json.Rounding
import JsonAssist.Proofs.Json.Steps
import JsonAssist.Proofs.Json.String
import JsonAssist.Proofs.Json.Taken
import JsonAssist.Proofs.Json.TooDeep
import JsonAssist.Proofs.Json.WrittenNumber
import JsonAssist.Proofs.Json.WrittenString
import JsonAssist.Proofs.Json.WrittenValue
import JsonAssist.Proofs.Project
import JsonAssist.Proofs.Schema.Absorption
import JsonAssist.Proofs.Schema.Collected
import JsonAssist.Proofs.Schema.Corpus
import JsonAssist.Proofs.Schema.Elements
import JsonAssist.Proofs.Schema.Every
import JsonAssist.Proofs.Schema.Forest
import JsonAssist.Proofs.Schema.Generated
import JsonAssist.Proofs.Schema.Join
import JsonAssist.Proofs.Schema.Loaded
import JsonAssist.Proofs.Schema.Observe
import JsonAssist.Proofs.Schema.Order
import JsonAssist.Proofs.Schema.TooDeep
import JsonAssist.Proofs.Schema.WellFormed
import JsonAssist.Proofs.Schema.WrittenForest
import JsonAssist.Proofs.Server.Documents
import JsonAssist.Proofs.Server.Replies
import JsonAssist.Proofs.Server.Wire
import JsonAssist.Proofs.Syntax.Address
import JsonAssist.Proofs.Syntax.Chain
import JsonAssist.Proofs.Syntax.Checked
import JsonAssist.Proofs.Syntax.Tokens
import JsonAssist.Proofs.Syntax.WellFormed
import JsonAssist.Proofs.Text.ByteOrder
import JsonAssist.Proofs.Text.Columns
import JsonAssist.Proofs.Text.Editor
import JsonAssist.Proofs.Text.Lines
import JsonAssist.Proofs.Text.Position
import JsonAssist.Proofs.Text.Split
import JsonAssist.Proofs.Text.Word
import JsonAssist.Schema.Basic
import JsonAssist.Schema.Join
import JsonAssist.Schema.Observe
import JsonAssist.Schema.Persisted
import JsonAssist.Server.Form
import JsonAssist.Server.Operation
import JsonAssist.Server.Session
import JsonAssist.Server.Wire
import JsonAssist.Syntax.Branch
import JsonAssist.Syntax.Document
import JsonAssist.Syntax.Grammar
import JsonAssist.Syntax.Lexer
import JsonAssist.Syntax.Parser
import JsonAssist.Syntax.Stack
import JsonAssist.Syntax.Tree
import JsonAssist.Syntax.Walk
import JsonAssist.Text.Alphanumeric
import JsonAssist.Text.Bytes
import JsonAssist.Text.Position
import JsonAssist.Text.Quoted
import JsonAssist.Text.Ranges
import JsonAssist.Text.Split
import JsonAssist.Text.Unprintable
import JsonAssist.Text.WhiteSpace
import JsonAssist.Text.Word
import JsonAssist.Uri.Basic
import JsonAssist.Uri.Host
import JsonAssist.Uri.Percent
import JsonAssist.Uri.Punycode
