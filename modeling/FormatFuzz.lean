import FormatFuzz.Command.Compile
import FormatFuzz.Command.Line
import FormatFuzz.Command.Outcome
import FormatFuzz.Command.Report
import FormatFuzz.Command.Run
import FormatFuzz.Config
import FormatFuzz.Digest.Basic
import FormatFuzz.Digest.Blocks
import FormatFuzz.Digest.Sha3
import FormatFuzz.Double.Basic
import FormatFuzz.Double.Shortest
import FormatFuzz.Expr.Basic
import FormatFuzz.Expr.Parser
import FormatFuzz.Expr.Token
import FormatFuzz.FileTree
import FormatFuzz.Flags
import FormatFuzz.Form
import FormatFuzz.Graph
import FormatFuzz.Keyed
import FormatFuzz.Log
import FormatFuzz.Main
import FormatFuzz.Markdown
import FormatFuzz.Model.Basic
import FormatFuzz.Model.Build
import FormatFuzz.Model.Lookup
import FormatFuzz.Model.Resolve
import FormatFuzz.Numeral
import FormatFuzz.Path
import FormatFuzz.Primitive
import FormatFuzz.Program.Error
import FormatFuzz.Program.Frame
import FormatFuzz.Program.Layout
import FormatFuzz.Program.Method
import FormatFuzz.Program.Name
import FormatFuzz.Program.Source
import FormatFuzz.Program.Token
import FormatFuzz.Program.Value
import FormatFuzz.Proofs.Arithmetic
import FormatFuzz.Proofs.Buffer
import FormatFuzz.Proofs.Command.Batch
import FormatFuzz.Proofs.Command.Outcomes
import FormatFuzz.Proofs.Command.Outputs
import FormatFuzz.Proofs.Command.Sources
import FormatFuzz.Proofs.Config
import FormatFuzz.Proofs.Double.Rounding
import FormatFuzz.Proofs.Double.Shortest
import FormatFuzz.Proofs.Double.Spelling
import FormatFuzz.Proofs.Expr.Acceptance
import FormatFuzz.Proofs.Expr.Blanks
import FormatFuzz.Proofs.Expr.Decoding
import FormatFuzz.Proofs.Expr.Formation
import FormatFuzz.Proofs.Expr.Grammar
import FormatFuzz.Proofs.Expr.Lexing
import FormatFuzz.Proofs.Expr.Parsing
import FormatFuzz.Proofs.Expr.Positions
import FormatFuzz.Proofs.Expr.Reading
import FormatFuzz.Proofs.Expr.Rendering
import FormatFuzz.Proofs.Expr.RoundTrip
import FormatFuzz.Proofs.Expr.SourceNames
import FormatFuzz.Proofs.Expr.Spans
import FormatFuzz.Proofs.Expr.Subterm
import FormatFuzz.Proofs.Expr.Values
import FormatFuzz.Proofs.Fallible
import FormatFuzz.Proofs.FileTree
import FormatFuzz.Proofs.Graph.Circles
import FormatFuzz.Proofs.Graph.Edits
import FormatFuzz.Proofs.Graph.Linearization
import FormatFuzz.Proofs.Graph.Listing
import FormatFuzz.Proofs.Graph.Ties
import FormatFuzz.Proofs.Keyed
import FormatFuzz.Proofs.Markdown.Cells
import FormatFuzz.Proofs.Markdown.Models
import FormatFuzz.Proofs.Markdown.Pages
import FormatFuzz.Proofs.Markdown.Rows
import FormatFuzz.Proofs.Markdown.Texts
import FormatFuzz.Proofs.Model.Building
import FormatFuzz.Proofs.Model.Completeness
import FormatFuzz.Proofs.Model.EnumPaths
import FormatFuzz.Proofs.Model.GenerationOrder
import FormatFuzz.Proofs.Model.Lengths
import FormatFuzz.Proofs.Model.Members
import FormatFuzz.Proofs.Model.ParentReads
import FormatFuzz.Proofs.Model.Place
import FormatFuzz.Proofs.Model.Readiness
import FormatFuzz.Proofs.Model.Resolution
import FormatFuzz.Proofs.Model.Sizes
import FormatFuzz.Proofs.Model.StaticInstances
import FormatFuzz.Proofs.Model.TypeNames
import FormatFuzz.Proofs.Model.Users
import FormatFuzz.Proofs.Numeral
import FormatFuzz.Proofs.Path
import FormatFuzz.Proofs.Program.Comparisons
import FormatFuzz.Proofs.Program.Concatenations
import FormatFuzz.Proofs.Program.Constants
import FormatFuzz.Proofs.Program.Constructions
import FormatFuzz.Proofs.Program.CurrentElement
import FormatFuzz.Proofs.Program.Declarations
import FormatFuzz.Proofs.Program.Guards
import FormatFuzz.Proofs.Program.Lexing
import FormatFuzz.Proofs.Program.Memoization
import FormatFuzz.Proofs.Program.Memory
import FormatFuzz.Proofs.Program.Methods
import FormatFuzz.Proofs.Program.Names
import FormatFuzz.Proofs.Program.Ranges
import FormatFuzz.Proofs.Program.References
import FormatFuzz.Proofs.Program.Roots
import FormatFuzz.Proofs.Program.Selectors
import FormatFuzz.Proofs.Program.Signs
import FormatFuzz.Proofs.Program.Spelling
import FormatFuzz.Proofs.Program.Unguarded
import FormatFuzz.Proofs.Program.Words
import FormatFuzz.Proofs.Quoted
import FormatFuzz.Proofs.Random.Bytes
import FormatFuzz.Proofs.Random.Draws
import FormatFuzz.Proofs.Random.ExactTexts
import FormatFuzz.Proofs.Random.Pools
import FormatFuzz.Proofs.Random.Texts
import FormatFuzz.Proofs.Random.Uniform
import FormatFuzz.Proofs.Schema.Agreement
import FormatFuzz.Proofs.Schema.Clashes
import FormatFuzz.Proofs.Schema.Copying
import FormatFuzz.Proofs.Schema.Decoding
import FormatFuzz.Proofs.Schema.Exactness
import FormatFuzz.Proofs.Schema.Idempotence
import FormatFuzz.Proofs.Schema.Imports
import FormatFuzz.Proofs.Schema.Inheritance
import FormatFuzz.Proofs.Schema.Mappings
import FormatFuzz.Proofs.Schema.NormalForm
import FormatFuzz.Proofs.Schema.Parsed
import FormatFuzz.Proofs.Schema.Records
import FormatFuzz.Proofs.Schema.Sameness
import FormatFuzz.Proofs.Schema.Steps
import FormatFuzz.Proofs.Schema.Untyped
import FormatFuzz.Proofs.Schema.Visibility
import FormatFuzz.Proofs.Timestamp
import FormatFuzz.Proofs.Yaml.Rereading
import FormatFuzz.Proofs.Yaml.Scalar
import FormatFuzz.Random.Draw
import FormatFuzz.Random.Encoding
import FormatFuzz.Random.Text
import FormatFuzz.Runtime
import FormatFuzz.Samples
import FormatFuzz.Schema.Basic
import FormatFuzz.Schema.Decode
import FormatFuzz.Schema.Encode
import FormatFuzz.Schema.Fault
import FormatFuzz.Schema.Load
import FormatFuzz.Schema.Normal
import FormatFuzz.Schema.Scope
import FormatFuzz.Text.Bytes
import FormatFuzz.Text.Characters
import FormatFuzz.Text.Columns
import FormatFuzz.Text.Words
import FormatFuzz.Timestamp
import FormatFuzz.Value
import FormatFuzz.Version
import FormatFuzz.Yaml.Copy
import FormatFuzz.Yaml.Field
import FormatFuzz.Yaml.Node
import FormatFuzz.Yaml.Printer
import FormatFuzz.Yaml.Reader
import FormatFuzz.Yaml.Scalar
import FormatFuzz.Yaml.Token
