import SolidityAst.Assoc
import SolidityAst.Ast.Annotate
import SolidityAst.Ast.Diagnostic
import SolidityAst.Ast.Parse
import SolidityAst.Batch.Discovery
import SolidityAst.Batch.Run
import SolidityAst.Batch.Summary
import SolidityAst.Cli.Arguments
import SolidityAst.Cli.Configuration
import SolidityAst.Cli.Flags
import SolidityAst.Cli.Help
import SolidityAst.Cli.Init
import SolidityAst.Cli.Report
import SolidityAst.Cli.Run
import SolidityAst.Console.Bar
import SolidityAst.Console.Event
import SolidityAst.Console.Logger
import SolidityAst.Console.Message
import SolidityAst.Console.Palette
import SolidityAst.Export.Artifact
import SolidityAst.Export.Exporter
import SolidityAst.Export.OutputPath
import SolidityAst.Failure
import SolidityAst.FileTree.Basic
import SolidityAst.FileTree.Error
import SolidityAst.FileTree.Operations
import SolidityAst.FileTree.Walk
import SolidityAst.Hash.Keccak
import SolidityAst.Host.Environment
import SolidityAst.Host.Program
import SolidityAst.Json.Reader
import SolidityAst.Json.Value
import SolidityAst.Json.Writer
import SolidityAst.Ledger.Connection
import SolidityAst.Ledger.Entry
import SolidityAst.Ledger.Instant
import SolidityAst.Ledger.Table
import SolidityAst.Main
import SolidityAst.Path
import SolidityAst.Settings.Basic
import SolidityAst.Settings.EnvFile
import SolidityAst.Settings.Example
import SolidityAst.Settings.File
import SolidityAst.Settings.Load
import SolidityAst.Solc.Binary
import SolidityAst.Solc.Compile
import SolidityAst.Solc.Execution
import SolidityAst.Solc.Installation
import SolidityAst.Solc.Pragma
import SolidityAst.Solc.Request
import SolidityAst.Solc.Response
import SolidityAst.Solc.Toolchain
import SolidityAst.Solc.Version
import SolidityAst.Source.Position
import SolidityAst.Source.Range
import SolidityAst.Text.Base64
import SolidityAst.Text.Blank
import SolidityAst.Text.Double
import SolidityAst.Text.Duration
import SolidityAst.Text.Fields
import SolidityAst.Text.Matches
import SolidityAst.Text.Numeral
import SolidityAst.Text.Printable
import SolidityAst.Text.Quoted
import SolidityAst.Text.Template
import SolidityAst.Text.Utf8
import SolidityAst.Word
import SolidityAst.Yaml.Cursor
import SolidityAst.Yaml.Decode
import SolidityAst.Yaml.Document
import SolidityAst.Yaml.Node
import SolidityAst.Yaml.Resolution
import SolidityAst.Yaml.Stream
import SolidityAst.Yaml.Timestamp
import SolidityAst.Yaml.Token
import SolidityAst.Yaml.Token.Property
import SolidityAst.Yaml.Token.Scalar
import SolidityAst.Yaml.Token.Scan
import SolidityAst.Proofs.Path.Clean
import SolidityAst.Proofs.Path.Parts
import SolidityAst.Proofs.Path.Absolute
import SolidityAst.Proofs.Export.Mirroring
import SolidityAst.Proofs.Assoc
import SolidityAst.Proofs.FileTree.WellFormed
import SolidityAst.Proofs.FileTree.Lookup
import SolidityAst.Proofs.FileTree.Directories
import SolidityAst.Proofs.FileTree.Lexical
import SolidityAst.Proofs.Export.AllOrNothing
import SolidityAst.Proofs.Lists
import SolidityAst.Proofs.Batch.Discovery
import SolidityAst.Proofs.Batch.Ownership
import SolidityAst.Proofs.Batch.Pool
import SolidityAst.Proofs.Text.Utf8Order
import SolidityAst.Proofs.Batch.Accounting
import SolidityAst.Proofs.Ast.Outcome
import SolidityAst.Proofs.Batch.Pruning
import SolidityAst.Proofs.Json.Tokens
import SolidityAst.Proofs.Text.Utf8Decode
import SolidityAst.Proofs.Json.Values
import SolidityAst.Proofs.Json.Layout
import SolidityAst.Proofs.Export.RoundTrip
import SolidityAst.Proofs.Export.Independence
import SolidityAst.Proofs.Batch.Schedule
import SolidityAst.Proofs.Ast.Negotiation
import SolidityAst.Proofs.Solc.Release
import SolidityAst.Proofs.Solc.Candidates
import SolidityAst.Proofs.Solc.Session
import SolidityAst.Proofs.Solc.Provenance
import SolidityAst.Proofs.Solc.Installs
import SolidityAst.Proofs.Failure
import SolidityAst.Proofs.Export.Recording
import SolidityAst.Proofs.Cli.Causes
import SolidityAst.Proofs.Solc.Transparency
import SolidityAst.Proofs.Batch.Containment
import SolidityAst.Proofs.Text.Utf8Reading
import SolidityAst.Proofs.Source.Lines
import SolidityAst.Proofs.Source.Order
import SolidityAst.Proofs.Json.Paths
import SolidityAst.Proofs.Json.Spans
import SolidityAst.Proofs.Ast.Annotation
import SolidityAst.Proofs.Source.Range
import SolidityAst.Proofs.Ast.Extension
import SolidityAst.Proofs.Ast.Coverage
import SolidityAst.Proofs.Solc.Grammar
import SolidityAst.Proofs.Solc.Ranking
import SolidityAst.Proofs.Solc.RequestedVersion
import SolidityAst.Proofs.Text.Matches
import SolidityAst.Proofs.Text.Numeral
import SolidityAst.Proofs.Solc.Conjunction
import SolidityAst.Proofs.Solc.RequestText
import SolidityAst.Proofs.Json.Grammar
import SolidityAst.Proofs.Solc.ResponseText
import SolidityAst.Proofs.Cli.Interleaving
import SolidityAst.Proofs.Cli.Separator
import SolidityAst.Proofs.Cli.Outcomes
import SolidityAst.Proofs.Settings.Precedence
import SolidityAst.Proofs.Solc.Runnable
import SolidityAst.Proofs.Ast.ForeignErrors
import SolidityAst.Proofs.FileTree.Elsewhere
import SolidityAst.Proofs.Export.Repetition
import SolidityAst.Proofs.Text.Trim
import SolidityAst.Proofs.Batch.Exclusion
import SolidityAst.Proofs.Solc.VersionOrder
import SolidityAst.Proofs.Ast.DiagnosticText
import SolidityAst.Proofs.Cli.Reporting
import SolidityAst.Proofs.Solc.Spelling
import SolidityAst.Proofs.FileTree.Walk
