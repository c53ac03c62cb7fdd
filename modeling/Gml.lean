import Gml.Assembly
import Gml.Assembly.File
import Gml.Batch
import Gml.Code
import Gml.Code.Generate.Basic
import Gml.Code.Generate.Expression
import Gml.Code.Generate.Statement
import Gml.Code.Listing
import Gml.Command
import Gml.Command.Arguments
import Gml.Comparison
import Gml.Compile
import Gml.Context
import Gml.Context.File
import Gml.Diagnostic
import Gml.Failure
import Gml.Feature
import Gml.Files
import Gml.Host
import Gml.Instruction
import Gml.Intrinsic
import Gml.Json
import Gml.Json.Reader
import Gml.Json.Writer
import Gml.Machine
import Gml.Machine.Exec
import Gml.Machine.Run
import Gml.Machine.Trap
import Gml.Machine.Value
import Gml.Main
import Gml.Names
import Gml.Number.Double
import Gml.Number.Layout
import Gml.Number.Literal
import Gml.Number.Shortest
import Gml.Path
import Gml.Position
import Gml.Proofs.Assembly.Decoding
import Gml.Proofs.Assembly.Landing
import Gml.Proofs.Assembly.Widening
import Gml.Proofs.Assembly.Writing
import Gml.Proofs.Batch.Schedule
import Gml.Proofs.Code.Action
import Gml.Proofs.Code.Appending
import Gml.Proofs.Code.Complete
import Gml.Proofs.Code.Copies
import Gml.Proofs.Code.Editing
import Gml.Proofs.Code.Expression
import Gml.Proofs.Code.Frame
import Gml.Proofs.Code.Growth
import Gml.Proofs.Code.Landing
import Gml.Proofs.Code.Layout
import Gml.Proofs.Code.Marks
import Gml.Proofs.Code.Patching
import Gml.Proofs.Code.Size
import Gml.Proofs.Code.Statement
import Gml.Proofs.Code.Writing
import Gml.Proofs.Command.Outputs
import Gml.Proofs.Evaluation.Agreement
import Gml.Proofs.Evaluation.Direct
import Gml.Proofs.Evaluation.Folding
import Gml.Proofs.Evaluation.Instructions
import Gml.Proofs.Evaluation.Mirror
import Gml.Proofs.Flow.Folding
import Gml.Proofs.Flow.Script
import Gml.Proofs.Flow.Simulation
import Gml.Proofs.Flow.Structured
import Gml.Proofs.Flow.Tracking
import Gml.Proofs.Lines
import Gml.Proofs.Machine.Block
import Gml.Proofs.Machine.Effect
import Gml.Proofs.Machine.Step
import Gml.Proofs.Machine.Use
import Gml.Proofs.Number.Bits
import Gml.Proofs.Number.Quotient
import Gml.Proofs.Number.Rounding
import Gml.Proofs.Number.Whole
import Gml.Proofs.Outcome
import Gml.Proofs.Positions
import Gml.Proofs.Scan.Agreement
import Gml.Proofs.Scan.Calls
import Gml.Proofs.Scan.Comments
import Gml.Proofs.Scan.Numbering
import Gml.Proofs.Scan.Plain
import Gml.Proofs.Stages
import Gml.Proofs.Tiers
import Gml.Proofs.Token.Layout
import Gml.Proofs.Token.Piece
import Gml.Proofs.Token.Printing
import Gml.Proofs.Token.Span
import Gml.Proofs.Token.Tiling
import Gml.Proofs.Tree.Enumerations
import Gml.Proofs.Tree.Every
import Gml.Proofs.Tree.Fitting
import Gml.Proofs.Tree.Leaves
import Gml.Proofs.Tree.Meaning
import Gml.Proofs.Tree.Nesting
import Gml.Proofs.Tree.Order
import Gml.Proofs.Tree.Pairing
import Gml.Proofs.Tree.Parsing
import Gml.Proofs.Tree.Parts
import Gml.Proofs.Tree.Progress
import Gml.Proofs.Tree.Ranges
import Gml.Proofs.Tree.Read
import Gml.Proofs.Tree.Rereading
import Gml.Proofs.Tree.Resolved
import Gml.Proofs.Tree.Scoping
import Gml.Proofs.Tree.Shape
import Gml.Proofs.Tree.Written
import Gml.Proofs.Unused
import Gml.Scan
import Gml.Scan.Words
import Gml.Session
import Gml.Settings
import Gml.Source
import Gml.Table
import Gml.Text.Blank
import Gml.Text.Digit
import Gml.Text.Extend
import Gml.Text.Hidden
import Gml.Text.Numeral
import Gml.Text.Quoted
import Gml.Text.Range
import Gml.Text.Word
import Gml.Token
import Gml.Token.Lexer
import Gml.Tree
import Gml.Tree.Constant
import Gml.Tree.Parser.Basic
import Gml.Tree.Parser.Expression
import Gml.Tree.Parser.Statement
import Gml.Tree.Scope
import Gml.Tree.Text
