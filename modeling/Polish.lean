import Polish.CommandLine
import Polish.Compiler
import Polish.Diagnostic
import Polish.Evaluator
import Polish.Expr
import Polish.Expr.Parser
import Polish.Flag
import Polish.Instruction
import Polish.Instruction.Reader
import Polish.Integer
import Polish.Integer.Literal
import Polish.Integer.Numeral
import Polish.Loader
import Polish.Machine
import Polish.Main
import Polish.Operator
import Polish.Outline
import Polish.Output
import Polish.Path
import Polish.Proofs.Arguments
import Polish.Proofs.Atomic
import Polish.Proofs.Canonical
import Polish.Proofs.Confinement
import Polish.Proofs.Conformance
import Polish.Proofs.Constants
import Polish.Proofs.Decimal
import Polish.Proofs.Decompile
import Polish.Proofs.Depth
import Polish.Proofs.Emission
import Polish.Proofs.Evaluation
import Polish.Proofs.Execution
import Polish.Proofs.Folding
import Polish.Proofs.Frame
import Polish.Proofs.Grammar
import Polish.Proofs.Legible
import Polish.Proofs.Lines
import Polish.Proofs.Listing
import Polish.Proofs.Literal
import Polish.Proofs.Outline
import Polish.Proofs.Postfix
import Polish.Proofs.Recompile
import Polish.Proofs.Rejection
import Polish.Proofs.Relisting
import Polish.Proofs.Relocation
import Polish.Proofs.Replay
import Polish.Proofs.Rescan
import Polish.Proofs.Root
import Polish.Proofs.Rune
import Polish.Proofs.Runs
import Polish.Proofs.Scanner
import Polish.Proofs.Simulation
import Polish.Proofs.SizeLimit
import Polish.Proofs.Step
import Polish.Proofs.Table
import Polish.Proofs.Text
import Polish.Proofs.Tiling
import Polish.Proofs.Token
import Polish.Proofs.Viable
import Polish.Proofs.Wrapping
import Polish.Session
import Polish.Session.Conversation
import Polish.Session.History
import Polish.Statement
import Polish.Table
import Polish.Text
import Polish.Text.Blank
import Polish.Text.Folded
import Polish.Text.Lines
import Polish.Text.Piece
import Polish.Text.Printable
import Polish.Text.Quoted
import Polish.Text.Rune
import Polish.Token
import Polish.Token.Runs
import Polish.Token.Scanner
import Polish.Volume
