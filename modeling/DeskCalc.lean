import DeskCalc.Position
import DeskCalc.Text
import DeskCalc.Types
import DeskCalc.Token
import DeskCalc.Fault
import DeskCalc.Token.Lexeme
import DeskCalc.Token.Reader
import DeskCalc.Token.Stream
import DeskCalc.Tree
import DeskCalc.Tree.Parse
import DeskCalc.Tree.Descent
import DeskCalc.SymbolTable
import DeskCalc.Typing
import DeskCalc.Code.Instruction
import DeskCalc.Code.Emit
import DeskCalc.Compiler
import DeskCalc.Source
import DeskCalc.Disk
import DeskCalc.CommandLine.Arguments
import DeskCalc.CommandLine.Run
import DeskCalc.Main
import DeskCalc.Proofs.Declarations
import DeskCalc.Proofs.Meaning
import DeskCalc.Proofs.Registers
import DeskCalc.Proofs.Uses
import DeskCalc.Proofs.Preservation
import DeskCalc.Proofs.Lexemes
import DeskCalc.Proofs.Splitting
import DeskCalc.Proofs.Grammar
import DeskCalc.Proofs.Parsing
import DeskCalc.Proofs.TreeShape
import DeskCalc.Proofs.RoundTrip
import DeskCalc.Proofs.Diagnosis
import DeskCalc.Proofs.Outcome
import DeskCalc.Proofs.Precision
import DeskCalc.Proofs.Sharing
import DeskCalc.Proofs.Marks
import DeskCalc.Proofs.Relabeling
import DeskCalc.Proofs.Repetition
import DeskCalc.Proofs.Viability
import DeskCalc.Proofs.Extension
import DeskCalc.Proofs.LookAhead
import DeskCalc.Proofs.Spelling
import DeskCalc.Proofs.Decoding
import DeskCalc.Proofs.Relocation
import DeskCalc.Proofs.Spacing
import DeskCalc.Proofs.Rechecking
import DeskCalc.Proofs.Histories
import DeskCalc.Proofs.ReportOrder
import DeskCalc.Proofs.Concatenation
import DeskCalc.Proofs.Assignments
import DeskCalc.Proofs.Conversions
import DeskCalc.Proofs.Visits
import DeskCalc.Proofs.Descent
import DeskCalc.Proofs.Resumption
import DeskCalc.Proofs.Writing
import DeskCalc.Proofs.Runs
import DeskCalc.Proofs.Columns
import DeskCalc.Proofs.Outline
