import WordMachine.Address
import WordMachine.Assembly.Assemble
import WordMachine.Assembly.Error
import WordMachine.Assembly.Line
import WordMachine.Assembly.Token
import WordMachine.Calendar
import WordMachine.Chain.Environment
import WordMachine.Chain.Memory
import WordMachine.Chain.Query
import WordMachine.Chain.Snapshot
import WordMachine.Codec
import WordMachine.Digest.Keccak
import WordMachine.Digest.Sha3
import WordMachine.Fault
import WordMachine.Fixtures
import WordMachine.Instruction
import WordMachine.Json.Reader
import WordMachine.Json.Token
import WordMachine.Json.Value
import WordMachine.Linking.Combinators
import WordMachine.Linking.Link
import WordMachine.Log
import WordMachine.Machine.Action
import WordMachine.Machine.Arithmetic
import WordMachine.Machine.Basic
import WordMachine.Machine.ChainReads
import WordMachine.Machine.Evaluate
import WordMachine.Machine.Step
import WordMachine.Machine.Table
import WordMachine.Main
import WordMachine.Operand
import WordMachine.Program.Basic
import WordMachine.Program.Binary
import WordMachine.Program.Json
import WordMachine.Report
import WordMachine.Scale
import WordMachine.Shell.Assembler
import WordMachine.Shell.Disk
import WordMachine.Shell.Path
import WordMachine.Shell.Runner
import WordMachine.Shell.Session
import WordMachine.Text.Blank
import WordMachine.Text.Numeral
import WordMachine.Word.Arithmetic
import WordMachine.Word.Basic
import WordMachine.Word.Bits
import WordMachine.Word.Bytes
import WordMachine.Word.Text
import WordMachine.Proofs.Evaluation.StackLocal
import WordMachine.Proofs.Evaluation.Placement
import WordMachine.Proofs.Evaluation.Calls
import WordMachine.Proofs.Linking.Relocation
import WordMachine.Proofs.Linking.Meaning
import WordMachine.Proofs.Linking.Sequence
import WordMachine.Proofs.Word.Value
import WordMachine.Proofs.Word.Bits
import WordMachine.Proofs.Word.Division
import WordMachine.Proofs.Word.Power
import WordMachine.Proofs.Word.Limbs
import WordMachine.Proofs.Scale
import WordMachine.Proofs.Evaluation.Instructions
import WordMachine.Proofs.Evaluation.Arithmetic
import WordMachine.Proofs.Evaluation.Windows
import WordMachine.Proofs.Combinators.Values
import WordMachine.Proofs.Report
import WordMachine.Proofs.Selection
import WordMachine.Proofs.Updates
import WordMachine.Proofs.Word.Bytes
import WordMachine.Proofs.Evaluation.Zipmap
import WordMachine.Proofs.Combinators.Tiers
import WordMachine.Proofs.Combinators.Gates
import WordMachine.Proofs.Combinators.Multipliers
import WordMachine.Proofs.Evaluation.Heights
import WordMachine.Proofs.Evaluation.Recursion
import WordMachine.Proofs.Evaluation.Unwinding
import WordMachine.Proofs.Evaluation.History
import WordMachine.Proofs.Program.Check
import WordMachine.Proofs.Evaluation.Faults
import WordMachine.Proofs.Evaluation.Underflows
import WordMachine.Proofs.Linking.Validity
import WordMachine.Proofs.Combinators.Validity
import WordMachine.Proofs.Linking.Associativity
import WordMachine.Proofs.Linking.Conditions
import WordMachine.Proofs.Program.Binary
import WordMachine.Proofs.Encoding
import WordMachine.Proofs.Word.Text
import WordMachine.Proofs.Word.Reading
import WordMachine.Proofs.Word.Printing
import WordMachine.Proofs.Assembly.Listing
import WordMachine.Proofs.Text.Lines
import WordMachine.Proofs.Text.Letters
import WordMachine.Proofs.Assembly.Layout
import WordMachine.Proofs.Assembly.Edits
import WordMachine.Proofs.Json.Reader
import WordMachine.Proofs.Program.Json
import WordMachine.Proofs.HexText
import WordMachine.Proofs.Combinators.Sizing
import WordMachine.Proofs.Assembly.Lines
import WordMachine.Proofs.Assembly.Translation
import WordMachine.Proofs.Assembly.Operands
import WordMachine.Proofs.Assembly.Hints
import WordMachine.Proofs.Assembly.Places
import WordMachine.Proofs.Chain.Ledger
import WordMachine.Proofs.Chain.Batches
import WordMachine.Proofs.Evaluation.Routes
import WordMachine.Proofs.Word.Digits
import WordMachine.Proofs.Evaluation.Frames
import WordMachine.Proofs.Evaluation.Addresses
