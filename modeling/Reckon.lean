import Reckon.Powers
import Reckon.Text.Blank
import Reckon.Text.ControlSequence
import Reckon.Text.DecimalDigit
import Reckon.Text.Hex
import Reckon.Text.Json
import Reckon.Text.Printable
import Reckon.Text.Quoted
import Reckon.Text.Spelling
import Reckon.Text.Word
import Reckon.Binary64
import Reckon.Decimal.Digits
import Reckon.Decimal.Layout
import Reckon.Number.Basic
import Reckon.Number.Arithmetic
import Reckon.Number.Numeral
import Reckon.Number.Offer
import Reckon.Number.Reading
import Reckon.Operator
import Reckon.Operand
import Reckon.Token.Basic
import Reckon.Token.Group
import Reckon.Token.Abbreviation
import Reckon.Token.Front
import Reckon.Token.Cursor
import Reckon.Token.Reader
import Reckon.Program.Basic
import Reckon.Program.Fault
import Reckon.Program.Yard
import Reckon.Machine
import Reckon.Machine.Journal
import Reckon.Tree
import Reckon.Calculation
import Reckon.Error
import Reckon.ErrorKind
import Reckon.Digest
import Reckon.Table
import Reckon.Formula.Substitution
import Reckon.Formula.Basic
import Reckon.Image.Directory
import Reckon.Image.Basic
import Reckon.Image.Rehearsal
import Reckon.Session
import Reckon.CommandLine.Binding
import Reckon.CommandLine.Path
import Reckon.CommandLine.Invocation
import Reckon.CommandLine.Command
import Reckon.CommandLine.Placement
import Reckon.CommandLine.Arguments.Similarity
import Reckon.CommandLine.Arguments.Usage
import Reckon.CommandLine.Arguments.Setting
import Reckon.CommandLine.Arguments.Reading
import Reckon.CommandLine.Basic
import Reckon.Main
import Reckon.Proofs.Program.Depth
import Reckon.Proofs.Program.Grammar
import Reckon.Proofs.Program.Waiting
import Reckon.Proofs.Program.Parsing
import Reckon.Proofs.Program.Operands
import Reckon.Proofs.Program.Fold
import Reckon.Proofs.Token.Group
import Reckon.Proofs.Token.Seam
import Reckon.Proofs.Token.Lexing
import Reckon.Proofs.Token.Expansion
import Reckon.Proofs.Formula.Coherent
import Reckon.Proofs.Session.Move
import Reckon.Proofs.Session.Lineage
import Reckon.Proofs.Number.Numeral
import Reckon.Proofs.Number.Written
import Reckon.Proofs.Token.Name
import Reckon.Proofs.Token.Spelling
import Reckon.Proofs.Token.Cut
import Reckon.Proofs.Token.Passing
import Reckon.Proofs.Token.Reader
import Reckon.Proofs.Program.Printing
import Reckon.Proofs.Formula.Words
import Reckon.Proofs.Formula.Reading
import Reckon.Proofs.Formula.Parsing
import Reckon.Proofs.Formula.Value
import Reckon.Proofs.Formula.Text
import Reckon.Proofs.Text.Json
import Reckon.Proofs.Decimal.Interval
import Reckon.Proofs.Decimal.Shortest
import Reckon.Proofs.Binary64
import Reckon.Proofs.Number.Json
import Reckon.Proofs.Formula.Fingerprint
import Reckon.Proofs.Program.Counting
import Reckon.Proofs.Token.Argument
import Reckon.Proofs.Program.Frame
import Reckon.Proofs.Program.Superfluous
import Reckon.Proofs.Program.Composition
import Reckon.Proofs.Program.Isolation
import Reckon.Proofs.Program.Outcome
import Reckon.Proofs.Session.Calculation
import Reckon.Proofs.Formula.Assignment
import Reckon.Proofs.Session.Binding
import Reckon.Proofs.Formula.Places
import Reckon.Proofs.CommandLine.Reporting
import Reckon.Proofs.Program.Conservation
import Reckon.Proofs.Program.Limit
import Reckon.Proofs.Session.Variables
import Reckon.Proofs.Token.Room
import Reckon.Proofs.Program.Calls
import Reckon.Proofs.Program.Flat
import Reckon.Proofs.Program.Exact
import Reckon.Proofs.Token.Spacing
import Reckon.Proofs.Entries
import Reckon.Proofs.Program.Segments
import Reckon.Proofs.Program.Surplus
import Reckon.Proofs.Image.Rendering
import Reckon.Proofs.Number.Reading
import Reckon.Proofs.CommandLine.Binding
import Reckon.Proofs.Token.Extent
