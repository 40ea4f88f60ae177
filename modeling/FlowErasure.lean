import FlowErasure.Command.Arguments
import FlowErasure.Command.Directory
import FlowErasure.Command.FileName
import FlowErasure.Command.LogFormat
import FlowErasure.Command.Run
import FlowErasure.Compile
import FlowErasure.Erasure.Pass
import FlowErasure.Erasure.Rules
import FlowErasure.Filter
import FlowErasure.Grammar.Basic
import FlowErasure.Grammar.Classes
import FlowErasure.Grammar.Declarations
import FlowErasure.Grammar.Expressions
import FlowErasure.Grammar.Functions
import FlowErasure.Grammar.Lookahead
import FlowErasure.Grammar.Modules
import FlowErasure.Grammar.Nested
import FlowErasure.Grammar.Patterns
import FlowErasure.Grammar.Program
import FlowErasure.Grammar.Statements
import FlowErasure.Grammar.Targets
import FlowErasure.Grammar.Types
import FlowErasure.Layout.Edit
import FlowErasure.Layout.Print
import FlowErasure.Layout.Writer
import FlowErasure.Main
import FlowErasure.Message
import FlowErasure.Names
import FlowErasure.Options
import FlowErasure.ParseError
import FlowErasure.Registers.Basic
import FlowErasure.Registers.Expressions
import FlowErasure.Registers.Functions
import FlowErasure.Registers.Program
import FlowErasure.Registers.Statements
import FlowErasure.Registers.Types
import FlowErasure.Report
import FlowErasure.Sorting
import FlowErasure.SourceMap.Basic
import FlowErasure.SourceMap.Vlq
import FlowErasure.Syntax.Field
import FlowErasure.Syntax.Flags
import FlowErasure.Syntax.Kind
import FlowErasure.Syntax.Outline
import FlowErasure.Syntax.Path
import FlowErasure.Syntax.Tree
import FlowErasure.Text.Alphabetic
import FlowErasure.Text.Blank
import FlowErasure.Text.Bytes
import FlowErasure.Text.Lines
import FlowErasure.Text.Numeral
import FlowErasure.Text.Quoted
import FlowErasure.Text.Ranges
import FlowErasure.Text.Units
import FlowErasure.Text.Utf8
import FlowErasure.Token
import FlowErasure.Token.CharClass
import FlowErasure.Token.Lexer
import FlowErasure.Proofs.Erasure.Outcome
import FlowErasure.Proofs.Erasure.Pruning
import FlowErasure.Proofs.Erasure.Repetition
import FlowErasure.Proofs.Grammar.WellFormed
import FlowErasure.Proofs.Grammar.TokenRanges
import FlowErasure.Proofs.Grammar.Colons
import FlowErasure.Proofs.Grammar.Precedence
import FlowErasure.Proofs.Refusal.Located
import FlowErasure.Proofs.Erasure.Required
import FlowErasure.Proofs.Layout.Gives
import FlowErasure.Proofs.Layout.LeftOut
import FlowErasure.Proofs.Layout.Success
import FlowErasure.Proofs.Text.Bytes
import FlowErasure.Proofs.Erasure.Regions
import FlowErasure.Proofs.Layout.Cuts
import FlowErasure.Proofs.Layout.Edits
import FlowErasure.Proofs.Layout.Weaving
import FlowErasure.Proofs.Layout.Dropping
import FlowErasure.Proofs.Layout.Separators
import FlowErasure.Proofs.Layout.Tracking
import FlowErasure.Proofs.SourceMap.Compiled
import FlowErasure.Proofs.SourceMap.Reading
import FlowErasure.Proofs.Syntax.Changes
import FlowErasure.Proofs.Frame.Speculation
import FlowErasure.Proofs.Lookahead.ArrowFunctions
import FlowErasure.Proofs.Syntax.Descendants
import FlowErasure.Proofs.Syntax.Navigation
import FlowErasure.Proofs.Token.Calls
import FlowErasure.Proofs.Nesting.Bound
import FlowErasure.Proofs.Grammar.Assignable
import FlowErasure.Proofs.Enclosing.Functions
import FlowErasure.Proofs.Text.LineEnds
import FlowErasure.Proofs.Registers.Programs
import FlowErasure.Proofs.Syntax.Clearing
import FlowErasure.Proofs.Layout.Exchanging
import FlowErasure.Proofs.Refusal.Reports
import FlowErasure.Proofs.Naming.Programs
