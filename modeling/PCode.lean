import PCode.Text.Alphanumeric
import PCode.Text.Blank
import PCode.Text.Quoted
import PCode.Real.Numeral
import PCode.Source.Excerpt
import PCode.Ty
import PCode.Syntax
import PCode.Syntax.Printer
import PCode.Syntax.Outline
import PCode.Grammar.Statement
import PCode.Typing.Statement
import PCode.Machine.Run
import PCode.Codegen.Statement
import PCode.Syntax.Names
import PCode.Session
import PCode.Settings
import PCode.Command
import PCode.Main
import PCode.Proofs.Typing.Rules
import PCode.Proofs.Typing.Expressions
import PCode.Proofs.Typing.Statements
import PCode.Proofs.Codegen.Emission
import PCode.Proofs.Typing.Tables
import PCode.Proofs.Typing.Entries
import PCode.Proofs.Codegen.Generation
import PCode.Proofs.Machine.Memory
import PCode.Proofs.Machine.Steps
import PCode.Proofs.Evaluation.Evaluator
import PCode.Proofs.Machine.Runs
import PCode.Proofs.Codegen.Layout
import PCode.Proofs.Evaluation.Homes
import PCode.Proofs.Evaluation.Scopes
import PCode.Proofs.Evaluation.Simulates
import PCode.Proofs.Evaluation.Expressions
import PCode.Proofs.Evaluation.Statements
import PCode.Proofs.Evaluation.Functions
import PCode.Proofs.Evaluation.Programs
import PCode.Proofs.Codegen.StackMap
import PCode.Proofs.Codegen.Sites
import PCode.Proofs.Frames.Levels
import PCode.Proofs.Frames.Steps
import PCode.Proofs.Frames.Runs
import PCode.Proofs.Sessions.Composition
import PCode.Proofs.Sessions.Constructors
import PCode.Proofs.Sessions.Rechecks
import PCode.Proofs.Codegen.Occurrences
import PCode.Proofs.Codegen.Success
import PCode.Proofs.Grammar.WellFormed
import PCode.Proofs.Grammar.Yields
import PCode.Proofs.Grammar.Reads
import PCode.Proofs.Grammar.Lexemes
import PCode.Proofs.Grammar.Expressions
import PCode.Proofs.Grammar.Programs
import PCode.Proofs.Machine.Tracking
import PCode.Proofs.Machine.Capacity
import PCode.Proofs.Machine.Agreement
import PCode.Proofs.Frames.Reuse
import PCode.Proofs.Codegen.Owners
import PCode.Proofs.Frames.Relocation
import PCode.Proofs.Frames.Invocation
import PCode.Proofs.Codegen.Assembly
import PCode.Proofs.Codegen.Mirroring
import PCode.Proofs.Codegen.OnePass
import PCode.Proofs.Codegen.Integrity
import PCode.Proofs.Grammar.Places
import PCode.Proofs.Grammar.Progress
import PCode.Proofs.Grammar.Descent
import PCode.Proofs.Grammar.Termination
import PCode.Proofs.Grammar.Combinators
import PCode.Proofs.Grammar.Spans
import PCode.Proofs.Grammar.CutAtoms
import PCode.Proofs.Grammar.CutExpressions
import PCode.Proofs.Grammar.CutPrograms
import PCode.Proofs.Codegen.Accesses
import PCode.Proofs.Sessions.Reordering
import PCode.Proofs.Typing.Annotations
import PCode.Proofs.Grammar.Precedence
import PCode.Proofs.Source.Excerpts
import PCode.Proofs.Source.Lines
import PCode.Proofs.Typing.Faults
import PCode.Proofs.Codegen.Origins
import PCode.Proofs.Diagnostics
import PCode.Proofs.Typing.Outcomes
import PCode.Proofs.Codegen.Literals
import PCode.Proofs.Evaluation.Members
import PCode.Proofs.Grammar.Literals
import PCode.Proofs.Syntax.Tokens
import PCode.Proofs.Records.Nesting
import PCode.Proofs.Syntax.Readability
import PCode.Proofs.Machine.Arithmetic
import PCode.Proofs.Source.Positions
