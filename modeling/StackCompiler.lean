import StackCompiler.Main
import StackCompiler.Ty.Descriptor
import StackCompiler.Proofs.Agree
import StackCompiler.Proofs.Ensures
import StackCompiler.Proofs.Exchange
import StackCompiler.Proofs.Fails
import StackCompiler.Proofs.Grammar.Abreast
import StackCompiler.Proofs.Grammar.Arena
import StackCompiler.Proofs.Grammar.Beside
import StackCompiler.Proofs.Grammar.Bounds
import StackCompiler.Proofs.Grammar.Brackets
import StackCompiler.Proofs.Grammar.Declared
import StackCompiler.Proofs.Grammar.Derivations
import StackCompiler.Proofs.Grammar.Exchange
import StackCompiler.Proofs.Grammar.Expressions
import StackCompiler.Proofs.Grammar.Formula
import StackCompiler.Proofs.Grammar.Globals
import StackCompiler.Proofs.Grammar.Halting
import StackCompiler.Proofs.Grammar.Interning
import StackCompiler.Proofs.Grammar.Literals
import StackCompiler.Proofs.Grammar.Neighbours
import StackCompiler.Proofs.Grammar.Nesting
import StackCompiler.Proofs.Grammar.Onward
import StackCompiler.Proofs.Grammar.Package
import StackCompiler.Proofs.Grammar.Places
import StackCompiler.Proofs.Grammar.Refusals
import StackCompiler.Proofs.Grammar.Returning
import StackCompiler.Proofs.Grammar.Rounds
import StackCompiler.Proofs.Grammar.Spans
import StackCompiler.Proofs.Grammar.Statements
import StackCompiler.Proofs.Grammar.Strings
import StackCompiler.Proofs.Grammar.Tables
import StackCompiler.Proofs.Grammar.Taking
import StackCompiler.Proofs.Grammar.Texts
import StackCompiler.Proofs.Grammar.Trees
import StackCompiler.Proofs.Grammar.Types
import StackCompiler.Proofs.Grammar.Unplaced
import StackCompiler.Proofs.Lowering.Assignments
import StackCompiler.Proofs.Lowering.Calls
import StackCompiler.Proofs.Lowering.Closed
import StackCompiler.Proofs.Lowering.Computed
import StackCompiler.Proofs.Lowering.Definitions
import StackCompiler.Proofs.Lowering.Descent
import StackCompiler.Proofs.Lowering.Elements
import StackCompiler.Proofs.Lowering.Evaluation
import StackCompiler.Proofs.Lowering.Exchange
import StackCompiler.Proofs.Lowering.Execution
import StackCompiler.Proofs.Lowering.Formula
import StackCompiler.Proofs.Lowering.Functions
import StackCompiler.Proofs.Lowering.Growth
import StackCompiler.Proofs.Lowering.Labels
import StackCompiler.Proofs.Lowering.Numbered
import StackCompiler.Proofs.Lowering.Operations
import StackCompiler.Proofs.Lowering.Package
import StackCompiler.Proofs.Lowering.Parameters
import StackCompiler.Proofs.Lowering.Parts
import StackCompiler.Proofs.Lowering.Printing
import StackCompiler.Proofs.Lowering.References
import StackCompiler.Proofs.Lowering.Steady
import StackCompiler.Proofs.Lowering.StringTable
import StackCompiler.Proofs.Lowering.Strings
import StackCompiler.Proofs.Lowering.Values
import StackCompiler.Proofs.Machine.Descent
import StackCompiler.Proofs.Machine.Machine
import StackCompiler.Proofs.Machine.Memory
import StackCompiler.Proofs.Machine.Names
import StackCompiler.Proofs.Machine.References
import StackCompiler.Proofs.Machine.Relabelled
import StackCompiler.Proofs.Machine.Run
import StackCompiler.Proofs.Machine.Stack
import StackCompiler.Proofs.Machine.Turns
import StackCompiler.Proofs.Meaning.Formula
import StackCompiler.Proofs.Meaning.Running
import StackCompiler.Proofs.Rendering.Cutting
import StackCompiler.Proofs.Rendering.Reading
import StackCompiler.Proofs.Rendering.RoundTrip
import StackCompiler.Proofs.Rendering.Writing
import StackCompiler.Proofs.Rounding
import StackCompiler.Proofs.Spacing
import StackCompiler.Proofs.Stretches
import StackCompiler.Proofs.Syntax.Everywhere
import StackCompiler.Proofs.Syntax.Numbered
import StackCompiler.Proofs.Syntax.Parts
import StackCompiler.Proofs.Syntax.Tally
import StackCompiler.Proofs.Text.Location
import StackCompiler.Proofs.Token.Alike
import StackCompiler.Proofs.Token.Brackets
import StackCompiler.Proofs.Token.Formula
import StackCompiler.Proofs.Token.Joined
import StackCompiler.Proofs.Token.Lexemes
import StackCompiler.Proofs.Token.Longest
import StackCompiler.Proofs.Token.Numbers
import StackCompiler.Proofs.Token.Pieces
import StackCompiler.Proofs.Token.Places
import StackCompiler.Proofs.Token.Refusals
import StackCompiler.Proofs.Token.Terminators
import StackCompiler.Proofs.Token.Tiles
import StackCompiler.Proofs.Token.Types
import StackCompiler.Proofs.Ty.Arrays
import StackCompiler.Proofs.Ty.Exact
import StackCompiler.Proofs.Ty.Proper
import StackCompiler.Proofs.Typing.Again
import StackCompiler.Proofs.Typing.Arrays
import StackCompiler.Proofs.Typing.Binding
import StackCompiler.Proofs.Typing.Bounds
import StackCompiler.Proofs.Typing.Exchange
import StackCompiler.Proofs.Typing.Expressions
import StackCompiler.Proofs.Typing.Fixed
import StackCompiler.Proofs.Typing.Frames
import StackCompiler.Proofs.Typing.Numbered
import StackCompiler.Proofs.Typing.Package
import StackCompiler.Proofs.Typing.Places
import StackCompiler.Proofs.Typing.Rebound
import StackCompiler.Proofs.Typing.Refusals
import StackCompiler.Proofs.Typing.Returning
import StackCompiler.Proofs.Typing.Rules
import StackCompiler.Proofs.Typing.Scope
import StackCompiler.Proofs.Typing.Sizes
import StackCompiler.Proofs.Typing.Slots
import StackCompiler.Proofs.Typing.Stacked
import StackCompiler.Proofs.Typing.Statements
