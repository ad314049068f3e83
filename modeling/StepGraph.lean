import StepGraph.Compile.Builder
import StepGraph.Compile.Constant
import StepGraph.Compile.Declarations
import StepGraph.Compile.Lower
import StepGraph.Compile.Names
import StepGraph.Compile.StaticType
import StepGraph.Error.CompileError
import StepGraph.Error.EvalError
import StepGraph.Error.Fault
import StepGraph.Graph.Builtin
import StepGraph.Graph.Shape
import StepGraph.Graph.Step
import StepGraph.Graph.Text
import StepGraph.Heap.Basic
import StepGraph.Heap.Chan
import StepGraph.Heap.Copy
import StepGraph.Heap.Cursor
import StepGraph.Heap.Dump
import StepGraph.Heap.Map
import StepGraph.Heap.Place
import StepGraph.Heap.Pointer
import StepGraph.Heap.Same
import StepGraph.Heap.Scope
import StepGraph.Heap.Slice
import StepGraph.Host.Package
import StepGraph.Host.Defaults
import StepGraph.Machine.Access
import StepGraph.Machine.Basic
import StepGraph.Machine.Binding
import StepGraph.Machine.Builtins
import StepGraph.Machine.Run
import StepGraph.Machine.Show
import StepGraph.Machine.Step
import StepGraph.Number.Binary
import StepGraph.Number.Complex
import StepGraph.Number.Decimal
import StepGraph.Number.Fixed
import StepGraph.Number.Power
import StepGraph.Operator.Equality
import StepGraph.Operator.Evaluate
import StepGraph.Operator.Family
import StepGraph.Operator.Table
import StepGraph.Package.Executable
import StepGraph.Package.FileTree
import StepGraph.Package.Link
import StepGraph.Package.Source
import StepGraph.Proofs.Machine.Exec
import StepGraph.Proofs.Machine.Return
import StepGraph.Proofs.Machine.Trace
import StepGraph.Proofs.Store.Assignment
import StepGraph.Proofs.Store.Content
import StepGraph.Proofs.Store.Copies
import StepGraph.Proofs.Store.Overwrite
import StepGraph.Proofs.Store.Variables
import StepGraph.Symbols
import StepGraph.Text.Case
import StepGraph.Text.CharSet
import StepGraph.Text.Directive
import StepGraph.Text.Quoted
import StepGraph.Text.Number
import StepGraph.Text.Printable
import StepGraph.Text.Search
import StepGraph.Text.Utf8
import StepGraph.Tree.IntKind
import StepGraph.Tree.Node
import StepGraph.Tree.Operator
import StepGraph.Tree.Package
import StepGraph.Tree.Span
import StepGraph.Tree.Ty
import StepGraph.Tree.Typed
import StepGraph.Types.Compose
import StepGraph.Types.Convert
import StepGraph.Types.Member
import StepGraph.Types.Table
import StepGraph.Value.Basic
import StepGraph.Value.MapKey
import StepGraph.Proofs.Compile.Emit
import StepGraph.Proofs.Structured.Simple
import StepGraph.Proofs.Structured.Expressions
import StepGraph.Proofs.Structured.Loops
import StepGraph.Proofs.Structured.Nested
import StepGraph.Proofs.Structured.Rounds
import StepGraph.Proofs.Structured.Statements
import StepGraph.Proofs.Structured.Programs
import StepGraph.Proofs.Machine.Attempts
import StepGraph.Proofs.Machine.Runs
import StepGraph.Proofs.Machine.Defers
import StepGraph.Proofs.Machine.Hosts
import StepGraph.Proofs.Stack.Chart
import StepGraph.Proofs.Machine.Moments
import StepGraph.Proofs.Machine.Endings
import StepGraph.Proofs.Package.Order
import StepGraph.Proofs.Package.Passes
import StepGraph.Proofs.Compile.BackEdges
import StepGraph.Proofs.Compile.Shape
import StepGraph.Proofs.Compile.Stances
import StepGraph.Proofs.Stack.Operands
import StepGraph.Proofs.Stack.Scopes
import StepGraph.Proofs.Stack.Recall
import StepGraph.Proofs.Package.DeclarationOrder
import StepGraph.Proofs.Package.ConstantLevels
import StepGraph.Proofs.Machine.Slicing
import StepGraph.Proofs.Store.Separation
import StepGraph.Proofs.Machine.Copying
import StepGraph.Proofs.Operator.Resolution
import StepGraph.Proofs.Store.SlotTable
import StepGraph.Proofs.Store.Pointers
import StepGraph.Proofs.Stack.Parts
import StepGraph.Proofs.Compile.Beginnings
import StepGraph.Proofs.Stack.Updates
import StepGraph.Proofs.Stack.Reassignment
import StepGraph.Proofs.Stack.CaseTests
import StepGraph.Proofs.Number.Patterns
import StepGraph.Proofs.Operator.Integers
import StepGraph.Proofs.Machine.Channels
import StepGraph.Proofs.Stack.Literals
import StepGraph.Proofs.Machine.Ranges
import StepGraph.Proofs.Text.KeyOrder
import StepGraph.Proofs.Store.Keys
import StepGraph.Proofs.Operator.Equality
import StepGraph.Proofs.Types.Methods
import StepGraph.Proofs.Types.Embedding
import StepGraph.Proofs.Types.Selection
import StepGraph.Proofs.Machine.Printing
import StepGraph.Proofs.Machine.Unwinding
import StepGraph.Proofs.Machine.Backtraces
import StepGraph.Proofs.Types.TableOrder
import StepGraph.Proofs.Stack.MissingEntries
import StepGraph.Proofs.Stack.TypeSwitches
import StepGraph.Proofs.Stack.Postorder
import StepGraph.Proofs.Text.Directives
import StepGraph.Proofs.Text.Padding
import StepGraph.Proofs.Text.Quoting
import StepGraph.Proofs.Text.Interning
import StepGraph.Proofs.Types.Conversions
