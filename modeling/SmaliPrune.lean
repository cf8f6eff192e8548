import SmaliPrune.Text.Blank
import SmaliPrune.Text.Alphanumeric
import SmaliPrune.Text.Hidden
import SmaliPrune.Text.Digits
import SmaliPrune.Text.Quoted
import SmaliPrune.Total
import SmaliPrune.Dyadic
import SmaliPrune.Decimal.Shortest
import SmaliPrune.Descriptor.Basic
import SmaliPrune.Descriptor.Reference
import SmaliPrune.Value
import SmaliPrune.Arithmetic
import SmaliPrune.Opcode.Basic
import SmaliPrune.Opcode.Catalogue
import SmaliPrune.Registers.Register
import SmaliPrune.Registers.Bindings
import SmaliPrune.Registers.PathState
import SmaliPrune.Instr.Basic
import SmaliPrune.Instr.SideEffect
import SmaliPrune.Instr.Printer
import SmaliPrune.Instr.Effect
import SmaliPrune.Search
import SmaliPrune.Hierarchy.Platform
import SmaliPrune.Hierarchy.Basic
import SmaliPrune.Source.Operand
import SmaliPrune.Fault
import SmaliPrune.Source.Reading
import SmaliPrune.Source.Literal
import SmaliPrune.Source.StringLiteral
import SmaliPrune.Source.Instruction
import SmaliPrune.Source.Line
import SmaliPrune.Method.Basic
import SmaliPrune.Method.Removal
import SmaliPrune.Source.Assemble
import SmaliPrune.Source.Method
import SmaliPrune.Source.ClassFile
import SmaliPrune.Graph.Basic
import SmaliPrune.Graph.Removal
import SmaliPrune.Graph.Exits
import SmaliPrune.Graph.Explore
import SmaliPrune.Prune.Traced
import SmaliPrune.Prune.Liveness
import SmaliPrune.Prune.Candidates
import SmaliPrune.Prune.Pass
import SmaliPrune.Settings
import SmaliPrune.Report
import SmaliPrune.Main
import SmaliPrune.Proofs.Search
import SmaliPrune.Proofs.Hierarchy
import SmaliPrune.Proofs.Bindings
import SmaliPrune.Proofs.Catalogue
import SmaliPrune.Proofs.Effect
import SmaliPrune.Proofs.Paths
import SmaliPrune.Proofs.Arena
import SmaliPrune.Proofs.Exploration
import SmaliPrune.Proofs.Coverage
import SmaliPrune.Proofs.Layout
import SmaliPrune.Proofs.Loading
import SmaliPrune.Proofs.Relocation
import SmaliPrune.Proofs.Splice
import SmaliPrune.Proofs.Contraction
import SmaliPrune.Proofs.Removal
import SmaliPrune.Proofs.Liveness
import SmaliPrune.Proofs.Nodes
import SmaliPrune.Proofs.Candidates
import SmaliPrune.Proofs.Reduction
import SmaliPrune.Proofs.Remainder
import SmaliPrune.Proofs.Results
import SmaliPrune.Proofs.Preservation
import SmaliPrune.Proofs.Reuse
import SmaliPrune.Proofs.Widening
import SmaliPrune.Proofs.Convergence
import SmaliPrune.Proofs.Unfolding
import SmaliPrune.Proofs.Ancestry
import SmaliPrune.Proofs.Handlers
import SmaliPrune.Proofs.Sweeps
import SmaliPrune.Proofs.Raising
import SmaliPrune.Proofs.Descriptors
import SmaliPrune.Proofs.Conformance
import SmaliPrune.Proofs.NullLiteral
import SmaliPrune.Proofs.Independence
import SmaliPrune.Proofs.Numerals
import SmaliPrune.Proofs.Literals
import SmaliPrune.Proofs.StringLiterals
import SmaliPrune.Proofs.Listing
import SmaliPrune.Proofs.Registers
import SmaliPrune.Proofs.References
import SmaliPrune.Proofs.Operands
import SmaliPrune.Proofs.Instructions
import SmaliPrune.Proofs.Redirection
import SmaliPrune.Proofs.Batches
import SmaliPrune.Proofs.Retention
import SmaliPrune.Proofs.Representation
import SmaliPrune.Proofs.ControlFlow
import SmaliPrune.Proofs.Directives
import SmaliPrune.Proofs.DirectCalls
import SmaliPrune.Proofs.Assembly
import SmaliPrune.Proofs.Frame
import SmaliPrune.Proofs.Immediates
import SmaliPrune.Proofs.Comments
import SmaliPrune.Proofs.Escapes
import SmaliPrune.Proofs.Folding
import SmaliPrune.Proofs.Widths
import SmaliPrune.Proofs.Pooling
import SmaliPrune.Proofs.Content
import SmaliPrune.Proofs.TextLayout
