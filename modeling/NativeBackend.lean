import NativeBackend.Class.Basic
import NativeBackend.Class.Layout
import NativeBackend.Class.Method
import NativeBackend.Class.Program
import NativeBackend.Class.Text
import NativeBackend.Class.TypeId
import NativeBackend.Descriptor
import NativeBackend.Diagnostics
import NativeBackend.Dispatch.Emission
import NativeBackend.Dispatch.Table
import NativeBackend.Error
import NativeBackend.Graph.Basic
import NativeBackend.Graph.Builder
import NativeBackend.Graph.Dominators
import NativeBackend.Graph.Node
import NativeBackend.Graph.Schedule
import NativeBackend.Graph.Search
import NativeBackend.Graph.Text
import NativeBackend.Heap.Basic
import NativeBackend.Heap.Emit
import NativeBackend.Heap.Object
import NativeBackend.Heap.Text
import NativeBackend.Ir.Constant
import NativeBackend.Ir.Function
import NativeBackend.Ir.Instruction
import NativeBackend.Ir.Module
import NativeBackend.Ir.Routine
import NativeBackend.Ir.Symbol
import NativeBackend.Ir.Types
import NativeBackend.Json.Basic
import NativeBackend.Lowering.Method
import NativeBackend.Lowering.Select
import NativeBackend.Lowering.State
import NativeBackend.Lowering.Value
import NativeBackend.Memory.Access
import NativeBackend.Memory.Cell
import NativeBackend.Number.Binary
import NativeBackend.Number.Hex
import NativeBackend.Number.Shortest
import NativeBackend.Options
import NativeBackend.Pointer.Basic
import NativeBackend.Pointer.Resolve
import NativeBackend.Proofs.Class.Apart
import NativeBackend.Proofs.Class.Hierarchy
import NativeBackend.Proofs.Class.Layout
import NativeBackend.Proofs.Class.Program
import NativeBackend.Proofs.Dispatch.Advance
import NativeBackend.Proofs.Dispatch.Agreement
import NativeBackend.Proofs.Dispatch.Growth
import NativeBackend.Proofs.Dispatch.Interface
import NativeBackend.Proofs.Dispatch.ItableEmission
import NativeBackend.Proofs.Dispatch.ItableSymbols
import NativeBackend.Proofs.Dispatch.Requests
import NativeBackend.Proofs.Dispatch.Slots
import NativeBackend.Proofs.Dispatch.TableSymbols
import NativeBackend.Proofs.Dispatch.TypeIdArray
import NativeBackend.Proofs.Dispatch.Virtual
import NativeBackend.Proofs.Dispatch.VtableEmission
import NativeBackend.Proofs.Graph.Ancestors
import NativeBackend.Proofs.Graph.Answers
import NativeBackend.Proofs.Graph.Built
import NativeBackend.Proofs.Graph.Chain
import NativeBackend.Proofs.Graph.Convergence
import NativeBackend.Proofs.Graph.Dominators
import NativeBackend.Proofs.Graph.Flow
import NativeBackend.Proofs.Graph.Kept
import NativeBackend.Proofs.Graph.Meaning
import NativeBackend.Proofs.Graph.Needs
import NativeBackend.Proofs.Graph.Partial
import NativeBackend.Proofs.Graph.Placement
import NativeBackend.Proofs.Graph.Postorder
import NativeBackend.Proofs.Graph.Queries
import NativeBackend.Proofs.Graph.Search
import NativeBackend.Proofs.Graph.Uses
import NativeBackend.Proofs.Heap.Addresses
import NativeBackend.Proofs.Heap.Closed
import NativeBackend.Proofs.Heap.Closure
import NativeBackend.Proofs.Heap.Emitted
import NativeBackend.Proofs.Heap.FieldValues
import NativeBackend.Proofs.Heap.Interning
import NativeBackend.Proofs.Heap.Literal
import NativeBackend.Proofs.Ir.AnyOrder
import NativeBackend.Proofs.Ir.Introduced
import NativeBackend.Proofs.Ir.Layout
import NativeBackend.Proofs.Ir.Meaning
import NativeBackend.Proofs.Ir.Ssa
import NativeBackend.Proofs.Ir.SymbolTable
import NativeBackend.Proofs.Ir.Symbols
import NativeBackend.Proofs.Lowering.Complete
import NativeBackend.Proofs.Lowering.Effects
import NativeBackend.Proofs.Lowering.LowerEffects
import NativeBackend.Proofs.Lowering.LowerMethod
import NativeBackend.Proofs.Lowering.LowerValue
import NativeBackend.Proofs.Lowering.Lowered
import NativeBackend.Proofs.Lowering.Once
import NativeBackend.Proofs.Lowering.Phis
import NativeBackend.Proofs.Lowering.Primitives
import NativeBackend.Proofs.Lowering.Reflects
import NativeBackend.Proofs.Lowering.Selects
import NativeBackend.Proofs.Lowering.Simulation
import NativeBackend.Proofs.Lowering.Sound
import NativeBackend.Proofs.Lowering.SoundMethod
import NativeBackend.Proofs.Lowering.SoundValue
import NativeBackend.Proofs.Lowering.Ssa
import NativeBackend.Proofs.Lowering.Trace
import NativeBackend.Proofs.Number.Widening
import NativeBackend.Proofs.Pointer.Derivation
import NativeBackend.Proofs.Pointer.Displacement
import NativeBackend.Proofs.Session
import NativeBackend.Proofs.Steps
import NativeBackend.Proofs.Types.Members
import NativeBackend.Proofs.Types.Target
import NativeBackend.Session
import NativeBackend.Text.Extender
import NativeBackend.Text.Graphic
import NativeBackend.Text.Ignorable
import NativeBackend.Text.Quoted
import NativeBackend.Text.Ranges
import NativeBackend.Text.Record
import NativeBackend.Types.Basic
import NativeBackend.Types.Layout
import NativeBackend.Types.Target
import NativeBackend.Proofs.Class.Inheritance
import NativeBackend.Proofs.Class.Reordered
import NativeBackend.Proofs.Class.Resolution
import NativeBackend.Proofs.Dispatch.TypeIdWidth
import NativeBackend.Proofs.Graph.Speculation
import NativeBackend.Proofs.Lowering.Steady
import NativeBackend.Proofs.Lowering.Termination
import NativeBackend.Proofs.Delivery
import NativeBackend.Proofs.Descriptor
import NativeBackend.Proofs.Dispatch.Failures
import NativeBackend.Proofs.Heap.Failures
import NativeBackend.Proofs.Heap.Strings
import NativeBackend.Proofs.Heap.Termination
import NativeBackend.Proofs.Text.Decoding
import NativeBackend.Proofs.Class.MethodSymbols
import NativeBackend.Proofs.Heap.InstanceLayout
import NativeBackend.Proofs.Ir.GlobalName
import NativeBackend.Proofs.Memory.PlainArray
import NativeBackend.Proofs.Graph.Equality
import NativeBackend.Proofs.Graph.Sharing
import NativeBackend.Proofs.Lowering.Failures
import NativeBackend.Proofs.Lowering.Refusals
import NativeBackend.Proofs.Types.StructLayout
