import NativeBackend.Lowering.Value

namespace NativeBackend.Lowering

variable (x : LoweringInput) (lower : NodeId → LowerM Operand)

/-- Ends a block: its effects first, then what the terminator reads, then the transfer of control. -/
def lowerTerminator (n : NodeId) (t : TerminatorNode) : LowerM Unit :=
  match t with
  | .goto target dependency => do
    lowerEffects x lower dependency
    discover target
    terminate x n (.br (blockLabel target))
  | .branch cond ifTrue ifFalse dependency => do
    lowerEffects x lower dependency
    let c ← lower cond
    discover ifTrue
    discover ifFalse
    terminate x n (.condBr c (blockLabel ifTrue) (blockLabel ifFalse))
  | .ret none dependency => do
    lowerEffects x lower dependency
    terminate x n (.ret none)
  | .ret (some value) dependency => do
    lowerEffects x lower dependency
    let type ← operandType x value
    let a ← lower value
    terminate x n (.ret (some (type, a)))
  | .unreachable dependency => do
    lowerEffects x lower dependency
    terminate x n .unreachable
  | .throw .. => do
    report x n s!"Unsupported terminator {t.text}"
    terminate x n .unreachable

def lowerBlock (b : BlockId) : LowerM Unit := do
  let n ← ofExcept (x.graph.terminator b)
  match x.graph.kind? n with
  | some (.terminator t) => lowerTerminator x lower n t
  | some other => fault (.notTerminator b other.text)
  | none => fault (.unknownNode n)

def lowerBlocks (index : Nat) : Nat → LowerM Unit
  | 0 => return
  | blocks + 1 => do
    match (← get).blocks[index]? with
    | none => return
    | some (b, _) =>
      lowerBlock x lower b
      lowerBlocks (index + 1) blocks

/-- Operands come before their users except through phis, each of which is entered once. -/
def maxDepth (g : Graph) : Nat := (g.phis.size + 1) * (g.nodes.size + 1)

end NativeBackend.Lowering

namespace NativeBackend

open Lowering

def lowerGraph (x : LoweringInput) : LowerM Unit := do
  discover x.graph.entry
  lowerBlocks x (lowerValue x (maxDepth x.graph)) 0 x.graph.blocks.size

def lowerMethod (g : Graph) : EmitM Function := fun e =>
  match g.method.functionType.target, Schedule.compute g with
  | .error err, _ => .error err e
  | .ok _, .error err => .error err e
  | .ok signature, .ok schedule =>
    match lowerGraph ⟨g, schedule⟩ { emission := e, nextLocal := signature.params.length } with
    | .ok _ s => .ok ⟨g.method.symbol, signature, s.blocks.map (·.2), s.nextLocal⟩ s.emission
    | .error err s => .error err s.emission

end NativeBackend
