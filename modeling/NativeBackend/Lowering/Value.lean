import NativeBackend.Lowering.State

namespace NativeBackend.Lowering

variable (x : LoweringInput) (lower : NodeId → LowerM Operand)

/-- The effects from a node back to the first one that is done, oldest first, ahead of `later`. An
entry marker is done by being reached. -/
def pendingEffects (later : List NodeId) : Nat → NodeId → LowerM (List NodeId)
  | 0, n => fault (.loweringDepth n)
  | steps + 1, n => do
    let s ← get
    if s.effects.contains n || s.values.contains n then return later
    match x.graph.kind? n with
    | some (.action (.blockEntry _)) =>
      markEffect n
      return later
    | some k =>
      match k.effectDependency? with
      | some dependency => pendingEffects (n :: later) steps dependency
      | none => fault (.notEffect n k.text)
    | none => fault (.unknownNode n)

def lowerAction (n : NodeId) : ActionNode → LowerM Unit
  | .blockEntry _ => return
  | .store pointer value mode _ => do
    let type ← operandType x value
    let pointer ← lower pointer
    let value ← lower value
    emit x n (.store type value pointer mode.access.1 mode.access.2)
  | .monitorEnter object _ => do
    callRoutine x n .monitorEnter [(.ptr, ← lower object)]
  | .monitorExit object _ => do
    callRoutine x n .monitorExit [(.ptr, ← lower object)]

def lowerEffect (n : NodeId) : LowerM Unit :=
  match x.graph.kind? n with
  | some (.action a) => do
    lowerAction x lower n a
    markEffect n
  | _ => discard (lower n)

/-- Lowers the effects that end at a node and are not done yet, oldest first. -/
def lowerEffects (last : NodeId) : LowerM Unit := do
  let effects ← pendingEffects x [] (last + 1) last
  effects.forM (lowerEffect x lower)

def lowerPointer (n : NodeId) (p : Pointer) : LowerM Operand := do
  match p.root with
  | .global symbol =>
    produce (Emission.modifyModule (·.declareData symbol .i8))
    return .const (.symbolOffset symbol p.offset)
  | .method symbol =>
    match p.rootPointee with
    | .function signature =>
      let signature ← ofExcept signature.target
      produce (Emission.modifyModule (·.declareFunction symbol signature))
    | _ => pure ()
    return .const (.symbolOffset symbol p.offset)
  | .memory region =>
    report x n s!"Pointer into build-time memory region {region} has no symbol"
    return .const .null

def lowerCallee : CallTarget → LowerM Operand
  | .direct m => do
    let signature ← ofExcept m.functionType.target
    produce (Emission.modifyModule (·.declareFunction m.symbol signature))
    return .global m.symbol
  | .indirect pointer _ => lower pointer

def lowerArgs : List NodeId → LowerM (List (IrType × Operand))
  | [] => return []
  | n :: rest => do
    let type ← operandType x n
    let value ← lower n
    return (type, value) :: (← lowerArgs rest)

def lowerIncoming (block : BlockId) (index : Nat) : List (BlockId × NodeId) → LowerM Unit
  | [] => return
  | (predecessor, value) :: rest => do
    let operand ← lower value
    discover predecessor
    modifyBlock block (·.addIncoming index operand (blockLabel predecessor))
    lowerIncoming block index rest

/-- A phi is known before its inputs are lowered, so that a value that depends on it finds it. -/
def lowerPhi (n : NodeId) (type : IrType) : LowerM Operand := do
  let block := x.schedule.blockOf n
  discover block
  let result ← freshLocal
  let index := (((← get).blocks.lookup block).map (·.phis.length)).getD 0
  modifyBlock block (·.pushPhi ⟨result, type, []⟩)
  remember n (.ofLocal result)
  lowerIncoming lower block index (x.graph.phiInputs x.schedule.reachable n)
  return .ofLocal result

/-- Computes a value: at most one instruction in the block of its node. -/
def lowerOp (n : NodeId) (v : ValueNode) : LowerM Operand :=
  match v.op with
  | .literal l => return .const (l.constant v.type)
  | .parameter index =>
    if index < x.graph.method.functionType.params.length then return .ofLocal ⟨index⟩
    else fault (.parameterRange index x.graph.method.symbol)
  | .binary op lhs rhs => do
    let opcode ← ofExcept (op.opcode (← numericKind x lhs))
    let type ← operandType x lhs
    let a ← lower lhs
    let b ← lower rhs
    define x n (.binary · opcode type a b)
  | .neg input => do
    let kind ← numericKind x input
    let type ← operandType x input
    let a ← lower input
    define x n (negInstruction kind · type a)
  | .cmp op lhs rhs => do
    let kind ← numericKind x lhs
    let type ← operandType x lhs
    let a ← lower lhs
    let b ← lower rhs
    define x n (op.instruction kind · type a b)
  | .conversion op input => do
    let source ← ofExcept (x.graph.valueType input)
    let sourceType ← ofExcept source.target
    let targetType ← ofExcept v.type.target
    let opcode ← ofExcept (op.opcode input source v.type)
    let a ← lower input
    define x n (.cast · opcode sourceType a targetType)
  | .select cond ifTrue ifFalse => do
    let type ← ofExcept v.type.target
    let c ← lower cond
    let a ← lower ifTrue
    let b ← lower ifFalse
    define x n (.select · c type a b)
  | .phi _ => do
    lowerPhi x lower n (← ofExcept v.type.target)
  | .pointerLiteral p => lowerPointer x n p
  | .load pointer mode dependency => do
    lowerEffects x lower dependency
    let type ← ofExcept v.type.target
    let a ← lower pointer
    define x n (.load · type a mode.access.1 mode.access.2)
  | .call target args dependency => do
    lowerEffects x lower dependency
    let callee ← lowerCallee lower target
    let args ← lowerArgs x lower args
    match ← ofExcept v.type.target with
    | .void =>
      emit x n (.call none .void callee args)
      return .const .undef
    | type => define x n fun result => .call (some result) type callee args
  | .virtualLookup receiver m owner => do
    let index ← produce (Emission.vtableIndex (some (x.graph.info n)) m owner)
    let object ← lower receiver
    askRoutine x n .lookupVirtual [(.ptr, object), (.i32, .int index)]
  | .interfaceLookup receiver m interface => do
    let index ← produce (Emission.itableIndex (some (x.graph.info n)) m interface)
    let object ← lower receiver
    askRoutine x n .lookupInterface [(.ptr, object), (.i32, .int interface.typeId), (.i32, .int index)]
  | .catchException => do
    report x n s!"Unsupported value node Catch of type {v.type}"
    return .const (.bool false)

/-- The operand that stands for a value node. A value is computed once; the operands of a pure value
come before it. -/
def lowerValue : Nat → NodeId → LowerM Operand
  | 0, n => fault (.loweringDepth n)
  | depth + 1, n => do
    match (← get).values[n]? with
    | some o => return o
    | none =>
      match x.graph.kind? n with
      | some (.value v) =>
        if v.op.isPure then
          (v.op.inputs.filter x.graph.isValue).forM fun i => discard (lowerValue depth i)
        match (← get).values[n]? with
        | some o => return o
        | none =>
          let o ← lowerOp x (lowerValue depth) n v
          remember n o
          return o
      | some other => fault (.usedAsValue n other.text)
      | none => fault (.unknownNode n)

end NativeBackend.Lowering
