import NativeBackend.Dispatch.Emission
import NativeBackend.Graph.Schedule
import NativeBackend.Lowering.Select

namespace NativeBackend

structure LoweringInput where
  graph : Graph
  schedule : Schedule

/-- A function in the making: its blocks in the order of discovery, what the values lowered so far
are, and the effects that are done. -/
structure LoweringState where
  emission : Emission
  blocks : List (BlockId × BasicBlock) := []
  nextLocal : Nat
  values : Std.TreeMap NodeId Operand := ∅
  effects : List NodeId := []

abbrev LowerM := EStateM Error LoweringState

def blockLabel (b : BlockId) : String := s!"b{b}"

namespace Lowering

def produce {α : Type} (step : EmitM α) : LowerM α := fun s =>
  match step s.emission with
  | .ok a e => .ok a { s with emission := e }
  | .error err e => .error err { s with emission := e }

def ofExcept {α : Type} : Except Error α → LowerM α
  | .ok a => return a
  | .error e => throw e

def fault {α : Type} (f : Fault) : LowerM α := throw (.internal f)

def freshLocal : LowerM Local := do
  let s ← get
  set { s with nextLocal := s.nextLocal + 1 }
  return ⟨s.nextLocal⟩

def discover (b : BlockId) : LowerM Unit :=
  modify fun s =>
    if s.blocks.any (·.1 == b) then s
    else { s with blocks := s.blocks ++ [(b, { label := blockLabel b })] }

def modifyBlock (b : BlockId) (change : BasicBlock → BasicBlock) : LowerM Unit :=
  modify fun s => { s with blocks := s.blocks.map fun (k, block) => (k, if k == b then change block else block) }

def emit (x : LoweringInput) (n : NodeId) (i : Instruction) : LowerM Unit := do
  let b := x.schedule.blockOf n
  discover b
  modifyBlock b (·.push i)

def define (x : LoweringInput) (n : NodeId) (instruction : Local → Instruction) : LowerM Operand := do
  let result ← freshLocal
  emit x n (instruction result)
  return .ofLocal result

def terminate (x : LoweringInput) (n : NodeId) (t : Terminator) : LowerM Unit := do
  let b := x.schedule.blockOf n
  discover b
  let s ← get
  match s.blocks.lookup b with
  | some { terminator := some _, .. } => fault (.terminatedTwice (blockLabel b))
  | _ => modifyBlock b fun block => { block with terminator := some t }

def remember (n : NodeId) (o : Operand) : LowerM Unit :=
  modify fun s => { s with values := s.values.insert n o }

def markEffect (n : NodeId) : LowerM Unit := modify fun s => { s with effects := n :: s.effects }

def report (x : LoweringInput) (n : NodeId) (message : String) : LowerM Unit :=
  produce (Emission.report x.graph.method.text (some (x.graph.info n)) message)

def operandType (x : LoweringInput) (n : NodeId) : LowerM IrType := do
  let t ← ofExcept (x.graph.valueType n)
  ofExcept t.target

def numericKind (x : LoweringInput) (n : NodeId) : LowerM NumericKind := do
  let t ← ofExcept (x.graph.valueType n)
  ofExcept (t.kind n)

def callRoutine (x : LoweringInput) (n : NodeId) (r : Routine) (args : List (IrType × Operand)) :
    LowerM Unit := do
  produce (Emission.modifyModule r.declare)
  emit x n (.call none r.signature.returns (.global r.symbol) args)

def askRoutine (x : LoweringInput) (n : NodeId) (r : Routine) (args : List (IrType × Operand)) :
    LowerM Operand := do
  produce (Emission.modifyModule r.declare)
  define x n fun result => .call (some result) r.signature.returns (.global r.symbol) args

end Lowering

end NativeBackend
