import NativeBackend.Heap.Emit
import NativeBackend.Lowering.Method
import NativeBackend.Options

namespace NativeBackend

def version : String := "0.1.0"

/-- The compilation of one program: its options, what is produced so far, and its build-time heap. -/
structure Session where
  options : Options
  program : Program
  emission : Emission
  heap : Heap := {}

abbrev SessionM := EStateM Error Session

structure CompileResult where
  ir : String
  functions : Nat
  heapObjects : Nat
  statistics : DispatchStatistics
  warnings : List Diagnostic

namespace Emission

def ofOptions (o : Options) (live : Reachability) (name : String) : Emission where
  tables := { live := live, pointerSize := o.pointerSize, typeIdSize := o.typeIdSize }
  module := { name := name, pie := o.pie }

/-- The outcome of a step, whose error does not stop others. -/
def attempt {α : Type} (step : EmitM α) : EmitM (Except Error α) := fun e =>
  match step e with
  | .ok a e => .ok (.ok a) e
  | .error err e => .ok (.error err) e

def buildTables : List ClassDef → EmitM Unit
  | [] => return
  | c :: rest => do
    if c.isInterface then discard (itable c) else discard (vtable c)
    buildTables rest

def emitTables : List ClassDef → EmitM Unit
  | [] => return
  | c :: rest => do
    emitVtable c
    emitItables c
    emitTables rest

/-- Lowers methods in order. Failing fast, the first error ends the lowering. -/
def lowerMethods (failFast : Bool) : List Graph → EmitM (List (Except Error Function))
  | [] => return []
  | g :: rest => do
    let result ← if failFast then (lowerMethod g).map .ok else attempt (lowerMethod g)
    return result :: (← lowerMethods failFast rest)

def addFunctions (firstError : Option Error) : List (Except Error Function) → EmitM (Option Error)
  | [] => return firstError
  | .ok f :: rest => do
    updateModule (·.addFunction f)
    addFunctions firstError rest
  | .error e :: rest => addFunctions (firstError.or (some e)) rest

def check : EmitM Unit := do
  match (← get).diagnostics.check with
  | .ok () => return
  | .error e => throw e

def emitProgramTables (p : Program) : EmitM Unit := do
  buildTables p.classes
  emitTables p.classes
  emitVtableArray p
  emitItableArray p
  check

def emitMethods (failFast : Bool) (graphs : List Graph) : EmitM Unit := do
  let results ← lowerMethods failFast graphs
  let firstError ← addFunctions none results
  check
  match firstError with
  | some e => throw e
  | none => return

end Emission

namespace Session

def start (o : Options) (p : Program) (live : Reachability) : Session where
  options := o
  program := p
  emission := .ofOptions o live "kiln"

def produce {α : Type} (step : EmitM α) : SessionM α := fun s =>
  match step s.emission with
  | .ok a e => .ok a { s with emission := e }
  | .error err e => .error err { s with emission := e }

def onHeap {α : Type} (step : HeapM α) : SessionM α := fun s =>
  match step s.heap with
  | .ok a h => .ok a { s with heap := h }
  | .error err h => .error err { s with heap := h }

def emitHeap : SessionM Nat := fun s =>
  match Heap.emit (s.heap, s.emission.module) with
  | .ok n (h, m) => .ok n { s with heap := h, emission.module := m }
  | .error err (h, m) => .error err { s with heap := h, emission.module := m }

/-- Compiles methods and all data of the program: dispatch tables, functions, then the heap. -/
def compile (graphs : List Graph) : SessionM CompileResult := do
  let s ← get
  match s.options.validate with
  | .error e => throw e
  | .ok () =>
    produce (Emission.emitProgramTables s.program)
    produce (Emission.emitMethods s.options.parallel.failFast graphs)
    let heapObjects ← emitHeap
    produce Emission.check
    let m := (← get).emission.module
    return {
      ir := m.text
      functions := m.functions.size
      heapObjects := heapObjects
      statistics := (← get).emission.tables.statistics
      warnings := (← get).emission.diagnostics.warnings }

end Session

end NativeBackend
