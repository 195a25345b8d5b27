import NativeBackend.Class.Program
import NativeBackend.Ir.Routine
import NativeBackend.Types.Layout
import NativeBackend.Types.Target

namespace NativeBackend

inductive TableKind where
  | virtual | interface
  deriving DecidableEq, Repr

/-- The methods that a class's vtable or an interface's itable has slots for, in slot order. -/
structure DispatchTable where
  kind : TableKind
  owner : ClassDef
  slots : List Method
  symbol : String

namespace DispatchTable

def ofClass (live : Reachability) (c : ClassDef) : DispatchTable :=
  ⟨.virtual, c, c.instanceMethods.filter live.liveMethod, "vtable-" ++ c.dottedName⟩

def ofInterface (live : Reachability) (c : ClassDef) : DispatchTable :=
  ⟨.interface, c, c.interfaceMethods.filter (live.liveDispatch c), "itable-" ++ c.dottedName⟩

def index? (t : DispatchTable) (m : Method) : Option Nat := t.slots.findIdx? (·.sameSelector m)

def isEmpty (t : DispatchTable) : Bool := t.slots.isEmpty

def layout (t : DispatchTable) (pointerSize : Int) : Compound where
  tag := .struct
  name := t.symbol
  members := t.slots.zipIdx.map fun (m, i) =>
    ⟨s!"m{i}", i * pointerSize, .pointer (.function m.functionType), pointerSize⟩
  size := t.slots.length * pointerSize
  align := pointerSize

end DispatchTable

/-- What a slot of an emitted table points at. Slots that cannot be called raise an error. -/
inductive SlotTarget where
  | method (m : Method)
  | stub (r : Routine)

namespace SlotTarget

def symbol : SlotTarget → String
  | .method m => m.symbol
  | .stub r => r.symbol

def ofMethod (m : Method) : SlotTarget :=
  if m.isAbstract then .stub .raiseAbstractMethodError
  else if m.hasBody then .method m
  else .stub .raiseUnsatisfiedLinkError

def ofSelector (c : ClassDef) (slot : Method) : SlotTarget :=
  match c.resolveMethod? slot.name slot.descriptor with
  | some m => ofMethod m
  | none => .stub .raiseIncompatibleClassChangeError

def declare (m : Module) : SlotTarget → Except Error Module
  | .method k => k.functionType.target.map (m.declareFunction k.symbol ·)
  | .stub r => .ok (r.declare m)

def tableConstant (targets : List SlotTarget) : IrType × Constant :=
  (.struct false (targets.map fun _ => .ptr),
    .struct false (targets.map fun t => (.ptr, .symbol t.symbol)))

end SlotTarget

def Method.lacksBody (m : Method) : Bool := !m.isAbstract && !m.isNative && !m.hasBody

def vtableArraySymbol : String := "kiln_vtables"

def itableArraySymbol : String := "kiln_itable_dicts"

def ClassDef.dictionarySymbol (c : ClassDef) : String := "itable-dict-" ++ c.dottedName

def ClassDef.itableSymbol (c interface : ClassDef) : String :=
  "itable-" ++ c.dottedName ++ "-" ++ interface.dottedName

structure DispatchStatistics where
  vtables : Nat := 0
  vtableSlots : Nat := 0
  itables : Nat := 0
  itableSlots : Nat := 0
  dictionaries : Nat := 0
  deriving DecidableEq, Repr

def DispatchStatistics.text (s : DispatchStatistics) : String :=
  s!"{s.vtables} vtables ({s.vtableSlots} slots), {s.itables} itables ({s.itableSlots} slots), " ++
    s!"{s.dictionaries} dictionaries"

/-- The dispatch tables built so far, by type id, and the symbols of those emitted. -/
structure DispatchTables where
  live : Reachability
  pointerSize : Int
  typeIdSize : Int
  vtables : Std.TreeMap Nat DispatchTable := ∅
  itables : Std.TreeMap Nat DispatchTable := ∅
  emitted : List String := []
  statistics : DispatchStatistics := {}

def DispatchTables.entryLayout (t : DispatchTables) : Compound where
  tag := .struct
  name := "itable-dict-entry"
  members := [⟨"itable", 0, .pointer (.unsigned 1), t.pointerSize⟩,
    ⟨"typeId", t.pointerSize, .unsigned (t.typeIdSize % 256).toNat, t.typeIdSize⟩]
  size := t.pointerSize * 2
  align := t.pointerSize

end NativeBackend
