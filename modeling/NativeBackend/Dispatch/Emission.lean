import NativeBackend.Diagnostics
import NativeBackend.Dispatch.Table

namespace NativeBackend

/-- What is produced for a program beside its heap: tables, diagnostics and the output module. -/
structure Emission where
  tables : DispatchTables
  diagnostics : Diagnostics := {}
  module : Module

abbrev EmitM := EStateM Error Emission

namespace Emission

def report (element : String) (location : Option SourceInfo) (message : String) : EmitM Unit :=
  modify fun e => { e with diagnostics := e.diagnostics.report element location message }

def modifyModule (change : Module → Module) : EmitM Unit :=
  modify fun e => { e with module := change e.module }

def updateModule (change : Module → Except Error Module) : EmitM Unit := do
  match change (← get).module with
  | .ok m => modifyModule fun _ => m
  | .error e => throw e

/-- The vtable of a class, built on the first request for its type id. -/
def vtable (c : ClassDef) : EmitM DispatchTable := do
  if c.isInterface then throw (.internal (.vtableOfInterface c.name))
  let e ← get
  match e.tables.vtables[c.typeId]? with
  | some t => return t
  | none =>
    let t := DispatchTable.ofClass e.tables.live c
    set { e with tables.vtables := e.tables.vtables.insert c.typeId t }
    return t

def itable (c : ClassDef) : EmitM DispatchTable := do
  if !c.isInterface then throw (.internal (.itableOfClass c.name))
  let e ← get
  match e.tables.itables[c.typeId]? with
  | some t => return t
  | none =>
    let t := DispatchTable.ofInterface e.tables.live c
    set { e with tables.itables := e.tables.itables.insert c.typeId t }
    return t

/-- The slot of a method in a class's vtable. A miss is reported and slot 0 stands in. -/
def vtableIndex (location : Option SourceInfo) (m : Method) (owner : ClassDef) : EmitM Nat := do
  match (← vtable owner).index? m with
  | some i => return i
  | none =>
    report owner.name location s!"No vtable entry found for {m} in {owner.name}"
    return 0

def itableIndex (location : Option SourceInfo) (m : Method) (interface : ClassDef) : EmitM Nat := do
  match (← itable interface).index? m with
  | some i => return i
  | none =>
    report interface.name location s!"No itable entry found for {m} in {interface.name}"
    return 0

def markEmitted (symbol : String) : EmitM Bool := do
  let e ← get
  if e.tables.emitted.contains symbol then return false
  set { e with tables.emitted := symbol :: e.tables.emitted }
  return true

def count (change : DispatchStatistics → DispatchStatistics) : EmitM Unit :=
  modify fun e => { e with tables.statistics := change e.tables.statistics }

def reportMissing (c : ClassDef) (table : String) : List Method → EmitM Unit
  | [] => return
  | m :: rest => do
    if m.lacksBody then
      report c.name none s!"Missing method implementation for {table} of {c.name}: {m}"
    reportMissing c table rest

def declareTargets : List SlotTarget → EmitM Unit
  | [] => return
  | t :: rest => do
    updateModule t.declare
    declareTargets rest

def defineTable (symbol : String) (targets : List SlotTarget) : EmitM Unit := do
  declareTargets targets
  let (type, value) := SlotTarget.tableConstant targets
  updateModule (·.addData symbol type value .internal)

def emitVtable (c : ClassDef) : EmitM Unit := do
  if !c.isConcrete then return
  let table ← vtable c
  if !(← markEmitted table.symbol) then return
  reportMissing c "vtable" table.slots
  defineTable table.symbol (table.slots.map .ofMethod)
  count fun s => { s with vtables := s.vtables + 1, vtableSlots := s.vtableSlots + table.slots.length }

def anyItable : List ClassDef → EmitM Bool
  | [] => return false
  | i :: rest => do
    if !(← itable i).isEmpty then return true
    anyItable rest

def hasItables (c : ClassDef) : EmitM Bool := anyItable c.allInterfaces

def resolvedSlots (c : ClassDef) (slots : List Method) : List Method :=
  slots.filterMap fun s => c.resolveMethod? s.name s.descriptor

def emitItablesOf (c : ClassDef) : List ClassDef → EmitM (List ClassDef)
  | [] => return []
  | i :: rest => do
    let table ← itable i
    if table.isEmpty then emitItablesOf c rest
    else
      reportMissing c "itable" (resolvedSlots c table.slots)
      defineTable (c.itableSymbol i) (table.slots.map (.ofSelector c))
      count fun s => { s with itables := s.itables + 1, itableSlots := s.itableSlots + table.slots.length }
      return i :: (← emitItablesOf c rest)

def dictionaryEntry (idType : IrType) (c interface : ClassDef) : Constant :=
  .struct false [(.ptr, .symbol (c.itableSymbol interface)), (idType, .int interface.typeId)]

/-- Emits the itables of a concrete class and the dictionary of them, closed by a zero entry. -/
def emitItables (c : ClassDef) : EmitM Unit := do
  if !c.isConcrete then return
  if !(← hasItables c) then return
  if !(← markEmitted c.dictionarySymbol) then return
  let idSize := (← get).tables.typeIdSize
  match IrType.ofBytes? idSize with
  | none => throw (.internal (.typeIdSize idSize))
  | some idType =>
    let entryType := IrType.struct false [.ptr, idType]
    let interfaces ← emitItablesOf c c.allInterfaces
    let entries := interfaces.map (dictionaryEntry idType c) ++ [.zero]
    updateModule (·.addData c.dictionarySymbol (.array entries.length entryType) (.array entryType entries)
      .internal)
    count fun s => { s with dictionaries := s.dictionaries + 1 }

/-- Puts the table symbol of each concrete class into the slot of its type id. A slot is taken once. -/
def fillSlots (array : String) (symbolOf : ClassDef → EmitM (Option String)) :
    List ClassDef → Array (Option String) → EmitM (Array (Option String))
  | [], slots => return slots
  | c :: rest, slots => do
    if c.isConcrete then
      if (slots.getD c.typeId none).isSome then throw (.internal (.slotTaken array c.typeId))
      let symbol ← symbolOf c
      fillSlots array symbolOf rest (slots.setIfInBounds c.typeId symbol)
    else fillSlots array symbolOf rest slots

def slotConstant : Option String → Constant
  | some symbol => .symbol symbol
  | none => .null

def emitGlobalArray (p : Program) (symbol : String) (symbolOf : ClassDef → EmitM (Option String)) :
    EmitM Unit := do
  let slots ← fillSlots symbol symbolOf p.classes (Array.replicate (p.maxTypeId + 1) none)
  let entries := slots.toList.map slotConstant
  updateModule (·.addData symbol (.array entries.length .ptr) (.array .ptr entries) .global)

def emitVtableArray (p : Program) : EmitM Unit :=
  emitGlobalArray p vtableArraySymbol fun c => return some (← vtable c).symbol

def emitItableArray (p : Program) : EmitM Unit :=
  emitGlobalArray p itableArraySymbol fun c =>
    return if ← hasItables c then some c.dictionarySymbol else none

end Emission

end NativeBackend
