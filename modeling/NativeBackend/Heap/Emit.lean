import NativeBackend.Heap.Basic

namespace NativeBackend.Heap

def padding (bytes : Int) : List (IrType × Constant) :=
  if 0 < bytes then [(.array bytes.toNat .i8, .zero)] else []

def reference (target : Option ObjectId) : HeapM Constant := do
  match target with
  | none => return .null
  | some id =>
    let (number, h) := (← get).intern id
    set h
    return .symbol (heapSymbol number)

def valueLiteral (d : Descriptor) (value : HeapValue) : HeapM (IrType × Constant) := do
  match d, value with
  | .boolean, .boolean v => return (.i8, .int v.toInt)
  | .byte, .byte v => return (.i8, .int v.toInt)
  | .char, .char v => return (.i16, .int v.toNat)
  | .short, .short v => return (.i16, .int v.toInt)
  | .int, .int v => return (.i32, .int v.toInt)
  | .float, .float bits => return (.float, .float (widenSingle bits))
  | .long, .long v => return (.i64, .int v.toInt)
  | .double, .double bits => return (.double, .float bits)
  | .object _, .reference target => return (.ptr, ← reference target)
  | .array _, .reference target => return (.ptr, ← reference target)
  | d, value => throw (.internal (.withText (value.textIn (← get).store) (.unserializable · d.text)))

/-- Initializers of fields in the order of their offsets, from a byte cursor to the end of an
instance, with filler between them. -/
def fieldLiterals (cls : ClassDef) (values : List (String × HeapValue)) (finish cursor : Int) :
    List Field → HeapM (List (IrType × Constant))
  | [] => return padding (finish - cursor)
  | f :: rest => do
    if f.offset < cursor then throw (.internal (.overlappingField f.name cls.name))
    let literal ← valueLiteral f.descriptor ((values.lookup f.name).getD (.zero f.descriptor))
    let literals ← fieldLiterals cls values finish (f.offset + f.size) rest
    return padding (f.offset - cursor) ++ literal :: literals

def instanceLiteral (cls : ClassDef) (values : List (String × HeapValue)) : HeapM (IrType × Constant) := do
  let layout := cls.instanceFields.mergeSort (·.offset ≤ ·.offset)
  let fields ← fieldLiterals cls values (max cls.instanceSize objectHeaderSize) 4 layout
  let fields := (IrType.i32, Constant.int cls.typeId) :: fields
  return (.struct true (fields.map (·.1)), .struct true fields)

def references : List (Option ObjectId) → HeapM (List Constant)
  | [] => return []
  | target :: rest => do
    let constant ← reference target
    return constant :: (← references rest)

def elementLiterals : HeapArray → HeapM (IrType × List Constant)
  | .boolean elements => return (.i8, elements.map fun v => .int v.toInt)
  | .byte elements => return (.i8, elements.map fun v => .int v.toInt)
  | .char elements => return (.i16, elements.map fun v => .int v.toNat)
  | .short elements => return (.i16, elements.map fun v => .int v.toInt)
  | .int elements => return (.i32, elements.map fun v => .int v.toInt)
  | .float elements => return (.float, elements.map fun bits => .float (widenSingle bits))
  | .long elements => return (.i64, elements.map fun v => .int v.toInt)
  | .double elements => return (.double, elements.map .float)
  | .reference elements => return (.ptr, ← references elements)

def arrayLiteral (a : HeapArray) : HeapM (IrType × Constant) := do
  let (element, values) ← elementLiterals a
  let content := IrType.array values.length element
  let initial := if values.isEmpty then Constant.zero else .array element values
  return (.struct false [.i32, .i32, content],
    .struct false [(.i32, .int a.typeId), (.i32, .int values.length), (content, initial)])

def literal : HeapObject → HeapM (IrType × Constant)
  | .instanceOf cls values => instanceLiteral cls values
  | .arrayOf contents => arrayLiteral contents

/-- Adds the next interned object to the module. It counts as emitted even if that fails. -/
def emitNext (id : ObjectId) : EStateM Error (Heap × Module) Unit := fun (h, m) =>
  let symbol := heapSymbol h.emitted
  let h := { h with emitted := h.emitted + 1 }
  match h.store[id]? with
  | none => .ok () (h, m)
  | some o =>
    match literal o h with
    | .error e h => .error e (h, m)
    | .ok (type, value) h =>
      match m.addVariable symbol type value .internal with
      | .error e => .error e (h, m)
      | .ok m => .ok () (h, m)

def emitFrom : Nat → EStateM Error (Heap × Module) Nat
  | 0 => return 0
  | steps + 1 => do
    let (h, _) ← get
    match h.interned[h.emitted]? with
    | none => return 0
    | some id =>
      emitNext id
      return (← emitFrom steps) + 1

/-- Every object is interned at most once, so the store bounds the number of steps. -/
def emit : EStateM Error (Heap × Module) Nat := do
  let (h, _) ← get
  emitFrom h.store.size

end NativeBackend.Heap
