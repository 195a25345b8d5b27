import NativeBackend.Class.Program
import NativeBackend.Heap.Text
import NativeBackend.Ir.Module
import NativeBackend.Pointer.Basic

namespace NativeBackend

/-- Objects made at build time. Those to be part of the program are interned and numbered in the
order of interning; strings are interned by value. The first `emitted` interned objects are in the
output. -/
structure Heap where
  store : Array HeapObject := #[]
  interned : List ObjectId := []
  strings : List (String × Nat) := []
  emitted : Nat := 0

abbrev HeapM := EStateM Error Heap

/-- Sets the field that a name refers to, if the value is of its kind. The store is where a refused
value is looked up for the error text. -/
def HeapObject.setField (store : Array HeapObject) (o : HeapObject) (name : String) (value : HeapValue) :
    Except Error HeapObject :=
  match o with
  | .arrayOf _ => .error (.internal (.fieldOfArray name))
  | .instanceOf cls values =>
    match cls.instanceField? name with
    | none => .error (.internal (.noInstanceField name cls.name))
    | some f =>
      if value.fits f.descriptor then
        .ok (.instanceOf cls ((name, value) :: values.filter (·.1 != name)))
      else .error (.internal (.withText (value.textIn store) (.misfit · cls.name name f.descriptor.text)))

def heapSymbolPrefix : String := "kiln_initial_heap_obj_"

def heapSymbol (number : Nat) : String := heapSymbolPrefix ++ toString number

def utf16Units (c : Char) : List UInt16 :=
  let n := c.toNat
  if n < 0x10000 then [.ofNat n]
  else [.ofNat (0xD800 + (n - 0x10000) / 0x400), .ofNat (0xDC00 + (n - 0x10000) % 0x400)]

def utf8Bytes (c : Char) : List UInt8 := String.utf8EncodeChar c

namespace Heap

def allocate (h : Heap) (o : HeapObject) : ObjectId × Heap := (h.store.size, { h with store := h.store.push o })

def update (h : Heap) (id : ObjectId) (change : HeapObject → Except Error HeapObject) : Except Error Heap :=
  match h.store[id]? with
  | none => .ok h
  | some o => (change o).map fun o => { h with store := h.store.setIfInBounds id o }

/-- The number of an object, given out on first use. -/
def intern (h : Heap) (id : ObjectId) : Nat × Heap :=
  match h.interned.idxOf? id with
  | some number => (number, h)
  | none => (h.interned.length, { h with interned := h.interned ++ [id] })

def length (h : Heap) : Nat := h.interned.length

def pointerTo (h : Heap) (id : ObjectId) : Pointer × Heap :=
  let (number, h) := h.intern id
  (.global (heapSymbol number) ((h.store[id]?.map (·.pointee)).getD .void), h)

def stringContents (value : String) : Descriptor → Except Error HeapArray
  | .array .char => .ok (.char (value.toList.flatMap utf16Units))
  | .array .byte => .ok (.byte ((value.toList.flatMap utf8Bytes).map UInt8.toInt8))
  | other => .error (.internal (.stringValueType other.text))

/-- The number of a string literal: an instance of the string class whose `value` field refers to
an array of its characters. -/
def internString (p : Program) (value : String) : HeapM Nat := do
  let h ← get
  match h.strings.lookup value with
  | some number => return number
  | none =>
    let cls ← match p.class? "java/lang/String" with
      | some cls => pure cls
      | none => throw (.internal .noStringClass)
    let object ← match HeapObject.create cls with
      | .ok object => pure object
      | .error e => throw e
    let field ← match cls.instanceField? "value" with
      | some field => pure field
      | none => throw (.internal .noStringValue)
    let contents ← match stringContents value field.descriptor with
      | .ok contents => pure contents
      | .error e => throw e
    let (array, h) := h.allocate (.arrayOf contents)
    let object ← match object.setField h.store "value" (.reference (some array)) with
      | .ok object => pure object
      | .error e => throw e
    let (string, h) := h.allocate object
    let (number, h) := h.intern string
    set { h with strings := (value, number) :: h.strings }
    return number

end Heap

end NativeBackend
