import NativeBackend.Class.TypeId
import NativeBackend.Types.Layout

namespace NativeBackend

abbrev ObjectId := Nat

/-- A field value. Floating point numbers are given by their bits; null is the absent object. -/
inductive HeapValue where
  | boolean (value : Bool)
  | byte (value : Int8)
  | char (value : UInt16)
  | short (value : Int16)
  | int (value : Int32)
  | float (bits : UInt32)
  | long (value : Int64)
  | double (bits : UInt64)
  | reference (target : Option ObjectId)
  deriving DecidableEq

namespace HeapValue

def zero : Descriptor → HeapValue
  | .boolean => .boolean false
  | .byte => .byte 0
  | .char => .char 0
  | .short => .short 0
  | .int => .int 0
  | .float => .float 0
  | .long => .long 0
  | .double => .double 0
  | .void | .object _ | .array _ => .reference none

def fits : HeapValue → Descriptor → Bool
  | .boolean _, .boolean => true
  | .byte _, .byte => true
  | .char _, .char => true
  | .short _, .short => true
  | .int _, .int => true
  | .float _, .float => true
  | .long _, .long => true
  | .double _, .double => true
  | .reference _, .object _ => true
  | .reference _, .array _ => true
  | _, _ => false

end HeapValue

inductive HeapArray where
  | boolean (elements : List Bool)
  | byte (elements : List Int8)
  | char (elements : List UInt16)
  | short (elements : List Int16)
  | int (elements : List Int32)
  | float (elements : List UInt32)
  | long (elements : List Int64)
  | double (elements : List UInt64)
  | reference (elements : List (Option ObjectId))
  deriving DecidableEq

namespace HeapArray

def length : HeapArray → Nat
  | .boolean elements => elements.length
  | .byte elements => elements.length
  | .char elements => elements.length
  | .short elements => elements.length
  | .int elements => elements.length
  | .float elements => elements.length
  | .long elements => elements.length
  | .double elements => elements.length
  | .reference elements => elements.length

def element : HeapArray → Option Descriptor
  | .boolean _ => some .boolean
  | .byte _ => some .byte
  | .char _ => some .char
  | .short _ => some .short
  | .int _ => some .int
  | .float _ => some .float
  | .long _ => some .long
  | .double _ => some .double
  | .reference _ => none

def typeId (a : HeapArray) : Nat :=
  match a.element with
  | some d => d.arrayTypeId
  | none => referenceArrayTypeId

def elementType (a : HeapArray) : Ty :=
  match a.element with
  | some .boolean => .unsigned 1
  | some d => d.valueType
  | none => .reference

def layout (a : HeapArray) : Compound :=
  .layoutStruct s!"array-{a.typeId}"
    [("typeId", .unsigned 4), ("length", .signed 4), ("content", .array a.elementType a.length)]

end HeapArray

/-- An object of the build-time heap. An instance keeps the values of fields that were set, by
name. -/
inductive HeapObject where
  | instanceOf (cls : ClassDef) (values : List (String × HeapValue))
  | arrayOf (contents : HeapArray)

namespace HeapObject

def typeId : HeapObject → Nat
  | .instanceOf cls _ => cls.typeId
  | .arrayOf contents => contents.typeId

def pointee : HeapObject → Ty
  | .instanceOf cls _ => .object cls
  | .arrayOf contents => .compound contents.layout

def create (cls : ClassDef) : Except Error HeapObject :=
  match cls.kind with
  | .concrete => .ok (.instanceOf cls [])
  | .interface => .error (.internal (.notInstantiable "interface" cls.name))
  | .abstractClass => .error (.internal (.notInstantiable "abstract class" cls.name))

def field? (o : HeapObject) (name : String) : Option HeapValue :=
  match o with
  | .instanceOf _ values => values.lookup name
  | .arrayOf _ => none

def setElement (o : HeapObject) (index : Nat) (value : Option ObjectId) : Except Error HeapObject :=
  match o with
  | .arrayOf (.reference elements) =>
    if index < elements.length then .ok (.arrayOf (.reference (elements.set index value)))
    else .error (.internal (.elementRange index elements.length))
  | _ => .error (.internal .notReferenceArray)

end HeapObject

end NativeBackend
