import NativeBackend.Types.Layout

namespace NativeBackend

namespace ClassDef

/-- Places a class's own fields after what it inherits; static fields take no room. Returns the
fields and the end of the last one. -/
def placeFields (cursor : Int) : List (String × Descriptor × Bool) → List Field × Int
  | [] => ([], cursor)
  | (name, descriptor, true) :: rest =>
    let (fields, finish) := placeFields cursor rest
    (⟨name, descriptor, true, 0⟩ :: fields, finish)
  | (name, descriptor, false) :: rest =>
    let size := descriptor.valueType.size
    let start := alignUp cursor size
    let (fields, finish) := placeFields (start + size) rest
    (⟨name, descriptor, false, start⟩ :: fields, finish)

def fieldsStart (kind : ClassKind) (parent : Option ClassDef) : Int :=
  match kind, parent with
  | .interface, _ => 0
  | _, some p => p.instanceSize
  | _, none => objectHeaderSize

structure MethodDecl where
  name : String
  descriptor : String
  flags : MethodFlags
  hasBody : Bool

structure FieldDecl where
  name : String
  descriptor : String
  isStatic : Bool

def build (name : String) (typeId : Nat) (kind : ClassKind) (parent : Option ClassDef)
    (interfaces : List ClassDef) (methods : List MethodDecl) (fields : List FieldDecl) :
    Except Error ClassDef := do
  let methods ← methods.mapM fun m => do
    let descriptor ← MethodDescriptor.parse m.descriptor
    return Method.declare name m.name descriptor m.flags m.hasBody
  let fields ← fields.mapM fun f => do
    let descriptor ← Descriptor.parse f.descriptor
    return (f.name, descriptor, f.isStatic)
  let (fields, finish) := placeFields (fieldsStart kind parent) fields
  return ⟨name, typeId, kind, parent, interfaces, methods, fields, alignUp finish objectHeaderSize⟩

end ClassDef

end NativeBackend
