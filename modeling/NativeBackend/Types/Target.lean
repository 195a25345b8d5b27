import NativeBackend.Ir.Types
import NativeBackend.Types.Basic

namespace NativeBackend

def paddingType (bytes : Int) : List IrType := if 0 < bytes then [.array bytes.toNat .i8] else []

mutual

/-- The target type of a type. Integers go by width alone; a struct is packed, with filler where
its members leave gaps. -/
def Ty.target : Ty → Except Error IrType
  | .void => .ok .void
  | .boolean => .ok .i1
  | .integer _ bytes =>
    match IrType.ofBytes? bytes with
    | some t => .ok t
    | none => .error (.internal (.noIntegerWidth bytes))
  | .float 4 => .ok .float
  | .float 8 => .ok .double
  | .float bytes => .error (.internal (.noFloatWidth bytes))
  | .reference | .pointer _ | .object _ | .function _ => .ok .ptr
  | .array element count => element.target.map (.array count.toNat ·)
  | .compound layout => layout.target

def Compound.target : Compound → Except Error IrType
  | ⟨.union, _, _, size, _⟩ => .ok (.array size.toNat .i8)
  | ⟨.struct, _, members, size, _⟩ => (Member.targets 0 size members).map (.struct true ·)

def Member.targets (cursor size : Int) : List Member → Except Error (List IrType)
  | [] => .ok (paddingType (size - cursor))
  | ⟨_, offset, type, _⟩ :: rest => do
    let field ← type.target
    let fields ← Member.targets (offset + type.size) size rest
    return paddingType (offset - cursor) ++ field :: fields

end

def FunctionType.target (f : FunctionType) : Except Error Signature := do
  let params ← f.params.mapM Ty.target
  let returns ← f.returns.target
  return ⟨returns, params⟩

end NativeBackend
