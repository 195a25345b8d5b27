namespace NativeBackend

mutual

inductive IrType where
  | void | i1 | i8 | i16 | i32 | i64 | float | double | ptr
  | array (length : Nat) (element : IrType)
  | struct (packed : Bool) (fields : List IrType)
  | function (signature : Signature)

structure Signature where
  returns : IrType
  params : List IrType

end

mutual

def IrType.text : IrType → String
  | .void => "void"
  | .i1 => "i1"
  | .i8 => "i8"
  | .i16 => "i16"
  | .i32 => "i32"
  | .i64 => "i64"
  | .float => "float"
  | .double => "double"
  | .ptr => "ptr"
  | .array length element => s!"[{length} x " ++ element.text ++ "]"
  | .struct false [] => "\x7b\x7d"
  | .struct true [] => "<\x7b\x7d>"
  | .struct false fields => "\x7b " ++ ", ".intercalate (IrType.texts fields) ++ " \x7d"
  | .struct true fields => "<\x7b " ++ ", ".intercalate (IrType.texts fields) ++ " \x7d>"
  | .function signature => signature.text

def Signature.text : Signature → String
  | ⟨returns, params⟩ => returns.text ++ " (" ++ ", ".intercalate (IrType.texts params) ++ ")"

def IrType.texts : List IrType → List String
  | [] => []
  | t :: ts => t.text :: IrType.texts ts

end

instance : ToString IrType := ⟨IrType.text⟩

instance : ToString Signature := ⟨Signature.text⟩

namespace IrType

def ofBytes? : Int → Option IrType
  | 1 => some .i8
  | 2 => some .i16
  | 4 => some .i32
  | 8 => some .i64
  | _ => none

mutual

def align : IrType → Nat
  | .void | .i1 | .i8 => 1
  | .i16 => 2
  | .i32 | .float => 4
  | .i64 | .double | .ptr | .function _ => 8
  | .array _ element => element.align
  | .struct true _ => 1
  | .struct false fields => alignAll fields

def alignAll : List IrType → Nat
  | [] => 1
  | t :: ts => max t.align (alignAll ts)

end

def isFloat : IrType → Bool
  | .float | .double => true
  | _ => false

def isVoid : IrType → Bool
  | .void => true
  | _ => false

end IrType

end NativeBackend
