import NativeBackend.Class.Basic

namespace NativeBackend

inductive Signedness where
  | signed | unsigned
  deriving DecidableEq, Repr

inductive CompoundTag where
  | struct | union
  deriving DecidableEq, Repr

inductive NumericKind where
  | float | signed | unsigned
  deriving DecidableEq, Repr

mutual

/-- Types of graph values and of what pointers point at. -/
inductive Ty where
  | void
  | boolean
  | integer (sign : Signedness) (bytes : Nat)
  | float (bytes : Nat)
  | reference
  | pointer (pointee : Ty)
  | array (element : Ty) (count : Int)
  | compound (layout : Compound)
  | object (cls : ClassDef)
  | function (signature : FunctionType)

structure FunctionType where
  returns : Ty
  params : List Ty

structure Member where
  name : String
  offset : Int
  type : Ty
  align : Int

/-- A struct or union whose members lie at explicit offsets, in declaration order. -/
structure Compound where
  tag : CompoundTag
  name : String
  members : List Member
  size : Int
  align : Int

end

instance : Inhabited Ty := ⟨.void⟩

def pointerSize : Int := 8

/-- Bytes at the start of every object for its type id and monitor word. -/
def objectHeaderSize : Int := 8

def CompoundTag.text : CompoundTag → String
  | .struct => "struct"
  | .union => "union"

mutual

def Ty.text : Ty → String
  | .void => "void"
  | .boolean => "boolean"
  | .integer .signed bytes => s!"s{bytes * 8}"
  | .integer .unsigned bytes => s!"u{bytes * 8}"
  | .float bytes => s!"f{bytes * 8}"
  | .reference => "ref"
  | .pointer pointee => pointee.text ++ "*"
  | .array element count => s!"[{count} x " ++ element.text ++ "]"
  | .compound ⟨tag, name, _, _, _⟩ => tag.text ++ " " ++ name
  | .object cls => "object " ++ cls.name
  | .function signature => signature.text

def FunctionType.text : FunctionType → String
  | ⟨returns, params⟩ => returns.text ++ " (" ++ ", ".intercalate (Ty.texts params) ++ ")"

def Ty.texts : List Ty → List String
  | [] => []
  | t :: ts => t.text :: Ty.texts ts

end

instance : ToString Ty := ⟨Ty.text⟩

instance : ToString FunctionType := ⟨FunctionType.text⟩

mutual

def Ty.same : Ty → Ty → Bool
  | .void, .void => true
  | .boolean, .boolean => true
  | .integer s b, .integer s' b' => s == s' && b == b'
  | .float b, .float b' => b == b'
  | .reference, .reference => true
  | .pointer t, .pointer t' => t.same t'
  | .array t n, .array t' n' => t.same t' && n == n'
  | .compound c, .compound c' => c.same c'
  | .object c, .object c' => c == c'
  | .function f, .function f' => f.same f'
  | _, _ => false

def FunctionType.same : FunctionType → FunctionType → Bool
  | ⟨r, ps⟩, ⟨r', ps'⟩ => r.same r' && Ty.sameAll ps ps'

def Ty.sameAll : List Ty → List Ty → Bool
  | [], [] => true
  | t :: ts, t' :: ts' => t.same t' && Ty.sameAll ts ts'
  | _, _ => false

def Compound.same : Compound → Compound → Bool
  | ⟨tag, name, ms, size, align⟩, ⟨tag', name', ms', size', align'⟩ =>
    tag == tag' && name == name' && Member.sameAll ms ms' && size == size' && align == align'

def Member.same : Member → Member → Bool
  | ⟨name, offset, type, align⟩, ⟨name', offset', type', align'⟩ =>
    name == name' && offset == offset' && type.same type' && align == align'

def Member.sameAll : List Member → List Member → Bool
  | [], [] => true
  | m :: ms, m' :: ms' => m.same m' && Member.sameAll ms ms'
  | _, _ => false

end

/-- Types are equal by structure, where a class counts as its type id and name. -/
instance : BEq Ty := ⟨Ty.same⟩

instance : BEq FunctionType := ⟨FunctionType.same⟩

namespace Ty

def signed (bytes : Nat) : Ty := .integer .signed bytes

def unsigned (bytes : Nat) : Ty := .integer .unsigned bytes

/-- Sizes are whole numbers here. The program computes them in words of 64 bits and does not check that they fit. -/
def size : Ty → Int
  | .void | .function _ => 0
  | .boolean => 1
  | .integer _ bytes | .float bytes => bytes
  | .reference | .pointer _ => pointerSize
  | .array element count => element.size * count
  | .compound layout => layout.size
  | .object cls => cls.instanceSize

def align : Ty → Int
  | .void | .function _ => 1
  | .boolean => 1
  | .integer _ bytes | .float bytes => max bytes 1
  | .reference | .pointer _ => pointerSize
  | .array element _ => element.align
  | .compound layout => layout.align
  | .object _ => objectHeaderSize

def isFloat : Ty → Bool
  | .float _ => true
  | _ => false

def isSigned : Ty → Bool
  | .integer .signed _ => true
  | _ => false

def numericKind? : Ty → Option NumericKind
  | .float _ => some .float
  | .integer .signed _ => some .signed
  | .integer .unsigned _ | .boolean | .reference | .pointer _ => some .unsigned
  | _ => none

end Ty

def Descriptor.valueType : Descriptor → Ty
  | .void => .void
  | .boolean => .boolean
  | .byte => .signed 1
  | .short => .signed 2
  | .char => .unsigned 2
  | .int => .signed 4
  | .float => .float 4
  | .long => .signed 8
  | .double => .float 8
  | .object _ | .array _ => .reference

def Field.type (f : Field) : Ty := f.descriptor.valueType

def Field.size (f : Field) : Int := f.type.size

/-- Signature of the compiled function; the receiver leads the parameters of instance methods. -/
def Method.functionType (m : Method) : FunctionType where
  returns := m.descriptor.returns.valueType
  params := (if m.isStatic then [] else [.reference]) ++ m.descriptor.params.map (·.valueType)

end NativeBackend
