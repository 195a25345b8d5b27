import NativeBackend.Ir.Symbol
import NativeBackend.Ir.Types
import NativeBackend.Number.Hex

namespace NativeBackend

structure Local where
  index : Nat
  deriving DecidableEq, Repr

def Local.text (l : Local) : String := s!"%v{l.index}"

/-- Constants, usable as operands and as initializers. Floating point numbers are kept as the bits
of a double. -/
inductive Constant where
  | bool (value : Bool)
  | int (value : Int)
  | float (bits : UInt64)
  | null
  | zero
  | undef
  | symbol (name : String)
  | symbolOffset (name : String) (offset : Int)
  | array (element : IrType) (values : List Constant)
  | struct (packed : Bool) (fields : List (IrType × Constant))

mutual

def Constant.text : Constant → String
  | .bool value => if value then "true" else "false"
  | .int value => toString value
  | .float bits => hexText bits.toNat 16
  | .null => "null"
  | .zero => "zeroinitializer"
  | .undef => "undef"
  | .symbol name => globalName name
  | .symbolOffset name offset =>
    if offset = 0 then globalName name
    else "getelementptr (i8, ptr " ++ globalName name ++ s!", i64 {offset})"
  | .array element values => "[" ++ ", ".intercalate (Constant.elementTexts element.text values) ++ "]"
  | .struct false fields => "\x7b " ++ ", ".intercalate (Constant.fieldTexts fields) ++ " \x7d"
  | .struct true fields => "<\x7b " ++ ", ".intercalate (Constant.fieldTexts fields) ++ " \x7d>"

def Constant.elementTexts (element : String) : List Constant → List String
  | [] => []
  | c :: cs => (element ++ " " ++ c.text) :: Constant.elementTexts element cs

def Constant.fieldTexts : List (IrType × Constant) → List String
  | [] => []
  | (t, c) :: fs => (t.text ++ " " ++ c.text) :: Constant.fieldTexts fs

end

instance : ToString Constant := ⟨Constant.text⟩

inductive Operand where
  | ofLocal (value : Local)
  | const (value : Constant)

namespace Operand

def int (value : Int) : Operand := .const (.int value)

def global (symbol : String) : Operand := .const (.symbol symbol)

def text : Operand → String
  | .ofLocal l => l.text
  | .const c => c.text

instance : ToString Operand := ⟨text⟩

end Operand

end NativeBackend
