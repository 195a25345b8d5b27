import NativeBackend.Graph.Text
import NativeBackend.Ir.Instruction
import NativeBackend.Number.Binary

namespace NativeBackend

def BinaryOp.opcode (op : BinaryOp) (kind : NumericKind) : Except Error BinaryOpcode :=
  match op, kind with
  | .add, .float => .ok .fadd
  | .add, _ => .ok .add
  | .sub, .float => .ok .fsub
  | .sub, _ => .ok .sub
  | .mul, .float => .ok .fmul
  | .mul, _ => .ok .mul
  | .div, .float => .ok .fdiv
  | .div, .signed => .ok .sdiv
  | .div, .unsigned => .ok .udiv
  | .rem, .float => .ok .frem
  | .rem, .signed => .ok .srem
  | .rem, .unsigned => .ok .urem
  | op, .float => .error (.internal (.bitwiseOnFloat op.text))
  | .shr, .signed => .ok .ashr
  | .shr, .unsigned => .ok .lshr
  | .shl, _ => .ok .shl
  | .and, _ => .ok .and
  | .or, _ => .ok .or
  | .xor, _ => .ok .xor

def CmpOp.floatPredicate : CmpOp → FloatPredicate
  | .eq => .oeq
  | .ne => .one
  | .lt => .olt
  | .le => .ole
  | .gt => .ogt
  | .ge => .oge

def CmpOp.signedPredicate : CmpOp → IntPredicate
  | .eq => .eq
  | .ne => .ne
  | .lt => .slt
  | .le => .sle
  | .gt => .sgt
  | .ge => .sge

def CmpOp.unsignedPredicate : CmpOp → IntPredicate
  | .eq => .eq
  | .ne => .ne
  | .lt => .ult
  | .le => .ule
  | .gt => .ugt
  | .ge => .uge

def CmpOp.instruction (op : CmpOp) (kind : NumericKind) (result : Local) (type : IrType)
    (lhs rhs : Operand) : Instruction :=
  match kind with
  | .float => .fcmp result op.floatPredicate type lhs rhs
  | .signed => .icmp result op.signedPredicate type lhs rhs
  | .unsigned => .icmp result op.unsignedPredicate type lhs rhs

def negInstruction (kind : NumericKind) (result : Local) (type : IrType) (value : Operand) : Instruction :=
  match kind with
  | .float => .fneg result type value
  | .signed | .unsigned => .binary result .sub type (.int 0) value

def Ty.kind (node : NodeId) (t : Ty) : Except Error NumericKind :=
  match t.numericKind? with
  | some k => .ok k
  | none => .error (.internal (.notNumeric node t.text))

def ConversionOp.opcode (op : ConversionOp) (node : NodeId) (source target : Ty) : Except Error CastOpcode :=
  match op with
  | .convert => do
    let sourceKind ← source.kind node
    match target.numericKind? with
    | none => .error (.internal (.conversionTarget target.text))
    | some targetKind =>
      match sourceKind, targetKind with
      | .float, .signed => .ok .fptosi
      | .float, .unsigned => .ok .fptoui
      | .signed, .float => .ok .sitofp
      | .unsigned, .float => .ok .uitofp
      | _, _ => .error (.internal (.conversionKinds source.text target.text))
  | .extend => do
    match ← source.kind node with
    | .float => .ok .fpext
    | .signed => .ok .sext
    | .unsigned => .ok .zext
  | .truncate => .ok (if source.isFloat then .fptrunc else .trunc)
  | .bitcast => .ok .bitcast

/-- A constant of a type. Numbers of single precision have to be exact in it. -/
def Literal.constant (l : Literal) (type : Ty) : Constant :=
  match l with
  | .bool value => .bool value
  | .int value => .int value
  | .float bits =>
    match type with
    | .float 4 => .float (roundToSingle bits)
    | _ => .float bits
  | .null => .null

def ReadMode.access : ReadMode → Option AtomicOrdering × Bool
  | .plain => (none, false)
  | .opaqueRead => (some .monotonic, false)
  | .acquire => (some .acquire, false)
  | .volatile => (some .seqCst, true)

def WriteMode.access : WriteMode → Option AtomicOrdering × Bool
  | .plain => (none, false)
  | .opaqueWrite => (some .monotonic, false)
  | .release => (some .release, false)
  | .volatile => (some .seqCst, true)

end NativeBackend
