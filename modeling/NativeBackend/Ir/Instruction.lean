import NativeBackend.Ir.Constant

namespace NativeBackend

inductive BinaryOpcode where
  | add | fadd | sub | fsub | mul | fmul | sdiv | udiv | fdiv | srem | urem | frem
  | and | or | xor | shl | ashr | lshr
  deriving DecidableEq, Repr

def BinaryOpcode.mnemonic : BinaryOpcode → String
  | .add => "add"
  | .fadd => "fadd"
  | .sub => "sub"
  | .fsub => "fsub"
  | .mul => "mul"
  | .fmul => "fmul"
  | .sdiv => "sdiv"
  | .udiv => "udiv"
  | .fdiv => "fdiv"
  | .srem => "srem"
  | .urem => "urem"
  | .frem => "frem"
  | .and => "and"
  | .or => "or"
  | .xor => "xor"
  | .shl => "shl"
  | .ashr => "ashr"
  | .lshr => "lshr"

inductive IntPredicate where
  | eq | ne | slt | sle | sgt | sge | ult | ule | ugt | uge
  deriving DecidableEq, Repr

def IntPredicate.mnemonic : IntPredicate → String
  | .eq => "eq"
  | .ne => "ne"
  | .slt => "slt"
  | .sle => "sle"
  | .sgt => "sgt"
  | .sge => "sge"
  | .ult => "ult"
  | .ule => "ule"
  | .ugt => "ugt"
  | .uge => "uge"

inductive FloatPredicate where
  | oeq | one | olt | ole | ogt | oge
  deriving DecidableEq, Repr

def FloatPredicate.mnemonic : FloatPredicate → String
  | .oeq => "oeq"
  | .one => "one"
  | .olt => "olt"
  | .ole => "ole"
  | .ogt => "ogt"
  | .oge => "oge"

inductive CastOpcode where
  | fptosi | fptoui | sitofp | uitofp | fpext | sext | zext | fptrunc | trunc | bitcast
  deriving DecidableEq, Repr

def CastOpcode.mnemonic : CastOpcode → String
  | .fptosi => "fptosi"
  | .fptoui => "fptoui"
  | .sitofp => "sitofp"
  | .uitofp => "uitofp"
  | .fpext => "fpext"
  | .sext => "sext"
  | .zext => "zext"
  | .fptrunc => "fptrunc"
  | .trunc => "trunc"
  | .bitcast => "bitcast"

inductive AtomicOrdering where
  | monotonic | acquire | release | seqCst
  deriving DecidableEq, Repr

def AtomicOrdering.mnemonic : AtomicOrdering → String
  | .monotonic => "monotonic"
  | .acquire => "acquire"
  | .release => "release"
  | .seqCst => "seq_cst"

/-- Instructions of a block's body. An access without an ordering is not atomic. -/
inductive Instruction where
  | binary (result : Local) (opcode : BinaryOpcode) (type : IrType) (lhs rhs : Operand)
  | fneg (result : Local) (type : IrType) (value : Operand)
  | icmp (result : Local) (predicate : IntPredicate) (type : IrType) (lhs rhs : Operand)
  | fcmp (result : Local) (predicate : FloatPredicate) (type : IrType) (lhs rhs : Operand)
  | cast (result : Local) (opcode : CastOpcode) (source : IrType) (value : Operand) (target : IrType)
  | select (result : Local) (cond : Operand) (type : IrType) (ifTrue ifFalse : Operand)
  | load (result : Local) (type : IrType) (pointer : Operand) (ordering : Option AtomicOrdering)
      (volatile : Bool)
  | store (type : IrType) (value pointer : Operand) (ordering : Option AtomicOrdering)
      (volatile : Bool)
  | call (result : Option Local) (returns : IrType) (callee : Operand) (args : List (IrType × Operand))

namespace Instruction

def result? : Instruction → Option Local
  | .binary result .. | .fneg result .. | .icmp result .. | .fcmp result .. | .cast result ..
  | .select result .. | .load result .. => some result
  | .call result .. => result
  | .store .. => none

def operands : Instruction → List Operand
  | .binary _ _ _ lhs rhs | .icmp _ _ _ lhs rhs | .fcmp _ _ _ lhs rhs => [lhs, rhs]
  | .fneg _ _ value => [value]
  | .cast _ _ _ value _ => [value]
  | .select _ cond _ ifTrue ifFalse => [cond, ifTrue, ifFalse]
  | .load _ _ pointer _ _ => [pointer]
  | .store _ value pointer _ _ => [value, pointer]
  | .call _ _ callee args => callee :: args.map (·.2)

def typed (type : IrType) (value : Operand) : String := type.text ++ " " ++ value.text

def typedPair (type : IrType) (lhs rhs : Operand) : String := typed type lhs ++ ", " ++ rhs.text

def volatileText (volatile : Bool) : String := if volatile then " volatile " else " "

def accessText (ordering : Option AtomicOrdering) (type : IrType) : String :=
  (match ordering with
    | some o => " " ++ o.mnemonic
    | none => "") ++ s!", align {type.align}"

def accessOpcode (opcode : String) (ordering : Option AtomicOrdering) (volatile : Bool) : String :=
  opcode ++ (if ordering.isSome then " atomic" else "") ++ volatileText volatile

def text : Instruction → String
  | .binary result opcode type lhs rhs =>
    result.text ++ " = " ++ opcode.mnemonic ++ " " ++ typedPair type lhs rhs
  | .fneg result type value => result.text ++ " = fneg " ++ typed type value
  | .icmp result predicate type lhs rhs =>
    result.text ++ " = icmp " ++ predicate.mnemonic ++ " " ++ typedPair type lhs rhs
  | .fcmp result predicate type lhs rhs =>
    result.text ++ " = fcmp " ++ predicate.mnemonic ++ " " ++ typedPair type lhs rhs
  | .cast result opcode source value target =>
    result.text ++ " = " ++ opcode.mnemonic ++ " " ++ typed source value ++ " to " ++ target.text
  | .select result cond type ifTrue ifFalse =>
    result.text ++ " = select i1 " ++ cond.text ++ ", " ++ typed type ifTrue ++ ", " ++ typed type ifFalse
  | .load result type pointer ordering volatile =>
    result.text ++ " = " ++ accessOpcode "load" ordering volatile ++ type.text ++ ", ptr " ++
      pointer.text ++ accessText ordering type
  | .store type value pointer ordering volatile =>
    accessOpcode "store" ordering volatile ++ typed type value ++ ", ptr " ++ pointer.text ++
      accessText ordering type
  | .call result returns callee args =>
    (match result with
      | some l => l.text ++ " = "
      | none => "") ++ "call " ++ typed returns callee ++ "(" ++
      ", ".intercalate (args.map fun (t, v) => typed t v) ++ ")"

instance : ToString Instruction := ⟨text⟩

end Instruction

/-- A merge at the top of a block: for each predecessor label the value it contributes. -/
structure Phi where
  result : Local
  type : IrType
  incoming : List (Operand × String)

def Phi.text (p : Phi) : String :=
  p.result.text ++ " = phi " ++ p.type.text ++ " " ++
    ", ".intercalate (p.incoming.map fun (v, label) => "[ " ++ v.text ++ ", %" ++ label ++ " ]")

inductive Terminator where
  | br (target : String)
  | condBr (cond : Operand) (ifTrue ifFalse : String)
  | ret (value : Option (IrType × Operand))
  | unreachable

namespace Terminator

def labels : Terminator → List String
  | .br target => [target]
  | .condBr _ ifTrue ifFalse => [ifTrue, ifFalse]
  | .ret _ | .unreachable => []

def operands : Terminator → List Operand
  | .condBr cond _ _ => [cond]
  | .ret (some (_, value)) => [value]
  | .br _ | .ret none | .unreachable => []

def text : Terminator → String
  | .br target => "br label %" ++ target
  | .condBr cond ifTrue ifFalse => "br i1 " ++ cond.text ++ ", label %" ++ ifTrue ++ ", label %" ++ ifFalse
  | .ret (some (type, value)) => "ret " ++ Instruction.typed type value
  | .ret none => "ret void"
  | .unreachable => "unreachable"

end Terminator

end NativeBackend
