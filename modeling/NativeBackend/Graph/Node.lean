import NativeBackend.Diagnostics
import NativeBackend.Memory.Access
import NativeBackend.Pointer.Basic

namespace NativeBackend

abbrev NodeId := Nat

abbrev BlockId := Nat

abbrev PhiId := Nat

inductive BinaryOp where
  | add | sub | mul | div | rem | and | or | xor | shl | shr
  deriving DecidableEq, Repr

inductive CmpOp where
  | eq | ne | lt | le | gt | ge
  deriving DecidableEq, Repr

inductive ConversionOp where
  | convert | extend | truncate | bitcast
  deriving DecidableEq, Repr

/-- Constants of the program. Integers are given sign-extended, floating point numbers by the bits
of a double. -/
inductive Literal where
  | bool (value : Bool)
  | int (value : Int)
  | float (bits : UInt64)
  | null
  deriving DecidableEq, Repr

inductive CallTarget where
  | direct (method : Method)
  | indirect (pointer : NodeId) (signature : FunctionType)

/-- Operations that give a value. `dependency` is the effect that comes before. -/
inductive ValueOp where
  | literal (value : Literal)
  | parameter (index : Nat)
  | binary (op : BinaryOp) (lhs rhs : NodeId)
  | neg (input : NodeId)
  | cmp (op : CmpOp) (lhs rhs : NodeId)
  | conversion (op : ConversionOp) (input : NodeId)
  | select (cond ifTrue ifFalse : NodeId)
  | phi (table : PhiId)
  | pointerLiteral (pointer : Pointer)
  | load (pointer : NodeId) (mode : ReadMode) (dependency : NodeId)
  | call (target : CallTarget) (args : List NodeId) (dependency : NodeId)
  | virtualLookup (receiver : NodeId) (method : Method) (owner : ClassDef)
  | interfaceLookup (receiver : NodeId) (method : Method) (interface : ClassDef)
  | catchException

structure ValueNode where
  type : Ty
  op : ValueOp

/-- Side effects. The entry marker of a block is the first of its effects. -/
inductive ActionNode where
  | blockEntry (block : BlockId)
  | store (pointer value : NodeId) (mode : WriteMode) (dependency : NodeId)
  | monitorEnter (object dependency : NodeId)
  | monitorExit (object dependency : NodeId)

inductive TerminatorNode where
  | goto (target : BlockId) (dependency : NodeId)
  | branch (cond : NodeId) (ifTrue ifFalse : BlockId) (dependency : NodeId)
  | ret (value : Option NodeId) (dependency : NodeId)
  | unreachable (dependency : NodeId)
  | throw (value : NodeId) (handler : Option BlockId) (dependency : NodeId)

inductive NodeKind where
  | value (node : ValueNode)
  | action (node : ActionNode)
  | terminator (node : TerminatorNode)

/-- A node; effects, phis and block ends are pinned to the block they were made in. -/
structure Node where
  info : SourceInfo
  pinned : Option BlockId
  kind : NodeKind

instance : BEq CallTarget where
  beq
    | .direct m, .direct m' => m == m'
    | .indirect p s, .indirect p' s' => p == p' && s == s'
    | _, _ => false

instance : BEq ValueOp where
  beq
    | .literal l, .literal l' => l == l'
    | .parameter i, .parameter i' => i == i'
    | .binary o a b, .binary o' a' b' => o == o' && a == a' && b == b'
    | .neg a, .neg a' => a == a'
    | .cmp o a b, .cmp o' a' b' => o == o' && a == a' && b == b'
    | .conversion o a, .conversion o' a' => o == o' && a == a'
    | .select c a b, .select c' a' b' => c == c' && a == a' && b == b'
    | .phi t, .phi t' => t == t'
    | .pointerLiteral p, .pointerLiteral p' => p == p'
    | .load p m d, .load p' m' d' => p == p' && m == m' && d == d'
    | .call t as d, .call t' as' d' => t == t' && as == as' && d == d'
    | .virtualLookup r m c, .virtualLookup r' m' c' => r == r' && m == m' && c == c'
    | .interfaceLookup r m c, .interfaceLookup r' m' c' => r == r' && m == m' && c == c'
    | .catchException, .catchException => true
    | _, _ => false

instance : BEq ValueNode := ⟨fun v w => v.op == w.op && v.type == w.type⟩

namespace ValueOp

/-- Pure values are interchangeable when equal. -/
def isPure : ValueOp → Bool
  | .phi _ | .load .. | .call .. | .catchException => false
  | _ => true

/-- Dependency and operands, in the order of evaluation; a phi's are kept apart. -/
def inputs : ValueOp → List NodeId
  | .literal _ | .parameter _ | .phi _ | .pointerLiteral _ | .catchException => []
  | .binary _ lhs rhs | .cmp _ lhs rhs => [lhs, rhs]
  | .neg input | .conversion _ input => [input]
  | .select cond ifTrue ifFalse => [cond, ifTrue, ifFalse]
  | .load pointer _ dependency => [dependency, pointer]
  | .call (.direct _) args dependency => dependency :: args
  | .call (.indirect pointer _) args dependency => dependency :: pointer :: args
  | .virtualLookup receiver _ _ | .interfaceLookup receiver _ _ => [receiver]

end ValueOp

def ActionNode.inputs : ActionNode → List NodeId
  | .blockEntry _ => []
  | .store pointer value _ dependency => [dependency, pointer, value]
  | .monitorEnter object dependency | .monitorExit object dependency => [dependency, object]

namespace TerminatorNode

def successors : TerminatorNode → List BlockId
  | .goto target _ => [target]
  | .branch _ ifTrue ifFalse _ => [ifTrue, ifFalse]
  | .throw _ (some handler) _ => [handler]
  | .throw _ none _ | .ret _ _ | .unreachable _ => []

def dependency : TerminatorNode → NodeId
  | .goto _ dependency | .branch _ _ _ dependency | .ret _ dependency | .unreachable dependency
  | .throw _ _ dependency => dependency

def inputs : TerminatorNode → List NodeId
  | .goto _ dependency | .unreachable dependency | .ret none dependency => [dependency]
  | .branch cond _ _ dependency => [dependency, cond]
  | .ret (some value) dependency | .throw value _ dependency => [dependency, value]

end TerminatorNode

namespace NodeKind

def inputs : NodeKind → List NodeId
  | .value v => v.op.inputs
  | .action a => a.inputs
  | .terminator t => t.inputs

def effectDependency? : NodeKind → Option NodeId
  | .value ⟨_, .load _ _ dependency⟩ | .value ⟨_, .call _ _ dependency⟩ => some dependency
  | .action (.store _ _ _ dependency) | .action (.monitorEnter _ dependency)
  | .action (.monitorExit _ dependency) => some dependency
  | _ => none

end NodeKind

end NativeBackend
