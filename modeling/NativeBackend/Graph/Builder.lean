import NativeBackend.Graph.Basic

namespace NativeBackend

/-- A graph under construction: the block that takes new effects, the last of its effects, and what
is attached to new nodes. -/
structure Builder where
  graph : Graph
  current : BlockId
  lastEffect : NodeId
  info : SourceInfo := {}
  /-- Label of the first block that took a node after its terminator. -/
  misplaced : Option String := none

namespace Builder

def push (b : Builder) (kind : NodeKind) (pinned : Option BlockId) : NodeId × Builder :=
  (b.graph.nodes.size, { b with graph.nodes := b.graph.nodes.push ⟨b.info, pinned, kind⟩ })

/-- Creates a block with its entry marker; it becomes current only through `begin`. -/
def newBlock (b : Builder) (label : String) : BlockId × Builder :=
  let block := b.graph.blocks.size
  let (entry, b) := b.push (.action (.blockEntry block)) (some block)
  (block, { b with graph.blocks := b.graph.blocks.push ⟨label, entry, none⟩ })

def begin (b : Builder) (block : BlockId) : Builder :=
  match b.graph.blocks[block]? with
  | some data => { b with current := block, lastEffect := data.entry }
  | none => b

def start (method : Method) : Builder :=
  let (entry, b) := newBlock ⟨{ method := method }, 0, 0, {}, none⟩ "entry"
  b.begin entry

def setLocation (b : Builder) (line bci : Int) : Builder :=
  { b with info.line := line, info.bci := bci }

def setCallSite (b : Builder) (callSite : Option NodeId) : Builder :=
  { b with info.callSite := callSite }

def checkOpen (b : Builder) : Builder :=
  match b.graph.blocks[b.current]? with
  | some ⟨label, _, some _⟩ => { b with misplaced := b.misplaced.or (some label) }
  | _ => b

def interned? (b : Builder) (v : ValueNode) : Option NodeId :=
  b.graph.nodes.findIdx? fun n =>
    match n.kind with
    | .value w => w.op.isPure && w == v
    | _ => false

/-- A node for a value: a known one if the value is pure, else a new one in the current block. -/
def value (b : Builder) (type : Ty) (op : ValueOp) : NodeId × Builder :=
  if op.isPure then
    match b.interned? ⟨type, op⟩ with
    | some n => (n, b)
    | none => b.push (.value ⟨type, op⟩) none
  else b.checkOpen.push (.value ⟨type, op⟩) (some b.current)

def effect (b : Builder) (type : Ty) (op : ValueOp) : NodeId × Builder :=
  let (n, b) := b.value type op
  (n, { b with lastEffect := n })

def action (b : Builder) (a : ActionNode) : NodeId × Builder :=
  let (n, b) := b.checkOpen.push (.action a) (some b.current)
  (n, { b with lastEffect := n })

def terminate (b : Builder) (t : TerminatorNode) : NodeId × Builder :=
  let (n, b) := b.checkOpen.push (.terminator t) (some b.current)
  (n, { b with graph.blocks := b.graph.blocks.modify b.current fun d => { d with terminator := some n } })

def typeOf (b : Builder) (n : NodeId) : Ty :=
  match b.graph.kind? n with
  | some (.value v) => v.type
  | _ => .void

def boolLiteral (b : Builder) (value : Bool) : NodeId × Builder := b.value .boolean (.literal (.bool value))

def intLiteral (b : Builder) (type : Ty) (value : Int) : NodeId × Builder :=
  b.value type (.literal (.int value))

def floatLiteral (b : Builder) (type : Ty) (bits : UInt64) : NodeId × Builder :=
  b.value type (.literal (.float bits))

def nullLiteral (b : Builder) : NodeId × Builder := b.value .reference (.literal .null)

def parameter (b : Builder) (index : Nat) (type : Ty) : NodeId × Builder := b.value type (.parameter index)

def binary (b : Builder) (op : BinaryOp) (lhs rhs : NodeId) : NodeId × Builder :=
  b.value (b.typeOf lhs) (.binary op lhs rhs)

def neg (b : Builder) (input : NodeId) : NodeId × Builder := b.value (b.typeOf input) (.neg input)

def cmp (b : Builder) (op : CmpOp) (lhs rhs : NodeId) : NodeId × Builder :=
  b.value .boolean (.cmp op lhs rhs)

def conversion (b : Builder) (op : ConversionOp) (input : NodeId) (type : Ty) : NodeId × Builder :=
  b.value type (.conversion op input)

def select (b : Builder) (cond ifTrue ifFalse : NodeId) : NodeId × Builder :=
  b.value (b.typeOf ifTrue) (.select cond ifTrue ifFalse)

def pointerLiteral (b : Builder) (pointer : Pointer) : NodeId × Builder :=
  b.value (.pointer pointer.pointee) (.pointerLiteral pointer)

def phi (b : Builder) (type : Ty) : NodeId × Builder :=
  let (n, b) := b.value type (.phi b.graph.phis.size)
  (n, { b with graph.phis := b.graph.phis.push ⟨n, b.current, []⟩ })

def addPhiInput (b : Builder) (phi : NodeId) (predecessor : BlockId) (value : NodeId) :
    Except Error Builder :=
  match b.graph.kind? phi with
  | some (.value ⟨_, .phi table⟩) =>
    .ok { b with graph.phis := b.graph.phis.modify table (·.addIncoming predecessor value) }
  | _ => .error (.internal (.notPhi phi))

def load (b : Builder) (pointer : NodeId) (type : Ty) (mode : ReadMode) : NodeId × Builder :=
  b.effect type (.load pointer mode b.lastEffect)

def store (b : Builder) (pointer value : NodeId) (mode : WriteMode) : NodeId × Builder :=
  b.action (.store pointer value mode b.lastEffect)

def monitorEnter (b : Builder) (object : NodeId) : NodeId × Builder :=
  b.action (.monitorEnter object b.lastEffect)

def monitorExit (b : Builder) (object : NodeId) : NodeId × Builder :=
  b.action (.monitorExit object b.lastEffect)

def call (b : Builder) (method : Method) (args : List NodeId) : NodeId × Builder :=
  b.effect method.functionType.returns (.call (.direct method) args b.lastEffect)

def callIndirect (b : Builder) (pointer : NodeId) (signature : FunctionType) (args : List NodeId) :
    NodeId × Builder := b.effect signature.returns (.call (.indirect pointer signature) args b.lastEffect)

def virtualLookup (b : Builder) (receiver : NodeId) (method : Method) (owner : ClassDef) :
    NodeId × Builder :=
  b.value (.pointer (.function method.functionType)) (.virtualLookup receiver method owner)

def interfaceLookup (b : Builder) (receiver : NodeId) (method : Method) (interface : ClassDef) :
    NodeId × Builder :=
  b.value (.pointer (.function method.functionType)) (.interfaceLookup receiver method interface)

def catchValue (b : Builder) : NodeId × Builder := b.value .reference .catchException

def goto (b : Builder) (target : BlockId) : NodeId × Builder := b.terminate (.goto target b.lastEffect)

def ifThenElse (b : Builder) (cond : NodeId) (ifTrue ifFalse : BlockId) : NodeId × Builder :=
  b.terminate (.branch cond ifTrue ifFalse b.lastEffect)

def returnValue (b : Builder) (value : NodeId) : NodeId × Builder :=
  b.terminate (.ret (some value) b.lastEffect)

def returnVoid (b : Builder) : NodeId × Builder := b.terminate (.ret none b.lastEffect)

def unreachable (b : Builder) : NodeId × Builder := b.terminate (.unreachable b.lastEffect)

def throw (b : Builder) (value : NodeId) (handler : Option BlockId) : NodeId × Builder :=
  b.terminate (.throw value handler b.lastEffect)

/-- The graph, unless a node came after its block's terminator or a reachable block has none. -/
def finish (b : Builder) : Except Error Graph :=
  match b.misplaced with
  | some label => .error (.internal (.malformedGraph b.graph.method.text label))
  | none => do
    b.graph.reachable.forM fun block => discard (b.graph.terminator block)
    return b.graph

end Builder

end NativeBackend
