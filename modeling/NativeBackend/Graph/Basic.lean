import NativeBackend.Graph.Search
import NativeBackend.Graph.Text

namespace NativeBackend

structure BlockData where
  label : String
  entry : NodeId
  terminator : Option NodeId

structure PhiData where
  node : NodeId
  block : BlockId
  incoming : List (BlockId × NodeId)

namespace PhiData

def incomingFrom? (p : PhiData) (predecessor : BlockId) : Option NodeId := p.incoming.lookup predecessor

/-- Records a value; a later one for the same predecessor replaces it. -/
def addIncoming (p : PhiData) (predecessor : BlockId) (value : NodeId) : PhiData :=
  { p with incoming := (predecessor, value) :: p.incoming.filter (·.1 != predecessor) }

end PhiData

/-- The body of a method. Nodes, blocks and phi tables are numbered by position. -/
structure Graph where
  method : Method
  nodes : Array Node := #[]
  blocks : Array BlockData := #[]
  phis : Array PhiData := #[]
  entry : BlockId := 0

namespace Graph

def kind? (g : Graph) (n : NodeId) : Option NodeKind := g.nodes[n]?.map (·.kind)

def info (g : Graph) (n : NodeId) : SourceInfo := (g.nodes[n]?.map (·.info)).getD {}

def pinned? (g : Graph) (n : NodeId) : Option BlockId := g.nodes[n]?.bind (·.pinned)

def inputs (g : Graph) (n : NodeId) : List NodeId := ((g.kind? n).map (·.inputs)).getD []

def valueType (g : Graph) (n : NodeId) : Except Error Ty :=
  match g.kind? n with
  | some (.value v) => .ok v.type
  | some other => .error (.internal (.notValue n other.text))
  | none => .error (.internal (.unknownNode n))

def isValue (g : Graph) (n : NodeId) : Bool :=
  match g.kind? n with
  | some (.value _) => true
  | _ => false

def label (g : Graph) (b : BlockId) : String := (g.blocks[b]?.map (·.label)).getD ""

def terminator (g : Graph) (b : BlockId) : Except Error NodeId :=
  match g.blocks[b]?.bind (·.terminator) with
  | some n => .ok n
  | none => .error (.internal (.openBlock b (g.label b)))

def successors (g : Graph) (b : BlockId) : List BlockId :=
  match (g.blocks[b]?.bind (·.terminator)).bind g.kind? with
  | some (.terminator t) => t.successors
  | _ => []

def reachable (g : Graph) : List BlockId := reachableFrom g.successors g.blocks.size [g.entry]

def phi? (g : Graph) (n : NodeId) : Option PhiData :=
  match g.kind? n with
  | some (.value ⟨_, .phi table⟩) => g.phis[table]?
  | _ => none

end Graph

end NativeBackend
