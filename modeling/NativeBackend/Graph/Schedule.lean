import NativeBackend.Graph.Dominators

namespace NativeBackend

/-- Where a value is used: by a node, or at the end of a block from which it flows into a phi. -/
inductive Use where
  | node (user : NodeId)
  | phiInput (predecessor : BlockId)
  deriving DecidableEq, Repr

abbrev Placement := Array (Option BlockId)

def Placement.blockOf? (p : Placement) (n : NodeId) : Option BlockId := p.getD n none

/-- What places the nodes of a graph: a pinned node stays in its block, a floating value goes to the nearest block
that dominates all its uses. -/
structure Schedule where
  reachable : List BlockId
  dominators : DominatorTree
  uses : Array (List Use)
  placement : Placement

namespace Graph

/-- What flows into a phi from reachable blocks, by predecessor; nothing for other nodes. -/
def phiInputs (g : Graph) (reachable : List BlockId) (n : NodeId) : List (BlockId × NodeId) :=
  match g.phi? n with
  | some p => reachable.filterMap fun b => (p.incomingFrom? b).map (b, ·)
  | none => []

/-- The nodes that the terminators of reachable blocks need, directly or not. -/
def liveNodes (g : Graph) (reachable : List BlockId) (terminators : List NodeId) : List NodeId :=
  reachableFrom (fun n => g.inputs n ++ (g.phiInputs reachable n).map (·.2)) g.nodes.size terminators

def usesBy (g : Graph) (reachable : List BlockId) (user : NodeId) : List (NodeId × Use) :=
  (g.inputs user).map (·, .node user) ++
    (g.phiInputs reachable user).map fun (predecessor, value) => (value, .phiInput predecessor)

def useTable (g : Graph) (reachable : List BlockId) (live : List NodeId) : Array (List Use) :=
  (live.flatMap (g.usesBy reachable)).foldl (fun table (n, u) => table.modify n (u :: ·))
    (Array.replicate g.nodes.size [])

end Graph

namespace Schedule

def start (g : Graph) : Except Error Schedule := do
  let reachable := g.reachable
  let some dominators := DominatorTree.compute g | throw (.internal .noDominators)
  let terminators ← reachable.mapM g.terminator
  let uses := g.useTable reachable (g.liveNodes reachable terminators)
  return ⟨reachable, dominators, uses, g.nodes.map (·.pinned)⟩

def useBlock (n : NodeId) (p : Placement) : Use → Except Error BlockId
  | .node user =>
    match p.blockOf? user with
    | some b => .ok b
    | none => .error (.internal (.unscheduledUser user n))
  | .phiInput predecessor => .ok predecessor

def usesOf (s : Schedule) (n : NodeId) : List Use := s.uses.getD n []

/-- The users of a node that have no block so far, as often as they use it. -/
def pendingUsers (s : Schedule) (n : NodeId) (p : Placement) : List NodeId :=
  (s.usesOf n).filterMap fun
    | .node user => if (p.blockOf? user).isSome then none else some user
    | .phiInput _ => none

mutual

/-- The block of a node. It becomes known, and so do the blocks of the nodes it depends on. -/
def blockForNode (g : Graph) (s : Schedule) (n : NodeId) (p : Placement) : Option (Except Error BlockId × Placement) :=
  match p.blockOf? n with
  | some b => some (.ok b, p)
  | none => do
    match ← s |>.drain g [n] p with
    | (.error e, p) => return (.error e, p)
    | (.ok (), p) =>
      match p.blockOf? n with
      | some b => return (.ok b, p)
      | none => return (.error (.internal (.unscheduled n)), p)
partial_fixpoint

/-- Places the nodes of a stack, its users before each. -/
def drain (g : Graph) (s : Schedule) (stack : List NodeId) (p : Placement) : Option (Except Error Unit × Placement) :=
  match stack with
  | [] => some (.ok (), p)
  | n :: rest =>
    if (p.blockOf? n).isSome then s |>.drain g rest p
    else match s.pendingUsers n p with
      | [] => do
        match ← s |>.place g n p with
        | (.error e, p) => return (.error e, p)
        | (.ok b, p) => s |>.drain g rest (p.setIfInBounds n (some b))
      | u :: us => s |>.drain g ((u :: us).reverse ++ n :: rest) p
partial_fixpoint

def place (g : Graph) (s : Schedule) (n : NodeId) (p : Placement) : Option (Except Error BlockId × Placement) :=
  match (s.usesOf n).mapM (useBlock n p) with
  | .error e => some (.error e, p)
  | .ok blocks => do
    match ← joinAll? s.dominators.commonDominator blocks with
    | some b => return (.ok b, p)
    | none => s |>.placeEarly g (g.inputs n) g.entry p
partial_fixpoint

/-- A node that nothing uses goes to the deepest block among those of its operands. -/
def placeEarly (g : Graph) (s : Schedule) (inputs : List NodeId) (best : BlockId) (p : Placement) :
    Option (Except Error BlockId × Placement) :=
  match inputs with
  | [] => some (.ok best, p)
  | i :: inputs => do
    match ← s |>.blockForNode g i p with
    | (.error e, p) => return (.error e, p)
    | (.ok b, p) =>
      s |>.placeEarly g inputs (if s.dominators.depth best < s.dominators.depth b then b else best) p
partial_fixpoint

end

/-- What is known after a node was asked for. A query that has no answer, where the program ends abnormally, is
passed over. -/
def asked (g : Graph) (s : Schedule) (p : Placement) (n : NodeId) : Placement :=
  match blockForNode g s n p with
  | some (_, p) => p
  | none => p

def compute (g : Graph) : Except Error Schedule := do
  let s ← start g
  return { s with placement := (List.range g.nodes.size).foldl (asked g s) s.placement }

/-- The entry block stands for a query without an answer. The program ends abnormally at one: blocks that no path from
the entry reaches have no common dominator. -/
def blockOf (s : Schedule) (n : NodeId) : BlockId := (s.placement.blockOf? n).getD s.dominators.entry

end Schedule

end NativeBackend
