import NativeBackend.Graph.Basic

namespace NativeBackend

namespace Graph

/-- Depth-first search with the blocks it is in, each with the successors it still has to try, the last one first.
Gives the blocks in the order in which they are left. -/
def leave (g : Graph) (seen left : List BlockId) (stack : List (BlockId × List BlockId)) : Option (List BlockId) :=
  match stack with
  | [] => some left
  | (b, []) :: rest => g |>.leave seen (left ++ [b]) rest
  | (b, c :: cs) :: rest =>
    if seen.contains c then g |>.leave seen left ((b, cs) :: rest)
    else g |>.leave (c :: seen) left ((c, (g.successors c).reverse) :: (b, cs) :: rest)
partial_fixpoint

/-- The blocks that the entry leads to, each after those that its search found; the entry comes last. -/
def postorder (g : Graph) : Option (List BlockId) :=
  g.leave [g.entry] [] [(g.entry, (g.successors g.entry).reverse)]

def predecessors (g : Graph) (order : List BlockId) (b : BlockId) : List BlockId :=
  order.flatMap fun p => (g.successors p).filterMap fun c => if c = b then some p else none

end Graph

def joinAll? (join : BlockId → BlockId → Option BlockId) : List BlockId → Option (Option BlockId)
  | [] => some none
  | b :: bs => (bs.foldlM join b).map some

/-- A dominator for each block that has one so far. -/
abbrev Idoms := Array (Option BlockId)

namespace Idoms

def parent? (idoms : Idoms) (b : BlockId) : Option BlockId := idoms.getD b none

def climb (idoms : Idoms) (stop : BlockId → Bool) (b : BlockId) : Option BlockId :=
  if stop b then some b else do idoms |>.climb stop (← idoms.parent? b)
partial_fixpoint

/-- Goes up from two blocks in turn, always from the one with the smaller number, until they meet. -/
def intersect (idoms : Idoms) (number : BlockId → Nat) (a b : BlockId) : Option BlockId :=
  if a = b then some a
  else do
    let a ← idoms.climb (number b ≤ number ·) a
    let b ← idoms.climb (number a ≤ number ·) b
    idoms |>.intersect number a b
partial_fixpoint

variable (g : Graph) (order : List BlockId)

/-- Where the blocks above some predecessors meet, those left out that have no dominator so far. -/
def meet (idoms : Idoms) (predecessors : List BlockId) : Option (Option BlockId) :=
  joinAll? (fun d p => idoms.intersect order.idxOf p d)
    (predecessors.filter fun p => (idoms.parent? p).isSome)

def relax (state : Idoms × Bool) (b : BlockId) : Option (Idoms × Bool) :=
  if b = g.entry then some state
  else do
    match ← meet order state.1 (g.predecessors order b) with
    | none => return state
    | some d =>
      if state.1.parent? b = some d then return state
      else return (state.1.setIfInBounds b (some d), true)

def sweep (idoms : Idoms) : Option (Idoms × Bool) := order.reverse.foldlM (relax g order) (idoms, false)

def settle (idoms : Idoms) : Option Idoms := do
  let (idoms, changed) ← sweep g order idoms
  if changed then idoms |>.settle else return idoms
partial_fixpoint

def start : Idoms := (Array.replicate g.blocks.size none).setIfInBounds g.entry (some g.entry)

def depths (idoms : Idoms) : Array Nat :=
  order.reverse.foldl (fun depths b =>
    if b = g.entry then depths
    else depths.setIfInBounds b (((idoms.parent? b).map (depths.getD · 0)).getD 0 + 1))
    (Array.replicate g.blocks.size 0)

end Idoms

structure DominatorTree where
  entry : BlockId
  idoms : Idoms
  depths : Array Nat

namespace DominatorTree

/-- Nothing is computed if some loop does not end or asks for a dominator that is not there. -/
def compute (g : Graph) : Option DominatorTree := do
  let order ← g.postorder
  let idoms ← Idoms.settle g order (Idoms.start g)
  return ⟨g.entry, idoms, idoms.depths g order⟩

def immediateDominator? (t : DominatorTree) (b : BlockId) : Option BlockId :=
  if b = t.entry then none else t.idoms.parent? b

def depth (t : DominatorTree) (b : BlockId) : Nat := t.depths.getD b 0

def dominates (t : DominatorTree) (a b : BlockId) : Option Bool :=
  if a = b then some true
  else match t.immediateDominator? b with
    | some p => t |>.dominates a p
    | none => some false
partial_fixpoint

def commonDominator (t : DominatorTree) (a b : BlockId) : Option BlockId :=
  if a = b then some a
  else do
    let a ← t.idoms.climb (t.depth · ≤ t.depth b) a
    let b ← t.idoms.climb (t.depth · ≤ t.depth a) b
    if a = b then t |>.commonDominator a b
    else t |>.commonDominator (← t.idoms.parent? a) (← t.idoms.parent? b)
partial_fixpoint

end DominatorTree

end NativeBackend
