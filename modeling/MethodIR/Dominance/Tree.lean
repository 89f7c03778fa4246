import MethodIR.Dominance.Immediate

/-!
# Dominator trees

A block dominates another if every path from the entry to the other one goes through it. The
immediate dominators make a tree with the entry as root. A walk over it numbers its steps; one
block dominates another if its interval of steps holds the other's. Blocks that the walk does not
reach dominate nothing.
-/

namespace MethodIR

/-- The dominator tree of a body. Tables are by block index. -/
structure DominatorTree where
  entry : BlockId
  idom : Array (Option BlockId)
  /-- The blocks right below a block, in layout order. -/
  children : Array (List BlockId)
  walk : List Visit
  depth : Array Nat
  /-- The positions in the walk at which a block is entered and left. -/
  interval : Array (Option (Nat × Nat))
  deriving Repr, Inhabited

namespace DominatorTree

/-- Positions and depths along a walk. -/
structure Spans where
  position : Nat := 0
  level : Nat := 0
  depth : Array Nat
  interval : Array (Option (Nat × Nat))

namespace Spans

def step (s : Spans) : Visit → Spans
  | .enter b =>
    { position := s.position + 1
      level := s.level + 1
      depth := s.depth.setIfInBounds b.index s.level
      interval := s.interval.setIfInBounds b.index (some (s.position, s.position)) }
  | .exit b =>
    { s with
      position := s.position + 1
      level := s.level - 1
      interval := s.interval.modify b.index fun i => i.map fun (start, _) => (start, s.position) }

def ofWalk (capacity : Nat) (walk : List Visit) : Spans :=
  walk.foldl step { depth := Array.replicate capacity 0, interval := Array.replicate capacity none }

end Spans

def childrenOf (body : Body) (idom : Array (Option BlockId)) : Array (List BlockId) :=
  body.order.foldl
    (fun children b =>
      match idom.getD b.index none with
      | some parent => children.modify parent.index (· ++ [b])
      | none => children)
    (Array.replicate body.blocks.size [])

def compute (body : Body) : Except Error DominatorTree :=
  match body.entry with
  | none => .error (.violation .noEntry)
  | some entry =>
    let capacity := body.blocks.size
    let idom := Dominance.immediate body entry
    let children := childrenOf body idom
    let walk := DepthFirst.visits capacity entry fun b => children.getD b.index []
    let spans := Spans.ofWalk capacity walk
    .ok { entry, idom, children, walk, depth := spans.depth, interval := spans.interval }

def idom? (t : DominatorTree) (b : BlockId) : Option BlockId := t.idom.getD b.index none

def childrenAt (t : DominatorTree) (b : BlockId) : List BlockId := t.children.getD b.index []

def depthOf (t : DominatorTree) (b : BlockId) : Nat := t.depth.getD b.index 0

def interval? (t : DominatorTree) (b : BlockId) : Option (Nat × Nat) :=
  t.interval.getD b.index none

def isReachable (t : DominatorTree) (b : BlockId) : Bool := (t.interval? b).isSome

def dominates (t : DominatorTree) (a b : BlockId) : Bool :=
  match t.interval? a, t.interval? b with
  | some (aIn, aOut), some (bIn, bOut) => aIn ≤ bIn && bOut ≤ aOut
  | _, _ => false

def strictlyDominates (t : DominatorTree) (a b : BlockId) : Bool := a ≠ b && t.dominates a b

def preorder (t : DominatorTree) : List BlockId := t.walk.filterMap Visit.entered?

/-- A block with the immediate dominators above it, at most `n` of them in all. -/
def chain (t : DominatorTree) : Nat → BlockId → List BlockId
  | 0, _ => []
  | n + 1, b =>
    b :: match t.idom? b with
      | some d => t.chain n d
      | none => []

end DominatorTree

end MethodIR
