import MethodIR.Dominance.Tree

/-!
# Dominance frontiers

The frontier of a block holds the blocks where its dominance ends: it dominates a predecessor of
such a block, but not the block itself, unless they are the same.
-/

namespace MethodIR

/-- The frontier of each block, by index. -/
structure Frontier where
  sets : Array (List BlockId)
  deriving DecidableEq, Repr, Inhabited

namespace Frontier

def of (f : Frontier) (b : BlockId) : List BlockId := f.sets.getD b.index []

def add (f : Frontier) (a b : BlockId) : Frontier :=
  ⟨f.sets.modify a.index fun bs => if b ∈ bs then bs else bs ++ [b]⟩

/-- The dominators of a predecessor of `b`, up to the immediate dominator of `b`. -/
def runners (t : DominatorTree) (b pred : BlockId) : List BlockId :=
  if t.isReachable pred then
    (t.chain t.idom.size pred).takeWhile fun a => some a ≠ t.idom? b
  else []

/-- The blocks to whose frontiers `b` belongs, in the order in which they are found. -/
def holders (body : Body) (t : DominatorTree) (b : BlockId) : List BlockId :=
  let preds := body.preds b
  if preds.length < 2 || !t.isReachable b then [] else preds.flatMap (runners t b)

def ofTree (body : Body) (t : DominatorTree) : Frontier :=
  body.order.foldl (fun f b => (holders body t b).foldl (fun f a => f.add a b) f)
    ⟨Array.replicate body.blocks.size []⟩

/-- The frontiers of a body with the given tree. The tree may be that of another body; then it must
not lead to a block that the body does not have. -/
def compute (body : Body) (t : DominatorTree) : Except Error Frontier :=
  if body.order.all fun b => (holders body t b).all body.hasBlock then .ok (ofTree body t)
  else .error .outOfRange

end Frontier

end MethodIR
