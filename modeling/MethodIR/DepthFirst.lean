import MethodIR.Error.Basic

/-!
# Depth-first walks

A walk over a graph of blocks is the list of blocks as they are entered and left. The blocks still
to be entered and the blocks open are one stack; the walk ends because every block is entered at
most once.
-/

namespace MethodIR

/-- A step of a walk. -/
inductive Visit where
  | enter (b : BlockId)
  | exit (b : BlockId)
  deriving DecidableEq, Repr, Inhabited

namespace Visit

def entered? : Visit → Option BlockId
  | enter b => some b
  | exit _ => none

def text : Visit → String
  | enter b => "+" ++ b.text
  | exit b => "-" ++ b.text

end Visit

def BlockId.below (capacity : Nat) : List BlockId := (List.range capacity).map BlockId.mk

namespace DepthFirst

/-- The rest of a walk that has the given steps before it, if only the blocks of `unseen` may still
be entered. -/
def walk (succs : BlockId → List BlockId) (unseen : List BlockId) : List Visit → List Visit
  | [] => []
  | .exit b :: steps => .exit b :: walk succs unseen steps
  | .enter b :: steps =>
    if b ∈ unseen then
      let rest := unseen.erase b
      .enter b :: walk succs rest
        (((succs b).filter (· ∈ rest)).map .enter ++ .exit b :: steps)
    else walk succs unseen steps
termination_by steps => (unseen.length, steps.length)
decreasing_by
  · exact Prod.Lex.right _ (by simp)
  · refine Prod.Lex.left _ _ ?_
    rw [List.length_erase_of_mem ‹b ∈ unseen›]
    exact Nat.sub_lt (List.length_pos_of_mem ‹b ∈ unseen›) Nat.one_pos
  · exact Prod.Lex.right _ (by simp)

/-- The walk from `root` over a graph of the blocks below `capacity`. -/
def visits (capacity : Nat) (root : BlockId) (succs : BlockId → List BlockId) : List Visit :=
  walk succs (BlockId.below capacity) [.enter root]

/-- The walk over a table of edges. It fails if it comes to a block past the capacity or without
an entry in the table. -/
def visitsOfTable (capacity : Nat) (root : BlockId) (edges : Array (List BlockId)) :
    Except Error (List Visit) :=
  let steps := visits capacity root fun b => edges.getD b.index []
  let inside (b : BlockId) : Bool := b.index < capacity
  if inside root && (steps.filterMap Visit.entered?).all fun b =>
      match edges[b.index]? with
      | some targets => targets.all inside
      | none => false
  then .ok steps else .error .outOfRange

end DepthFirst

end MethodIR
