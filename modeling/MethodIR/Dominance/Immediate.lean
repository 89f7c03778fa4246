import MethodIR.Dominance.Forest
import MethodIR.Dominance.Numbering

/-!
# Immediate dominators

From the highest number down, each block gets its semidominator, is filed under it and hung under
its parent; then the blocks filed under the parent learn their dominator, or a block that has the
same one. A last sweep upwards looks those up.
-/

namespace MethodIR.Dominance

/-- The state of the sweep downwards. -/
structure Sweep where
  forest : Forest
  /-- The dominator of a number, or a smaller number with the same dominator. -/
  idom : Array Nat
  /-- The numbers filed under their semidominator. -/
  bucket : Array (List Nat)
  deriving Repr, Inhabited

namespace Sweep

def ofSize (n : Nat) : Sweep :=
  { forest := .ofSize n, idom := Array.replicate n 0, bucket := Array.replicate n [] }

def settle (parent : Nat) (s : Sweep) (v : Nat) : Sweep :=
  let (u, forest) := s.forest.eval v
  let d := if forest.semiOf u < forest.semiOf v then u else parent
  { s with forest, idom := s.idom.setIfInBounds v d }

/-- Works on the number `w`, whose predecessors have the numbers `preds`. -/
def step (preds : Nat → List Nat) (parent : Nat → Nat) (s : Sweep) (w : Nat) : Sweep :=
  let forest := (preds w).foldl (·.relax w ·) s.forest
  let bucket := s.bucket.modify (forest.semiOf w) (· ++ [w])
  let p := parent w
  let filed := bucket.getD p []
  filed.foldl (settle p)
    { s with forest := forest.link w p, bucket := bucket.setIfInBounds p [] }

def run (n : Nat) (preds : Nat → List Nat) (parent : Nat → Nat) : Sweep :=
  (List.range' 1 (n - 1)).reverse.foldl (step preds parent) (ofSize n)

def dominators (s : Sweep) : Array Nat :=
  (List.range' 1 (s.idom.size - 1)).foldl
    (fun idom w =>
      let d := idom.getD w 0
      if d = s.forest.semiOf w then idom else idom.setIfInBounds w (idom.getD d 0))
    s.idom

end Sweep

/-- The immediate dominator of each block, by index; none for the entry and for blocks that it does
not reach. -/
def immediate (body : Body) (entry : BlockId) : Array (Option BlockId) :=
  let capacity := body.blocks.size
  let num := Numbering.ofVisits capacity (DepthFirst.visits capacity entry body.succs)
  let preds (w : Nat) : List Nat := (body.preds (num.vertexAt w)).filterMap num.number?
  let idom := (Sweep.run num.size preds num.parentOf).dominators
  (List.range' 1 (num.size - 1)).foldl
    (fun result w =>
      result.setIfInBounds (num.vertexAt w).index (some (num.vertexAt (idom.getD w 0))))
    (Array.replicate capacity none)

end MethodIR.Dominance
