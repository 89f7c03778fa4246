import MethodIR.Body.Basic
import MethodIR.DepthFirst

/-!
# Depth-first numbers

The blocks that a walk from the entry reaches are numbered in the order in which they are entered.
The parent of a block is the one from which it was entered.
-/

namespace MethodIR.Dominance

/-- Numbers for the blocks a walk enters. -/
structure Numbering where
  /-- The number of a block, by its index. -/
  number : Array (Option Nat)
  /-- The block of a number. -/
  vertex : Array BlockId := #[]
  /-- The number of the parent, by number; the root is its own parent. -/
  parent : Array Nat := #[]
  deriving Repr, Inhabited

namespace Numbering

/-- Takes account of the next step of a walk whose open blocks have the numbers of `path`. -/
def step : Numbering × List Nat → Visit → Numbering × List Nat
  | (num, path), .enter b =>
    let n := num.vertex.size
    ({ number := num.number.setIfInBounds b.index (some n)
       vertex := num.vertex.push b
       parent := num.parent.push (path.headD 0) }, n :: path)
  | (num, path), .exit _ => (num, path.tail)

def ofVisits (capacity : Nat) (visits : List Visit) : Numbering :=
  (visits.foldl step ({ number := Array.replicate capacity none }, [])).1

def size (num : Numbering) : Nat := num.vertex.size

def number? (num : Numbering) (b : BlockId) : Option Nat := num.number.getD b.index none

def vertexAt (num : Numbering) (n : Nat) : BlockId := num.vertex.getD n default

def parentOf (num : Numbering) (n : Nat) : Nat := num.parent.getD n 0

end Numbering

end MethodIR.Dominance
