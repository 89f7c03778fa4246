import MethodIR.Body.Edit

/-!
# Bodies of given graphs

The simplest body with a given control-flow graph: each block ends in a switch to its successors, or
returns.
-/

namespace MethodIR

namespace Edit

def append (b : BlockId) (kind : Kind) (operands : List Value) (ty : Ty) : Edit InstId := do
  let i ← createInst kind operands ty
  insertLast b i
  return i

/-- Ends a block with a switch on the first argument, or with a return if there are no targets. -/
def endWith (b : BlockId) (targets : List BlockId) : Edit InstId :=
  match targets.getLast? with
  | some last => append b (.switch targets.dropLast last) [.arg ⟨0⟩] .void
  | none => append b .ret [] .void

/-- Creates `n` blocks and ends those that have an entry in `edges`; further entries do not count. -/
def graph (n : Nat) (edges : List (List BlockId)) (entry : Option BlockId) : Edit Unit := do
  (List.range n).forM fun _ => discard <| createBlock none
  (edges.take n).zipIdx.forM fun (targets, i) => discard <| endWith ⟨i⟩ targets
  entry.forM setEntry

end Edit

def Body.ofGraph (n : Nat) (edges : List (List BlockId)) (entry : Option BlockId) :
    Except Error Body :=
  match Edit.graph n edges entry (Body.empty [.i32] .void) with
  | .ok _ body => .ok body
  | .error e _ => .error e

end MethodIR
