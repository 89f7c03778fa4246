import MethodIR.Dominance.Frontier
import MethodIR.Lists.Removal
import MethodIR.Promotion.Accesses
import MethodIR.Trace

/-!
# Placement of phis

A global variable needs a phi wherever two of its definitions can meet: in the frontier of the
blocks that store to it, and as a phi is a definition too, in the frontier of those blocks, and so
on.
-/

namespace MethodIR.Promotion

/-- The blocks that get a phi, in the order in which they get it. The blocks of `worklist` hold
definitions whose frontier is still to be looked at; only those of `unplaced` can get a phi, and
those of `queued` have been in the worklist. -/
def place (frontier : BlockId → List BlockId) (unplaced queued : List BlockId) :
    List BlockId → List BlockId
  | [] => []
  | b :: worklist =>
    let fresh := (frontier b).eraseDups.filter (· ∈ unplaced)
    if fresh = [] then place frontier unplaced queued worklist
    else
      let new := fresh.filter (· ∉ queued)
      fresh ++ place frontier (unplaced.removeAll fresh) (queued ++ new)
        (new.reverse ++ worklist)
termination_by worklist => (unplaced.length, worklist.length)
decreasing_by
  · exact Prod.Lex.right _ (by simp)
  · refine Prod.Lex.left _ _ ?_
    obtain ⟨c, hc⟩ := List.exists_mem_of_ne_nil fresh ‹_›
    exact Lists.length_removeAll_lt (by simpa using (List.mem_filter.1 hc).2) hc

/-- The blocks that get a phi for a variable stored to in `defs`. -/
def phiBlocks (capacity : Nat) (frontier : Frontier) (defs : List BlockId) : List BlockId :=
  place frontier.of (BlockId.below capacity) defs defs.reverse

open Traced

def insertPhisFor (frontier : Frontier) (v : VarId) (defs : List BlockId) :
    Traced Body (List (InstId × VarId)) := do
  let body ← getState
  (phiBlocks body.blocks.size frontier defs).mapM fun b => do
    let phi ← ofEdit (Edit.insertPhi b (body.var v).ty)
    report (.insertedPhi phi v b)
    return (phi, v)

/-- Inserts the phis of all global variables and gives the variable of each. -/
def insertPhis (frontier : Frontier) (accesses : Accesses) :
    Traced Body (List (InstId × VarId)) := do
  return (← accesses.globals.mapM fun (v, defs) => insertPhisFor frontier v defs).flatten

end MethodIR.Promotion
