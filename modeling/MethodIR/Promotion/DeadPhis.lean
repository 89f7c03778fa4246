import MethodIR.Body.Edges
import MethodIR.Lists.Removal

/-!
# Dead phis

An inserted phi is alive if something other than an inserted phi uses it, or a phi that is alive.
The others only keep each other and are removed.
-/

namespace MethodIR.Promotion

def isUsedOutside (body : Body) (phis : List InstId) (phi : InstId) : Bool :=
  (body.users (.inst phi)).any fun user => user ∉ phis

/-- The phis of `undecided` that are not reached from the live phis of the worklist by way of
operands. -/
def unreached (body : Body) (undecided : List InstId) : List InstId → List InstId
  | [] => undecided
  | phi :: worklist =>
    let new := (((body.inst phi).operands.filterMap Value.inst?).filter (· ∈ undecided)).eraseDups
    if new = [] then unreached body undecided worklist
    else unreached body (undecided.removeAll new) (new ++ worklist)
termination_by worklist => (undecided.length, worklist.length)
decreasing_by
  · exact Prod.Lex.right _ (by simp)
  · refine Prod.Lex.left _ _ ?_
    obtain ⟨c, hc⟩ := List.exists_mem_of_ne_nil new ‹_›
    have := List.mem_eraseDups.1 hc
    exact Lists.length_removeAll_lt (by simpa using (List.mem_filter.1 this).2) hc

def deadPhis (body : Body) (phis : List InstId) : List InstId :=
  let (live, rest) := phis.partition (isUsedOutside body phis)
  unreached body rest live

/-- Removes the dead ones among inserted phis and counts them. -/
def removeDeadPhis (body : Body) (phis : List InstId) : Nat × Body :=
  let dead := deadPhis body phis
  (dead.length, dead.foldl (·.destroy ·) body)

end MethodIR.Promotion
