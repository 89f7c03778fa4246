import MethodIR.Dominance.Frontier
import MethodIR.Trace

/-!
# Cached analyses

The dominator tree and the frontiers of a body are kept together with the version of the
control-flow graph they were computed for. An entry of another version is dropped when it is asked
for.
-/

namespace MethodIR

/-- A value computed for a version of the control-flow graph. -/
structure Cached (α : Type) where
  version : Nat
  value : α
  deriving Repr, Inhabited

/-- The analyses at hand. -/
structure Analyses where
  tree : Option (Cached DominatorTree) := none
  frontier : Option (Cached Frontier) := none
  deriving Repr, Inhabited

namespace Analyses

def size (a : Analyses) : Nat := a.tree.isSome.toNat + a.frontier.isSome.toNat

def isEmpty (a : Analyses) : Bool := a.size == 0

def hasTree (a : Analyses) (body : Body) : Bool :=
  a.tree.any fun c => c.version == body.cfgVersion

def hasFrontier (a : Analyses) (body : Body) : Bool :=
  a.frontier.any fun c => c.version == body.cfgVersion

def text (a : Analyses) : String :=
  "AnalysisManager \x7b entries: " ++ toString a.size ++ " \x7d"

open Traced

/-- An analysis: what it is called, where it is kept and how it is computed. -/
structure Request (α : Type) where
  name : AnalysisName
  slot : Analyses → Option (Cached α)
  put : Option (Cached α) → Analyses → Analyses
  create : Body → Bool → Traced Analyses α

/-- An analysis of a body, from the cache if the version is right. It is put into the cache if it is
to be kept. -/
def get {α : Type} (r : Request α) (body : Body) (keep : Bool) : Traced Analyses α := do
  if let some c := r.slot (← getState) then
    if c.version = body.cfgVersion then return c.value
    report (.staleEntry r.name)
    modifyState (r.put none)
  report (.computing r.name)
  let value ← r.create body keep
  if keep then modifyState (r.put (some ⟨body.cfgVersion, value⟩))
  return value

def treeRequest : Request DominatorTree where
  name := .dominatorTree
  slot := Analyses.tree
  put c a := { a with tree := c }
  create body _ := MonadExcept.ofExcept (DominatorTree.compute body)

def getTree (body : Body) (keep : Bool) : Traced Analyses DominatorTree := get treeRequest body keep

def frontierRequest : Request Frontier where
  name := .dominanceFrontier
  slot := Analyses.frontier
  put c a := { a with frontier := c }
  create body keep := do
    let tree ← getTree body keep
    MonadExcept.ofExcept (Frontier.compute body tree)

/-- The frontiers of a body. Its dominator tree is kept along with them. -/
def getFrontier (body : Body) (keep : Bool) : Traced Analyses Frontier :=
  get frontierRequest body keep

end Analyses

end MethodIR
