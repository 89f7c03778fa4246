import MethodIR.Import.Lowering

/-!
# Import

From bytecode to a body: find the leaders, create blocks and guards, copy the arguments to variables,
lower block after block, and mark the variables that have to stay in memory.
-/

namespace MethodIR.Import

open Traced

/-- Whether a variable is stored to inside an exception region and used in more than one block.
Values do not flow along exceptional edges, so such a variable stays in memory. -/
def Usage.crossesRegion (u : Usage) : Bool := u.isStoredInRegion && u.isShared

def exposeIfCrossing (u : Usage) (v : VarId) : M Unit := do
  let decl := (← getState).body.var v
  if u.crossesRegion && !decl.isExposed then
    edit <| modify (·.modifyVar v fun x => { x with isExposed := true })
    report (.crossesRegion v decl.origin)

def markExposed : M Unit := do
  (← getState).usage.toList.zipIdx.forM fun (u, n) => exposeIfCrossing u ⟨n⟩

def importMethod (m : Bytecode) : M Unit := do
  if m.code.isEmpty then failAt 0 .noInstructions
  let leaders ← MonadExcept.ofExcept (leaders m)
  createBlocks m leaders
  m.regions.forM createGuard
  copyArguments
  (List.range (← getState).segments.size).forM (lowerSegment m)
  markExposed
  let s ← getState
  report (.imported s.body.numBlocks s.guards.length s.body.vars.size)

end Import

def Bytecode.toBody {σ : Type} (m : Bytecode) : Traced σ Body :=
  Traced.on (Import.State.ofMethod m) do
    Import.importMethod m
    return (← Traced.getState).body

end MethodIR
