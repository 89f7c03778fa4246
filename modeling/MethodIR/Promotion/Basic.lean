import MethodIR.Analysis
import MethodIR.Promotion.DeadPhis
import MethodIR.Promotion.Placement
import MethodIR.Promotion.Renaming

/-!
# Promotion of variables

Turns the loads and stores of promotable variables into values: phis are placed, all accesses are
renamed along the dominator tree, and phis that nothing needs are removed again.
-/

namespace MethodIR

/-- What a pass has changed. -/
structure Invalidations where
  controlFlow : Bool := false
  dataFlow : Bool := false
  loops : Bool := false
  deriving DecidableEq, Repr, Inhabited

namespace Invalidations

def named : List (String × Nat) := [("CONTROL_FLOW", 1), ("DATA_FLOW", 2), ("LOOPS", 4)]

def bits (i : Invalidations) : Nat :=
  i.controlFlow.toNat + 2 * i.dataFlow.toNat + 4 * i.loops.toNat

def ofBits (n : Nat) : Invalidations := ⟨n.testBit 0, n.testBit 1, n.testBit 2⟩

def isEmpty (i : Invalidations) : Bool := i.bits == 0

def text (i : Invalidations) : String :=
  let names := (named.filter fun (_, bit) => i.bits &&& bit != 0).map Prod.fst
  "MethodInvalidations(" ++ (if names.isEmpty then "0x0" else " | ".intercalate names) ++ ")"

end Invalidations

/-- A body in transformation with the analyses at hand. -/
structure Transform where
  body : Body
  analyses : Analyses := {}
  deriving Repr, Inhabited

namespace Transform

open Traced

def invalidate (i : Invalidations) (t : Transform) : Transform :=
  if i.isEmpty then t else { t with analyses := {} }

def analyze {α : Type} (x : Body → Traced Analyses α) : Traced Transform α := do
  let body := (← getState).body
  zoom Transform.analyses (fun analyses t => { t with analyses }) (x body)

def getTree (keep : Bool) : Traced Transform DominatorTree := analyze (Analyses.getTree · keep)

def getFrontier (keep : Bool) : Traced Transform Frontier := analyze (Analyses.getFrontier · keep)

def onBody {α : Type} (x : Traced Body α) : Traced Transform α :=
  zoom Transform.body (fun body t => { t with body }) x

end Transform

namespace Promotion

/-- How variables are promoted. -/
structure Options where
  removeDeadPhis : Bool := true
  warnOnUndefined : Bool := true
  deriving DecidableEq, Repr, Inhabited

def passName : String := "ssa_promotion"

open Traced

/-- Renames all accesses: along the tree, then in the blocks it does not reach. -/
def rename (tree : DominatorTree) (plan : RenamingPlan) : Traced Renaming Unit := do
  tree.walk.forM (Renaming.follow plan)
  let order := (← getState).body.order
  (order.filter fun b => !tree.isReachable b).forM (Renaming.unreached plan)

def promote (options : Options) (tree : DominatorTree) (frontier : Frontier) (accesses : Accesses) :
    Traced Body Unit := do
  let phis ← insertPhis frontier accesses
  let plan : RenamingPlan := { accesses, phis, warnOnUndefined := options.warnOnUndefined }
  let reaching := Array.replicate accesses.promotable.size []
  let (stores, loads, undefined) ←
    zoom (fun body => { body, reaching }) (fun (s : Renaming) _ => s.body) do
      rename tree plan
      let s ← getState
      return (s.stores, s.loads, s.undefined)
  let removed ←
    if options.removeDeadPhis then do
      let (n, body) := removeDeadPhis (← getState) (phis.map Prod.fst)
      setState body
      pure n
    else pure 0
  report (.promoted (phis.length - removed) removed stores loads undefined)

/-- The pass: promotes what can be promoted and tells what has changed. -/
def run (options : Options) : Traced Transform Invalidations := do
  match ← MonadExcept.ofExcept (Accesses.collect? (← getState).body) with
  | none =>
    report .nothingToPromote
    return {}
  | some accesses =>
    let tree ← Transform.getTree true
    let frontier ← Transform.getFrontier true
    Transform.onBody (promote options tree frontier accesses)
    return { dataFlow := true }

/-- What a run of the pass reports: its changes, and how many analyses were kept before and after
they were dropped accordingly. -/
structure Report where
  changes : Invalidations
  kept : Nat
  keptAfter : Nat
  deriving DecidableEq, Repr, Inhabited

def runAndInvalidate (options : Options) : Traced Transform Report := do
  let changes ← run options
  let kept := (← getState).analyses.size
  modifyState (Transform.invalidate changes)
  return ⟨changes, kept, (← getState).analyses.size⟩

def runOn (options : Options) : Traced Body Report :=
  zoom (fun body => { body }) (fun (t : Transform) _ => t.body) (runAndInvalidate options)

end Promotion

end MethodIR
