import MethodIR.DepthFirst
import MethodIR.Promotion.Accesses
import MethodIR.Trace

/-!
# Renaming

On a walk over the dominator tree each variable has a stack of the values it has been given on the
way. A store pushes its value and goes, a load gives way to the top of the stack, and the inserted
phis of the successors take what is on top at the end of the block. When a block is left, what it
pushed is popped.
-/

namespace MethodIR.Promotion

/-- The state of renaming. -/
structure Renaming where
  body : Body
  /-- The values of each variable, the current one first. -/
  reaching : Array (List Value)
  /-- What has been pushed, and by which block, the latest first. -/
  undo : List (BlockId × VarId) := []
  stores : Nat := 0
  loads : Nat := 0
  undefined : Nat := 0
  deriving Repr, Inhabited

/-- What does not change during renaming. -/
structure RenamingPlan where
  accesses : Accesses
  /-- The variable of each inserted phi. -/
  phis : List (InstId × VarId)
  warnOnUndefined : Bool

namespace Renaming

open Traced

def edit {α : Type} (x : Edit α) : Traced Renaming α :=
  zoom Renaming.body (fun body s => { s with body }) (ofEdit x)

def current? (s : Renaming) (v : VarId) : Option Value := (s.reaching.getD v.index []).head?

def push (b : BlockId) (v : VarId) (value : Value) (s : Renaming) : Renaming :=
  { s with reaching := s.reaching.modify v.index (value :: ·), undo := (b, v) :: s.undo }

def leave (b : BlockId) (s : Renaming) : Renaming :=
  let pushed := s.undo.takeWhile fun (owner, _) => owner = b
  { s with
    undo := s.undo.drop pushed.length
    reaching := pushed.foldl (fun reaching (_, v) => reaching.modify v.index List.tail) s.reaching }

/-- The value stored to a variable, cut down to its type in front of the store if necessary. -/
def coerce (store : InstId) (v : VarId) (value : Value) : Traced Renaming Value := do
  let body := (← getState).body
  let ty := (body.var v).ty
  if ty.narrows (body.valueTy value) then
    edit do
      let conv ← Edit.createInst (.convert false false) [value] ty
      Edit.insertBefore store conv
      return .inst conv
  else return value

def store (b : BlockId) (i : InstId) (v : VarId) : Traced Renaming Unit := do
  match ((← getState).body.inst i).operands with
  | [] => throw .outOfRange
  | operand :: _ =>
    let value ← coerce i v operand
    modifyState (push b v value)
    edit (Edit.removeInst i)
    modifyState fun s => { s with stores := s.stores + 1 }

/-- The value a load reads; undefined if nothing has been stored. -/
def read (plan : RenamingPlan) (reachable : Bool) (i : InstId) (v : VarId) :
    Traced Renaming Value := do
  let s ← getState
  match s.current? v with
  | some value => return value
  | none =>
    modifyState fun s => { s with undefined := s.undefined + 1 }
    let decl := s.body.var v
    if plan.warnOnUndefined && reachable then report (.undefinedRead v decl.origin i)
    return .undef decl.ty

def load (plan : RenamingPlan) (reachable : Bool) (i : InstId) (v : VarId) :
    Traced Renaming Unit := do
  let value ← read plan reachable i v
  edit (Edit.replaceWith i value)
  modifyState fun s => { s with loads := s.loads + 1 }

def access (plan : RenamingPlan) (reachable : Bool) (b : BlockId) (i : InstId) :
    Traced Renaming Unit := do
  let body := (← getState).body
  let kind := body.kind i
  match kind with
  | .storeVar v | .loadVar v =>
    edit (Edit.need (body.hasVar v))
    if plan.accesses.isPromotable v then
      if kind = .storeVar v then store b i v else load plan reachable i v
  | _ => pure ()

def passTo (plan : RenamingPlan) (b : BlockId) (phi : InstId) : Traced Renaming Unit := do
  if let some v := plan.phis.lookup phi then
    let s ← getState
    edit (Edit.addPhiArg phi b ((s.current? v).getD (.undef (s.body.var v).ty)))

def enter (plan : RenamingPlan) (reachable : Bool) (b : BlockId) : Traced Renaming Unit := do
  let body := (← getState).body
  (body.phis b).forM fun phi => do
    if let some v := plan.phis.lookup phi then modifyState (push b v (.inst phi))
  (body.instsOf b).forM (access plan reachable b)
  (body.succs b).forM fun succ => do
    ((← getState).body.phis succ).forM (passTo plan b)

def follow (plan : RenamingPlan) : Visit → Traced Renaming Unit
  | .enter b => enter plan true b
  | .exit b => modifyState (leave b)

/-- Renames a block that the entry does not reach; it sees no definitions but its own. -/
def unreached (plan : RenamingPlan) (b : BlockId) : Traced Renaming Unit := do
  enter plan false b
  modifyState (leave b)

end Renaming

end MethodIR.Promotion
