import MethodIR.Body.Basic
import MethodIR.Error.Basic

/-!
# Accesses to variables

Which variables of a body can become values, and where they are written. A variable is global if
some block reads it before writing it; only global variables need phis.
-/

namespace MethodIR

/-- The variable that an instruction of that kind loads, stores or takes the address of. -/
def Kind.var? : Kind → Option VarId
  | .loadVar v | .storeVar v | .varAddr v => some v
  | _ => none

namespace Body

def laidOutKinds (body : Body) : List Kind :=
  body.order.flatMap fun b => (body.instsOf b).map body.kind

/-- Whether a variable can become a value: it is neither pinned nor exposed, and no laid out
instruction takes its address. -/
def isPromotable (body : Body) (v : VarId) : Bool :=
  (body.var v).canPromote && !body.laidOutKinds.contains (.varAddr v)

def storesTo (body : Body) (b : BlockId) (v : VarId) : Bool :=
  (body.instsOf b).any fun i => body.kind i = .storeVar v

/-- Whether a block loads a variable before it stores to it. -/
def loadsFirst (body : Body) (b : BlockId) (v : VarId) : Bool :=
  ((body.instsOf b).map body.kind).find? (fun k => k = .loadVar v || k = .storeVar v)
    = some (.loadVar v)

end Body

namespace Promotion

/-- What promotion has to know about the variables of a body before it changes it. -/
structure Accesses where
  /-- By variable index. -/
  promotable : Array Bool
  /-- The global variables among them, each with the blocks that store to it. -/
  globals : List (VarId × List BlockId)
  deriving DecidableEq, Repr, Inhabited

namespace Accesses

def isPromotable (a : Accesses) (v : VarId) : Bool := a.promotable.getD v.index false

/-- Whether an instruction of that kind loads or stores a promotable variable. -/
def concerns (a : Accesses) : Kind → Bool
  | .loadVar v | .storeVar v => a.isPromotable v
  | _ => false

/-- The accesses of a body, and nothing if no promotable variable is accessed. -/
def collect? (body : Body) : Except Error (Option Accesses) :=
  let kinds := body.laidOutKinds
  if kinds.all fun k => k.var?.all body.hasVar then
    let promotable := (body.varIds.map body.isPromotable).toArray
    let globals := body.varIds.filter fun v =>
      promotable.getD v.index false && body.order.any (body.loadsFirst · v)
    let accesses : Accesses :=
      { promotable
        globals := globals.map fun v => (v, body.order.filter (body.storesTo · v)) }
    .ok (if kinds.any accesses.concerns then some accesses else none)
  else .error .outOfRange

end Accesses

end Promotion

end MethodIR
