import MethodIR.Body.Layout
import MethodIR.Inst.Kind
import MethodIR.Value
import MethodIR.Variable

/-!
# Bodies

A body is the whole of a method in intermediate form: tables of arguments, variables, instructions
and blocks, which refer to each other by index. What is removed stays in its table, so an index is
never used twice. Every tracked value carries the list of its uses, newest first, and every block
its edges in both directions.
-/

namespace MethodIR

/-- An argument of a body. -/
structure Arg where
  ty : Ty
  uses : List Use := []
  deriving DecidableEq, Repr, Inhabited

/-- An instruction of a body. -/
structure Inst where
  kind : Kind
  ty : Ty
  operands : List Value := []
  /-- The block it is attached to. -/
  block : Option BlockId := none
  uses : List Use := []
  isRemoved : Bool := false
  deriving DecidableEq, Repr, Inhabited

/-- A basic block of a body. -/
structure Block where
  insts : List InstId := []
  preds : List BlockId := []
  succs : List BlockId := []
  isRemoved : Bool := false
  deriving DecidableEq, Repr, Inhabited

/-- A method in intermediate form. -/
structure Body where
  args : Array Arg
  returnTy : Ty
  vars : Array Variable := #[]
  insts : Array Inst := #[]
  blocks : Array Block := #[]
  entry : Option BlockId := none
  layout : Layout := {}
  /-- Counts the changes of layout, entry and edges. -/
  cfgVersion : Nat := 0
  deriving DecidableEq, Repr, Inhabited

namespace Body

def empty (argTypes : List Ty) (returnTy : Ty) : Body :=
  { args := (argTypes.map fun ty => { ty }).toArray, returnTy }

def hasBlock (body : Body) (b : BlockId) : Bool := b.index < body.blocks.size

def hasInst (body : Body) (i : InstId) : Bool := i.index < body.insts.size

def hasVar (body : Body) (v : VarId) : Bool := v.index < body.vars.size

/-- Whether a value belongs to the body; what is not tracked belongs to every body. -/
def hasValue (body : Body) : Value → Bool
  | .const _ | .undef _ => true
  | .arg a => a.index < body.args.size
  | .inst i => body.hasInst i

/-- The instruction of that index, an empty one if there is none. -/
def inst (body : Body) (i : InstId) : Inst := body.insts.getD i.index default

def block (body : Body) (b : BlockId) : Block := body.blocks.getD b.index default

def var (body : Body) (v : VarId) : Variable := body.vars.getD v.index default

def kind (body : Body) (i : InstId) : Kind := (body.inst i).kind

def instsOf (body : Body) (b : BlockId) : List InstId := (body.block b).insts

def preds (body : Body) (b : BlockId) : List BlockId := (body.block b).preds

def succs (body : Body) (b : BlockId) : List BlockId := (body.block b).succs

def order (body : Body) : List BlockId := body.layout.order

def numBlocks (body : Body) : Nat := body.blocks.toList.countP (!·.isRemoved)

def blockIds (body : Body) : List BlockId := (List.range body.blocks.size).map BlockId.mk

def instIds (body : Body) : List InstId := (List.range body.insts.size).map InstId.mk

def argIds (body : Body) : List ArgId := (List.range body.args.size).map ArgId.mk

def varIds (body : Body) : List VarId := (List.range body.vars.size).map VarId.mk

def valueTy (body : Body) : Value → Ty
  | .const c => c.ty
  | .undef t => t
  | .arg a => (body.args.getD a.index default).ty
  | .inst i => (body.inst i).ty

/-- The uses of a value, newest first; none for values that are not tracked. -/
def uses (body : Body) : Value → List Use
  | .const _ | .undef _ => []
  | .arg a => (body.args.getD a.index default).uses
  | .inst i => (body.inst i).uses

def users (body : Body) (v : Value) : List InstId := ((body.uses v).map Use.inst).eraseDups

def terminator? (body : Body) (b : BlockId) : Option InstId :=
  (body.instsOf b).getLast?.filter fun i => (body.kind i).isTerminator

def phis (body : Body) (b : BlockId) : List InstId :=
  (body.instsOf b).takeWhile fun i => (body.kind i).isPhi

def guards (body : Body) (b : BlockId) : List InstId :=
  (body.instsOf b).filter fun i => (body.kind i).isGuard

/-- The blocks to which the instructions of a block pass control. -/
def targets (body : Body) (b : BlockId) : List BlockId :=
  (body.instsOf b).flatMap fun i => (body.kind i).successors

/-- The incoming blocks of a phi, each with the value that comes from it. -/
def phiArgs (body : Body) (i : InstId) : List (BlockId × Value) :=
  match body.kind i with
  | .phi blocks => blocks.zip (body.inst i).operands
  | _ => []

def nextInst? (body : Body) (i : InstId) : Option InstId :=
  (body.inst i).block.bind fun b => ((body.instsOf b).dropWhile (· ≠ i))[1]?

def prevInst? (body : Body) (i : InstId) : Option InstId :=
  (body.inst i).block.bind fun b => ((body.instsOf b).takeWhile (· ≠ i)).getLast?

def modifyInst (body : Body) (i : InstId) (f : Inst → Inst) : Body :=
  { body with insts := body.insts.modify i.index f }

def modifyBlock (body : Body) (b : BlockId) (f : Block → Block) : Body :=
  { body with blocks := body.blocks.modify b.index f }

def modifyVar (body : Body) (v : VarId) (f : Variable → Variable) : Body :=
  { body with vars := body.vars.modify v.index f }

def modifyArg (body : Body) (a : ArgId) (f : Arg → Arg) : Body :=
  { body with args := body.args.modify a.index f }

def bump (body : Body) : Body := { body with cfgVersion := body.cfgVersion + 1 }

def addVar (body : Body) (ty : Ty) (origin : Variable.Origin) : VarId × Body :=
  (⟨body.vars.size⟩, { body with vars := body.vars.push { ty, origin } })

end Body

end MethodIR
