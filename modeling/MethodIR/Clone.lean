import MethodIR.Body.Edit

/-!
# Copying blocks

A cloner copies blocks of one body to another, or within one, and specializes all types on the way.
It remembers what each block, value and variable became, and what it is told beforehand is left as
told. An operand that is copied only later is filled in at the end.
-/

namespace MethodIR

/-- What has become of the things copied so far; of two entries the first counts. -/
structure Cloner where
  context : GenericContext := {}
  values : List (Value × Value) := []
  blocks : List (BlockId × BlockId) := []
  vars : List (VarId × VarId) := []
  deriving Repr, Inhabited

namespace Cloner

/-- The image of a value; one without an entry stays as it is. -/
def mapValue (c : Cloner) : Value → Value
  | .undef t => .undef (t.specialize c.context)
  | v => (c.values.lookup v).getD v

/-- The image of a block; one without an entry stays as it is. -/
def mapBlock (c : Cloner) (b : BlockId) : BlockId := (c.blocks.lookup b).getD b

end Cloner

/-- A copy in the making. -/
structure Cloning where
  cloner : Cloner
  target : Body
  deriving Repr, Inhabited

abbrev Clone := EStateM Error Cloning

namespace Clone

def edit {α : Type} (x : Edit α) : Clone α := fun s =>
  match x s.target with
  | .ok a target => .ok a { s with target }
  | .error e target => .error e { s with target }

def cloner : Clone Cloner := do return (← get).cloner

def modifyCloner (f : Cloner → Cloner) : Clone Unit :=
  modify fun s => { s with cloner := f s.cloner }

/-- The image of a block to be copied, created if it has none. -/
def image (b : BlockId) : Clone BlockId := do
  match (← cloner).blocks.lookup b with
  | some c => return c
  | none =>
    let c ← edit (Edit.createBlock none)
    modifyCloner fun m => { m with blocks := (b, c) :: m.blocks }
    return c

/-- The image of a variable, created with the same flags if it has none. -/
def imageVar (source : Body) (v : VarId) : Clone VarId := do
  match (← cloner).vars.lookup v with
  | some w => return w
  | none =>
    edit (Edit.need (source.hasVar v))
    let decl := source.var v
    let w ← edit (Edit.createVar (decl.ty.specialize (← cloner).context) decl.origin)
    edit <| modify (·.modifyVar w fun x =>
      { x with isPinned := decl.isPinned, isExposed := decl.isExposed })
    modifyCloner fun m => { m with vars := (v, w) :: m.vars }
    return w

def mapVar (source : Body) : Kind → Clone Kind
  | .loadVar v => do return .loadVar (← imageVar source v)
  | .storeVar v => do return .storeVar (← imageVar source v)
  | .varAddr v => do return .varAddr (← imageVar source v)
  | k => pure k

/-- Whether a value is an instruction of `region` that has not been copied yet. -/
def isPending (c : Cloner) (region : List InstId) (v : Value) : Bool :=
  match v with
  | .inst d => region.contains d && (c.values.lookup v).isNone
  | _ => false

def imageOperand (source : Body) (region : List InstId) (v : Value) : Clone Value := do
  let c ← cloner
  if isPending c region v then return .undef ((source.valueTy v).specialize c.context)
  if let .arg a := v then
    if (c.values.lookup v).isNone && (← get).target.args.size ≤ a.index then
      throw (.violation (.noCounterpart a))
  return c.mapValue v

/-- Copies an instruction to the end of a block and tells which operands have to be filled in. -/
def copyInst (source : Body) (region : List InstId) (home : BlockId) (i : InstId) :
    Clone (List (InstId × Nat)) := do
  let c ← cloner
  let x := source.inst i
  let kind ← mapVar source ((x.kind.specialize c.context).mapBlocks c.mapBlock)
  let operands ← x.operands.mapM (imageOperand source region)
  let copy ← edit do
    let copy ← Edit.createInst kind operands (x.ty.specialize c.context)
    Edit.insertLast home copy
    return copy
  modifyCloner fun m => { m with values := (.inst i, .inst copy) :: m.values }
  return x.operands.zipIdx.filterMap fun (v, slot) =>
    if isPending c region v then some (i, slot) else none

def fillIn (source : Body) (i : InstId) (slot : Nat) : Clone Unit := do
  let c ← cloner
  if let some (.inst copy) := c.values.lookup (.inst i) then
    if let some v := (source.inst i).operands[slot]? then
      edit (Edit.setOperand copy slot (c.mapValue v))

def blocks (source : Body) (bs : List BlockId) : Clone (List BlockId) := do
  let images ← bs.mapM image
  edit (Edit.need (bs.all source.hasBlock))
  let region := bs.flatMap source.instsOf
  let pending ← (bs.zip images).mapM fun (b, home) =>
    (source.instsOf b).mapM (copyInst source region home)
  pending.flatten.flatten.forM fun (i, slot) => fillIn source i slot
  return images

/-- Copies blocks within the target; variables are shared with the copies. -/
def within (bs : List BlockId) : Clone (List BlockId) := do
  let source := (← get).target
  modifyCloner fun m => { m with vars := m.vars ++ source.varIds.map fun v => (v, v) }
  blocks source bs

end Clone

end MethodIR
