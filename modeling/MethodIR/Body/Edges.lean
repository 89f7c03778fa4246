import MethodIR.Body.Uses

/-!
# Blocks, attached instructions and edges

Edges follow the instructions: attaching a terminator or guard connects its block to its targets,
detaching it disconnects those that nothing else in the block names. An edge that goes takes along
what the phis of its target have from it.
-/

namespace MethodIR.Body

def connect (body : Body) (a b : BlockId) : Body :=
  if b ∈ body.succs a then body
  else
    ((body.modifyBlock a fun x => { x with succs := x.succs ++ [b] }).modifyBlock b fun x =>
      { x with preds := x.preds ++ [a] }).bump

def disconnect (body : Body) (a b : BlockId) : Body :=
  if b ∈ body.succs a then
    (((body.modifyBlock a fun x => { x with succs := x.succs.erase b }).modifyBlock b fun x =>
      { x with preds := x.preds.filter (· ≠ a) }).removePhiArgs b a).bump
  else body

/-- Takes an edge away that no instruction of its first block names. -/
def disconnectUnnamed (body : Body) (a b : BlockId) : Body :=
  if b ∈ body.targets a then body else body.disconnect a b

def addInst (body : Body) (kind : Kind) (operands : List Value) (ty : Ty) : Body :=
  let i : InstId := ⟨body.insts.size⟩
  operands.foldl (·.pushOperand i ·) { body with insts := body.insts.push { kind, ty } }

/-- Attaches an instruction to a block whose instructions are `insts` from then on. -/
def attach (body : Body) (i : InstId) (b : BlockId) (insts : List InstId) : Body :=
  let body := body.modifyInst i fun x => { x with block := some b }
  let body := body.modifyBlock b fun x => { x with insts }
  (body.kind i).successors.foldl (·.connect b ·) body

def detach (body : Body) (i : InstId) : Body :=
  match (body.inst i).block with
  | none => body
  | some b =>
    let body := body.modifyInst i fun x => { x with block := none }
    let body := body.modifyBlock b fun x => { x with insts := x.insts.erase i }
    (body.kind i).successors.foldl (·.disconnectUnnamed b ·) body

def markRemoved (body : Body) (i : InstId) : Body :=
  body.modifyInst i fun x => { x with isRemoved := true }

/-- Removes the operands of a detached instruction; what still uses it uses an undefined value
instead. -/
def discard (body : Body) (i : InstId) : Body :=
  let body := body.dropOperands i
  (body.replaceUses (.inst i) (.undef (body.inst i).ty)).markRemoved i

def destroy (body : Body) (i : InstId) : Body := (body.detach i).discard i

/-- Adds a block after `place`, or at the end. The first block is the entry. -/
def addBlock (body : Body) (place : Option BlockId) : Body :=
  let b : BlockId := ⟨body.blocks.size⟩
  { body with
    blocks := body.blocks.push {}
    layout := match place with
      | some a => body.layout.insertAfter a b
      | none => body.layout.append b
    entry := body.entry.or (some b)
    cfgVersion := body.cfgVersion + 1 }

/-- Takes a block out of the layout with all its instructions and edges. -/
def eraseBlock (body : Body) (b : BlockId) : Body :=
  let insts := body.instsOf b
  let body := insts.reverse.foldl (·.detach ·) body
  let body := insts.foldl (·.discard ·) body
  let body := (body.succs b).foldl (·.disconnect b ·) body
  ({ body with layout := body.layout.remove b }.modifyBlock b fun x =>
    { x with isRemoved := true }).bump

/-- Whether a guard of a laid out block other than `b` names `b`. -/
def isGuarded (body : Body) (b : BlockId) : Bool :=
  body.order.any fun a =>
    a ≠ b && (body.guards a).any fun g => b ∈ (body.kind g).successors

/-- Puts `new` for `old` in the terminators and guards of a block. -/
def retarget (body : Body) (b old new : BlockId) : Body :=
  let branching := (body.instsOf b).filter fun i =>
    (body.kind i).isTerminator || (body.kind i).isGuard
  let body := branching.foldl
    (fun body i => body.modifyInst i fun x => { x with kind := x.kind.retarget old new }) body
  (body.connect b new).disconnectUnnamed b old

end MethodIR.Body
