import MethodIR.Body.Edges
import MethodIR.Error.Basic

/-!
# Edits

The operations on a body that check what they are given. An edit that breaks a rule of bodies is
refused and changes nothing; one that names an instruction, block or value the body does not have is
out of range.
-/

namespace MethodIR

abbrev Edit := EStateM Error Body

namespace Edit

def refuse {α : Type} (v : Violation) : Edit α := throw (.violation v)

def need (exists? : Bool) : Edit Unit := if exists? then pure () else throw .outOfRange

def inst (i : InstId) : Edit Inst := do
  let body ← get
  need (body.hasInst i)
  return body.inst i

def block (b : BlockId) : Edit Block := do
  let body ← get
  need (body.hasBlock b)
  return body.block b

def var (v : VarId) : Edit Variable := do
  let body ← get
  need (body.hasVar v)
  return body.var v

def valueTy (v : Value) : Edit Ty := do
  let body ← get
  need (body.hasValue v)
  return body.valueTy v

def uses (v : Value) : Edit (List Use) := do
  let body ← get
  need (body.hasValue v)
  return body.uses v

def createVar (ty : Ty) (origin : Variable.Origin) : Edit VarId :=
  modifyGet (·.addVar ty origin)

def setVar (v : VarId) (decl : Variable) : Edit Unit := do
  discard <| var v
  modify (·.modifyVar v fun _ => decl)

def arityViolation? (kind : Kind) (n : Nat) : Option Violation :=
  match kind.arity? with
  | some arity => if arity = n then none else some (.arity kind arity n)
  | none => if n ≤ 1 then none else some (.optionalArity kind n)

/-- Creates an instruction that is attached to no block. It may be its own operand. -/
def createInst (kind : Kind) (operands : List Value) (ty : Ty) : Edit InstId := do
  if let some v := arityViolation? kind operands.length then refuse v
  let body ← get
  let i : InstId := ⟨body.insts.size⟩
  need (operands.all fun v => v == .inst i || body.hasValue v)
  set (body.addInst kind operands ty)
  return i

def createBlock (place : Option BlockId) : Edit BlockId := do
  let body ← get
  let b : BlockId := ⟨body.blocks.size⟩
  need (place.all fun a => a == b || body.hasBlock a)
  set (body.addBlock place)
  return b

def setEntry (b : BlockId) : Edit Unit := do
  unless (← block b).preds.isEmpty do refuse (.entryHasPreds b)
  modify fun body => { body with entry := some b }.bump

def removeBlock (b : BlockId) : Edit Unit := do
  let preds := (← block b).preds
  unless preds.isEmpty do refuse (.blockHasPreds b preds)
  let body ← get
  if body.entry = some b then refuse (.blockIsEntry b)
  if body.isGuarded b then refuse (.blockIsGuarded b)
  modify (·.eraseBlock b)

def connect (a b : BlockId) : Edit Unit := do
  let succs := (← block a).succs
  need (b ∈ succs || (← get).hasBlock b)
  modify (·.connect a b)

def disconnect (a b : BlockId) : Edit Unit := do
  discard <| block a
  modify (·.disconnect a b)

def needDetached (i : InstId) : Edit Unit := do
  let x ← inst i
  if x.isRemoved then refuse (.wasRemoved i)
  if let some b := x.block then refuse (.isAttached i b)

/-- Attaches a detached instruction to a block, given the block's instructions from then on. -/
def attach (i : InstId) (b : BlockId) (insts : List InstId → List InstId) : Edit Unit := do
  let x ← block b
  let body ← get
  need ((body.kind i).successors.all body.hasBlock)
  set (body.attach i b (insts x.insts))

def insertFirst (b : BlockId) (i : InstId) : Edit Unit := do
  needDetached i
  attach i b (i :: ·)

def insertLast (b : BlockId) (i : InstId) : Edit Unit := do
  needDetached i
  attach i b (· ++ [i])

/-- The block of an instruction next to which another one is put. -/
def anchorBlock (anchor : InstId) : Edit BlockId := do
  match (← inst anchor).block with
  | some b => return b
  | none => refuse (.looseAnchor anchor)

def insertBefore (anchor i : InstId) : Edit Unit := do
  needDetached i
  attach i (← anchorBlock anchor) fun insts =>
    insts.takeWhile (· ≠ anchor) ++ i :: insts.dropWhile (· ≠ anchor)

def insertAfter (anchor i : InstId) : Edit Unit := do
  needDetached i
  attach i (← anchorBlock anchor) fun insts =>
    insts.takeWhile (· ≠ anchor) ++ anchor :: i :: (insts.dropWhile (· ≠ anchor)).drop 1

/-- Creates a phi without arguments after the phis of a block. -/
def insertPhi (b : BlockId) (ty : Ty) : Edit InstId := do
  let phi ← createInst (.phi []) [] ty
  discard <| block b
  match ((← get).phis b).getLast? with
  | some last => insertAfter last phi
  | none => insertFirst b phi
  return phi

def detach (i : InstId) : Edit Unit := do
  if (← inst i).isRemoved then refuse (.wasRemoved i)
  modify (·.detach i)

def removeInst (i : InstId) : Edit Unit := do
  let x ← inst i
  unless x.uses.isEmpty do refuse (.hasUses i x.kind x.uses.length)
  modify fun body => ((body.detach i).dropOperands i).markRemoved i

/-- Removes an instruction; what uses it uses an undefined value instead. -/
def destroyInst (i : InstId) : Edit Unit := do
  discard <| inst i
  modify (·.destroy i)

/-- Makes an instruction the terminator of a block, in place of the one it has. -/
def setTerminator (b : BlockId) (i : InstId) : Edit Unit := do
  let kind := (← inst i).kind
  unless kind.isTerminator do refuse (.notTerminator kind)
  discard <| block b
  let old := (← get).terminator? b
  insertLast b i
  if let some old := old then modify (·.destroy old)

def setJump (b target : BlockId) : Edit Unit := do
  let jump ← createInst (.jump target) [] .void
  setTerminator b jump

/-- Puts `new` for `old` in the terminators and guards of a block. -/
def replaceTarget (b old new : BlockId) : Edit Unit := do
  let x ← block b
  let body ← get
  unless old ∈ body.targets b do refuse (.noSuchTarget b old)
  need (new ∈ x.succs || body.hasBlock new)
  modify (·.retarget b old new)

def setOperand (i : InstId) (slot : Nat) (v : Value) : Edit Unit := do
  let operands := (← inst i).operands
  match operands[slot]? with
  | none => refuse (.noSuchSlot i slot operands.length)
  | some old =>
    if old ≠ v then
      need ((← get).hasValue v)
      modify (·.moveUse old v ⟨i, slot⟩)

def replaceUses (v w : Value) : Edit Nat := do
  if v = w then return 0
  let n := (← uses v).length
  need (n = 0 || (← get).hasValue w)
  modify (·.replaceUses v w)
  return n

def replaceWith (i : InstId) (v : Value) : Edit Unit := do
  if v = .inst i then refuse (.replacesItself i)
  discard <| replaceUses (.inst i) v
  removeInst i

def needPhi (i : InstId) : Edit (List Value) := do
  let x ← inst i
  match x.kind with
  | .phi _ => return x.operands
  | kind => refuse (.notPhi i kind)

def addPhiArg (i : InstId) (b : BlockId) (v : Value) : Edit Unit := do
  discard <| needPhi i
  need ((← get).hasValue v)
  modify fun body =>
    (body.modifyInst i fun x => { x with kind := .phi (x.kind.blocks ++ [b]) }).pushOperand i v

def removePhiArg (i : InstId) (n : Nat) : Edit Unit := do
  let operands ← needPhi i
  unless n < operands.length do refuse (.noSuchPhiArg i n)
  modify (·.removePhiSlot i n)

end Edit

end MethodIR
