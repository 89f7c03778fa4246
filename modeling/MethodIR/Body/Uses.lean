import MethodIR.Body.Basic

/-!
# Operands and uses

Changing an operand moves a use from the list of one value to the front of the list of another.
-/

namespace MethodIR.Body

def addUse (body : Body) (v : Value) (u : Use) : Body :=
  match v with
  | .const _ | .undef _ => body
  | .arg a => body.modifyArg a fun x => { x with uses := u :: x.uses }
  | .inst i => body.modifyInst i fun x => { x with uses := u :: x.uses }

def dropUse (body : Body) (v : Value) (u : Use) : Body :=
  match v with
  | .const _ | .undef _ => body
  | .arg a => body.modifyArg a fun x => { x with uses := x.uses.erase u }
  | .inst i => body.modifyInst i fun x => { x with uses := x.uses.erase u }

/-- The operands of an instruction, each with the use it makes. -/
def slots (body : Body) (i : InstId) : List (Value × Use) :=
  (body.inst i).operands.mapIdx fun n v => (v, ⟨i, n⟩)

def dropUses (body : Body) (slots : List (Value × Use)) : Body :=
  slots.foldl (fun body (v, u) => body.dropUse v u) body

def addUses (body : Body) (slots : List (Value × Use)) : Body :=
  slots.foldl (fun body (v, u) => body.addUse v u) body

def pushOperand (body : Body) (i : InstId) (v : Value) : Body :=
  let u : Use := ⟨i, (body.inst i).operands.length⟩
  (body.modifyInst i fun x => { x with operands := x.operands ++ [v] }).addUse v u

/-- Takes all operands away, and with them the blocks of a phi. -/
def dropOperands (body : Body) (i : InstId) : Body :=
  (body.dropUses (body.slots i)).modifyInst i fun x =>
    { x with
      operands := []
      kind := match x.kind with
        | .phi _ => .phi []
        | k => k }

def moveUse (body : Body) (old new : Value) (u : Use) : Body :=
  ((body.dropUse old u).modifyInst u.inst fun x =>
    { x with operands := x.operands.set u.slot new }).addUse new u

def replaceUses (body : Body) (old new : Value) : Body :=
  if old = new then body else (body.uses old).foldl (·.moveUse old new ·) body

/-- Takes the `n`-th argument away from a phi. The uses of the later arguments are made anew, since
each moves down by one slot. -/
def removePhiSlot (body : Body) (i : InstId) (n : Nat) : Body :=
  let body := body.dropUses ((body.slots i).drop n)
  let body := body.modifyInst i fun x =>
    { x with
      operands := x.operands.eraseIdx n
      kind := match x.kind with
        | .phi blocks => .phi (blocks.eraseIdx n)
        | k => k }
  body.addUses ((body.slots i).drop n)

def phiSlot? (body : Body) (i : InstId) (b : BlockId) : Option Nat :=
  match body.kind i with
  | .phi blocks => blocks.idxOf? b
  | _ => none

/-- Takes away the arguments of a phi that come from a block, the first one `n` times. -/
def removePhiSlots (body : Body) (i : InstId) (b : BlockId) : Nat → Body
  | 0 => body
  | n + 1 =>
    match body.phiSlot? i b with
    | some slot => (body.removePhiSlot i slot).removePhiSlots i b n
    | none => body

def removePhiArgs (body : Body) (target b : BlockId) : Body :=
  (body.phis target).foldl (fun body i => body.removePhiSlots i b (body.kind i).blocks.length) body

end MethodIR.Body
