import MethodIR.Bytecode.Action
import MethodIR.Import.State

/-!
# Evaluation stack

Code is read against a stack of values: an instruction takes its operands from the stack and leaves
the value of what it adds to the block there.
-/

namespace MethodIR.Import

open Traced
open Bytecode (Storage)

def push (v : Value) : M Unit :=
  modifyState (·.modifyCursor fun c => { c with stack := v :: c.stack })

def setStack (stack : List Value) : M Unit :=
  modifyState (·.modifyCursor fun c => { c with stack })

def pop : M Value := do
  match (← getState).cursor.stack with
  | v :: stack => setStack stack; return v
  | [] => fail .underflow

/-- Pops `n` values and gives them in the order in which they were pushed. -/
def popMany (n : Nat) : M (List Value) := do
  let stack := (← getState).cursor.stack
  if stack.length < n then fail (.underflowOf n stack.length)
  setStack (stack.drop n)
  return (stack.take n).reverse

/-! ## Instructions -/

def emit (kind : Kind) (operands : List Value) (ty : Ty) : M Value := do
  let block := (← getState).cursor.block
  edit do
    let i ← Edit.createInst kind operands ty
    Edit.insertLast block i
    return .inst i

def emitVoid (kind : Kind) (operands : List Value) : M Unit := discard <| emit kind operands .void

def emitPush (kind : Kind) (operands : List Value) (ty : Ty) : M Unit := do
  push (← emit kind operands ty)

/-- Adds an instruction and pushes its value unless it is void. -/
def emitResult (kind : Kind) (operands : List Value) (ty : Ty) : M Unit := do
  let v ← emit kind operands ty
  unless ty.isVoid do push v

def valueTy (v : Value) : M Ty := edit (Edit.valueTy v)

def noteUse (v : VarId) (isStore : Bool) : M Unit :=
  modifyState fun s => s.noteUse v s.cursor.block (isStore && s.cursor.inRegion)

def loadVar (v : VarId) : M Value := do
  noteUse v false
  emit (.loadVar v) [] (← edit (Edit.var v)).ty

def storeVar (v : VarId) (value : Value) : M Unit := do
  noteUse v true
  emitVoid (.storeVar v) [value]

/-- Pushes the address of a variable, which is exposed from then on. -/
def varAddr (v : VarId) : M Unit := do
  noteUse v false
  edit <| modify (·.modifyVar v fun x => { x with isExposed := true })
  emitPush (.varAddr v) [] (.byRef (← edit (Edit.var v)).ty)

def frameVar (s : Storage) : M VarId := do
  match s with
  | .argument n =>
    match (← getState).argVars[n]? with
    | some v => return v
    | none => fail (.noArgument n)
  | .local n =>
    match (← getState).localVars[n]? with
    | some v => return v
    | none => fail (.noLocal n)

end MethodIR.Import
