import MethodIR.Import.Guards
import MethodIR.Import.Stack

/-!
# Ends of blocks

What is on the stack at the end of a block is stored to variables, which its successors load at their
start. The first block that leads to a successor decides on the variables.
-/

namespace MethodIR.Import

open Traced

def fallThrough : M Nat := do
  let s ← getState
  let next := s.cursor.index + 1
  if next < s.segments.size then return next else fail .fallsOff

/-- The variables in which a segment expects the stack, if it is known. -/
def expected? (n : Nat) : M (Option (List VarId)) := do
  let s ← getState
  match (s.segment n).entryStack with
  | none => return none
  | some slots =>
    if slots.length ≠ s.cursor.stack.length then
      fail (.heightMismatch s.cursor.stack.length slots.length (s.segment n).start)
    some <$> slots.mapM fun
      | .var v => pure v
      | .value _ => fail .intoHandler

/-- New variables for all that is on the stack, bottom first. -/
def freshVars : M (List VarId) := do
  (← getState).cursor.stack.reverse.zipIdx.mapM fun (v, depth) => do
    let ty ← valueTy v
    edit (Edit.createVar ty (.stack depth))

/-- The variables for the stack of a segment. One that expects nothing yet takes the shared new ones. -/
def slotsFor (fresh : Option (List VarId)) (n : Nat) : M (List VarId × Option (List VarId)) := do
  match ← expected? n with
  | some vars => pure (vars, fresh)
  | none => do
    let vars ← match fresh with
      | some vars => pure vars
      | none => freshVars
    modifyState fun s => s.modifySegment n fun x =>
      { x with entryStack := some (vars.map .var) }
    pure (vars, some vars)

/-- Stores the stack for one segment, unless its variables have been written. -/
def spillFor (fresh : Option (List VarId)) (written : List (List VarId)) (n : Nat) :
    M (Option (List VarId) × List (List VarId)) := do
  let (vars, fresh) ← slotsFor fresh n
  if vars ∈ written then pure (fresh, written)
  else do
    let stack := (← getState).cursor.stack.reverse
    (stack.zip vars).forM fun (value, v) => storeVar v value
    pure (fresh, vars :: written)

/-- Stores the stack where the successors expect it. Those that expect nothing yet share new
variables, and no variables are stored to twice. -/
def spillTo (fresh : Option (List VarId)) (written : List (List VarId)) : List Nat → M Unit
  | [] => pure ()
  | n :: rest => do
    let r ← spillFor fresh written n
    spillTo r.1 r.2 rest

def spill (succs : List Nat) : M Unit := do
  spillTo none [] succs
  setStack []

/-- The block to which control is passed to get to a segment. -/
def entryBlock (n : Nat) : M BlockId := do return ((← getState).segment n).entryBlock

def passTo (kind : BlockId → Kind) (n : Nat) : M Unit := do
  spill [n]
  emitVoid (kind (← entryBlock n)) []

def branchTarget (op : Opcode) : Option Nat → M Nat
  | some t => pure t
  | none => fail (.missingOperand op .target)

def branchOn (condition : Value) (target : Nat) (isNegated : Bool) : M Unit := do
  let taken ← segmentAt target
  let next ← fallThrough
  spill [taken, next]
  let taken ← entryBlock taken
  let next ← entryBlock next
  emitVoid (if isNegated then .branch next taken else .branch taken next) [condition]

end MethodIR.Import
