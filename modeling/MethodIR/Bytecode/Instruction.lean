import MethodIR.Error.Basic

/-!
# Bytecode instructions

An opcode at an offset with its operand. The operand need not be of the form that the opcode asks
for; the size depends on the opcode alone, but for the length of a jump table.
-/

namespace MethodIR.Bytecode

/-- What follows an opcode. -/
inductive Operand where
  | none
  | const (c : Const)
  /-- The offset of a branch target. -/
  | target (offset : Nat)
  /-- A jump table. -/
  | table (offsets : List Nat)
  | slot (n : Nat)
  | entity (e : Entity)
  deriving DecidableEq, Repr, Inhabited

/-- An instruction at its offset. -/
structure Instruction where
  op : Opcode
  offset : Nat
  operand : Operand := .none
  deriving DecidableEq, Repr, Inhabited

namespace Instruction

def sizeOf (op : Opcode) (operand : Operand) : Nat :=
  op.size + op.operandForm.size +
    match op.operandForm, operand with
    | .table, .table offsets => 4 * offsets.length
    | _, _ => 0

def size (i : Instruction) : Nat := sizeOf i.op i.operand

def endOffset (i : Instruction) : Nat := i.offset + i.size

/-- The offset after the instruction, which has to be one of 32 bits. -/
def checkedEnd (i : Instruction) : Except Error Nat :=
  if i.endOffset < wordLimit then .ok i.endOffset else .error .outOfRange

def branchTargets (i : Instruction) : List Nat :=
  match i.operand with
  | .target t => [t]
  | .table ts => ts
  | _ => []

end Instruction

end MethodIR.Bytecode
