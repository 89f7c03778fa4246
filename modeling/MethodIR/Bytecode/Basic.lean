import MethodIR.Bytecode.Instruction

/-!
# Bytecode of a method

The instructions of a method with its locals and its exception regions. A region protects a range
of offsets by a handler, and a filter may stand right before the handler.
-/

namespace MethodIR

namespace Bytecode

/-- A range of offsets and what is run when it is left by an exception. All ends are exclusive. -/
structure Region where
  kind : GuardKind
  tryStart : Nat
  tryEnd : Nat
  handlerStart : Nat
  handlerEnd : Nat
  filterStart : Option Nat := none
  caught : Option Ty := none
  deriving DecidableEq, Repr, Inhabited

namespace Region

def tryContains (r : Region) (offset : Nat) : Bool := r.tryStart ≤ offset && offset < r.tryEnd

/-- Whether the handler or the filter before it contains an offset. -/
def handlerContains (r : Region) (offset : Nat) : Bool :=
  r.filterStart.any (fun start => start ≤ offset && offset < r.handlerStart) ||
    (r.handlerStart ≤ offset && offset < r.handlerEnd)

def contains (r : Region) (offset : Nat) : Bool :=
  r.tryContains offset || r.handlerContains offset

def bounds (r : Region) : List Nat :=
  [r.tryStart, r.tryEnd, r.handlerStart, r.handlerEnd] ++ r.filterStart.toList

end Region

/-- A declared local variable. -/
structure Local where
  ty : Ty
  isPinned : Bool := false
  deriving DecidableEq, Repr, Inhabited

end Bytecode

/-- A method as bytecode. -/
structure Bytecode where
  name : String
  declaring : Ty
  sig : Signature
  locals : List Bytecode.Local := []
  code : Array Bytecode.Instruction
  regions : List Bytecode.Region := []
  deriving Repr, Inhabited

namespace Bytecode

def codeSize (m : Bytecode) : Nat := (m.code.back?.map Instruction.endOffset).getD 0

def ends (m : Bytecode) : Except Error (List Nat) := m.code.toList.mapM Instruction.checkedEnd

/-- The offset after the last instruction, which has to be one of 32 bits. -/
def checkedSize (m : Bytecode) : Except Error Nat :=
  match m.code.back? with
  | some i => i.checkedEnd
  | none => .ok 0

def argTypes (m : Bytecode) : List Ty :=
  if m.sig.hasThis then receiverTy m.declaring :: m.sig.params else m.sig.params

end Bytecode

end MethodIR
