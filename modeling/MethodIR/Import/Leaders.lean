import MethodIR.Bytecode.Basic
import MethodIR.Lists.Ascending
import MethodIR.Lists.Bisection

/-!
# Leaders

The offsets at which a block has to start: targets of branches, what follows an instruction that ends
its block, and the bounds of exception regions. All of them have to be offsets of instructions, or the
end of the code.
-/

namespace MethodIR

/-- The index of the instruction at an offset; the end of the code is after the last one. -/
def Bytecode.indexAt (m : Bytecode) (offset : Nat) : Except Error Nat :=
  match Lists.bisect? (fun n => (m.code.getD n default).offset) m.code.size offset with
  | some n => .ok n
  | none =>
    if m.codeSize ≤ offset then .ok m.code.size
    else .error (.invalidProgram offset .offBoundary)

namespace Import

def mark (codeSize offset : Nat) (leaders : List Nat) (target : Nat) : Except Error (List Nat) :=
  if codeSize < target then .error (.invalidProgram offset (.pastEnd target))
  else .ok (Lists.insertAscending target leaders)

/-- Adds what an instruction that ends its block asks for: its targets and what follows it. -/
def markInstruction (codeSize : Nat) (leaders : List Nat) (i : Bytecode.Instruction) :
    Except Error (List Nat) :=
  if i.op.endsBlock then do
    let leaders ← i.branchTargets.foldlM (mark codeSize i.offset) leaders
    mark codeSize i.offset leaders (← i.checkedEnd)
  else .ok leaders

def markRegion (codeSize : Nat) (leaders : List Nat) (r : Bytecode.Region) :
    Except Error (List Nat) :=
  if r.tryEnd ≤ r.tryStart || r.handlerEnd ≤ r.handlerStart then
    .error (.invalidProgram r.tryStart .emptyRange)
  else r.bounds.foldlM (mark codeSize r.tryStart) leaders

def leaders (m : Bytecode) : Except Error (List Nat) := do
  let size ← m.checkedSize
  let found ← m.code.toList.foldlM (markInstruction size) []
  let found ← m.regions.foldlM (markRegion size) found
  found.forM fun offset => discard (m.indexAt offset)
  return found

/-- The ranges between leaders, with the ends of the code as leaders. -/
def ranges (codeSize : Nat) (leaders : List Nat) : List (Nat × Nat) :=
  let offsets := Lists.insertAscending codeSize (Lists.insertAscending 0 leaders)
  offsets.zip offsets.tail

end Import

end MethodIR
