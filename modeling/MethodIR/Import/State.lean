import MethodIR.Bytecode.Basic
import MethodIR.Trace

/-!
# State of an import

The body in the making, the range of code that each block stands for with what it expects on the
evaluation stack, and how variables have been used so far.
-/

namespace MethodIR.Import

/-- What a block finds at a place of the evaluation stack. -/
inductive EntrySlot where
  /-- A value that is there whenever the block is entered. -/
  | value (v : Value)
  /-- What the predecessors have stored to a variable. -/
  | var (v : VarId)
  deriving DecidableEq, Repr, Inhabited

/-- A range of code that becomes a block. -/
structure Segment where
  start : Nat
  stop : Nat
  /-- The block with the code of the range. -/
  block : BlockId
  /-- The block to which others pass control to get there. -/
  entryBlock : BlockId
  /-- The evaluation stack at the start, bottom first, if it is known. -/
  entryStack : Option (List EntrySlot) := none
  /-- Whether it starts inside an exception region. -/
  inRegion : Bool
  deriving Repr, Inhabited

/-- How a variable has been used. -/
structure Usage where
  /-- The first block that used it. -/
  block : Option BlockId := none
  isShared : Bool := false
  isStoredInRegion : Bool := false
  deriving DecidableEq, Repr, Inhabited

/-- Modifiers that wait for the next instruction. -/
structure Modifiers where
  constrained : Option Ty := none
  flags : MemoryFlags := {}
  isReadonly : Bool := false
  deriving DecidableEq, Repr, Inhabited

/-- The place up to which the code is lowered. -/
structure Cursor where
  /-- The number of the segment. -/
  index : Nat := 0
  block : BlockId := ⟨0⟩
  inRegion : Bool := false
  offset : Nat := 0
  /-- The evaluation stack, top first. -/
  stack : List Value := []
  modifiers : Modifiers := {}
  deriving Repr, Inhabited

/-- The state of an import. -/
structure State where
  body : Body
  /-- The segments by ascending start. -/
  segments : Array Segment := #[]
  argVars : Array VarId := #[]
  localVars : Array VarId := #[]
  /-- By variable index. -/
  usage : Array Usage := #[]
  /-- The guards with their regions. -/
  guards : List (InstId × Bytecode.Region) := []
  cursor : Cursor := {}
  deriving Repr, Inhabited

abbrev M := Traced State

namespace State

/-- The state before anything is imported: there is a variable for every argument and every local. -/
def ofMethod (m : Bytecode) : State :=
  let args := m.argTypes.zipIdx.map fun (ty, n) => ({ ty, origin := .argument n } : Variable)
  let locals := m.locals.zipIdx.map fun (l, n) =>
    ({ ty := l.ty, origin := .local n, isPinned := l.isPinned } : Variable)
  { body := { Body.empty m.argTypes m.sig.ret with vars := (args ++ locals).toArray }
    argVars := (Array.range args.length).map VarId.mk
    localVars := (Array.range locals.length).map fun n => ⟨args.length + n⟩ }

def segment (s : State) (n : Nat) : Segment := s.segments.getD n default

def modifySegment (s : State) (n : Nat) (f : Segment → Segment) : State :=
  { s with segments := s.segments.modify n f }

def modifyCursor (s : State) (f : Cursor → Cursor) : State := { s with cursor := f s.cursor }

def noteUse (s : State) (v : VarId) (block : BlockId) (storesInRegion : Bool) : State :=
  let missing := s.body.vars.size - s.usage.size
  let usage := if s.usage.size ≤ v.index
    then s.usage ++ Array.replicate missing ({} : Usage) else s.usage
  { s with
    usage := usage.modify v.index fun u =>
      { block := u.block.or (some block)
        isShared := u.isShared || u.block.any (· ≠ block)
        isStoredInRegion := u.isStoredInRegion || storesInRegion } }

end State

open Traced

def edit {α : Type} (x : Edit α) : M α :=
  zoom State.body (fun body s => { s with body }) (ofEdit x)

def failAt {α : Type} (offset : Nat) (cause : Malformation) : M α :=
  throw (.invalidProgram offset cause)

def fail {α : Type} (cause : Malformation) : M α := do
  failAt (← getState).cursor.offset cause

end MethodIR.Import
