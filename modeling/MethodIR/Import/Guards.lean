import MethodIR.Import.Leaders
import MethodIR.Import.State

/-!
# Blocks and guards

Creates a block for every segment and a guard for every exception region. Code starts in a block
that nothing jumps to. When two regions start at the same place, the outer guard is in a block of
its own before the block of the inner one.
-/

namespace MethodIR.Import

open Traced

def segmentAt (offset : Nat) : M Nat := do
  let s ← getState
  match Lists.bisect? (fun n => (s.segment n).start) s.segments.size offset with
  | some n => return n
  | none => failAt offset .noBlock

def createSegment (m : Bytecode) (start stop : Nat) : M Unit := do
  let block ← edit (Edit.createBlock none)
  let inRegion := m.regions.any (·.contains start)
  modifyState fun s =>
    { s with segments := s.segments.push { start, stop, block, entryBlock := block, inRegion } }

/-- Creates the blocks of a method. If offset 0 is a leader, a block before it is the entry. -/
def createBlocks (m : Bytecode) (leaders : List Nat) : M Unit := do
  let entry ← if leaders.contains 0 then some <$> edit (Edit.createBlock none) else pure none
  (ranges m.codeSize leaders).forM fun (start, stop) => createSegment m start stop
  if let some entry := entry then
    let first := ((← getState).segment 0).block
    edit (Edit.setJump entry first)
    report (.dedicatedEntry entry first)

/-- Whether a guard belongs to a region inside `r` that ends before it. -/
def isInner (s : State) (r : Bytecode.Region) (guard : InstId) : Bool :=
  (s.guards.lookup guard).any fun inner =>
    r.tryStart ≤ inner.tryStart && inner.tryEnd < r.tryEnd

/-- The block for the guard of a region. If the block at the start of the region has the guard of an
inner one, a new block takes over all that leads there. -/
def guardBlock (r : Bytecode.Region) : M BlockId := do
  let n ← segmentAt r.tryStart
  let s ← getState
  let start := (s.segment n).entryBlock
  if (s.body.guards start).any (isInner s r) then
    let split ← edit do
      let split ← Edit.createBlock (s.body.layout.prev? start)
      (s.body.preds start).forM fun pred => Edit.replaceTarget pred start split
      Edit.setJump split start
      return split
    modifyState fun s => s.modifySegment n fun x => { x with entryBlock := split }
    report (.splitTryStart split start)
    return split
  else return start

/-- The type of the value that a guard gives to its handler, and the type it catches. -/
def guardTypes (r : Bytecode.Region) : Ty × Option Ty :=
  match r.kind with
  | .typed =>
    let caught := r.caught.getD .object
    (caught, some caught)
  | .filtered => (.object, none)
  | .cleanup | .fault => (.void, none)

def passesException (k : GuardKind) : Bool := k = .typed || k = .filtered

/-- Puts an instruction at the end of a block, before its terminator if it has one. -/
def insertBeforeEnd (b : BlockId) (i : InstId) : Edit Unit := do
  match (← get).terminator? b with
  | some term => Edit.insertBefore term i
  | none => Edit.insertLast b i

/-- Makes a guard's value the whole stack at the start of a segment. -/
def seed (guard : InstId) (n : Nat) : M Unit :=
  modifyState fun s => s.modifySegment n fun x =>
    { x with entryStack := some [.value (.inst guard)] }

def createGuard (r : Bytecode.Region) : M Unit := do
  let start ← guardBlock r
  let handlerSegment ← segmentAt r.handlerStart
  let handler := ((← getState).segment handlerSegment).entryBlock
  let filterSegment ← r.filterStart.mapM segmentAt
  let s ← getState
  let filter := filterSegment.map fun n => (s.segment n).entryBlock
  let (ty, caught) := guardTypes r
  let guard ← edit do
    let guard ← Edit.createInst (.guard r.kind handler filter caught) [] ty
    insertBeforeEnd start guard
    return guard
  modifyState fun s => { s with guards := (guard, r) :: s.guards }
  if passesException r.kind then
    seed guard handlerSegment
    filterSegment.forM (seed guard)
  report (.installedGuard guard start handler r.kind)

/-- Stores every argument to its variable at the start of the entry. -/
def copyArguments : M Unit := do
  let s ← getState
  match s.body.entry with
  | none => throw (.violation .noImportedEntry)
  | some entry =>
    let stores ← s.argVars.toList.zipIdx.mapM fun (v, n) => do
      let store ← edit (Edit.createInst (.storeVar v) [.arg ⟨n⟩] .void)
      modifyState (·.noteUse v entry false)
      return store
    stores.reverse.forM fun store => edit (Edit.insertFirst entry store)

end MethodIR.Import
