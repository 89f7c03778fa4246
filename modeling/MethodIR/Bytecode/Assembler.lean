import MethodIR.Bytecode.Basic

/-!
# Assembling labelled code

A listing names branch targets and region boundaries by labels. The size of an item does not depend
on where labels are, so offsets are known first and labels are resolved against them; a label that is
placed more than once denotes its last place.
-/

namespace MethodIR.Bytecode

/-- A line of a listing. -/
inductive Item where
  | emit (op : Opcode) (operand : Operand)
  /-- A branch to a label. -/
  | branch (op : Opcode) (label : String)
  /-- A jump table of labels. -/
  | switch (labels : List String)
  /-- A label for the offset of the next instruction. -/
  | label (name : String)
  deriving DecidableEq, Repr, Inhabited

namespace Item

def size : Item → Nat
  | emit op operand => Instruction.sizeOf op operand
  | branch op _ => Instruction.sizeOf op (.target 0)
  | switch labels => Instruction.sizeOf .switch (.table (labels.map fun _ => 0))
  | label _ => 0

/-- The instruction of an item at an offset, with its labels replaced by what `resolve` gives. -/
def instruction? (resolve : String → Except Error Nat) (offset : Nat) :
    Item → Except Error (Option Instruction)
  | emit op operand => .ok (some ⟨op, offset, operand⟩)
  | branch op l => do return some ⟨op, offset, .target (← resolve l)⟩
  | switch ls => do return some ⟨.switch, offset, .table (← ls.mapM resolve)⟩
  | label _ => .ok none

end Item

/-- An exception region between labels. -/
structure LabelledRegion where
  kind : GuardKind
  tryStart : String
  tryEnd : String
  handlerStart : String
  handlerEnd : String
  filterStart : Option String := none
  caught : Option Ty := none
  deriving DecidableEq, Repr, Inhabited

def LabelledRegion.resolved (resolve : String → Except Error Nat) (r : LabelledRegion) :
    Except Error Region := do
  let tryStart ← resolve r.tryStart
  let tryEnd ← resolve r.tryEnd
  let handlerStart ← resolve r.handlerStart
  let handlerEnd ← resolve r.handlerEnd
  let filterStart ← r.filterStart.mapM resolve
  return { kind := r.kind, tryStart, tryEnd, handlerStart, handlerEnd, filterStart,
           caught := r.caught }

/-- A method in labelled form. -/
structure Listing where
  name : String := "method"
  declaring : Ty := .object
  sig : Signature
  locals : List Local := []
  items : List Item
  regions : List LabelledRegion := []
  deriving Repr, Inhabited

namespace Listing

/-- Each item of a list with its offset, if the first is at `offset`. -/
def placedFrom (offset : Nat) : List Item → List (Nat × Item)
  | [] => []
  | item :: items => (offset, item) :: placedFrom (offset + item.size) items

def placed (l : Listing) : List (Nat × Item) := placedFrom 0 l.items

def endOffsets (l : Listing) : List Nat := l.placed.map fun (offset, item) => offset + item.size

/-- The index by which instructions refer to each local; it has sixteen bits. -/
def localIndices (l : Listing) : List Nat := (List.range l.locals.length).map (· % 65536)

def placesOf (l : Listing) (name : String) : List Nat :=
  (l.placed.filterMap fun (offset, item) =>
    if item = .label name then some offset else none).reverse

def resolve (l : Listing) (name : String) : Except Error Nat :=
  match l.placesOf name with
  | offset :: _ => .ok offset
  | [] => .error (.undefinedLabel name)

def assemble (l : Listing) : Except Error Bytecode := do
  let code ← l.placed.mapM fun (offset, item) => item.instruction? l.resolve offset
  let regions ← l.regions.mapM (LabelledRegion.resolved l.resolve)
  return { name := l.name, declaring := l.declaring, sig := l.sig, locals := l.locals,
           code := (code.filterMap id).toArray, regions }

end Listing

end MethodIR.Bytecode
