import MethodIR.Inst.Kind

/-!
# Refused edits

The reasons for which an edit of a body is refused. A refused edit leaves the body as it was.
-/

namespace MethodIR

/-- Which rule of a body an edit would break. -/
inductive Violation where
  | arity (kind : Kind) (expected actual : Nat)
  | optionalArity (kind : Kind) (actual : Nat)
  | entryHasPreds (b : BlockId)
  | blockHasPreds (b : BlockId) (preds : List BlockId)
  | blockIsEntry (b : BlockId)
  | blockIsGuarded (b : BlockId)
  | wasRemoved (i : InstId)
  | isAttached (i : InstId) (b : BlockId)
  | looseAnchor (i : InstId)
  | hasUses (i : InstId) (kind : Kind) (n : Nat)
  | notTerminator (kind : Kind)
  | noSuchTarget (b target : BlockId)
  | noSuchSlot (i : InstId) (slot size : Nat)
  | replacesItself (i : InstId)
  | notPhi (i : InstId) (kind : Kind)
  | noSuchPhiArg (i : InstId) (n : Nat)
  | noEntry
  | noImportedEntry
  | noCounterpart (a : ArgId)
  deriving DecidableEq, Repr, Inhabited

def Violation.message : Violation → String
  | arity k n m => s!"{k.name} takes {n} operands, got {m}"
  | optionalArity k m => s!"{k.name} takes at most one operand, got {m}"
  | entryHasPreds b => s!"entry block {b.text} must not have predecessors"
  | blockHasPreds b ps => s!"cannot remove {b.text} with predecessors {BlockId.listText ps}"
  | blockIsEntry b => s!"cannot remove entry block {b.text}"
  | blockIsGuarded b => s!"cannot remove {b.text}: still targeted by a guard"
  | wasRemoved i => s!"{i.text} was removed"
  | isAttached i b => s!"{i.text} is already attached to {b.text}"
  | looseAnchor i => s!"anchor {i.text} is not attached to a block"
  | hasUses i k n => s!"cannot remove {i.text} ({k.name}) with {n} remaining uses"
  | notTerminator k => s!"{k.name} is not a terminator"
  | noSuchTarget b t => s!"no instruction of {b.text} targets {t.text}"
  | noSuchSlot i n m => s!"operand slot {n} out of range for {i.text} with {m} operands"
  | replacesItself i => s!"cannot replace {i.text} with itself"
  | notPhi i k => s!"{i.text} is a {k.name}, not a phi"
  | noSuchPhiArg i n => s!"phi {i.text} has no argument {n}"
  | noEntry => "cannot compute dominators without an entry block"
  | noImportedEntry => "import created no entry block"
  | noCounterpart a => s!"argument {a.text} has no counterpart in the target body"

end MethodIR
