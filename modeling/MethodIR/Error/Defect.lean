import MethodIR.Inst.Kind
import MethodIR.Value

/-!
# Defects of a body

What the verifier can find wrong with a body.
-/

namespace MethodIR

/-- A broken rule of well-formed bodies, with the place where it is broken. -/
inductive Defect where
  | noEntry
  | entryRemoved (b : BlockId)
  | entryHasPreds (b : BlockId) (preds : List BlockId)
  | removedInLayout (b : BlockId)
  | removedAttached (i : InstId) (b : BlockId)
  | otherBlock (i : InstId) (b : BlockId)
  | latePhi (i : InstId) (b : BlockId)
  | earlyTerminator (i : InstId) (kind : Kind) (b : BlockId)
  | noTerminator (b : BlockId)
  | duplicateEdge (a b : BlockId)
  | removedSuccessor (a b : BlockId)
  | missingPred (a b : BlockId)
  | missingSucc (a b : BlockId)
  | targetsDiffer (b : BlockId) (succs targets : List BlockId)
  | phiBlocksDiffer (i : InstId) (b : BlockId) (incoming preds : List BlockId)
  | removedHasOperands (i : InstId)
  | removedIsUsed (i : InstId)
  | useListedTwice (u : Use)
  | staleUse (v : Value) (u : Use)
  | missingUses (slots listed : Nat)
  | looseOperand (i used : InstId)
  | notDominated (i : InstId) (kind : Kind) (b : BlockId) (used : InstId)
  deriving DecidableEq, Repr, Inhabited

def Defect.message : Defect → String
  | noEntry => "method body has no entry block"
  | entryRemoved b => s!"entry block {b.text} was removed"
  | entryHasPreds b ps => s!"entry block {b.text} has predecessors {BlockId.listText ps}"
  | removedInLayout b => s!"removed block {b.text} is still in the layout"
  | removedAttached i b => s!"removed {i.text} is still attached to {b.text}"
  | otherBlock i b => s!"{i.text} in {b.text} records a different block"
  | latePhi i b => s!"phi {i.text} follows a non-phi in {b.text}"
  | earlyTerminator i k b =>
    s!"terminator {i.text} ({k.name}) is not the last instruction of {b.text}"
  | noTerminator b => s!"reachable block {b.text} has no terminator"
  | duplicateEdge a b => s!"duplicate edge {a.text} -> {b.text}"
  | removedSuccessor a b => s!"{a.text} has removed successor {b.text}"
  | missingPred a b => s!"edge {a.text} -> {b.text} is missing its predecessor side"
  | missingSucc a b => s!"edge {a.text} -> {b.text} is missing its successor side"
  | targetsDiffer b ss ts =>
    s!"successors of {b.text} are {BlockId.listText ss} but its instructions target " ++
      BlockId.listText ts
  | phiBlocksDiffer i b inc ps =>
    s!"phi {i.text} in {b.text} has incoming blocks {BlockId.listText inc}, " ++
      s!"predecessors are {BlockId.listText ps}"
  | removedHasOperands i => s!"removed {i.text} still holds operands"
  | removedIsUsed i => s!"removed {i.text} is still used"
  | useListedTwice u => s!"use {u.inst.text}:{u.slot} is listed twice"
  | staleUse v u =>
    s!"use list of {v.text} references {u.inst.text}:{u.slot} which does not hold it"
  | missingUses n m => s!"{n} operand slots reference tracked values but use lists hold {m}"
  | looseOperand i d => s!"{i.text} uses {d.text}, which is not in any block"
  | notDominated i k b d =>
    s!"{i.text} ({k.name}) in {b.text} uses {d.text}, which does not dominate it"

end MethodIR
