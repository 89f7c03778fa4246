import MethodIR.Body.Edit

/-!
# Operations as data

The edits of a body as a type, so that a history of edits can be written down and run.
-/

namespace MethodIR

/-- An edit with its arguments. -/
inductive Op where
  | createVar (ty : Ty) (origin : Variable.Origin)
  | setVar (v : VarId) (decl : Variable)
  | createBlock (place : Option BlockId)
  | createInst (kind : Kind) (operands : List Value) (ty : Ty)
  | insertFirst (b : BlockId) (i : InstId)
  | insertLast (b : BlockId) (i : InstId)
  | insertBefore (anchor i : InstId)
  | insertAfter (anchor i : InstId)
  | insertPhi (b : BlockId) (ty : Ty)
  | addPhiArg (i : InstId) (b : BlockId) (v : Value)
  | removePhiArg (i : InstId) (n : Nat)
  | detach (i : InstId)
  | removeInst (i : InstId)
  | destroyInst (i : InstId)
  | setTerminator (b : BlockId) (i : InstId)
  | setJump (b target : BlockId)
  | replaceTarget (b old new : BlockId)
  | connect (a b : BlockId)
  | disconnect (a b : BlockId)
  | setEntry (b : BlockId)
  | removeBlock (b : BlockId)
  | setOperand (i : InstId) (slot : Nat) (v : Value)
  | replaceUses (v w : Value)
  | replaceWith (i : InstId) (v : Value)
  deriving DecidableEq, Repr, Inhabited

namespace Op

/-- What an edit gives back. -/
inductive Outcome where
  | done
  | var (v : VarId)
  | block (b : BlockId)
  | inst (i : InstId)
  | count (n : Nat)
  deriving DecidableEq, Repr, Inhabited

def run : Op → Edit Outcome
  | createVar ty origin => .var <$> Edit.createVar ty origin
  | setVar v decl => do Edit.setVar v decl; return .done
  | createBlock place => .block <$> Edit.createBlock place
  | createInst kind operands ty => .inst <$> Edit.createInst kind operands ty
  | insertFirst b i => do Edit.insertFirst b i; return .done
  | insertLast b i => do Edit.insertLast b i; return .done
  | insertBefore a i => do Edit.insertBefore a i; return .done
  | insertAfter a i => do Edit.insertAfter a i; return .done
  | insertPhi b ty => .inst <$> Edit.insertPhi b ty
  | addPhiArg i b v => do Edit.addPhiArg i b v; return .done
  | removePhiArg i n => do Edit.removePhiArg i n; return .done
  | detach i => do Edit.detach i; return .done
  | removeInst i => do Edit.removeInst i; return .done
  | destroyInst i => do Edit.destroyInst i; return .done
  | setTerminator b i => do Edit.setTerminator b i; return .done
  | setJump b t => do Edit.setJump b t; return .done
  | replaceTarget b old new => do Edit.replaceTarget b old new; return .done
  | connect a b => do Edit.connect a b; return .done
  | disconnect a b => do Edit.disconnect a b; return .done
  | setEntry b => do Edit.setEntry b; return .done
  | removeBlock b => do Edit.removeBlock b; return .done
  | setOperand i n v => do Edit.setOperand i n v; return .done
  | replaceUses v w => .count <$> Edit.replaceUses v w
  | replaceWith i v => do Edit.replaceWith i v; return .done

/-- The body after an edit, whether it was refused or not; `none` if it was out of range. -/
def after? (op : Op) (body : Body) : Option Body :=
  match op.run body with
  | .ok _ body => some body
  | .error .outOfRange _ => none
  | .error _ body => some body

/-- The body after a history of edits none of which was out of range. -/
def afterAll? (ops : List Op) (body : Body) : Option Body :=
  ops.foldlM (fun body op => op.after? body) body

end Op

end MethodIR
