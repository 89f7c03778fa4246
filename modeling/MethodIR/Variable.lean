import MethodIR.Ty.Basic

/-!
# Variables

Storage slots of a body before its variables are turned into values.
-/

namespace MethodIR

namespace Variable

/-- What a variable stands for in the bytecode. -/
inductive Origin where
  /-- The copy of an argument; the receiver is argument 0. -/
  | argument (n : Nat)
  | local (n : Nat)
  /-- A place of the evaluation stack, counted from the bottom. -/
  | stack (n : Nat)
  deriving DecidableEq, Repr, Inhabited

def Origin.text : Origin → String
  | .argument n => "arg" ++ toString n
  | .local n => "loc" ++ toString n
  | .stack n => "stk" ++ toString n

end Variable

/-- A storage slot of a body. -/
structure Variable where
  ty : Ty
  origin : Variable.Origin
  isPinned : Bool := false
  /-- The variable may be reached through memory: its address was taken, or it is written inside an
  exception region and read elsewhere. -/
  isExposed : Bool := false
  deriving DecidableEq, Repr, Inhabited

/-- Whether the loads and stores of a variable may be replaced by values. -/
def Variable.canPromote (v : Variable) : Bool := !v.isPinned && !v.isExposed

end MethodIR
