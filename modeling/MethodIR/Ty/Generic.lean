import MethodIR.Ty.Basic

/-!
# Generic arguments

A context gives arguments for the parameters of a generic type and of a generic method.
Specializing replaces the parameters that have an argument and keeps the others, so that code can
stay open under a partial context.
-/

namespace MethodIR

/-- Arguments for type parameters and for method parameters. -/
structure GenericContext where
  typeArgs : List Ty := []
  methodArgs : List Ty := []
  deriving DecidableEq, Repr, Inhabited

namespace GenericContext

def isEmpty (ctx : GenericContext) : Bool := ctx.typeArgs.isEmpty && ctx.methodArgs.isEmpty

def ofTy : Ty → GenericContext
  | .applied _ args => { typeArgs := args }
  | _ => {}

end GenericContext

namespace Ty

mutual

/-- Puts the arguments of `ctx` in place of the parameters of a type. -/
def specialize (ctx : GenericContext) : Ty → Ty
  | .prim p => .prim p
  | .named d => .named d
  | .applied d args => .applied d (specializeAll ctx args)
  | .array e => .array (specialize ctx e)
  | .pointer e => .pointer (specialize ctx e)
  | .byRef e => .byRef (specialize ctx e)
  | .typeParam n => ctx.typeArgs[n]?.getD (.typeParam n)
  | .methodParam n => ctx.methodArgs[n]?.getD (.methodParam n)

def specializeAll (ctx : GenericContext) : List Ty → List Ty
  | [] => []
  | t :: ts => specialize ctx t :: specializeAll ctx ts

end

mutual

def isOpen : Ty → Bool
  | .prim _ | .named _ => false
  | .applied _ args => anyOpen args
  | .array e | .pointer e | .byRef e => isOpen e
  | .typeParam _ | .methodParam _ => true

def anyOpen : List Ty → Bool
  | [] => false
  | t :: ts => isOpen t || anyOpen ts

end

theorem specializeAll_eq_map (ctx : GenericContext) (ts : List Ty) :
    specializeAll ctx ts = ts.map (specialize ctx) := by
  induction ts with
  | nil => rfl
  | cons t ts ih => simp [specializeAll, ih]

theorem anyOpen_eq_any (ts : List Ty) : anyOpen ts = ts.any isOpen := by
  induction ts with
  | nil => rfl
  | cons t ts ih => simp [anyOpen, ih]

end Ty

end MethodIR
