import MethodIR.Import.Basic
import MethodIR.Promotion.Basic
import MethodIR.Verify

/-!
# Compilation

From bytecode to a checked body: import, promotion of variables, verification. Methods are compiled
independently of each other.
-/

namespace MethodIR

/-- How methods are compiled. -/
structure CompileOptions where
  promoteVariables : Bool := true
  verify : Bool := true
  /-- Whether the methods of a batch may be compiled at the same time. Results do not depend on
  it. -/
  parallel : Bool := true
  warnOnUndefined : Bool := true
  deriving DecidableEq, Repr, Inhabited

namespace CompileOptions

def promotion (o : CompileOptions) : Promotion.Options := { warnOnUndefined := o.warnOnUndefined }

end CompileOptions

open Traced

def Body.promoted {σ : Type} (body : Body) (options : Promotion.Options) : Traced σ Body :=
  Traced.on ({ body } : Transform) do
    let changes ← Promotion.run options
    report (.passFinished Promotion.passName changes.text)
    modifyState (Transform.invalidate changes)
    return (← getState).body

namespace Bytecode

def compile {σ : Type} (m : Bytecode) (options : CompileOptions) : Traced σ Body := do
  let body ← m.toBody
  let body ← if options.promoteVariables then body.promoted options.promotion else pure body
  if options.verify then MonadExcept.ofExcept body.verify
  report (.compiled body.numBlocks)
  return body

def compileAll {σ : Type} (ms : List Bytecode) (options : CompileOptions) :
    Traced σ (List (Except Error Body)) :=
  ms.mapM fun m => attempt (m.compile options)

end Bytecode

end MethodIR
