import MethodIR.Error.Defect
import MethodIR.Error.Malformation
import MethodIR.Error.Violation

/-!
# Errors

Everything that can stop an operation, with one text for each cause.
-/

namespace MethodIR

/-- Why an operation stopped. -/
inductive Error where
  | invalidProgram (offset : Nat) (cause : Malformation)
  | notSupported (op : Opcode)
  | violation (v : Violation)
  | undefinedLabel (name : String)
  | defect (d : Defect)
  /-- An identifier that names nothing, or an index past the end. -/
  | outOfRange
  deriving DecidableEq, Repr, Inhabited

def Error.message : Error → String
  | invalidProgram offset cause => s!"Invalid program at {Text.offset offset}: {cause.message}"
  | notSupported op => s!"Opcode '{op.mnemonic}' is not supported"
  | violation v => v.message
  | undefinedLabel name => s!"Label '{name}' was referenced but never defined"
  | defect d => s!"IR verification failed: {d.message}"
  | outOfRange => "index out of range"

end MethodIR
