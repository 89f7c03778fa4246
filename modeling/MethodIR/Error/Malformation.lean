import MethodIR.Opcode
import MethodIR.Text.Hex

/-!
# Malformed bytecode

The reasons for which bytecode is refused.
-/

namespace MethodIR

/-- What an opcode needs as its operand. -/
inductive OperandNeed where
  | target | slot | type | method | field | i32 | i64 | f32 | f64 | string | table | token
  deriving DecidableEq, Repr, Inhabited

def OperandNeed.text : OperandNeed → String
  | target => "branch target" | slot => "variable index" | type => "type operand"
  | method => "method operand" | field => "field operand" | i32 => "int32 operand"
  | i64 => "int64 operand" | f32 => "float32 operand" | f64 => "float64 operand"
  | string => "string operand" | table => "jump table" | token => "token operand"

/-- What is wrong with the bytecode of a method. -/
inductive Malformation where
  | noInstructions
  | pastEnd (target : Nat)
  | emptyRange
  | offBoundary
  | noBlock
  | underflow
  | underflowOf (needed available : Nat)
  | missingOperand (op : Opcode) (need : OperandNeed)
  | noArgument (n : Nat)
  | noLocal (n : Nat)
  | fallsOff
  | heightMismatch (height expected target : Nat)
  | intoHandler
  | leftOver (n : Nat)
  deriving DecidableEq, Repr, Inhabited

def Malformation.message : Malformation → String
  | noInstructions => "method has no instructions"
  | pastEnd t => s!"target {Text.offset t} is past the end of the method"
  | emptyRange => "exception region has an empty range"
  | offBoundary => "offset is not on an instruction boundary"
  | noBlock => "no block starts at this offset"
  | underflow => "evaluation stack underflow"
  | underflowOf n m => s!"evaluation stack underflow: {n} values needed, {m} available"
  | missingOperand op need => s!"'{op.mnemonic}' has no {need.text}"
  | noArgument n => s!"argument {n} does not exist"
  | noLocal n => s!"local {n} does not exist"
  | fallsOff => "control falls through the end of the method"
  | heightMismatch h e t =>
    s!"stack height {h} does not match the height {e} expected at {Text.offset t}"
  | intoHandler => "branch into an exception handler"
  | leftOver n => s!"{n} values left on the stack at return"

end MethodIR
