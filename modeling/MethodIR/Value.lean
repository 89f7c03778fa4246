import MethodIR.Decimal.Binary
import MethodIR.Ident
import MethodIR.Text.Quoted
import MethodIR.Ty.Basic

/-!
# Values

What an instruction can have as an operand. Constants and undefined values stand for themselves;
arguments and instructions belong to a body, which keeps a list of the places that use them.
-/

namespace MethodIR

/-- A constant. Floating point numbers are their bits, so two of them are equal only if they are
written alike. -/
inductive Const where
  | i32 (n : Int32)
  | i64 (n : Int64)
  | f32 (bits : UInt32)
  | f64 (bits : UInt64)
  | null
  | str (s : String)
  deriving DecidableEq, Repr, Inhabited

namespace Const

def ty : Const → Ty
  | i32 _ => .i32
  | i64 _ => .i64
  | f32 _ => .f32
  | f64 _ => .f64
  | null => .object
  | str _ => .string

def text : Const → String
  | i32 n => toString n.toInt
  | i64 n => toString n.toInt ++ "L"
  | f32 bits => Decimal.BinaryFormat.single.text bits.toNat ++ "f"
  | f64 bits => Decimal.BinaryFormat.double.text bits.toNat
  | null => "null"
  | str s => Text.quoted s

end Const

/-- An operand. -/
inductive Value where
  | const (c : Const)
  /-- What is read from a variable that nothing has written. -/
  | undef (t : Ty)
  | arg (a : ArgId)
  /-- The result of an instruction. -/
  | inst (i : InstId)
  deriving DecidableEq, Repr, Inhabited

namespace Value

def ofI32 (n : Int32) : Value := .const (.i32 n)

def isTracked : Value → Bool
  | arg _ | inst _ => true
  | const _ | undef _ => false

def isConst (v : Value) : Bool := !v.isTracked

def inst? : Value → Option InstId
  | inst i => some i
  | _ => none

def arg? : Value → Option ArgId
  | arg a => some a
  | _ => none

def i32? : Value → Option Int32
  | const (.i32 n) => some n
  | _ => none

def text : Value → String
  | const c => c.text
  | undef t => "undef(" ++ t.text ++ ")"
  | arg a => a.text
  | inst i => i.text

end Value

/-- A place where a value is used: an operand slot of an instruction. -/
structure Use where
  inst : InstId
  slot : Nat
  deriving DecidableEq, Repr, Inhabited

end MethodIR
