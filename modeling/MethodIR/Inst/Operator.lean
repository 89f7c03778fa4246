/-!
# Operators

The finite families of operations that instruction kinds are parameterized by. Each has its names
and the list of its members in declaration order.
-/

namespace MethodIR

/-- Arithmetic and bitwise operations on two operands. A leading `u` means unsigned, a trailing
`Ovf` that overflow throws. -/
inductive BinaryOp where
  | add | sub | mul | sdiv | udiv | srem | urem | and | or | xor | shl | shra | shrl
  | addOvf | uaddOvf | subOvf | usubOvf | mulOvf | umulOvf
  deriving DecidableEq, Repr, Inhabited

namespace BinaryOp

def name : BinaryOp → String
  | add => "add" | sub => "sub" | mul => "mul" | sdiv => "sdiv" | udiv => "udiv" | srem => "srem"
  | urem => "urem" | and => "and" | or => "or" | xor => "xor" | shl => "shl" | shra => "shra"
  | shrl => "shrl" | addOvf => "addovf" | uaddOvf => "uaddovf" | subOvf => "subovf"
  | usubOvf => "usubovf" | mulOvf => "mulovf" | umulOvf => "umulovf"

def all : List BinaryOp :=
  [add, sub, mul, sdiv, udiv, srem, urem, and, or, xor, shl, shra, shrl,
   addOvf, uaddOvf, subOvf, usubOvf, mulOvf, umulOvf]

def ofName? (s : String) : Option BinaryOp := all.find? fun op => op.name == s

def isShift : BinaryOp → Bool
  | shl | shra | shrl => true
  | _ => false

end BinaryOp

inductive UnaryOp where
  | neg | not
  deriving DecidableEq, Repr, Inhabited

namespace UnaryOp

def name : UnaryOp → String
  | neg => "neg" | not => "not"

def all : List UnaryOp := [neg, not]

def ofName? (s : String) : Option UnaryOp := all.find? fun op => op.name == s

end UnaryOp

/-- Comparisons, signed or unsigned; of floating point numbers the unsigned forms are the unordered
ones. -/
inductive CompareOp where
  | eq | ne | slt | sgt | sle | sge | ult | ugt | ule | uge
  deriving DecidableEq, Repr, Inhabited

namespace CompareOp

def name : CompareOp → String
  | eq => "eq" | ne => "ne" | slt => "slt" | sgt => "sgt" | sle => "sle" | sge => "sge"
  | ult => "ult" | ugt => "ugt" | ule => "ule" | uge => "uge"

def all : List CompareOp := [eq, ne, slt, sgt, sle, sge, ult, ugt, ule, uge]

def ofName? (s : String) : Option CompareOp := all.find? fun op => op.name == s

/-- The comparison that says the same of the operands in the other order. -/
def swap : CompareOp → CompareOp
  | eq => eq | ne => ne
  | slt => sgt | sgt => slt | sle => sge | sge => sle
  | ult => ugt | ugt => ult | ule => uge | uge => ule

end CompareOp

/-- What the handler of a protected region is run for. -/
inductive GuardKind where
  /-- An exception of a given type. -/
  | typed
  /-- An exception that a filter accepts. -/
  | filtered
  /-- Every way out of the region. -/
  | cleanup
  /-- Every exception. -/
  | fault
  deriving DecidableEq, Repr, Inhabited

namespace GuardKind

def name : GuardKind → String
  | typed => "catch" | filtered => "filter" | cleanup => "finally" | fault => "fault"

def title (k : GuardKind) : String := k.name.capitalize

def all : List GuardKind := [typed, filtered, cleanup, fault]

def ofName? (s : String) : Option GuardKind := all.find? fun k => k.name == s

end GuardKind

/-- Operations on the object model. -/
inductive Intrinsic where
  | castClass | isInst | box | unbox | unboxAny | newArray | arrayLen | loadToken | stackAlloc
  | initObj | sizeOf
  deriving DecidableEq, Repr, Inhabited

namespace Intrinsic

def name : Intrinsic → String
  | castClass => "cast_class" | isInst => "is_inst" | box => "box" | unbox => "unbox"
  | unboxAny => "unbox_any" | newArray => "new_array" | arrayLen => "array_len"
  | loadToken => "load_token" | stackAlloc => "stack_alloc" | initObj => "init_obj"
  | sizeOf => "size_of"

def all : List Intrinsic :=
  [castClass, isInst, box, unbox, unboxAny, newArray, arrayLen, loadToken, stackAlloc, initObj,
   sizeOf]

def ofName? (s : String) : Option Intrinsic := all.find? fun i => i.name == s

def arity : Intrinsic → Nat
  | loadToken | sizeOf => 0
  | _ => 1

end Intrinsic

/-- Restrictions on an access to memory. -/
structure MemoryFlags where
  isVolatile : Bool := false
  isUnaligned : Bool := false
  deriving DecidableEq, Repr, Inhabited

namespace MemoryFlags

def named : List (String × Nat) := [("VOLATILE", 1), ("UNALIGNED", 2)]

def bits (f : MemoryFlags) : Nat := f.isVolatile.toNat + 2 * f.isUnaligned.toNat

def ofBits (n : Nat) : MemoryFlags := ⟨n.testBit 0, n.testBit 1⟩

end MemoryFlags

end MethodIR
