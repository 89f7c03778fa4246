import MethodIR.Token

/-!
# Types

The types of values, variables and signatures, and the classes into which the evaluation stack
sorts them. Small integers, `bool` and `char` are on the stack as 32-bit integers, so a store to a
narrow variable may have to cut the value down (`Ty.narrows`).
-/

namespace MethodIR

/-- The types that need no definition. -/
inductive Prim where
  | void | bool | char | i8 | u8 | i16 | u16 | i32 | u32 | i64 | u64 | nint | nuint | f32 | f64
  | object | string | typedRef
  deriving DecidableEq, Repr, Inhabited

namespace Prim

def text : Prim → String
  | void => "void" | bool => "bool" | char => "char" | i8 => "sbyte" | u8 => "byte"
  | i16 => "short" | u16 => "ushort" | i32 => "int" | u32 => "uint" | i64 => "long"
  | u64 => "ulong" | nint => "nint" | nuint => "nuint" | f32 => "float" | f64 => "double"
  | object => "object" | string => "string" | typedRef => "TypedReference"

def all : List Prim :=
  [void, bool, char, i8, u8, i16, u16, i32, u32, i64, u64, nint, nuint, f32, f64,
   object, string, typedRef]

def ofText? (s : String) : Option Prim := all.find? fun p => p.text == s

def isIntegral : Prim → Bool
  | bool | char | i8 | u8 | i16 | u16 | i32 | u32 | i64 | u64 | nint | nuint => true
  | _ => false

def isFloat : Prim → Bool
  | f32 | f64 => true
  | _ => false

def isUnsigned : Prim → Bool
  | bool | char | u8 | u16 | u32 | u64 | nuint => true
  | _ => false

def size? : Prim → Option Nat
  | bool | i8 | u8 => some 1
  | i16 | u16 | char => some 2
  | i32 | u32 | f32 => some 4
  | i64 | u64 | f64 => some 8
  | _ => none

end Prim

/-- The definition of a class or value type. -/
structure TypeDef where
  token : Token
  space : String
  name : String
  isValueType : Bool
  arity : Nat
  deriving DecidableEq, Repr, Inhabited

def TypeDef.fullName (d : TypeDef) : String :=
  if d.space.isEmpty then d.name else d.space ++ "." ++ d.name

/-- The type of a value, variable or signature. -/
inductive Ty where
  | prim (p : Prim)
  /-- A class or value type without type arguments. -/
  | named (d : TypeDef)
  /-- A generic definition applied to type arguments. -/
  | applied (d : TypeDef) (args : List Ty)
  /-- One-dimensional array. -/
  | array (elem : Ty)
  /-- Unmanaged pointer. -/
  | pointer (elem : Ty)
  /-- Managed reference. -/
  | byRef (elem : Ty)
  /-- A parameter of the enclosing generic type. -/
  | typeParam (n : Nat)
  /-- A parameter of the enclosing generic method. -/
  | methodParam (n : Nat)
  deriving Repr, Inhabited

namespace Ty

@[match_pattern] abbrev void : Ty := .prim .void
@[match_pattern] abbrev bool : Ty := .prim .bool
@[match_pattern] abbrev u8 : Ty := .prim .u8
@[match_pattern] abbrev i32 : Ty := .prim .i32
@[match_pattern] abbrev u32 : Ty := .prim .u32
@[match_pattern] abbrev i64 : Ty := .prim .i64
@[match_pattern] abbrev nint : Ty := .prim .nint
@[match_pattern] abbrev nuint : Ty := .prim .nuint
@[match_pattern] abbrev f32 : Ty := .prim .f32
@[match_pattern] abbrev f64 : Ty := .prim .f64
@[match_pattern] abbrev object : Ty := .prim .object
@[match_pattern] abbrev string : Ty := .prim .string

mutual

def same : Ty → Ty → Bool
  | .prim p, .prim q => p == q
  | .named d, .named e => d == e
  | .applied d as, .applied e bs => d == e && sameList as bs
  | .array a, .array b => same a b
  | .pointer a, .pointer b => same a b
  | .byRef a, .byRef b => same a b
  | .typeParam m, .typeParam n => m == n
  | .methodParam m, .methodParam n => m == n
  | _, _ => false

def sameList : List Ty → List Ty → Bool
  | [], [] => true
  | a :: as, b :: bs => same a b && sameList as bs
  | _, _ => false

end

mutual

theorem same_iff (a b : Ty) : same a b = true ↔ a = b := by
  cases a <;> cases b <;>
    simp [same, sameList_iff, same_iff]

theorem sameList_iff (as bs : List Ty) : sameList as bs = true ↔ as = bs := by
  cases as <;> cases bs <;> simp [sameList, same_iff, sameList_iff]

end

instance : DecidableEq Ty := fun a b => decidable_of_iff (same a b = true) (same_iff a b)

mutual

def text : Ty → String
  | .prim p => p.text
  | .named d => d.fullName
  | .applied d args => d.fullName ++ "[" ++ ", ".intercalate (texts args) ++ "]"
  | .array e => e.text ++ "[]"
  | .pointer e => e.text ++ "*"
  | .byRef e => e.text ++ "&"
  | .typeParam n => "!" ++ toString n
  | .methodParam n => "!!" ++ toString n

def texts : List Ty → List String
  | [] => []
  | t :: ts => t.text :: texts ts

end

def isVoid (t : Ty) : Bool := t == .void

def isIntegral : Ty → Bool
  | .prim p => p.isIntegral
  | _ => false

def isFloat : Ty → Bool
  | .prim p => p.isFloat
  | _ => false

def isUnsigned : Ty → Bool
  | .prim p => p.isUnsigned
  | _ => false

/-- Numbers, typed references and the definitions marked as value types. -/
def isValueType : Ty → Bool
  | .named d | .applied d _ => d.isValueType
  | .prim p => p == .typedRef || p.isIntegral || p.isFloat
  | _ => false

def size? : Ty → Option Nat
  | .prim p => p.size?
  | _ => none

/-- What an array holds, or a pointer or reference points to. -/
def element? : Ty → Option Ty
  | .array e | .pointer e | .byRef e => some e
  | _ => none

/-- The kinds of value the evaluation stack tells apart. -/
inductive StackClass where
  | void | int | long | nint | float | byRef | object | struct
  deriving DecidableEq, Repr, Inhabited

namespace StackClass

def name : StackClass → String
  | void => "Void" | int => "Int" | long => "Long" | nint => "NInt" | float => "Float"
  | byRef => "ByRef" | object => "Object" | struct => "Struct"

/-- The type of a result of that class after an arithmetic operation. -/
def resultTy : StackClass → Ty
  | void => .void
  | int => .i32
  | long => .i64
  | nint => .nint
  | float => .f64
  | byRef => .byRef .u8
  | object | struct => .object

end StackClass

def primClass : Prim → StackClass
  | .void => .void
  | .bool | .char | .i8 | .u8 | .i16 | .u16 | .i32 | .u32 => .int
  | .i64 | .u64 => .long
  | .nint | .nuint => .nint
  | .f32 | .f64 => .float
  | .typedRef => .struct
  | .object | .string => .object

def stackClass : Ty → StackClass
  | .prim p => primClass p
  | .pointer _ => .nint
  | .byRef _ => .byRef
  | .named d | .applied d _ => if d.isValueType then .struct else .object
  | .array _ | .typeParam _ | .methodParam _ => .object

/-- Whether a value of type `value` must be cut down to be stored as `t`: a 32-bit class value in
a smaller integer, or a double in a float. -/
def narrows (t value : Ty) : Bool :=
  match t with
  | .prim .bool | .prim .char | .prim .i8 | .prim .u8 | .prim .i16 | .prim .u16 =>
    value.stackClass == .int && t.size?.getD 4 < value.size?.getD 4
  | .prim .f32 => value == .f64
  | _ => false

end Ty

end MethodIR
