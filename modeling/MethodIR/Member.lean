import MethodIR.Ty.Generic

/-!
# Methods and fields

What instructions say about the methods and fields they refer to. The body of a method is no part
of this; see `MethodIR.Bytecode`.
-/

namespace MethodIR

/-- The parameters and the result of a method. -/
structure Signature where
  hasThis : Bool := false
  params : List Ty
  ret : Ty
  deriving DecidableEq, Repr, Inhabited

namespace Signature

def argCount (s : Signature) : Nat := s.params.length + s.hasThis.toNat

def specialize (ctx : GenericContext) (s : Signature) : Signature :=
  { s with params := s.params.map (·.specialize ctx), ret := s.ret.specialize ctx }

end Signature

/-- The type of the receiver of a method declared by `declaring`: value types are passed by
reference. -/
def receiverTy (declaring : Ty) : Ty :=
  if declaring.isValueType then .byRef declaring else declaring

/-- A method as instructions refer to it. -/
structure Method where
  token : Token
  name : String
  declaring : Ty
  sig : Signature
  genericArgs : List Ty := []
  deriving DecidableEq, Repr, Inhabited

namespace Method

def isStatic (m : Method) : Bool := !m.sig.hasThis

def isConstructor (m : Method) : Bool := m.name == ".ctor"

def thisTy? (m : Method) : Option Ty :=
  if m.sig.hasThis then some (receiverTy m.declaring) else none

def isOpen (m : Method) : Bool :=
  m.declaring.isOpen || m.sig.ret.isOpen || m.sig.params.any (·.isOpen) ||
    m.genericArgs.any (·.isOpen)

/-- Specializes every type of an open method; a closed one is left as it is. -/
def specialize (ctx : GenericContext) (m : Method) : Method :=
  if ctx.isEmpty || !m.isOpen then m
  else
    { m with
      declaring := m.declaring.specialize ctx
      sig := m.sig.specialize ctx
      genericArgs := m.genericArgs.map (·.specialize ctx) }

def text (m : Method) : String := m.declaring.text ++ "::" ++ m.name

end Method

/-- A field as instructions refer to it. -/
structure Field where
  token : Token
  name : String
  declaring : Ty
  ty : Ty
  isStatic : Bool := false
  deriving DecidableEq, Repr, Inhabited

namespace Field

/-- Specializes both types of an open field; a closed one is left as it is. -/
def specialize (ctx : GenericContext) (f : Field) : Field :=
  if ctx.isEmpty || !(f.declaring.isOpen || f.ty.isOpen) then f
  else { f with declaring := f.declaring.specialize ctx, ty := f.ty.specialize ctx }

def text (f : Field) : String := f.declaring.text ++ "::" ++ f.name

end Field

/-- Anything with a token that an instruction can name. -/
inductive Entity where
  | ty (t : Ty)
  | method (m : Method)
  | field (f : Field)
  deriving DecidableEq, Repr, Inhabited

namespace Entity

def declaring? : Entity → Option Ty
  | .ty _ => none
  | .method m => some m.declaring
  | .field f => some f.declaring

def specialize (ctx : GenericContext) : Entity → Entity
  | .ty t => .ty (t.specialize ctx)
  | .method m => .method (m.specialize ctx)
  | .field f => .field (f.specialize ctx)

end Entity

end MethodIR
