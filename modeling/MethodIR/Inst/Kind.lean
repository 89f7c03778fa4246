import MethodIR.Ident
import MethodIR.Inst.Operator
import MethodIR.Member

/-!
# Kinds of instruction

A kind holds all that an instruction has besides its operands: operators, referenced entities and
target blocks. The last instruction of a block is a terminator; guards at the start of a block
protect it. Both have successors, no other kind does.
-/

namespace MethodIR

/-- The operation an instruction performs. -/
inductive Kind where
  /-- `[left, right]` -/
  | binary (op : BinaryOp)
  /-- `[value]` -/
  | unary (op : UnaryOp)
  /-- `[left, right]` -/
  | compare (op : CompareOp)
  /-- `[value]`, to the type of the instruction. -/
  | convert (checked fromUnsigned : Bool)
  /-- `[address]` -/
  | load (flags : MemoryFlags)
  /-- `[address, value]` -/
  | store (elem : Ty) (flags : MemoryFlags)
  | loadVar (v : VarId)
  /-- `[value]` -/
  | storeVar (v : VarId)
  | varAddr (v : VarId)
  /-- `[object]`, and nothing for a static field. -/
  | fieldAddr (f : Field)
  /-- `[object]`, an instance of a value type. -/
  | extractField (f : Field)
  /-- `[array, index]` -/
  | arrayAddr (elem : Ty) (isReadonly : Bool)
  /-- The arguments, the receiver first. -/
  | call (m : Method) (isVirtual : Bool) (constraint : Option Ty)
  /-- The arguments of the constructor without the receiver. -/
  | newObj (ctor : Method)
  /-- `[object]` if virtual. -/
  | funcAddr (m : Method) (isVirtual : Bool)
  | intrinsic (id : Intrinsic) (args : List Entity)
  | jump (target : BlockId)
  /-- `[condition]` -/
  | branch (yes no : BlockId)
  /-- `[selector]` -/
  | switch (targets : List BlockId) (default : BlockId)
  /-- One operand for each block that control can come from. -/
  | phi (blocks : List BlockId)
  /-- `[value]` or nothing. -/
  | ret
  /-- A protected region that starts at the block of the instruction. -/
  | guard (region : GuardKind) (handler : BlockId) (filter : Option BlockId) (caught : Option Ty)
  /-- `[exception]`, and nothing when the current one is thrown again. -/
  | throw (again : Bool)
  /-- Leaves a protected region. -/
  | leave (target : BlockId)
  /-- The end of a finally or fault block, or of a filter with its `[result]`. -/
  | resume
  deriving DecidableEq, Repr, Inhabited

namespace Kind

def name : Kind → String
  | binary _ => "binary" | unary _ => "unary" | compare _ => "compare" | convert .. => "convert"
  | load _ => "load" | store .. => "store" | loadVar _ => "load_var" | storeVar _ => "store_var"
  | varAddr _ => "var_addr" | fieldAddr _ => "field_addr" | extractField _ => "extract_field"
  | arrayAddr .. => "array_addr" | call .. => "call" | newObj _ => "new_obj"
  | funcAddr .. => "func_addr" | intrinsic .. => "intrinsic" | jump _ => "jump"
  | branch .. => "branch" | switch .. => "switch" | phi _ => "phi" | ret => "return"
  | guard .. => "guard" | throw _ => "throw" | leave _ => "leave" | resume => "resume"

/-- Whether the instruction has to be the last of its block. -/
def isTerminator : Kind → Bool
  | jump _ | branch .. | switch .. | ret | throw _ | leave _ | resume => true
  | _ => false

def isPhi : Kind → Bool
  | phi _ => true
  | _ => false

def isGuard : Kind → Bool
  | guard .. => true
  | _ => false

/-- The blocks to which control can pass from the instruction. A guard has its handler and filter,
so that they are reached from the block they protect. The blocks of a phi are not among them. -/
def successors : Kind → List BlockId
  | jump t | leave t => [t]
  | branch yes no => [yes, no]
  | switch ts d => ts ++ [d]
  | guard _ h f _ => h :: f.toList
  | _ => []

/-- Puts `f b` for every block `b` of a kind, those of a phi included. -/
def mapBlocks (f : BlockId → BlockId) : Kind → Kind
  | jump t => jump (f t)
  | leave t => leave (f t)
  | branch yes no => branch (f yes) (f no)
  | switch ts d => switch (ts.map f) (f d)
  | phi bs => phi (bs.map f)
  | guard r h fb c => guard r (f h) (fb.map f) c
  | k => k

def blocks : Kind → List BlockId
  | phi bs => bs
  | k => k.successors

def retarget (old new : BlockId) (k : Kind) : Kind :=
  k.mapBlocks fun b => if b = old then new else b

def arity? : Kind → Option Nat
  | binary _ | compare _ | store .. | arrayAddr .. => some 2
  | unary _ | convert .. | load _ | storeVar _ | extractField _ | branch .. | switch .. => some 1
  | loadVar _ | varAddr _ | jump _ | guard .. | leave _ => some 0
  | fieldAddr f => some (!f.isStatic).toNat
  | call m _ _ => some m.sig.argCount
  | newObj ctor => some ctor.sig.params.length
  | funcAddr _ isVirtual => some isVirtual.toNat
  | throw again => some (!again).toNat
  | phi bs => some bs.length
  | intrinsic id _ => some id.arity
  | ret | resume => none

def specialize (ctx : GenericContext) : Kind → Kind
  | store elem flags => store (elem.specialize ctx) flags
  | fieldAddr f => fieldAddr (f.specialize ctx)
  | extractField f => extractField (f.specialize ctx)
  | arrayAddr elem ro => arrayAddr (elem.specialize ctx) ro
  | call m v c => call (m.specialize ctx) v (c.map (·.specialize ctx))
  | newObj ctor => newObj (ctor.specialize ctx)
  | funcAddr m v => funcAddr (m.specialize ctx) v
  | intrinsic id args => intrinsic id (args.map (·.specialize ctx))
  | guard r h f c => guard r h f (c.map (·.specialize ctx))
  | k => k

end Kind

end MethodIR
