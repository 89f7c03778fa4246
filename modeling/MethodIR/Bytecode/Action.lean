import MethodIR.Bytecode.Basic

/-!
# Actions

What an instruction does, freed of its spelling: long and short forms are one action, and the operand
is part of it. Most operands are looked at before anything else; for conditional branches and for
element accesses the evaluation stack comes first, so a missing operand is part of the action.
-/

namespace MethodIR.Bytecode

/-- A slot of a frame. -/
inductive Storage where
  | argument (n : Nat)
  | local (n : Nat)
  deriving DecidableEq, Repr, Inhabited

/-- The type of the elements an instruction accesses. -/
inductive ElementTy where
  | given (t : Ty)
  /-- The element type of the array on the stack. -/
  | ofArray
  | missing
  deriving DecidableEq, Repr, Inhabited

/-- What an instruction does. -/
inductive Action where
  | skip
  | load (s : Storage)
  | store (s : Storage)
  | address (s : Storage)
  | push (c : Const)
  | dup
  | drop
  | unary (op : UnaryOp)
  | binary (op : BinaryOp)
  | compare (op : CompareOp)
  | convert (ty : Ty) (checked fromUnsigned : Bool)
  | jump (target : Nat)
  | leave (target : Nat)
  /-- Branches if the value is not zero, or if it is zero when negated. -/
  | branch (target : Option Nat) (isNegated : Bool)
  | compareBranch (op : CompareOp) (target : Option Nat)
  | switch (targets : List Nat)
  | ret
  | call (m : Method) (isVirtual : Bool)
  | newObj (ctor : Method)
  | funcAddr (m : Method) (isVirtual : Bool)
  | loadField (f : Field)
  | fieldAddr (f : Field)
  | storeField (f : Field)
  | loadStatic (f : Field)
  | staticAddr (f : Field)
  | storeStatic (f : Field)
  /-- Through an address, of the type it points to if none is given. -/
  | loadIndirect (ty : Option Ty)
  | storeIndirect (ty : Option Ty)
  | elementAddr (ty : Ty)
  | loadElement (ty : ElementTy)
  | storeElement (ty : ElementTy)
  | intrinsic (id : Intrinsic) (args : List Entity) (result : Ty)
  | throw
  | rethrow
  | endFinally
  | endFilter
  | constrained (ty : Ty)
  | volatile
  | unaligned
  | readonly
  | tail
  deriving DecidableEq, Repr, Inhabited

namespace Action

def isModifier : Action → Bool
  | constrained _ | volatile | unaligned | readonly | tail => true
  | _ => false

def binary? : Opcode → Option BinaryOp
  | .add => some .add | .sub => some .sub | .mul => some .mul
  | .div => some .sdiv | .divUn => some .udiv | .rem => some .srem | .remUn => some .urem
  | .and => some .and | .or => some .or | .xor => some .xor
  | .shl => some .shl | .shr => some .shra | .shrUn => some .shrl
  | .addOvf => some .addOvf | .addOvfUn => some .uaddOvf
  | .subOvf => some .subOvf | .subOvfUn => some .usubOvf
  | .mulOvf => some .mulOvf | .mulOvfUn => some .umulOvf
  | _ => none

/-- Target type, whether overflow is checked and whether the source is unsigned. -/
def conversion? : Opcode → Option (Prim × Bool × Bool)
  | .convI1 => some (.i8, false, false)
  | .convI2 => some (.i16, false, false)
  | .convI4 => some (.i32, false, false)
  | .convI8 => some (.i64, false, false)
  | .convR4 => some (.f32, false, false)
  | .convR8 => some (.f64, false, false)
  | .convU1 => some (.u8, false, false)
  | .convU2 => some (.u16, false, false)
  | .convU4 => some (.u32, false, false)
  | .convU8 => some (.u64, false, false)
  | .convI => some (.nint, false, false)
  | .convU => some (.nuint, false, false)
  | .convRUn => some (.f64, false, true)
  | .convOvfI1 => some (.i8, true, false)
  | .convOvfI2 => some (.i16, true, false)
  | .convOvfI4 => some (.i32, true, false)
  | .convOvfI8 => some (.i64, true, false)
  | .convOvfU1 => some (.u8, true, false)
  | .convOvfU2 => some (.u16, true, false)
  | .convOvfU4 => some (.u32, true, false)
  | .convOvfU8 => some (.u64, true, false)
  | .convOvfI => some (.nint, true, false)
  | .convOvfU => some (.nuint, true, false)
  | .convOvfI1Un => some (.i8, true, true)
  | .convOvfI2Un => some (.i16, true, true)
  | .convOvfI4Un => some (.i32, true, true)
  | .convOvfI8Un => some (.i64, true, true)
  | .convOvfU1Un => some (.u8, true, true)
  | .convOvfU2Un => some (.u16, true, true)
  | .convOvfU4Un => some (.u32, true, true)
  | .convOvfU8Un => some (.u64, true, true)
  | .convOvfIUn => some (.nint, true, true)
  | .convOvfUUn => some (.nuint, true, true)
  | _ => none

def branchCompare? : Opcode → Option CompareOp
  | .beq | .beqS => some .eq
  | .bge | .bgeS => some .sge
  | .bgt | .bgtS => some .sgt
  | .ble | .bleS => some .sle
  | .blt | .bltS => some .slt
  | .bneUn | .bneUnS => some .ne
  | .bgeUn | .bgeUnS => some .uge
  | .bgtUn | .bgtUnS => some .ugt
  | .bleUn | .bleUnS => some .ule
  | .bltUn | .bltUnS => some .ult
  | _ => none

def compare? : Opcode → Option CompareOp
  | .ceq => some .eq | .cgt => some .sgt | .cgtUn => some .ugt | .clt => some .slt
  | .cltUn => some .ult
  | _ => none

def accessPrim? : Opcode → Option Prim
  | .ldindI1 | .stindI1 | .ldelemI1 | .stelemI1 => some .i8
  | .ldindU1 | .ldelemU1 => some .u8
  | .ldindI2 | .stindI2 | .ldelemI2 | .stelemI2 => some .i16
  | .ldindU2 | .ldelemU2 => some .u16
  | .ldindI4 | .stindI4 | .ldelemI4 | .stelemI4 => some .i32
  | .ldindU4 | .ldelemU4 => some .u32
  | .ldindI8 | .stindI8 | .ldelemI8 | .stelemI8 => some .i64
  | .ldindI | .stindI | .ldelemI | .stelemI => some .nint
  | .ldindR4 | .stindR4 | .ldelemR4 | .stelemR4 => some .f32
  | .ldindR8 | .stindR8 | .ldelemR8 | .stelemR8 => some .f64
  | _ => none

def smallConst? : Opcode → Option Int32
  | .ldcI4M1 => some (-1)
  | .ldcI40 => some 0 | .ldcI41 => some 1 | .ldcI42 => some 2 | .ldcI43 => some 3
  | .ldcI44 => some 4 | .ldcI45 => some 5 | .ldcI46 => some 6 | .ldcI47 => some 7
  | .ldcI48 => some 8
  | _ => none

def handleTy (e : Entity) : Ty :=
  let name := match e with
    | .ty _ => "RuntimeTypeHandle"
    | .method _ => "RuntimeMethodHandle"
    | .field _ => "RuntimeFieldHandle"
  .named { token := ⟨0⟩, space := "System", name, isValueType := true, arity := 0 }

section

variable (i : Instruction)

def missing {α : Type} (need : OperandNeed) : Except Error α :=
  .error (.invalidProgram i.offset (.missingOperand i.op need))

def slot : Except Error Nat :=
  match i.operand with
  | .slot n => .ok n
  | _ => missing i .slot

def argument : Except Error Storage := do return .argument (← slot i)

def localSlot : Except Error Storage := do return .local (← slot i)

def target? : Option Nat :=
  match i.operand with
  | .target t => some t
  | _ => none

def target : Except Error Nat :=
  match target? i with
  | some t => .ok t
  | none => missing i .target

def type? : Option Ty :=
  match i.operand with
  | .entity (.ty t) => some t
  | _ => none

def type : Except Error Ty :=
  match type? i with
  | some t => .ok t
  | none => missing i .type

def method : Except Error Method :=
  match i.operand with
  | .entity (.method m) => .ok m
  | _ => missing i .method

def field : Except Error Field :=
  match i.operand with
  | .entity (.field f) => .ok f
  | _ => missing i .field

/-- The type of the elements that an instruction with or without a type operand accesses. -/
def elementTy : ElementTy :=
  match accessPrim? i.op, i.op, type? i with
  | some p, _, _ => .given (.prim p)
  | none, .ldelem, some t | none, .stelem, some t => .given t
  | none, .ldelem, none | none, .stelem, none => .missing
  | none, _, _ => .ofArray

def onType (id : Intrinsic) (result : Ty → Ty) : Except Error Action := do
  let t ← type i
  return .intrinsic id [.ty t] (result t)

def ofInstruction : Except Error Action :=
  if let some op := binary? i.op then .ok (.binary op)
  else if let some (p, checked, fromUnsigned) := conversion? i.op then
    .ok (.convert (.prim p) checked fromUnsigned)
  else if let some op := branchCompare? i.op then .ok (.compareBranch op (target? i))
  else if let some op := compare? i.op then .ok (.compare op)
  else if let some n := smallConst? i.op then .ok (.push (.i32 n))
  else match i.op with
  | .nop | .breakpoint => .ok .skip
  | .ldarg0 => .ok (.load (.argument 0))
  | .ldarg1 => .ok (.load (.argument 1))
  | .ldarg2 => .ok (.load (.argument 2))
  | .ldarg3 => .ok (.load (.argument 3))
  | .ldarg | .ldargS => .load <$> argument i
  | .starg | .stargS => .store <$> argument i
  | .ldarga | .ldargaS => .address <$> argument i
  | .ldloc0 => .ok (.load (.local 0))
  | .ldloc1 => .ok (.load (.local 1))
  | .ldloc2 => .ok (.load (.local 2))
  | .ldloc3 => .ok (.load (.local 3))
  | .ldloc | .ldlocS => .load <$> localSlot i
  | .stloc0 => .ok (.store (.local 0))
  | .stloc1 => .ok (.store (.local 1))
  | .stloc2 => .ok (.store (.local 2))
  | .stloc3 => .ok (.store (.local 3))
  | .stloc | .stlocS => .store <$> localSlot i
  | .ldloca | .ldlocaS => .address <$> localSlot i
  | .ldnull => .ok (.push .null)
  | .ldcI4 | .ldcI4S =>
    match i.operand with
    | .const (.i32 n) => .ok (.push (.i32 n))
    | _ => missing i .i32
  | .ldcI8 =>
    match i.operand with
    | .const (.i64 n) => .ok (.push (.i64 n))
    | _ => missing i .i64
  | .ldcR4 =>
    match i.operand with
    | .const (.f32 b) => .ok (.push (.f32 b))
    | _ => missing i .f32
  | .ldcR8 =>
    match i.operand with
    | .const (.f64 b) => .ok (.push (.f64 b))
    | _ => missing i .f64
  | .ldstr =>
    match i.operand with
    | .const (.str s) => .ok (.push (.str s))
    | _ => missing i .string
  | .dup => .ok .dup
  | .pop => .ok .drop
  | .neg => .ok (.unary .neg)
  | .not => .ok (.unary .not)
  | .br | .brS => .jump <$> target i
  | .brtrue | .brtrueS => .ok (.branch (target? i) false)
  | .brfalse | .brfalseS => .ok (.branch (target? i) true)
  | .switch =>
    match i.operand with
    | .table ts => .ok (.switch ts)
    | _ => missing i .table
  | .ret => .ok .ret
  | .call => do return .call (← method i) false
  | .callvirt => do return .call (← method i) true
  | .newobj => .newObj <$> method i
  | .ldftn => do return .funcAddr (← method i) false
  | .ldvirtftn => do return .funcAddr (← method i) true
  | .ldfld => .loadField <$> field i
  | .ldflda => .fieldAddr <$> field i
  | .stfld => .storeField <$> field i
  | .ldsfld => .loadStatic <$> field i
  | .ldsflda => .staticAddr <$> field i
  | .stsfld => .storeStatic <$> field i
  | .ldindI1 | .ldindU1 | .ldindI2 | .ldindU2 | .ldindI4 | .ldindU4 | .ldindI8 | .ldindI
  | .ldindR4 | .ldindR8 | .ldindRef => .ok (.loadIndirect ((accessPrim? i.op).map .prim))
  | .stindI1 | .stindI2 | .stindI4 | .stindI8 | .stindI | .stindR4 | .stindR8 | .stindRef =>
    .ok (.storeIndirect ((accessPrim? i.op).map .prim))
  | .ldobj => do return .loadIndirect (some (← type i))
  | .stobj => do return .storeIndirect (some (← type i))
  | .ldelema => .elementAddr <$> type i
  | .ldelemI1 | .ldelemU1 | .ldelemI2 | .ldelemU2 | .ldelemI4 | .ldelemU4 | .ldelemI8 | .ldelemI
  | .ldelemR4 | .ldelemR8 | .ldelemRef | .ldelem => .ok (.loadElement (elementTy i))
  | .stelemI | .stelemI1 | .stelemI2 | .stelemI4 | .stelemI8 | .stelemR4 | .stelemR8
  | .stelemRef | .stelem => .ok (.storeElement (elementTy i))
  | .ldlen => .ok (.intrinsic .arrayLen [] .nuint)
  | .newarr => onType i .newArray .array
  | .castclass => onType i .castClass id
  | .isinst => onType i .isInst id
  | .box => onType i .box fun _ => .object
  | .unbox => onType i .unbox .byRef
  | .unboxAny => onType i .unboxAny id
  | .initobj => onType i .initObj fun _ => .void
  | .sizeof => onType i .sizeOf fun _ => .u32
  | .ldtoken =>
    match i.operand with
    | .entity e => .ok (.intrinsic .loadToken [e] (handleTy e))
    | _ => missing i .token
  | .localloc => .ok (.intrinsic .stackAlloc [] (.pointer .u8))
  | .throw => .ok .throw
  | .rethrow => .ok .rethrow
  | .leave | .leaveS => .leave <$> target i
  | .endfinally => .ok .endFinally
  | .endfilter => .ok .endFilter
  | .constrained => .constrained <$> type i
  | .volatile => .ok .volatile
  | .unaligned => .ok .unaligned
  | .readonly => .ok .readonly
  | .tail => .ok .tail
  | op => .error (.notSupported op)

end

end Action

end MethodIR.Bytecode
