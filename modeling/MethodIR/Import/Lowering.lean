import MethodIR.Import.Spill

/-!
# Lowering

What each action adds to the block and does to the evaluation stack, and the lowering of a segment,
instruction by instruction.
-/

namespace MethodIR.Import

open Traced
open Bytecode (Action ElementTy)

/-- The type of the result of an operation on values of two types. -/
def binaryTy (op : BinaryOp) (left right : Ty) : Ty :=
  if op.isShift then left.stackClass.resultTy
  else match left.stackClass, right.stackClass with
  | .byRef, .byRef => .nint
  | .byRef, _ => left
  | _, .byRef => right
  | l, r =>
    if l = .float ∧ r = .float ∧ left = right then left
    else if l = .nint then
      match left with
      | .pointer _ => left
      | _ => .nint
    else if r = .nint then .nint
    else l.resultTy

def unaryTy (ty : Ty) : Ty := if ty.isFloat then ty else ty.stackClass.resultTy

def compare (op : CompareOp) : M Value := do
  let right ← pop
  let left ← pop
  emit (.compare op) [left, right] .bool

def loadFrom (address : Value) (ty : Ty) : M Unit := do
  emitPush (.load (← getState).cursor.modifiers.flags) [address] ty

def storeAt (address value : Value) (ty : Ty) : M Unit := do
  emitVoid (.store ty (← getState).cursor.modifiers.flags) [address, value]

def fieldAddr (f : Field) (object : List Value) : M Value :=
  emit (.fieldAddr f) object (.byRef f.ty)

def elementAddr (array index : Value) (ty : Ty) : M Value := do
  emit (.arrayAddr ty (← getState).cursor.modifiers.isReadonly) [array, index] (.byRef ty)

/-- What a value points to or holds, an object if that is not known. -/
def pointeeTy (v : Value) : M Ty := do return (← valueTy v).element?.getD .object

def elementTy (op : Opcode) (array : Value) : ElementTy → M Ty
  | .given t => pure t
  | .ofArray => pointeeTy array
  | .missing => fail (.missingOperand op .type)

def modifyNext (f : Modifiers → Modifiers) : M Unit :=
  modifyState (·.modifyCursor fun c => { c with modifiers := f c.modifiers })

/-- Carries out an action of an instruction with opcode `op`. -/
def perform (op : Opcode) : Action → M Unit
  | .skip | .tail => pure ()
  | .load s => do push (← loadVar (← frameVar s))
  | .store s => do
    let v ← frameVar s
    storeVar v (← pop)
  | .address s => do varAddr (← frameVar s)
  | .push c => push (.const c)
  | .dup => do
    let v ← pop
    push v
    push v
  | .drop => discard pop
  | .unary o => do
    let v ← pop
    emitPush (.unary o) [v] (unaryTy (← valueTy v))
  | .binary o => do
    let right ← pop
    let left ← pop
    emitPush (.binary o) [left, right] (binaryTy o (← valueTy left) (← valueTy right))
  | .compare o => do push (← compare o)
  | .convert ty checked fromUnsigned => do
    emitPush (.convert checked fromUnsigned) [← pop] ty
  | .jump t => do passTo .jump (← segmentAt t)
  | .leave t => do
    setStack []
    passTo .leave (← segmentAt t)
  | .branch t isNegated => do
    let v ← pop
    branchOn v (← branchTarget op t) isNegated
  | .compareBranch o t => do
    let v ← compare o
    branchOn v (← branchTarget op t) false
  | .switch ts => do
    let selector ← pop
    let segments ← ts.mapM segmentAt
    let next ← fallThrough
    spill (segments ++ [next])
    emitVoid (.switch (← segments.mapM entryBlock) (← entryBlock next)) [selector]
  | .ret => do
    let operands ← if (← getState).body.returnTy.isVoid then pure [] else do pure [← pop]
    let rest := (← getState).cursor.stack
    unless rest.isEmpty do fail (.leftOver rest.length)
    emitVoid .ret operands
  | .call m isVirtual => do
    let args ← popMany m.sig.argCount
    let constraint := (← getState).cursor.modifiers.constrained
    emitResult (.call m isVirtual constraint) args m.sig.ret
  | .newObj ctor => do
    emitPush (.newObj ctor) (← popMany ctor.sig.params.length) ctor.declaring
  | .funcAddr m isVirtual => do
    let operands ← if isVirtual then do pure [← pop] else pure []
    emitPush (.funcAddr m isVirtual) operands .nint
  | .loadField f => do
    let object ← pop
    if (← valueTy object).stackClass = .struct then emitPush (.extractField f) [object] f.ty
    else loadFrom (← fieldAddr f [object]) f.ty
  | .fieldAddr f => do push (← fieldAddr f [← pop])
  | .storeField f => do
    let value ← pop
    storeAt (← fieldAddr f [← pop]) value f.ty
  | .loadStatic f => do loadFrom (← fieldAddr f []) f.ty
  | .staticAddr f => do push (← fieldAddr f [])
  | .storeStatic f => do
    let value ← pop
    storeAt (← fieldAddr f []) value f.ty
  | .loadIndirect ty => do
    let address ← pop
    loadFrom address (← ty.elim (pointeeTy address) pure)
  | .storeIndirect ty => do
    let value ← pop
    let address ← pop
    storeAt address value (← ty.elim (pointeeTy address) pure)
  | .elementAddr ty => do
    let index ← pop
    push (← elementAddr (← pop) index ty)
  | .loadElement ty => do
    let index ← pop
    let array ← pop
    let ty ← elementTy op array ty
    loadFrom (← elementAddr array index ty) ty
  | .storeElement ty => do
    let value ← pop
    let index ← pop
    let array ← pop
    let ty ← elementTy op array ty
    storeAt (← elementAddr array index ty) value ty
  | .intrinsic id args result => do
    let operands ← if id.arity = 0 then pure [] else do pure [← pop]
    emitResult (.intrinsic id args) operands result
  | .throw => do
    let v ← pop
    setStack []
    emitVoid (.throw false) [v]
  | .rethrow => do
    setStack []
    emitVoid (.throw true) []
  | .endFinally => do
    setStack []
    emitVoid .resume []
  | .endFilter => do
    let v ← pop
    setStack []
    emitVoid .resume [v]
  | .constrained ty => modifyNext fun m => { m with constrained := some ty }
  | .volatile => modifyNext fun m => { m with flags := { m.flags with isVolatile := true } }
  | .unaligned => modifyNext fun m => { m with flags := { m.flags with isUnaligned := true } }
  | .readonly => modifyNext fun m => { m with isReadonly := true }

def lower (i : Bytecode.Instruction) : M Unit := do
  modifyState (·.modifyCursor fun c => { c with offset := i.offset })
  let action ← MonadExcept.ofExcept (Action.ofInstruction i)
  perform i.op action
  unless action.isModifier do modifyNext fun _ => {}

/-- Puts what a segment finds on the evaluation stack there. -/
def enterStack (slots : List EntrySlot) : M Unit :=
  slots.forM fun
    | .value v => push v
    | .var v => do push (← loadVar v)

def codeBetween (m : Bytecode) (start stop : Nat) : Except Error (List Bytecode.Instruction) := do
  let first ← m.indexAt start
  let last ← m.indexAt stop
  if last < first then throw .outOfRange
  return (m.code.extract first last).toList

def lowerSegment (m : Bytecode) (n : Nat) : M Unit := do
  let x := (← getState).segment n
  let slots := x.entryStack.getD []
  modifyState fun s =>
    { s.modifySegment n fun x => { x with entryStack := some slots } with
      cursor := { index := n, block := x.block, inRegion := x.inRegion, offset := x.start } }
  enterStack slots
  let code ← MonadExcept.ofExcept (codeBetween m x.start x.stop)
  code.forM lower
  unless code.getLast?.any (·.op.endsBlock) do
    modifyState (·.modifyCursor fun c => { c with offset := x.stop })
    passTo .jump (← fallThrough)
  report (.lowered x.block x.start x.stop)

end MethodIR.Import
