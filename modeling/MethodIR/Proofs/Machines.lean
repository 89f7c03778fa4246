import Mathlib
import MethodIR.Import.Lowering

/-!
# Two machines

Bytecode is run on an evaluation stack, a body on the values of its instructions and variables. What an
operation gives is any function of all that has been done so far (`effects`), so both machines agree if
they do the same things to the same values in the same order. Outcomes of branches come from outside.
-/

namespace MethodIR

open Function

/-- What is done to operands, apart from variables and targets. -/
inductive Label where
  | op (kind : Kind) (ty : Ty)
  | address (slot : Variable.Origin) (ty : Ty)
  | branch
  | switch (entries : Nat)
  | ret
  | throw (again : Bool)
  | resume
  deriving DecidableEq

structure Effect (V : Type) where
  label : Label
  operands : List V

/-- The meaning of what is not storage. -/
structure Meaning (V : Type) where
  const : Const → V
  undef : Ty → V
  arg : Nat → V
  /-- What a slot holds that nothing has been stored to. -/
  initial : Variable.Origin → V
  /-- The value of the latest effect, given all of them, the latest first. -/
  result : List (Effect V) → V

variable {V : Type}

/-! ## Bytecode -/

namespace Bytecode

def Storage.origin : Storage → Variable.Origin
  | .argument n => .argument n
  | .local n => .local n

/-- The declared type of a slot of the frame. -/
def slotTy? (m : Bytecode) : Storage → Option Ty
  | .argument n => m.argTypes[n]?
  | .local n => m.locals[n]?.map Local.ty

structure Machine (V : Type) where
  offset : Nat := 0
  /-- Values with their static types, top first. -/
  stack : List (V × Ty) := []
  slots : Storage → V
  /-- The prefixes of the next instruction. -/
  modifiers : Import.Modifiers := {}
  /-- The latest first. -/
  effects : List (Effect V) := []
  /-- The outcomes to come of branches and switches. -/
  choices : Nat → Nat
  /-- The starts of the blocks that were entered, the latest first. -/
  path : List Nat := [0]
  halted : Bool := false

/-- Where control goes after an instruction. -/
inductive Transfer where
  | next
  | goto (target : Nat)
  | stop

namespace Machine

open Import (unaryTy binaryTy)

/-- A step that may get stuck. -/
abbrev Exec (V : Type) := StateT (Machine V) Option

def push (v : V × Ty) : Exec V Unit := modify fun s => { s with stack := v :: s.stack }

def pop : Exec V (V × Ty) := fun s =>
  match s.stack with
  | [] => none
  | v :: stack => some (v, { s with stack })

/-- Pops `n` values and gives them in the order in which they were pushed. -/
def popMany (n : Nat) : Exec V (List V) := fun s =>
  if s.stack.length < n then none
  else some (((s.stack.take n).map Prod.fst).reverse, { s with stack := s.stack.drop n })

def clear : Exec V Unit := modify fun s => { s with stack := [] }

def modifyNext (f : Import.Modifiers → Import.Modifiers) : Exec V Unit :=
  modify fun s => { s with modifiers := f s.modifiers }

def choose : Exec V Nat :=
  modifyGet fun s => (s.choices 0, { s with choices := fun n => s.choices (n + 1) })

section

variable (I : Meaning V)

def emit (label : Label) (operands : List V) : Exec V V := modifyGet fun s =>
    let effects := ⟨label, operands⟩ :: s.effects
    (I.result effects, { s with effects })

def operate (kind : Kind) (operands : List V) (ty : Ty) : Exec V Unit := do
  push (← emit I (.op kind ty) operands, ty)

/-- An operation whose result is not pushed if it is void. -/
def operateResult (kind : Kind) (operands : List V) (ty : Ty) : Exec V Unit := do
  let v ← emit I (.op kind ty) operands
  unless ty.isVoid do push (v, ty)

def loadFrom (address : V) (ty : Ty) : Exec V Unit := do
  operate I (.load (← get).modifiers.flags) [address] ty

def storeAt (address value : V) (ty : Ty) : Exec V Unit := do
  discard <| emit I (.op (.store ty (← get).modifiers.flags) .void) [address, value]

def fieldAddr (f : Field) (object : List V) : Exec V V := emit I (.op (.fieldAddr f) (.byRef f.ty)) object

def elementAddr (array index : V) (ty : Ty) : Exec V V := do
  emit I (.op (.arrayAddr ty (← get).modifiers.isReadonly) (.byRef ty)) [array, index]

/-- What a value of that type points to or holds. -/
def pointee (ty : Ty) : Ty := ty.element?.getD .object

def elementTy (array : Ty) : ElementTy → Option Ty
  | .given t => some t
  | .ofArray => some (pointee array)
  | .missing => none

/-- Branches on a value, which the next outcome says to be zero or not. -/
def branchOn (condition : V) (target : Option Nat) (isNegated : Bool) : Exec V Transfer := do
  let target ← StateT.lift target
  discard <| emit I .branch [condition]
  let isTrue : Bool := (← choose) ≠ 0
  return if isTrue ≠ isNegated then .goto target else .next

/-- Ends the run. -/
def finish (label : Label) (operands : List V) : Exec V Transfer := do
  discard <| emit I label operands
  return .stop

/-- The value of a slot of the frame. -/
def readSlot (m : Bytecode) (slot : Storage) : Exec V (V × Ty) := do
  let ty ← StateT.lift (m.slotTy? slot)
  return ((← get).slots slot, ty)

def writeSlot (m : Bytecode) (slot : Storage) (v : V) : Exec V Unit := do
  discard <| StateT.lift (m.slotTy? slot)
  modify fun s => { s with slots := update s.slots slot v }

def slotAddr (m : Bytecode) (slot : Storage) : Exec V (V × Ty) := do
  let ty := .byRef (← StateT.lift (m.slotTy? slot))
  return (← emit I (.address slot.origin ty) [], ty)

/-- Carries out what an instruction does. -/
def perform (m : Bytecode) : Action → Exec V Transfer
  | .skip | .tail => return .next
  | .load s => do
    push (← readSlot m s)
    return .next
  | .store s => do
    let (v, _) ← pop
    writeSlot m s v
    return .next
  | .address s => do
    push (← slotAddr I m s)
    return .next
  | .push c => do
    push (I.const c, c.ty)
    return .next
  | .dup => do
    let v ← pop
    push v
    push v
    return .next
  | .drop => do
    discard pop
    return .next
  | .unary o => do
    let (v, ty) ← pop
    operate I (.unary o) [v] (unaryTy ty)
    return .next
  | .binary o => do
    let (right, rightTy) ← pop
    let (left, leftTy) ← pop
    operate I (.binary o) [left, right] (binaryTy o leftTy rightTy)
    return .next
  | .compare o => do
    let (right, _) ← pop
    let (left, _) ← pop
    operate I (.compare o) [left, right] .bool
    return .next
  | .convert ty checked fromUnsigned => do
    let (v, _) ← pop
    operate I (.convert checked fromUnsigned) [v] ty
    return .next
  | .jump t => return .goto t
  | .leave t => do
    clear
    return .goto t
  | .branch t isNegated => do
    let (v, _) ← pop
    branchOn I v t isNegated
  | .compareBranch o t => do
    let (right, _) ← pop
    let (left, _) ← pop
    branchOn I (← emit I (.op (.compare o) .bool) [left, right]) t false
  | .switch ts => do
    let (selector, _) ← pop
    discard <| emit I (.switch ts.length) [selector]
    match ts[← choose]? with
    | some t => return .goto t
    | none => return .next
  | .ret => do
    let operands ← if m.sig.ret.isVoid then pure [] else do pure [(← pop).1]
    unless (← get).stack.isEmpty do failure
    finish I .ret operands
  | .call callee isVirtual => do
    let args ← popMany callee.sig.argCount
    let constraint := (← get).modifiers.constrained
    operateResult I (.call callee isVirtual constraint) args callee.sig.ret
    return .next
  | .newObj ctor => do
    operate I (.newObj ctor) (← popMany ctor.sig.params.length) ctor.declaring
    return .next
  | .funcAddr f isVirtual => do
    let operands ← if isVirtual then do pure [(← pop).1] else pure []
    operate I (.funcAddr f isVirtual) operands .nint
    return .next
  | .loadField f => do
    let (object, ty) ← pop
    if ty.stackClass = .struct then operate I (.extractField f) [object] f.ty
    else loadFrom I (← fieldAddr I f [object]) f.ty
    return .next
  | .fieldAddr f => do
    let (object, _) ← pop
    push (← fieldAddr I f [object], .byRef f.ty)
    return .next
  | .storeField f => do
    let (value, _) ← pop
    let (object, _) ← pop
    storeAt I (← fieldAddr I f [object]) value f.ty
    return .next
  | .loadStatic f => do
    loadFrom I (← fieldAddr I f []) f.ty
    return .next
  | .staticAddr f => do
    push (← fieldAddr I f [], .byRef f.ty)
    return .next
  | .storeStatic f => do
    let (value, _) ← pop
    storeAt I (← fieldAddr I f []) value f.ty
    return .next
  | .loadIndirect ty => do
    let (address, addressTy) ← pop
    loadFrom I address (ty.getD (pointee addressTy))
    return .next
  | .storeIndirect ty => do
    let (value, _) ← pop
    let (address, addressTy) ← pop
    storeAt I address value (ty.getD (pointee addressTy))
    return .next
  | .elementAddr ty => do
    let (index, _) ← pop
    let (array, _) ← pop
    push (← elementAddr I array index ty, .byRef ty)
    return .next
  | .loadElement ty => do
    let (index, _) ← pop
    let (array, arrayTy) ← pop
    let ty ← StateT.lift (elementTy arrayTy ty)
    loadFrom I (← elementAddr I array index ty) ty
    return .next
  | .storeElement ty => do
    let (value, _) ← pop
    let (index, _) ← pop
    let (array, arrayTy) ← pop
    let ty ← StateT.lift (elementTy arrayTy ty)
    storeAt I (← elementAddr I array index ty) value ty
    return .next
  | .intrinsic id args result => do
    let operands ← if id.arity = 0 then pure [] else do pure [(← pop).1]
    operateResult I (.intrinsic id args) operands result
    return .next
  | .throw => do
    let (v, _) ← pop
    finish I (.throw false) [v]
  | .rethrow => finish I (.throw true) []
  | .endFinally => finish I .resume []
  | .endFilter => do
    let (v, _) ← pop
    finish I .resume [v]
  | .constrained ty => do
    modifyNext fun x => { x with constrained := some ty }
    return .next
  | .volatile => do
    modifyNext fun x => { x with flags := { x.flags with isVolatile := true } }
    return .next
  | .unaligned => do
    modifyNext fun x => { x with flags := { x.flags with isUnaligned := true } }
    return .next
  | .readonly => do
    modifyNext fun x => { x with isReadonly := true }
    return .next

/-- Comes to an offset. At the start of a block the values on the stack are of the types that the
block expects, top first, and no prefix is pending. -/
def arrive (shape : Nat → Option (List Ty)) (offset : Nat) (s : Machine V) : Option (Machine V) :=
  match shape offset with
  | none => some { s with offset }
  | some tys =>
    if tys.length = s.stack.length then
      some { s with
        offset
        stack := (s.stack.map Prod.fst).zip tys
        modifiers := {}
        path := offset :: s.path }
    else none

/-- Runs the instruction at the current offset. -/
def step (m : Bytecode) (shape : Nat → Option (List Ty)) (s : Machine V) : Option (Machine V) :=
  if s.halted then some s
  else do
    let i ← m.code.toList.find? (·.offset = s.offset)
    let action ← (Action.ofInstruction i).toOption
    let (transfer, s) ← perform I m action s
    let s := if action.isModifier then s else { s with modifiers := {} }
    match transfer with
    | .next => s.arrive shape i.endOffset
    | .goto t => s.arrive shape t
    | .stop => some { s with halted := true }

/-- The machine at the start of a method. -/
def start (choices : Nat → Nat) : Machine V :=
  { slots := fun
      | .argument n => I.arg n
      | .local n => I.initial (.local n)
    choices }

/-- The machine after a number of steps. -/
def run (m : Bytecode) (shape : Nat → Option (List Ty)) (choices : Nat → Nat) : Nat → Option (Machine V)
  | 0 => some (start I choices)
  | n + 1 => (run m shape choices n).bind (step I m shape)

end

end Machine

end Bytecode

/-! ## Bodies -/

namespace Body

structure Machine (V : Type) where
  block : BlockId
  env : InstId → V
  vars : VarId → V
  /-- The latest first. -/
  effects : List (Effect V) := []
  /-- The outcomes to come of branches and switches. -/
  choices : Nat → Nat
  /-- The blocks that were entered, the latest first. -/
  path : List BlockId
  halted : Bool := false

namespace Machine

section

variable (I : Meaning V) (body : Body)

def eval (env : InstId → V) : Value → V
  | .const c => I.const c
  | .undef t => I.undef t
  | .arg a => I.arg a.index
  | .inst i => env i

/-- What an instruction does to its operands, nothing for those that only copy or pass control on. -/
def label? (x : Inst) : Option Label :=
  match x.kind with
  | .loadVar _ | .storeVar _ | .phi _ | .guard .. | .jump _ | .leave _ => none
  | .varAddr v => some (.address (body.var v).origin x.ty)
  | .branch .. => some .branch
  | .switch ts _ => some (.switch ts.length)
  | .ret => some .ret
  | .throw again => some (.throw again)
  | .resume => some .resume
  | kind => some (.op kind x.ty)

/-- Executes an instruction. -/
def exec (s : Machine V) (i : InstId) : Machine V :=
  let x := body.inst i
  let operands := x.operands.map (eval I s.env)
  match x.kind, operands with
  | .loadVar v, _ => { s with env := update s.env i (s.vars v) }
  | .storeVar v, [value] => { s with vars := update s.vars v value }
  | _, _ =>
    match label? body x with
    | some label =>
      let effects := ⟨label, operands⟩ :: s.effects
      { s with effects, env := update s.env i (I.result effects) }
    | none => s

def enter (s : Machine V) (block : BlockId) : Machine V :=
  { s with block, path := block :: s.path }

/-- Passes control on as a terminator says. -/
def follow (s : Machine V) : Kind → Option (Machine V)
  | .jump t | .leave t => some (s.enter t)
  | .branch yes no =>
    some ({ s with choices := fun n => s.choices (n + 1) }.enter (if s.choices 0 ≠ 0 then yes else no))
  | .switch ts d =>
    some ({ s with choices := fun n => s.choices (n + 1) }.enter (ts.getD (s.choices 0) d))
  | .ret | .throw _ | .resume => some { s with halted := true }
  | _ => none

/-- Runs the current block. -/
def step (s : Machine V) : Option (Machine V) :=
  if s.halted then some s
  else do
    let last ← body.terminator? s.block
    ((body.instsOf s.block).foldl (exec I body) s).follow (body.kind last)

/-- The machine at the entry of a body. -/
def start (entry : BlockId) (choices : Nat → Nat) : Machine V :=
  { block := entry
    env := fun _ => I.undef .void
    vars := fun v => I.initial (body.var v).origin
    choices
    path := [entry] }

/-- The machine after a number of blocks. -/
def run (choices : Nat → Nat) : Nat → Option (Machine V)
  | 0 => body.entry.map fun entry => start I body entry choices
  | n + 1 => (run choices n).bind (step I body)

end

end Machine

end Body

end MethodIR
