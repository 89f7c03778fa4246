import MethodIR.Dominance.Tree

/-!
# Verification

Checks that a body keeps the rules that passes rely on: blocks have phis first and one terminator
last, edges are what the instructions name, use lists are exact, and every operand is defined where
it is used. The first broken rule is reported.
-/

namespace MethodIR

namespace Verify

def fail {α : Type} (d : Defect) : Except Error α := .error (.defect d)

def require (rule : Bool) (d : Defect) : Except Error Unit := if rule then .ok () else fail d

/-- The entry exists, is not removed and has no predecessors. -/
def entry (body : Body) : Except Error Unit :=
  match body.entry with
  | none => fail .noEntry
  | some e => do
    require (!(body.block e).isRemoved) (.entryRemoved e)
    require (body.preds e).isEmpty (.entryHasPreds e (body.preds e))

/-- The rest of the instructions of a block, after a non-phi or not. -/
def insts (body : Body) (b : BlockId) (afterNonPhi : Bool) : List InstId → Except Error Unit
  | [] => .ok ()
  | i :: rest => do
    let x := body.inst i
    require (!x.isRemoved) (.removedAttached i b)
    require (x.block == some b) (.otherBlock i b)
    require (!(x.kind.isPhi && afterNonPhi)) (.latePhi i b)
    require (!x.kind.isTerminator || rest.isEmpty) (.earlyTerminator i x.kind b)
    insts body b (afterNonPhi || !x.kind.isPhi) rest

/-- A block is not removed, has phis first and a terminator only last, and one if it is reachable. -/
def block (body : Body) (tree : DominatorTree) (b : BlockId) : Except Error Unit := do
  require (!(body.block b).isRemoved) (.removedInLayout b)
  insts body b false (body.instsOf b)
  require (!tree.isReachable b || (body.terminator? b).isSome) (.noTerminator b)

/-- Each of the successors of `b` is new, not removed and has `b` as predecessor. -/
def succs (body : Body) (b : BlockId) (before : List BlockId) : List BlockId → Except Error Unit
  | [] => .ok ()
  | s :: rest => do
    require (s ∉ before) (.duplicateEdge b s)
    require (!(body.block s).isRemoved) (.removedSuccessor b s)
    require (b ∈ body.preds s) (.missingPred b s)
    succs body b (before ++ [s]) rest

/-- The edges of a block are two-sided, are what its instructions name, and are what its phis have
arguments for. -/
def edges (body : Body) (b : BlockId) : Except Error Unit := do
  let ss := body.succs b
  let ps := body.preds b
  succs body b [] ss
  ps.forM fun p => require (b ∈ body.succs p) (.missingSucc p b)
  let targets := (body.targets b).eraseDups
  require (targets.length = ss.length && targets.all (· ∈ ss)) (.targetsDiffer b ss targets)
  (body.phis b).forM fun i => do
    let incoming := (body.phiArgs i).map Prod.fst
    require (incoming.length = ps.length && ps.all (· ∈ incoming))
      (.phiBlocksDiffer i b incoming ps)

def removed (body : Body) (i : InstId) : Except Error Unit := do
  let x := body.inst i
  require (!x.isRemoved || x.operands.isEmpty) (.removedHasOperands i)
  require (!x.isRemoved || x.uses.isEmpty) (.removedIsUsed i)

/-- Each of the uses of a value is listed once and holds it. -/
def uses (body : Body) (v : Value) (before : List Use) : List Use → Except Error Unit
  | [] => .ok ()
  | u :: rest => do
    require (u ∉ before) (.useListedTwice u)
    let user := body.inst u.inst
    require (!user.isRemoved && user.operands[u.slot]? == some v) (.staleUse v u)
    uses body v (u :: before) rest

def trackedValues (body : Body) : List Value :=
  body.argIds.map .arg ++ body.instIds.map .inst

def trackedSlots (body : Body) : Nat :=
  (body.insts.toList.flatMap Inst.operands).countP Value.isTracked

def listedUses (body : Body) : Nat :=
  ((trackedValues body).flatMap body.uses).length

/-- The use lists hold each slot with a tracked value once and nothing else. -/
def useLists (body : Body) : Except Error Unit := do
  body.instIds.forM (removed body)
  (trackedValues body).forM fun v => uses body v [] (body.uses v)
  let slots := trackedSlots body
  let listed := listedUses body
  require (listed = slots) (.missingUses slots listed)

/-- Whether a definition in block `home` is available to a phi for what comes from `pred`. -/
def availableFrom (tree : DominatorTree) (home pred : BlockId) : Bool :=
  !tree.isReachable pred || tree.dominates home pred

/-- An operand of `i` is defined where it is used: before it in its block, or in a block that
dominates the one it is needed in. -/
def operand (body : Body) (tree : DominatorTree) (b : BlockId) (before : List InstId) (i : InstId)
    (slot : Nat) (v : Value) : Except Error Unit :=
  match v with
  | .inst d =>
    match (body.inst d).block with
    | none => fail (.looseOperand i d)
    | some home =>
      let kind := body.kind i
      let ok := match kind with
        | .phi blocks => (blocks[slot]?).all (availableFrom tree home)
        | _ => if home = b then d ∈ before else tree.strictlyDominates home b
      require ok (.notDominated i kind b d)
  | _ => .ok ()

/-- The operands of the rest of the instructions of a block are defined where they are used. -/
def operands (body : Body) (tree : DominatorTree) (b : BlockId) (before : List InstId) :
    List InstId → Except Error Unit
  | [] => .ok ()
  | i :: rest => do
    (body.inst i).operands.zipIdx.forM fun (v, slot) => operand body tree b before i slot v
    operands body tree b (i :: before) rest

end Verify

def Body.verify (body : Body) : Except Error Unit := do
  Verify.entry body
  let tree ← DominatorTree.compute body
  body.order.forM fun b => do
    Verify.block body tree b
    Verify.edges body b
  Verify.useLists body
  (body.order.filter tree.isReachable).forM fun b =>
    Verify.operands body tree b [] (body.instsOf b)

end MethodIR
