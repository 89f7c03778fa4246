import MethodIR.Proofs.Changes
import MethodIR.Proofs.UseLists

/-!
# Edits and their steps

What relates a body to the one after each step of an edit relates it to the one after the edit
(`Body.AcrossEdges`, `Body.AcrossPlaces`), and so for operations (`Body.AcrossOps.changes`). Edits of operands
leave blocks, places, types and targets alone (`Body.SameShape`).
-/

namespace MethodIR

open Kind Body

namespace Inst

variable {x y z : Inst}

/-- `y` differs from `x` in its operands and uses at most, and as a phi in its incoming blocks. -/
structure SameShape (x y : Inst) : Prop where
  ty : y.ty = x.ty
  block : y.block = x.block
  isRemoved : y.isRemoved = x.isRemoved
  successors : y.kind.successors = x.kind.successors
  isPhi : y.kind.isPhi = x.kind.isPhi

lemma SameShape.refl (x : Inst) : x.SameShape x := ⟨rfl, rfl, rfl, rfl, rfl⟩

lemma SameShape.trans (h : x.SameShape y) (k : y.SameShape z) : x.SameShape z :=
  ⟨k.ty.trans h.ty, k.block.trans h.block, k.isRemoved.trans h.isRemoved,
    k.successors.trans h.successors, k.isPhi.trans h.isPhi⟩

lemma sameShape_of_bare (h : x.bare = y.bare) : x.SameShape y := by
  obtain ⟨hkind, hty, -, hblock, hremoved⟩ := bare_eq_iff.1 h
  exact ⟨hty.symm, hblock.symm, hremoved.symm, by rw [hkind], by rw [hkind]⟩

lemma sameShape_cleared (x : Inst) : x.SameShape x.cleared := by
  refine ⟨rfl, rfl, rfl, ?_, ?_⟩ <;> cases hk : x.kind <;> simp [cleared, hk, successors, isPhi]

end Inst

namespace Body

variable {body x y : Body} {i j : InstId} {a b c old new : BlockId} {v w : Value} {l : List InstId}

/-! ## The steps -/

/-- The body after an edge was taken away, arguments of phis apart. -/
def cut (body : Body) (a b : BlockId) : Body :=
  (body.modifyBlock a fun x => { x with succs := x.succs.erase b }).modifyBlock b fun x =>
    { x with preds := x.preds.filter (· ≠ a) }

lemma disconnect_eq (h : b ∈ body.succs a) : body.disconnect a b = ((body.cut a b).removePhiArgs b a).bump := by
  rw [disconnect, if_pos h]
  rfl

lemma disconnect_of_not_mem (h : b ∉ body.succs a) : body.disconnect a b = body := by
  rw [disconnect, if_neg h]

def fasten (body : Body) (i : InstId) (b : BlockId) (l : List InstId) : Body :=
  (body.modifyInst i fun x => { x with block := some b }).modifyBlock b fun x => { x with insts := l }

lemma kind_fasten : (body.fasten i b l).kind j = body.kind j := by
  rw [fasten, kind, inst_modifyBlock, inst_modifyInst]
  split <;> rfl

lemma attach_eq_fasten (l : List InstId) : body.attach i b l =
    (body.kind i).successors.foldl (·.connect b ·) (body.fasten i b l) := by
  rw [← kind_fasten (b := b) (l := l)]
  rfl

def loosen (body : Body) (i : InstId) (b : BlockId) : Body :=
  (body.modifyInst i fun x => { x with block := none }).modifyBlock b fun x =>
    { x with insts := x.insts.erase i }

lemma detach_eq (hb : (body.inst i).block = some b) : body.detach i =
    ((body.loosen i b).kind i).successors.foldl (·.disconnectUnnamed b ·) (body.loosen i b) := by
  rw [detach, hb]
  rfl

lemma detach_of_none (hb : (body.inst i).block = none) : body.detach i = body := by
  rw [detach, hb]

/-- The body after the targets of instructions were changed, edges apart. -/
def rename (body : Body) (old new : BlockId) (is : List InstId) : Body :=
  is.foldl (fun body i => body.modifyInst i fun x => { x with kind := x.kind.retarget old new }) body

def branching (body : Body) (b : BlockId) : List InstId :=
  (body.instsOf b).filter fun i => (body.kind i).isTerminator || (body.kind i).isGuard

lemma retarget_eq (old new : BlockId) : body.retarget b old new =
    ((body.rename old new (body.branching b)).connect b new).disconnectUnnamed b old := rfl

def emptied (body : Body) (b : BlockId) : Body :=
  (body.instsOf b).foldl (·.discard ·) ((body.instsOf b).reverse.foldl (·.detach ·) body)

def markErased (body : Body) (b : BlockId) : Body :=
  ({ body with layout := body.layout.remove b }.modifyBlock b fun x => { x with isRemoved := true }).bump

lemma eraseBlock_eq : body.eraseBlock b =
    (((body.emptied b).succs b).foldl (·.disconnect b ·) (body.emptied b)).markErased b := rfl

def pushArg (body : Body) (φ : InstId) (b : BlockId) (w : Value) : Body :=
  (body.modifyInst φ fun x => { x with kind := .phi (x.kind.blocks ++ [b]) }).pushOperand φ w

/-! ## One step after the other -/

structure Stepwise (R : Body → Body → Prop) : Prop where
  refl (x : Body) : R x x
  trans {x y z : Body} : R x y → R y z → R x z

variable {R : Body → Body → Prop}

lemma stepwise_kept (P : Body → Prop) : Stepwise fun x y => P x → P y := ⟨fun _ => id, fun h k => k ∘ h⟩

lemma Stepwise.foldl (h : Stepwise R) {α : Type} {f : Body → α → Body} (hf : ∀ x a, R x (f x a))
    (as : List α) (x : Body) : R x (as.foldl f x) := by
  induction as generalizing x with
  | nil => exact h.refl x
  | cons a as ih => exact h.trans (hf x a) (ih (f x a))

lemma Stepwise.replaceUses (h : Stepwise R) (hmove : ∀ x u, R x (x.moveUse v w u)) :
    R x (x.replaceUses v w) := by
  rw [Body.replaceUses]
  split
  · exact h.refl x
  · exact h.foldl hmove _ x

lemma isPhi_of_phiSlot {n : Nat} (h : body.phiSlot? i b = some n) : (body.kind i).isPhi := by
  cases hk : body.kind i <;> simp [phiSlot?, hk] at h
  rfl

lemma Stepwise.removePhiArgs (h : Stepwise R)
    (hslot : ∀ x i n, (x.kind i).isPhi → R x (x.removePhiSlot i n)) : R x (x.removePhiArgs a b) := by
  refine h.foldl (fun x i => ?_) _ x
  generalize (x.kind i).blocks.length = n
  induction n generalizing x with
  | zero => exact h.refl x
  | succ n ih =>
    rw [removePhiSlots]
    split
    · next slot hfound => exact h.trans (hslot x i slot (isPhi_of_phiSlot hfound)) (ih _)
    · exact h.refl x

lemma Stepwise.disconnect (h : Stepwise R) (hcut : R x (x.cut a b)) (hbump : ∀ x, R x x.bump)
    (hslot : ∀ x i n, (x.kind i).isPhi → R x (x.removePhiSlot i n)) : R x (x.disconnect a b) := by
  by_cases hmem : b ∈ x.succs a
  · rw [disconnect_eq hmem]
    exact h.trans hcut (h.trans (h.removePhiArgs hslot) (hbump _))
  · rw [disconnect_of_not_mem hmem]
    exact h.refl x

section

variable (h : Stepwise R) (hdetach : ∀ x i, R x (x.detach i)) (hdiscard : ∀ x i, R x (x.discard i))
include h hdetach hdiscard

lemma Stepwise.emptied : R x (x.emptied b) := h.trans (h.foldl hdetach _ x) (h.foldl hdiscard _ _)

lemma Stepwise.cleared (hdisconnect : ∀ x c, R x (x.disconnect b c)) :
    R x (((x.emptied b).succs b).foldl (·.disconnect b ·) (x.emptied b)) :=
  h.trans (h.emptied hdetach hdiscard) (h.foldl hdisconnect _ _)

lemma Stepwise.eraseBlock (hdisconnect : ∀ x c, R x (x.disconnect b c))
    (hmark : ∀ x, R x (x.markErased b)) : R x (x.eraseBlock b) := by
  rw [eraseBlock_eq]
  exact h.trans (h.cleared hdetach hdiscard hdisconnect) (hmark _)

end

/-- A relation that holds across every edit of edges. -/
structure AcrossEdges (R : Body → Body → Prop) : Prop extends Stepwise R where
  connect {x : Body} {a b : BlockId} : R x (x.connect a b)
  disconnect {x : Body} {a b : BlockId} : R x (x.disconnect a b)
  target {x : Body} {i : InstId} {old new : BlockId} :
    R x (x.modifyInst i fun y => { y with kind := y.kind.retarget old new })

section

variable (h : AcrossEdges R)
include h

lemma AcrossEdges.disconnectUnnamed : R x (x.disconnectUnnamed a b) := by
  rw [Body.disconnectUnnamed]
  split
  · exact h.refl x
  · exact h.disconnect

lemma AcrossEdges.loosened (hb : (x.inst i).block = some b) : R (x.loosen i b) (x.detach i) := by
  rw [detach_eq hb]
  exact h.foldl (fun _ _ => h.disconnectUnnamed) _ _

lemma AcrossEdges.rename (is : List InstId) : R x (x.rename old new is) :=
  h.foldl (fun _ _ => h.target) is x

lemma AcrossEdges.retarget : R x (x.retarget b old new) := by
  rw [retarget_eq]
  exact h.trans (h.rename _) (h.trans h.connect h.disconnectUnnamed)

end

/-- A relation that holds across every edit of edges and places. -/
structure AcrossPlaces (R : Body → Body → Prop) : Prop extends AcrossEdges R where
  place {x : Body} {i : InstId} {place : Option BlockId} :
    R x (x.modifyInst i fun y => { y with block := place })
  list {x : Body} {b : BlockId} (f : List InstId → List InstId) :
    R x (x.modifyBlock b fun y => { y with insts := f y.insts })

lemma AcrossPlaces.attach (h : AcrossPlaces R) : R x (x.attach i b l) := by
  rw [attach_eq_fasten]
  exact h.trans (h.trans h.place (h.list fun _ => l)) (h.foldl (fun _ _ => h.connect) _ _)

lemma AcrossPlaces.detach (h : AcrossPlaces R) : R x (x.detach i) := by
  cases hb : (x.inst i).block with
  | none =>
    rw [detach_of_none hb]
    exact h.refl x
  | some b =>
    exact h.trans (h.trans h.place (h.list (·.erase i))) (h.loosened hb)

variable {z : Body} {u : Use}

/-- `y` has the blocks of `x`, and its instructions have the places and targets they have in `x`. -/
structure SameControl (x y : Body) : Prop where
  blocks : y.blocks = x.blocks
  layout : y.layout = x.layout
  entry : y.entry = x.entry
  size : y.insts.size = x.insts.size
  home : ∀ i, (y.inst i).block = (x.inst i).block
  isRemoved : ∀ i, (y.inst i).isRemoved = (x.inst i).isRemoved
  successors : ∀ i, (y.kind i).successors = (x.kind i).successors

section

variable (h : SameControl x y)
include h

lemma SameControl.trans (k : SameControl y z) : SameControl x z :=
  ⟨k.blocks.trans h.blocks, k.layout.trans h.layout, k.entry.trans h.entry, k.size.trans h.size,
    fun i => (k.home i).trans (h.home i), fun i => (k.isRemoved i).trans (h.isRemoved i),
    fun i => (k.successors i).trans (h.successors i)⟩

lemma SameControl.block (b : BlockId) : y.block b = x.block b := by
  rw [Body.block, h.blocks, Body.block]

lemma SameControl.instsOf (b : BlockId) : y.instsOf b = x.instsOf b := by
  rw [Body.instsOf, h.block, Body.instsOf]

lemma SameControl.targets (b : BlockId) : y.targets b = x.targets b := by
  simp only [Body.targets, h.instsOf, h.successors]

end

/-- `y` differs from `x` in operands and uses at most, and in what goes with the operands of phis. -/
structure SameShape (x y : Body) : Prop where
  blocks : y.blocks = x.blocks
  layout : y.layout = x.layout
  entry : y.entry = x.entry
  version : y.cfgVersion = x.cfgVersion
  vars : y.vars = x.vars
  args : y.args.map Arg.ty = x.args.map Arg.ty
  returnTy : y.returnTy = x.returnTy
  size : y.insts.size = x.insts.size
  inst : ∀ i, (x.inst i).SameShape (y.inst i)

lemma SameShape.trans (h : SameShape x y) (k : SameShape y z) : SameShape x z :=
  ⟨k.blocks.trans h.blocks, k.layout.trans h.layout, k.entry.trans h.entry, k.version.trans h.version,
    k.vars.trans h.vars, k.args.trans h.args, k.returnTy.trans h.returnTy, k.size.trans h.size,
    fun i => (h.inst i).trans (k.inst i)⟩

lemma SameShape.stepwise : Stepwise SameShape where
  refl _ := ⟨rfl, rfl, rfl, rfl, rfl, rfl, rfl, rfl, fun _ => .refl _⟩
  trans := .trans

lemma SameShape.control (h : SameShape x y) : SameControl x y :=
  ⟨h.blocks, h.layout, h.entry, h.size, fun i => (h.inst i).block, fun i => (h.inst i).isRemoved,
    fun i => (h.inst i).successors⟩

lemma sameShape_of_bare (h : x.bare = y.bare) : SameShape x y := by
  have hty : ∀ z : Body, z.args.map Arg.ty = z.bare.args.map Arg.ty := fun z => by
    simp only [bare, Array.map_map]
    rfl
  have hsize := congrArg (fun z : Body => z.insts.size) h
  exact ⟨(congrArg blocks h).symm, (congrArg layout h).symm, (congrArg entry h).symm,
    (congrArg cfgVersion h).symm, (congrArg vars h).symm, by rw [hty y, hty x, h],
    (congrArg returnTy h).symm, by simpa [bare] using hsize.symm,
    fun i => Inst.sameShape_of_bare (bare_inst_congr h i)⟩

lemma sameShape_modifyInst {f : Inst → Inst} (hf : (body.inst i).SameShape (f (body.inst i))) :
    SameShape body (body.modifyInst i f) := by
  refine ⟨rfl, rfl, rfl, rfl, rfl, rfl, rfl, by simp [modifyInst], fun j => ?_⟩
  rw [inst_modifyInst]
  split
  · next hij => exact hij.1 ▸ hf
  · exact .refl _

lemma sameShape_pushOperand : SameShape body (body.pushOperand i v) :=
  (sameShape_modifyInst ⟨rfl, rfl, rfl, rfl, rfl⟩).trans (sameShape_of_bare bare_pushOperand.symm)

lemma sameShape_moveUse : SameShape body (body.moveUse v w u) :=
  (sameShape_modifyInst ⟨rfl, rfl, rfl, rfl, rfl⟩).trans (sameShape_of_bare moveUse_bare.symm)

lemma sameShape_replaceUses : SameShape body (body.replaceUses v w) :=
  SameShape.stepwise.replaceUses fun _ _ => sameShape_moveUse

lemma sameShape_dropOperands : SameShape body (body.dropOperands i) :=
  (sameShape_modifyInst (Inst.sameShape_cleared _)).trans (sameShape_of_bare bare_dropOperands.symm)

lemma sameShape_removePhiSlot (n : Nat) : SameShape body (body.removePhiSlot i n) := by
  refine .trans (sameShape_modifyInst ⟨rfl, rfl, rfl, ?_, ?_⟩) (sameShape_of_bare (bare_removePhiSlot n).symm) <;>
    cases hk : (body.inst i).kind <;> simp [successors, isPhi]

lemma sameShape_removePhiArgs : SameShape body (body.removePhiArgs a b) :=
  SameShape.stepwise.removePhiArgs fun _ _ n _ => sameShape_removePhiSlot n

lemma sameShape_pushArg (hphi : (body.kind i).isPhi) : SameShape body (body.pushArg i b v) := by
  refine SameShape.trans (sameShape_modifyInst ⟨rfl, rfl, rfl, ?_, ?_⟩) sameShape_pushOperand
  all_goals
    rw [kind] at hphi
    cases hk : (body.inst i).kind <;> simp_all [isPhi, successors]

lemma sameShape_addInst (kind : Kind) (vs : List Value) (ty : Ty) :
    SameShape (body.pushInst { kind, ty }) (body.addInst kind vs ty) :=
  SameShape.stepwise.foldl (fun _ _ => sameShape_pushOperand) _ _

end Body

end MethodIR
