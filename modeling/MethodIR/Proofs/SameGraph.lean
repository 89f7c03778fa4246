import MethodIR.Proofs.Places

/-!
# Edits inside blocks

Edits of instructions that pass control nowhere keep the graph of a body, its variables and its
arguments (`Body.SameGraph`).
-/

namespace MethodIR

open Tables

/-- A block without its instructions. -/
def Block.frame (x : Block) : Block := { x with insts := [] }

/-- What is left of a removed instruction. -/
def Inst.removed (x : Inst) : Inst :=
  { x.cleared with block := none, isRemoved := true }

lemma Inst.kind_removed {x : Inst} (hx : x.kind.isPhi = false) : x.removed.kind = x.kind := by
  cases hk : x.kind <;> simp_all [Inst.removed, Inst.cleared, Kind.isPhi]

namespace Body

variable {body x y z : Body} {i j : InstId} {b c : BlockId} {v : Value} {kind : Kind}

/-- `y` has the graph of `x` in the same version, and its variables and arguments. -/
structure SameGraph (x y : Body) : Prop where
  vars : y.vars = x.vars
  args : y.args.map Arg.ty = x.args.map Arg.ty
  returnTy : y.returnTy = x.returnTy
  layout : y.layout = x.layout
  entry : y.entry = x.entry
  version : y.cfgVersion = x.cfgVersion
  size : y.blocks.size = x.blocks.size
  frame : ∀ b, (y.block b).frame = (x.block b).frame

lemma SameGraph.refl (x : Body) : SameGraph x x := ⟨rfl, rfl, rfl, rfl, rfl, rfl, rfl, fun _ => rfl⟩

section

variable (h : SameGraph x y)
include h

lemma SameGraph.trans (k : SameGraph y z) : SameGraph x z :=
  ⟨k.vars.trans h.vars, k.args.trans h.args, k.returnTy.trans h.returnTy, k.layout.trans h.layout,
    k.entry.trans h.entry, k.version.trans h.version, k.size.trans h.size,
    fun b => (k.frame b).trans (h.frame b)⟩

lemma SameGraph.symm : SameGraph y x :=
  ⟨h.vars.symm, h.args.symm, h.returnTy.symm, h.layout.symm, h.entry.symm, h.version.symm,
    h.size.symm, fun b => (h.frame b).symm⟩

lemma SameGraph.succs (b : BlockId) : y.succs b = x.succs b := by
  have hframe := congrArg Block.succs (h.frame b)
  exact hframe

lemma SameGraph.preds (b : BlockId) : y.preds b = x.preds b := by
  have hframe := congrArg Block.preds (h.frame b)
  exact hframe

lemma SameGraph.isRemoved (b : BlockId) : (y.block b).isRemoved = (x.block b).isRemoved := by
  have hframe := congrArg Block.isRemoved (h.frame b)
  exact hframe

lemma SameGraph.order : y.order = x.order := congrArg Layout.order h.layout

lemma SameGraph.hasBlock (b : BlockId) : y.hasBlock b = x.hasBlock b := by
  rw [Body.hasBlock, h.size, Body.hasBlock]

lemma SameGraph.var (v : VarId) : y.var v = x.var v := by
  rw [Body.var, h.vars, Body.var]

lemma SameGraph.hasVar (v : VarId) : y.hasVar v = x.hasVar v := by
  rw [Body.hasVar, h.vars, Body.hasVar]

end

lemma SameShape.sameGraph (h : SameShape x y) : SameGraph x y :=
  ⟨h.vars, h.args, h.returnTy, h.layout, h.entry, h.version, by rw [h.blocks], fun b => by rw [h.control.block]⟩

lemma sameGraph_modifyInst (f : Inst → Inst) : SameGraph body (body.modifyInst i f) :=
  ⟨rfl, rfl, rfl, rfl, rfl, rfl, rfl, fun _ => rfl⟩

lemma sameGraph_modifyBlock {f : Block → Block} (hf : ∀ x, (f x).frame = x.frame) :
    SameGraph body (body.modifyBlock b f) := by
  refine ⟨rfl, rfl, rfl, rfl, rfl, rfl, by simp [modifyBlock], fun c => ?_⟩
  rw [block_modifyBlock]
  split
  · exact hf _
  · rfl

lemma sameGraph_addInst (kind : Kind) (vs : List Value) (ty : Ty) : SameGraph body (body.addInst kind vs ty) := by
  have hpush : SameGraph body (body.pushInst { kind, ty }) := ⟨rfl, rfl, rfl, rfl, rfl, rfl, rfl, fun _ => rfl⟩
  exact hpush.trans (sameShape_addInst kind vs ty).sameGraph

lemma sameGraph_attach {l : List InstId} (h : (body.kind i).successors = []) :
    SameGraph body (body.attach i b l) := by
  rw [attach_eq_fasten, h]
  exact (sameGraph_modifyInst _).trans (sameGraph_modifyBlock fun _ => rfl)

lemma sameGraph_loosen : SameGraph body (body.loosen i b) :=
  .trans (sameGraph_modifyInst fun x => { x with block := none }) (sameGraph_modifyBlock fun _ => rfl)

lemma detach_of_no_successors (hb : (body.inst i).block = some b)
    (h : (body.kind i).successors = []) : body.detach i = body.loosen i b := by
  rw [detach_eq hb, kind_loosen, h]
  rfl

lemma ExactUses.loosen (h : body.ExactUses) : (body.loosen i b).ExactUses := by
  have hinst : (body.modifyInst i fun x => { x with block := none }).ExactUses :=
    h.modifyInst (fun _ => rfl) fun _ => rfl
  exact hinst.congr (fun v => by cases v <;> rfl) fun j => rfl

/-! ## A new instruction -/

section

variable (kind : Kind) (vs : List Value) (ty : Ty)

lemma kind_addInst : (body.addInst kind vs ty).kind j =
    if j.index = body.insts.size then kind else body.kind j := by
  have hbare := congrArg Inst.kind (inst_addInst body kind vs ty j)
  rw [apply_ite Inst.kind] at hbare
  exact hbare

lemma hasInst_addInst : (body.addInst kind vs ty).hasInst ⟨body.insts.size⟩ := hasInst_addInst_iff.2 (.inr rfl)

lemma block_none_addInst : ((body.addInst kind vs ty).inst ⟨body.insts.size⟩).block = none ∧
      ((body.addInst kind vs ty).inst ⟨body.insts.size⟩).isRemoved = false := by
  have hbare := inst_addInst body kind vs ty ⟨body.insts.size⟩
  rw [if_pos rfl] at hbare
  exact ⟨congrArg Inst.block hbare, congrArg Inst.isRemoved hbare⟩

lemma instsOf_addInst (b : BlockId) : (body.addInst kind vs ty).instsOf b = body.instsOf b := by
  rw [instsOf, block_addInst, instsOf]

end

lemma canAttach_addInst_iff {vs : List Value} {ty : Ty} : (body.addInst kind vs ty).CanAttach ⟨body.insts.size⟩ b ↔
      body.hasBlock b ∧ ∀ c ∈ kind.successors, body.hasBlock c := by
  obtain ⟨hnone, hlive⟩ := @block_none_addInst body kind vs ty
  have hsame : SameGraph body (body.addInst kind vs ty) := sameGraph_addInst kind vs ty
  rw [CanAttach, kind_addInst, if_pos rfl, hsame.hasBlock]
  simp [hasInst_addInst, hnone, hlive, hsame.hasBlock]

lemma canAttach_addInst (hkind : kind.successors = []) (vs : List Value) (ty : Ty) :
    (body.addInst kind vs ty).CanAttach ⟨body.insts.size⟩ b ↔ body.hasBlock b := by
  rw [canAttach_addInst_iff, hkind]
  simp

def withInst (body : Body) (b : BlockId) (pre post : List InstId) (kind : Kind) (vs : List Value)
    (ty : Ty) : Body :=
  (body.addInst kind vs ty).attach ⟨body.insts.size⟩ b (pre ++ ⟨body.insts.size⟩ :: post)

section WithInst

variable {pre post : List InstId} {kind : Kind} {vs : List Value} {ty : Ty}

lemma sameGraph_withInst (hkind : kind.successors = []) : SameGraph body (body.withInst b pre post kind vs ty) := by
  refine (sameGraph_addInst kind vs ty).trans (sameGraph_attach ?_)
  rw [kind_addInst, if_pos rfl, hkind]

lemma size_withInst : (body.withInst b pre post kind vs ty).insts.size = body.insts.size + 1 := by
  rw [withInst, attach_eq, Array.size_modify, size_addInst]

lemma inst_withInst : ((body.withInst b pre post kind vs ty).inst j).bare =
    if j.index = body.insts.size then { kind, ty, operands := vs, block := some b }
    else (body.inst j).bare := by
  have hadd := inst_addInst body kind vs ty j
  rw [withInst, inst_attach]
  by_cases hj : j.index = body.insts.size
  · obtain rfl : (⟨body.insts.size⟩ : InstId) = j := InstId.ext hj.symm
    rw [if_pos rfl] at hadd
    rw [if_pos ⟨rfl, hasInst_addInst _ _ _⟩, if_pos rfl]
    simp only [Inst.bare, Inst.mk.injEq] at hadd ⊢
    simp [hadd]
  · have hne : (⟨body.insts.size⟩ : InstId) ≠ j := fun heq => hj (heq ▸ rfl)
    rw [if_neg hj] at hadd
    rw [if_neg fun heq => hne heq.1, if_neg hj]
    exact hadd

lemma instsOf_withInst (hb : body.hasBlock b) : (body.withInst b pre post kind vs ty).instsOf c =
      if c = b then pre ++ ⟨body.insts.size⟩ :: post else body.instsOf c := by
  have hhas : (body.addInst kind vs ty).hasBlock b := ((sameGraph_addInst _ _ _).hasBlock b).trans hb
  rw [withInst, instsOf_attach _ hhas, instsOf_addInst]

lemma Attached.withInst (h : body.Attached) (hb : body.hasBlock b)
    (hlist : pre ++ post = body.instsOf b) : (body.withInst b pre post kind vs ty).Attached := by
  have hhas : (body.addInst kind vs ty).hasBlock b := ((sameGraph_addInst _ _ _).hasBlock b).trans hb
  refine (h.addInst _ _ _).attach (block_none_addInst _ _ _).1 (hasInst_addInst _ _ _) hhas ?_
  rw [instsOf_addInst, ← hlist]
  exact List.perm_middle

lemma ExactUses.withInst (h : body.ExactUses) (hvs : ∀ v ∈ vs, body.hasValue v) :
    (body.withInst b pre post kind vs ty).ExactUses :=
  (h.addInst fun v hv => .inr (hvs v hv)).attach _

end WithInst

/-! ## A removed instruction -/

/-- The body without an instruction that nothing uses. -/
def remove (body : Body) (i : InstId) : Body := ((body.detach i).dropOperands i).markRemoved i

section Remove

variable (hb : (body.inst i).block = some b) (hsucc : (body.kind i).successors = [])

include hb hsucc

lemma sameGraph_remove : SameGraph body (body.remove i) := by
  rw [remove, detach_of_no_successors hb hsucc]
  exact (sameGraph_loosen.trans sameShape_dropOperands.sameGraph).trans (sameGraph_modifyInst _)

lemma instsOf_remove : (body.remove i).instsOf c = if c = b then (body.instsOf c).erase i else body.instsOf c := by
  rw [remove, samePlaces_markRemoved.instsOf, sameShape_dropOperands.samePlaces.instsOf,
    detach_of_no_successors hb hsucc, instsOf_loosen]

lemma bare_remove : (body.remove i).bare = (((body.loosen i b).modifyInst i Inst.cleared).modifyInst i fun x =>
      { x with isRemoved := true }).bare := by
  rw [remove, detach_of_no_successors hb hsucc]
  exact bare_modifyInst_congr bare_dropOperands fun _ => rfl

lemma size_remove : (body.remove i).insts.size = body.insts.size := by
  have hsize := congrArg (fun z : Body => z.insts.size) (bare_remove hb hsucc)
  simpa [bare, modifyInst, loosen, modifyBlock] using hsize

lemma inst_remove (hin : body.hasInst i) : ((body.remove i).inst j).bare =
    if j = i then (body.inst i).bare.removed else (body.inst j).bare := by
  have hhas : (body.loosen i b).hasInst i := by
    rw [loosen, hasInst_modifyBlock, hasInst_modifyInst]
    exact hin
  rw [bare_inst_congr (bare_remove hb hsucc), inst_modifyInst, inst_modifyInst, inst_loosen, hasInst_modifyInst]
  by_cases hj : j = i
  · subst hj
    rw [if_pos ⟨rfl, hhas⟩, if_pos ⟨rfl, hhas⟩, if_pos ⟨rfl, hin⟩, if_pos rfl]
    rfl
  · have hne : i ≠ j := Ne.symm hj
    rw [if_neg fun h => hne h.1, if_neg fun h => hne h.1, if_neg fun h => hne h.1, if_neg hj]

lemma Attached.remove (h : body.Attached) : (body.remove i).Attached := by
  rw [Body.remove, detach_of_no_successors hb hsucc]
  exact (h.loosen hb).congr (sameShape_dropOperands.samePlaces.trans samePlaces_markRemoved)

lemma ExactUses.remove (h : body.ExactUses) : (body.remove i).ExactUses := by
  rw [Body.remove, detach_of_no_successors hb hsucc]
  exact h.loosen.dropOperands.modifyInst (fun _ => rfl) fun _ => rfl

end Remove

end Body

end MethodIR
