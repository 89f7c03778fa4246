import MethodIR.Body.Edges
import MethodIR.Proofs.Tables

/-!
# Bodies without their use lists

Use lists are bookkeeping: no other part of a body is computed from them, except where uses are
replaced. What an operation does apart from them is stated on the body with all use lists emptied
(`Body.bare`), where it is an equation between tables.
-/

namespace MethodIR

open List Tables Array

def Inst.bare (x : Inst) : Inst := { x with uses := [] }

def Arg.bare (x : Arg) : Arg := { x with uses := [] }

/-- A body with all its use lists emptied. -/
def Body.bare (body : Body) : Body :=
  { body with args := body.args.map Arg.bare, insts := body.insts.map Inst.bare }

lemma Inst.bare_eq_iff {x y : Inst} : x.bare = y.bare ↔ x.kind = y.kind ∧ x.ty = y.ty ∧
    x.operands = y.operands ∧ x.block = y.block ∧ x.isRemoved = y.isRemoved := by
  simp [bare]

namespace Body

variable {body body' : Body} {i j : InstId} {b c : BlockId} {v : Value} {u : Use} {f : Inst → Inst}

/-! ## Values -/

section

variable {x y : Body} (h : y.args.map Arg.ty = x.args.map Arg.ty)
include h

lemma hasArg_congr : y.args.size = x.args.size := by
  simpa using congrArg size h

lemma hasValue_of_args (hinst : ∀ i, x.hasInst i → y.hasInst i) (hv : x.hasValue v) : y.hasValue v := by
  cases v with
  | arg a => simpa [hasValue, hasArg_congr h] using hv
  | inst i => exact hinst i hv
  | _ => rfl

lemma valueTy_of_args (hty : ∀ i, v = .inst i → (y.inst i).ty = (x.inst i).ty) : y.valueTy v = x.valueTy v := by
  cases v with
  | arg a =>
    have hn := congrArg (fun xs : Array Ty => xs[a.index]?) h
    simp only [Array.getElem?_map] at hn
    simp only [valueTy, getD_eq_getD_getElem?]
    cases hx : x.args[a.index]? <;> cases hy : y.args[a.index]? <;> simp_all
  | inst i => exact hty i rfl
  | _ => rfl

end

/-! ## Reading tables -/

lemma hasInst_iff : body.hasInst i ↔ i.index < body.insts.size := decide_eq_true_iff

@[simp] lemma inst_modifyInst (f : Inst → Inst) : (body.modifyInst i f).inst j =
    if i = j ∧ body.hasInst j then f (body.inst j) else body.inst j := by
  rw [inst, modifyInst, getD_modify]
  simp only [hasInst, decide_eq_true_eq, InstId.ext_iff]
  rfl

@[simp] lemma block_modifyBlock (f : Block → Block) : (body.modifyBlock b f).block c =
    if b = c ∧ body.hasBlock c then f (body.block c) else body.block c := by
  rw [block, modifyBlock, getD_modify]
  simp only [hasBlock, decide_eq_true_eq, BlockId.ext_iff]
  rfl

@[simp] lemma inst_modifyBlock (f : Block → Block) : (body.modifyBlock b f).inst i = body.inst i := rfl

@[simp] lemma hasInst_modifyInst (f : Inst → Inst) : (body.modifyInst i f).hasInst j = body.hasInst j := by
  simp [hasInst, modifyInst]

@[simp] lemma hasBlock_modifyBlock (f : Block → Block) : (body.modifyBlock b f).hasBlock c = body.hasBlock c := by
  simp [hasBlock, modifyBlock]

@[simp] lemma hasBlock_modifyInst (f : Inst → Inst) : (body.modifyInst i f).hasBlock b = body.hasBlock b := rfl

@[simp] lemma hasInst_modifyBlock (f : Block → Block) : (body.modifyBlock b f).hasInst i = body.hasInst i := rfl

/-! ## The bare body -/

@[simp] lemma inst_bare : body.bare.inst i = (body.inst i).bare := by
  simp only [inst, bare, Array.getD_eq_getD_getElem?, Array.getElem?_map]
  cases body.insts[i.index]? <;> rfl

@[simp] lemma block_bare : body.bare.block b = body.block b := rfl

@[simp] lemma hasInst_bare : body.bare.hasInst i = body.hasInst i := by
  simp [hasInst, bare]

@[simp] lemma hasBlock_bare : body.bare.hasBlock b = body.hasBlock b := rfl

lemma bare_modifyInst (hf : ∀ x, (f x).bare = (f x.bare).bare) :
    (body.modifyInst i f).bare = (body.bare.modifyInst i f).bare := by
  simp only [bare, modifyInst]
  congr 1
  · simp only [Array.map_map]
    exact map_congr_left fun _ _ => rfl
  · ext k h₁ h₂
    · simp
    · simp only [Array.getElem_map, Array.getElem_modify]
      split
      · exact hf _
      · rfl

lemma bare_modifyInst_of_eq (hf : ∀ x, (f x).bare = x.bare) : (body.modifyInst i f).bare = body.bare := by
  simp only [bare, modifyInst]
  congr 1
  ext k h₁ h₂
  · simp
  · simp only [Array.getElem_map, Array.getElem_modify]
    split
    · exact hf _
    · rfl

lemma bare_modifyArg_of_eq {a : ArgId} {f : Arg → Arg} (hf : ∀ x, (f x).bare = x.bare) :
    (body.modifyArg a f).bare = body.bare := by
  simp only [bare, modifyArg]
  congr 1
  ext k h₁ h₂
  · simp
  · simp only [Array.getElem_map, Array.getElem_modify]
    split
    · exact hf _
    · rfl

@[simp] lemma bare_addUse : (body.addUse v u).bare = body.bare := by
  cases v with
  | const c => rfl
  | undef t => rfl
  | arg a => exact bare_modifyArg_of_eq fun _ => rfl
  | inst i => exact bare_modifyInst_of_eq fun _ => rfl

@[simp] lemma bare_dropUse : (body.dropUse v u).bare = body.bare := by
  cases v with
  | const c => rfl
  | undef t => rfl
  | arg a => exact bare_modifyArg_of_eq fun _ => rfl
  | inst i => exact bare_modifyInst_of_eq fun _ => rfl

@[simp] lemma bare_dropUses (slots : List (Value × Use)) : (body.dropUses slots).bare = body.bare := by
  rw [dropUses]
  induction slots generalizing body with
  | nil => rfl
  | cons slot slots ih => rw [foldl_cons, ih, bare_dropUse]

@[simp] lemma bare_addUses (slots : List (Value × Use)) : (body.addUses slots).bare = body.bare := by
  rw [addUses]
  induction slots generalizing body with
  | nil => rfl
  | cons slot slots ih => rw [foldl_cons, ih, bare_addUse]

lemma bare_modifyInst_congr (h : body.bare = body'.bare)
    (hf : ∀ x, (f x).bare = (f x.bare).bare) : (body.modifyInst i f).bare = (body'.modifyInst i f).bare := by
  rw [bare_modifyInst hf, h, ← bare_modifyInst hf]

lemma bare_inst_congr (h : body.bare = body'.bare) (i : InstId) : (body.inst i).bare = (body'.inst i).bare := by
  rw [← inst_bare, h, inst_bare]

@[simp] lemma bare_pushOperand : (body.pushOperand i v).bare =
    (body.modifyInst i fun x => { x with operands := x.operands ++ [v] }).bare :=
  bare_addUse

lemma bare_foldl_pushOperand (vs : List Value) : (vs.foldl (·.pushOperand i ·) body).bare =
    (body.modifyInst i fun x => { x with operands := x.operands ++ vs }).bare := by
  induction vs generalizing body with
  | nil =>
    refine (bare_modifyInst_of_eq fun x => ?_).symm
    simp
  | cons v vs ih =>
    rw [foldl_cons, ih, bare_modifyInst_congr bare_pushOperand fun _ => rfl]
    simp only [bare, modifyInst]
    congr 1
    ext k h₁ h₂
    · simp
    · simp only [Array.getElem_map, Array.getElem_modify]
      split
      · simp
      · rfl

def pushInst (body : Body) (x : Inst) : Body := { body with insts := body.insts.push x }

lemma inst_pushInst (x : Inst) : (body.pushInst x).inst i =
    if i.index = body.insts.size then x else body.inst i := by
  rw [inst, pushInst, getD_push]
  rfl

section

variable (body : Body) (kind : Kind) (vs : List Value) (ty : Ty)

lemma bare_addInst : (body.addInst kind vs ty).bare = (body.pushInst { kind, ty, operands := vs }).bare := by
  rw [addInst, bare_foldl_pushOperand]
  simp only [bare, modifyInst, pushInst]
  congr 1
  ext k h₁ h₂
  · simp
  · simp only [Array.getElem_map, Array.getElem_modify, Array.getElem_push]
    by_cases hk : body.insts.size = k
    · subst hk
      simp
    · have hlt : k < body.insts.size := by
        simp only [size_map, size_push] at h₂
        omega
      rw [if_neg hk, dif_pos hlt, dif_pos hlt]

lemma inst_addInst (j : InstId) : ((body.addInst kind vs ty).inst j).bare = if j.index = body.insts.size
      then { kind, ty, operands := vs } else (body.inst j).bare := by
  rw [bare_inst_congr (bare_addInst body kind vs ty), inst_pushInst]
  split <;> rfl

lemma size_addInst : (body.addInst kind vs ty).insts.size = body.insts.size + 1 := by
  have h := congrArg (fun x : Body => x.insts.size) (bare_addInst body kind vs ty)
  simpa [bare, pushInst] using h

end

lemma hasInst_addInst_iff {body : Body} {kind : Kind} {vs : List Value} {ty : Ty} :
    (body.addInst kind vs ty).hasInst i ↔ body.hasInst i ∨ i = ⟨body.insts.size⟩ := by
  rw [hasInst, size_addInst, hasInst, InstId.ext_iff]
  simp only [decide_eq_true_eq]
  omega

lemma block_addInst (body : Body) (kind : Kind) (vs : List Value) (ty : Ty) (b : BlockId) :
    (body.addInst kind vs ty).block b = body.block b := by
  rw [← block_bare, bare_addInst]
  rfl

/-! ## Edges and attached instructions -/

lemma block_connect (a b : BlockId) : (body.connect a b).block c = { body.block c with
      succs := if c = a ∧ body.hasBlock c ∧ b ∉ body.succs a
        then body.succs c ++ [b] else body.succs c
      preds := if c = b ∧ body.hasBlock c ∧ b ∉ body.succs a
        then body.preds c ++ [a] else body.preds c } := by
  rw [connect]
  by_cases hb : b ∈ body.succs a
  · simp only [hb, not_true_eq_false, and_false, if_false]
    rfl
  · rw [if_neg hb]
    change Body.block (modifyBlock (modifyBlock _ _ _) _ _) c = _
    simp only [block_modifyBlock, hasBlock_modifyBlock, succs, preds]
    by_cases hc : body.hasBlock c
    · by_cases hca : a = c
      · by_cases hcb : b = c
        · subst hca hcb
          simp_all [succs]
        · simp_all [succs, Ne.symm hcb]
      · by_cases hcb : b = c
        · simp_all [succs, Ne.symm hca]
        · simp [hca, hcb, Ne.symm hca, Ne.symm hcb]
    · simp [hc]

@[simp] lemma insts_connect (a b : BlockId) : (body.connect a b).insts = body.insts := by
  rw [connect]
  split <;> rfl

@[simp] lemma instsOf_connect (a b : BlockId) : (body.connect a b).instsOf c = body.instsOf c := by
  rw [instsOf, block_connect]
  rfl

lemma connect_eq (a b : BlockId) : body.connect a b = { body with
      blocks := (body.connect a b).blocks, cfgVersion := (body.connect a b).cfgVersion } := by
  rw [connect]
  split <;> rfl

lemma size_blocks_connect (a b : BlockId) : (body.connect a b).blocks.size = body.blocks.size := by
  rw [connect]
  split
  · rfl
  · simp [bump, modifyBlock]

section Attach

variable (ts : List BlockId)

lemma foldl_connect_eq (a : BlockId) : ts.foldl (·.connect a ·) body = { body with
      blocks := (ts.foldl (·.connect a ·) body).blocks
      cfgVersion := (ts.foldl (·.connect a ·) body).cfgVersion } := by
  induction ts generalizing body with
  | nil => rfl
  | cons t ts ih =>
    rw [foldl_cons, ih, connect_eq]

lemma instsOf_foldl_connect (a : BlockId) : (ts.foldl (·.connect a ·) body).instsOf c = body.instsOf c := by
  induction ts generalizing body with
  | nil => rfl
  | cons t ts ih => rw [foldl_cons, ih, instsOf_connect]

lemma size_blocks_foldl_connect (a : BlockId) : (ts.foldl (·.connect a ·) body).blocks.size = body.blocks.size := by
  induction ts generalizing body with
  | nil => rfl
  | cons t ts ih => rw [foldl_cons, ih, size_blocks_connect]

end Attach

lemma attach_eq (l : List InstId) : body.attach i b l = { body with
      insts := body.insts.modify i.index fun x => { x with block := some b }
      blocks := (body.attach i b l).blocks, cfgVersion := (body.attach i b l).cfgVersion } := by
  simp only [attach]
  rw [foldl_connect_eq]
  rfl

lemma inst_attach (l : List InstId) : (body.attach i b l).inst j =
    if i = j ∧ body.hasInst j then { body.inst j with block := some b } else body.inst j := by
  rw [attach_eq]
  exact inst_modifyInst _

lemma instsOf_attach (l : List InstId) (hb : body.hasBlock b) : (body.attach i b l).instsOf c =
    if c = b then l else body.instsOf c := by
  simp only [attach]
  rw [instsOf_foldl_connect, instsOf, block_modifyBlock]
  by_cases hc : c = b
  · subst hc
    simp [hb]
  · rw [if_neg fun h => hc h.1.symm, if_neg hc]
    rfl

lemma size_blocks_attach (l : List InstId) : (body.attach i b l).blocks.size = body.blocks.size := by
  simp only [attach]
  rw [size_blocks_foldl_connect]
  simp [modifyBlock, modifyInst]

lemma block_addBlock (place : Option BlockId) : (body.addBlock place).block c = body.block c := by
  change (body.blocks.push {}).getD c.index default = _
  rw [getD_push]
  split
  · next hc =>
    rw [block, getD_of_size_le _ _ _ (by omega)]
    rfl
  · rfl

end Body

end MethodIR
