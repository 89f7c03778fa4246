import MethodIR.Proofs.LiveHistories

/-!
# Numbers of operands

An instruction is made with as many operands as its kind takes, and no operation changes that before it
removes the instruction (`Body.Filled.across`).
-/

namespace MethodIR

namespace Body

variable {body x y z : Body} {i j : InstId} {b : BlockId} {v w : Value} {u : Use}

def Filled (body : Body) : Prop := ∀ i, body.hasInst i → (body.inst i).Full

/-! ## Edits that keep the numbers -/

structure Fills (x y : Body) : Prop where
  size : y.insts.size = x.insts.size
  full : ∀ i, (x.inst i).Full → (y.inst i).Full

lemma Fills.refl (x : Body) : Fills x x := ⟨rfl, fun _ => id⟩

lemma Fills.trans (h : Fills x y) (k : Fills y z) : Fills x z := ⟨k.size.trans h.size, fun i => k.full i ∘ h.full i⟩

lemma Filled.fills (h : x.Filled) (k : Fills x y) : y.Filled := fun i hi =>
  k.full i (h i (by simpa [hasInst, k.size] using hi))

lemma Rewired.fills (h : Rewired x y) : Fills x y := ⟨h.insts, fun i => (h.inst i).full⟩

lemma Fills.stepwise : Stepwise Fills := ⟨.refl, .trans⟩

lemma fills_modifyInst {f : Inst → Inst} (hf : (body.inst i).Full → (f (body.inst i)).Full) :
    Fills body (body.modifyInst i f) := by
  refine ⟨by simp [modifyInst], fun j => ?_⟩
  rw [inst_modifyInst]
  split
  · next h => exact h.1 ▸ hf
  · exact id

lemma fills_moveUse : Fills body (body.moveUse v w u) := by
  refine Fills.trans (fills_modifyInst ?_) (rewired_of_bare moveUse_bare.symm).fills
  exact Inst.full_of_arity rfl rfl (by simp)

lemma fills_replaceUses : Fills body (body.replaceUses v w) := Fills.stepwise.replaceUses fun _ _ => fills_moveUse

lemma fills_pushArg (hphi : (body.kind i).isPhi) : Fills body (body.pushArg i b v) := by
  refine Fills.trans ?_ (rewired_of_bare bare_pushOperand.symm).fills
  refine ⟨by simp [modifyInst], fun j hj => ?_⟩
  rw [inst_modifyInst, inst_modifyInst, hasInst_modifyInst]
  by_cases hij : i = j ∧ body.hasInst j
  · obtain ⟨rfl, hi⟩ := hij
    rw [if_pos ⟨rfl, hi⟩, if_pos ⟨rfl, hi⟩]
    intro hlive
    rw [kind] at hphi
    cases hk : (body.inst i).kind with
    | phi bs =>
      simp [Edit.arityViolation?, Kind.arity?, Kind.blocks, Inst.Full.length_blocks hj hlive hk]
    | _ => simp [hk, Kind.isPhi] at hphi
  · rw [if_neg hij, if_neg hij]
    exact hj

/-! ## Removals -/

lemma fills_dropped (h : Fills (body.dropOperands i) y) : Fills body (y.markRemoved i) := by
  have hclear : Fills (body.modifyInst i Inst.cleared) y := .trans (rewired_of_bare bare_dropOperands.symm).fills h
  have hsize : y.insts.size = body.insts.size := by simpa [modifyInst] using hclear.size
  refine ⟨by simpa [markRemoved, modifyInst] using hsize, fun j hj => ?_⟩
  have hfull := hclear.full j
  rw [inst_modifyInst] at hfull
  rw [markRemoved, inst_modifyInst]
  have hhas : y.hasInst j = body.hasInst j := by simp [hasInst, hsize]
  by_cases hij : i = j ∧ body.hasInst j
  · rw [if_pos ⟨hij.1, hhas ▸ hij.2⟩]
    exact fun hlive => by simp at hlive
  · rw [if_neg (hhas ▸ hij)]
    rw [if_neg hij] at hfull
    exact hfull hj

lemma fills_discard : Fills body (body.discard i) := fills_dropped fills_replaceUses

/-! ## Operations -/

lemma Filled.addInst (h : body.Filled) {kind : Kind} {vs : List Value} (ty : Ty)
    (harity : Edit.arityViolation? kind vs.length = none) : (body.addInst kind vs ty).Filled := by
  intro j hj
  refine Inst.full_of_arity (x := if j.index = body.insts.size then { kind, ty, operands := vs }
    else body.inst j) ?_ ?_ ?_ ?_
  · rw [isRemoved_addInst, apply_ite Inst.isRemoved]
  · change ((body.addInst kind vs ty).kind j).arity? = _
    rw [kind_addInst]
    split <;> rfl
  · rw [operands_addInst, apply_ite Inst.operands]
  · split
    · exact fun _ => harity
    · next hne =>
      exact h j ((hasInst_addInst_iff.1 hj).resolve_right fun heq => hne (by rw [heq]))

lemma filled_empty (args : List Ty) (ret : Ty) : (empty args ret).Filled := fun i hi => by
  simp [hasInst, empty] at hi

lemma Filled.across : AcrossOps fun x y => x.Filled → y.Filled where
  toStepwise := stepwise_kept Filled
  vars h := h
  entry _ h := h
  addBlock h := h
  addInst arity _ h := h.addInst _ arity
  attach _ _ h := h.fills Rewired.across.attach.fills
  detach h := h.fills Rewired.across.detach.fills
  connect _ _ h := h.fills Rewired.across.connect.fills
  disconnect h := h.fills Rewired.across.disconnect.fills
  retarget _ _ h := h.fills Rewired.across.retarget.fills
  pushArg _ phi _ h := h.fills (fills_pushArg phi)
  slot phi h := h.fills (rewired_removePhiSlot phi _).fills
  moveUse _ _ _ h := h.fills fills_moveUse
  replaceUses _ h := h.fills fills_replaceUses
  remove h := h.fills (Rewired.across.detach.fills.trans (fills_dropped (.refl _)))
  destroy h := h.fills (Rewired.across.detach.fills.trans fills_discard)
  eraseBlock h := h.fills (Fills.stepwise.eraseBlock (fun _ _ => Rewired.across.detach.fills)
    (fun _ _ => fills_discard) (fun _ _ => Rewired.across.disconnect.fills) fun _ => ⟨rfl, fun _ => id⟩)

end Body

lemma Op.filled_of_afterAll {ops : List Op} {args : List Ty} {ret : Ty} {body : Body}
    (h : afterAll? ops (.empty args ret) = some body) : body.Filled :=
  afterAll_induction (Body.filled_empty args ret) (fun _ _ _ _ hx hop => Body.Filled.across.changes hop hx) h

end MethodIR
