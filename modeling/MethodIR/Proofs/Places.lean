import MethodIR.Proofs.EditSteps

/-!
# Places of instructions

A block lists an instruction if and only if the instruction names the block, and lists it once
(`Body.Attached`). Most edits move no instruction (`Body.SamePlaces`).
-/

namespace MethodIR

open List Tables

namespace Body

variable {body x y z : Body} {i j anchor : InstId} {b c : BlockId} {v w : Value} {u : Use} {l : List InstId} {op : Op}

structure Attached (body : Body) : Prop where
  nodup : ∀ b, (body.instsOf b).Nodup
  mem_iff : ∀ b i, i ∈ body.instsOf b ↔ (body.inst i).block = some b

/-- The instructions of `y` are where they are in `x`. -/
structure SamePlaces (x y : Body) : Prop where
  instsOf : ∀ b, y.instsOf b = x.instsOf b
  block : ∀ i, (y.inst i).block = (x.inst i).block

lemma SamePlaces.refl (x : Body) : SamePlaces x x := ⟨fun _ => rfl, fun _ => rfl⟩

lemma SamePlaces.trans (h : SamePlaces x y) (k : SamePlaces y z) : SamePlaces x z :=
  ⟨fun b => (k.instsOf b).trans (h.instsOf b), fun i => (k.block i).trans (h.block i)⟩

lemma SameControl.samePlaces (h : SameControl x y) : SamePlaces x y := ⟨h.instsOf, h.home⟩

lemma SameShape.samePlaces (h : SameShape x y) : SamePlaces x y := h.control.samePlaces

lemma Attached.congr (h : x.Attached) (k : SamePlaces x y) : y.Attached :=
  ⟨fun b => k.instsOf b ▸ h.nodup b, fun b i => by rw [k.instsOf, k.block, h.mem_iff]⟩

lemma Attached.hasInst (h : body.Attached) (hi : i ∈ body.instsOf b) : body.hasInst i := by
  by_contra hnot
  have hblock := (h.mem_iff b i).1 hi
  rw [inst, getD_of_size_le _ _ _ (by simpa [Body.hasInst] using hnot)] at hblock
  simp [default, instInhabitedInst.default] at hblock

lemma Attached.eq_of_mem (h : body.Attached) (hb : i ∈ body.instsOf b) (hc : i ∈ body.instsOf c) : b = c :=
  Option.some.inj (((h.mem_iff b i).1 hb).symm.trans ((h.mem_iff c i).1 hc))

lemma hasBlock_of_mem (hi : i ∈ body.instsOf b) : body.hasBlock b := by
  by_contra hnot
  rw [instsOf, block, getD_of_size_le _ _ _ (by simpa [hasBlock] using hnot)] at hi
  simp [default, instInhabitedBlock.default] at hi

/-! ## Edits that move nothing -/

lemma samePlaces_modifyInst {f : Inst → Inst} (hf : ∀ x, (f x).block = x.block) :
    SamePlaces body (body.modifyInst i f) := by
  refine ⟨fun b => rfl, fun j => ?_⟩
  rw [inst_modifyInst]
  split
  · exact hf _
  · rfl

lemma samePlaces_modifyBlock {f : Block → Block} (hf : ∀ x, (f x).insts = x.insts) :
    SamePlaces body (body.modifyBlock b f) := by
  refine ⟨fun c => ?_, fun j => rfl⟩
  rw [instsOf, block_modifyBlock]
  split
  · exact hf _
  · rfl

lemma samePlaces_cut : SamePlaces body (body.cut b c) :=
  .trans (samePlaces_modifyBlock (f := fun x => { x with succs := x.succs.erase c }) fun _ => rfl)
    (samePlaces_modifyBlock fun _ => rfl)

lemma SamePlaces.across : AcrossEdges SamePlaces where
  refl := .refl
  trans := .trans
  connect := ⟨fun _ => instsOf_connect _ _, fun i => by rw [inst, insts_connect, inst]⟩
  disconnect := Stepwise.disconnect ⟨.refl, .trans⟩ samePlaces_cut (fun _ => ⟨fun _ => rfl, fun _ => rfl⟩)
    fun _ _ n _ => (sameShape_removePhiSlot n).samePlaces
  target := samePlaces_modifyInst fun _ => rfl

lemma samePlaces_markRemoved : SamePlaces body (body.markRemoved i) := samePlaces_modifyInst fun _ => rfl

lemma samePlaces_discard : SamePlaces body (body.discard i) :=
  (sameShape_dropOperands.trans sameShape_replaceUses).samePlaces.trans samePlaces_markRemoved

/-! ## Edits that move one instruction -/

lemma Attached.addInst (h : body.Attached) (kind : Kind) (vs : List Value) (ty : Ty) :
    (body.addInst kind vs ty).Attached := by
  refine Attached.congr ?_ (sameShape_addInst kind vs ty).samePlaces
  refine ⟨h.nodup, fun b i => ?_⟩
  rw [inst_pushInst]
  split
  · next hi =>
    refine ⟨fun hmem => ?_, fun hnone => by simp at hnone⟩
    have hhas : body.hasInst i := h.hasInst hmem
    simp [Body.hasInst, hi] at hhas
  · exact h.mem_iff b i

lemma Attached.attach (h : body.Attached) (hi : (body.inst i).block = none) (hin : body.hasInst i)
    (hb : body.hasBlock b) (hl : l.Perm (i :: body.instsOf b)) : (body.attach i b l).Attached := by
  have hfresh : ∀ c, i ∉ body.instsOf c := fun c hc => by simp [(h.mem_iff c i).1 hc] at hi
  refine ⟨fun c => ?_, fun c j => ?_⟩
  · rw [instsOf_attach l hb]
    split
    · exact hl.nodup_iff.2 (nodup_cons.2 ⟨hfresh b, h.nodup b⟩)
    · exact h.nodup c
  · have hblock : ((body.attach i b l).inst j).block =
        if i = j then some b else (body.inst j).block := by
      rw [inst_attach]
      by_cases hij : i = j
      · subst hij
        rw [if_pos ⟨rfl, hin⟩, if_pos rfl]
      · rw [if_neg fun h => hij h.1, if_neg hij]
    rw [instsOf_attach l hb, hblock]
    by_cases hc : c = b
    · subst hc
      rw [if_pos rfl, hl.mem_iff, mem_cons, h.mem_iff]
      by_cases hij : i = j
      · simp [hij]
      · simp [hij, Ne.symm hij]
    · rw [if_neg hc, h.mem_iff]
      by_cases hij : i = j
      · simp [← hij, hi, Ne.symm hc]
      · rw [if_neg hij]

lemma inst_loosen : (body.loosen i b).inst j =
    if i = j ∧ body.hasInst j then { body.inst j with block := none } else body.inst j :=
  inst_modifyInst _

lemma instsOf_loosen : (body.loosen i b).instsOf c =
    if c = b then (body.instsOf c).erase i else body.instsOf c := by
  rw [loosen, instsOf, block_modifyBlock]
  by_cases hc : c = b
  · subst hc
    rw [if_pos rfl]
    by_cases hin : body.hasBlock c
    · rw [if_pos ⟨rfl, hin⟩]
      rfl
    · have hnil : body.instsOf c = [] := by
        refine eq_nil_iff_forall_not_mem.2 fun j hj => hin (hasBlock_of_mem hj)
      rw [if_neg fun h => hin h.2, hnil]
      exact hnil
  · rw [if_neg fun h => hc h.1.symm, if_neg hc]
    rfl

lemma kind_loosen : (body.loosen i b).kind j = body.kind j := by
  rw [kind, inst_loosen]
  split <;> rfl

section

variable (h : body.Attached)
include h

lemma Attached.loosen (hb : (body.inst i).block = some b) : (body.loosen i b).Attached := by
  have hmem := (h.mem_iff b i).2 hb
  refine ⟨fun c => ?_, fun c j => ?_⟩
  · rw [instsOf_loosen]
    split
    · exact (h.nodup c).erase i
    · exact h.nodup c
  · have hblock : ((body.loosen i b).inst j).block =
        if i = j then none else (body.inst j).block := by
      rw [inst_loosen]
      by_cases hij : i = j
      · subst hij
        rw [if_pos ⟨rfl, h.hasInst hmem⟩, if_pos rfl]
      · rw [if_neg fun h => hij h.1, if_neg hij]
    rw [instsOf_loosen, hblock]
    by_cases hc : c = b
    · rw [if_pos hc, (h.nodup c).mem_erase_iff, h.mem_iff]
      by_cases hij : i = j
      · simp [hij]
      · simp [hij, Ne.symm hij]
    · rw [if_neg hc, h.mem_iff]
      by_cases hij : i = j
      · simp [← hij, hb, Ne.symm hc]
      · rw [if_neg hij]

lemma Attached.detach : (body.detach i).Attached := by
  cases hb : (body.inst i).block with
  | none =>
    rw [detach_of_none hb]
    exact h
  | some b =>
    exact (h.loosen hb).congr (SamePlaces.across.loosened hb)

lemma Attached.instsOf_detach : (body.detach i).instsOf c = (body.instsOf c).filter (· ≠ i) := by
  cases hb : (body.inst i).block with
  | none =>
    rw [detach_of_none hb, filter_eq_self.2]
    intro j hj
    simp only [ne_eq, decide_eq_true_eq]
    rintro rfl
    simp [(h.mem_iff c j).1 hj] at hb
  | some b =>
    rw [(SamePlaces.across.loosened hb).instsOf, instsOf_loosen]
    by_cases hc : c = b
    · subst hc
      rw [if_pos rfl, (h.nodup c).erase_eq_filter]
      exact filter_congr fun j _ => by by_cases hj : j = i <;> simp [hj]
    · rw [if_neg hc, filter_eq_self.2]
      intro j hj
      simp only [ne_eq, decide_eq_true_eq]
      rintro rfl
      rw [(h.mem_iff c j).1 hj] at hb
      exact hc (Option.some.inj hb)

lemma Attached.foldl_detach (is : List InstId) : (is.foldl (·.detach ·) body).Attached ∧
      ∀ c, (is.foldl (·.detach ·) body).instsOf c = (body.instsOf c).filter (· ∉ is) := by
  induction is generalizing body with
  | nil => exact ⟨h, fun c => by simp⟩
  | cons i is ih =>
    obtain ⟨hplaces, hinsts⟩ := ih h.detach
    refine ⟨hplaces, fun c => ?_⟩
    rw [foldl_cons, hinsts, h.instsOf_detach, filter_filter]
    exact filter_congr fun j _ => by simp [Bool.and_comm]

lemma Attached.destroy : (body.destroy i).Attached := h.detach.congr samePlaces_discard

lemma Attached.addBlock (place : Option BlockId) : (body.addBlock place).Attached :=
  h.congr ⟨fun b => by rw [instsOf, block_addBlock, instsOf], fun _ => rfl⟩

end

lemma block_markErased : (body.markErased b).block c =
    if b = c ∧ body.hasBlock c then { body.block c with isRemoved := true } else body.block c :=
  block_modifyBlock _

lemma Attached.emptied (h : body.Attached) : (body.emptied b).Attached :=
  (h.foldl_detach _).1.congr (SamePlaces.across.foldl (fun _ _ => samePlaces_discard) _ _)

lemma Attached.instsOf_emptied (h : body.Attached) : (body.emptied b).instsOf b = [] := by
  obtain ⟨-, hinsts⟩ := h.foldl_detach (body.instsOf b).reverse
  rw [Body.emptied, (SamePlaces.across.foldl (fun _ _ => samePlaces_discard) _ _).instsOf, hinsts]
  simp

lemma samePlaces_markErased : SamePlaces body (body.markErased b) := by
  refine ⟨fun c => ?_, fun _ => rfl⟩
  rw [instsOf, block_markErased]
  split <;> rfl

lemma Attached.eraseBlock (h : body.Attached) : (body.eraseBlock b).Attached :=
  h.emptied.congr ((SamePlaces.across.foldl (fun _ _ => SamePlaces.across.disconnect) _ _).trans samePlaces_markErased)

lemma attached_empty (args : List Ty) (ret : Ty) : (empty args ret).Attached := by
  have hinsts : ∀ b, (empty args ret).instsOf b = [] := fun b => rfl
  have hblock : ∀ i, ((empty args ret).inst i).block = none := fun i => rfl
  exact ⟨fun b => by simp [hinsts], fun b i => by simp [hinsts, hblock]⟩

/-! ## Histories of operations -/

lemma insert_perm (hl : anchor ∈ l) :
    (l.takeWhile (· ≠ anchor) ++ anchor :: i :: (l.dropWhile (· ≠ anchor)).drop 1).Perm (i :: l) ∧
      (l.takeWhile (· ≠ anchor) ++ i :: l.dropWhile (· ≠ anchor)).Perm (i :: l) := by
  have hdrop : l.dropWhile (· ≠ anchor) = anchor :: (l.dropWhile (· ≠ anchor)).drop 1 := by
    induction l with
    | nil => simp at hl
    | cons x l ih =>
      by_cases hx : x = anchor
      · simp [hx]
      · have hl : anchor ∈ l := (mem_cons.1 hl).resolve_left (Ne.symm hx)
        simpa [hx] using ih hl
  have hsplit : l.takeWhile (· ≠ anchor) ++ l.dropWhile (· ≠ anchor) = l := takeWhile_append_dropWhile
  have hbefore : (l.takeWhile (· ≠ anchor) ++ i :: l.dropWhile (· ≠ anchor)).Perm (i :: l) := by
    refine perm_middle.trans ?_
    rw [hsplit]
  refine ⟨?_, hbefore⟩
  refine (Perm.append_left _ (Perm.swap i anchor _)).trans ?_
  rw [← hdrop]
  exact hbefore

lemma Attached.attach_of_can (h : body.Attached) (can : body.CanAttach i b)
    (hl : l.Perm (i :: body.instsOf b)) : (body.attach i b l).Attached :=
  h.attach can.2.2.1 can.1 can.2.2.2.1 hl

structure AcrossOps (R : Body → Body → Prop) : Prop extends Stepwise R where
  vars : ∀ {x vars}, R x { x with vars }
  entry : ∀ {x b}, hasBlock x b → R x { x with entry := some b }.bump
  addBlock : ∀ {x place}, R x (x.addBlock place)
  addInst : ∀ {x kind vs ty}, Edit.arityViolation? kind vs.length = none →
    (∀ v ∈ vs, v = .inst ⟨x.insts.size⟩ ∨ hasValue x v) → R x (x.addInst kind vs ty)
  attach : ∀ {x i b l}, CanAttach x i b → (x.Attached → l.Perm (i :: x.instsOf b)) → R x (x.attach i b l)
  detach : ∀ {x i}, R x (x.detach i)
  connect : ∀ {x a b}, hasBlock x a → b ∈ x.succs a ∨ x.hasBlock b → R x (x.connect a b)
  disconnect : ∀ {x a b}, R x (x.disconnect a b)
  retarget : ∀ {x b old new}, hasBlock x b → new ∈ x.succs b ∨ x.hasBlock new → R x (x.retarget b old new)
  pushArg : ∀ {x i b v}, hasInst x i → (x.kind i).isPhi → x.hasValue v → R x (x.pushArg i b v)
  slot : ∀ {x i n}, (kind x i).isPhi → R x (x.removePhiSlot i n)
  moveUse : ∀ {x u old v}, Holds x u old → v ≠ old → x.hasValue v → R x (x.moveUse old v u)
  replaceUses : ∀ {x v w}, uses x v = [] ∨ x.hasValue w → R x (x.replaceUses v w)
  remove : ∀ {x i}, R x (((x.detach i).dropOperands i).markRemoved i)
  destroy : ∀ {x i}, R x (x.destroy i)
  eraseBlock : ∀ {x b}, R x (x.eraseBlock b)

lemma AcrossOps.changes {R : Body → Body → Prop} (h : AcrossOps R) (hop : Op.Changes op x y) : R x y := by
  induction hop with
  | refused => exact h.refl _
  | createVar => exact h.vars
  | setVar => exact h.vars
  | createBlock => exact h.addBlock
  | createInst arity known => exact h.addInst arity known
  | insertFirst can => exact h.attach can fun _ => .refl _
  | insertLast can => exact h.attach can fun _ => perm_append_singleton _ _
  | insertBefore home can => exact h.attach can fun hx => (insert_perm ((hx.mem_iff _ _).2 home)).2
  | insertAfter home can => exact h.attach can fun hx => (insert_perm ((hx.mem_iff _ _).2 home)).1
  | insertPhi _ _ create insert => exact h.trans create insert
  | insertPhiAfter _ _ _ create insert => exact h.trans create insert
  | addPhiArg exists_inst phi known => exact h.pushArg exists_inst phi known
  | removePhiArg _ phi _ => exact h.slot phi
  | detach => exact h.detach
  | removeInst => exact h.remove
  | destroyInst => exact h.destroy
  | setTerminator _ insert => exact insert
  | replaceTerminator _ _ insert => exact h.trans insert h.destroy
  | setJump _ _ create insert => exact h.trans create insert
  | replaceTarget exists_block _ known => exact h.retarget exists_block known
  | connect exists_block known => exact h.connect exists_block known
  | disconnect => exact h.disconnect
  | setEntry exists_block _ => exact h.entry exists_block
  | removeBlock => exact h.eraseBlock
  | setOperand slot ne known => exact h.moveUse slot (Ne.symm ne) known
  | replaceUses _ known => exact h.replaceUses known
  | replaceWith _ _ replace remove => exact h.trans replace remove

lemma Attached.across : AcrossOps fun x y => x.Attached → y.Attached where
  toStepwise := stepwise_kept Attached
  vars h := h.congr ⟨fun _ => rfl, fun _ => rfl⟩
  entry _ h := h.congr ⟨fun _ => rfl, fun _ => rfl⟩
  addBlock h := h.addBlock _
  addInst _ _ h := h.addInst _ _ _
  attach can hl h := h.attach_of_can can (hl h)
  detach h := h.detach
  connect _ _ h := h.congr SamePlaces.across.connect
  disconnect h := h.congr SamePlaces.across.disconnect
  retarget _ _ h := h.congr SamePlaces.across.retarget
  pushArg _ phi _ h := h.congr (sameShape_pushArg phi).samePlaces
  slot _ h := h.congr (sameShape_removePhiSlot _).samePlaces
  moveUse _ _ _ h := h.congr sameShape_moveUse.samePlaces
  replaceUses _ h := h.congr sameShape_replaceUses.samePlaces
  remove h := h.detach.congr (sameShape_dropOperands.samePlaces.trans samePlaces_markRemoved)
  destroy h := h.destroy
  eraseBlock h := h.eraseBlock

lemma Attached.changes (h : x.Attached) (hop : Op.Changes op x y) : y.Attached :=
  Attached.across.changes hop h

end Body

end MethodIR
