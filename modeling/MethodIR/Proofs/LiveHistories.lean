import MethodIR.Proofs.EdgeHistories
import MethodIR.Proofs.Layouts
import MethodIR.Proofs.UseHistories

/-!
# Histories that name nothing removed

A body is `Body.Built` if operations made it that never named what is removed. Such a body is tidy: its
layout is a row, what was removed neither uses nor is used, and phis match their incoming blocks.
-/

namespace MethodIR

open List Body Option

namespace Body

variable {body x y z : Body} {i j : InstId} {a b c : BlockId} {v w : Value} {u : Use} {vs : List Value}

/-! ## Edits that add no operands -/

def Trims (x y : Body) : Prop := ∀ i, (y.inst i).isRemoved = (x.inst i).isRemoved ∧
  (y.inst i).operands ⊆ (x.inst i).operands ∧ ((x.inst i).Paired → (y.inst i).Paired)

lemma Trims.refl (x : Body) : Trims x x := fun _ => ⟨rfl, Subset.refl _, id⟩

lemma Trims.trans (h : Trims x y) (k : Trims y z) : Trims x z := fun i =>
  ⟨(k i).1.trans (h i).1, Subset.trans (k i).2.1 (h i).2.1, (k i).2.2 ∘ (h i).2.2⟩

lemma Rewired.trims (h : Rewired x y) : Trims x y := fun i =>
  ⟨(h.inst i).isRemoved, (h.inst i).operands, (h.inst i).paired⟩

lemma paired_cleared (x : Inst) : x.cleared.Paired := by
  intro blocks hk
  cases hkind : x.kind with
  | phi bs =>
    simp only [Inst.cleared, hkind, Kind.phi.injEq] at hk
    simp [← hk, Inst.cleared]
  | _ => simp [Inst.cleared, hkind] at hk

lemma trims_dropOperands : Trims body (body.dropOperands i) := by
  refine Trims.trans (y := body.modifyInst i Inst.cleared) (fun j => ?_)
    (rewired_of_bare bare_dropOperands.symm).trims
  rw [inst_modifyInst]
  split
  · exact ⟨rfl, nil_subset _, fun _ => paired_cleared _⟩
  · exact Trims.refl body j

/-! ## Edits that add operands -/

lemma operands_moveUse : ((body.moveUse v w u).inst j).operands =
    if u.inst = j ∧ body.hasInst j then (body.inst j).operands.set u.slot w else (body.inst j).operands := by
  rw [operands_congr moveUse_bare, inst_modifyInst]
  split <;> rfl

lemma operands_pushArg : ((body.pushArg i b v).inst j).operands =
    if i = j ∧ body.hasInst j then (body.inst j).operands ++ [v] else (body.inst j).operands := by
  rw [pushArg, operands_congr bare_pushOperand, inst_modifyInst, inst_modifyInst, hasInst_modifyInst]
  split <;> rfl

lemma operands_addInst (kind : Kind) (vs : List Value) (ty : Ty) : ((body.addInst kind vs ty).inst j).operands =
      if j.index = body.insts.size then vs else (body.inst j).operands := by
  have hops := congrArg Inst.operands (inst_addInst body kind vs ty j)
  rw [apply_ite Inst.operands] at hops
  exact hops

lemma isRemoved_addInst (kind : Kind) (vs : List Value) (ty : Ty) : ((body.addInst kind vs ty).inst j).isRemoved =
      if j.index = body.insts.size then false else (body.inst j).isRemoved := by
  have hremoved := congrArg Inst.isRemoved (inst_addInst body kind vs ty j)
  rw [apply_ite Inst.isRemoved] at hremoved
  exact hremoved

def Paired (body : Body) : Prop := ∀ i, (body.inst i).Paired

lemma Paired.trims (h : x.Paired) (k : Trims x y) : y.Paired := fun i => (k i).2.2 (h i)

section

variable (h : body.Paired)
include h

lemma Paired.moveUse : (body.moveUse v w u).Paired := by
  intro i
  refine Inst.paired_of_bare (bare_inst_congr moveUse_bare.symm i) ?_
  rw [inst_modifyInst]
  split
  · intro blocks hk
    rw [h i blocks hk]
    simp
  · exact h i

lemma Paired.replaceUses : (body.replaceUses v w).Paired :=
  (stepwise_kept Paired).replaceUses (fun _ _ hx => hx.moveUse) h

lemma Paired.pushArg (hphi : (body.kind i).isPhi) : (body.pushArg i b v).Paired := by
  intro j
  refine Inst.paired_of_bare (bare_inst_congr bare_pushOperand.symm j) ?_
  rw [inst_modifyInst, inst_modifyInst, hasInst_modifyInst]
  by_cases hj : i = j ∧ body.hasInst j
  · obtain ⟨rfl, hi⟩ := hj
    rw [if_pos ⟨rfl, hi⟩, if_pos ⟨rfl, hi⟩]
    intro blocks hk
    rw [kind] at hphi
    cases hkind : (body.inst i).kind with
    | phi bs =>
      simp only [hkind, Kind.blocks, Kind.phi.injEq] at hk
      simp [← hk, h i bs hkind]
    | _ => simp [hkind, Kind.isPhi] at hphi
  · rw [if_neg hj, if_neg hj]
    exact h j

lemma Paired.addInst {kind : Kind} (ty : Ty)
    (harity : Edit.arityViolation? kind vs.length = none) : (body.addInst kind vs ty).Paired := by
  intro j
  refine Inst.paired_of_bare (x := if j.index = body.insts.size then { kind, ty, operands := vs }
    else (body.inst j).bare) ?_ ?_
  · rw [inst_addInst, apply_ite Inst.bare]
    rfl
  · split
    · rintro blocks rfl
      by_contra hne
      simp [Edit.arityViolation?, Kind.arity?, hne] at harity
    · exact Inst.paired_of_bare (y := (body.inst j).bare) rfl (h j)

lemma Paired.markRemoved : (body.markRemoved i).Paired := by
  intro j
  rw [Body.markRemoved, inst_modifyInst]
  split
  · exact h j
  · exact h j

lemma Paired.discard : (body.discard i).Paired :=
  (h.trims trims_dropOperands).replaceUses.markRemoved

end

/-! ## Removed instructions -/

def Spent (body : Body) : Prop := ∀ i, (body.inst i).isRemoved →
  (body.inst i).operands = [] ∧ ∀ j, Value.inst i ∉ (body.inst j).operands

/-- A value that is not a removed instruction. -/
def Usable (body : Body) (v : Value) : Prop := ∀ d, v = .inst d → (body.inst d).isRemoved = false

instance (body : Body) (v : Value) : Decidable (body.Usable v) :=
  match v with
  | .inst d => decidable_of_iff ((body.inst d).isRemoved = false) (by simp [Usable])
  | .const _ | .undef _ | .arg _ => isTrue nofun

lemma Usable.standing (h : x.Usable v) (k : SameStanding x y) : y.Usable v := fun d hd =>
  (k.removed d).trans (h d hd)

lemma Spent.trims (h : x.Spent) (k : Trims x y) : y.Spent := by
  intro i hi
  rw [(k i).1] at hi
  obtain ⟨hops, hunused⟩ := h i hi
  exact ⟨subset_nil.1 (hops ▸ (k i).2.1), fun j hj => hunused j ((k j).2.1 hj)⟩

section

variable (h : body.Spent)
include h

lemma Spent.moveUse (hw : body.Usable w) : (body.moveUse v w u).Spent := by
  intro i hi
  rw [sameShape_moveUse.control.isRemoved] at hi
  obtain ⟨hops, hunused⟩ := h i hi
  refine ⟨?_, fun j hj => ?_⟩
  · rw [operands_moveUse, hops]
    simp
  · rw [operands_moveUse] at hj
    have hmem : Value.inst i ∈ (body.inst j).operands ∨ Value.inst i = w := by
      split at hj
      · exact mem_or_eq_of_mem_set hj
      · exact .inl hj
    rcases hmem with hmem | hmem
    · exact hunused j hmem
    · simp [hw i hmem.symm] at hi

lemma Spent.replaceUses (hw : body.Usable w) : (body.replaceUses v w).Spent := by
  rw [Body.replaceUses]
  split
  · exact h
  · generalize body.uses v = us
    induction us generalizing body with
    | nil => exact h
    | cons u us ih => exact ih (h.moveUse hw) (hw.standing sameShape_moveUse.control.standing)

lemma Spent.pushArg (hphi : (body.kind i).isPhi) (hi : (body.inst i).isRemoved = false)
    (hv : body.Usable v) : (body.pushArg i b v).Spent := by
  intro j hj
  rw [(sameShape_pushArg hphi).control.isRemoved] at hj
  obtain ⟨hops, hunused⟩ := h j hj
  refine ⟨?_, fun k hk => ?_⟩
  · rw [operands_pushArg, if_neg]
    · exact hops
    · rintro ⟨rfl, -⟩
      simp [hi] at hj
  · rw [operands_pushArg] at hk
    split at hk
    · rcases mem_append.1 hk with hk | hk
      · exact hunused k hk
      · simp [hv j (mem_singleton.1 hk).symm] at hj
    · exact hunused k hk

lemma Spent.addInst (kind : Kind) (ty : Ty) (hvs : ∀ v ∈ vs, body.Usable v) : (body.addInst kind vs ty).Spent := by
  intro i hi
  rw [isRemoved_addInst] at hi
  split at hi
  · simp at hi
  · next hne =>
    obtain ⟨hops, hunused⟩ := h i hi
    refine ⟨by rw [operands_addInst, if_neg hne, hops], fun j hj => ?_⟩
    rw [operands_addInst] at hj
    split at hj
    · simp [hvs _ hj i rfl] at hi
    · exact hunused j hj

lemma Spent.markRemoved (hops : (body.inst i).operands = [])
    (hunused : ∀ j, Value.inst i ∉ (body.inst j).operands) : (body.markRemoved i).Spent := by
  have hkeep : ∀ j, ((body.markRemoved i).inst j).operands = (body.inst j).operands := fun j => by
    rw [Body.markRemoved, inst_modifyInst]
    split <;> rfl
  intro j hj
  simp only [hkeep]
  by_cases hij : i = j
  · exact hij ▸ ⟨hops, hunused⟩
  · rw [Body.markRemoved, inst_modifyInst, if_neg fun hh => hij hh.1] at hj
    exact h j hj

end

lemma operands_dropOperands_self : ((body.dropOperands i).inst i).operands = [] := by
  rw [operands_congr bare_dropOperands, inst_modifyInst]
  split
  · rfl
  · next hnot => exact operands_of_not_hasInst (by simpa using hnot)

lemma operands_replaceUses_of_nil (h : (body.inst i).operands = []) :
    ((body.replaceUses v w).inst i).operands = [] := by
  rw [replaceUses]
  split
  · exact h
  · generalize body.uses v = us
    induction us generalizing body with
    | nil => exact h
    | cons u us ih =>
      refine ih ?_
      rw [operands_moveUse, h]
      simp

lemma Spent.discard (h : body.Spent) (huses : body.ExactUses) : (body.discard i).Spent := by
  have hspec := @replaceUses_spec (body.dropOperands i) (.inst i) (.undef ((body.dropOperands i).inst i).ty)
    huses.dropOperands rfl (by simp) (.inr rfl)
  refine Spent.markRemoved ((h.trims trims_dropOperands).replaceUses ?_) ?_ ?_
  · exact fun d hd => by simp at hd
  · exact operands_replaceUses_of_nil operands_dropOperands_self
  · exact (hspec.1.uses_eq_nil_iff rfl).1 hspec.2.1

lemma Spent.eraseBlock (h : body.Spent) (huses : body.ExactUses) : (body.eraseBlock b).Spent :=
  ((stepwise_kept fun x => x.ExactUses ∧ x.Spent).eraseBlock
    (fun _ _ hx => ⟨hx.1.detach, hx.2.trims Rewired.across.detach.trims⟩)
    (fun _ _ hx => ⟨hx.1.discard, hx.2.discard hx.1⟩)
    (fun _ _ hx => ⟨ExactUses.rewired.disconnect hx.1, hx.2.trims Rewired.across.disconnect.trims⟩)
    (fun _ hx => ⟨hx.1.tables rfl rfl, hx.2⟩) ⟨huses, h⟩).2

/-! ## The row of blocks -/

structure Laid (body : Body) : Prop where
  row : body.layout.Row
  mem_iff : ∀ b, b ∈ body.order ↔ body.hasBlock b ∧ (body.block b).isRemoved = false
  entry : ∀ e ∈ body.entry, body.hasBlock e

lemma Laid.congr (h : x.Laid) (k : SameRow x y) : y.Laid := by
  have hblock : ∀ b, y.hasBlock b = x.hasBlock b := fun b => by
    rw [hasBlock, k.size, hasBlock]
  refine ⟨k.layout ▸ h.row, fun b => ?_, fun e he => ?_⟩
  · rw [order, k.layout, hblock, k.erased]
    exact h.mem_iff b
  · rw [hblock]
    exact h.entry e (k.entry ▸ he)

lemma SameGraph.sameRow (h : SameGraph x y) : SameRow x y := ⟨h.layout, h.entry, h.size, h.isRemoved⟩

lemma hasBlock_addBlock (place : Option BlockId) : (body.addBlock place).hasBlock c ↔
    c = ⟨body.blocks.size⟩ ∨ body.hasBlock c := by
  obtain ⟨n⟩ := c
  simp [hasBlock, addBlock]
  omega

/-- The entry is a block of the body. -/
def Anchored (body : Body) : Prop := ∀ e ∈ body.entry, body.hasBlock e

lemma Anchored.congr (h : x.Anchored) (k : SameRow x y) : y.Anchored := by
  intro e he
  rw [hasBlock, k.size]
  exact h e (k.entry ▸ he)

lemma Anchored.addBlock (h : body.Anchored) (place : Option BlockId) : (body.addBlock place).Anchored := by
  intro e he
  rw [hasBlock_addBlock]
  change e ∈ body.entry.or (some ⟨body.blocks.size⟩) at he
  cases hentry : body.entry with
  | none =>
    rw [hentry] at he
    exact .inl (mem_some_iff.1 he).symm
  | some e' =>
    rw [hentry] at he
    obtain rfl : e' = e := mem_some_iff.1 he
    exact .inr (h _ hentry)

lemma Laid.addBlock (h : body.Laid) {place : Option BlockId} (hplace : ∀ a ∈ place, a ∈ body.order) :
    (body.addBlock place).Laid := by
  have hnew : (⟨body.blocks.size⟩ : BlockId) ∉ body.order := fun hmem => by
    have hhas := ((h.mem_iff _).1 hmem).1
    simp [hasBlock] at hhas
  have hrow : (body.addBlock place).layout.Row ∧
      (body.addBlock place).order.Perm (⟨body.blocks.size⟩ :: body.order) := by
    cases place with
    | none => exact h.row.append hnew
    | some a => exact h.row.insertAfter (hplace a rfl) hnew
  refine ⟨hrow.1, fun b => ?_, fun e he => ?_⟩
  · rw [hrow.2.mem_iff, mem_cons, h.mem_iff, block_addBlock, hasBlock_addBlock]
    constructor
    · rintro (rfl | hb)
      · refine ⟨.inl rfl, ?_⟩
        rw [block, Tables.getD_of_size_le _ _ _ (by simp)]
        rfl
      · exact ⟨.inr hb.1, hb.2⟩
    · rintro ⟨rfl | hb, hlive⟩
      · exact .inl rfl
      · exact .inr ⟨hb, hlive⟩
  · exact Anchored.addBlock h.entry place e he

lemma Laid.markErased (h : body.Laid) (hb : b ∈ body.order) : (body.markErased b).Laid := by
  obtain ⟨hrow, horder⟩ := h.row.remove hb
  have hhas : ∀ c, (body.markErased b).hasBlock c = body.hasBlock c := fun c => by
    simp [Body.markErased, hasBlock, modifyBlock, bump]
  refine ⟨hrow, fun c => ?_, fun e he => (hhas e).trans (h.entry e he)⟩
  have hmem : c ∈ (body.markErased b).order ↔ c ≠ b ∧ c ∈ body.order := by
    change c ∈ (body.layout.remove b).order ↔ _
    rw [horder]
    exact h.row.nodup.mem_erase_iff
  rw [hmem, h.mem_iff, hhas, block_markErased]
  by_cases hc : b = c
  · subst hc
    simp only [ne_eq, not_true_eq_false, false_and, false_iff, not_and]
    intro hin
    simp [hin]
  · simp [hc, Ne.symm hc]

lemma sameRow_cleared (b : BlockId) :
    SameRow body (((body.emptied b).succs b).foldl (·.disconnect b ·) (body.emptied b)) :=
  Stepwise.cleared ⟨.refl, .trans⟩ (fun _ _ => Rewired.across.detach.toSameRow) (fun _ _ => sameRow_discard)
    fun _ _ => Rewired.across.disconnect.toSameRow

lemma Anchored.eraseBlock (h : body.Anchored) (b : BlockId) : (body.eraseBlock b).Anchored := by
  obtain ⟨z, hsame, heq⟩ : ∃ z, SameRow body z ∧ body.eraseBlock b = z.markErased b :=
    ⟨_, sameRow_cleared b, eraseBlock_eq⟩
  rw [heq]
  intro e he
  have hin := (h.congr hsame) e he
  simpa [markErased, hasBlock, modifyBlock, bump] using hin

lemma Laid.eraseBlock (h : body.Laid) (hb : b ∈ body.order) : (body.eraseBlock b).Laid := by
  have hsame : SameRow body _ := sameRow_cleared b
  rw [eraseBlock_eq]
  refine (h.congr hsame).markErased ?_
  rw [order, hsame.layout]
  exact hb

end Body

/-! ## Histories -/

namespace Op

/-- The blocks that an operation names. -/
def blocks : Op → List BlockId
  | createBlock place => place.toList
  | createInst kind _ _ => kind.blocks
  | insertFirst b _ | insertLast b _ | insertPhi b _ | addPhiArg _ b _ | setTerminator b _
  | setEntry b | removeBlock b => [b]
  | setJump a b | connect a b | disconnect a b => [a, b]
  | replaceTarget b old new => [b, old, new]
  | _ => []

/-- The values that an operation names, its instructions among them. -/
def values : Op → List Value
  | createInst _ vs _ => vs
  | insertFirst _ i | insertLast _ i | removePhiArg i _ | detach i | removeInst i | destroyInst i
  | setTerminator _ i => [.inst i]
  | insertBefore anchor i | insertAfter anchor i => [.inst anchor, .inst i]
  | addPhiArg i _ v | setOperand i _ v | replaceWith i v => [.inst i, v]
  | replaceUses v w => [v, w]
  | _ => []

/-- The blocks where an operation changes the layout. -/
def placed : Op → List BlockId
  | createBlock place => place.toList
  | removeBlock b => [b]
  | _ => []

def editsRow : Op → Bool
  | createBlock _ | removeBlock _ | setEntry _ => true
  | _ => false

/-- An operation names no block and no instruction that is removed, and changes the layout at a block
that there is. -/
structure Live (op : Op) (body : Body) : Prop where
  blocks : ∀ b ∈ op.blocks, (body.block b).isRemoved = false
  values : ∀ v ∈ op.values, body.Usable v
  placed : ∀ b ∈ op.placed, body.hasBlock b

instance (op : Op) (body : Body) : Decidable (op.Live body) :=
  decidable_of_iff ((∀ b ∈ op.blocks, (body.block b).isRemoved = false) ∧
    (∀ v ∈ op.values, body.Usable v) ∧ ∀ b ∈ op.placed, body.hasBlock b)
    ⟨fun h => ⟨h.1, h.2.1, h.2.2⟩, fun h => ⟨h.blocks, h.values, h.placed⟩⟩

/-- The values that an operation makes operands, and the instruction that grows by one. -/
def stored : Op → List Value
  | createInst _ vs _ => vs
  | addPhiArg i _ v => [.inst i, v]
  | setOperand _ _ v | replaceUses _ v | replaceWith _ v => [v]
  | _ => []

/-- The body after an operation that names nothing removed. -/
def liveAfter? (op : Op) (body : Body) : Option Body := if op.Live body then op.after? body else none

/-- The body after a history that names nothing removed. -/
def liveAfterAll? (ops : List Op) (body : Body) : Option Body := ops.foldlM (fun body op => op.liveAfter? body) body

lemma placed_subset (op : Op) : op.placed ⊆ op.blocks := by
  cases op <;> simp [placed, blocks]

lemma stored_subset (op : Op) : op.stored ⊆ op.values := by
  cases op <;> simp [stored, values]

end Op

namespace Body

variable {body x y : Body} {op : Op}

lemma Paired.across : AcrossOps fun x y => x.Paired → y.Paired where
  toStepwise := stepwise_kept Paired
  vars h := h
  entry _ h := h
  addBlock h := h
  addInst arity _ h := h.addInst _ arity
  attach _ _ h := h.trims Rewired.across.attach.trims
  detach h := h.trims Rewired.across.detach.trims
  connect _ _ h := h.trims Rewired.across.connect.trims
  disconnect h := h.trims Rewired.across.disconnect.trims
  retarget _ _ h := h.trims Rewired.across.retarget.trims
  pushArg _ phi _ h := h.pushArg phi
  slot phi h := h.trims (rewired_removePhiSlot phi _).trims
  moveUse _ _ _ h := h.moveUse
  replaceUses _ h := h.replaceUses
  remove h := (h.trims (Rewired.across.detach.trims.trans trims_dropOperands)).markRemoved
  destroy h := (h.trims Rewired.across.detach.trims).discard
  eraseBlock := (stepwise_kept Paired).eraseBlock (fun _ _ h => h.trims Rewired.across.detach.trims)
    (fun _ _ h => h.discard) (fun _ _ h => h.trims Rewired.across.disconnect.trims) fun _ h => h

lemma Paired.changes (h : x.Paired) (hop : Op.Changes op x y) : y.Paired := Paired.across.changes hop h

lemma Spent.changes (h : x.Spent) (huses : x.ExactUses) (hop : Op.Changes op x y)
    (hstored : ∀ v ∈ op.stored, x.Usable v) : y.Spent := by
  have hdestroy : ∀ {body : Body} {i : InstId}, body.Spent → body.ExactUses → (body.destroy i).Spent :=
    fun hspent hexact => (hspent.trims Rewired.across.detach.trims).discard hexact.detach
  induction hop with
  | refused => exact h
  | createVar => exact h
  | setVar => exact h
  | createBlock => exact h
  | createInst => exact h.addInst _ _ hstored
  | insertFirst => exact h.trims Rewired.across.attach.trims
  | insertLast => exact h.trims Rewired.across.attach.trims
  | insertBefore => exact h.trims Rewired.across.attach.trims
  | insertAfter => exact h.trims Rewired.across.attach.trims
  | insertPhi hcreate _ create insert =>
    exact insert (create h huses (by simp [Op.stored])) (huses.changes hcreate) (by simp [Op.stored])
  | insertPhiAfter hcreate _ _ create insert =>
    exact insert (create h huses (by simp [Op.stored])) (huses.changes hcreate) (by simp [Op.stored])
  | @addPhiArg i b v _ _ phi =>
    exact h.pushArg phi (hstored (.inst i) (by simp [Op.stored]) i rfl) (hstored v (by simp [Op.stored]))
  | removePhiArg _ phi _ => exact h.trims (rewired_removePhiSlot phi _).trims
  | detach => exact h.trims Rewired.across.detach.trims
  | @removeInst i x exists_inst unused =>
    have htrims : Trims x ((x.detach i).dropOperands i) := Rewired.across.detach.trims.trans trims_dropOperands
    refine (h.trims htrims).markRemoved operands_dropOperands_self fun j hj => ?_
    exact (huses.uses_eq_nil_iff (v := .inst i) rfl).1 unused j ((htrims j).2.1 hj)
  | destroyInst => exact hdestroy h huses
  | setTerminator _ insert => exact insert h huses (by simp [Op.stored])
  | replaceTerminator _ hinsert insert =>
    exact hdestroy (insert h huses (by simp [Op.stored])) (huses.changes hinsert)
  | setJump hcreate _ create insert =>
    exact insert (create h huses (by simp [Op.stored])) (huses.changes hcreate) (by simp [Op.stored])
  | replaceTarget => exact h.trims Rewired.across.retarget.trims
  | connect => exact h.trims Rewired.across.connect.trims
  | disconnect => exact h.trims Rewired.across.disconnect.trims
  | setEntry => exact h
  | removeBlock => exact h.eraseBlock huses
  | setOperand => exact h.moveUse (hstored _ (by simp [Op.stored]))
  | replaceUses => exact h.replaceUses (hstored _ (by simp [Op.stored]))
  | replaceWith hreplace _ replace remove =>
    exact remove (replace h huses (by simpa [Op.stored] using hstored)) (huses.changes hreplace)
      (by simp [Op.stored])

lemma sameRow_changes (hop : Op.Changes op x y) (hrow : op.editsRow = false) : SameRow x y := by
  induction hop with
  | refused => exact .refl _
  | createVar => exact ⟨rfl, rfl, rfl, fun _ => rfl⟩
  | setVar => exact ⟨rfl, rfl, rfl, fun _ => rfl⟩
  | createInst => exact (sameGraph_addInst _ _ _).sameRow
  | insertFirst => exact Rewired.across.attach.toSameRow
  | insertLast => exact Rewired.across.attach.toSameRow
  | insertBefore => exact Rewired.across.attach.toSameRow
  | insertAfter => exact Rewired.across.attach.toSameRow
  | insertPhi _ _ create insert => exact (create rfl).trans (insert rfl)
  | insertPhiAfter _ _ _ create insert => exact (create rfl).trans (insert rfl)
  | addPhiArg _ phi _ => exact (sameShape_pushArg phi).control.standing.toSameRow
  | removePhiArg => exact (sameShape_removePhiSlot _).control.standing.toSameRow
  | detach => exact Rewired.across.detach.toSameRow
  | removeInst =>
    exact (Rewired.across.detach.toSameRow.trans sameShape_dropOperands.control.standing.toSameRow).trans
      sameRow_markRemoved
  | destroyInst => exact Rewired.across.detach.toSameRow.trans sameRow_discard
  | setTerminator _ insert => exact insert rfl
  | replaceTerminator _ _ insert =>
    exact (insert rfl).trans (Rewired.across.detach.toSameRow.trans sameRow_discard)
  | setJump _ _ create insert => exact (create rfl).trans (insert rfl)
  | replaceTarget => exact Rewired.across.retarget.toSameRow
  | connect => exact Rewired.across.connect.toSameRow
  | disconnect => exact Rewired.across.disconnect.toSameRow
  | setOperand => exact sameShape_moveUse.control.standing.toSameRow
  | replaceUses => exact sameShape_replaceUses.control.standing.toSameRow
  | replaceWith _ _ replace remove => exact (replace rfl).trans (remove rfl)
  | createBlock => cases hrow
  | setEntry => cases hrow
  | removeBlock => cases hrow

lemma Laid.changes (h : x.Laid) (hop : Op.Changes op x y)
    (hplaced : ∀ b ∈ op.placed, b ∈ x.order) : y.Laid := by
  cases hrow : op.editsRow with
  | false => exact h.congr (sameRow_changes hop hrow)
  | true =>
    cases hop with
    | refused => exact h
    | createBlock => exact h.addBlock fun a ha => hplaced a (by simpa [Op.placed] using ha)
    | setEntry exists_block _ => exact ⟨h.row, h.mem_iff, fun e he => mem_some_iff.1 he ▸ exists_block⟩
    | removeBlock => exact h.eraseBlock (hplaced _ (by simp [Op.placed]))
    | _ => cases hrow

structure Tidy (body : Body) : Prop where
  attached : body.Attached
  uses : body.ExactUses
  edges : body.Edges
  loose : body.Loose
  spent : body.Spent
  paired : body.Paired
  laid : body.Laid

lemma tidy_empty (args : List Ty) (ret : Ty) : (empty args ret).Tidy where
  attached := attached_empty args ret
  uses := exactUses_empty args ret
  edges := (wired_empty args ret).edges
  loose _ _ := rfl
  spent i hi := Bool.noConfusion (hi : false = true)
  paired i blocks hk := Kind.noConfusion (hk : Kind.binary .add = .phi blocks)
  laid := ⟨⟨.nil, rfl, rfl, rfl⟩, fun b => by simp [order, empty, hasBlock], fun e he => by simp [empty] at he⟩

lemma Tidy.changes (h : x.Tidy) (live : op.Live x) (hop : Op.Changes op x y) : y.Tidy := by
  have hplaced : ∀ b ∈ op.placed, b ∈ x.order := fun b hb =>
    (h.laid.mem_iff b).2 ⟨live.placed b hb, live.blocks b (op.placed_subset hb)⟩
  exact ⟨h.attached.changes hop, h.uses.changes hop, h.edges.changes hop, h.loose.changes hop,
    h.spent.changes h.uses hop fun v hv => live.values v (op.stored_subset hv), h.paired.changes hop,
    h.laid.changes hop hplaced⟩

lemma Anchored.changes (h : x.Anchored) (hop : Op.Changes op x y) : y.Anchored := by
  cases hrow : op.editsRow with
  | false => exact h.congr (sameRow_changes hop hrow)
  | true =>
    cases hop with
    | refused => exact h
    | createBlock => exact h.addBlock _
    | setEntry exists_block _ => exact fun e he => mem_some_iff.1 he ▸ exists_block
    | removeBlock => exact h.eraseBlock _
    | _ => cases hrow

/-- The instructions and the edges of a body agree, and its blocks are all laid out, each once. -/
structure Arranged (body : Body) : Prop where
  attached : body.Attached
  edges : body.Edges
  nodup : body.order.Nodup
  mem_iff : ∀ b, b ∈ body.order ↔ body.hasBlock b ∧ (body.block b).isRemoved = false
  anchored : body.Anchored

lemma Tidy.arranged (h : body.Tidy) : body.Arranged :=
  ⟨h.attached, h.edges, h.laid.row.nodup, h.laid.mem_iff, h.laid.entry⟩

/-- A body that operations made which named nothing removed. -/
inductive Built : Body → Prop
  | empty (args : List Ty) (ret : Ty) : Built (Body.empty args ret)
  | step {x y : Body} {op : Op} (before : Built x) (live : op.Live x) (run : op.after? x = some y) : Built y

lemma Built.tidy (h : body.Built) : body.Tidy := by
  induction h with
  | empty args ret => exact tidy_empty args ret
  | step _ live run ih => exact ih.changes live (Op.changes_of_after run)

lemma Built.of_liveAfterAll (h : x.Built) {ops : List Op} (hrun : Op.liveAfterAll? ops x = some y) :
    y.Built := by
  rw [Op.liveAfterAll?] at hrun
  induction ops generalizing x with
  | nil =>
    obtain rfl : x = y := some.inj hrun
    exact h
  | cons op ops ih =>
    rw [foldlM_cons, bind_eq_bind, bind_eq_some_iff] at hrun
    obtain ⟨z, hstep, hrest⟩ := hrun
    rw [Op.liveAfter?] at hstep
    split at hstep
    · next live => exact ih (h.step live hstep) hrest
    · simp at hstep

end Body

end MethodIR
