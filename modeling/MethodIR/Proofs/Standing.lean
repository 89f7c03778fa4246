import MethodIR.Proofs.SameGraph

/-!
# What is removed, and what is not

Edges are added and taken away at both ends at once, so that each end keeps knowing the other (`Body.Edges`).
Edits of edges, places and operands leave the layout alone and remove nothing (`Body.SameStanding`). An
instruction that was removed is in no block (`Body.Loose.changes`).
-/

namespace MethodIR

open List Body Edit

namespace Inst

variable {x y z : Inst} {bs : List BlockId}

def Paired (x : Inst) : Prop := ∀ blocks, x.kind = .phi blocks → blocks.length = x.operands.length

def Full (x : Inst) : Prop := x.isRemoved = false → Edit.arityViolation? x.kind x.operands.length = none

lemma full_of_arity (hremoved : y.isRemoved = x.isRemoved) (harity : y.kind.arity? = x.kind.arity?)
    (hlen : y.operands.length = x.operands.length) (h : x.Full) : y.Full := by
  intro hy
  have hx := h (hremoved ▸ hy)
  rw [arityViolation?] at hx ⊢
  rw [harity, hlen]
  cases ha : x.kind.arity? <;> simp_all

lemma Full.length_blocks (h : x.Full) (hlive : x.isRemoved = false) (hk : x.kind = .phi bs) :
    bs.length = x.operands.length := by
  by_contra hne
  have hfull := h hlive
  simp [hk, arityViolation?, Kind.arity?, hne] at hfull

lemma paired_of_bare (h : x.bare = y.bare) (hx : x.Paired) : y.Paired := by
  obtain ⟨hkind, -, hops, -⟩ := bare_eq_iff.1 h
  intro blocks hy
  rw [← hops]
  exact hx blocks (hkind.trans hy)

structure Rewired (x y : Inst) : Prop where
  ty : y.ty = x.ty
  isRemoved : y.isRemoved = x.isRemoved
  operands : y.operands ⊆ x.operands
  paired : x.Paired → y.Paired
  full : x.Full → y.Full

lemma Rewired.refl (x : Inst) : x.Rewired x := ⟨rfl, rfl, Subset.refl _, id, id⟩

lemma Rewired.trans (h : x.Rewired y) (k : y.Rewired z) : x.Rewired z :=
  ⟨k.ty.trans h.ty, k.isRemoved.trans h.isRemoved, Subset.trans k.operands h.operands,
    k.paired ∘ h.paired, k.full ∘ h.full⟩

lemma rewired_of_bare (h : x.bare = y.bare) : x.Rewired y := by
  obtain ⟨hkind, hty, hops, -, hremoved⟩ := bare_eq_iff.1 h
  exact ⟨hty.symm, hremoved.symm, hops ▸ Subset.refl _, paired_of_bare h,
    full_of_arity hremoved.symm (by rw [hkind]) (by rw [hops])⟩

lemma rewired_retarget (x : Inst) (old new : BlockId) :
    x.Rewired { x with kind := x.kind.retarget old new } := by
  have harity : (x.kind.retarget old new).arity? = x.kind.arity? := by
    cases x.kind <;> simp [Kind.retarget, Kind.mapBlocks, Kind.arity?]
  refine ⟨rfl, rfl, Subset.refl _, fun hx blocks hk => ?_, full_of_arity rfl harity rfl⟩
  cases hkind : x.kind with
  | phi bs =>
    simp only [hkind, Kind.retarget, Kind.mapBlocks, Kind.phi.injEq] at hk
    simp [← hk, hx bs hkind]
  | _ => simp [hkind, Kind.retarget, Kind.mapBlocks] at hk

lemma rewired_eraseIdx (hk : x.kind = .phi bs) (n : Nat) :
    x.Rewired { x with operands := x.operands.eraseIdx n, kind := .phi (bs.eraseIdx n) } := by
  refine ⟨rfl, rfl, eraseIdx_subset, fun hx blocks hb => ?_, fun hfull hlive => ?_⟩
  · obtain rfl := Kind.phi.inj hb
    simp [length_eraseIdx, hx bs hk]
  · simp [arityViolation?, Kind.arity?, length_eraseIdx, hfull.length_blocks hlive hk]

end Inst

namespace Body

variable {body x y : Body} {i : InstId} {a b c d : BlockId}

/-- Every edge is known at both ends, and once at each. -/
structure Edges (body : Body) : Prop where
  symm : ∀ a b, b ∈ body.succs a ↔ a ∈ body.preds b
  succs_nodup : ∀ a, (body.succs a).Nodup
  preds_nodup : ∀ b, (body.preds b).Nodup

lemma Edges.congr (h : x.Edges) (hsuccs : ∀ b, y.succs b = x.succs b)
    (hpreds : ∀ b, y.preds b = x.preds b) : y.Edges :=
  ⟨fun a b => by rw [hsuccs, hpreds, h.symm], fun a => hsuccs a ▸ h.succs_nodup a,
    fun b => hpreds b ▸ h.preds_nodup b⟩

lemma SameControl.edges (k : SameControl x y) (h : x.Edges) : y.Edges :=
  h.congr (fun b => by rw [succs, k.block, succs]) fun b => by rw [preds, k.block, preds]

lemma Edges.hasBlock (h : body.Edges) (hb : b ∈ body.succs a) : body.hasBlock a ∧ body.hasBlock b := by
  have hnone : ∀ c : BlockId, body.hasBlock c = false → body.block c = default := fun c hc => by
    rw [block, Tables.getD_of_size_le _ _ _ (by simpa [Body.hasBlock] using hc)]
  refine ⟨?_, ?_⟩
  · by_contra hnot
    rw [succs, hnone a (by simpa using hnot)] at hb
    simp [default, instInhabitedBlock.default] at hb
  · have ha := (h.symm a b).1 hb
    by_contra hnot
    rw [preds, hnone b (by simpa using hnot)] at ha
    simp [default, instInhabitedBlock.default] at ha

lemma connect_of_mem (h : b ∈ body.succs a) : body.connect a b = body := by
  rw [connect, if_pos h]

lemma succs_connect (ha : body.hasBlock a) (hnew : b ∉ body.succs a) (c : BlockId) :
    (body.connect a b).succs c = if c = a then body.succs c ++ [b] else body.succs c := by
  rw [succs, block_connect]
  by_cases hc : c = a
  · subst hc
    simp [ha, hnew]
  · simp [hc]

lemma preds_connect (hb : body.hasBlock b) (hnew : b ∉ body.succs a) (c : BlockId) :
    (body.connect a b).preds c = if c = b then body.preds c ++ [a] else body.preds c := by
  rw [preds, block_connect]
  by_cases hc : c = b
  · subst hc
    simp [hb, hnew]
  · simp [hc]

lemma Edges.connect (h : body.Edges) (ha : body.hasBlock a)
    (hb : b ∈ body.succs a ∨ body.hasBlock b) : (body.connect a b).Edges := by
  by_cases hnew : b ∈ body.succs a
  · rw [connect_of_mem hnew]
    exact h
  · have hb := hb.resolve_left hnew
    refine ⟨fun c d => ?_, fun c => ?_, fun c => ?_⟩
    · rw [succs_connect ha hnew, preds_connect hb hnew]
      have hsym := h.symm c d
      by_cases hc : c = a <;> by_cases hd : d = b <;> simp [hc, hd, hsym] <;> simp_all
    · rw [succs_connect ha hnew]
      split
      · next hc =>
        subst hc
        exact (h.succs_nodup c).append (by simp) (by simpa using hnew)
      · exact h.succs_nodup c
    · rw [preds_connect hb hnew]
      split
      · next hc =>
        subst hc
        refine (h.preds_nodup c).append (by simp) ?_
        simpa using fun hmem => hnew ((h.symm a c).2 hmem)
      · exact h.preds_nodup c

lemma mem_succs_connect (ha : body.hasBlock a) :
    d ∈ (body.connect a b).succs c ↔ d ∈ body.succs c ∨ c = a ∧ d = b := by
  by_cases hnew : b ∈ body.succs a
  · rw [connect_of_mem hnew]
    constructor
    · exact .inl
    · rintro (hd | ⟨rfl, rfl⟩)
      · exact hd
      · exact hnew
  · rw [succs_connect ha hnew]
    by_cases hc : c = a <;> simp [hc]

lemma succs_cut (ha : body.hasBlock a) (c : BlockId) : (body.cut a b).succs c =
    if c = a then (body.succs c).erase b else body.succs c := by
  rw [succs, cut, block_modifyBlock]
  have hin : ((body.modifyBlock a fun x => { x with succs := x.succs.erase b }).block c).succs =
      if c = a then (body.succs c).erase b else body.succs c := by
    rw [block_modifyBlock]
    by_cases hc : c = a
    · subst hc
      rw [if_pos ⟨rfl, ha⟩, if_pos rfl]
      rfl
    · rw [if_neg fun h => hc h.1.symm, if_neg hc]
      rfl
  split <;> exact hin

lemma preds_cut (hb : body.hasBlock b) (c : BlockId) : (body.cut a b).preds c =
    if c = b then (body.preds c).filter (· ≠ a) else body.preds c := by
  have hin : ∀ c, ((body.modifyBlock a fun x => { x with succs := x.succs.erase b }).block c).preds =
      body.preds c := fun c => by
    rw [block_modifyBlock]
    split <;> rfl
  rw [preds, cut, block_modifyBlock]
  by_cases hc : c = b
  · subst hc
    rw [if_pos ⟨rfl, by simpa using hb⟩, if_pos rfl, ← hin]
  · rw [if_neg fun h => hc h.1.symm, if_neg hc]
    exact hin c

lemma sameControl_bump : SameControl body body.bump :=
  ⟨rfl, rfl, rfl, rfl, fun _ => rfl, fun _ => rfl, fun _ => rfl⟩

lemma sameControl_disconnect (h : b ∈ body.succs a) : SameControl (body.cut a b) (body.disconnect a b) := by
  rw [disconnect_eq h]
  exact sameShape_removePhiArgs.control.trans sameControl_bump

lemma Edges.cut (h : body.Edges) (ha : body.hasBlock a) (hb : body.hasBlock b) : (body.cut a b).Edges := by
  refine ⟨fun c d => ?_, fun c => ?_, fun c => ?_⟩
  · rw [succs_cut ha, preds_cut hb]
    have hsym := h.symm c d
    have herase := (h.succs_nodup c).mem_erase_iff (a := b) (b := d)
    by_cases hc : c = a
    · by_cases hd : d = b <;> simp_all
    · by_cases hd : d = b <;> simp_all
  · rw [succs_cut ha]
    split
    · exact (h.succs_nodup c).erase b
    · exact h.succs_nodup c
  · rw [preds_cut hb]
    split
    · exact (h.preds_nodup c).filter _
    · exact h.preds_nodup c

lemma Edges.disconnect (h : body.Edges) : (body.disconnect a b).Edges := by
  by_cases hmem : b ∈ body.succs a
  · obtain ⟨ha, hb⟩ := h.hasBlock hmem
    exact (sameControl_disconnect hmem).edges (h.cut ha hb)
  · rw [disconnect_of_not_mem hmem]
    exact h

lemma Edges.mem_succs_disconnect (h : body.Edges) :
    d ∈ (body.disconnect a b).succs c ↔ d ∈ body.succs c ∧ ¬(c = a ∧ d = b) := by
  by_cases hmem : b ∈ body.succs a
  · rw [succs, (sameControl_disconnect hmem).block]
    change d ∈ (body.cut a b).succs c ↔ _
    rw [succs_cut (h.hasBlock hmem).1]
    by_cases hc : c = a
    · subst hc
      rw [if_pos rfl, (h.succs_nodup c).mem_erase_iff]
      simp [and_comm]
    · simp [hc]
  · rw [disconnect_of_not_mem hmem]
    refine ⟨fun hd => ⟨hd, ?_⟩, fun hd => hd.1⟩
    rintro ⟨rfl, rfl⟩
    exact hmem hd

lemma targets_congr (hinsts : y.instsOf b = x.instsOf b)
    (hkinds : ∀ i ∈ x.instsOf b, (y.kind i).successors = (x.kind i).successors) :
    y.targets b = x.targets b := by
  rw [targets, hinsts, targets]
  exact flatMap_congr hkinds

lemma targets_connect : (body.connect a b).targets c = body.targets c := by
  refine targets_congr (instsOf_connect a b) fun i _ => ?_
  rw [kind, inst, insts_connect, kind, inst]

lemma targets_disconnect : (body.disconnect a b).targets c = body.targets c := by
  by_cases hmem : b ∈ body.succs a
  · rw [(sameControl_disconnect hmem).targets]
    exact targets_congr (samePlaces_cut.instsOf c) fun _ _ => rfl
  · rw [disconnect_of_not_mem hmem]

variable {z : Body} {j : InstId} {is : List InstId}

structure SameRow (x y : Body) : Prop where
  layout : y.layout = x.layout
  entry : y.entry = x.entry
  size : y.blocks.size = x.blocks.size
  erased : ∀ b, (y.block b).isRemoved = (x.block b).isRemoved

lemma SameRow.refl (x : Body) : SameRow x x := ⟨rfl, rfl, rfl, fun _ => rfl⟩

lemma SameRow.trans (h : SameRow x y) (k : SameRow y z) : SameRow x z :=
  ⟨k.layout.trans h.layout, k.entry.trans h.entry, k.size.trans h.size, fun b => (k.erased b).trans (h.erased b)⟩

/-- `y` has the entry and layout of `x`, and the same blocks and instructions are removed. -/
structure SameStanding (x y : Body) : Prop extends SameRow x y where
  removed : ∀ i, (y.inst i).isRemoved = (x.inst i).isRemoved

lemma SameControl.standing (h : SameControl x y) : SameStanding x y :=
  ⟨⟨h.layout, h.entry, by rw [h.blocks], fun b => by rw [h.block]⟩, h.isRemoved⟩

lemma sameRow_modifyBlock {f : Block → Block} (hf : ∀ x, (f x).isRemoved = x.isRemoved) :
    SameRow body (body.modifyBlock b f) := by
  refine ⟨rfl, rfl, by simp [modifyBlock], fun c => ?_⟩
  rw [block_modifyBlock]
  split
  · exact hf _
  · rfl

lemma sameRow_cut : SameRow body (body.cut a b) :=
  .trans (sameRow_modifyBlock (f := fun x => { x with succs := x.succs.erase b }) fun _ => rfl)
    (sameRow_modifyBlock fun _ => rfl)

lemma sameRow_connect : SameRow body (body.connect a b) := by
  refine ⟨by rw [connect_eq], by rw [connect_eq], size_blocks_connect a b, fun c => ?_⟩
  rw [block_connect]

/-! ## Edits of edges and places -/

structure Rewired (x y : Body) : Prop extends SameRow x y where
  insts : y.insts.size = x.insts.size
  inst : ∀ i, (x.inst i).Rewired (y.inst i)

lemma Rewired.stepwise : Stepwise Rewired where
  refl x := ⟨.refl x, rfl, fun _ => .refl _⟩
  trans h k := ⟨h.toSameRow.trans k.toSameRow, k.insts.trans h.insts, fun i => (h.inst i).trans (k.inst i)⟩

lemma Rewired.standing (h : Rewired x y) : SameStanding x y := ⟨h.toSameRow, fun i => (h.inst i).isRemoved⟩

lemma rewired_of_insts (hrow : SameRow x y) (h : y.insts = x.insts) : Rewired x y :=
  ⟨hrow, by rw [h], fun i => by rw [inst, inst, h]; exact .refl _⟩

lemma rewired_of_bare (h : x.bare = y.bare) : Rewired x y :=
  ⟨(sameShape_of_bare h).control.standing.toSameRow, (sameShape_of_bare h).size,
    fun i => Inst.rewired_of_bare (bare_inst_congr h i)⟩

lemma rewired_modifyInst {f : Inst → Inst} (hf : (body.inst i).Rewired (f (body.inst i))) :
    Rewired body (body.modifyInst i f) := by
  refine ⟨⟨rfl, rfl, rfl, fun _ => rfl⟩, by simp [modifyInst], fun j => ?_⟩
  rw [inst_modifyInst]
  split
  · next hij => exact hij.1 ▸ hf
  · exact .refl _

lemma rewired_removePhiSlot (hphi : (body.kind i).isPhi) (n : Nat) : Rewired body (body.removePhiSlot i n) := by
  refine Rewired.stepwise.trans (rewired_modifyInst ?_) (rewired_of_bare (bare_removePhiSlot n).symm)
  rw [kind] at hphi
  cases hk : (body.inst i).kind with
  | phi bs => simpa [hk] using Inst.rewired_eraseIdx hk n
  | _ => simp [hk, Kind.isPhi] at hphi

lemma Rewired.across : AcrossPlaces Rewired where
  toStepwise := Rewired.stepwise
  connect := rewired_of_insts sameRow_connect (insts_connect _ _)
  disconnect := Rewired.stepwise.disconnect (rewired_of_insts sameRow_cut rfl)
    (fun _ => rewired_of_insts ⟨rfl, rfl, rfl, fun _ => rfl⟩ rfl) fun _ _ n hphi => rewired_removePhiSlot hphi n
  target := rewired_modifyInst (Inst.rewired_retarget _ _ _)
  place := rewired_modifyInst ⟨rfl, rfl, Subset.refl _, id, id⟩
  list _ := rewired_of_insts (sameRow_modifyBlock fun _ => rfl) rfl

lemma sameRow_markRemoved : SameRow body (body.markRemoved i) := ⟨rfl, rfl, rfl, fun _ => rfl⟩

lemma sameRow_discard : SameRow body (body.discard i) :=
  (sameShape_dropOperands.trans sameShape_replaceUses).control.standing.toSameRow.trans sameRow_markRemoved

/-! ## Removed instructions -/

/-- Removed instructions are in no block. -/
def Loose (body : Body) : Prop := ∀ i, (body.inst i).isRemoved → (body.inst i).block = none

lemma Loose.congr (h : x.Loose) (k : SameStanding x y) (hplaces : SamePlaces x y) : y.Loose := by
  intro i hi
  rw [k.removed] at hi
  rw [hplaces.block]
  exact h i hi

lemma SameControl.loose (k : SameControl x y) (h : x.Loose) : y.Loose := h.congr k.standing k.samePlaces

lemma Loose.attach (h : body.Loose) (can : body.CanAttach i b) (l : List InstId) : (body.attach i b l).Loose := by
  intro j hj
  rw [Rewired.across.attach.standing.removed] at hj
  rw [inst_attach, if_neg]
  · exact h j hj
  · rintro ⟨rfl, -⟩
    simp [can.2.1] at hj

lemma block_detach_eq_none (h : (body.inst j).block = none ∨ i = j) : ((body.detach i).inst j).block = none := by
  cases hb : (body.inst i).block with
  | none =>
    rw [detach_of_none hb]
    rcases h with h | rfl
    · exact h
    · exact hb
  | some b =>
    rw [(SamePlaces.across.loosened hb).block, inst_loosen]
    split
    · rfl
    · next hnot =>
      rcases h with h | rfl
      · exact h
      · refine absurd ⟨rfl, ?_⟩ hnot
        by_contra hin
        rw [inst, Tables.getD_of_size_le _ _ _ (by simpa [hasInst] using hin)] at hb
        simp [default, instInhabitedInst.default] at hb

section

variable (h : body.Loose)
include h

lemma Loose.detach : (body.detach i).Loose := by
  intro j hj
  rw [Rewired.across.detach.standing.removed] at hj
  exact block_detach_eq_none (.inl (h j hj))

lemma Loose.markRemoved (hi : (body.inst i).block = none) : (body.markRemoved i).Loose := by
  intro j hj
  rw [samePlaces_markRemoved.block]
  by_cases hij : i = j
  · exact hij ▸ hi
  · rw [Body.markRemoved, inst_modifyInst, if_neg fun hh => hij hh.1] at hj
    exact h j hj

lemma Loose.discard (hi : (body.inst i).block = none) : (body.discard i).Loose := by
  have hcontrol : SameControl body ((body.dropOperands i).replaceUses (.inst i)
      (.undef ((body.dropOperands i).inst i).ty)) :=
    (sameShape_dropOperands.trans sameShape_replaceUses).control
  refine Loose.markRemoved (hcontrol.loose h) ?_
  rw [hcontrol.home]
  exact hi

lemma Loose.foldl_discard (his : ∀ i ∈ is, (body.inst i).block = none) : (is.foldl (·.discard ·) body).Loose := by
  induction is generalizing body with
  | nil => exact h
  | cons i is ih =>
    refine ih (h.discard (his i (by simp))) fun j hj => ?_
    rw [samePlaces_discard.block]
    exact his j (by simp [hj])

lemma Loose.destroy : (body.destroy i).Loose := h.detach.discard (block_detach_eq_none (.inr rfl))

end

lemma block_foldl_detach (h : (body.inst i).block = none ∨ i ∈ is) :
    ((is.foldl (·.detach ·) body).inst i).block = none := by
  induction is generalizing body with
  | nil => simpa using h
  | cons j is ih =>
    refine ih ?_
    rw [mem_cons] at h
    rcases h with h | rfl | h
    · exact .inl (block_detach_eq_none (.inl h))
    · exact .inl (block_detach_eq_none (.inr rfl))
    · exact .inr h

lemma Loose.markErased (h : body.Loose) : (body.markErased b).Loose := fun i => h i

lemma Loose.eraseBlock (h : body.Loose) : (body.eraseBlock b).Loose := by
  have hloose := (stepwise_kept Loose).foldl (f := (·.detach ·)) (fun _ _ hx => hx.detach)
    (body.instsOf b).reverse body h
  have hempty : (body.emptied b).Loose := hloose.foldl_discard fun i hi =>
    block_foldl_detach (.inr (mem_reverse.2 hi))
  rw [eraseBlock_eq]
  exact (hempty.congr (Rewired.across.foldl (fun _ _ => Rewired.across.disconnect) _ _).standing
    (SamePlaces.across.foldl (fun _ _ => SamePlaces.across.disconnect) _ _)).markErased

lemma Loose.addInst (h : body.Loose) (kind : Kind) (vs : List Value) (ty : Ty) :
    (body.addInst kind vs ty).Loose := by
  intro i hi
  have hinst := inst_addInst body kind vs ty i
  change ((body.addInst kind vs ty).inst i).bare.isRemoved at hi
  change ((body.addInst kind vs ty).inst i).bare.block = none
  rw [hinst] at hi ⊢
  split
  · rfl
  · next hne =>
    rw [if_neg hne] at hi
    exact h i hi

lemma Loose.across : AcrossOps fun x y => x.Loose → y.Loose where
  toStepwise := stepwise_kept Loose
  vars h := h
  entry _ h := h
  addBlock h := h
  addInst _ _ h := h.addInst _ _ _
  attach can _ h := h.attach can _
  detach h := h.detach
  connect _ _ h := h.congr Rewired.across.connect.standing SamePlaces.across.connect
  disconnect h := h.congr Rewired.across.disconnect.standing SamePlaces.across.disconnect
  retarget _ _ h := h.congr Rewired.across.retarget.standing SamePlaces.across.retarget
  pushArg _ phi _ h := (sameShape_pushArg phi).control.loose h
  slot _ h := (sameShape_removePhiSlot _).control.loose h
  moveUse _ _ _ h := sameShape_moveUse.control.loose h
  replaceUses _ h := sameShape_replaceUses.control.loose h
  remove h := by
    refine Loose.markRemoved (sameShape_dropOperands.control.loose h.detach) ?_
    rw [sameShape_dropOperands.control.home]
    exact block_detach_eq_none (.inr rfl)
  destroy h := h.destroy
  eraseBlock h := h.eraseBlock

lemma Loose.changes {op : Op} (h : x.Loose) (hop : Op.Changes op x y) : y.Loose := Loose.across.changes hop h

end Body

end MethodIR
