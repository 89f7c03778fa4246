import MethodIR.Proofs.Frames
import MethodIR.Proofs.Intact

/-!
# Blocks split off

In a body without phis, redirecting what leads to a block changes nothing but the targets that name it
(`Body.redirected_retarget`), and nothing else changes when a new block takes over all that leads to another one
and goes on there (`Body.SplitFrom`).
-/

namespace MethodIR

open List Success Body Edit

namespace Kind

variable {k : Kind} {old new : BlockId}

@[simp] lemma isTerminator_retarget : (k.retarget old new).isTerminator = k.isTerminator := by
  cases k <;> rfl

@[simp] lemma isGuard_retarget : (k.retarget old new).isGuard = k.isGuard := by
  cases k <;> rfl

@[simp] lemma isPhi_retarget : (k.retarget old new).isPhi = k.isPhi := by
  cases k <;> rfl

lemma mapBlocks_mapBlocks (f g : BlockId → BlockId) : (k.mapBlocks f).mapBlocks g = k.mapBlocks (g ∘ f) := by
  cases k <;> simp [mapBlocks]

lemma retarget_retarget : (k.retarget old new).retarget old new = k.retarget old new := by
  rw [retarget, retarget, mapBlocks_mapBlocks]
  congr 1
  funext t
  simp only [Function.comp_apply]
  split
  · split <;> rfl
  · rfl

lemma mapBlocks_eq_self {f : BlockId → BlockId} (h : ∀ t ∈ k.blocks, f t = t) : k.mapBlocks f = k := by
  have hmap : ∀ l : List BlockId, (∀ t ∈ l, f t = t) → l.map f = l := fun l hl => by
    rw [map_congr_left hl, map_id']
  cases k with
  | guard r b filter c => cases filter <;> simp_all [mapBlocks, blocks, successors]
  | switch ts d =>
    simp only [blocks, successors, mem_append, mem_singleton] at h
    rw [mapBlocks, hmap ts fun t ht => h t (.inl ht), h d (.inr rfl)]
  | phi bs => rw [mapBlocks, hmap bs h]
  | _ => simp_all [mapBlocks, blocks, successors]

lemma retarget_of_notMem (hphi : k.isPhi = false) (hold : old ∉ k.successors) : k.retarget old new = k := by
  refine mapBlocks_eq_self fun t ht => if_neg ?_
  rintro rfl
  cases k <;> simp_all [blocks, isPhi]

end Kind

namespace Body

variable {body x y z : Body} {a b old new : BlockId} {done done' preds : List BlockId} {i j : InstId}

/-! ## Redirected targets -/

/-- `y` is `x` but for the targets `old` of the instructions in some blocks, which have become `new`. -/
structure Redirected (old new : BlockId) (done : List BlockId) (x y : Body) : Prop where
  row : SameRow x y
  places : SamePlaces x y
  size : y.insts.size = x.insts.size
  vars : y.vars = x.vars
  args : y.args = x.args
  returnTy : y.returnTy = x.returnTy
  operands : ∀ i, (y.inst i).operands = (x.inst i).operands
  kind : ∀ i, y.kind i =
    if ∃ a ∈ done, (x.inst i).block = some a then (x.kind i).retarget old new else x.kind i

lemma Redirected.refl (x : Body) : Redirected old new [] x x :=
  ⟨.refl x, .refl x, rfl, rfl, rfl, rfl, fun _ => rfl, fun _ => by simp⟩

lemma Redirected.trans (h : Redirected old new done x y) (k : Redirected old new done' y z) :
    Redirected old new (done ++ done') x z := by
  refine ⟨h.row.trans k.row, h.places.trans k.places, k.size.trans h.size, k.vars.trans h.vars,
    k.args.trans h.args, k.returnTy.trans h.returnTy, fun i => (k.operands i).trans (h.operands i), fun i => ?_⟩
  rw [k.kind, h.kind, h.places.block]
  simp only [mem_append, or_and_right, exists_or]
  split <;> split <;> simp_all [Kind.retarget_retarget]

lemma Redirected.isPhi (h : Redirected old new done x y) : (y.kind i).isPhi = (x.kind i).isPhi := by
  rw [h.kind]
  split
  · rw [Kind.isPhi_retarget]
  · rfl

lemma disconnectUnnamed_tables (h : ∀ i, (body.kind i).isPhi = false) :
    (body.disconnectUnnamed a b).insts = body.insts ∧ (body.disconnectUnnamed a b).vars = body.vars ∧
      (body.disconnectUnnamed a b).args = body.args ∧ (body.disconnectUnnamed a b).returnTy = body.returnTy := by
  rw [disconnectUnnamed]
  split
  · exact ⟨rfl, rfl, rfl, rfl⟩
  · by_cases hmem : b ∈ body.succs a
    · have hphis : (body.cut a b).phis b = [] := by
        rw [phis]
        cases hl : (body.cut a b).instsOf b with
        | nil => rfl
        | cons i l =>
          have hi : ((body.cut a b).kind i).isPhi = false := h i
          exact takeWhile_cons_of_neg (by simp [hi])
      rw [disconnect_eq hmem, removePhiArgs, hphis]
      exact ⟨rfl, rfl, rfl, rfl⟩
    · rw [disconnect_of_not_mem hmem]
      exact ⟨rfl, rfl, rfl, rfl⟩

lemma kind_attach {l : List InstId} : (body.attach i b l).kind j = body.kind j := by
  rw [kind, inst_attach]
  split <;> rfl

lemma rename_eq (is : List InstId) :
    body.rename old new is = { body with insts := (body.rename old new is).insts } := by
  rw [rename]
  induction is generalizing body with
  | nil => rfl
  | cons i is ih => exact ih

lemma operands_rename (is : List InstId) : ((body.rename old new is).inst j).operands = (body.inst j).operands := by
  rw [rename]
  induction is generalizing body with
  | nil => rfl
  | cons i is ih =>
    rw [foldl_cons, ih, inst_modifyInst]
    split <;> rfl

section

variable (h : ∀ i, (body.kind i).isPhi = false) (hplaces : body.Attached)
include h hplaces

lemma retarget_tables : (body.retarget b old new).insts = (body.rename old new (body.branching b)).insts ∧
      (body.retarget b old new).vars = body.vars ∧ (body.retarget b old new).args = body.args ∧
      (body.retarget b old new).returnTy = body.returnTy := by
  have hkind : ∀ i, ((body.rename old new (body.branching b)).connect b new).kind i =
      if i ∈ body.branching b then (body.kind i).retarget old new else body.kind i := fun i => by
    rw [kind, inst, insts_connect]
    exact hplaces.kind_rename
  have hphis : ∀ i, (((body.rename old new (body.branching b)).connect b new).kind i).isPhi = false := fun i => by
      rw [hkind]
      split
      · rw [Kind.isPhi_retarget, h]
      · exact h i
  have htables : ((body.rename old new (body.branching b)).connect b new).vars = body.vars ∧
      ((body.rename old new (body.branching b)).connect b new).args = body.args ∧
      ((body.rename old new (body.branching b)).connect b new).returnTy = body.returnTy := by
    rw [connect_eq, rename_eq]
    exact ⟨rfl, rfl, rfl⟩
  obtain ⟨hinsts', hvars', hargs', hret'⟩ := @disconnectUnnamed_tables _ b old hphis
  rw [retarget_eq]
  exact ⟨hinsts'.trans (insts_connect b new), hvars'.trans htables.1, hargs'.trans htables.2.1,
    hret'.trans htables.2.2⟩

lemma redirected_retarget : Redirected old new [b] body (body.retarget b old new) := by
  obtain ⟨hinsts, hvars, hargs, hret⟩ := @retarget_tables body b old new h hplaces
  have hinst : ∀ i, (body.retarget b old new).inst i = (body.rename old new (body.branching b)).inst i :=
    fun i => by rw [inst, hinsts, inst]
  refine ⟨Rewired.across.retarget.toSameRow, SamePlaces.across.retarget, ?_, hvars, hargs, hret, fun i => ?_,
    fun i => ?_⟩
  · rw [hinsts, (Rewired.across.rename _).insts]
  · rw [hinst, operands_rename]
  · rw [kind, hinst, ← kind, hplaces.kind_rename]
    simp only [mem_branching, hplaces.mem_iff, mem_singleton, exists_eq_left]
    by_cases hi : (body.inst i).block = some b
    · -- what does not branch has no targets
      by_cases hbranch : (body.kind i).isTerminator || (body.kind i).isGuard
      · rw [if_pos ⟨hi, hbranch⟩, if_pos hi]
      · rw [if_neg fun hmem => hbranch hmem.2, if_pos hi,
          Kind.retarget_of_notMem (h i) (by simp [successors_of_not_branching hbranch])]
    · rw [if_neg fun hmem => hi hmem.1, if_neg hi]

end

variable {body' : Body} {start : BlockId} {u : Unit} {place : Option BlockId}

lemma replaceTarget_iff : replaceTarget b old new body = .ok u body' ↔
    body.hasBlock b ∧ old ∈ body.targets b ∧ (new ∈ body.succs b ∨ body.hasBlock new) ∧
      body' = body.retarget b old new := by
  simp only [replaceTarget, bind_iff, block_iff, get_iff]
  by_cases hold : old ∈ body.targets b
  · simp [hold, succs]
    grind
  · simp [hold]

lemma forM_replaceTarget (hnew : body.hasBlock new) (hintact : body.Intact)
    (hphis : ∀ i, (body.kind i).isPhi = false)
    (h : preds.forM (fun pred => replaceTarget pred old new) body = .ok u body') :
    body'.Intact ∧ Redirected old new preds body body' := by
  induction preds generalizing body with
  | nil =>
    obtain ⟨-, rfl⟩ := pure_iff.1 h
    exact ⟨hintact, .refl body⟩
  | cons pred preds ih =>
    change (replaceTarget pred old new >>= fun _ =>
      preds.forM fun pred => replaceTarget pred old new) body = _ at h
    obtain ⟨_, z, hone, hrest⟩ := bind_iff.1 h
    obtain ⟨hb, hold, -, rfl⟩ := replaceTarget_iff.1 hone
    have hredirected := @redirected_retarget body pred old new hphis hintact.wired.attached
    obtain ⟨hintact', hrest'⟩ := ih (by rw [hasBlock, hredirected.row.size]; exact hnew)
      (hintact.retarget hb hold hnew) (fun i => hredirected.isPhi.trans (hphis i)) hrest
    exact ⟨hintact', hredirected.trans hrest'⟩

/-- A new block that jumps to `start` takes over all that led there. -/
structure SplitFrom (x : Body) (start : BlockId) (y : Body) : Prop where
  intact : y.Intact
  hasBlock : ∀ b, y.hasBlock b ↔ b = ⟨x.blocks.size⟩ ∨ x.hasBlock b
  entry : y.entry = x.entry
  vars : y.vars = x.vars
  args : y.args.size = x.args.size
  returnTy : y.returnTy = x.returnTy
  instsOf : ∀ b, y.instsOf b = if b = ⟨x.blocks.size⟩ then [⟨x.insts.size⟩] else x.instsOf b
  size : y.insts.size = x.insts.size + 1
  jump : y.kind ⟨x.insts.size⟩ = .jump start
  home : ∀ i, (y.inst i).block = if i = ⟨x.insts.size⟩ then some ⟨x.blocks.size⟩ else (x.inst i).block
  operands : ∀ i, (y.inst i).operands = if i = ⟨x.insts.size⟩ then [] else (x.inst i).operands
  kind : ∀ i, i ≠ ⟨x.insts.size⟩ → y.kind i =
    if (x.inst i).block = none then x.kind i else (x.kind i).retarget start ⟨x.blocks.size⟩

section

variable (h : SplitFrom x start y) (hi : i ≠ ⟨x.insts.size⟩)
include h hi

lemma SplitFrom.isTerminator : (y.kind i).isTerminator = (x.kind i).isTerminator := by
  rw [h.kind i hi]
  split
  · rfl
  · rw [Kind.isTerminator_retarget]

lemma SplitFrom.isGuard : (y.kind i).isGuard = (x.kind i).isGuard := by
  rw [h.kind i hi]
  split
  · rfl
  · rw [Kind.isGuard_retarget]

end

lemma instsOf_of_not_hasBlock (h : ¬body.hasBlock b) : body.instsOf b = [] := by
  rw [instsOf, block, Tables.getD_of_size_le _ _ _ (by simpa [hasBlock] using h)]
  rfl

lemma kind_of_redirected (h : Redirected start new (x.preds start) (x.addBlock place) y)
    (hx : x.Intact) (hphis : ∀ i, (x.kind i).isPhi = false) :
    y.kind i = if (x.inst i).block = none then x.kind i else (x.kind i).retarget start new := by
  have hkind := h.kind i
  change y.kind i = if ∃ a ∈ x.preds start, (x.inst i).block = some a then _ else x.kind i at hkind
  rw [hkind]
  cases hhome : (x.inst i).block with
  | none => simp
  | some a =>
    simp only [Option.some.injEq, exists_eq_right', reduceCtorEq, if_false]
    split
    · rfl
    · next ha =>
      refine (Kind.retarget_of_notMem (hphis i) fun hmem => ha ?_).symm
      exact (hx.wired.edges.symm a start).1 (hx.mem_succs.2 ⟨i, hhome, hmem⟩)

lemma splitFrom_append (h : Redirected start ⟨x.blocks.size⟩ (x.preds start) (x.addBlock place) y)
    (hx : x.Intact) (hphis : ∀ i, (x.kind i).isPhi = false) (hy : y.Intact) (hentry : x.entry = some ⟨0⟩)
    (htarget : y.hasBlock start) : SplitFrom x start (y.append ⟨x.blocks.size⟩ (.jump start) [] .void) := by
  have hsize : y.insts.size = x.insts.size := h.size
  have hinsts : ∀ b, y.instsOf b = x.instsOf b := fun b =>
    (h.places.instsOf b).trans (instsOf_addBlock place)
  have hblocks : ∀ b, y.hasBlock b ↔ b = ⟨x.blocks.size⟩ ∨ x.hasBlock b := fun b => by
    rw [hasBlock, h.row.size, ← hasBlock, hasBlock_addBlock]
  have hhas : y.hasBlock ⟨x.blocks.size⟩ := (hblocks _).2 (.inl rfl)
  have hentry' : y.entry = some ⟨0⟩ := h.row.entry.trans (by simp [addBlock, hentry])
  have hempty : y.instsOf ⟨x.blocks.size⟩ = [] := by
    rw [hinsts]
    exact instsOf_of_not_hasBlock (by simp [hasBlock])
  have hbare := inst_append y ⟨x.blocks.size⟩ (.jump start) [] .void
  have hnew : ((y.append ⟨x.blocks.size⟩ (.jump start) [] .void).inst ⟨x.insts.size⟩).bare =
      ({ kind := .jump start, ty := .void, block := some ⟨x.blocks.size⟩ } : Inst).bare :=
    (hbare _).trans (if_pos hsize.symm)
  rw [Inst.bare_eq_iff] at hnew
  have hold : ∀ i : InstId, i ≠ ⟨x.insts.size⟩ →
      ((y.append ⟨x.blocks.size⟩ (.jump start) [] .void).inst i).bare = (y.inst i).bare := fun i hi =>
    (hbare i).trans (if_neg fun heq => hi (InstId.ext (heq.trans hsize)))
  simp only [Inst.bare_eq_iff] at hold
  have hgrows := grows_append y ⟨x.blocks.size⟩ (.jump start) [] .void
  refine ⟨?_, fun b => ?_, ?_, (vars_append y _ _ _ _).trans h.vars, ?_, hgrows.returnTy.trans h.returnTy,
    fun b => ?_, ?_, hnew.1, fun i => ?_, fun i => ?_, fun i hi => ?_⟩
  · rw [append_eq_withInst]
    exact hy.withInst rfl (by simp) hhas (by simpa [Kind.successors] using htarget) (append_nil _)
  · rw [hasBlock, size_blocks_append]
    exact hblocks b
  · exact (hgrows.entry _ hentry').trans hentry.symm
  · exact (hasArg_congr hgrows.args).trans (congrArg Array.size h.args)
  · rw [instsOf_append _ _ _ _ _ hhas, hsize, hempty, hinsts]
    rfl
  · rw [insts_size_append, hsize]
  · split
    · next hi =>
      rw [hi]
      exact hnew.2.2.2.1
    · next hi => exact (hold i hi).2.2.2.1.trans (h.places.block i)
  · split
    · next hi =>
      rw [hi]
      exact hnew.2.2.1
    · next hi => exact (hold i hi).2.2.1.trans (h.operands i)
  · exact (hold i hi).1.trans (kind_of_redirected h hx hphis)

end Body

end MethodIR
