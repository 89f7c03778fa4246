import MethodIR.Proofs.Standing
import MethodIR.Proofs.Threads

/-!
# Edges over histories

As long as no edge is added or taken away by itself, the successors of a block are what its terminators
and guards name (`Body.Named`).
-/

namespace MethodIR

open List Body

namespace Body

variable {body x y : Body} {i j : InstId} {a b c d old new : BlockId}
  {l is : List InstId}

/-! ## Edges that instructions name -/

def Named (body : Body) : Prop := ∀ a b, b ∈ body.succs a ↔ b ∈ body.targets a

lemma SameControl.named (k : SameControl x y) (h : x.Named) : y.Named := fun a b => by
  rw [succs, k.block, k.targets]
  exact h a b

lemma Edges.foldl_connect (h : body.Edges) (ha : body.hasBlock a) {ts : List BlockId}
    (hts : ∀ t ∈ ts, body.hasBlock t) : (ts.foldl (·.connect a ·) body).Edges ∧
      (∀ c d, d ∈ (ts.foldl (·.connect a ·) body).succs c ↔ d ∈ body.succs c ∨ c = a ∧ d ∈ ts) ∧
      ∀ c, (ts.foldl (·.connect a ·) body).targets c = body.targets c := by
  induction ts generalizing body with
  | nil => exact ⟨h, by simp, fun _ => rfl⟩
  | cons t ts ih =>
    have hsize : ∀ c, (body.connect a t).hasBlock c = body.hasBlock c := fun c => by
      rw [Body.hasBlock, size_blocks_connect, Body.hasBlock]
    have ht : body.hasBlock t := hts t (by simp)
    obtain ⟨hedges, hmem, htargets⟩ := ih (h.connect ha (.inr ht)) ((hsize a).trans ha) fun s hs => by
      rw [hsize]
      exact hts s (by simp [hs])
    refine ⟨hedges, fun c d => ?_, fun c => (htargets c).trans targets_connect⟩
    rw [foldl_cons, hmem, mem_succs_connect ha, mem_cons]
    tauto

lemma Edges.foldl_disconnectUnnamed (h : body.Edges) (ts : List BlockId) :
    (ts.foldl (·.disconnectUnnamed a ·) body).Edges ∧
      (∀ c d, d ∈ (ts.foldl (·.disconnectUnnamed a ·) body).succs c ↔
        d ∈ body.succs c ∧ ¬(c = a ∧ d ∈ ts ∧ d ∉ body.targets a)) ∧
      ∀ c, (ts.foldl (·.disconnectUnnamed a ·) body).targets c = body.targets c := by
  induction ts generalizing body with
  | nil => exact ⟨h, by simp, fun _ => rfl⟩
  | cons t ts ih =>
    rw [foldl_cons, disconnectUnnamed]
    split
    · next ht =>
      obtain ⟨hedges, hmem, htargets⟩ := ih h
      refine ⟨hedges, fun c d => ?_, htargets⟩
      rw [hmem, mem_cons]
      refine and_congr_right fun _ => not_congr (and_congr_right fun _ => ?_)
      constructor
      · exact fun hd => ⟨.inr hd.1, hd.2⟩
      · rintro ⟨rfl | hd, hnot⟩
        · exact absurd ht hnot
        · exact ⟨hd, hnot⟩
    · next ht =>
      obtain ⟨hedges, hmem, htargets⟩ := ih h.disconnect
      refine ⟨hedges, fun c d => ?_, fun c => (htargets c).trans targets_disconnect⟩
      rw [hmem, h.mem_succs_disconnect, targets_disconnect, mem_cons]
      by_cases hd : d = t
      · subst hd
        tauto
      · tauto

/-! ## Attaching and detaching -/

lemma edges_of_frame (h : x.Edges) (hframe : ∀ b, (y.block b).frame = (x.block b).frame) : y.Edges := by
  refine h.congr (fun b => ?_) fun b => ?_
  · have hb := congrArg Block.succs (hframe b)
    exact hb
  · have hb := congrArg Block.preds (hframe b)
    exact hb

lemma frame_fasten (c : BlockId) : ((body.fasten i b l).block c).frame = (body.block c).frame := by
  rw [fasten, block_modifyBlock]
  split <;> rfl

lemma succs_fasten (c : BlockId) : (body.fasten i b l).succs c = body.succs c := by
  have hframe : ((body.fasten i b l).block c).frame = (body.block c).frame := frame_fasten c
  exact (congrArg Block.succs hframe :)

lemma hasBlock_fasten : (body.fasten i b l).hasBlock c = body.hasBlock c := by
  rw [fasten, hasBlock_modifyBlock, hasBlock_modifyInst]

lemma mem_targets : c ∈ body.targets b ↔ ∃ i ∈ body.instsOf b, c ∈ (body.kind i).successors := mem_flatMap

lemma mem_targets_fasten (hb : body.hasBlock b)
    (hl : l.Perm (i :: body.instsOf b)) : d ∈ (body.fasten i b l).targets c ↔
      d ∈ body.targets c ∨ c = b ∧ d ∈ (body.kind i).successors := by
  have hinsts : (body.fasten i b l).instsOf c = if c = b then l else body.instsOf c := by
    rw [fasten, instsOf, block_modifyBlock]
    by_cases hc : c = b
    · subst hc
      simp [hb]
    · rw [if_neg fun h => hc h.1.symm, if_neg hc]
      rfl
  simp only [mem_targets, hinsts, kind_fasten]
  by_cases hc : c = b
  · subst hc
    simp only [if_true, hl.mem_iff, mem_cons, exists_eq_or_imp, true_and]
    exact or_comm
  · simp [hc]

lemma Edges.attach (h : body.Edges) (can : body.CanAttach i b) (l : List InstId) : (body.attach i b l).Edges := by
  rw [attach_eq_fasten]
  refine ((edges_of_frame h frame_fasten).foldl_connect ?_ fun t ht => ?_).1
  · rw [hasBlock_fasten]
    exact can.2.2.2.1
  · rw [hasBlock_fasten]
    exact can.2.2.2.2 t ht

lemma Named.attach (h : body.Named) (hedges : body.Edges) (can : body.CanAttach i b) (hl : l.Perm (i :: body.instsOf b)) : (body.attach i b l).Named := by
  obtain ⟨-, hmem, htargets⟩ := (edges_of_frame hedges (frame_fasten (i := i) (b := b) (l := l))).foldl_connect
    (hasBlock_fasten.trans can.2.2.2.1)
    fun t (ht : t ∈ (body.kind i).successors) => hasBlock_fasten.trans (can.2.2.2.2 t ht)
  intro c d
  rw [attach_eq_fasten, hmem, htargets, mem_targets_fasten can.2.2.2.1 hl, succs_fasten, h c d]

lemma frame_loosen (c : BlockId) : ((body.loosen i b).block c).frame = (body.block c).frame := by
  rw [loosen, block_modifyBlock]
  split <;> rfl

lemma succs_loosen (c : BlockId) : (body.loosen i b).succs c = body.succs c := by
  have hframe : ((body.loosen i b).block c).frame = (body.block c).frame := frame_loosen c
  exact (congrArg Block.succs hframe :)

lemma Attached.mem_targets_iff_loosen (h : body.Attached) (hb : (body.inst i).block = some b) : d ∈ body.targets c ↔
      d ∈ (body.loosen i b).targets c ∨ c = b ∧ d ∈ (body.kind i).successors := by
  have hi : i ∈ body.instsOf b := (h.mem_iff b i).2 hb
  simp only [mem_targets, instsOf_loosen, kind_loosen]
  by_cases hc : c = b
  · subst hc
    simp only [if_true, (h.nodup c).mem_erase_iff, true_and]
    constructor
    · rintro ⟨j, hj, hd⟩
      by_cases hji : j = i
      · exact .inr (hji ▸ hd)
      · exact .inl ⟨j, ⟨hji, hj⟩, hd⟩
    · rintro (⟨j, hj, hd⟩ | hd)
      · exact ⟨j, hj.2, hd⟩
      · exact ⟨i, hi, hd⟩
  · simp [hc]

lemma Edges.detach (h : body.Edges) : (body.detach i).Edges := by
  cases hb : (body.inst i).block with
  | none =>
    rw [detach_of_none hb]
    exact h
  | some b =>
    rw [detach_eq hb]
    exact ((edges_of_frame h frame_loosen).foldl_disconnectUnnamed _).1

lemma Named.detach (h : body.Named) (hedges : body.Edges) (hplaces : body.Attached) : (body.detach i).Named := by
  cases hb : (body.inst i).block with
  | none =>
    rw [detach_of_none hb]
    exact h
  | some b =>
    obtain ⟨-, hmem, htargets⟩ := (edges_of_frame hedges
      (frame_loosen (i := i) (b := b))).foldl_disconnectUnnamed (a := b) ((body.loosen i b).kind i).successors
    intro c d
    rw [detach_eq hb, hmem, htargets, succs_loosen, h c d, hplaces.mem_targets_iff_loosen hb, kind_loosen]
    by_cases hc : c = b
    · subst hc
      tauto
    · tauto

lemma sameControl_discard_mark : ∃ y, SameControl body y ∧ body.discard i = y.markRemoved i :=
  ⟨_, (sameShape_dropOperands.trans sameShape_replaceUses).control, rfl⟩

lemma Edges.markRemoved (h : body.Edges) : (body.markRemoved i).Edges := edges_of_frame h fun _ => rfl

lemma Edges.discard (h : body.Edges) : (body.discard i).Edges := by
  obtain ⟨y, hy, heq⟩ := @sameControl_discard_mark body i
  rw [heq]
  exact (hy.edges h).markRemoved

lemma targets_markRemoved : (body.markRemoved i).targets b = body.targets b := by
  refine targets_congr rfl fun j _ => ?_
  rw [markRemoved, kind, inst_modifyInst]
  split <;> rfl

lemma Named.discard (h : body.Named) : (body.discard i).Named := by
  obtain ⟨y, hy, heq⟩ := @sameControl_discard_mark body i
  intro c d
  rw [heq, targets_markRemoved]
  exact hy.named h c d

/-! ## Retargeting -/

lemma successors_retarget (k : Kind) (old new : BlockId) : (k.retarget old new).successors =
    k.successors.map fun t => if t = old then new else t := by
  cases k <;> simp [Kind.retarget, Kind.mapBlocks, Kind.successors]
  case guard filter _ => cases filter <;> simp

lemma successors_of_not_branching {k : Kind} (h : ¬(k.isTerminator || k.isGuard)) : k.successors = [] := by
  cases k <;> simp_all [Kind.isTerminator, Kind.isGuard, Kind.successors]

lemma mem_branching : i ∈ body.branching b ↔
    i ∈ body.instsOf b ∧ ((body.kind i).isTerminator || (body.kind i).isGuard) := mem_filter

lemma blocks_rename (old new : BlockId) (is : List InstId) : (body.rename old new is).blocks = body.blocks := by
  rw [rename]
  induction is generalizing body with
  | nil => rfl
  | cons i is ih => exact ih

lemma kind_rename (hnodup : is.Nodup) (his : ∀ i ∈ is, body.hasInst i) : (body.rename old new is).kind j =
      if j ∈ is then (body.kind j).retarget old new else body.kind j := by
  rw [rename]
  induction is generalizing body with
  | nil => simp
  | cons i is ih =>
    obtain ⟨hi, hnodup⟩ := nodup_cons.1 hnodup
    rw [foldl_cons, ih hnodup fun k hk => by
      rw [hasInst_modifyInst]
      exact his k (by simp [hk])]
    have hkind : (body.modifyInst i fun x => { x with kind := x.kind.retarget old new }).kind j =
        if i = j then (body.kind j).retarget old new else body.kind j := by
      rw [kind, inst_modifyInst]
      by_cases hij : i = j
      · subst hij
        rw [if_pos ⟨rfl, his i (by simp)⟩, if_pos rfl]
        rfl
      · rw [if_neg fun h => hij h.1, if_neg hij]
        rfl
    rw [hkind]
    by_cases hij : i = j
    · subst hij
      simp [hi]
    · simp [hij, Ne.symm hij]

lemma instsOf_rename (old new : BlockId) (is : List InstId) :
    (body.rename old new is).instsOf c = body.instsOf c := by
  rw [instsOf, block, blocks_rename, instsOf, block]

lemma succs_rename (old new : BlockId) (is : List InstId) : (body.rename old new is).succs c = body.succs c := by
  rw [succs, block, blocks_rename, succs, block]

lemma hasBlock_rename (old new : BlockId) (is : List InstId) :
    (body.rename old new is).hasBlock c = body.hasBlock c := by
  rw [hasBlock, blocks_rename, hasBlock]

lemma edges_rename (h : body.Edges) (old new : BlockId) (is : List InstId) : (body.rename old new is).Edges :=
  edges_of_frame h fun b => by rw [block, blocks_rename, block]

lemma Attached.kind_rename (h : body.Attached) : (body.rename old new (body.branching b)).kind j =
      if j ∈ body.branching b then (body.kind j).retarget old new else body.kind j :=
  Body.kind_rename ((h.nodup b).filter _) fun _ hi => h.hasInst (mem_branching.1 hi).1

lemma Attached.targets_rename (h : body.Attached) (old new : BlockId) :
    (body.rename old new (body.branching b)).targets c =
      if c = b then (body.targets c).map fun t => if t = old then new else t else body.targets c := by
  rw [targets, instsOf_rename]
  simp only [h.kind_rename]
  by_cases hc : c = b
  · subst hc
    rw [if_pos rfl, targets, map_flatMap]
    refine flatMap_congr fun i hi => ?_
    by_cases hb : (body.kind i).isTerminator || (body.kind i).isGuard
    · rw [if_pos (mem_branching.2 ⟨hi, hb⟩), successors_retarget]
    · rw [if_neg fun hmem => hb (mem_branching.1 hmem).2, successors_of_not_branching hb]
      rfl
  · rw [if_neg hc, targets]
    refine flatMap_congr fun i hi => ?_
    have hnot : i ∉ body.branching b := by
      intro hmem
      have hb := (h.mem_iff b i).1 (mem_branching.1 hmem).1
      rw [(h.mem_iff c i).1 hi] at hb
      exact hc (Option.some.inj hb)
    rw [if_neg hnot]

lemma Edges.retarget (h : body.Edges) (hb : body.hasBlock b)
    (hnew : new ∈ body.succs b ∨ body.hasBlock new) : (body.retarget b old new).Edges := by
  rw [retarget_eq]
  have hconnect : ((body.rename old new (body.branching b)).connect b new).Edges :=
    (edges_rename h old new _).connect ((hasBlock_rename old new _).trans hb) (by
      rw [succs_rename, hasBlock_rename]
      exact hnew)
  have hcut := (hconnect.foldl_disconnectUnnamed (a := b) [old]).1
  rwa [foldl_cons, foldl_nil] at hcut

lemma Named.retarget (h : body.Named) (hedges : body.Edges) (hplaces : body.Attached) (hb : body.hasBlock b) (hold : old ∈ body.targets b)
    (hnew : new ∈ body.succs b ∨ body.hasBlock new) : (body.retarget b old new).Named := by
  have hb' : (body.rename old new (body.branching b)).hasBlock b := (hasBlock_rename old new _).trans hb
  have hconnect : ((body.rename old new (body.branching b)).connect b new).Edges :=
    (edges_rename hedges old new _).connect hb' (by
      rw [succs_rename, hasBlock_rename]
      exact hnew)
  obtain ⟨-, hmem, htargets⟩ := hconnect.foldl_disconnectUnnamed (a := b) [old]
  rw [foldl_cons, foldl_nil, ← retarget_eq] at hmem htargets
  intro c d
  rw [hmem, htargets, mem_succs_connect hb', targets_connect, targets_connect, succs_rename, h c d,
    hplaces.targets_rename, hplaces.targets_rename]
  by_cases hc : c = b
  · subst hc
    simp only [if_true, true_and, mem_singleton, mem_map]
    constructor
    · rintro ⟨hd, hkeep⟩
      by_cases hdo : d = old
      · by_contra hnot
        exact hkeep ⟨hdo, hnot⟩
      · rcases hd with hd | rfl
        · exact ⟨d, hd, if_neg hdo⟩
        · exact ⟨old, hold, if_pos rfl⟩
    · rintro ⟨t, ht, rfl⟩
      refine ⟨?_, fun hnot => hnot.2 ⟨t, ht, rfl⟩⟩
      split
      · exact .inr rfl
      · exact .inl ht
  · simp [hc]

/-! ## Removing a block -/

lemma Edges.markErased (h : body.Edges) : (body.markErased b).Edges := by
  refine h.congr (fun c => ?_) fun c => ?_
  · rw [succs, block_markErased]
    split <;> rfl
  · rw [preds, block_markErased]
    split <;> rfl

lemma Edges.eraseBlock (h : body.Edges) : (body.eraseBlock b).Edges :=
  (stepwise_kept Edges).eraseBlock (fun _ _ hx => hx.detach) (fun _ _ hx => hx.discard)
    (fun _ _ hx => hx.disconnect) (fun _ hx => hx.markErased) h

/-! ## Histories -/

structure Wired (body : Body) : Prop where
  attached : body.Attached
  edges : body.Edges
  named : body.Named

lemma Wired.control (h : x.Wired) (k : SameControl x y) : y.Wired :=
  ⟨h.attached.congr k.samePlaces, k.edges h.edges, k.named h.named⟩

section

variable (h : body.Wired)
include h

lemma Wired.attach (can : body.CanAttach i b) (hl : l.Perm (i :: body.instsOf b)) : (body.attach i b l).Wired :=
  ⟨h.attached.attach_of_can can hl, h.edges.attach can l, h.named.attach h.edges can hl⟩

lemma Wired.detach : (body.detach i).Wired :=
  ⟨h.attached.detach, h.edges.detach, h.named.detach h.edges h.attached⟩

lemma Wired.markRemoved : (body.markRemoved i).Wired :=
  ⟨h.attached.congr samePlaces_markRemoved, h.edges.markRemoved, fun c d => by
    rw [targets_markRemoved]
    exact h.named c d⟩

lemma Wired.discard : (body.discard i).Wired :=
  ⟨h.attached.congr samePlaces_discard, h.edges.discard, h.named.discard⟩

lemma Wired.destroy : (body.destroy i).Wired := h.detach.discard

lemma Wired.eraseBlock : (body.eraseBlock b).Wired := by
  have hempty : (body.emptied b).Wired :=
    (stepwise_kept Wired).emptied (fun _ _ hx => hx.detach) (fun _ _ hx => hx.discard) h
  have hsuccs : (body.emptied b).succs b = [] := by
    refine eq_nil_iff_forall_not_mem.2 fun c hc => ?_
    rw [hempty.named b c, targets, h.attached.instsOf_emptied] at hc
    simp at hc
  refine ⟨h.attached.eraseBlock, h.edges.eraseBlock, fun c d => ?_⟩
  have hkeep : (body.eraseBlock b).succs c = (body.emptied b).succs c ∧
      (body.eraseBlock b).instsOf c = (body.emptied b).instsOf c := by
    rw [eraseBlock_eq, hsuccs, succs, instsOf, block_markErased]
    split <;> exact ⟨rfl, rfl⟩
  have hkind : ∀ i, (body.eraseBlock b).kind i = (body.emptied b).kind i := fun i => by
    rw [eraseBlock_eq, hsuccs]
    rfl
  rw [hkeep.1, targets_congr hkeep.2 fun i _ => congrArg Kind.successors (hkind i)]
  exact hempty.named c d

end

lemma Edges.addInst (h : body.Edges) (kind : Kind) (vs : List Value) (ty : Ty) : (body.addInst kind vs ty).Edges :=
  h.congr (fun b => by rw [succs, block_addInst, succs]) fun b => by rw [preds, block_addInst, preds]

lemma Wired.addInst (h : body.Wired) (kind : Kind) (vs : List Value) (ty : Ty) :
    (body.addInst kind vs ty).Wired := by
  refine ⟨h.attached.addInst kind vs ty, h.edges.addInst kind vs ty, fun a b => ?_⟩
  · rw [succs, block_addInst, targets_congr (instsOf_addInst kind vs ty a) fun i hi => ?_]
    · exact h.named a b
    · rw [kind_addInst, if_neg]
      have hin := h.attached.hasInst hi
      simp only [hasInst, decide_eq_true_eq] at hin
      omega

lemma Edges.addBlock (h : body.Edges) (place : Option BlockId) : (body.addBlock place).Edges :=
  h.congr (fun b => by rw [succs, block_addBlock, succs]) fun b => by rw [preds, block_addBlock, preds]

lemma Wired.addBlock (h : body.Wired) (place : Option BlockId) : (body.addBlock place).Wired := by
  refine ⟨h.attached.addBlock place, h.edges.addBlock place, fun a b => ?_⟩
  rw [succs, block_addBlock, targets_congr (x := body)]
  · exact h.named a b
  · rw [instsOf, block_addBlock, instsOf]
  · exact fun _ _ => rfl

end Body

/-- Whether an operation adds or takes away an edge by itself. -/
def Op.editsEdge : Op → Bool
  | connect _ _ | disconnect _ _ => true
  | _ => false

namespace Body

variable {body x y : Body} {b c : BlockId} {op : Op}

lemma Edges.across : AcrossOps fun x y => x.Edges → y.Edges where
  toStepwise := stepwise_kept Edges
  vars h := edges_of_frame h fun _ => rfl
  entry _ h := edges_of_frame h fun _ => rfl
  addBlock h := h.addBlock _
  addInst _ _ h := h.addInst _ _ _
  attach can _ h := h.attach can _
  detach h := h.detach
  connect hb known h := h.connect hb known
  disconnect h := h.disconnect
  retarget hb known h := h.retarget hb known
  pushArg _ phi _ h := (sameShape_pushArg phi).control.edges h
  slot _ h := (sameShape_removePhiSlot _).control.edges h
  moveUse _ _ _ h := sameShape_moveUse.control.edges h
  replaceUses _ h := sameShape_replaceUses.control.edges h
  remove h := (sameShape_dropOperands.control.edges h.detach).markRemoved
  destroy h := h.detach.discard
  eraseBlock h := h.eraseBlock

lemma Edges.changes (h : x.Edges) (hop : Op.Changes op x y) : y.Edges := Edges.across.changes hop h

lemma Wired.changes (h : x.Wired) (hop : Op.Changes op x y) (hedge : op.editsEdge = false) : y.Wired := by
  induction hop with
  | refused => exact h
  | createVar => exact h.control ⟨rfl, rfl, rfl, rfl, fun _ => rfl, fun _ => rfl, fun _ => rfl⟩
  | setVar => exact h.control ⟨rfl, rfl, rfl, rfl, fun _ => rfl, fun _ => rfl, fun _ => rfl⟩
  | createBlock => exact h.addBlock _
  | createInst => exact h.addInst _ _ _
  | insertFirst can => exact h.attach can (.refl _)
  | insertLast can => exact h.attach can (perm_append_singleton _ _)
  | insertBefore home can => exact h.attach can (insert_perm ((h.attached.mem_iff _ _).2 home)).2
  | insertAfter home can => exact h.attach can (insert_perm ((h.attached.mem_iff _ _).2 home)).1
  | insertPhi _ _ create insert => exact insert (create h rfl) rfl
  | insertPhiAfter _ _ _ create insert => exact insert (create h rfl) rfl
  | addPhiArg _ phi _ => exact h.control (sameShape_pushArg phi).control
  | removePhiArg => exact h.control (sameShape_removePhiSlot _).control
  | detach => exact h.detach
  | removeInst => exact (h.detach.control sameShape_dropOperands.control).markRemoved
  | destroyInst => exact h.destroy
  | setTerminator _ insert => exact insert h rfl
  | replaceTerminator _ _ insert => exact (insert h rfl).destroy
  | setJump _ _ create insert => exact insert (create h rfl) rfl
  | replaceTarget exists_block named known =>
    exact ⟨h.attached.congr SamePlaces.across.retarget, h.edges.retarget exists_block known,
      h.named.retarget h.edges h.attached exists_block named known⟩
  | connect => simp [Op.editsEdge] at hedge
  | disconnect => simp [Op.editsEdge] at hedge
  | setEntry => exact ⟨h.attached.congr ⟨fun _ => rfl, fun _ => rfl⟩, edges_of_frame h.edges fun _ => rfl, h.named⟩
  | removeBlock => exact h.eraseBlock
  | setOperand => exact h.control sameShape_moveUse.control
  | replaceUses => exact h.control sameShape_replaceUses.control
  | replaceWith _ _ replace remove => exact remove (replace h rfl) rfl

lemma wired_empty (args : List Ty) (ret : Ty) : (empty args ret).Wired :=
  ⟨attached_empty args ret, ⟨fun a b => by simp [succs, preds, block, empty, default,
    instInhabitedBlock.default], fun _ => .nil, fun _ => .nil⟩, fun _ _ => Iff.rfl⟩

lemma Attached.threaded (h : body.Attached) : Threaded body.nextInst? body.prevInst? (body.instsOf b) := by
  have hnodup := h.nodup b
  have hhome : ∀ pre i post, body.instsOf b = pre ++ i :: post → (body.inst i).block = some b :=
    fun pre i post hl => (h.mem_iff b i).1 (by simp [hl])
  refine threaded_of_splits hnodup (fun pre i post hl => ?_) fun pre i post hl => ?_
  · rw [nextInst?, hhome pre i post hl, Option.bind_some, dropWhile_ne_of_split hnodup hl,
      getElem?_cons_succ, head?_eq_getElem?]
  · rw [prevInst?, hhome pre i post hl, Option.bind_some, takeWhile_ne_of_split hnodup hl]

lemma mem_targets_iff : c ∈ body.targets b ↔ ∃ i ∈ body.instsOf b,
    ((body.kind i).isTerminator ∨ (body.kind i).isGuard) ∧ c ∈ (body.kind i).successors := by
  rw [mem_targets]
  refine exists_congr fun i => and_congr_right fun _ => ⟨fun hc => ⟨?_, hc⟩, fun hc => hc.2⟩
  by_contra hnot
  rw [successors_of_not_branching (by simpa using hnot)] at hc
  simp at hc

end Body

namespace Op

/-- A guard and a switch of block 0 share targets and one of them is block 0 itself; the switch is
replaced by a jump, targets are renamed, and block 3 is removed after a jump to it was. -/
def sharedTargets : List Op := [.createBlock none, .createBlock none, .createBlock none, .createBlock none,
    .createInst (.guard .typed ⟨2⟩ (some ⟨1⟩) none) [] .void, .insertFirst ⟨0⟩ ⟨0⟩,
    .createInst (.switch [⟨1⟩, ⟨0⟩, ⟨1⟩] ⟨2⟩) [.arg ⟨0⟩] .void, .setTerminator ⟨0⟩ ⟨1⟩,
    .setJump ⟨0⟩ ⟨2⟩, .replaceTarget ⟨0⟩ ⟨2⟩ ⟨3⟩, .setJump ⟨3⟩ ⟨3⟩, .replaceTarget ⟨0⟩ ⟨3⟩ ⟨1⟩,
    .removeInst ⟨3⟩, .removeBlock ⟨3⟩]

end Op

end MethodIR
