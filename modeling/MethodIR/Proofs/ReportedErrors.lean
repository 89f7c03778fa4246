import MethodIR.Proofs.EndedBlocks

/-!
# Errors of imports

An import of contiguous code fails only by fault of the code (`toBody_ok_or_blames`). No edit is refused and
nothing is out of range, but for accesses that take a static field for one of an object, or the reverse.
-/

namespace MethodIR

open List Success Edit Kind

namespace Bytecode

variable {m : Bytecode} {i : Instruction}

lemma Contiguous.endOffset_le (h : m.Contiguous) (hi : i ∈ m.code.toList) : i.endOffset ≤ m.codeSize := by
  obtain ⟨n, hn⟩ := mem_iff_getElem?.1 hi
  rw [Array.getElem?_toList] at hn
  have hlt := (Array.getElem?_eq_some_iff.1 hn).1
  rw [← boundary_succ h hn, ← boundary_size]
  rcases Nat.lt_or_ge (n + 1) m.code.size with hn' | hn'
  · exact (boundary_lt h le_rfl hn').le
  · rw [show n + 1 = m.code.size by omega]

section Leaders

variable (hm : m.Contiguous) (hsize : m.codeSize < wordLimit)

include hm hsize

lemma reported_checkedEnd (hi : i ∈ m.code.toList) : Reported i.checkedEnd := by
  rw [Instruction.checkedEnd, if_pos ((hm.endOffset_le hi).trans_lt hsize)]
  exact .ok _

lemma reported_checkedSize : Reported m.checkedSize := by
  rw [checkedSize]
  split
  · next i hi =>
    refine reported_checkedEnd hm hsize ?_
    rw [Array.mem_toList_iff]
    exact Array.mem_of_back? hi
  · exact .ok _

end Leaders

end Bytecode

namespace Import

open Traced Body
open Bytecode (reported_indexAt reported_checkedEnd reported_checkedSize)

variable {m : Bytecode} {leaders : List Nat} {own : BlockId → Option Nat} {done : List Bytecode.Region}
  {r : Bytecode.Region} {P : Error → Prop} {s : State} {log : Array Event} {t t' : Trace State} {u : Unit}
  {codeSize : Nat} {body : Body} {b target old new start entry : BlockId} {i j : InstId}

/-! ## Leaders -/

lemma reported_mark {offset target : Nat} : Reported (mark codeSize offset leaders target) := by
  rw [mark]
  split
  · exact .error rfl
  · exact .ok _

lemma reported_markRegion : Reported (markRegion codeSize leaders r) := by
  rw [markRegion]
  split
  · exact .error rfl
  · exact .foldlM _ (fun _ _ _ => reported_mark) _

lemma reported_leaders (hm : m.Contiguous) (hsize : m.codeSize < wordLimit) : Reported (Import.leaders m) := by
  refine (reported_checkedSize hm hsize).bind fun size _ => ?_
  refine (Reported.foldlM _ (fun found i hi => ?_) _).bind fun found _ => ?_
  · rw [markInstruction]
    split
    · refine (Reported.foldlM _ (fun _ _ _ => reported_mark) _).bind fun _ _ => ?_
      exact (reported_checkedEnd hm hsize hi).bind fun _ _ => reported_mark
    · exact .ok _
  · refine (Reported.foldlM _ (fun _ _ _ => reported_markRegion) _).bind fun found _ => ?_
    exact (Reported.forM found fun offset _ => (reported_indexAt offset).map).bind fun _ _ => .ok _

/-! ## Blocks -/

lemma failsOnly_setJump (hb : body.hasBlock b)
    (htarget : body.hasBlock target) : FailsOnly P (setJump b target) body := by
  refine .bind (failsOnly_createInst (by simp) (by simp [arityViolation?, arity?])) fun i x hi => ?_
  obtain ⟨-, -, rfl, rfl⟩ := createInst_iff.1 hi
  have hcan : (body.addInst (.jump target) [] .void).CanAttach ⟨body.insts.size⟩ b :=
    canAttach_addInst_iff.2 ⟨hb, by simpa [successors] using htarget⟩
  have hkind : ((body.addInst (.jump target) [] .void).inst ⟨body.insts.size⟩).kind = .jump target :=
    (kind_addInst ..).trans (if_pos rfl)
  refine .bind (.of_ok (inst_iff.2 ⟨hcan.1, rfl, rfl⟩)) fun x y hx => ?_
  obtain ⟨-, rfl, rfl⟩ := inst_iff.1 hx
  simp only [hkind, isTerminator, if_true]
  refine .bind (FailsOnly.discard (.of_ok (block_iff.2 ⟨hcan.2.2.2.1, rfl, rfl⟩))) fun _ y hy => ?_
  obtain ⟨_, -, -, rfl⟩ := by simpa using hy
  refine .bind (.of_ok (get_iff.2 ⟨rfl, rfl⟩)) fun _ y hy => ?_
  obtain ⟨rfl, rfl⟩ := get_iff.1 hy
  refine .bind (.of_ok (a := ()) (insertLast_iff.2 ⟨hcan, rfl⟩)) fun _ _ _ => ?_
  split
  · exact .of_ok (a := ()) (modify_iff.2 rfl)
  · exact .pure

lemma failsOnly_createSegments (rs : List (Nat × Nat)) (t : Trace State) :
    FailsOnly P (rs.forM (fun (start, stop) => createSegment m start stop) : M Unit) t := by
  refine .forM (I := fun _ => True) rs trivial fun x _ t _ => ⟨?_, fun _ _ _ => trivial⟩
  refine .bind (failsOnly_edit (.of_ok (createBlock_iff.2 ⟨by simp, rfl, rfl⟩))) fun _ _ _ => ?_
  exact failsOnly_modifyState

lemma failsOnly_createBlocks (hne : ranges m.codeSize leaders ≠ []) :
    FailsOnly P (createBlocks m leaders) ⟨State.ofMethod m, log⟩ := by
  rw [createBlocks]
  by_cases hzero : 0 ∈ leaders
  · simp only [contains_eq_mem, hzero, decide_true, if_true]
    refine .bind (failsOnly_edit (.of_ok (createBlock_iff.2 ⟨by simp, rfl, rfl⟩))).map fun entry t₁ h₁ => ?_
    simp only [map_iff, edit_iff, createBlock_iff] at h₁
    obtain ⟨_, ⟨body, ⟨-, rfl, rfl⟩, rfl⟩, rfl⟩ := h₁
    refine (failsOnly_createSegments _ _).bind fun _ t₂ h₂ => ?_
    have hopened := createSegments_spec _ _ t₂ _ h₂
    refine failsOnly_getState_bind ?_
    have hsize : 1 < t₂.state.body.blocks.size := by
      have hpos := length_pos_of_ne_nil hne
      rw [hopened.blocks]
      change 1 < 1 + _
      omega
    have hfirst : (t₂.state.segment 0).block = ⟨1⟩ := by
      rw [segment_eq hopened.segments]
      obtain ⟨r, rest, hranges⟩ := exists_cons_of_ne_nil hne
      rw [hranges]
      rfl
    refine .bind (failsOnly_edit (failsOnly_setJump ?_ ?_)) fun _ _ _ => .of_ok (a := ()) (report_iff.2 rfl)
    · exact decide_eq_true (Nat.zero_lt_of_lt hsize)
    · rw [hfirst]
      simpa [hasBlock] using hsize
  · simp only [contains_eq_mem, hzero, decide_false, Bool.false_eq_true, if_false]
    refine .bind .pure fun _ _ h => (failsOnly_createSegments _ _).bind fun _ _ _ => ?_
    obtain ⟨rfl, -⟩ := pure_iff.1 h
    exact .pure

/-! ## Guards -/

lemma failsOnly_replaceTargets {preds : List BlockId} (hnodup : preds.Nodup)
    (hnew : body.hasBlock new) (hintact : body.Intact) (hphis : ∀ i, (body.kind i).isPhi = false)
    (hpreds : ∀ a ∈ preds, old ∈ body.targets a) :
    FailsOnly P (preds.forM fun pred => replaceTarget pred old new) body := by
  induction preds generalizing body with
  | nil => exact .pure
  | cons pred preds ih =>
    obtain ⟨hpred, hnodup⟩ := nodup_cons.1 hnodup
    have hold := hpreds pred mem_cons_self
    obtain ⟨i, hi, -⟩ := mem_targets.1 hold
    have hb := hasBlock_of_mem hi
    refine .bind (.of_ok (a := ()) (replaceTarget_iff.2 ⟨hb, hold, .inr hnew, rfl⟩)) fun _ x hx => ?_
    obtain ⟨-, -, -, rfl⟩ := replaceTarget_iff.1 hx
    have hredirected := @redirected_retarget body pred old new hphis hintact.wired.attached
    refine ih hnodup (by rw [hasBlock, hredirected.row.size]; exact hnew) (hintact.retarget hb hold hnew)
      (fun i => hredirected.isPhi.trans (hphis i)) fun a ha => ?_
    -- the instructions of the other blocks are the same
    obtain ⟨j, hj, hj'⟩ := mem_targets.1 (hpreds a (mem_cons_of_mem _ ha))
    have hhome := (hintact.wired.attached.mem_iff a j).1 hj
    refine mem_targets.2 ⟨j, by rwa [hredirected.places.instsOf], ?_⟩
    rw [hredirected.kind, if_neg]
    · exact hj'
    · rintro ⟨b, hb, hhome'⟩
      obtain rfl : a = b := Option.some.inj (hhome.symm.trans hhome')
      exact hpred (mem_singleton.1 hb ▸ ha)

lemma Fenced.failsOnly_split (h : Fenced m leaders own done s) (hstart : s.body.hasBlock start) : FailsOnly P (do
      let split ← createBlock (s.body.layout.prev? start)
      (s.body.preds start).forM fun pred => replaceTarget pred start split
      setJump split start
      return split : Edit BlockId) s.body := by
  have hplace : ∀ a ∈ s.body.layout.prev? start, s.body.hasBlock a := fun a ha =>
    h.intact.mem_order.1 (h.intact.laid.row.mem_of_prev? ha)
  refine .bind (.of_ok (createBlock_iff.2 ⟨fun a ha => .inr (hplace a ha), rfl, rfl⟩)) fun split x hx => ?_
  obtain ⟨-, rfl, rfl⟩ := createBlock_iff.1 hx
  have hnew : (s.body.addBlock (s.body.layout.prev? start)).hasBlock ⟨s.body.blocks.size⟩ :=
    (hasBlock_addBlock _).2 (.inl rfl)
  have hadded := h.intact.addBlock hplace
  refine .bind (failsOnly_replaceTargets (h.intact.wired.edges.preds_nodup start) hnew hadded h.not_isPhi
    fun a ha => ?_) fun _ y hy => ?_
  · have hmem := (h.intact.wired.named a start).1 ((h.intact.wired.edges.symm a start).2 ha)
    rw [mem_targets] at hmem ⊢
    simp only [instsOf_addBlock]
    exact hmem
  · obtain ⟨-, hredirected⟩ := forM_replaceTarget hnew hadded h.not_isPhi hy
    have hhas : ∀ b, (s.body.addBlock (s.body.layout.prev? start)).hasBlock b → y.hasBlock b := fun b hb => by
      rw [hasBlock, hredirected.row.size]
      exact hb
    refine .bind (failsOnly_setJump (hhas _ hnew) (hhas _ ((hasBlock_addBlock _).2 (.inr hstart)))) ?_
    exact fun _ _ _ => .pure

lemma Fenced.failsOnly_guardBlock (h : Fenced m leaders own done s) :
    FailsOnly m.Blames (guardBlock r) ⟨s, log⟩ := by
  refine (failsOnly_segmentAt _ _).bind fun n _ hn => ?_
  obtain ⟨rfl, hn, -⟩ := segmentAt_read _ _ _ _ hn
  refine failsOnly_getState_bind ?_
  dsimp only
  split
  · refine .bind (failsOnly_edit (h.failsOnly_split (h.parted.entryBlock n hn).1)) fun _ _ _ => ?_
    refine failsOnly_modifyState.bind fun _ _ _ => .bind (.of_ok (a := ()) (report_iff.2 rfl)) fun _ _ _ => .pure
  · exact .pure

lemma failsOnly_insertBeforeEnd (hattached : body.Attached)
    (hcan : body.CanAttach i b) : FailsOnly P (insertBeforeEnd b i) body := by
  refine .bind (.of_ok (get_iff.2 ⟨rfl, rfl⟩)) fun _ _ h => ?_
  obtain ⟨rfl, rfl⟩ := get_iff.1 h
  cases hterm : body.terminator? b with
  | some term =>
    have hmem : term ∈ body.instsOf b := mem_of_getLast? (Option.filter_eq_some_iff.1 hterm).1
    have hhome := (hattached.mem_iff b term).1 hmem
    exact .of_ok (a := ()) (insertBefore_iff.2 ⟨b, hattached.hasInst hmem, hhome, hcan, rfl⟩)
  | none => exact .of_ok (a := ()) (insertLast_iff.2 ⟨hcan, rfl⟩)

lemma Fenced.failsOnly_createGuard (h : Fenced m leaders own done s) (hleaders : Leaders m leaders)
    (hr : r ∈ m.regions) : FailsOnly m.Blames (createGuard r) ⟨s, log⟩ := by
  obtain ⟨-, -, hbounds⟩ := hleaders.regions r hr
  refine h.failsOnly_guardBlock.bind fun b t₁ hblock => ?_
  obtain ⟨own', k, hfenced, -, -, -, hb⟩ :=
    guardBlock_spec h (hbounds _ (by simp [Bytecode.Region.bounds])) hleaders hblock
  obtain ⟨s₁, log₁⟩ := t₁
  refine (failsOnly_segmentAt _ _).bind fun n _ hn => ?_
  obtain ⟨rfl, hn, hstart⟩ := segmentAt_read _ _ _ _ hn
  refine failsOnly_getState_bind ?_
  have hfilter : FailsOnly m.Blames (r.filterStart.mapM segmentAt) ⟨s₁, log₁⟩ := by
    cases r.filterStart with
    | none => exact .pure
    | some offset => exact (failsOnly_segmentAt _ _).map
  refine hfilter.bind fun ns _ hns => ?_
  obtain ⟨rfl, -, hentries⟩ := filterSegment_read hns
  refine failsOnly_getState_bind ?_
  dsimp only
  refine .bind (failsOnly_edit (.bind (failsOnly_createInst (by simp)
    (by simp [arityViolation?, arity?])) fun g x hg => ?_)) fun g t₂ _ => ?_
  · obtain ⟨-, -, rfl, rfl⟩ := createInst_iff.1 hg
    refine .bind (failsOnly_insertBeforeEnd (hfenced.intact.wired.attached.addInst _ _ _)
      (canAttach_addInst_iff.2 ⟨hb, fun t ht => ?_⟩)) fun _ _ _ => .pure
    obtain ⟨_, _, k, hk, -, rfl⟩ := GuardsBy.entryAt ⟨⟨_, _, _, rfl⟩, .cons ⟨n, hn, hstart, rfl⟩ hentries⟩ ht
    exact (hfenced.parted.entryBlock k hk).1
  · refine failsOnly_modifyState.bind fun _ _ _ => ?_
    have hreport : ∀ {e : Event} {t : Trace State}, FailsOnly m.Blames (report e : M Unit) t :=
      .of_ok (a := ()) (report_iff.2 rfl)
    have hseed : ∀ {t : Trace State} {k : Nat}, FailsOnly m.Blames (seed g k) t := failsOnly_modifyState
    split
    · refine hseed.bind fun _ t _ => .bind ?_ fun _ _ _ => hreport
      cases ns with
      | none => exact .pure
      | some k => exact hseed
    · exact hreport

/-! ## Arguments -/

/-- An instruction that was created and that leads nowhere. -/
def Loose (body : Body) (i : InstId) : Prop :=
  body.hasInst i ∧ (body.inst i).isRemoved = false ∧ (body.inst i).block = none ∧ (body.kind i).successors = []

lemma Loose.addInst (h : Loose body i) (kind : Kind) (vs : List Value) (ty : Ty) :
    Loose (body.addInst kind vs ty) i := by
  obtain ⟨hi, hlive, hnone, hsuccs⟩ := h
  have hne : i.index ≠ body.insts.size := fun heq => by simp [hasInst, heq] at hi
  refine ⟨((grows_addInst body kind vs ty).inst i hi).1, ?_, ?_, ?_⟩
  · rw [isRemoved_addInst, if_neg hne, hlive]
  · have hhome := congrArg Inst.block (inst_addInst body kind vs ty i)
    rw [if_neg hne] at hhome
    exact hhome.trans hnone
  · rw [kind_addInst, if_neg hne, hsuccs]

lemma Loose.attach (h : Loose body i) (hne : j ≠ i) (l : List InstId) : Loose (body.attach j b l) i := by
  obtain ⟨hi, hlive, hnone, hsuccs⟩ := h
  have hinst : (body.attach j b l).inst i = body.inst i := (inst_attach l).trans (if_neg fun heq => hne heq.1)
  refine ⟨((grows_attach body j b l).inst i hi).1, ?_, ?_, ?_⟩
  · rw [hinst, hlive]
  · rw [hinst, hnone]
  · rw [kind_attach, hsuccs]

lemma createStores_loose (entry : BlockId) (xs : List (VarId × Nat)) :
    ∀ (t t' : Trace State) (ids : List InstId), xs.mapM (storeArg entry) t = .ok ids t' →
    ids.Nodup ∧ (∀ i ∈ ids, Loose t'.state.body i ∧ t.state.body.insts.size ≤ i.index) ∧
      ∀ i, Loose t.state.body i → Loose t'.state.body i := by
  induction xs with
  | nil =>
    intro t t' ids h
    obtain ⟨rfl, rfl⟩ := mapM_nil_iff.1 h
    exact ⟨nodup_nil, by simp, fun _ hi => hi⟩
  | cons x xs ih =>
    intro t t' ids h
    obtain ⟨i, t₁, hone, rest, hrest, rfl⟩ := mapM_cons_iff.1 h
    obtain ⟨-, rfl, rfl⟩ := storeArg_eq_ok hone
    obtain ⟨hnodup, hloose, hkeep⟩ := ih _ t' rest hrest
    have hsize : ∀ j ∈ rest, t.state.body.insts.size < j.index := fun j hj => by
      have hle := (hloose j hj).2
      change (t.state.body.addInst (.storeVar x.1) [.arg ⟨x.2⟩] .void).insts.size ≤ _ at hle
      rw [size_addInst] at hle
      omega
    have hnew : Loose (t.state.body.addInst (.storeVar x.1) [.arg ⟨x.2⟩] .void) ⟨t.state.body.insts.size⟩ := by
      obtain ⟨hnone, hlive⟩ := @block_none_addInst t.state.body (.storeVar x.1) [.arg ⟨x.2⟩] .void
      refine ⟨hasInst_addInst .., hlive, hnone, ?_⟩
      rw [kind_addInst, if_pos rfl]
      rfl
    refine ⟨nodup_cons.2 ⟨fun hmem => (hsize _ hmem).ne rfl, hnodup⟩, fun j hj => ?_, fun j hj =>
      hkeep j (hj.addInst ..)⟩
    rcases mem_cons.1 hj with rfl | hj
    · exact ⟨hkeep _ hnew, le_rfl⟩
    · exact ⟨(hloose j hj).1, (hsize j hj).le⟩

lemma failsOnly_insertStores {ids : List InstId} (hnodup : ids.Nodup)
    (hloose : ∀ i ∈ ids, Loose t.state.body i) (hentry : t.state.body.hasBlock entry) :
    FailsOnly P (ids.forM (fun store => edit (insertFirst entry store)) : M Unit) t := by
  induction ids generalizing t with
  | nil => exact .pure
  | cons i ids ih =>
    obtain ⟨hi, hnodup⟩ := nodup_cons.1 hnodup
    obtain ⟨hhas, hlive, hnone, hsuccs⟩ := hloose i mem_cons_self
    have hcan : t.state.body.CanAttach i entry := ⟨hhas, hlive, hnone, hentry, by simp [hsuccs]⟩
    refine .bind (failsOnly_edit (.of_ok (a := ()) (insertFirst_iff.2 ⟨hcan, rfl⟩))) fun _ t₁ h => ?_
    simp only [edit_iff, insertFirst_iff] at h
    obtain ⟨_, ⟨-, rfl⟩, rfl⟩ := h
    refine ih hnodup (fun j hj => (hloose j (mem_cons_of_mem _ hj)).attach ?_ _)
      ((grows_attach ..).block _ hentry)
    rintro rfl
    exact hi hj

lemma Fenced.failsOnly_copyArguments (h : Fenced m leaders own done s) : FailsOnly P copyArguments ⟨s, log⟩ := by
  refine failsOnly_getState_bind ?_
  simp only [h.parted.entry]
  have hargs : s.argVars.size = s.body.args.size := by
    rw [h.argVars, h.args]
    simp [State.ofMethod, empty]
  change FailsOnly P (s.argVars.toList.zipIdx.mapM (storeArg ⟨0⟩) >>= _) _
  refine .bind (.mapM (I := fun t => t.state.body.args.size = s.body.args.size) _ rfl fun x hx t ht =>
    ⟨?_, fun i t' hone => ?_⟩) fun ids t₁ hcreate => ?_
  · have hlt : x.2 < s.argVars.size := by
      have := snd_lt_of_mem_zipIdx hx
      simpa using this
    refine .bind (failsOnly_edit (failsOnly_createInst ?_ (by simp [arityViolation?, arity?]))) ?_
    · simp [hasValue, ht, ← hargs, hlt]
    · exact fun _ _ _ => failsOnly_modifyState.bind fun _ _ _ => .pure
  · obtain ⟨-, -, rfl⟩ := storeArg_eq_ok hone
    exact (hasArg_congr (grows_addInst t.state.body _ _ _).args).trans ht
  · obtain ⟨hextended, -, -⟩ := createStores_spec ⟨0⟩ _ _ t₁ ids hcreate
    obtain ⟨hnodup, hloose, -⟩ := createStores_loose ⟨0⟩ _ _ t₁ ids hcreate
    refine failsOnly_insertStores (nodup_reverse.2 hnodup)
      (fun i hi => (hloose i (mem_reverse.1 hi)).1) (hextended.grows.block _ ?_)
    exact h.intact.laid.entry _ h.parted.entry

/-! ## The whole -/

lemma failsOnly_markExposed : FailsOnly P markExposed t := by
  refine failsOnly_getState_bind ?_
  refine .forM (I := fun _ => True) _ trivial fun x _ t _ => ⟨?_, fun _ _ _ => trivial⟩
  refine failsOnly_getState_bind ?_
  dsimp only
  split
  · exact .bind (failsOnly_edit (.of_ok (a := ()) (modify_iff.2 rfl))) fun _ _ _ => .of_ok (a := ()) (report_iff.2 rfl)
  · exact .pure

lemma failsOnly_importMethod (hm : m.Contiguous) (hsize : m.codeSize < wordLimit) :
    FailsOnly m.Blames (importMethod m) ⟨State.ofMethod m, log⟩ := by
  rw [importMethod]
  cases hcode : m.code.isEmpty with
  | true =>
    simp only [if_true]
    exact .bind (.throw (.inl rfl)) fun _ _ h => absurd h (by simp [failAt])
  | false =>
    simp only [Bool.false_eq_true, if_false]
    refine .bind (.ofExcept fun e he => .inl (reported_leaders hm hsize e he)) fun leaders _ h => ?_
    obtain ⟨hleaders, rfl⟩ := ofExcept_iff.1 h
    have hspec := leaders_eq_ok hleaders
    have hne : ranges m.codeSize leaders ≠ [] := ranges_ne_nil hcode
    refine (failsOnly_createBlocks hne).bind fun _ t₁ hblocks => ?_
    have hfenced := (createBlocks_spec hne hblocks).fenced (createBlocks_onlyJumps hblocks)
    refine .bind (.forM (I := fun t => ∃ own done, Fenced m leaders own done t.state) _ ⟨_, _, hfenced⟩ ?_)
      fun _ t₂ hguards => ?_
    · rintro r hr t ⟨own, done, h⟩
      refine ⟨h.failsOnly_createGuard hspec hr, fun u t' hrun => ?_⟩
      obtain ⟨own', h'⟩ := createGuard_spec h hspec hr hrun
      exact ⟨own', _, h'⟩
    obtain ⟨⟨own, hown⟩, -⟩ := createGuards_spec hspec (Subset.refl _) _ _ t₁ t₂ _ hfenced hguards
    rw [nil_append] at hown
    refine hown.failsOnly_copyArguments.bind fun _ t₃ hargs => ?_
    have hground := copyArguments_ground hargs hown.ground
    refine failsOnly_getState_bind ?_
    rw [range_eq_range']
    refine (lowerSegments_ground hspec hm t₃.state.segments.size 0 t₃ hground (Nat.zero_add _)).1.bind fun _ _ _ => ?_
    refine failsOnly_markExposed.bind fun _ _ _ => failsOnly_getState.bind fun _ _ _ => ?_
    exact .of_ok (a := ()) (report_iff.2 rfl)

end Import

namespace Bytecode

open Import Traced

variable {m : Bytecode} {σ : Type}

/-- Contiguous code of less than 2^32 bytes gives a body, or an error for which the code is to blame. -/
theorem toBody_ok_or_blames (hm : m.Contiguous) (hsize : m.codeSize < wordLimit) (t : Trace σ) :
    (∃ body t', m.toBody t = .ok body t') ∨ ∃ e t', m.toBody t = .error e t' ∧ m.Blames e := by
  have hfails : FailsOnly m.Blames (do importMethod m; return (← getState).body) ⟨State.ofMethod m, t.log⟩ :=
    (failsOnly_importMethod hm hsize).bind fun _ _ _ => failsOnly_getState.bind fun _ _ _ => .pure
  rw [toBody, Traced.on, zoom]
  cases h : (do importMethod m; return (← getState).body : M Body) ⟨State.ofMethod m, t.log⟩ with
  | ok body t' => exact .inl ⟨body, _, rfl⟩
  | error e t' => exact .inr ⟨e, _, rfl, hfails e t' h⟩

/-- A branch into a handler. -/
def intoHandler : Bytecode where
  name := "IntoHandler"
  declaring := .object
  sig := { params := [], ret := .void }
  code := #[⟨.ldnull, 0, .none⟩, ⟨.brS, 1, .target 3⟩, ⟨.throw, 3, .none⟩]
  regions := [{ kind := .typed, tryStart := 0, tryEnd := 3, handlerStart := 3, handlerEnd := 4,
                caught := some .object }]

theorem intoHandler_blames : intoHandler.Contiguous ∧ intoHandler.codeSize < wordLimit ∧
    ∃ t, (intoHandler.toBody : Traced Unit Body) ⟨(), #[]⟩ = .error (.invalidProgram 1 .intoHandler) t ∧
      intoHandler.Blames (.invalidProgram 1 .intoHandler) := by
  have hm : intoHandler.Contiguous := ⟨rfl, rfl, rfl, trivial⟩
  have hsize : intoHandler.codeSize < wordLimit := by decide
  obtain ⟨t, ht⟩ : ∃ t, (intoHandler.toBody : Traced Unit Body) ⟨(), #[]⟩ =
      .error (.invalidProgram 1 .intoHandler) t := exists_of_error? (by decide +kernel)
  rcases toBody_ok_or_blames hm hsize (⟨(), #[]⟩ : Trace Unit) with ⟨body, t', h⟩ | ⟨e, t', h, hblames⟩
  · simp [h] at ht
  · obtain ⟨rfl, rfl⟩ : e = _ ∧ t' = t := by simpa [h] using ht
    exact ⟨hm, hsize, t', h, hblames⟩

/-- The address of a static field as if it were one of an object. -/
def staticOfObject : Bytecode where
  name := "StaticOfObject"
  declaring := .object
  sig := { params := [], ret := .void }
  code := #[⟨.ldnull, 0, .none⟩,
    ⟨.ldflda, 1, .entity (.field { token := ⟨0⟩, name := "f", declaring := .object, ty := .i32, isStatic := true })⟩,
    ⟨.pop, 6, .none⟩, ⟨.ret, 7, .none⟩]

/-- Not all errors of imports are reports of code: this access is refused as an edit. -/
theorem staticOfObject_refused : staticOfObject.Contiguous ∧ staticOfObject.codeSize < wordLimit ∧
    ∃ f t, (staticOfObject.toBody : Traced Unit Body) ⟨(), #[]⟩ =
      .error (.violation (.arity (.fieldAddr f) 0 1)) t := by
  have herror : error? staticOfObject = some (.violation (.arity (.fieldAddr
      { token := ⟨0⟩, name := "f", declaring := .object, ty := .i32, isStatic := true }) 0 1)) := by decide +kernel
  obtain ⟨t, ht⟩ := exists_of_error? herror
  exact ⟨⟨rfl, rfl, rfl, rfl, trivial⟩, by decide, _, t, ht⟩

end Bytecode

end MethodIR
