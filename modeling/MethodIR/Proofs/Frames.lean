import MethodIR.Import.Basic
import MethodIR.Proofs.SegmentLowering

/-!
# Before lowering

Where lowering starts, every segment has an empty block of its own, and the entry stores the arguments
to their variables (`createBlocks_spec`, `copyArguments_spec`).
-/

namespace MethodIR

open List Success Tables Body Function Option

namespace Body

variable {body : Body} {c : BlockId}

lemma instsOf_addBlock (place : Option BlockId) : (body.addBlock place).instsOf c = body.instsOf c := by
  rw [instsOf, instsOf, block_addBlock]

lemma grows_addBlock (place : Option BlockId) : Grows body (body.addBlock place) := by
  refine ⟨fun i hi => ⟨hi, rfl, rfl, rfl⟩, fun v hv => ⟨hv, rfl, rfl⟩, rfl, rfl, fun c hc => ?_, fun c hc => ?_⟩
  · simp only [hasBlock, addBlock, Array.size_push, decide_eq_true_eq] at hc ⊢
    omega
  · simp [addBlock, hc]

end Body

namespace Edit

variable {body body' : Body} {b target : BlockId} {u : Unit}

lemma setJump_eq_ok (h : setJump b target body = .ok u body') (hb : body.instsOf b = []) :
    body' = body.append b (.jump target) [] .void ∧ body.hasBlock b ∧ body.hasBlock target := by
  simp only [setJump, setTerminator, bind_iff, createInst_iff, inst_iff] at h
  obtain ⟨_, _, ⟨-, -, rfl, rfl⟩, _, _, ⟨-, rfl, rfl⟩, h⟩ := h
  have hnew := inst_addInst body (.jump target) [] .void ⟨body.insts.size⟩
  rw [if_pos rfl] at hnew
  have hkind : ((body.addInst (.jump target) [] .void).inst ⟨body.insts.size⟩).kind = .jump target :=
    congrArg Inst.kind hnew
  have hinsts : ∀ c, (body.addInst (.jump target) [] .void).instsOf c = body.instsOf c := fun c => by
    rw [instsOf, block_addInst, instsOf]
  have hhas : ∀ c, (body.addInst (.jump target) [] .void).hasBlock c = body.hasBlock c := fun c => by
    have hsize := bare_addInst_eq body (.jump target) [] .void (fun x => x.blocks.size)
      (fun _ => rfl) fun _ => rfl
    rw [hasBlock, hasBlock, hsize]
  simp only [hkind, Kind.isTerminator, if_true, bind_iff, discard_iff, block_iff, get_iff, insertLast_iff] at h
  obtain ⟨_, _, ⟨_, hblock, rfl, rfl⟩, _, _, ⟨rfl, rfl⟩, _, _, ⟨hattach, rfl⟩, h⟩ := h
  have hterm : (body.addInst (.jump target) [] .void).terminator? b = none := by
    rw [terminator?, hinsts, hb]
    rfl
  rw [hterm] at h
  obtain ⟨-, rfl⟩ := pure_iff.1 h
  rw [hhas] at hblock
  refine ⟨rfl, hblock, ?_⟩
  have hsucc := hattach.2.2.2.2 target (by rw [kind, hkind]; simp [Kind.successors])
  rwa [hhas] at hsucc

end Edit

namespace Import

open Traced Body.Machine State

variable {m : Bytecode} {leaders : List Nat} {s s' s'' : State} {n : Nat} {u : Unit} {t t' : Trace State}
  {body : Body}
  {x : VarId × Nat} {i : InstId} {xs : List (VarId × Nat)} {ids : List InstId}

/-! ## Blocks -/

def segmentOf (m : Bytecode) (range : Nat × Nat) (block : Nat) : Segment :=
  { start := range.1
    stop := range.2
    block := ⟨block⟩
    entryBlock := ⟨block⟩
    inRegion := m.regions.any (·.contains range.1) }

lemma createSegment_eq_ok {start stop : Nat} (h : createSegment m start stop t = .ok u t') : t' = ⟨{ t.state with
      body := t.state.body.addBlock none
      segments := t.state.segments.push (segmentOf m (start, stop) t.state.body.blocks.size) }, t.log⟩ := by
  simp only [createSegment, bind_iff, edit_iff, Edit.createBlock_iff, modifyState_iff] at h
  obtain ⟨_, _, ⟨_, ⟨-, rfl, rfl⟩, rfl⟩, rfl⟩ := h
  rfl

structure Opened (m : Bytecode) (rs : List (Nat × Nat)) (s s' : State) : Prop where
  segments : s'.segments.toList = s.segments.toList ++
    (rs.zipIdx s.body.blocks.size).map fun (r, k) => segmentOf m r k
  blocks : s'.body.blocks.size = s.body.blocks.size + rs.length
  entry : rs ≠ [] → s'.body.entry = s.body.entry.or (some ⟨s.body.blocks.size⟩)
  insts : s'.body.insts = s.body.insts
  vars : s'.body.vars = s.body.vars
  instsOf : ∀ b, s'.body.instsOf b = s.body.instsOf b
  grows : s.body.Grows s'.body
  argVars : s'.argVars = s.argVars
  localVars : s'.localVars = s.localVars

lemma createSegments_spec (rs : List (Nat × Nat)) : ∀ (t t' : Trace State) (u : Unit),
    (rs.forM (fun (start, stop) => createSegment m start stop) : M Unit) t = .ok u t' →
    Opened m rs t.state t'.state := by
  induction rs with
  | nil =>
    intro t t' u h
    obtain ⟨-, rfl⟩ := pure_iff.1 h
    exact ⟨by simp, rfl, by simp, rfl, rfl, fun _ => rfl, .refl _, rfl, rfl⟩
  | cons r rs ih =>
    intro t t' u h
    change (createSegment m r.1 r.2 >>= fun _ =>
      rs.forM fun (start, stop) => createSegment m start stop) t = _ at h
    obtain ⟨_, t₁, hone, hrest⟩ := bind_iff.1 h
    obtain rfl := createSegment_eq_ok hone
    obtain ⟨hsegments, hblocks, hentry, hinsts, hvars, hinstsOf, hgrows, hargs, hlocals⟩ := ih _ t' _ hrest
    have hsize : (t.state.body.addBlock none).blocks.size = t.state.body.blocks.size + 1 := by
      simp [addBlock]
    refine ⟨?_, ?_, fun _ => ?_, hinsts, hvars, fun b => (hinstsOf b).trans (instsOf_addBlock none),
      (grows_addBlock none).trans hgrows, hargs, hlocals⟩
    · rw [hsegments]
      simp only [Array.toList_push, zipIdx_cons, map_cons, append_assoc, hsize]
      rfl
    · rw [hblocks, length_cons]
      change (t.state.body.addBlock none).blocks.size + _ = _
      omega
    · cases rs with
      | nil =>
        obtain ⟨-, rfl⟩ := pure_iff.1 hrest
        rfl
      | cons _ _ =>
        rw [hentry (by simp)]
        change (t.state.body.entry.or (some ⟨t.state.body.blocks.size⟩)).or _ = _
        cases t.state.body.entry <;> rfl

def leadIn (leaders : List Nat) : Nat := if 0 ∈ leaders then 1 else 0

structure Opening (m : Bytecode) (leaders : List Nat) (s : State) : Prop where
  segments : s.segments.toList =
    ((ranges m.codeSize leaders).zipIdx (leadIn leaders)).map fun (r, k) => segmentOf m r k
  blocks : s.body.blocks.size = leadIn leaders + (ranges m.codeSize leaders).length
  entry : s.body.entry = some ⟨0⟩
  vars : s.body.vars = (State.ofMethod m).body.vars
  argVars : s.argVars = (State.ofMethod m).argVars
  localVars : s.localVars = (State.ofMethod m).localVars
  grows : (State.ofMethod m).body.Grows s.body
  /-- A block before the first segment only goes there. -/
  lead : 0 ∈ leaders → ∃ jump, s.body.instsOf ⟨0⟩ = [jump] ∧ s.body.hasInst jump ∧ s.body.kind jump = .jump ⟨1⟩
  empty : ∀ b : BlockId, leadIn leaders ≤ b.index → s.body.instsOf b = []

lemma segment_eq {l : List Segment} (h : s.segments.toList = l) (n : Nat) : s.segment n = l.getD n default := by
  rw [State.segment, Array.getD_eq_getD_getElem?, ← Array.getElem?_toList, h, getD_eq_getElem?_getD]

section

variable (h : Opening m leaders s)
include h

lemma Opening.segment {range : Nat × Nat} (hn : (ranges m.codeSize leaders)[n]? = some range) :
    s.segment n = segmentOf m range (leadIn leaders + n) := by
  rw [segment_eq h.segments, getD_eq_getElem?_getD, getElem?_map, getElem?_zipIdx, hn]
  rfl

lemma Opening.size : s.segments.size = (ranges m.codeSize leaders).length := by
  rw [← Array.length_toList, h.segments, length_map, length_zipIdx]

lemma Opening.entryStack (n : Nat) : (s.segment n).entryStack = none := by
  cases hn : (ranges m.codeSize leaders)[n]? with
  | none =>
    have hsize : s.segments.size ≤ n := by
      rw [h.size]
      exact getElem?_eq_none_iff.1 hn
    rw [State.segment, Tables.getD_of_size_le _ _ _ hsize]
    rfl
  | some range => rw [h.segment hn]; rfl

end

lemma createBlocks_spec {log : Array Event} (hne : ranges m.codeSize leaders ≠ [])
    (h : createBlocks m leaders ⟨ofMethod m, log⟩ = .ok u t) : Opening m leaders t.state := by
  rw [createBlocks] at h
  by_cases hzero : 0 ∈ leaders
  · simp only [contains_eq_mem, hzero, decide_true, if_true, bind_iff, map_iff, edit_iff,
      Edit.createBlock_iff] at h
    obtain ⟨_, t₁, ⟨_, ⟨body, ⟨-, rfl, rfl⟩, rfl⟩, rfl⟩, _, t₂, hsegments, h⟩ := h
    have hopened := createSegments_spec _ _ t₂ _ hsegments
    simp only [bind_iff, ↓getState_bind_iff, edit_iff, report_iff] at h
    obtain ⟨_, _, ⟨body, hjump, rfl⟩, rfl⟩ := h
    have hlead : leadIn leaders = 1 := if_pos hzero
    have hempty : ∀ b, t₂.state.body.instsOf b = [] := fun b =>
      (hopened.instsOf b).trans (instsOf_addBlock none)
    obtain ⟨rfl, hhas, -⟩ := Edit.setJump_eq_ok hjump (hempty _)
    have hfirst : (t₂.state.segment 0).block = ⟨1⟩ := by
      rw [segment_eq hopened.segments]
      obtain ⟨r, rest, hranges⟩ := exists_cons_of_ne_nil hne
      rw [hranges]
      rfl
    rw [hfirst] at *
    have hkind := append_kind { t₂.state with cursor := { block := ⟨0⟩ } } (.jump ⟨1⟩) [] .void
    refine ⟨?_, ?_, ?_, ?_, hopened.argVars, hopened.localVars, ?_, fun _ => ?_, fun b hb => ?_⟩
    · rw [hlead]
      exact hopened.segments
    · rw [hlead]
      exact (size_blocks_append ..).trans hopened.blocks
    · exact (grows_append _ _ _ _ _).entry _ (hopened.entry hne)
    · exact (vars_append ..).trans hopened.vars
    · exact (grows_addBlock none).trans (hopened.grows.trans (grows_append _ _ _ _ _))
    · refine ⟨⟨t₂.state.body.insts.size⟩, ?_, ?_, hkind.1⟩
      · refine (instsOf_append _ _ _ _ _ hhas).trans ((if_pos rfl).trans ?_)
        rw [hempty]
        rfl
      · simp [hasInst, insts_size_append]
    · refine (instsOf_append _ _ _ _ _ hhas).trans ((if_neg ?_).trans (hempty b))
      rintro rfl
      rw [hlead] at hb
      exact absurd hb (Nat.not_succ_le_zero 0)
  · simp only [contains_eq_mem, hzero, decide_false, bind_iff, Bool.false_eq_true, if_false, pure_iff] at h
    obtain ⟨_, _, ⟨rfl, rfl⟩, _, t₂, hsegments, h⟩ := h
    obtain ⟨-, rfl⟩ := pure_iff.1 h
    have hopened := createSegments_spec _ _ t₂ _ hsegments
    have hlead : leadIn leaders = 0 := if_neg hzero
    refine ⟨?_, ?_, hopened.entry hne, hopened.vars, hopened.argVars, hopened.localVars, hopened.grows,
      fun h => absurd h hzero, fun b _ => hopened.instsOf b⟩
    · rw [hlead]
      exact hopened.segments
    · rw [hlead]
      exact hopened.blocks

/-! ## Arguments -/

lemma ofMethod_frameVar? (m : Bytecode) (slot : Bytecode.Storage) (v : VarId)
    (h : (ofMethod m).frameVar? slot = some v) : (ofMethod m).body.hasVar v ∧
      m.slotTy? slot = some ((ofMethod m).body.var v).ty ∧
      ((ofMethod m).body.var v).origin = slot.origin := by
  have hvar : ∀ k x, ((m.argTypes.zipIdx.map fun p => ({ ty := p.1, origin := .argument p.2 } : Variable)) ++
      m.locals.zipIdx.map fun p =>
        ({ ty := p.1.ty, origin := .local p.2, isPinned := p.1.isPinned } : Variable))[k]? = some x →
      (ofMethod m).body.hasVar ⟨k⟩ ∧ (ofMethod m).body.var ⟨k⟩ = x := by
    intro k x hk
    refine ⟨?_, ?_⟩
    · simpa [hasVar, ofMethod] using (List.getElem?_eq_some_iff.1 hk).1
    · rw [var, Array.getD_eq_getD_getElem?, ← Array.getElem?_toList]
      exact congrArg (Option.getD · _) hk
  cases slot with
  | argument n =>
    obtain ⟨hn, hv⟩ : n < m.argTypes.length ∧ ⟨n⟩ = v := by
      simpa [frameVar?, ofMethod, map_eq_some_iff, Array.getElem?_range] using h
    subst hv
    obtain ⟨hhas, hx⟩ := hvar n { ty := m.argTypes[n], origin := .argument n } (by
      rw [getElem?_append_left (by simpa using hn)]
      simp [hn])
    refine ⟨hhas, ?_, ?_⟩
    · rw [hx]
      exact getElem?_eq_getElem hn
    · rw [hx]
      rfl
  | «local» n =>
    obtain ⟨hn, hv⟩ : n < m.locals.length ∧ ⟨m.argTypes.length + n⟩ = v := by
      simpa [frameVar?, ofMethod, map_eq_some_iff, Array.getElem?_range] using h
    subst hv
    obtain ⟨hhas, hx⟩ := hvar (m.argTypes.length + n)
      { ty := m.locals[n].ty, origin := .local n, isPinned := m.locals[n].isPinned } (by simp [hn])
    refine ⟨hhas, ?_, ?_⟩
    · rw [hx, Bytecode.slotTy?, getElem?_eq_getElem hn]
      rfl
    · rw [hx]
      rfl

def IsStore (body : Body) (x : VarId × Nat) (i : InstId) : Prop :=
  body.hasInst i ∧ body.kind i = .storeVar x.1 ∧ (body.inst i).operands = [.arg ⟨x.2⟩]

lemma IsStore.mono {body' : Body} (h : IsStore body x i) (hg : body.Grows body') : IsStore body' x i := by
  obtain ⟨hhas, hkind, -, hops⟩ := hg.inst i h.1
  exact ⟨hhas, hkind.trans h.2.1, hops.trans h.2.2⟩

lemma exists_of_mem_right {α β : Type} {R : α → β → Prop} {xs : List α} {ys : List β} {y : β} (h : Forall₂ R xs ys)
    (hy : y ∈ ys) : ∃ x ∈ xs, R x y := by
  obtain ⟨k, hk, rfl⟩ := mem_iff_getElem.1 hy
  have hk' := h.length_eq ▸ hk
  exact ⟨xs[k], getElem_mem hk', h.get hk' hk⟩

structure Extended (s s' : State) : Prop where
  grows : s.body.Grows s'.body
  segments : s'.segments = s.segments
  vars : s'.body.vars = s.body.vars
  blocks : s'.body.blocks.size = s.body.blocks.size
  argVars : s'.argVars = s.argVars
  localVars : s'.localVars = s.localVars

lemma Extended.refl (s : State) : Extended s s := ⟨.refl _, rfl, rfl, rfl, rfl, rfl⟩

lemma Extended.trans (h : Extended s s') (k : Extended s' s'') : Extended s s'' :=
  ⟨h.grows.trans k.grows, k.segments.trans h.segments, k.vars.trans h.vars, k.blocks.trans h.blocks,
    k.argVars.trans h.argVars, k.localVars.trans h.localVars⟩

lemma Extended.extends (h : Extended s s') : Extends s s' :=
  ⟨h.grows, .of_eq h.segments, h.argVars, h.localVars⟩

def storeArg (entry : BlockId) (x : VarId × Nat) : M InstId := do
  let store ← edit (Edit.createInst (.storeVar x.1) [.arg ⟨x.2⟩] .void)
  modifyState (·.noteUse x.1 entry false)
  return store

def State.withArg (s : State) (entry : BlockId) (x : VarId × Nat) : State :=
  { s with body := s.body.addInst (.storeVar x.1) [.arg ⟨x.2⟩] .void }.noteUse x.1 entry false

lemma storeArg_eq_ok {entry : BlockId} (h : storeArg entry x t = .ok i t') :
    t.state.body.hasValue (.arg ⟨x.2⟩) ∧ i = ⟨t.state.body.insts.size⟩ ∧
      t' = ⟨t.state.withArg entry x, t.log⟩ := by
  simp only [storeArg, bind_iff, edit_iff, Edit.createInst_iff, modifyState_iff, pure_iff] at h
  obtain ⟨_, _, ⟨_, ⟨-, hknown, rfl, rfl⟩, rfl⟩, _, _, rfl, rfl, rfl⟩ := h
  exact ⟨by simpa using hknown, rfl, rfl⟩

lemma isStore_withArg (s : State) (entry : BlockId) (x : VarId × Nat) :
    IsStore (s.withArg entry x).body x ⟨s.body.insts.size⟩ := by
  have hnew := inst_addInst s.body (.storeVar x.1) [.arg ⟨x.2⟩] .void ⟨s.body.insts.size⟩
  rw [if_pos rfl] at hnew
  exact ⟨hasInst_addInst_iff.2 (.inr rfl), congrArg Inst.kind hnew, congrArg Inst.operands hnew⟩

lemma createStores_spec (entry : BlockId) (xs : List (VarId × Nat)) :
    ∀ (t t' : Trace State) (ids : List InstId), xs.mapM (storeArg entry) t = .ok ids t' →
    Extended t.state t'.state ∧ (∀ b, t'.state.body.instsOf b = t.state.body.instsOf b) ∧
      Forall₂ (IsStore t'.state.body) xs ids ∧
      ∀ i, t'.state.body.hasInst i → t.state.body.hasInst i ∨ i ∈ ids := by
  induction xs with
  | nil =>
    intro t t' ids h
    obtain ⟨rfl, rfl⟩ := mapM_nil_iff.1 h
    exact ⟨.refl _, fun _ => rfl, .nil, fun _ => .inl⟩
  | cons x xs ih =>
    intro t t' ids h
    obtain ⟨i, t₁, hone, rest, hrest, rfl⟩ := mapM_cons_iff.1 h
    obtain ⟨-, rfl, rfl⟩ := storeArg_eq_ok hone
    obtain ⟨hextended, hinsts, hstores, hnew⟩ := ih _ t' rest hrest
    have hg := grows_addInst t.state.body (.storeVar x.1) [.arg ⟨x.2⟩] .void
    refine ⟨⟨hg.trans hextended.grows, hextended.segments, hextended.vars.trans ?_,
      hextended.blocks.trans ?_, hextended.argVars, hextended.localVars⟩,
      fun b => (hinsts b).trans ?_, .cons ((isStore_withArg ..).mono hextended.grows) hstores, fun i hi => ?_⟩
    · exact bare_addInst_eq _ _ _ _ vars (fun _ => rfl) fun _ => rfl
    · exact bare_addInst_eq _ _ _ _ (fun x => x.blocks.size) (fun _ => rfl) fun _ => rfl
    · exact congrArg Block.insts (block_addInst _ _ _ _ b)
    · rcases hnew i hi with hi | hi
      · refine (hasInst_addInst_iff.1 hi).imp_right ?_
        rintro rfl
        exact mem_cons_self
      · exact .inr (mem_cons_of_mem _ hi)

lemma insertFirst_spec (entry : BlockId) (ids : List InstId) : ∀ (t t' : Trace State) (u : Unit),
    (ids.forM (fun store => edit (Edit.insertFirst entry store)) : M Unit) t = .ok u t' →
    t.state.body.hasBlock entry →
    Extended t.state t'.state ∧ (∀ i, t'.state.body.hasInst i → t.state.body.hasInst i) ∧
      ∀ b, t'.state.body.instsOf b =
        if b = entry then ids.reverse ++ t.state.body.instsOf b else t.state.body.instsOf b := by
  induction ids with
  | nil =>
    intro t t' u h _
    obtain ⟨-, rfl⟩ := pure_iff.1 h
    exact ⟨.refl _, fun _ hi => hi, fun b => by simp⟩
  | cons i ids ih =>
    intro t t' u h hentry
    change (edit (Edit.insertFirst entry i) >>= fun _ =>
      ids.forM fun store => edit (Edit.insertFirst entry store)) t = _ at h
    obtain ⟨_, t₁, hone, hrest⟩ := bind_iff.1 h
    simp only [edit_iff, Edit.insertFirst_iff] at hone
    obtain ⟨_, ⟨-, rfl⟩, rfl⟩ := hone
    have hg := grows_attach t.state.body i entry (i :: t.state.body.instsOf entry)
    obtain ⟨hextended, hold, hinsts⟩ := ih _ t' _ hrest (hg.block _ hentry)
    refine ⟨⟨hg.trans hextended.grows, hextended.segments, hextended.vars.trans ?_,
      hextended.blocks.trans (size_blocks_attach _), hextended.argVars, hextended.localVars⟩,
      fun j hj => ?_, fun b => ?_⟩
    · change (attach _ _ _ _).vars = _
      rw [attach_eq]
    · have hj := hold j hj
      rw [attach_eq] at hj
      simpa [hasInst] using hj
    · have hone := instsOf_attach (i := i) (c := b) (i :: t.state.body.instsOf entry) hentry
      rw [hinsts b, hone]
      split
      · next hb =>
        rw [hb, reverse_cons, append_assoc]
        rfl
      · rfl

section CopyArguments

variable {entry : BlockId} (h : copyArguments t = .ok u t') (hentry : t.state.body.entry = some entry)

include h hentry

lemma copyArguments_cases : ∃ ids t₁, t.state.argVars.toList.zipIdx.mapM (storeArg entry) t = .ok ids t₁ ∧
      (ids.reverse.forM (fun store => edit (Edit.insertFirst entry store)) : M Unit) t₁ = .ok u t' := by
  simp only [copyArguments, getState_bind_iff] at h
  rw [hentry] at h
  exact bind_iff.1 h

lemma copyArguments_induction {P : List (VarId × Nat) → State → Prop} (hs : P [] t.state)
    (hcreate : ∀ done, ∀ x ∈ t.state.argVars.toList.zipIdx, ∀ s, P done s →
      s.body.hasValue (.arg ⟨x.2⟩) → P (x :: done) (s.withArg entry x))
    (hinsert : ∀ done x i s, P done s → IsStore s.body x i → s.body.CanAttach i entry →
      P done { s with body := s.body.attach i entry (i :: s.body.instsOf entry) }) :
    P t.state.argVars.toList.zipIdx.reverse t'.state := by
  obtain ⟨ids, t₁, hcreated, hinserted⟩ := copyArguments_cases h hentry
  have hs₁ := mapM_induction (P := fun done t => P done t.state) hcreated hs fun done x hx t₂ t₃ i hs hone => by
      obtain ⟨harg, -, rfl⟩ := storeArg_eq_ok hone
      exact hcreate done x hx _ hs harg
  rw [append_nil] at hs₁
  obtain ⟨-, -, hstores, -⟩ := createStores_spec entry _ t t₁ ids hcreated
  have hids : ∀ i ∈ ids, ∃ x, IsStore t₁.state.body x i := fun i hi =>
    (exists_of_mem_right hstores hi).imp fun _ hx => hx.2
  refine (forM_induction (P := fun t => P _ t.state ∧ ∀ i ∈ ids, ∃ x, IsStore t.state.body x i) hinserted
    ⟨hs₁, hids⟩ ?_).1
  rintro i hi t₂ t₃ _ ⟨hs, hids⟩ hone
  simp only [edit_iff, Edit.insertFirst_iff] at hone
  obtain ⟨_, ⟨hcan, rfl⟩, rfl⟩ := hone
  obtain ⟨x, hx⟩ := hids i (mem_reverse.1 hi)
  exact ⟨hinsert _ x i _ hs hx hcan, fun j hj => (hids j hj).imp fun _ hy => hy.mono (grows_attach ..)⟩

lemma copyArguments_spec (hhas : t.state.body.hasBlock entry) : Extended t.state t'.state ∧ ∃ stores : List InstId,
      Forall₂ (IsStore t'.state.body) t.state.argVars.toList.zipIdx stores ∧
      (∀ i, t'.state.body.hasInst i → t.state.body.hasInst i ∨ i ∈ stores) ∧ ∀ b, t'.state.body.instsOf b =
        if b = entry then stores ++ t.state.body.instsOf b else t.state.body.instsOf b := by
  obtain ⟨ids, t₁, hcreate, hinsert⟩ := copyArguments_cases h hentry
  obtain ⟨hextended₁, hinsts₁, hstores, hnew⟩ := createStores_spec entry _ t t₁ ids hcreate
  obtain ⟨hextended₂, hold, hinsts₂⟩ := insertFirst_spec entry _ t₁ t' u hinsert (hextended₁.grows.block _ hhas)
  refine ⟨hextended₁.trans hextended₂, ids, hstores.imp fun _ _ hs => hs.mono hextended₂.grows,
    fun i hi => hnew i (hold i hi), fun b => ?_⟩
  rw [hinsts₂ b, hinsts₁ b, reverse_reverse]

end CopyArguments

lemma foldl_exec_stores {V : Type} {I : Meaning V} (h : Forall₂ (IsStore body) xs ids) (hnodup : (xs.map Prod.fst).Nodup)
    (ir : Body.Machine V) : ∃ vars, ids.foldl (exec I body) ir = { ir with vars } ∧
      (∀ v n, (v, n) ∈ xs → vars v = I.arg n) ∧ ∀ v, v ∉ xs.map Prod.fst → vars v = ir.vars v := by
  induction h generalizing ir with
  | nil => exact ⟨ir.vars, rfl, by simp, fun _ _ => rfl⟩
  | @cons x i xs ids hi _ ih =>
    rw [map_cons, nodup_cons] at hnodup
    obtain ⟨vars, hvars, hstored, hkept⟩ := ih hnodup.2
      { ir with vars := update ir.vars x.1 (I.arg x.2) }
    refine ⟨vars, ?_, fun v n hmem => ?_, fun v hv => ?_⟩
    · rw [foldl_cons, exec_storeVar hi.2.1 hi.2.2]
      exact hvars
    · rcases mem_cons.1 hmem with rfl | hmem
      · rw [hkept v hnodup.1]
        exact update_self ..
      · exact hstored v n hmem
    · rw [map_cons, mem_cons, not_or] at hv
      rw [hkept v hv.2]
      exact update_of_ne hv.1 ..

/-! ## The whole -/

def State.expose (s : State) (v : VarId) : State :=
  { s with body := s.body.modifyVar v fun x => { x with isExposed := true } }

lemma markExposed_induction {P : State → Prop} (h : markExposed t = .ok u t') (hs : P t.state)
    (hexpose : ∀ v s, P s → P (s.expose v)) : P t'.state := by
  simp only [markExposed, getState_bind_iff] at h
  refine forM_induction (P := fun t => P t.state) h hs fun x _ t₁ t₂ u hs hone => ?_
  simp only [exposeIfCrossing, getState_bind_iff] at hone
  split at hone
  · simp only [bind_iff, edit_iff, modify_iff, report_iff] at hone
    obtain ⟨_, _, ⟨_, rfl, rfl⟩, rfl⟩ := hone
    exact hexpose _ _ hs
  · obtain ⟨-, rfl⟩ := pure_iff.1 hone
    exact hs

lemma markExposed_spec (h : markExposed t = .ok u t') : ∃ body,
    t'.state = { t.state with body } ∧ t.state.body.Grows body ∧ ∀ b, body.instsOf b = t.state.body.instsOf b := by
  refine markExposed_induction (P := fun s => ∃ body, s = { t.state with body } ∧ t.state.body.Grows body ∧
    ∀ b, body.instsOf b = t.state.body.instsOf b) h ⟨t.state.body, rfl, .refl _, fun _ => rfl⟩ ?_
  rintro v _ ⟨body, rfl, hg, hinsts⟩
  exact ⟨_, rfl, hg.trans (grows_modifyVar v (fun _ => rfl) fun _ => rfl), hinsts⟩

lemma importMethod_stages (h : importMethod m t = .ok u t') : ∃ leaders t₁ t₂ t₃ t₄ t₅,
    Import.leaders m = .ok leaders ∧ ranges m.codeSize leaders ≠ [] ∧ createBlocks m leaders t = .ok () t₁ ∧
      m.regions.forM createGuard t₁ = .ok () t₂ ∧ copyArguments t₂ = .ok () t₃ ∧
      (range' 0 t₃.state.segments.size).forM (lowerSegment m) t₃ = .ok () t₄ ∧
      markExposed t₄ = .ok () t₅ ∧ t'.state = t₅.state := by
  rw [importMethod] at h
  cases hcode : m.code.isEmpty with
  | true => simp [hcode, failAt] at h
  | false =>
    simp only [hcode, Bool.false_eq_true, if_false, bind_iff, ofExcept_iff, ↓getState_bind_iff, report_iff,
      range_eq_range'] at h
    obtain ⟨leaders, _, ⟨hleaders, rfl⟩, _, t₁, hblocks, _, t₂, hguards, _, t₃, hargs, _,
      t₄, hlower, _, t₅, hexpose, _, _, ⟨rfl, rfl⟩, rfl⟩ := h
    exact ⟨leaders, t₁, t₂, t₃, t₄, t₅, hleaders, ranges_ne_nil hcode, hblocks, hguards, hargs, hlower, hexpose,
      rfl⟩

/-- The state in which an import ends, if it succeeds. -/
def imported? (m : Bytecode) : Option State :=
  match importMethod m ⟨State.ofMethod m, #[]⟩ with
  | .ok _ t => some t.state
  | .error _ _ => none

lemma exists_of_imported? {p : State → Bool} (h : (imported? m).any p) :
    ∃ t, importMethod m ⟨ofMethod m, #[]⟩ = .ok () t ∧ p t.state := by
  rw [imported?] at h
  cases hrun : importMethod m ⟨ofMethod m, #[]⟩ with
  | ok u t => exact ⟨t, rfl, by simpa [hrun] using h⟩
  | error e t => simp [hrun] at h

end Import

namespace Bytecode

/-- The error with which an import ends. -/
def error? (m : Bytecode) : Option Error :=
  match (m.toBody : Traced Unit Body) ⟨(), #[]⟩ with
  | .ok _ _ => none
  | .error e _ => some e

lemma exists_of_error? {e : Error} (h : error? m = some e) :
    ∃ t, (m.toBody : Traced Unit Body) ⟨(), #[]⟩ = .error e t := by
  rw [error?] at h
  cases hrun : (m.toBody : Traced Unit Body) ⟨(), #[]⟩ with
  | ok x t => simp [hrun] at h
  | error e' t =>
    obtain rfl : e' = e := by simpa [hrun] using h
    exact ⟨t, rfl⟩

lemma exists_of_error?_eq_none (h : error? m = none) :
    ∃ body t, (m.toBody : Traced Unit Body) ⟨(), #[]⟩ = .ok body t := by
  rw [error?] at h
  cases hrun : (m.toBody : Traced Unit Body) ⟨(), #[]⟩ with
  | ok body t => exact ⟨body, t, rfl⟩
  | error e t => simp [hrun] at h

end Bytecode

end MethodIR
