import MethodIR.Import.Stack
import MethodIR.Proofs.Bare
import MethodIR.Proofs.Success

/-!
# Growing bodies

Lowering only adds to a body: instructions at the ends of blocks, and variables. What was there keeps
its kind, type and operands (`Body.Grows`).
-/

namespace MethodIR

open Tables Success Body Edit

namespace Body

variable {x y z body : Body} {i j : InstId} {b c : BlockId} {v : Value}

/-- `y` has all instructions and variables of `x`, unchanged but for uses and places. -/
structure Grows (x y : Body) : Prop where
  inst : ∀ i, x.hasInst i → y.hasInst i ∧ (y.inst i).kind = (x.inst i).kind ∧
    (y.inst i).ty = (x.inst i).ty ∧ (y.inst i).operands = (x.inst i).operands
  var : ∀ v, x.hasVar v → y.hasVar v ∧ (y.var v).ty = (x.var v).ty ∧ (y.var v).origin = (x.var v).origin
  args : y.args.map Arg.ty = x.args.map Arg.ty
  returnTy : y.returnTy = x.returnTy
  block : ∀ b, x.hasBlock b → y.hasBlock b
  entry : ∀ b, x.entry = some b → y.entry = some b

lemma Grows.refl (x : Body) : Grows x x :=
  ⟨fun _ h => ⟨h, rfl, rfl, rfl⟩, fun _ h => ⟨h, rfl, rfl⟩, rfl, rfl, fun _ h => h, fun _ h => h⟩

lemma Grows.trans (h : Grows x y) (k : Grows y z) : Grows x z := by
  refine ⟨fun i hi => ?_, fun v hv => ?_, k.args.trans h.args, k.returnTy.trans h.returnTy,
    fun b hb => k.block b (h.block b hb), fun b hb => k.entry b (h.entry b hb)⟩
  · obtain ⟨hy, hkind, hty, hops⟩ := h.inst i hi
    obtain ⟨hz, hkind', hty', hops'⟩ := k.inst i hy
    exact ⟨hz, hkind'.trans hkind, hty'.trans hty, hops'.trans hops⟩
  · obtain ⟨hy, hty, horigin⟩ := h.var v hv
    obtain ⟨hz, hty', horigin'⟩ := k.var v hy
    exact ⟨hz, hty'.trans hty, horigin'.trans horigin⟩

lemma Grows.hasValue (h : Grows x y) (hv : x.hasValue v) : y.hasValue v :=
  hasValue_of_args h.args (fun i hi => (h.inst i hi).1) hv

lemma Grows.valueTy (h : Grows x y) (hv : x.hasValue v) : y.valueTy v = x.valueTy v :=
  valueTy_of_args h.args fun i hi => (h.inst i (by subst hi; exact hv)).2.2.1

/-- The body after an instruction was created at the end of a block. -/
def append (body : Body) (b : BlockId) (kind : Kind) (vs : List Value) (ty : Ty) : Body :=
  (body.addInst kind vs ty).attach ⟨body.insts.size⟩ b ((body.addInst kind vs ty).instsOf b ++ [⟨body.insts.size⟩])

lemma grows_attach (body : Body) (i : InstId) (b : BlockId) (l : List InstId) : Grows body (body.attach i b l) := by
  refine ⟨fun j hj => ?_, fun v hv => ?_, ?_, ?_, fun c hc => ?_, fun c hc => ?_⟩
  · rw [inst_attach]
    refine ⟨?_, ?_⟩
    · rw [attach_eq, hasInst, Array.size_modify]
      exact hj
    · split <;> exact ⟨rfl, rfl, rfl⟩
  · rw [attach_eq]
    exact ⟨hv, rfl, rfl⟩
  · rw [attach_eq]
  · rw [attach_eq]
  · rw [hasBlock, size_blocks_attach]
    exact hc
  · rw [attach_eq]
    exact hc

section Append

variable (body) (b) (kind : Kind) (vs : List Value) (ty : Ty)

lemma insts_size_append : (body.append b kind vs ty).insts.size = body.insts.size + 1 := by
  rw [append, attach_eq]
  simp [size_addInst]

lemma inst_append (j : InstId) : ((body.append b kind vs ty).inst j).bare = if j.index = body.insts.size
    then { kind, ty, operands := vs, block := some b } else (body.inst j).bare := by
  have hold := inst_addInst body kind vs ty j
  rw [append, inst_attach]
  by_cases hj : j.index = body.insts.size
  · have hi : (⟨body.insts.size⟩ : InstId) = j := InstId.ext hj.symm
    rw [if_pos hj] at hold ⊢
    rw [if_pos ⟨hi, by simp [hasInst, size_addInst, hj]⟩]
    have hblock : ∀ z : Inst, ({ z with block := some b } : Inst).bare =
        { z.bare with block := some b } := fun _ => rfl
    rw [hblock, hold]
  · have hi : (⟨body.insts.size⟩ : InstId) ≠ j := fun h => hj (h ▸ rfl)
    rw [if_neg hj] at hold ⊢
    rw [if_neg fun h => hi h.1, hold]

lemma append_new : (body.append b kind vs ty).kind ⟨body.insts.size⟩ = kind ∧
    ((body.append b kind vs ty).inst ⟨body.insts.size⟩).ty = ty ∧
    ((body.append b kind vs ty).inst ⟨body.insts.size⟩).operands = vs := by
  have h := inst_append body b kind vs ty ⟨body.insts.size⟩
  rw [if_pos rfl] at h
  rw [Body.kind]
  generalize (body.append b kind vs ty).inst ⟨body.insts.size⟩ = new at h ⊢
  exact ⟨congrArg Inst.kind h, congrArg Inst.ty h, congrArg Inst.operands h⟩

lemma instsOf_append (hb : body.hasBlock b) : (body.append b kind vs ty).instsOf c =
    if c = b then body.instsOf b ++ [⟨body.insts.size⟩] else body.instsOf c := by
  have hinsts : ∀ a, (body.addInst kind vs ty).instsOf a = body.instsOf a := fun a => by
    rw [instsOf, block_addInst, instsOf]
  have hhas : (body.addInst kind vs ty).hasBlock b := by
    have h := congrArg (fun x : Body => x.hasBlock b) (bare_addInst body kind vs ty)
    simp only [hasBlock_bare] at h
    rw [h]
    exact hb
  rw [append, instsOf_attach _ hhas, hinsts, hinsts]

lemma bare_addInst_eq {α : Type} (f : Body → α) (hf : ∀ x : Body, f x.bare = f x)
    (hpush : ∀ x, f (body.pushInst x) = f body) : f (body.addInst kind vs ty) = f body := by
  rw [← hf, bare_addInst, hf, hpush]

lemma size_blocks_append : (body.append b kind vs ty).blocks.size = body.blocks.size := by
  rw [append, size_blocks_attach]
  exact bare_addInst_eq body kind vs ty (fun x => x.blocks.size) (fun _ => rfl) fun _ => rfl

lemma vars_append : (body.append b kind vs ty).vars = body.vars := by
  rw [append, attach_eq]
  exact bare_addInst_eq body kind vs ty vars (fun _ => rfl) fun _ => rfl

lemma grows_addInst : Grows body (body.addInst kind vs ty) := by
  refine ⟨fun i hi => ?_, fun v hv => ?_, ?_, ?_, fun c hc => ?_, fun c hc => ?_⟩
  · have hlt : i.index < body.insts.size := hasInst_iff.1 hi
    have h := inst_addInst body kind vs ty i
    rw [if_neg (by omega), Inst.bare_eq_iff] at h
    exact ⟨by simp [hasInst, size_addInst]; omega, h.1, h.2.1, h.2.2.1⟩
  · have hvars := bare_addInst_eq body kind vs ty vars (fun _ => rfl) fun _ => rfl
    rw [hasVar, var, hvars]
    exact ⟨hv, rfl, rfl⟩
  · refine bare_addInst_eq body kind vs ty (fun x => x.args.map Arg.ty) (fun x => ?_) fun _ => rfl
    simp only [bare, Array.map_map]
    rfl
  · exact bare_addInst_eq body kind vs ty returnTy (fun _ => rfl) fun _ => rfl
  · have h := bare_addInst_eq body kind vs ty (fun x => x.blocks.size) (fun _ => rfl) fun _ => rfl
    simp only [hasBlock, h]
    simpa [hasBlock] using hc
  · exact (bare_addInst_eq body kind vs ty entry (fun _ => rfl) fun _ => rfl).trans hc

lemma grows_append : Grows body (body.append b kind vs ty) :=
  (grows_addInst body kind vs ty).trans (grows_attach _ _ _ _)

end Append

lemma grows_addVar (ty : Ty) (origin : Variable.Origin) : Grows body (body.addVar ty origin).2 := by
  refine ⟨fun i hi => ⟨hi, rfl, rfl, rfl⟩, fun v hv => ?_, rfl, rfl, fun b hb => hb, fun b hb => hb⟩
  have hlt : v.index < body.vars.size := by simpa [hasVar] using hv
  have hvar : (body.addVar ty origin).2.var v = body.var v := by
    rw [var, addVar, getD_push, if_neg (by omega)]
    rfl
  exact ⟨by simp [hasVar, addVar]; omega, by rw [hvar], by rw [hvar]⟩

lemma grows_modifyVar {f : Variable → Variable} (w : VarId) (hty : ∀ x, (f x).ty = x.ty)
    (horigin : ∀ x, (f x).origin = x.origin) : Grows body (body.modifyVar w f) := by
  refine ⟨fun i hi => ⟨hi, rfl, rfl, rfl⟩, fun v hv => ?_, rfl, rfl, fun b hb => hb, fun b hb => hb⟩
  have hvar : (body.modifyVar w f).var v =
      if w.index = v.index ∧ v.index < body.vars.size then f (body.var v) else body.var v := by
    rw [var, modifyVar, getD_modify]
    rfl
  refine ⟨by simpa [hasVar, modifyVar] using hv, ?_, ?_⟩
  · rw [hvar]
    split
    · exact hty _
    · rfl
  · rw [hvar]
    split
    · exact horigin _
    · rfl

end Body

namespace Import

variable {α : Type} {t t' : Trace State} {a : α}

lemma edit_iff {x : Edit α} : edit x t = .ok a t' ↔
    ∃ body, x t.state.body = .ok a body ∧ t' = ⟨{ t.state with body }, t.log⟩ := by
  simp only [edit, Traced.zoom_iff, Traced.ofEdit_iff]
  grind

lemma emit_eq_ok {kind : Kind} {vs : List Value} {ty : Ty} (h : emit kind vs ty t = .ok v t') :
    v = .inst ⟨t.state.body.insts.size⟩ ∧ t.state.body.hasBlock t.state.cursor.block ∧
      (∀ w ∈ vs, w = .inst ⟨t.state.body.insts.size⟩ ∨ t.state.body.hasValue w) ∧
      arityViolation? kind vs.length = none ∧ (∀ c ∈ kind.successors, t.state.body.hasBlock c) ∧
      t' = ⟨{ t.state with body := t.state.body.append t.state.cursor.block kind vs ty }, t.log⟩ := by
  simp only [emit, bind_iff, Traced.getState_iff, edit_iff, createInst_iff, insertLast_iff, pure_iff] at h
  obtain ⟨s, _, ⟨rfl, rfl⟩, body, ⟨i, body₁, ⟨harity, hops, rfl, rfl⟩, _, body₂,
    ⟨hattach, rfl⟩, rfl, rfl⟩, rfl⟩ := h
  have hsize := bare_addInst_eq t.state.body kind vs ty (fun x => x.blocks.size) (fun _ => rfl) fun _ => rfl
  have hhas : ∀ c, (t.state.body.addInst kind vs ty).hasBlock c = t.state.body.hasBlock c :=
    fun c => by simp only [hasBlock, hsize]
  obtain ⟨-, -, -, hblock, hsuccs⟩ := hattach
  have hkind : (t.state.body.addInst kind vs ty).kind ⟨t.state.body.insts.size⟩ = kind := by
    have hnew := inst_addInst t.state.body kind vs ty ⟨t.state.body.insts.size⟩
    rw [if_pos rfl] at hnew
    exact congrArg Inst.kind hnew
  rw [hkind] at hsuccs
  exact ⟨rfl, by rwa [hhas] at hblock, hops, harity, fun c hc => by simpa [hhas] using hsuccs c hc, rfl⟩

end Import

end MethodIR
