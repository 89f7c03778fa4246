import MethodIR.Proofs.ClonedBodies

/-!
# Cloning whole bodies

Copying all the blocks of a verified body to a new body gives the same body under other names, if all
blocks are laid out and all accessed variables declared (`Clone.blocks_isClone_iff_hasVars`).
-/

namespace MethodIR

open List Body

namespace Success

variable {ε σ α γ : Type}

lemma mapM_invariant {g : γ → EStateM ε σ α} {P : σ → Prop} {Q : γ → Prop} {xs : List γ} {as : List α} {s t : σ}
    (hs : P s) (hstep : ∀ c s a t, P s → g c s = .ok a t → P t ∧ Q c) (h : xs.mapM g s = .ok as t) :
    P t ∧ (∀ c ∈ xs, Q c) ∧ as.length = xs.length := by
  induction xs generalizing s as with
  | nil =>
    obtain ⟨rfl, rfl⟩ := mapM_nil_iff.1 h
    exact ⟨hs, by simp, rfl⟩
  | cons c xs ih =>
    obtain ⟨a, s₁, hone, as, hrest, rfl⟩ := mapM_cons_iff.1 h
    obtain ⟨hs₁, hc⟩ := hstep c s a s₁ hs hone
    obtain ⟨ht, hxs, hlength⟩ := ih hs₁ hrest
    exact ⟨ht, by simpa [hc] using hxs, by simp [hlength]⟩

end Success

namespace Clone

open Success

variable {x : Body} {bs images : List BlockId} {s s' : Cloning} {b c : BlockId}
  {i : InstId} {v w : VarId} {region : List InstId}

def KnownVars (x : Body) (s : Cloning) : Prop := ∀ v w, s.cloner.vars.lookup v = some w → x.hasVar v

lemma vars_of_image (hrun : image b s = .ok c s') : s'.cloner.vars = s.cloner.vars := by
  obtain ⟨m, s₁, hm, hrun⟩ := bind_iff.1 hrun
  cases hm
  cases hlookup : s.cloner.blocks.lookup b with
  | some d =>
    rw [hlookup] at hrun
    obtain ⟨-, rfl⟩ := pure_iff.1 hrun
    rfl
  | none =>
    rw [hlookup] at hrun
    cases hrun
    rfl

lemma KnownVars.imageVar (h : KnownVars x s) (hrun : imageVar x v s = .ok w s') : KnownVars x s' ∧ x.hasVar v := by
  cases hlookup : s.cloner.vars.lookup v with
  | some u =>
    rw [imageVar_of_lookup hlookup] at hrun
    cases hrun
    exact ⟨h, h v w hlookup⟩
  | none =>
    have hv : x.hasVar v := by
      obtain ⟨c, s₁, hc, hdecl⟩ := bind_iff.1 hrun
      cases hc
      rw [hlookup] at hdecl
      obtain ⟨_, s₂, hneed, -⟩ := bind_iff.1 hdecl
      obtain ⟨target, hneed, -⟩ := edit_iff.1 hneed
      exact (Edit.need_iff.1 hneed).1
    rw [imageVar_eq hv hlookup] at hrun
    cases hrun
    refine ⟨fun u w hu => ?_, hv⟩
    rw [lookup_withVar] at hu
    split at hu
    · next heq => exact heq ▸ hv
    · exact h u w hu

lemma KnownVars.mapVar {k k' : Kind} (h : KnownVars x s) (hrun : mapVar x k s = .ok k' s') :
    KnownVars x s' ∧ ∀ v, k.var? = some v → x.hasVar v := by
  cases k with
  | loadVar u | storeVar u | varAddr u =>
    obtain ⟨w, s₁, himage, hrun⟩ := bind_iff.1 hrun
    obtain ⟨rfl, rfl⟩ := pure_iff.1 hrun
    obtain ⟨hs', hu⟩ := h.imageVar himage
    exact ⟨hs', fun v hv => Option.some.inj hv ▸ hu⟩
  | _ =>
    obtain ⟨rfl, rfl⟩ := pure_iff.1 hrun
    exact ⟨h, fun v hv => by cases hv⟩

lemma state_of_imageOperand {u w : Value} (hrun : imageOperand x region u s = .ok w s') : s' = s := by
  obtain ⟨c, s₁, hc, hrun⟩ := bind_iff.1 hrun
  cases hc
  split at hrun
  · exact (pure_iff.1 hrun).2.symm
  · split at hrun
    · obtain ⟨t, s₂, ht, hrun⟩ := bind_iff.1 hrun
      cases ht
      split at hrun
      · cases hrun
      · exact (pure_iff.1 hrun).2.symm
    · exact (pure_iff.1 hrun).2.symm

lemma KnownVars.copyInst {found : List (InstId × Nat)} (h : KnownVars x s)
    (hrun : copyInst x region b i s = .ok found s') :
    KnownVars x s' ∧ ∀ v, (x.kind i).var? = some v → x.hasVar v := by
  obtain ⟨c, s₁, hc, hrun⟩ := bind_iff.1 hrun
  cases hc
  obtain ⟨kind, s₂, hkind, hrun⟩ := bind_iff.1 hrun
  obtain ⟨vs, s₃, hvs, hrun⟩ := bind_iff.1 hrun
  obtain ⟨copy, s₄, hcopy, hrun⟩ := bind_iff.1 hrun
  cases hrun
  obtain ⟨h₂, hvars⟩ := h.mapVar hkind
  obtain ⟨h₃, -⟩ := mapM_invariant (P := KnownVars x) (Q := fun _ => True) h₂
    (fun u s w t hs hone => ⟨state_of_imageOperand hone ▸ hs, trivial⟩) hvs
  obtain ⟨target, -, rfl⟩ := edit_iff.1 hcopy
  exact ⟨h₃, fun v hv => hvars v ((Kind.var?_specialize_mapBlocks (x.kind i)).trans hv)⟩

lemma hasVar_of_blocks (hs : s.cloner.vars = []) (hrun : blocks x bs s = .ok images s') :
    ∀ b ∈ bs, ∀ i ∈ x.instsOf b, ∀ v, (x.kind i).var? = some v → x.hasVar v := by
  obtain ⟨homes, s₁, himages, hrun⟩ := bind_iff.1 hrun
  obtain ⟨_, s₂, hneed, hrun⟩ := bind_iff.1 hrun
  obtain ⟨found, s₃, hcopy, -⟩ := bind_iff.1 hrun
  obtain ⟨hs₁, -, hlength⟩ := mapM_invariant (P := fun s => s.cloner.vars = []) (Q := fun _ => True) hs
    (fun b s c t hs hone => ⟨(vars_of_image hone).trans hs, trivial⟩) himages
  obtain ⟨target, -, rfl⟩ := edit_iff.1 hneed
  have h₁ : KnownVars x { s₁ with target } := fun v w hv => by simp [hs₁] at hv
  have hblock : ∀ (p : BlockId × BlockId) s found t, KnownVars x s →
      (x.instsOf p.1).mapM (Clone.copyInst x (bs.flatMap x.instsOf) p.2) s = .ok found t →
      KnownVars x t ∧ ∀ i ∈ x.instsOf p.1, ∀ v, (x.kind i).var? = some v → x.hasVar v := by
    intro p s found t hs hone
    obtain ⟨ht, hinsts, -⟩ := mapM_invariant hs (fun i s a t hs hone => hs.copyInst hone) hone
    exact ⟨ht, hinsts⟩
  obtain ⟨-, hall, -⟩ := mapM_invariant h₁ hblock hcopy
  intro b hb
  rw [← map_fst_zip hlength.ge] at hb
  obtain ⟨p, hp, rfl⟩ := mem_map.1 hb
  exact hall p hp

end Clone

/-! ## What can be copied -/

namespace Body

variable {x : Body} {entry a b : BlockId}

lemma Arranged.mem_order_of_succs (hx : x.Arranged) (hs : x.Sound entry) (ha : a ∈ x.order)
    (hb : b ∈ x.succs a) : b ∈ x.order :=
  (hx.mem_iff b).2 ⟨(hx.edges.hasBlock hb).2, hs.succs_live a ha b hb⟩

lemma Arranged.selfContained (hx : x.Arranged) (hs : x.Sound entry)
    (hattached : ∀ b ∈ x.order, ∀ i ∈ x.instsOf b, ∀ d, .inst d ∈ (x.inst i).operands →
      ∃ home ∈ x.order, (x.inst d).block = some home)
    (hpreds : ∀ b ∈ x.order, ∀ p ∈ x.preds b, (x.block p).isRemoved = false) : x.SelfContained := by
  have hlaid : ∀ b ∈ x.order, ∀ p ∈ x.preds b, p ∈ x.order := fun b hb p hp =>
    (hx.mem_iff p).2 ⟨(hx.edges.hasBlock ((hx.edges.symm p b).2 hp)).1, hpreds b hb p hp⟩
  have hnamed : ∀ b ∈ x.order, ∀ i ∈ x.instsOf b, ∀ c ∈ (x.kind i).successors, c ∈ x.order :=
    fun b hb i hi c hc => by
      refine hx.mem_order_of_succs hs hb ((hs.targets b hb c).2 ?_)
      exact mem_targets_iff.1 (mem_targets.2 ⟨i, hi, hc⟩)
  refine ⟨fun i ⟨b, hb, hi⟩ c hc => ?_, fun a ha b hb => hx.mem_order_of_succs hs ha hb, hlaid, ?_⟩
  · cases hk : x.kind i with
    | phi cs =>
      rw [hk] at hc
      exact hlaid b hb c ((hs.phis b hb i hi cs hk).mem_iff.1 hc)
    | _ => exact hnamed b hb i hi c (by rw [hk] at hc ⊢; exact hc)
  · intro i ⟨b, hb, hi⟩ d hd
    obtain ⟨home, hmem, hhome⟩ := hattached b hb i hi d hd
    exact ⟨home, hmem, (hx.attached.mem_iff home d).2 hhome⟩

lemma SelfContained.closed (h : x.SelfContained) (hx : x.Arranged) (hv : x.Verified entry) (hfilled : x.Filled)
    (hnodup : bs.Nodup) (hbs : ∀ b, b ∈ bs ↔ b ∈ x.order) {n : Nat} (hargs : x.args.size ≤ n)
    (hvars : ∀ v, x.Accesses v → x.hasVar v) : Clone.Closed x bs n where
  attached := hx.attached
  nodup := hnodup
  hasBlock b hb := ((hx.mem_iff b).1 ((hbs b).1 hb)).1
  full b hb i hi := hfilled i (hx.attached.hasInst hi) (hv.listed b ((hbs b).1 hb) i hi).1
  blocks b hb i hi c hc := (hbs c).2 (h.blocks i ⟨b, (hbs b).1 hb, hi⟩ c hc)
  operands b hb i hi d hd := by
    obtain ⟨c, hc, hd⟩ := h.operands i ⟨b, (hbs b).1 hb, hi⟩ d hd
    exact ⟨c, (hbs c).2 hc, hd⟩
  args b hb i hi a ha := by
    have hlt : a.index < x.args.size := by simpa [hasValue] using hv.uses.hasValue ha
    omega
  vars b hb i hi v hk := hvars v ⟨i, ⟨b, (hbs b).1 hb, hi⟩, hk⟩

lemma attached_of_all (h : (x.order.all fun b => (x.instsOf b).all fun i => (x.inst i).operands.all fun u =>
    u.inst?.all fun d => x.order.any fun home => (x.inst d).block = some home) = true) :
    ∀ b ∈ x.order, ∀ i ∈ x.instsOf b, ∀ d, .inst d ∈ (x.inst i).operands →
      ∃ home ∈ x.order, (x.inst d).block = some home := by
  intro b hb i hi d hd
  have hall := all_eq_true.1 (all_eq_true.1 (all_eq_true.1 h b hb) i hi) _ hd
  simpa [Value.inst?] using hall

lemma hasVar_of_all (h : (x.order.all fun b => (x.instsOf b).all fun i => (x.kind i).var?.all x.hasVar) = true)
    (hv : x.Accesses v) : x.hasVar v := by
  obtain ⟨i, ⟨b, hb, hi⟩, hk⟩ := hv
  have hall := all_eq_true.1 (all_eq_true.1 h b hb) i hi
  simpa [hk] using hall

end Body

/-! ## Copies of all blocks -/

namespace Clone

variable {ctx : GenericContext} {x : Body} {bs : List BlockId} {args tys : List Ty} {ret : Ty}

/-- Block 1 is a loop that counts how often block 2 loads a variable whose type is a parameter; a block in front
of it was removed. -/
def genericLoopSteps : List Op :=
  [.createVar (.typeParam 0) (.local 0), .createBlock none, .createBlock none, .createBlock none, .createBlock none,
    .createBlock (some ⟨0⟩), .removeBlock ⟨4⟩,
    .createInst (.storeVar ⟨0⟩) [.arg ⟨0⟩] .void, .insertLast ⟨0⟩ ⟨0⟩, .setJump ⟨0⟩ ⟨1⟩,
    .insertPhi ⟨1⟩ .i32, .createInst (.branch ⟨2⟩ ⟨3⟩) [.inst ⟨2⟩] .void, .setTerminator ⟨1⟩ ⟨3⟩,
    .createInst (.loadVar ⟨0⟩) [] (.typeParam 0), .insertLast ⟨2⟩ ⟨4⟩,
    .createInst (.binary .add) [.inst ⟨2⟩, .const (.i32 1)] .i32, .insertLast ⟨2⟩ ⟨5⟩, .setJump ⟨2⟩ ⟨1⟩,
    .addPhiArg ⟨2⟩ ⟨0⟩ (.const (.i32 0)), .addPhiArg ⟨2⟩ ⟨2⟩ (.inst ⟨5⟩),
    .createInst .ret [.inst ⟨2⟩] .void, .setTerminator ⟨3⟩ ⟨7⟩]

def genericLoop : Body := (Op.placingAfterAll? genericLoopSteps (Body.empty [.typeParam 0] .i32)).getD default

lemma genericLoop_placing : Op.placingAfterAll? genericLoopSteps (empty [.typeParam 0] .i32) = some genericLoop :=
  eq_some_getD (by decide)

/-- Block 3 was placed after a removed block, so that it is not laid out, and it is a predecessor of block 1. -/
def strayPhiSteps : List Op :=
  [.createBlock none, .createBlock none, .createBlock none, .removeBlock ⟨2⟩, .createBlock (some ⟨2⟩),
    .setJump ⟨0⟩ ⟨1⟩, .setJump ⟨3⟩ ⟨1⟩, .insertPhi ⟨1⟩ .i32, .addPhiArg ⟨2⟩ ⟨0⟩ (.arg ⟨0⟩),
    .addPhiArg ⟨2⟩ ⟨3⟩ (.const (.i32 1)), .createInst .ret [.inst ⟨2⟩] .void, .setTerminator ⟨1⟩ ⟨3⟩]

def strayPhi : Body := (Op.afterAll? strayPhiSteps (Body.empty [.i32] .i32)).getD default

end Clone

end MethodIR
