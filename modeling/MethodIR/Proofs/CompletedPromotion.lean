import MethodIR.Proofs.StandingOperands

/-!
# Promotion comes to its end

A verified body can be promoted (`Promotion.exists_promoted`) if its accesses name variables that it
has and what it stores comes before its uses.
-/

namespace MethodIR

open List FlowGraph Dominance DominatorTree DepthFirst Tables Success Traced Body Analyses Frontier

namespace Promotion

variable {x y : Body} {entry a b c : BlockId} {v : VarId} {i d : InstId} {plan : RenamingPlan} {t : Trace Body}

structure Admissible (x : Body) (entry : BlockId) : Prop where
  vars : ∀ k ∈ x.laidOutKinds, ∀ v, k.var? = some v → x.hasVar v
  unused : x.StoresUnused
  filled : x.StoresFilled
  within : ∀ b ∈ x.order, ¬Reachable (Edge x.succs) entry b → ∀ pre i post d,
    x.instsOf b = pre ++ i :: post → .inst d ∈ (x.inst i).operands → Within x entry pre d

lemma settling_of_within {seen : List BlockId} (hunused : x.StoresUnused)
    (hwithin : ∀ pre i post d, x.nonPhis b = pre ++ i :: post → .inst d ∈ (x.inst i).operands →
      Within x entry pre d) (hseen : ∀ b, Reachable (Edge x.succs) entry b → b ∈ seen) :
    Settling x plan seen b := by
  rintro pre i post hsplit - u hu d rfl hdacc
  obtain ⟨v, -, hk⟩ := plan.accesses.exists_of_concerns hdacc
  replace hk := hk.resolve_right (hunused i d hu v)
  obtain ⟨c, hc, hload⟩ := hwithin pre i post d hsplit hu
  refine ⟨⟨v, hk⟩, (hload ⟨v, hk⟩).symm.imp_right fun hreach => ⟨c, hseen c hreach, ?_⟩⟩
  exact mem_nonPhis hc (by rw [hk]; rfl)

/-! ## Placing phis -/

lemma exists_insertPhisFor {phis : List (InstId × VarId)} {places : List (VarId × BlockId)}
    {bs : List BlockId} (h : Placed x phis places t.state) (hbs : ∀ b ∈ bs, x.hasBlock b) :
    ∃ qs t', (bs.mapM fun b => do
      let phi ← ofEdit (Edit.insertPhi b (x.var v).ty)
      report (.insertedPhi phi v b)
      return (phi, v) : Traced Body _) t = .ok qs t' := by
  induction bs generalizing phis places t with
  | nil => exact ⟨[], t, mapM_nil_iff.2 ⟨rfl, rfl⟩⟩
  | cons b bs ih =>
    have hb : t.state.hasBlock b := by
      rw [h.graph.hasBlock]
      exact hbs b (by simp)
    have hphi : Edit.insertPhi b (x.var v).ty t.state = .ok _ _ :=
      (insertPhi_eq_ok h.attached).2 ⟨hb, rfl, rfl⟩
    obtain ⟨qs, t', hrest⟩ := ih (t := ⟨t.state.withPhi b (x.var v).ty, t.log.push _⟩) (h.withPhi hb)
      fun c hc => hbs c (by simp [hc])
    refine ⟨_, t', mapM_cons_iff.2 ⟨_, _, bind_iff.2 ⟨_, _, ofEdit_iff.2 ⟨_, hphi, rfl⟩, bind_iff.2
      ⟨(), _, report_iff.2 rfl, pure_iff.2 ⟨rfl, rfl⟩⟩⟩, qs, hrest, rfl⟩⟩

lemma exists_insertPhis {frontier : Frontier} {accesses : Accesses}
    (hattached : t.state.Attached) (huses : t.state.ExactUses)
    (hbs : ∀ g ∈ accesses.globals, ∀ b ∈ phiBlocks t.state.blocks.size frontier g.2,
      t.state.hasBlock b) : ∃ phis t', insertPhis frontier accesses t = .ok phis t' := by
  suffices hall : ∀ (gs : List (VarId × List BlockId)) (u : Trace Body) phis places,
      Placed t.state phis places u.state →
      (∀ g ∈ gs, ∀ b ∈ phiBlocks t.state.blocks.size frontier g.2, t.state.hasBlock b) →
      ∃ qss t', (gs.mapM fun g => insertPhisFor frontier g.1 g.2 : Traced Body _) u = .ok qss t' by
    obtain ⟨qss, t', hmap⟩ := hall _ t [] [] (.refl hattached huses) hbs
    exact ⟨_, t', bind_iff.2 ⟨qss, t', hmap, pure_iff.2 ⟨rfl, rfl⟩⟩⟩
  intro gs
  induction gs with
  | nil => exact fun u _ _ _ _ => ⟨[], u, mapM_nil_iff.2 ⟨rfl, rfl⟩⟩
  | cons g gs ih =>
    intro u phis places h hgs
    obtain ⟨qs, u₁, hg⟩ := exists_insertPhisFor (v := g.1) h (hgs g (by simp))
    obtain ⟨qss, t', hrest⟩ := ih u₁ _ _ (insertPhis_step h hg) fun g' hg' => hgs g' (by simp [hg'])
    have hfirst : insertPhisFor frontier g.1 g.2 u = .ok qs u₁ := by
      refine getState_bind_iff.2 ?_
      simp only [h.graph.var, h.graph.size]
      exact hg
    exact ⟨_, t', mapM_cons_iff.2 ⟨qs, u₁, hfirst, qss, hrest, rfl⟩⟩

section Verified

variable (hx : x.Arranged) (hv : x.Verified entry)

include hx hv

lemma frontier_compute_eq : compute x (ofEntry x entry) = .ok (.ofTree x (ofEntry x entry)) :=
  compute_ofEntry (linked_of_verified hx hv) hv.entry_preds

section Placed

variable (haccesses : plan.accesses = .ofBody x)
  (hplaced : Placed x plan.phis (places x (.ofTree x (ofEntry x entry))) y)

include hplaced

omit hx hv in
lemma operand_of_placed (hd : .inst d ∈ (y.inst i).operands) : x.hasInst i ∧ .inst d ∈ (x.inst i).operands := by
  have hi := hasInst_of_mem_operands hd
  have hin : x.hasInst i := by
    rw [← hplaced.lookup_eq_none_iff hi]
    refine Option.eq_none_iff_forall_ne_some.2 fun v hφ => ?_
    obtain ⟨-, -, b, -, hbare⟩ := hplaced.of_lookup hφ
    rw [operands_of_bare hbare] at hd
    simp [emptyPhi] at hd
  rw [hplaced.operands_eq hin] at hd
  exact ⟨hin, hd⟩

omit hx in
lemma storesUnused_of_placed (hunused : x.StoresUnused) : y.StoresUnused := by
  intro i d hd v
  obtain ⟨-, hd⟩ := operand_of_placed hplaced hd
  rw [hplaced.kind_eq (hv.uses.hasValue hd)]
  exact hunused i d hd v

omit hv in
lemma storesFilled_of_placed (hfilled : x.StoresFilled) : y.StoresFilled := by
  intro b hb i hi v hk
  have hmem := hplaced.mem_instsOf hi (by rw [hk]; rfl)
  have hin := hx.attached.hasInst hmem
  rw [hplaced.graph.order] at hb
  rw [hplaced.kind_eq hin] at hk
  rw [hplaced.operands_eq hin]
  exact hfilled b hb i hmem v hk

omit hv in
lemma within_of_placed (h : Admissible x entry) (hb : b ∈ x.order)
    (hnot : ¬Reachable (Edge x.succs) entry b) {pre post : List InstId}
    (hsplit : y.nonPhis b = pre ++ i :: post) (hd : .inst d ∈ (y.inst i).operands) : Within y entry pre d := by
  have hsuccs : y.succs = x.succs := funext hplaced.graph.succs
  obtain ⟨-, hd⟩ := operand_of_placed hplaced hd
  rw [hplaced.nonPhis] at hsplit
  have hlist : x.instsOf b = (x.phis b ++ pre) ++ i :: post := by
    rw [← phis_append_nonPhis, hsplit, append_assoc]
  obtain ⟨c, hc, hload⟩ := h.within b hb hnot _ i post d hlist hd
  have hin := hx.attached.hasInst hc
  have hmem : d ∈ y.instsOf c := by
    rw [hplaced.attached.mem_iff, block_of_bare (hplaced.old d hin)]
    exact (hx.attached.mem_iff c d).1 hc
  refine ⟨c, hmem, fun hk => ?_⟩
  rw [hplaced.kind_eq hin] at hk
  rw [hsuccs]
  refine (hload hk).imp_right fun hpre => (mem_append.1 hpre).resolve_left fun hphi => ?_
  obtain ⟨v, hk⟩ := hk
  have hisPhi := isPhi_of_mem_phis hphi
  simp [hk, Kind.isPhi] at hisPhi

/-! ## Renaming -/

section Rename

variable (h : Admissible x entry)

include haccesses h

lemma exists_rename {t : Trace Renaming} (hbody : t.state.body = y)
    (hm : Mirrors plan [] t.state) : ∃ t' out others r,
      rename (ofEntry x entry) plan t = .ok () t' ∧ Completed y plan entry (ofEntry x entry).idom?
        out (ofEntry x entry).preorder others r t'.state.body := by
  have hplan := planned_of_placed hx hv haccesses hplaced h.vars
  have hlinked := linked_of_verified hx hv
  have hsuccs : y.succs = x.succs := funext hplaced.graph.succs
  have hunused := storesUnused_of_placed hv hplaced h.unused
  have hfilled := storesFilled_of_placed hx hplaced h.filled
  have hstores := h.unused.noStoreOperands
  have hreach : ∀ b, b ∈ (ofEntry x entry).preorder ↔ Reachable (Edge x.succs) entry b := fun b =>
    mem_preorder_of_verified hx hv
  have horder : ∀ b, Reachable (Edge x.succs) entry b → b ∈ y.order := fun b hb => by
    rw [hplaced.graph.order]
    exact mem_order_of_reachable hx hv hb
  have hidom : ∀ a b, (ofEntry x entry).idom? b = some a ↔ IsIdom (Edge y.succs) entry a b :=
    fun a b => by rw [hsuccs]; exact idom?_eq_some_iff hlinked
  have hch : ∀ p c, c ∈ (ofEntry x entry).childrenAt p → IsIdom (Edge y.succs) entry p c :=
    fun p c hc => by rw [hsuccs]; exact ((mem_childrenAt_iff hlinked).1 hc).2
  have hrun : Run (ofEntry x entry).childrenAt _ _ [] [] _ := visits_run hlinked.entry_lt
  have hordered : ∀ b ∈ (ofEntry x entry).preorder, Ordered y plan entry b := fun b hb =>
    ordered_of_placed hx hv hplaced hstores ((hreach b).1 hb)
  have H : Tour y plan entry (ofEntry x entry).idom? [] [] t.state := .initial hplan hbody hm
  obtain ⟨t₁, hwalk, hend⟩ := H.exists_follow hrun hplan hunused hfilled hidom hch
    (fun b hb => horder b ((hreach b).1 hb)) hordered
  obtain ⟨out, r, _, T, S, hclean, m⟩ := hend.state
  cases S
  have horder₁ : t₁.state.body.order = x.order := by
    rw [T.renames.graph.order, hplaced.graph.order]
  let rest := x.order.filter fun b => !(ofEntry x entry).isReachable b
  have hrest : ∀ b, b ∈ rest ↔ b ∈ y.order ∧ b ∉ (ofEntry x entry).preorder := fun b => by
    rw [hplaced.graph.order, hreach, ← (exact_of_verified hx hv).reachable, mem_filter]
    simp
  have hwithin : ∀ b ∈ rest, ∀ pre i post d, y.nonPhis b = pre ++ i :: post →
      .inst d ∈ (y.inst i).operands → Within y entry pre d := fun b hb pre i post d hsplit hd => by
    obtain ⟨hb, hnot⟩ := (hrest b).1 hb
    rw [hreach] at hnot
    exact within_of_placed hx hplaced h (hplaced.graph.order ▸ hb) hnot hsplit hd
  obtain ⟨t', out', r', hunreached, T', hclean'⟩ := T.exists_unreached hplan hunused hfilled
    (fun a b => (hidom a b).1) hclean m (hx.nodup.filter _) fun b hb => ⟨((hrest b).1 hb).1, ((hrest b).1 hb).2,
      fun hreached => ((hrest b).1 hb).2 ((hreach b).2 (hsuccs ▸ hreached)),
      settling_of_within hunused (hwithin b hb) fun b hb => (hreach b).2 (hsuccs ▸ hb)⟩
  refine ⟨t', out', rest, r', bind_iff.2 ⟨(), t₁, hwalk, getState_bind_iff.2 ?_⟩, ?_⟩
  · rw [horder₁]
    exact hunreached
  · exact {
      planned := hplan
      toured := T'
      clean := hclean'
      unused := hunused
      seen_iff := fun b => by rw [hsuccs]; exact hreach b
      others_iff := hrest
      nodup := nodup_append.2 ⟨hrun.nodup .nil, hx.nodup.filter _, fun b hb c hc heq =>
        ((hrest c).1 hc).2 (heq ▸ hb)⟩
      order := fun b hb => horder b (hsuccs ▸ hb)
      idom_iff := hidom
      exists_idom := fun b hb hne => by
        rw [hsuccs] at hb ⊢
        exact hlinked.exists_isIdom hb hne
      known := fun b hb pre i post d hsplit hd =>
        (seen_of_placed hx hv hplaced hstores (hsuccs ▸ hb) hsplit hd).2
      within := hwithin }

end Rename

end Placed

end Verified

/-! ## The pass -/

lemma exists_analyze {α : Type} {request : Analyses.Request α} {compute : Body → Except Error α}
    {answer : α} {t : Trace Transform} (keep : Bool) (hr : request.Answers compute)
    (hbody : t.state.body = x) (hfresh : t.state.analyses.Fresh x) (hcompute : compute x = .ok answer) :
    ∃ t', Transform.analyze (get request · keep) t = .ok answer t' ∧
      t'.state.body = x ∧ t'.state.analyses.Fresh x := by
  obtain ⟨u, hfresh', hanswer⟩ := hr.get hfresh keep t.log
  rw [hcompute] at hanswer
  refine ⟨_, getState_bind_iff.2 (zoom_iff.2 ⟨u, ?_, rfl⟩), hbody, hfresh'⟩
  rw [hbody]
  exact hanswer

def Finished (x : Body) (entry : BlockId) (z : Body) : Prop :=
  ∃ plan x₁ out others r y dead, Promoted x entry plan x₁ out others r y dead z ∧
    Completed x₁ plan entry (ofEntry x entry).idom? out (ofEntry x entry).preorder others r y

section Run

variable (hx : x.Arranged) (hv : x.Verified entry) (h : Admissible x entry) (options : Options)

include hx hv h

lemma exists_promote (hbody : t.state = x) :
    ∃ t', promote options (ofEntry x entry) (.ofTree x (ofEntry x entry)) (.ofBody x) t = .ok () t' ∧
      Finished x entry t'.state := by
  subst hbody
  have hblocks : ∀ g ∈ (Accesses.ofBody t.state).globals, ∀ b ∈ phiBlocks t.state.blocks.size
      (.ofTree t.state (ofEntry t.state entry)) g.2, t.state.hasBlock b := by
    intro g hg b hb
    obtain ⟨hglobal, heq⟩ := Accesses.mem_globals_ofBody.1 hg
    rw [heq] at hb
    exact ((hx.mem_iff b).1 (of_mem_places hv (mem_places.2 ⟨hglobal, hb⟩)).2.1).1
  obtain ⟨phis, t₁, hphis⟩ := exists_insertPhis hx.attached hv.uses hblocks
  have hplaced := insertPhis_spec hx.attached hv.uses hphis
  let plan : RenamingPlan :=
    { accesses := .ofBody t.state, phis, warnOnUndefined := options.warnOnUndefined }
  let start : Renaming :=
    { body := t₁.state, reaching := Array.replicate plan.accesses.promotable.size [] }
  have haccesses : plan.accesses = .ofBody t.state := rfl
  obtain ⟨u, out, others, r, hrename, C⟩ := exists_rename (t := ⟨start, t₁.log⟩)
    hx hv haccesses hplaced h rfl (mirrors_initial plan t₁.state)
  obtain ⟨dead, hphi, hstripped, hclosed⟩ :=
    exists_stripped options C.toured.renames.attached C.toured.renames.uses hplaced.keys_nodup
      fun φ v hφ => C.toured.renames.isPhi_of_lookup C.planned.toHeaded hφ
  obtain ⟨t', hrun, hstate⟩ := promote_iff.2 ⟨phis, t₁, u, hphis, hrename, rfl⟩
  refine ⟨t', hrun, plan, t₁.state, out, others, r, u.state.body, dead, ?_, C⟩
  rw [hstate]
  have T := C.toured.weaken fun b _ a ha => (C.seen_iff a).2 ha.reachable_left
  exact ⟨h.vars, rfl, hplaced, T, hphi, hstripped, hclosed⟩

lemma exists_run {t : Trace Transform} (hbody : t.state.body = x)
    (hfresh : t.state.analyses.Fresh x) : ∃ changes t', run options t = .ok changes t' ∧
      (t'.state.body = x ∨ Finished x entry t'.state.body) := by
  have hcollect := Accesses.collect?_eq_ok_iff.2 ⟨h.vars, rfl⟩
  have hfound : ∀ o, Accesses.collect? x = .ok o →
      (MonadExcept.ofExcept (Accesses.collect? t.state.body) : Traced Transform _) t = .ok o t :=
    fun o ho => ofExcept_iff.2 ⟨hbody ▸ ho, rfl⟩
  by_cases hany : x.laidOutKinds.any (Accesses.ofBody x).concerns
  · rw [if_pos hany] at hcollect
    have htree := compute_eq hv.entry_eq
    have hfrontier : ofBody x = .ok (.ofTree x (ofEntry x entry)) := by
      rw [ofBody, htree]
      exact frontier_compute_eq hx hv
    obtain ⟨t₁, hrun₁, hbody₁, hfresh₁⟩ := exists_analyze true treeRequest_answers hbody hfresh htree
    obtain ⟨t₂, hrun₂, hbody₂, -⟩ := exists_analyze true frontierRequest_answers hbody₁ hfresh₁ hfrontier
    obtain ⟨u, hpromote, hfinished⟩ :=
      exists_promote hx hv h options (t := ⟨t₂.state.body, t₂.log⟩) hbody₂
    refine ⟨_, _, getState_bind_iff.2 (bind_iff.2 ⟨_, t, hfound _ hcollect, bind_iff.2 ⟨_, t₁, hrun₁,
      bind_iff.2 ⟨_, t₂, hrun₂, bind_iff.2 ⟨(), _, zoom_iff.2 ⟨u, hpromote, rfl⟩, pure_iff.2 ⟨rfl, rfl⟩⟩⟩⟩⟩),
      .inr hfinished⟩
  · rw [if_neg hany] at hcollect
    exact ⟨_, _, getState_bind_iff.2 (bind_iff.2 ⟨_, t, hfound _ hcollect, bind_iff.2 ⟨(), _, report_iff.2 rfl,
      pure_iff.2 ⟨rfl, rfl⟩⟩⟩), .inl hbody⟩

end Run

end Promotion

end MethodIR
