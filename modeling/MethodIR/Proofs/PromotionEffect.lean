import MethodIR.Proofs.IteratedFrontiers
import MethodIR.Proofs.LayoutHistories

/-!
# The effect of promotion

What a run of the pass does to any body (`Promotion.Effect`): no promotable access is left in the layout,
and only phis at the heads of blocks and conversions are new. A second run finds nothing to do.
-/

namespace MethodIR

open List FlowGraph Dominance DominatorTree DepthFirst Success Traced Body

namespace Promotion

/-- What promotion leaves of `x` as it is, and what it may add. -/
structure Framed (x z : Body) : Prop where
  graph : x.SameGraph z
  /-- Instructions that are no accesses are in their blocks, in the same order. -/
  list : ∀ b, ((z.instsOf b).filter fun i =>
      x.hasInst i && !(Accesses.ofBody x).concerns (x.kind i)) =
    (x.instsOf b).filter fun i => !(Accesses.ofBody x).concerns (x.kind i)
  old : ∀ i, x.hasInst i → z.kind i = x.kind i ∧ (z.inst i).ty = (x.inst i).ty
  /-- What has come into a block is new. A phi is at its head, with one argument for each
  predecessor. -/
  new : ∀ b, ∀ i ∈ z.instsOf b, i ∉ x.instsOf b → ¬x.hasInst i ∧ (z.kind i = .convert false false ∨
      i ∈ z.phis b ∧ ∃ sources, z.kind i = .phi sources ∧ sources.Perm (x.preds b) ∧
        (z.inst i).operands.length = sources.length)

/-- What promotion has made of `x`. -/
structure Effect (x z : Body) : Prop extends Framed x z where
  /-- No laid out instruction loads or stores a variable that could be promoted. -/
  cleared : ∀ b ∈ z.order, ∀ i ∈ z.instsOf b, ∀ v, x.isPromotable v → z.kind i ≠ .loadVar v ∧ z.kind i ≠ .storeVar v

variable {x x₁ y z : Body} {plan : RenamingPlan} {frontier : Frontier} {entry b : BlockId} {dead : List InstId}
  {i : InstId} {v : VarId} {k : Kind} {options : Options}

/-! ## The blocks renaming goes to -/

def itinerary (x : Body) (tree : DominatorTree) : List BlockId :=
  tree.preorder ++ x.order.filter fun b => !tree.isReachable b

section Itinerary

variable (h : Linked x entry)

include h

lemma mem_itinerary (hb : b ∈ x.order) : b ∈ itinerary x (ofEntry x entry) := by
  rw [itinerary, mem_append, mem_preorder_iff h, ← isReachable_iff h, mem_filter]
  cases (ofEntry x entry).isReachable b with
  | true => exact .inl rfl
  | false => exact .inr ⟨hb, rfl⟩

lemma itinerary_nodup (hx : x.order.Nodup) : (itinerary x (ofEntry x entry)).Nodup := by
  have hrun : Run (ofEntry x entry).childrenAt x.blocks.size entry [] [] (ofEntry x entry).walk :=
    visits_run h.entry_lt
  refine nodup_append.2 ⟨hrun.nodup nodup_nil, hx.filter _, ?_⟩
  rintro b hb _ hc rfl
  have hnot := (mem_filter.1 hc).2
  rw [(isReachable_iff h).2 ((mem_preorder_iff h).1 hb)] at hnot
  simp at hnot

end Itinerary

lemma itinerary_perm_preds (hx : x.Arranged)
    (hpreds : ∀ b, ∀ p ∈ x.preds b, (x.block p).isRemoved = false) (h : Linked x entry) :
    ((itinerary x (ofEntry x entry)).filter fun p => b ∈ x.succs p).Perm (x.preds b) := by
  refine (perm_ext_iff_of_nodup ((itinerary_nodup h hx.nodup).filter _) (hx.edges.preds_nodup b)).2 fun p => ?_
  rw [mem_filter, decide_eq_true_eq, hx.edges.symm]
  refine and_iff_right_of_imp fun hp => mem_itinerary h ((hx.mem_iff p).2 ⟨?_, hpreds b p hp⟩)
  exact (hx.edges.hasBlock ((hx.edges.symm p b).2 hp)).1

/-! ## The steps together -/

section Effect

variable {others : List BlockId} {r : Record} {idom : BlockId → Option BlockId} {out : BlockId → Values}
  (haccesses : plan.accesses = .ofBody x) (hplaced : Placed x plan.phis (places x frontier) x₁)
  (hplan : Headed x₁ plan) (T : Toured x₁ plan entry idom out [] others r y)
  (hdead : ∀ φ ∈ dead, ∃ v, plan.phis.lookup φ = some v) (hstripped : Stripped y dead z)
  (hclosed : ∀ i, i ∉ dead → (z.inst i).bare = (y.inst i).bare)

include hplaced in
lemma Placed.hasInst (hi : x.hasInst i) : x₁.hasInst i := hasInst_of_le (hplaced.size ▸ Nat.le_add_right _ _) hi

include hplaced hdead in
lemma Placed.not_mem_dead (hi : x.hasInst i) : i ∉ dead := by
  intro hmem
  obtain ⟨v, hv⟩ := hdead i hmem
  simp [(hplaced.lookup_eq_none_iff (hplaced.hasInst hi)).2 hi] at hv

include hplaced T hdead hclosed in
lemma Toured.kind_ty_eq (hi : x.hasInst i) : z.kind i = x.kind i ∧ (z.inst i).ty = (x.inst i).ty := by
  have hbare := hclosed i (hplaced.not_mem_dead hdead hi)
  have hi₁ := hplaced.hasInst hi
  have hkind := T.renames.kind_eq hi₁ ((hplaced.lookup_eq_none_iff hi₁).2 hi)
  have hty := ty_of_bare (hplaced.old i hi)
  exact ⟨(kind_of_bare hbare).trans (hkind.trans (hplaced.kind_eq hi)),
    (ty_of_bare hbare).trans ((T.renames.ty i hi₁).trans hty)⟩

include haccesses hplaced T hdead hstripped in
lemma Toured.filter_instsOf_eq (hx : x.Attached) (b : BlockId) :
    ((z.instsOf b).filter fun i => x.hasInst i && !(Accesses.ofBody x).concerns (x.kind i)) =
      (x.instsOf b).filter fun i => !(Accesses.ofBody x).concerns (x.kind i) := by
  let p : InstId → Bool := fun i => x.hasInst i && !(Accesses.ofBody x).concerns (x.kind i)
  have hp : ∀ i, p i → x.hasInst i ∧ plan.accesses.concerns (x.kind i) = false := fun i hi => by
    rw [haccesses]
    simpa [p] using hi
  -- Each step of promotion only filters a list further or adds what is not of `x`.
  have hdrop : ∀ (q : InstId → Bool) (l : List InstId), (∀ i, p i → q i) → (l.filter q).filter p = l.filter p := by
    intro q l hq
    rw [filter_filter]
    refine filter_congr fun i _ => ?_
    by_cases hi : p i
    · simp [hi, hq i hi]
    · simp [hi]
  obtain ⟨new, hphis, hnew⟩ := hplaced.phis b
  have hsplit : x₁.instsOf b = x.phis b ++ (new ++ x.nonPhis b) := by
    rw [← phis_append_nonPhis, hphis, hplaced.nonPhis, append_assoc]
  have hnone : new.filter p = [] := by
    refine filter_eq_nil_iff.2 fun φ hφ hpφ => ?_
    have hle := hnew φ hφ
    have hlt : φ.index < x.insts.size := by simpa [hasInst] using (hp φ hpφ).1
    omega
  have hrest : (r.rest b).filter p = (x₁.nonPhis b).filter p := by
    by_cases hb : b ∈ others
    · rw [← hdrop (x₁.hasInst ·) _ fun i hi => hplaced.hasInst (hp i hi).1, T.left b (.inr hb)]
      refine hdrop _ _ fun i hi => ?_
      obtain ⟨hin, hnot⟩ := hp i hi
      simp [hplaced.hasInst hin, hplaced.kind_eq hin, hnot]
    · rw [T.rest b (by simp) hb]
  calc (z.instsOf b).filter p = (y.instsOf b).filter p := by
        rw [hstripped.list, hdrop]
        exact fun i hi => by simpa using hplaced.not_mem_dead hdead (hp i hi).1
    _ = (x₁.instsOf b).filter p := by
      rw [T.renames.list, filter_append, hrest, ← filter_append, phis_append_nonPhis]
    _ = (x.instsOf b).filter p := by
      rw [hsplit, filter_append, filter_append, hnone, nil_append,
        ← filter_append, phis_append_nonPhis]
    _ = _ := filter_congr fun i hi => by simp [p, hx.hasInst hi]

include hplan T in
lemma Toured.mem_instsOf (hi : i ∈ y.instsOf b) (hx₁ : x₁.hasInst i) : i ∈ x₁.instsOf b := by
  rw [T.renames.list] at hi
  rw [← phis_append_nonPhis]
  exact mem_append.2 ((mem_append.1 hi).imp_right (T.renames.mem_nonPhis hplan hx₁))

include haccesses hplan T hstripped hclosed in
lemma Toured.not_concerns (hb : b ∈ others) (hi : i ∈ z.instsOf b) :
    (Accesses.ofBody x).concerns (z.kind i) = false := by
  obtain ⟨hi, hstays⟩ := hstripped.mem_instsOf.1 hi
  have hkind := kind_of_bare (hclosed i hstays)
  change z.kind i = y.kind i at hkind
  rw [hkind, ← haccesses]
  by_contra hacc
  rw [Bool.not_eq_false] at hacc
  have hnotPhi := plan.accesses.isPhi_of_concerns hacc
  have hx₁ : x₁.hasInst i := by
    by_contra hnew
    obtain ⟨ty, w, c, hbare⟩ := T.renames.new i (by simpa [hasInst] using hnew) (T.renames.attached.hasInst hi)
    rw [kind_of_bare hbare] at hacc
    cases hacc
  rw [T.renames.isPhi_eq hplan hx₁] at hnotPhi
  rw [T.renames.kind_eq hx₁ (hplan.lookup_eq_none hnotPhi)] at hacc
  exact T.renames.not_gone hi (T.gone hplan (.inr hb) (mem_nonPhis (T.mem_instsOf hplan hi hx₁) hnotPhi) hacc)

include hstripped hclosed in
lemma Stripped.mem_phis (hi : i ∈ y.phis b) (hnot : i ∉ dead) : i ∈ z.phis b := by
  have hsplit : z.instsOf b = (y.phis b).filter (· ∉ dead) ++ (y.nonPhis b).filter (· ∉ dead) := by
    rw [hstripped.list, ← phis_append_nonPhis, filter_append]
  have hphis : ∀ j ∈ (y.phis b).filter (· ∉ dead), (z.kind j).isPhi := by
    intro j hj
    obtain ⟨hj, hdead⟩ := mem_filter.1 hj
    rw [kind_of_bare (hclosed j (by simpa using hdead))]
    exact isPhi_of_mem_phis hj
  rw [phis, hsplit, takeWhile_append_of_pos hphis]
  exact mem_append_left _ (mem_filter.2 ⟨hi, by simpa using hnot⟩)

include hplaced hplan T hstripped hclosed in
lemma Toured.of_new (hx : x.Attached) (hi : i ∈ z.instsOf b) (hnot : i ∉ x.instsOf b) :
    ¬x.hasInst i ∧ (z.kind i = .convert false false ∨ i ∈ z.phis b ∧ ∃ sources, z.kind i = .phi sources ∧
      sources = others.filter (b ∈ x₁.succs ·) ∧ (z.inst i).operands.length = sources.length) := by
  obtain ⟨hi, hstays⟩ := hstripped.mem_instsOf.1 hi
  have hbare := hclosed i hstays
  have hkind := kind_of_bare hbare
  change z.kind i = y.kind i at hkind
  have hblock : x₁.hasInst i → (x₁.inst i).block = some b := fun hx₁ =>
    (hplaced.attached.mem_iff b i).1 (T.mem_instsOf hplan hi hx₁)
  have hnew : ¬x.hasInst i := fun hin => hnot <| (hx.mem_iff b i).2 <|
    (block_of_bare (hplaced.old i hin)).symm.trans (hblock (hplaced.hasInst hin))
  refine ⟨hnew, ?_⟩
  by_cases hx₁ : x₁.hasInst i
  · obtain ⟨v, hv⟩ := Option.ne_none_iff_exists'.1 (mt (hplaced.lookup_eq_none_iff hx₁).1 hnew)
    have hphi := T.renames.phi i v hv
    obtain ⟨more, hargs, hmore⟩ := T.args i v b hv (hblock hx₁)
    obtain ⟨c, hc, hmem⟩ := hplan.mem_phis hv
    obtain rfl : b = c := Option.some.inj ((hblock hx₁).symm.trans hc)
    have hmem' : i ∈ y.phis b := T.renames.phis_eq hplan b ▸ mem_append_left _ hmem
    refine .inr ⟨hstripped.mem_phis hclosed hmem' hstays, _, hkind.trans (kind_of_bare hphi), ?_, ?_⟩
    · simpa [hargs] using hmore
    · rw [operands_of_bare (hbare.trans hphi), length_map, length_map]
  · obtain ⟨ty, w, c, hconv⟩ := T.renames.new i (by simpa [hasInst] using hx₁) (T.renames.attached.hasInst hi)
    exact .inl (hkind.trans (kind_of_bare hconv))

end Effect

lemma Framed.mem_laidOutKinds (h : Framed x z) (hx : x.Attached)
    (hk : k ∈ z.laidOutKinds) : k ∈ x.laidOutKinds ∨ k.var? = none := by
  obtain ⟨b, hb, i, hi, rfl⟩ := Promotion.mem_laidOutKinds.1 hk
  by_cases hmem : i ∈ x.instsOf b
  · refine .inl (Promotion.mem_laidOutKinds.2 ⟨b, h.graph.order ▸ hb, i, hmem, ?_⟩)
    exact (h.old i (hx.hasInst hmem)).1.symm
  · obtain hkind | ⟨-, sources, hkind, -⟩ := (h.new b i hi hmem).2
    · exact .inr (by rw [hkind]; rfl)
    · exact .inr (by rw [hkind]; rfl)

lemma Framed.hasVar (h : Framed x z) (hx : x.Attached)
    (hvars : ∀ k ∈ x.laidOutKinds, ∀ v, k.var? = some v → x.hasVar v)
    (hk : k ∈ z.laidOutKinds) (hv : k.var? = some v) : x.hasVar v :=
  hvars k ((h.mem_laidOutKinds hx hk).resolve_right (by simp [hv])) v hv

lemma ne_of_not_concerns (hk : (Accesses.ofBody x).concerns k = false)
    (hvar : ∀ v, k.var? = some v → x.hasVar v) (hv : x.isPromotable v) : k ≠ .loadVar v ∧ k ≠ .storeVar v := by
  constructor
  · rintro rfl
    have hprom := Accesses.isPromotable_ofBody.2 ⟨hvar v rfl, hv⟩
    simp [Accesses.concerns, hprom] at hk
  · rintro rfl
    have hprom := Accesses.isPromotable_ofBody.2 ⟨hvar v rfl, hv⟩
    simp [Accesses.concerns, hprom] at hk

lemma Effect.refl (hx : x.Attached) (hvars : ∀ k ∈ x.laidOutKinds, ∀ v, k.var? = some v → x.hasVar v)
    (hnone : ¬x.laidOutKinds.any (Accesses.ofBody x).concerns) : Effect x x where
  graph := .refl x
  cleared b hb i hi v hv := by
    have hk : x.kind i ∈ x.laidOutKinds := mem_laidOutKinds.2 ⟨b, hb, i, hi, rfl⟩
    refine ne_of_not_concerns (Bool.eq_false_of_not_eq_true fun hacc => hnone ?_) (hvars _ hk) hv
    exact any_eq_true.2 ⟨_, hk, hacc⟩
  list b := filter_congr fun i hi => by simp [hx.hasInst hi]
  old _ _ := ⟨rfl, rfl⟩
  new _ _ hi hnot := absurd hi hnot

section Arranged

variable (hx : x.Arranged) (hpreds : ∀ b, ∀ p ∈ x.preds b, (x.block p).isRemoved = false)
  (hvars : ∀ k ∈ x.laidOutKinds, ∀ v, k.var? = some v → x.hasVar v)

include hx hpreds hvars

lemma Toured.effect {idom : BlockId → Option BlockId} (hlinked : Linked x entry)
    (haccesses : plan.accesses = .ofBody x) (hplaced : Placed x plan.phis (places x frontier) x₁)
    (hplan : Headed x₁ plan) (T : Toured x₁ plan entry idom out [] (itinerary x (ofEntry x entry)) r y)
    (hdead : ∀ φ ∈ dead, ∃ v, plan.phis.lookup φ = some v) (hstripped : Stripped y dead z)
    (hclosed : ∀ i, i ∉ dead → (z.inst i).bare = (y.inst i).bare) : Effect x z := by
  have hframed : Framed x z := by
    refine ⟨hplaced.graph.trans (T.renames.graph.trans hstripped.graph),
      T.filter_instsOf_eq haccesses hplaced hdead hstripped hx.attached,
      fun i => T.kind_ty_eq hplaced hdead hclosed, fun b i hi hnot => ?_⟩
    refine (T.of_new hplaced hplan hstripped hclosed hx.attached hi hnot).imp_right (Or.imp_right ?_)
    rintro ⟨hphi, sources, hkind, rfl, hlength⟩
    refine ⟨hphi, _, hkind, ?_, hlength⟩
    simp only [hplaced.graph.succs]
    exact itinerary_perm_preds hx hpreds hlinked
  refine ⟨hframed, fun b hb i hi v hv => ?_⟩
  have hb' : b ∈ itinerary x (ofEntry x entry) := mem_itinerary hlinked (hframed.graph.order ▸ hb)
  exact ne_of_not_concerns (T.not_concerns haccesses hplan hstripped hclosed hb' hi)
    (fun _ => hframed.hasVar hx.attached hvars (mem_laidOutKinds.2 ⟨b, hb, i, hi, rfl⟩)) hv

lemma promote_effect {t t' : Trace Body} (huses : x.ExactUses) (hentry : x.hasBlock entry) (hbody : t.state = x)
    (hrun : promote options (ofEntry x entry) frontier (.ofBody x) t = .ok () t') : Effect x t'.state := by
  subst hbody
  obtain ⟨phis, t₁, u, hphis, hrename, hstate⟩ := promote_iff.1 ⟨t', hrun, rfl⟩
  let plan : RenamingPlan :=
    { accesses := .ofBody t.state, phis, warnOnUndefined := options.warnOnUndefined }
  have hplaced : Placed t.state plan.phis (places t.state frontier) t₁.state := insertPhis_spec hx.attached huses hphis
  have hplan : Headed t₁.state plan := hplaced.headed hx.attached hx.edges.succs_nodup rfl
  obtain ⟨r, -, T⟩ := rename_induction (P := fun done r y _ => Toured t₁.state plan entry (fun _ => none)
    (fun _ _ => none) [] done r y) hplan (fun _ _ _ _ _ => id) (fun _ _ _ _ _ _ _ _ _ T => T.pass hplan (by simp))
    (.initial hplan) rfl (mirrors_initial plan t₁.state) hrename
  rw [hplaced.graph.order] at T
  obtain ⟨dead, hdead, hstripped, hclosed⟩ := exists_stripped options T.renames.attached T.renames.uses
    hplaced.keys_nodup fun φ v hφ => T.renames.isPhi_of_lookup hplan hφ
  rw [hstate]
  exact T.effect hx hpreds hvars (.of_symmetric hentry hx.edges.symm) rfl hplaced hplan hdead hstripped hclosed

end Arranged

/-! ## A second run -/

section Again

variable (h : Effect x z) (hx : x.Attached)

include h

lemma Effect.isPromotable (hv : z.isPromotable v) : x.isPromotable v := by
  rw [Body.isPromotable, Bool.and_eq_true, Bool.not_eq_true', ← Bool.not_eq_true, contains_iff_mem] at hv ⊢
  refine ⟨h.graph.var v ▸ hv.1, fun haddr => hv.2 ?_⟩
  obtain ⟨b, hb, i, hi, hk⟩ := mem_laidOutKinds.1 haddr
  have hmem : i ∈ (x.instsOf b).filter fun i => !(Accesses.ofBody x).concerns (x.kind i) :=
    mem_filter.2 ⟨hi, by rw [hk]; rfl⟩
  rw [← h.list, mem_filter, Bool.and_eq_true] at hmem
  refine mem_laidOutKinds.2 ⟨b, h.graph.order ▸ hb, i, hmem.1, ?_⟩
  exact (h.old i hmem.2.1).1.trans hk

include hx

lemma Effect.collect?_eq (hvars : ∀ k ∈ x.laidOutKinds, ∀ v, k.var? = some v → x.hasVar v) :
    Accesses.collect? z = .ok none := by
  refine Accesses.collect?_eq_ok_iff.2 ⟨fun k hk v hv => ?_, (if_neg fun hany => ?_).symm⟩
  · rw [h.graph.hasVar]
    exact h.hasVar hx hvars hk hv
  · obtain ⟨k, hk, hacc⟩ := any_eq_true.1 hany
    obtain ⟨b, hb, i, hi, rfl⟩ := mem_laidOutKinds.1 hk
    obtain ⟨v, hprom, hkind⟩ := (Accesses.ofBody z).exists_of_concerns hacc
    have hcleared := h.cleared b hb i hi v (h.isPromotable (Accesses.isPromotable_ofBody.1 hprom).2)
    exact hkind.elim hcleared.1 hcleared.2

end Again

lemma run_of_collect?_none {t : Trace Transform} (h : Accesses.collect? t.state.body = .ok none) :
    run options t = .ok {} ⟨t.state, t.log.push .nothingToPromote⟩ :=
  getState_bind_iff.2 (bind_iff.2 ⟨none, t, ofExcept_iff.2 ⟨h, rfl⟩,
    bind_iff.2 ⟨(), _, report_iff.2 rfl, pure_iff.2 ⟨rfl, rfl⟩⟩⟩)

/-- A run of the pass on a body with exact use lists and edges, whose layout has every block that is not
removed once, and in which no predecessor is removed. If it succeeds, whatever its options, it has its
effect, and a second run changes nothing. -/
theorem run_effect {options : Options} {t t' : Trace Transform} {changes : Invalidations}
    (hx : x.Arranged) (huses : x.ExactUses)
    (hpreds : ∀ b, ∀ p ∈ x.preds b, (x.block p).isRemoved = false) (hbody : t.state.body = x)
    (hfresh : t.state.analyses.Fresh x) (hrun : run options t = .ok changes t') : Effect x t'.state.body ∧
      ∀ (again : Options) (u : Trace Transform), u.state.body = t'.state.body →
        run again u = .ok {} ⟨u.state, u.log.push .nothingToPromote⟩ := by
  obtain ⟨hvars, hcases⟩ := run_cases hbody hfresh hrun
  have heffect : Effect x t'.state.body := by
    obtain ⟨hnone, hz⟩ | ⟨tree, frontier, u, u', htree, -, hu, hpromote, hz⟩ := hcases
    · rw [hz]
      exact .refl hx.attached hvars hnone
    · obtain ⟨entry, hentry⟩ : ∃ entry, x.entry = some entry := by
        refine Option.ne_none_iff_exists'.1 fun hnone => ?_
        simp [compute, hnone] at htree
      obtain rfl := Except.ok.inj ((compute_eq hentry).symm.trans htree)
      rw [hz]
      exact promote_effect hx hpreds hvars huses (hx.anchored entry hentry) hu hpromote
  refine ⟨heffect, fun again u hu => run_of_collect?_none ?_⟩
  rw [hu]
  exact heffect.collect?_eq hx.attached hvars

/-- Block 0 stores more than variable 0 holds. Block 3, where it is loaded, has a phi after the load and
takes the address of variable 1. Control does not reach block 4, which goes to block 3 as well, and
block 5 is removed. -/
def belatedPhiSteps : List Op :=
  [.createVar .u8 (.local 0), .createVar .i32 (.local 1), .createBlock none, .createBlock none,
    .createBlock none, .createBlock none, .createBlock none, .createBlock none, .removeBlock ⟨5⟩,
    .createInst (.storeVar ⟨0⟩) [.arg ⟨0⟩] .void, .insertLast ⟨0⟩ ⟨0⟩,
    .createInst (.branch ⟨1⟩ ⟨2⟩) [.arg ⟨0⟩] .void, .setTerminator ⟨0⟩ ⟨1⟩,
    .createInst (.storeVar ⟨0⟩) [.const (.i32 1)] .void, .insertLast ⟨1⟩ ⟨2⟩, .setJump ⟨1⟩ ⟨3⟩,
    .setJump ⟨2⟩ ⟨3⟩,
    .createInst (.loadVar ⟨0⟩) [] .u8, .insertLast ⟨4⟩ ⟨5⟩,
    .createInst (.storeVar ⟨0⟩) [.inst ⟨5⟩] .void, .insertLast ⟨4⟩ ⟨6⟩, .setJump ⟨4⟩ ⟨3⟩,
    .createInst (.loadVar ⟨0⟩) [] .u8, .insertLast ⟨3⟩ ⟨8⟩,
    .createInst (.phi []) [] .i32, .insertLast ⟨3⟩ ⟨9⟩,
    .createInst (.varAddr ⟨1⟩) [] (.byRef .i32), .insertLast ⟨3⟩ ⟨10⟩,
    .createInst (.storeVar ⟨1⟩) [.inst ⟨9⟩] .void, .insertLast ⟨3⟩ ⟨11⟩,
    .createInst .ret [.inst ⟨8⟩] .void, .setTerminator ⟨3⟩ ⟨12⟩]

def belatedPhi : Body := (Op.placingAfterAll? belatedPhiSteps (empty [.i32] .u8)).getD default

lemma belatedPhi_placing : Op.placingAfterAll? belatedPhiSteps (empty [.i32] .u8) = some belatedPhi :=
  eq_some_getD (by decide)

theorem belatedPhi_effect : ∃ changes t',
    run {} ⟨{ body := belatedPhi }, #[]⟩ = .ok changes t' ∧ Effect belatedPhi t'.state.body ∧
      run { removeDeadPhis := false } t' = .ok {} ⟨t'.state, t'.log.push .nothingToPromote⟩ := by
  have hdone : (traceOf? {} belatedPhi).any fun _ => true := by cbv
  obtain ⟨changes, t', hrun, -⟩ := exists_of_traceOf? hdone
  obtain ⟨heffect, hagain⟩ := run_effect (Op.arranged_of_placing belatedPhi_placing)
    (Op.exactUses_of_afterAll (Op.afterAll_of_placing belatedPhi_placing))
    (preds_live_of_all (by decide +kernel)) rfl Analyses.fresh_empty hrun
  exact ⟨changes, t', hrun, heffect, hagain _ t' rfl⟩

/-- The address of the variable that block 0 loads is taken in a removed block. -/
def hiddenAddressSteps : List Op :=
  [.createVar .i32 (.local 0), .createBlock none, .createBlock none, .removeBlock ⟨1⟩,
    .createInst (.varAddr ⟨0⟩) [] (.byRef .i32), .insertLast ⟨1⟩ ⟨0⟩,
    .createInst (.loadVar ⟨0⟩) [] .i32, .insertLast ⟨0⟩ ⟨1⟩,
    .createInst .ret [.inst ⟨1⟩] .void, .setTerminator ⟨0⟩ ⟨2⟩]

def hiddenAddress : Body := (Op.placingAfterAll? hiddenAddressSteps (empty [] .i32)).getD default

/-- An address taken where control cannot get does not keep a variable from being promoted: the load is
taken out of block 0. -/
theorem hiddenAddress_promoted : hiddenAddress.Arranged ∧ hiddenAddress.ExactUses ∧
      (∀ b, ∀ p ∈ hiddenAddress.preds b, (hiddenAddress.block p).isRemoved = false) ∧
      hiddenAddress.kind ⟨0⟩ = .varAddr ⟨0⟩ ∧ (hiddenAddress.inst ⟨0⟩).block = some ⟨1⟩ ∧
      hiddenAddress.kind ⟨1⟩ = .loadVar ⟨0⟩ ∧ (hiddenAddress.inst ⟨1⟩).block = some ⟨0⟩ ∧
      ∃ changes t', run {} ⟨{ body := hiddenAddress }, #[]⟩ = .ok changes t' ∧
        (t'.state.body.inst ⟨1⟩).block = none := by
  have hplacing : Op.placingAfterAll? hiddenAddressSteps (empty [] .i32) = some hiddenAddress := eq_some_getD (by decide)
  have hdone : (traceOf? {} hiddenAddress).any fun t => (t.state.body.inst ⟨1⟩).block.isNone := by cbv
  obtain ⟨changes, t', hrun, hblock⟩ := exists_of_traceOf? hdone
  refine ⟨Op.arranged_of_placing hplacing, Op.exactUses_of_afterAll (Op.afterAll_of_placing hplacing),
    preds_live_of_all (by decide +kernel), by decide +kernel, by decide +kernel,
    by decide +kernel, by decide +kernel, changes, t', hrun, by simpa using hblock⟩

end Promotion

end MethodIR
