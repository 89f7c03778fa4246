import MethodIR.Proofs.PromotedBodies
import MethodIR.Proofs.Execution

/-!
# The values that reach a block

Where no phi is placed for a global variable, its value at the start of a block is the one at the end of
each block from which control comes (`Promotion.inherited_eq_out`).
-/

namespace MethodIR

open List FlowGraph DominatorTree DepthFirst Body Execution

variable {α β : Type}

lemma Lists.exists_lookup [DecidableEq α] {l : List (α × β)} {a : α}
    (h : a ∈ l.map Prod.fst) : ∃ b, l.lookup a = some b := by
  refine Option.ne_none_iff_exists'.1 fun hnone => ?_
  obtain ⟨q, hq, heq⟩ := mem_map.1 h
  simpa [heq] using lookup_eq_none_iff.1 hnone q hq

lemma Lists.lookup_map_append [DecidableEq α] {f : α → β} {l : List α} {a : α}
    (h : a ∈ l) (more : List (α × β)) : (l.map (fun a => (a, f a)) ++ more).lookup a = some (f a) := by
  induction l with
  | nil => simp at h
  | cons c l ih =>
    by_cases hac : a = c
    · simp [hac]
    · have hne : (a == c) = false := beq_false_of_ne hac
      simp [lookup_cons, hne, ih ((mem_cons.1 h).resolve_left hac)]

namespace Promotion

variable {x x₁ y z : Body} {entry a b p : BlockId} {plan : RenamingPlan} {out : BlockId → Values}
  {others : List BlockId} {r : Record} {dead is js : List InstId} {v : VarId} {i : InstId}
  {pre post : List InstId}

lemma Renamed.eq_of_no_store {ρ ρ' : Values}
    (hR : Renamed x plan r y b ρ is js ρ') (hno : ∀ i ∈ is, x.kind i ≠ .storeVar v) : ρ' v = ρ v := by
  induction hR with
  | nil => rfl
  | other _ _ ih => exact ih fun i hi => hno i (by simp [hi])
  | load _ _ _ _ _ ih => exact ih fun i hi => hno i (by simp [hi])
  | store hk _ _ _ _ _ ih =>
    rw [ih fun i hi => hno i (by simp [hi])]
    exact Function.update_of_ne (fun heq => hno _ (by simp) (heq ▸ hk)) _ _
  | narrow hk _ _ _ _ _ _ _ _ ih =>
    rw [ih fun i hi => hno i (by simp [hi])]
    exact Function.update_of_ne (fun heq => hno _ (by simp) (heq ▸ hk)) _ _

lemma isGlobal_of_load (horder : b ∈ x.order) (hsplit : x.nonPhis b = pre ++ i :: post)
    (hk : x.kind i = .loadVar v) (hv : x.hasVar v ∧ x.isPromotable v)
    (hno : ∀ j ∈ pre, x.kind j ≠ .storeVar v) : IsGlobal x v := by
  refine ⟨hv.1, hv.2, b, horder, ?_⟩
  have hphis : ((x.phis b).map x.kind).find? (fun k => k = .loadVar v || k = .storeVar v) = none := by
    refine find?_eq_none.2 fun k hk => ?_
    obtain ⟨φ, hφ, rfl⟩ := mem_map.1 hk
    have hphi := isPhi_of_mem_phis hφ
    cases hkind : x.kind φ <;> simp_all [Kind.isPhi]
  rw [loadsFirst, ← phis_append_nonPhis, hsplit]
  simp only [map_append, find?_append, hphis, Option.none_or, map_cons, hk]
  cases hpre : (pre.map x.kind).find? (fun k => k = .loadVar v || k = .storeVar v) with
  | none => simp
  | some k =>
    obtain ⟨j, hj, rfl⟩ := mem_map.1 (mem_of_find?_eq_some hpre)
    have hkj := find?_some hpre
    simp only [Bool.or_eq_true, decide_eq_true_eq, hno j hj, or_false] at hkj
    simp [hkj]

section Reaching

variable {φ d : InstId}

variable (hx : x.Arranged) (hv : x.Verified entry) (P : Promoted x entry plan x₁ out others r y dead z)

include hx hv P

lemma Promoted.planned : Planned x₁ plan := planned_of_placed hx hv P.accesses P.placed P.vars

lemma Promoted.placedPhi?_eq_none :
    placedPhi? x₁ plan b v = none ↔ (v, b) ∉ places x (.ofTree x (ofEntry x entry)) := by
  rw [Option.eq_none_iff_forall_ne_some]
  constructor
  · intro hnone hmem
    obtain ⟨φ, hφ, hblock⟩ := P.placed.exists_lookup hmem
    exact hnone φ ((placedPhi?_eq_some_iff (P.planned hx hv)).2 ⟨hφ, hblock⟩)
  · intro hnot φ hφ
    obtain ⟨hlookup, hblock⟩ := (placedPhi?_eq_some_iff (P.planned hx hv)).1 hφ
    obtain ⟨-, -, c, hc, hbare⟩ := P.placed.of_lookup hlookup
    obtain rfl : c = b := Option.some.inj ((block_of_bare hbare).symm.trans hblock)
    exact hnot hc

lemma Promoted.renamed (ha : Reachable (Edge x.succs) entry a) :
    Renamed x₁ plan r y a (opening x₁ plan (inherited (ofEntry x entry).idom? out a) a) (x.nonPhis a)
      (r.rest a) (out a) := by
  rw [← P.placed.nonPhis]
  exact P.toured.renamed a ((mem_preorder_of_verified hx hv).2 ha)

lemma Promoted.out_eq_inherited (ha : Reachable (Edge x.succs) entry a)
    (hstore : a ∉ storeBlocks x v) (hphi : (v, a) ∉ places x (.ofTree x (ofEntry x entry))) :
    out a v = inherited (ofEntry x entry).idom? out a v := by
  have hno : ∀ i ∈ x.nonPhis a, x₁.kind i ≠ .storeVar v := by
    intro i hi hk
    have hmem := mem_of_mem_nonPhis hi
    rw [P.placed.kind_eq (hx.attached.hasInst hmem)] at hk
    refine hstore (mem_filter.2 ⟨mem_order_of_reachable hx hv ha, ?_⟩)
    rw [storesTo, any_eq_true]
    exact ⟨i, hmem, by simpa using hk⟩
  rw [(P.renamed hx hv ha).eq_of_no_store hno, opening, (P.placedPhi?_eq_none hx hv).2 hphi]
  rfl

lemma Promoted.inherited_eq_out (hp : Reachable (Edge x.succs) entry p) (hedge : b ∈ x.succs p)
    (hglobal : IsGlobal x v) (hphi : (v, b) ∉ places x (.ofTree x (ofEntry x entry))) :
    inherited (ofEntry x entry).idom? out b v = out p v := by
  have hlinked := linked_of_verified hx hv
  have hlaid : LaidOut x entry := fun _ hb _ => mem_order_of_reachable hx hv hb
  have hb : Reachable (Edge x.succs) entry b := hp.snoc hedge
  have hne : b ≠ entry := by
    rintro rfl
    simpa [hv.entry_preds] using hlinked.pred_of_succ p b hp hedge
  obtain ⟨d, hd⟩ := hlinked.exists_isIdom hb hne
  rw [inherited_of_some ((idom?_eq_some_iff hlinked).2 hd)]
  -- no block from `p` up to `d` gives the variable a value
  have hup : ∀ a, Reachable (Edge x.succs) entry a → Dominates (Edge x.succs) entry d a →
      Dominates (Edge x.succs) entry a p → out a v = out d v := by
    intro a ha
    refine ha.idom_induction (motive := fun a => Dominates (Edge x.succs) entry d a →
      Dominates (Edge x.succs) entry a p → out a v = out d v)
      (fun b hb => hlinked.exists_isIdom hb) (fun hda _ => ?_) (fun e a he ih hda hap => ?_)
    · rw [hda.antisymm (root_dominates hda.reachable_left)]
    · by_cases hda' : d = a
      · rw [hda']
      have hab : ¬StrictlyDominates (Edge x.succs) entry a b := fun hab =>
        hda' (hda.antisymm (hd.2 a hab))
      have hfrontier := Frontier.mem_of_compute hlinked hlaid hb hne hp hedge hap hab
      have hnot : ¬(a ∈ storeBlocks x v ∨
          a ∈ phiBlocks x.blocks.size (.ofTree x (ofEntry x entry)) (storeBlocks x v)) := fun hdef =>
        hphi (mem_places.2 ⟨hglobal, mem_phiBlocks hdef hfrontier (hlinked.lt_of_reachable hb)⟩)
      rw [not_or] at hnot
      rw [P.out_eq_inherited hx hv hda.reachable hnot.1
        fun hmem => hnot.2 (mem_places.1 hmem).2, inherited_of_some ((idom?_eq_some_iff hlinked).2 he)]
      exact ih (he.2 d ⟨hda', hda⟩) (he.1.2.trans hap)
  exact (hup p hp (hd.1.2.of_edge hd.1.1 hp hedge) (.refl hp)).symm

/-! ## Operands -/

lemma Promoted.seen (hstores : x.NoStoreOperands) (hb : Reachable (Edge x.succs) entry b)
    (hsplit : x₁.nonPhis b = pre ++ i :: post) (hd : .inst d ∈ (x₁.inst i).operands) :
    Known x₁ plan d ∧ Seen x₁ entry b pre d :=
  seen_of_placed hx hv P.placed hstores hb hsplit hd

lemma Promoted.exists_incoming (hstores : x.NoStoreOperands)
    (hp : Reachable (Edge x.succs) entry p) (hedge : b ∈ x.succs p) (hφ : φ ∈ x₁.phis b)
    (hknown : plan.phis.lookup φ = none) : ∃ u, incoming? x₁ (some p) φ = some u ∧
      ∀ d, u = .inst d → Known x₁ plan d ∧ ∃ a, d ∈ x₁.instsOf a ∧ Dominates (Edge x.succs) entry a p := by
  have hlinked := linked_of_verified hx hv
  have hexact := exact_of_verified hx hv
  have hb := hp.snoc hedge
  have horder := mem_order_of_reachable hx hv hb
  have hin₁ : x₁.hasInst φ := P.placed.attached.hasInst (takeWhile_subset _ hφ)
  have hin := (P.placed.lookup_eq_none_iff hin₁).1 hknown
  have hmem := P.placed.mem_phis hin hφ
  have hargs := P.placed.phiArgs_eq hin
  have hpred := (hv.phis b horder φ hmem).2 p (hlinked.pred_of_succ p b hp hedge)
  obtain ⟨u, hu⟩ := Lists.exists_lookup hpred
  have hincoming : incoming? x₁ (some p) φ = some u := (congrArg (lookup p) hargs).trans hu
  refine ⟨u, hincoming, fun d hd => ?_⟩
  obtain ⟨blocks, slot, hkind, hblock, hslot⟩ := exists_slot hincoming
  rw [P.placed.kind_eq hin] at hkind
  rw [P.placed.operands_eq hin, hd] at hslot
  obtain ⟨before, after, hlist⟩ := append_of_mem (takeWhile_subset _ hmem)
  obtain ⟨home, hhome, havail⟩ := hv.operands b horder ((hexact.reachable b).2 hb) before φ after hlist slot d hslot
  have hdmem : d ∈ x.instsOf home := (hx.attached.mem_iff home d).2 hhome
  have hdin := hx.attached.hasInst hdmem
  have hdin₁ : x₁.hasInst d := hasInst_of_le (by simp [P.placed.size]) hdin
  refine ⟨⟨(P.placed.lookup_eq_none_iff hdin₁).2 hdin, fun v => ?_⟩, home, ?_, ?_⟩
  · rw [P.placed.kind_eq hdin]
    exact hstores b horder φ (takeWhile_subset _ hmem) d (mem_of_getElem? hslot) v
  · rw [P.placed.attached.mem_iff, block_of_bare (P.placed.old d hdin)]
    exact hhome
  · rw [hkind] at havail
    exact (dominates_iff_of_verified hx hv).1 (havail p hblock ((hexact.reachable p).2 hp))

lemma Promoted.incoming?_of_placed (hφ : plan.phis.lookup φ = some v)
    (hblock : (x₁.inst φ).block = some b) (hp : Reachable (Edge x.succs) entry p)
    (hedge : b ∈ x.succs p) : incoming? y (some p) φ = some (held x₁ (out p) v) := by
  obtain ⟨more, hargs, -⟩ := P.toured.args φ v b hφ hblock
  have hmem : p ∈ (ofEntry x entry).preorder.filter (b ∈ x₁.succs ·) := by
    rw [mem_filter, P.placed.graph.succs]
    exact ⟨(mem_preorder_of_verified hx hv).2 hp, by simpa using hedge⟩
  have hlookup : (y.phiArgs φ).lookup p = some (held x₁ (out p) v) := by
    rw [P.toured.renames.phiArgs_eq hφ, hargs]
    exact Lists.lookup_map_append hmem more
  exact hlookup

end Reaching

end Promotion

end MethodIR
