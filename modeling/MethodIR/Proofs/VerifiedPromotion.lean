import MethodIR.Proofs.Arities
import MethodIR.Proofs.CompletedPromotion

/-!
# Promoted bodies are verified

Promotion leaves a verified body if it was given one (`Promotion.Finished.verified`): operands have been
evaluated where they are used, and a placed phi has one argument for each predecessor.
-/

namespace MethodIR

open List FlowGraph Dominance DominatorTree DepthFirst Body

lemma Lists.forall_mem_dropLast_iff {α : Type} {p : α → Prop} {l : List α} :
    (∀ i ∈ l.dropLast, p i) ↔ l.Pairwise fun i _ => p i := by
  induction l with
  | nil => simp
  | cons i l ih =>
    cases l with
    | nil => simp
    | cons j l =>
      rw [dropLast_cons_cons, forall_mem_cons, ih, pairwise_cons (l := j :: l)]
      have hhead : p i ↔ ∀ k ∈ j :: l, p i := ⟨fun hi _ _ => hi, fun h => h j (by simp)⟩
      exact and_congr_left fun _ => hhead

namespace Promotion

variable {x x₁ y : Body} {plan : RenamingPlan} {entry b c a : BlockId}
  {idom : BlockId → Option BlockId} {out : BlockId → Values} {seen others blocks : List BlockId}
  {r : Record} {i k d φ : InstId} {is js : List InstId} {v : VarId} {ρ ρ' : Values}

/-! ## The instructions of a block -/

section Kinds

variable (hkind : ∀ i ∈ is, y.kind i = x.kind i)

include hkind

lemma Renamed.successors (hR : Renamed x plan r y b ρ is js ρ') :
    js.flatMap (fun k => (y.kind k).successors) = is.flatMap fun i => (x.kind i).successors := by
  induction hR with
  | nil => rfl
  | other _ _ ih =>
    rw [flatMap_cons, flatMap_cons, hkind _ (by simp), ih fun i hi => hkind i (by simp [hi])]
  | load hk _ _ _ _ ih =>
    rw [flatMap_cons, ih fun i hi => hkind i (by simp [hi]), hk]
    rfl
  | store hk _ _ _ _ _ ih =>
    rw [flatMap_cons, ih fun i hi => hkind i (by simp [hi]), hk]
    rfl
  | narrow hk _ _ _ _ _ _ hj _ ih =>
    rw [flatMap_cons, flatMap_cons, ih fun i hi => hkind i (by simp [hi]), hk, kind_of_bare hj]
    rfl

lemma Renamed.terminatorLast (hR : Renamed x plan r y b ρ is js ρ')
    (h : is.Pairwise fun i _ => ¬(x.kind i).isTerminator) :
    js.Pairwise fun k _ => ¬(y.kind k).isTerminator := by
  induction hR with
  | nil => exact .nil
  | @other _ _ i is js _ rest ih =>
    obtain ⟨hi, h⟩ := pairwise_cons.1 h
    refine pairwise_cons.2 ⟨fun k hk => ?_, ih (fun i hi => hkind i (by simp [hi])) h⟩
    obtain ⟨l, hl⟩ := exists_mem_of_ne_nil is fun hnil => by
      subst hnil
      cases rest
      simp at hk
    rw [hkind i (by simp)]
    exact hi l hl
  | load _ _ _ _ _ ih => exact ih (fun i hi => hkind i (by simp [hi])) (pairwise_cons.1 h).2
  | store _ _ _ _ _ _ ih => exact ih (fun i hi => hkind i (by simp [hi])) (pairwise_cons.1 h).2
  | narrow _ _ _ _ _ _ _ hj _ ih =>
    refine pairwise_cons.2 ⟨fun k _ => ?_, ih (fun i hi => hkind i (by simp [hi])) (pairwise_cons.1 h).2⟩
    rw [kind_of_bare hj]
    simp [conversion, Kind.isTerminator]

omit hkind in
lemma Renamed.getLast? (hR : Renamed x plan r y b ρ is js ρ') (hi : is.getLast? = some i)
    (hacc : plan.accesses.concerns (x.kind i) = false) : js.getLast? = some i := by
  have hstep : ∀ {k : InstId} {ks : List InstId}, (k :: ks).getLast? = some i →
      plan.accesses.concerns (x.kind k) → ks.getLast? = some i := by
    intro k ks hlast hk
    cases ks with
    | nil =>
      obtain rfl : k = i := by simpa using hlast
      simp [hk] at hacc
    | cons l ks => rwa [getLast?_cons_cons] at hlast
  induction hR with
  | nil => exact hi
  | @other _ _ k is js _ rest ih =>
    cases his : is with
    | nil =>
      subst his
      cases rest
      exact hi
    | cons l ls =>
      rw [his, getLast?_cons_cons, ← his] at hi
      rw [getLast?_cons, ih hi]
      rfl
  | load hk hv _ _ _ ih => exact ih (hstep hi (by simpa [hk, Accesses.concerns] using hv))
  | store hk hv _ _ _ _ ih => exact ih (hstep hi (by simpa [hk, Accesses.concerns] using hv))
  | narrow hk hv _ _ _ _ _ _ _ ih =>
    rw [getLast?_cons, ih (hstep hi (by simpa [hk, Accesses.concerns] using hv))]
    rfl

end Kinds

/-! ## What is there after renaming -/

section Completed

variable (C : Completed x plan entry idom out seen others r y)

include C

lemma Completed.mem (hb : b ∈ x.order) : b ∈ seen ++ others := by
  by_cases hseen : b ∈ seen
  · exact mem_append_left _ hseen
  · exact mem_append_right _ ((C.others_iff b).2 ⟨hb, hseen⟩)

lemma Completed.live (hloose : x.Loose) (hk : k ∈ y.instsOf b) : (y.inst k).isRemoved = false := by
  have hr := C.toured.renames
  by_cases hin : x.hasInst k
  · obtain ⟨hblock, hremoved⟩ := C.standing hin (hr.not_gone hk)
    rw [hremoved]
    by_contra hnot
    have hnone := hloose k (by simpa using hnot)
    rw [← hblock, (hr.attached.mem_iff b k).1 hk] at hnone
    simp at hnone
  · obtain ⟨ty, w, c, hbare⟩ := hr.new k (by simpa [hasInst] using hin) (hr.attached.hasInst hk)
    exact isRemoved_of_bare hbare

lemma Completed.housed_live (hloose : x.Loose) (h : Housed y (.inst d)) : (y.inst d).isRemoved = false := by
  obtain ⟨c, hc⟩ := h d rfl
  exact C.live hloose hc

lemma Completed.operand_live (hloose : x.Loose)
    (hlive : ∀ i d, .inst d ∈ (x.inst i).operands → (x.inst d).isRemoved = false)
    (hd : .inst d ∈ (y.inst k).operands) : (y.inst d).isRemoved = false := by
  have hr := C.toured.renames
  have hin := hasInst_of_mem_operands hd
  by_cases hold : x.hasInst k
  · by_cases hgone : r.gone k
    · rw [operands_of_bare (hr.lost k hgone).2.2] at hd
      cases hd
    cases hφ : plan.phis.lookup k with
    | some v =>
      rw [operands_of_bare (hr.phi k v hφ)] at hd
      obtain ⟨q, hq, heq⟩ := mem_map.1 hd
      exact C.housed_live hloose (heq ▸ C.housed_of_arg hφ hq)
    | none =>
      rw [hr.operands_eq hold hgone hφ] at hd
      obtain ⟨u, hu, heq⟩ := mem_map.1 hd
      by_cases hinst : ∃ e, u = .inst e
      · obtain ⟨e, rfl⟩ := hinst
        cases hblock : (x.inst e).block with
        | some c =>
          have hmem := (C.planned.attached.mem_iff c e).2 hblock
          exact C.housed_live hloose (heq ▸ C.housed_sub hmem (C.unused k e hu))
        | none =>
          -- it was in no block, so it stands for itself
          have hstays : ¬r.gone e := fun hg => by
            obtain ⟨-, ⟨c, hc⟩, -⟩ := hr.lost e hg
            simp [hblock] at hc
          rw [C.clean.fresh e hstays] at heq
          obtain rfl := Value.inst.inj heq
          rw [(C.standing (C.planned.uses.hasValue hu) hstays).2]
          exact hlive k e hu
      · have hsettled : Settled x plan.accesses u := fun e _ he _ => absurd ⟨e, he⟩ hinst
        rw [hr.settled u hsettled] at heq
        exact absurd ⟨d, heq⟩ hinst
  · have hnew : x.insts.size ≤ k.index := by simpa [hasInst] using hold
    obtain ⟨ty, w, b, hbare⟩ := hr.new k hnew hin
    have hmem := (hr.attached.mem_iff b k).2 (block_of_bare hbare)
    have hout : ∀ c, k ∉ x.instsOf c := fun c hc => hold (C.planned.attached.hasInst hc)
    rw [hr.list] at hmem
    have hrest := (mem_append.1 hmem).resolve_left fun hphi => hout b (takeWhile_subset _ hphi)
    obtain ⟨ks, post, hsplit⟩ := append_of_mem hrest
    by_cases hseen : b ∈ seen
    · have hreach := (C.seen_iff b).1 hseen
      rcases C.seen_of_rest hreach hsplit hd with hphi | hpre | ⟨a, ha, -⟩
      · exact C.live hloose (takeWhile_subset _ hphi)
      · refine C.live hloose (b := b) ?_
        rw [hr.list, hsplit]
        simp [hpre]
      · exact C.live hloose ha
    · by_cases hothers : b ∈ others
      · exact C.housed_live hloose ((C.carry_others hothers).2 ks k post hsplit _ hd)
      · rw [C.toured.rest b (by simp [hseen, hothers]) (by simp)] at hrest
        exact absurd (mem_of_mem_nonPhis hrest) (hout b)

end Completed

/-! ## Availability -/

lemma linked_of_sameGraph (h : Linked x entry) (hg : x.SameGraph y) : Linked y entry := by
  have hsuccs : y.succs = x.succs := funext hg.succs
  have hpreds : y.preds = x.preds := funext hg.preds
  obtain ⟨hentry, hlt, hpred, hsucc⟩ := h
  rw [← hg.size] at hentry
  rw [← hsuccs, ← hg.size] at hlt
  rw [← hsuccs, ← hpreds] at hpred hsucc
  exact ⟨hentry, hlt, hpred, hsucc⟩

lemma laidOut_of_sameGraph (h : LaidOut x entry) (hg : x.SameGraph y) : LaidOut y entry := by
  rw [LaidOut, show y.succs = x.succs from funext hg.succs, hg.order]
  exact h

section Available

variable {ks pre : List InstId} {slot : Nat} (hlinked : Linked y entry) (hlaid : LaidOut y entry)
  (hattached : y.Attached)

include hlinked hlaid hattached

lemma available_of_seen (hphi : (y.kind i).isPhi = false) (hphis : y.phis b ⊆ pre) (hks : ks ⊆ pre)
    (hpre : pre ⊆ y.instsOf b) (hseen : Seen y entry b ks d) :
    Verify.Available y (ofEntry y entry) b pre.reverse i slot d := by
  have havail : ∀ home, (y.inst d).block = some home →
      (if home = b then d ∈ pre.reverse else (ofEntry y entry).strictlyDominates home b) →
      Verify.Available y (ofEntry y entry) b pre.reverse i slot d := fun home hhome hif => by
    refine ⟨home, hhome, ?_⟩
    cases hk : y.kind i with
    | phi blocks => simp [hk, Kind.isPhi] at hphi
    | _ => exact hif
  have hlocal : d ∈ pre → Verify.Available y (ofEntry y entry) b pre.reverse i slot d := fun hd =>
    havail b ((hattached.mem_iff b d).1 (hpre hd)) (by simpa using hd)
  rcases hseen with hd | hd | ⟨a, ha, hdom⟩
  · exact hlocal (hphis hd)
  · exact hlocal (hks hd)
  · refine havail a ((hattached.mem_iff a d).1 ha) ?_
    rw [if_neg hdom.1]
    exact (strictlyDominates_iff_of_laidOut hlinked hlaid).2 hdom

lemma available_of_above (hk : y.kind i = .phi blocks)
    (hhoused : Housed y (.inst d)) (habove : ∀ p, blocks[slot]? = some p →
      Reachable (Edge y.succs) entry p → Above y entry p (.inst d)) :
    Verify.Available y (ofEntry y entry) b pre.reverse i slot d := by
  obtain ⟨home, hmem⟩ := hhoused d rfl
  have hhome := (hattached.mem_iff home d).1 hmem
  refine ⟨home, hhome, ?_⟩
  rw [hk]
  intro p hp hreach
  obtain ⟨c, hc, hdom⟩ := habove p hp ((Frontier.isReachable_iff_reachable hlinked hlaid).1 hreach) d rfl
  obtain rfl := hattached.eq_of_mem hmem hc
  exact (dominates_iff_of_laidOut hlinked hlaid).2 hdom

end Available

/-! ## The rules -/

lemma successors_of_isPhi {k : Kind} (h : k.isPhi) : k.successors = [] := by
  cases k with
  | phi blocks => rfl
  | _ => cases h

lemma isTerminator_of_isPhi {k : Kind} (h : k.isPhi) : ¬k.isTerminator := by
  cases k with
  | phi blocks => simp [Kind.isTerminator]
  | _ => cases h

lemma targets_eq_flatMap_nonPhis (x : Body) (b : BlockId) :
    x.targets b = (x.nonPhis b).flatMap fun i => (x.kind i).successors := by
  have hphis : (x.phis b).flatMap (fun i => (x.kind i).successors) = [] := by
    refine flatMap_eq_nil_iff.2 fun i hi => ?_
    exact successors_of_isPhi (isPhi_of_mem_phis hi)
  rw [targets, ← phis_append_nonPhis, flatMap_append, hphis, nil_append]

section Rules

variable (hx : x.Arranged) (hv : x.Verified entry)
  (hplaced : Placed x plan.phis (places x (.ofTree x (ofEntry x entry))) x₁)
  (C : Completed x₁ plan entry idom out seen others r y) (hb : b ∈ x.order)

include C

lemma Completed.phis_eq (hb : b ∈ x₁.order) : y.phis b = x₁.phis b ∧ y.nonPhis b = r.rest b := by
  have hphis := C.toured.renames.phis C.planned hb
  refine ⟨hphis, ?_⟩
  have hlist := C.toured.renames.list b
  rw [← phis_append_nonPhis, hphis] at hlist
  exact append_cancel_left hlist

include hx hplaced hb

omit hx in
lemma Completed.renamed : Renamed x₁ plan r y b (opening x₁ plan (inherited idom out b) b) (x.nonPhis b)
    (r.rest b) (out b) := by
  rw [← hplaced.nonPhis]
  exact C.toured.renamed b (C.mem (hplaced.graph.order ▸ hb))

lemma Completed.kind_eq (hi : i ∈ x.nonPhis b) : x₁.kind i = x.kind i ∧ y.kind i = x₁.kind i := by
  refine ⟨hplaced.kind_eq (hx.attached.hasInst (mem_of_mem_nonPhis hi)), ?_⟩
  have hi₁ : i ∈ x₁.nonPhis b := hplaced.nonPhis b ▸ hi
  exact C.toured.renames.kind_eq (C.planned.hasInst_of_nonPhis hi₁)
    (C.planned.lookup_eq_none (C.planned.nonPhis b (hplaced.graph.order ▸ hb) i hi₁))

lemma Completed.targets_eq : y.targets b = x.targets b := by
  have hR := C.renamed hplaced hb
  rw [targets_eq_flatMap_nonPhis, targets_eq_flatMap_nonPhis, (C.phis_eq (hplaced.graph.order ▸ hb)).2,
    hR.successors fun i hi => (C.kind_eq hx hplaced hb hi).2]
  exact flatMap_congr fun i hi => by rw [(C.kind_eq hx hplaced hb hi).1]

lemma Completed.terminatorLast (h : ∀ i ∈ (x.instsOf b).dropLast, ¬(x.kind i).isTerminator) :
    ∀ i ∈ (y.instsOf b).dropLast, ¬(y.kind i).isTerminator := by
  have hR := C.renamed hplaced hb
  obtain ⟨hphis, -⟩ := C.phis_eq (hplaced.graph.order ▸ hb)
  have hphi : ∀ i ∈ x₁.phis b, ¬(y.kind i).isTerminator := fun i hi =>
    isTerminator_of_isPhi (isPhi_of_mem_phis (hphis ▸ hi))
  rw [Lists.forall_mem_dropLast_iff] at h ⊢
  rw [C.toured.renames.list, pairwise_append]
  refine ⟨pairwise_of_forall_mem_list fun i hi _ _ => hphi i hi, ?_, fun i hi _ _ => hphi i hi⟩
  refine hR.terminatorLast (fun i hi => (C.kind_eq hx hplaced hb hi).2) ?_
  refine (h.sublist (dropWhile_sublist _)).imp_of_mem fun {i _} hi _ hnot => ?_
  rwa [(C.kind_eq hx hplaced hb hi).1]

lemma Completed.terminated (h : (x.terminator? b).isSome) : (y.terminator? b).isSome := by
  obtain ⟨i, hlast, hterm⟩ := terminator?_isSome_iff.1 h
  have hrest : (x.nonPhis b).getLast? = some i := by
    rw [← phis_append_nonPhis, getLast?_append] at hlast
    cases hnon : (x.nonPhis b).getLast? with
    | some j => simpa [hnon] using hlast
    | none =>
      rw [hnon, Option.none_or] at hlast
      have hphi := isPhi_of_mem_phis (mem_of_getLast? hlast)
      exact absurd hterm (isTerminator_of_isPhi hphi)
  obtain ⟨hold, hkind⟩ := C.kind_eq hx hplaced hb (mem_of_getLast? hrest)
  have hacc : plan.accesses.concerns (x₁.kind i) = false := by
    rw [hold]
    by_contra hacc
    obtain ⟨v, -, hk | hk⟩ := plan.accesses.exists_of_concerns (by simpa using hacc)
    all_goals simp [hk, Kind.isTerminator] at hterm
  have hR := C.renamed hplaced hb
  refine terminator?_isSome_iff.2 ⟨i, ?_, ?_⟩
  · rw [C.toured.renames.list, getLast?_append, hR.getLast? hrest hacc]
    rfl
  · rwa [hkind, hold]

lemma Completed.phis_rule (hv : x.Verified entry) (hpreds : ∀ p ∈ x.preds b, p ∈ x.order)
    (hi : i ∈ y.phis b) : (y.phiArgs i).length = (y.preds b).length ∧
      ∀ p ∈ y.preds b, p ∈ (y.phiArgs i).map Prod.fst := by
  have hr := C.toured.renames
  have hg := hplaced.graph.trans hr.graph
  rw [(C.phis_eq (hplaced.graph.order ▸ hb)).1] at hi
  have hmem := takeWhile_subset _ hi
  have hin₁ := C.planned.attached.hasInst hmem
  rw [hg.preds]
  cases hφ : plan.phis.lookup i with
  | some v =>
    have hperm : ((r.args i).map Prod.fst).Perm (x.preds b) := by
      rw [C.toured.args_eq hφ ((C.planned.attached.mem_iff b i).1 hmem), map_map, Function.comp_def, map_id']
      refine (perm_ext_iff_of_nodup (C.nodup.filter _) (hx.edges.preds_nodup b)).2 fun p => ?_
      rw [mem_filter, decide_eq_true_eq, hplaced.graph.succs, ← hx.edges.symm p b]
      refine and_iff_right_of_imp fun hp => C.mem ?_
      rw [hplaced.graph.order]
      exact hpreds p ((hx.edges.symm p b).1 hp)
    rw [hr.phiArgs_eq hφ]
    exact ⟨by simpa using hperm.length_eq, fun p hp => hperm.mem_iff.2 hp⟩
  | none =>
    have hin := (hplaced.lookup_eq_none_iff hin₁).1 hφ
    have hgone := hr.not_gone_of_isPhi (isPhi_of_mem_phis hi)
    have hargs : y.phiArgs i = (x.phiArgs i).map (Prod.map id r.sub) := by
      rw [← hplaced.phiArgs_eq hin, phiArgs, phiArgs, hr.kind_eq hin₁ hφ,
        hr.operands_eq hin₁ hgone hφ]
      cases x₁.kind i with
      | phi blocks => exact zip_map_right
      | _ => rfl
    rw [hargs, length_map, map_map]
    exact hv.phis b hb i (hplaced.mem_phis hin hi)

end Rules

lemma Above.of_dominates {w : Value} (h : Above y entry a w)
    (hdom : Dominates (Edge y.succs) entry a b) : Above y entry b w := fun j hj => by
  obtain ⟨c, hc, hca⟩ := h j hj
  exact ⟨c, hc, hca.trans hdom⟩

section Operands

variable (hx : x.Arranged) (hv : x.Verified entry)
  (hplaced : Placed x plan.phis (places x (.ofTree x (ofEntry x entry))) x₁)
  (C : Completed x₁ plan entry idom out seen others r y) {pre post : List InstId} {slot : Nat}
  (hd : (y.inst i).operands[slot]? = some (.inst d))

include hx hv hplaced C hd

lemma Completed.available_of_phi (hi : i ∈ x₁.phis b) (hb : Reachable (Edge x.succs) entry b) :
    Verify.Available y (ofEntry y entry) b pre.reverse i slot d := by
  have hr := C.toured.renames
  have hg := hplaced.graph.trans hr.graph
  have hsuccs : y.succs = x.succs := funext hg.succs
  have hsuccs₁ : x₁.succs = x.succs := funext hplaced.graph.succs
  have hlinked := linked_of_sameGraph (linked_of_verified hx hv) hg
  have hlaid := laidOut_of_sameGraph (laidOut_of_verified hx hv) hg
  have horder := mem_order_of_reachable hx hv hb
  have hmem := takeWhile_subset _ hi
  have hin₁ := C.planned.attached.hasInst hmem
  cases hφ : plan.phis.lookup i with
  | some v =>
    have hkind : y.kind i = .phi ((r.args i).map Prod.fst) := kind_of_bare (hr.phi i v hφ)
    rw [operands_of_bare (hr.phi i v hφ), getElem?_map, Option.map_eq_some_iff] at hd
    obtain ⟨q, hq, hqd⟩ := hd
    have hqmem := mem_of_getElem? hq
    refine available_of_above hlinked hlaid hr.attached hkind (hqd ▸ C.housed_of_arg hφ hqmem) fun p hp hreach => ?_
    obtain rfl : q.1 = p := by simpa [hq] using hp
    rw [C.toured.args_eq hφ ((C.planned.attached.mem_iff b i).1 hmem)] at hqmem
    obtain ⟨p, -, rfl⟩ := mem_map.1 hqmem
    rw [hsuccs, ← hsuccs₁] at hreach
    exact hqd ▸ (C.gives hreach).vars v
  | none =>
    have hin := (hplaced.lookup_eq_none_iff hin₁).1 hφ
    have hisPhi := isPhi_of_mem_phis hi
    have hgone := hr.not_gone_of_isPhi hisPhi
    rw [hr.operands_eq hin₁ hgone hφ, hplaced.operands_eq hin, getElem?_map, Option.map_eq_some_iff] at hd
    obtain ⟨u, hu, hsub⟩ := hd
    obtain ⟨e, rfl⟩ : ∃ e, u = .inst e := by
      by_contra hnot
      have hsettled : Settled x₁ plan.accesses u := fun e _ he _ => absurd ⟨e, he⟩ hnot
      rw [hr.settled u hsettled] at hsub
      exact hnot ⟨d, hsub⟩
    obtain ⟨blocks, hk⟩ : ∃ blocks, x₁.kind i = .phi blocks := by
      cases hk : x₁.kind i <;> simp_all [Kind.isPhi]
    obtain ⟨before, after, hlist⟩ := append_of_mem (takeWhile_subset _ (hplaced.mem_phis hin hi))
    obtain ⟨home, hhome, havail⟩ := hv.operands b horder
      (((exact_of_verified hx hv).reachable b).2 hb) before i after hlist slot e hu
    rw [← hplaced.kind_eq hin, hk] at havail
    have hein := hx.attached.hasInst ((hx.attached.mem_iff home e).2 hhome)
    have hmem₁ : e ∈ x₁.instsOf home := by
      rw [hplaced.attached.mem_iff, block_of_bare (hplaced.old e hein)]
      exact hhome
    have hno : ∀ v, x₁.kind e ≠ .storeVar v := C.unused i e (by
      rw [hplaced.operands_eq hin]
      exact mem_of_getElem? hu)
    refine available_of_above hlinked hlaid hr.attached ((hr.kind_eq hin₁ hφ).trans hk)
      (hsub ▸ C.housed_sub hmem₁ hno) fun p hp hreach => ?_
    have hdom := (dominates_iff_of_verified hx hv).1
      (havail p hp (((exact_of_verified hx hv).reachable p).2 (hsuccs ▸ hreach)))
    have habove := (C.gives (hsuccs₁ ▸ hdom.reachable_left)).insts e hmem₁ hno
    exact hsub ▸ habove.of_dominates (hsuccs ▸ hdom)

lemma Completed.available (hsplit : y.instsOf b = pre ++ i :: post) (hb : Reachable (Edge x.succs) entry b) :
    Verify.Available y (ofEntry y entry) b pre.reverse i slot d := by
  have hr := C.toured.renames
  have hg := hplaced.graph.trans hr.graph
  have horder₁ : b ∈ x₁.order := by
    rw [hplaced.graph.order]
    exact mem_order_of_reachable hx hv hb
  have hrest : ∀ ks, pre = x₁.phis b ++ ks → r.rest b = ks ++ i :: post →
      Verify.Available y (ofEntry y entry) b pre.reverse i slot d := by
    intro ks hpre hks
    refine available_of_seen (linked_of_sameGraph (linked_of_verified hx hv) hg)
      (laidOut_of_sameGraph (laidOut_of_verified hx hv) hg) hr.attached
      (hr.isPhi_of_rest C.planned horder₁ (by simp [hks])) ?_ (?_ : ks ⊆ pre) ?_ ?_
    · rw [(C.phis_eq horder₁).1, hpre]
      exact subset_append_left _ _
    · rw [hpre]
      exact subset_append_right _ _
    · rw [hsplit]
      exact subset_append_left _ _
    · refine C.seen_of_rest ?_ hks (mem_of_getElem? hd)
      rwa [show x₁.succs = x.succs from funext hplaced.graph.succs]
  rw [hr.list, append_eq_append_iff] at hsplit
  rcases hsplit with ⟨ks, hpre, hks⟩ | ⟨φs, hphis, hpost⟩
  · exact hrest ks hpre hks
  · cases φs with
    | nil => exact hrest [] (by simpa using hphis.symm) (by simpa using hpost.symm)
    | cons φ φs =>
      obtain ⟨rfl, -⟩ := cons.inj hpost
      exact C.available_of_phi hx hv hplaced hd (by simp [hphis]) hb

end Operands

/-! ## The renamed body -/

section Verified

variable (hv : x.Verified entry) (hplaced : Placed x plan.phis (places x (.ofTree x (ofEntry x entry))) x₁)

include hplaced

lemma loose_of_placed (hloose : x.Loose) : x₁.Loose := by
  intro i hi
  by_cases hin : x.hasInst i
  · rw [isRemoved_of_bare (hplaced.old i hin)] at hi
    rw [block_of_bare (hplaced.old i hin)]
    exact hloose i hi
  · by_cases hin₁ : x₁.hasInst i
    · obtain ⟨v, hφ⟩ := Option.ne_none_iff_exists'.1 (mt (hplaced.lookup_eq_none_iff hin₁).1 hin)
      obtain ⟨-, -, b, -, hbare⟩ := hplaced.of_lookup hφ
      rw [isRemoved_of_bare hbare] at hi
      simp [emptyPhi] at hi
    · rw [inst, Tables.getD_of_size_le _ _ _ (by simpa [hasInst] using hin₁)] at hi
      simp [default, instInhabitedInst.default] at hi

include hv

lemma operand_live_of_placed (hd : .inst d ∈ (x₁.inst i).operands) : (x₁.inst d).isRemoved = false := by
  obtain ⟨-, hd⟩ := operand_of_placed hplaced hd
  by_contra hnot
  rw [isRemoved_of_bare (hplaced.old d (hv.uses.hasValue hd)), Bool.not_eq_false] at hnot
  have hunused := (hv.removed d hnot).2
  exact (hv.uses.uses_eq_nil_iff (v := .inst d) rfl).1 hunused i hd

variable (C : Completed x₁ plan entry idom out seen others r y) (hloose : x.Loose)

include C

lemma Completed.operands_of_removed (hi : (y.inst i).isRemoved) : (y.inst i).operands = [] := by
  have hr := C.toured.renames
  by_cases hin₁ : x₁.hasInst i
  · by_cases hgone : r.gone i
    · exact operands_of_bare (hr.lost i hgone).2.2
    rw [(C.standing hin₁ hgone).2] at hi
    cases hφ : plan.phis.lookup i with
    | some v =>
      obtain ⟨-, -, b, -, hbare⟩ := hplaced.of_lookup hφ
      rw [isRemoved_of_bare hbare] at hi
      simp [emptyPhi] at hi
    | none =>
      have hin := (hplaced.lookup_eq_none_iff hin₁).1 hφ
      rw [isRemoved_of_bare (hplaced.old i hin)] at hi
      rw [hr.operands_eq hin₁ hgone hφ, hplaced.operands_eq hin, (hv.removed i hi).1, map_nil]
  · by_cases hin : y.hasInst i
    · obtain ⟨ty, w, b, hbare⟩ := hr.new i (by simpa [hasInst] using hin₁) hin
      rw [isRemoved_of_bare hbare] at hi
      cases hi
    · rw [inst, Tables.getD_of_size_le _ _ _ (by simpa [hasInst] using hin)]
      rfl

lemma Completed.verified (hx : x.Arranged) (hloose : x.Loose)
    (hpreds : ∀ b ∈ x.order, ∀ p ∈ x.preds b, p ∈ x.order) : y.Verified entry := by
  have hr := C.toured.renames
  have hg := hplaced.graph.trans hr.graph
  have hloose₁ := loose_of_placed hplaced hloose
  have hreach : ∀ b, (ofEntry y entry).isReachable b ↔ Reachable (Edge x.succs) entry b := fun b => by
    rw [Frontier.isReachable_iff_reachable (linked_of_sameGraph (linked_of_verified hx hv) hg)
      (laidOut_of_sameGraph (laidOut_of_verified hx hv) hg),
      show y.succs = x.succs from funext hg.succs]
  have hreach' : ∀ b, Reachable (Edge x.succs) entry b → (ofEntry x entry).isReachable b := fun b =>
    ((exact_of_verified hx hv).reachable b).2
  exact {
    entry_eq := hg.entry.trans hv.entry_eq
    entry_live := (hg.isRemoved entry).trans hv.entry_live
    entry_preds := (hg.preds entry).trans hv.entry_preds
    live := fun b hb => (hg.isRemoved b).trans (hv.live b (hg.order ▸ hb))
    listed := fun b _ i hi => ⟨C.live hloose₁ hi, (hr.attached.mem_iff b i).1 hi⟩
    phisFirst := fun b hb => by
      have horder : b ∈ x₁.order := hr.graph.order ▸ hb
      refine Lists.pairwise_iff_split.2 ⟨x₁.phis b, r.rest b, hr.list b, fun i hi => ?_, fun i hi => ?_⟩
      · exact isPhi_of_mem_phis ((C.phis_eq horder).1 ▸ hi)
      · simp [hr.isPhi_of_rest C.planned horder hi]
    terminatorLast := fun b hb =>
      C.terminatorLast hx hplaced (hg.order ▸ hb) (hv.terminatorLast b (hg.order ▸ hb))
    terminated := fun b hb hreachable => C.terminated hx hplaced (hg.order ▸ hb)
      (hv.terminated b (hg.order ▸ hb) (hreach' b ((hreach b).1 hreachable)))
    succs_nodup := fun b _ => hg.succs b ▸ hx.edges.succs_nodup b
    succs := fun b hb s hs => by
      rw [hg.isRemoved, hg.preds]
      exact hv.succs b (hg.order ▸ hb) s (hg.succs b ▸ hs)
    preds := fun b hb p hp => by
      rw [hg.succs]
      exact hv.preds b (hg.order ▸ hb) p (hg.preds b ▸ hp)
    targets := fun b hb t => by
      rw [C.targets_eq hx hplaced (hg.order ▸ hb), hg.succs]
      exact hv.targets b (hg.order ▸ hb) t
    phis := fun b hb i hi =>
      C.phis_rule hx hplaced (hg.order ▸ hb) hv (hpreds b (hg.order ▸ hb)) hi
    removed := fun i hi => by
      refine ⟨C.operands_of_removed hv hplaced hi, ?_⟩
      refine (hr.uses.uses_eq_nil_iff (v := .inst i) rfl).2 fun j hj => ?_
      have hlive := C.operand_live hloose₁ (fun _ _ => operand_live_of_placed hv hplaced) hj
      simp [hlive] at hi
    uses := hr.uses
    operands := fun b _ hreachable pre i post hsplit slot d hd =>
      C.available hx hv hplaced hd hsplit ((hreach b).1 hreachable) }

end Verified

end Promotion

end MethodIR
