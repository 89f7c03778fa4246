import MethodIR.Proofs.LayoutHistories
import MethodIR.Proofs.VerifiedPromotion

/-!
# Promotion keeps bodies valid

What is left when dead phis have been removed keeps the rules too (`Promotion.Stripped.verified`). So a
body that the verifier accepts can be promoted, and the verifier accepts what has become of it.
-/

namespace MethodIR

open List FlowGraph Dominance DominatorTree DepthFirst Body Frontier

lemma Op.loose_of_afterAll {ops : List Op} {args : List Ty} {ret : Ty} {body : Body}
    (h : afterAll? ops (.empty args ret) = some body) : body.Loose :=
  afterAll_induction (tidy_empty args ret).loose (fun _ _ _ _ hx hop => hx.changes hop) h

lemma Body.storesUnused_of_all {x : Body} (h : (x.instIds.all fun i => (x.inst i).operands.all fun u =>
    u.inst?.all fun d => (x.kind d).name ≠ "store_var") = true) : x.StoresUnused := by
  intro i d hd v hk
  have hall := all_eq_true.1
    (all_eq_true.1 h i (Verify.mem_instIds.2 (hasInst_of_mem_operands hd))) _ hd
  simp [Value.inst?, hk, Kind.name] at hall

namespace Promotion

variable {x y z : Body} {entry b : BlockId} {dead pre post before : List InstId} {i d : InstId}

/-! ## Without dead phis -/

section Stripped

variable (hs : Stripped y dead z) (hclosed : ∀ i, i ∉ dead → (z.inst i).bare = (y.inst i).bare)

include hs

lemma Stripped.not_dead (hd : .inst d ∈ (z.inst i).operands) : i ∉ dead ∧ d ∉ dead := by
  have hi : i ∉ dead := fun hmem => by
    rw [operands_of_bare (hs.gone i hmem)] at hd
    simp [Inst.removed, Inst.cleared] at hd
  refine ⟨hi, fun hmem => ?_⟩
  rw [operands_of_bare (hs.kept i hi)] at hd
  obtain ⟨v, -, heq⟩ := mem_map.1 hd
  exact blank_ne hmem heq

include hclosed

lemma Stripped.available (hlinked : Linked y entry) (hlaid : LaidOut y entry) {slot : Nat}
    (hd : .inst d ∈ (z.inst i).operands)
    (h : Verify.Available y (ofEntry y entry) b before i slot d) :
    Verify.Available z (ofEntry z entry) b (before.filter (· ∉ dead)) i slot d := by
  obtain ⟨hi, hdead⟩ := hs.not_dead hd
  obtain ⟨home, hhome, hrule⟩ := h
  have hkind : z.kind i = y.kind i := (Inst.bare_eq_iff.1 (hclosed i hi)).1
  have hlinked' := linked_of_sameGraph hlinked hs.graph
  have hlaid' := laidOut_of_sameGraph hlaid hs.graph
  have hsuccs : z.succs = y.succs := funext hs.graph.succs
  have hdom : ∀ a b, (ofEntry z entry).dominates a b ↔ (ofEntry y entry).dominates a b := fun a b => by
    rw [dominates_iff_of_laidOut hlinked' hlaid', dominates_iff_of_laidOut hlinked hlaid, hsuccs]
  have hreach : ∀ b, (ofEntry z entry).isReachable b ↔ (ofEntry y entry).isReachable b := fun b => by
    rw [isReachable_iff_reachable hlinked' hlaid',
      isReachable_iff_reachable hlinked hlaid, hsuccs]
  have hstrict : ∀ a b, (ofEntry z entry).strictlyDominates a b ↔
      (ofEntry y entry).strictlyDominates a b := fun a b => by
    simp [strictlyDominates, hdom]
  refine ⟨home, (block_of_bare (hclosed d hdead)).trans hhome, ?_⟩
  rw [hkind]
  cases hk : y.kind i with
  | phi blocks =>
    simp only [hk] at hrule
    exact fun p hp hp' => (hdom home p).2 (hrule p hp ((hreach p).1 hp'))
  | _ =>
    simp only [hk] at hrule
    split at hrule
    · next heq =>
      simp only [heq, if_true]
      exact mem_filter.2 ⟨hrule, by simpa using hdead⟩
    · next hne =>
      simp only [hne, if_false]
      exact (hstrict home b).2 hrule

lemma Stripped.verified (hphi : ∀ φ ∈ dead, (y.kind φ).isPhi) (hlinked : Linked y entry)
    (hlaid : LaidOut y entry) (hv : y.Verified entry) : z.Verified entry := by
  have hg := hs.graph
  have hkind : ∀ i, i ∉ dead → z.kind i = y.kind i := fun i hi =>
    (Inst.bare_eq_iff.1 (hclosed i hi)).1
  have hops : ∀ i, i ∉ dead → (z.inst i).operands = (y.inst i).operands := fun i hi =>
    (Inst.bare_eq_iff.1 (hclosed i hi)).2.2.1
  have hremoved : ∀ i, i ∉ dead → (z.inst i).isRemoved = (y.inst i).isRemoved := fun i hi =>
    (Inst.bare_eq_iff.1 (hclosed i hi)).2.2.2.2
  have hlist : ∀ b, ∀ i ∈ z.instsOf b, i ∉ dead := fun b i hi => (hs.mem_instsOf.1 hi).2
  have hreach : ∀ b, (ofEntry z entry).isReachable b ↔ (ofEntry y entry).isReachable b := fun b => by
    rw [isReachable_iff_reachable (linked_of_sameGraph hlinked hg) (laidOut_of_sameGraph hlaid hg),
      isReachable_iff_reachable hlinked hlaid, show z.succs = y.succs from funext hg.succs]
  have hphis : ∀ b ∈ y.order, (z.instsOf b).Pairwise fun i j => (z.kind j).isPhi → (z.kind i).isPhi := by
    intro b hb
    refine ((hs.list b ▸ (hv.phisFirst b hb).sublist filter_sublist)).imp_of_mem ?_
    intro i j hi hj h
    rwa [hkind i (hlist b i hi), hkind j (hlist b j hj)]
  exact {
    entry_eq := hg.entry.trans hv.entry_eq
    entry_live := (hg.isRemoved entry).trans hv.entry_live
    entry_preds := (hg.preds entry).trans hv.entry_preds
    live := fun b hb => (hg.isRemoved b).trans (hv.live b (hg.order ▸ hb))
    listed := fun b hb i hi => by
      obtain ⟨hmem, hdead⟩ := hs.mem_instsOf.1 hi
      exact ⟨(hremoved i hdead).trans (hv.listed b (hg.order ▸ hb) i hmem).1, (hs.attached.mem_iff b i).1 hi⟩
    phisFirst := fun b hb => hphis b (hg.order ▸ hb)
    terminatorLast := fun b hb => by
      have hlast := hv.terminatorLast b (hg.order ▸ hb)
      rw [Lists.forall_mem_dropLast_iff] at hlast ⊢
      refine (hs.list b ▸ hlast.sublist filter_sublist).imp_of_mem fun {i _} hi _ h => ?_
      rwa [hkind i (hlist b i hi)]
    terminated := fun b hb hreachable => by
      obtain ⟨i, hlast, hterm⟩ := terminator?_isSome_iff.1
        (hv.terminated b (hg.order ▸ hb) ((hreach b).1 hreachable))
      have hi : i ∉ dead := fun hmem => isTerminator_of_isPhi (hphi i hmem) hterm
      refine terminator?_isSome_iff.2 ⟨i, ?_, by rwa [hkind i hi]⟩
      obtain ⟨before, hsplit⟩ := getLast?_eq_some_iff.1 hlast
      rw [hs.list, hsplit]
      simp [hi]
    succs_nodup := fun b hb => hg.succs b ▸ hv.succs_nodup b (hg.order ▸ hb)
    succs := fun b hb s hsucc => by
      rw [hg.isRemoved, hg.preds]
      exact hv.succs b (hg.order ▸ hb) s (hg.succs b ▸ hsucc)
    preds := fun b hb p hp => by
      rw [hg.succs]
      exact hv.preds b (hg.order ▸ hb) p (hg.preds b ▸ hp)
    targets := fun b hb t => by
      rw [hg.succs, ← hv.targets b (hg.order ▸ hb), mem_targets, mem_targets]
      constructor
      · rintro ⟨i, hi, ht⟩
        rw [hkind i (hlist b i hi)] at ht
        exact ⟨i, (hs.mem_instsOf.1 hi).1, ht⟩
      · rintro ⟨i, hi, ht⟩
        have hdead : i ∉ dead := fun hmem => by
          simp [successors_of_isPhi (hphi i hmem)] at ht
        exact ⟨i, hs.mem_instsOf.2 ⟨hi, hdead⟩, by rwa [hkind i hdead]⟩
    phis := fun b hb i hi => by
      rw [hg.order] at hb
      obtain ⟨hmem, hisPhi⟩ := (Lists.mem_takeWhile_iff (hphis b hb)).1 hi
      obtain ⟨hmem, hdead⟩ := hs.mem_instsOf.1 hmem
      rw [hkind i hdead] at hisPhi
      rw [hg.preds, phiArgs, hkind i hdead, hops i hdead]
      exact hv.phis b hb i ((Lists.mem_takeWhile_iff (hv.phisFirst b hb)).2 ⟨hmem, hisPhi⟩)
    removed := fun i hi => by
      have hunused : (∀ j, .inst i ∉ (z.inst j).operands) → (z.inst i).uses = [] :=
        (hs.uses.uses_eq_nil_iff (v := .inst i) rfl).2
      by_cases hdead : i ∈ dead
      · refine ⟨?_, hunused fun j hj => (hs.not_dead hj).2 hdead⟩
        rw [operands_of_bare (hs.gone i hdead)]
        rfl
      · obtain ⟨hnone, huses⟩ := hv.removed i (hremoved i hdead ▸ hi)
        refine ⟨(hops i hdead).trans hnone, hunused fun j hj => ?_⟩
        rw [hops j (hs.not_dead hj).1] at hj
        exact (hv.uses.uses_eq_nil_iff (v := .inst i) rfl).1 huses j hj
    uses := hs.uses
    operands := fun b hb hreachable pre i post hsplit slot d hd => by
      rw [hs.list, filter_eq_append_iff] at hsplit
      obtain ⟨before, rest, hbefore, rfl, hrest⟩ := hsplit
      obtain ⟨skipped, after, hrest', hskipped, -, rfl⟩ := filter_eq_cons_iff.1 hrest
      have hd' := mem_of_getElem? hd
      rw [hops i (hs.not_dead hd').1] at hd
      have havail := hv.operands b (hg.order ▸ hb) ((hreach b).1 hreachable) (before ++ skipped) i after
        (by rw [hbefore, hrest']; simp) slot d hd
      have hfilter : skipped.filter (· ∉ dead) = [] := filter_eq_nil_iff.2 hskipped
      have hgoal := hs.available hclosed hlinked hlaid hd' havail
      rwa [filter_reverse, filter_append, hfilter, append_nil] at hgoal }

end Stripped

/-! ## The pass -/

section Run

variable (hx : x.Arranged) (hv : x.Verified entry) (hloose : x.Loose)
  (hpreds : ∀ b ∈ x.order, ∀ p ∈ x.preds b, p ∈ x.order)

include hx hv hloose hpreds

lemma Finished.verified (h : Finished x entry z) : z.Verified entry := by
  obtain ⟨plan, x₁, out, others, r, y, dead, P, C⟩ := h
  have hg := P.placed.graph.trans C.toured.renames.graph
  refine P.stripped.verified P.closed (fun φ hφ => ?_) (linked_of_sameGraph (linked_of_verified hx hv) hg)
    (laidOut_of_sameGraph (laidOut_of_verified hx hv) hg) (C.verified hv P.placed hx hloose hpreds)
  obtain ⟨v, hv⟩ := P.phis φ hφ
  rw [kind_of_bare (C.toured.renames.phi φ v hv)]
  rfl

lemma exists_verified (h : Admissible x entry) (options : Options) {t : Trace Transform}
    (hbody : t.state.body = x) (hfresh : t.state.analyses.Fresh x) :
    ∃ changes t', run options t = .ok changes t' ∧ t'.state.body.Verified entry := by
  obtain ⟨changes, t', hrun, hresult⟩ := exists_run hx hv h options hbody hfresh
  refine ⟨changes, t', hrun, ?_⟩
  rcases hresult with hsame | hfinished
  · rwa [hsame]
  · exact hfinished.verified hx hv hloose hpreds

end Run

lemma admissible_of_filled (hx : x.Arranged) (hv : x.Verified entry) (hfilled : x.Filled) (hunused : x.StoresUnused)
    (hvars : ∀ k ∈ x.laidOutKinds, ∀ v, k.var? = some v → x.hasVar v)
    (hunreached : ∀ b ∈ x.order, ¬Reachable (Edge x.succs) entry b → ∀ pre i post d,
      x.instsOf b = pre ++ i :: post → .inst d ∈ (x.inst i).operands →
        ∃ home, (x.inst d).block = some home ∧ ∀ v, x.kind d = .loadVar v →
          ¬Reachable (Edge x.succs) entry home → d ∈ pre) : Admissible x entry where
  vars := hvars
  unused := hunused
  filled b hb i hi v hk hnil := by
    have hfull := hfilled i (hx.attached.hasInst hi) (hv.listed b hb i hi).1
    rw [← kind, hk, hnil] at hfull
    simp [Edit.arityViolation?, Kind.arity?] at hfull
  within b hb hnot pre i post d hsplit hd := by
    obtain ⟨home, hhome, hload⟩ := hunreached b hb hnot pre i post d hsplit hd
    refine ⟨home, (hx.attached.mem_iff home d).2 hhome, ?_⟩
    rintro ⟨v, hk⟩
    by_cases hreach : Reachable (Edge x.succs) entry home
    · exact .inl hreach
    · exact .inr (hload v hk hreach)

/-- Block 4, which control does not reach, loads a variable, stores what it has loaded, and goes to the
join of two others, where there is a phi. -/
def lateJoinSteps : List Op := [.createVar .i32 (.local 0), .createBlock none, .createBlock none, .createBlock none,
    .createBlock none, .createBlock none,
    .createInst (.storeVar ⟨0⟩) [.arg ⟨0⟩] .void, .insertLast ⟨0⟩ ⟨0⟩,
    .createInst (.branch ⟨1⟩ ⟨2⟩) [.arg ⟨0⟩] .void, .setTerminator ⟨0⟩ ⟨1⟩,
    .createInst (.storeVar ⟨0⟩) [.const (.i32 1)] .void, .insertLast ⟨1⟩ ⟨2⟩, .setJump ⟨1⟩ ⟨3⟩,
    .setJump ⟨2⟩ ⟨3⟩,
    .createInst (.loadVar ⟨0⟩) [] .i32, .insertLast ⟨4⟩ ⟨5⟩,
    .createInst (.storeVar ⟨0⟩) [.inst ⟨5⟩] .void, .insertLast ⟨4⟩ ⟨6⟩, .setJump ⟨4⟩ ⟨3⟩,
    .insertPhi ⟨3⟩ .i32, .addPhiArg ⟨8⟩ ⟨1⟩ (.const (.i32 7)), .addPhiArg ⟨8⟩ ⟨2⟩ (.arg ⟨0⟩),
    .addPhiArg ⟨8⟩ ⟨4⟩ (.inst ⟨5⟩),
    .createInst (.loadVar ⟨0⟩) [] .i32, .insertLast ⟨3⟩ ⟨9⟩,
    .createInst (.binary .add) [.inst ⟨8⟩, .inst ⟨9⟩] .i32, .insertLast ⟨3⟩ ⟨10⟩,
    .createInst .ret [.inst ⟨10⟩] .void, .setTerminator ⟨3⟩ ⟨11⟩]

def lateJoin : Body := (Op.placingAfterAll? lateJoinSteps (empty [.i32] .i32)).getD default

lemma lateJoin_placing : Op.placingAfterAll? lateJoinSteps (empty [.i32] .i32) = some lateJoin :=
  eq_some_getD (by decide)

lemma lateJoin_unreached (hsplit : lateJoin.instsOf ⟨4⟩ = pre ++ i :: post)
    (hd : .inst d ∈ (lateJoin.inst i).operands) : ∃ home, (lateJoin.inst d).block = some home ∧ d ∈ pre := by
  have hlist : lateJoin.instsOf ⟨4⟩ = [⟨5⟩, ⟨6⟩, ⟨7⟩] := by decide +kernel
  have hops : ([⟨5⟩, ⟨6⟩, ⟨7⟩] : List InstId).map (fun i => (lateJoin.inst i).operands) =
      [[], [.inst ⟨5⟩], []] := by decide +kernel
  have hhome : (lateJoin.inst ⟨5⟩).block = some ⟨4⟩ := by decide +kernel
  obtain ⟨h5, h6, h7⟩ : (lateJoin.inst ⟨5⟩).operands = [] ∧ (lateJoin.inst ⟨6⟩).operands = [.inst ⟨5⟩] ∧
      (lateJoin.inst ⟨7⟩).operands = [] := by simpa using hops
  rw [hlist] at hsplit
  rcases pre with _ | ⟨j, _ | ⟨k, _ | ⟨l, pre⟩⟩⟩
  · obtain rfl : ⟨5⟩ = i := (cons.inj hsplit).1
    simp [h5] at hd
  · obtain ⟨rfl, rfl, -⟩ : ⟨5⟩ = j ∧ ⟨6⟩ = i ∧ [⟨7⟩] = post := by simpa using hsplit
    obtain rfl : d = ⟨5⟩ := by simpa [h6] using hd
    exact ⟨⟨4⟩, hhome, by simp⟩
  · obtain ⟨-, -, rfl, -⟩ : ⟨5⟩ = j ∧ ⟨6⟩ = k ∧ ⟨7⟩ = i ∧ post = [] := by simpa using hsplit
    simp [h7] at hd
  · simp at hsplit

/-- Block 4 was placed after a removed block, so that it is in no row. Control gets to the load of block
2 through it. -/
def strayJoinSteps : List Op :=
  [.createVar .i32 (.local 0), .createBlock none, .createBlock none, .createBlock none,
    .createBlock none, .removeBlock ⟨3⟩, .createBlock (some ⟨3⟩),
    .createInst (.branch ⟨1⟩ ⟨4⟩) [.arg ⟨0⟩] .void, .setTerminator ⟨0⟩ ⟨0⟩,
    .createInst (.storeVar ⟨0⟩) [.const (.i32 5)] .void, .insertLast ⟨1⟩ ⟨1⟩, .setJump ⟨1⟩ ⟨2⟩,
    .setJump ⟨4⟩ ⟨2⟩,
    .createInst (.loadVar ⟨0⟩) [] .i32, .insertLast ⟨2⟩ ⟨4⟩,
    .createInst .ret [.inst ⟨4⟩] .void, .setTerminator ⟨2⟩ ⟨5⟩]

def strayJoin : Body := (Op.afterAll? strayJoinSteps (empty [.i32] .i32)).getD default

end Promotion

end MethodIR
