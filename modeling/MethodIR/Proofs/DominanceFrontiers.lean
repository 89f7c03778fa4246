import MethodIR.Dominance.Frontier
import MethodIR.Proofs.DominatorTree

/-!
# The computed dominance frontiers

Cut off at the immediate dominator of a join, the chain above a predecessor holds the blocks whose
dominance ends at the join (`mem_runners_iff`). The frontiers are exact if and only if the tree holds
the edges at which dominance ends (`Frontier.EndsShown`).
-/

namespace MethodIR

open List FlowGraph DepthFirst Dominance DominatorTree Tables

variable {body : Body} {entry a b d p : BlockId} {n : Nat}

/-! ## Chains of dominators -/

section

variable (h : Linked body entry)
include h

lemma dominators_finite (p : BlockId) : {a | Dominates (Edge body.succs) entry a p}.Finite := by
  refine (finite_toSet (BlockId.below body.blocks.size)).subset fun a ha => ?_
  exact mem_below.2 (h.lt_of_reachable ha.reachable_left)

lemma ncard_dominators_le (p : BlockId) : {a | Dominates (Edge body.succs) entry a p}.ncard ≤ body.blocks.size := by
  have hsub : {a | Dominates (Edge body.succs) entry a p} ⊆
      ((BlockId.below body.blocks.size).toFinset : Set BlockId) := fun a ha => by
    simpa using mem_below.2 (h.lt_of_reachable ha.reachable_left)
  refine (Set.ncard_le_ncard hsub (Finset.finite_toSet _)).trans ?_
  rw [Set.ncard_coe_finset, toFinset_card_of_nodup below_nodup]
  simp [BlockId.below]

lemma ncard_dominators_lt (hidom : IsIdom (Edge body.succs) entry d p) :
    {a | Dominates (Edge body.succs) entry a d}.ncard < {a | Dominates (Edge body.succs) entry a p}.ncard := by
  refine Set.ncard_lt_ncard ?_ (dominators_finite h p)
  refine ⟨fun a (ha : Dominates _ _ a d) => ha.trans hidom.1.2, fun hsub => ?_⟩
  have hpd : Dominates (Edge body.succs) entry p d := hsub (Dominates.refl hidom.1.2.1)
  exact hidom.1.1 (hidom.1.2.antisymm hpd)

lemma mem_takeWhile_chain_iff (hd : Dominates (Edge body.succs) entry d p)
    (hn : {a | Dominates (Edge body.succs) entry a p}.ncard ≤ n) :
    a ∈ ((ofEntry body entry).chain n p).takeWhile (fun a => some a ≠ some d) ↔
      Dominates (Edge body.succs) entry a p ∧ ¬Dominates (Edge body.succs) entry a d := by
  induction n generalizing p with
  | zero =>
    have hempty := (Set.ncard_eq_zero (dominators_finite h p)).1 (Nat.le_zero.1 hn)
    have hmem : d ∈ {a | Dominates (Edge body.succs) entry a p} := hd
    simp [hempty] at hmem
  | succ n ih =>
    rw [chain]
    by_cases hpd : p = d
    · subst hpd
      simp
    · rw [takeWhile_cons, if_pos (by simpa using hpd)]
      -- `d` dominates `p` strictly, so it dominates the next block of the chain.
      have hne : p ≠ entry := by
        rintro rfl
        exact not_strictlyDominates_root ⟨Ne.symm hpd, hd⟩
      obtain ⟨e, he⟩ := h.exists_isIdom hd.1 hne
      have hde := he.2 d ⟨Ne.symm hpd, hd⟩
      have hlt := ncard_dominators_lt h he
      have hself : ¬Dominates (Edge body.succs) entry p d := fun hpd' => hpd (hpd'.antisymm hd)
      rw [(idom?_eq_some_iff h).2 he, mem_cons, ih hde (by omega)]
      by_cases hap : a = p
      · subst hap
        simp [Dominates.refl hd.1, hself]
      · rw [← he.dominates_iff, StrictlyDominates]
        simp [hap]

end

/-! ## Frontiers -/

namespace Frontier

variable {f : Frontier} {c : BlockId} {t : DominatorTree}

lemma mem_of_add (ha : a.index < f.sets.size) : b ∈ (f.add d c).of a ↔ b ∈ f.of a ∨ d = a ∧ c = b := by
  rw [of, add, getD_modify]
  by_cases hda : d = a
  · subst hda
    rw [if_pos ⟨rfl, ha⟩, of]
    by_cases hmem : c ∈ f.sets.getD d.index []
    · rw [if_pos hmem]
      refine ⟨.inl, ?_⟩
      rintro (h | ⟨-, rfl⟩)
      · exact h
      · exact hmem
    · rw [if_neg hmem, mem_append, mem_singleton]
      simp [eq_comm]
  · rw [if_neg fun heq => hda (BlockId.ext heq.1)]
    simp [hda, of]

lemma size_add : (f.add a b).sets.size = f.sets.size := by
  simp [add]

lemma mem_of_foldl_add (ds : List BlockId) (ha : a.index < f.sets.size) (c : BlockId) :
    (b ∈ (ds.foldl (fun f d => f.add d c) f).of a ↔ b ∈ f.of a ∨ a ∈ ds ∧ c = b) ∧
      (ds.foldl (fun f d => f.add d c) f).sets.size = f.sets.size := by
  induction ds generalizing f with
  | nil => simp
  | cons d ds ih =>
    obtain ⟨hmem, hsize⟩ := ih (f := f.add d c) (by rwa [size_add])
    rw [foldl_cons, hmem, hsize, mem_of_add ha, size_add]
    refine ⟨?_, rfl⟩
    simp only [mem_cons, eq_comm (a := a)]
    tauto

lemma mem_of_ofTree (ha : a.index < body.blocks.size) :
    b ∈ (ofTree body t).of a ↔ b ∈ body.order ∧ a ∈ holders body t b := by
  suffices hall : ∀ (bs : List BlockId) (f : Frontier), a.index < f.sets.size →
      (b ∈ (bs.foldl (fun f b => (holders body t b).foldl (fun f a => f.add a b) f) f).of a ↔
        b ∈ f.of a ∨ b ∈ bs ∧ a ∈ holders body t b) by
    refine (hall body.order _ (by simpa using ha)).trans ?_
    rw [of, getD_replicated, ite_self]
    simp
  intro bs
  induction bs with
  | nil => simp
  | cons c bs ih =>
    intro f hf
    obtain ⟨hmem, hsize⟩ := mem_of_foldl_add (holders body t c) hf c (b := b)
    rw [foldl_cons, ih _ (by rw [hsize]; exact hf), hmem, mem_cons]
    by_cases hbc : b = c
    · subst hbc
      simp
      tauto
    · simp [hbc, Ne.symm hbc]

lemma size_ofTree : (ofTree body t).sets.size = body.blocks.size := by
  rw [ofTree]
  refine foldlRecOn (motive := fun f : Frontier => f.sets.size = body.blocks.size) _ _
    (by simp) fun f hf c _ => ?_
  refine foldlRecOn (motive := fun f : Frontier => f.sets.size = body.blocks.size) _ _ hf fun f hf c _ => ?_
  rw [size_add, hf]

lemma nodup_of_add (hf : ∀ a, (f.of a).Nodup) : ((f.add d c).of a).Nodup := by
  have ha : (f.sets.getD a.index []).Nodup := hf a
  rw [of, add, getD_modify]
  split
  · split
    · exact ha
    · next hmem =>
      refine nodup_append.2 ⟨ha, nodup_singleton c, fun x hx y hy hxy => hmem ?_⟩
      exact mem_singleton.1 hy ▸ hxy ▸ hx
  · exact ha

lemma nodup_of_ofTree : ((ofTree body t).of a).Nodup := by
  suffices hall : ∀ a, ((ofTree body t).of a).Nodup from hall a
  rw [ofTree]
  refine foldlRecOn (motive := fun f : Frontier => ∀ a, (f.of a).Nodup) _ _ (fun a => ?_) fun f hf c _ => ?_
  · rw [of, getD_replicated, ite_self]
    exact nodup_nil
  · exact foldlRecOn (motive := fun f : Frontier => ∀ a, (f.of a).Nodup) _ _ hf
      fun f hf c _ a => nodup_of_add hf

lemma of_mem_ofTree (hb : b ∈ (ofTree body t).of a) :
    b ∈ body.order ∧ t.isReachable b ∧ 2 ≤ (body.preds b).length := by
  by_cases ha : a.index < body.blocks.size
  · obtain ⟨horder, hholds⟩ := (mem_of_ofTree ha).1 hb
    rw [holders] at hholds
    by_cases hshort : ((body.preds b).length < 2 || !t.isReachable b) = true
    · simp only [hshort, if_true] at hholds
      simp at hholds
    · simp only [Bool.not_eq_true, Bool.or_eq_false_iff, decide_eq_false_iff_not, not_lt,
        Bool.not_eq_false'] at hshort
      exact ⟨horder, hshort.2, hshort.1⟩
  · rw [of, getD_of_size_le _ _ _ (size_ofTree.trans_le (by omega))] at hb
    simp at hb

section Linked

variable (h : Linked body entry)

include h

/-- The blocks that a runner from `p` passes on its way up are those that dominate `p` but do not
dominate `b` strictly. -/
lemma mem_runners_iff (hb : Reachable (Edge body.succs) entry b) (hedge : b ∈ body.succs p) (hne : b ≠ entry) :
    a ∈ runners (ofEntry body entry) b p ↔ Shown body entry p ∧
      Dominates (Edge body.succs) entry a p ∧ ¬StrictlyDominates (Edge body.succs) entry a b := by
  rw [runners]
  split
  · next hp =>
    have hp := (isReachable_iff h).1 hp
    obtain ⟨d, hd⟩ := h.exists_isIdom hb hne
    have hdp : Dominates (Edge body.succs) entry d p := hd.1.2.of_edge hd.1.1 hp.1 hedge
    have hsize : {a | Dominates (Edge body.succs) entry a p}.ncard ≤ (ofEntry body entry).idom.size :=
      (ncard_dominators_le h p).trans_eq size_immediate.symm
    rw [(idom?_eq_some_iff h).2 hd, mem_takeWhile_chain_iff h hdp hsize, hd.dominates_iff]
    exact (and_iff_right hp).symm
  · next hp => simp [show ¬Shown body entry p from fun hs => hp ((isReachable_iff h).2 hs)]

lemma mem_holders_iff (hne : b ≠ entry) :
    a ∈ holders body (ofEntry body entry) b ↔ Shown body entry b ∧ 2 ≤ (body.preds b).length ∧
      ∃ p ∈ body.preds b, Shown body entry p ∧ Dominates (Edge body.succs) entry a p ∧
        ¬StrictlyDominates (Edge body.succs) entry a b := by
  rw [holders]
  by_cases hb : Shown body entry b
  · have hin := (isReachable_iff h).2 hb
    by_cases hjoin : 2 ≤ (body.preds b).length
    · have hrunners : ∀ p ∈ body.preds b, (a ∈ runners (ofEntry body entry) b p ↔ Shown body entry p ∧
          Dominates (Edge body.succs) entry a p ∧ ¬StrictlyDominates (Edge body.succs) entry a b) := by
        intro p hp
        by_cases hshown : Shown body entry p
        · exact mem_runners_iff h hb.1 (h.succ_of_pred p b hshown.1 hb.1 hp) hne
        · simp [runners, isReachable_iff h, hshown]
      simp only [hin, Bool.not_true, Bool.or_false, decide_eq_true_eq, Nat.not_lt.2 hjoin, if_false,
        mem_flatMap, hb, hjoin, true_and]
      exact exists_congr fun p => and_congr_right fun hp => hrunners p hp
    · simp [hjoin, Nat.lt_of_not_le hjoin]
  · simp [hb, isReachable_iff h]

lemma two_le_length_preds (hb : Reachable (Edge body.succs) entry b) (hne : b ≠ entry)
    (hp : p ∈ body.preds b) (hap : Dominates (Edge body.succs) entry a p)
    (hab : ¬StrictlyDominates (Edge body.succs) entry a b) : 2 ≤ (body.preds b).length := by
  by_contra hlen
  have hpos := length_pos_of_mem hp
  obtain ⟨c, hc⟩ : ∃ c, body.preds b = [c] := length_eq_one_iff.1 (by omega)
  have honly : ∀ q, Reachable (Edge body.succs) entry q → b ∈ body.succs q → q = p := by
    intro q hq hedge
    have hqmem := h.pred_of_succ q b hq hedge
    rw [hc, mem_singleton] at hp hqmem
    rw [hp, hqmem]
  exact hab (.trans_right hap (strictlyDominates_of_only_pred hb hne honly))

lemma mem_of_ofEntry_iff (hne : b ≠ entry) : b ∈ (ofTree body (ofEntry body entry)).of a ↔ Shown body entry b ∧
      ∃ p ∈ body.preds b, Shown body entry p ∧ Dominates (Edge body.succs) entry a p ∧
        ¬StrictlyDominates (Edge body.succs) entry a b := by
  constructor
  · intro hb
    have ha : a.index < body.blocks.size := by
      by_contra hlt
      rw [of, getD_of_size_le _ _ _ (size_ofTree.trans_le (by omega))] at hb
      simp at hb
    obtain ⟨hshown, -, hholds⟩ := (mem_holders_iff h hne).1 ((mem_of_ofTree ha).1 hb).2
    exact ⟨hshown, hholds⟩
  · rintro ⟨hshown, p, hp, hpshown, hap, hab⟩
    refine (mem_of_ofTree (h.lt_of_reachable hap.reachable_left)).2
      ⟨hshown.2 b (.refl hshown.1) hne, (mem_holders_iff h hne).2 ?_⟩
    exact ⟨hshown, two_le_length_preds h hshown.1 hne hp hap hab, p, hp, hpshown, hap, hab⟩

lemma compute_ofEntry (hpreds : body.preds entry = []) :
    compute body (ofEntry body entry) = .ok (ofTree body (ofEntry body entry)) := by
  rw [compute, if_pos]
  simp only [all_eq_true]
  intro b _ a ha
  have hne : b ≠ entry := by
    rintro rfl
    simp [holders, hpreds] at ha
  obtain ⟨-, -, p, -, -, hap, -⟩ := (mem_holders_iff h hne).1 ha
  simpa [Body.hasBlock] using h.lt_of_reachable hap.reachable_left

end Linked

section LaidOut

variable (h : Linked body entry) (hlaid : LaidOut body entry)

include h hlaid

lemma isReachable_iff_reachable : (ofEntry body entry).isReachable b ↔ Reachable (Edge body.succs) entry b := by
  rw [isReachable_iff h, shown_iff_of_laidOut hlaid]

lemma mem_of_compute (hreach : Reachable (Edge body.succs) entry b) (hne : b ≠ entry)
    (hp : Reachable (Edge body.succs) entry p) (hedge : b ∈ body.succs p)
    (hap : Dominates (Edge body.succs) entry a p) (hab : ¬StrictlyDominates (Edge body.succs) entry a b) :
    b ∈ (ofTree body (ofEntry body entry)).of a :=
  (mem_of_ofEntry_iff h hne).2 ⟨(shown_iff_of_laidOut hlaid).2 hreach, p,
    h.pred_of_succ p b hp hedge, (shown_iff_of_laidOut hlaid).2 hp, hap, hab⟩

end LaidOut

/-! ## Exactness -/

/-- The dominance of `a` ends at `b`. -/
def Ends (body : Body) (entry a b : BlockId) : Prop := Reachable (Edge body.succs) entry b ∧
    (∃ p ∈ body.preds b, Dominates (Edge body.succs) entry a p) ∧ ¬StrictlyDominates (Edge body.succs) entry a b

/-- The tree holds both ends of every edge at which the dominance of its source ends. -/
def EndsShown (body : Body) (entry : BlockId) : Prop :=
  ∀ p b, Reachable (Edge body.succs) entry p → b ∈ body.succs p →
    ¬StrictlyDominates (Edge body.succs) entry p b → Shown body entry p ∧ Shown body entry b

lemma endsShown_of_laidOut (hlaid : LaidOut body entry) : EndsShown body entry := by
  intro p b hp hedge _
  rw [shown_iff_of_laidOut hlaid, shown_iff_of_laidOut hlaid]
  exact ⟨hp, hp.snoc hedge⟩

section Symmetric

variable (hin : body.hasBlock entry) (hsym : ∀ a b, b ∈ body.succs a ↔ a ∈ body.preds b)
  (hpreds : body.preds entry = [])

include hpreds in
lemma Ends.ne_entry (hb : Ends body entry a b) : b ≠ entry := by
  rintro rfl
  obtain ⟨-, ⟨p, hp, -⟩, -⟩ := hb
  simp [hpreds] at hp

include hin hsym hpreds

lemma ends_of_mem (hb : b ∈ (ofTree body (ofEntry body entry)).of a) : Ends body entry a b := by
  have hne : b ≠ entry := by
    rintro rfl
    have htwo := (of_mem_ofTree hb).2.2
    simp [hpreds] at htwo
  obtain ⟨hshown, p, hp, -, hap, hab⟩ := (mem_of_ofEntry_iff (.of_symmetric hin hsym) hne).1 hb
  exact ⟨hshown.1, ⟨p, hp, hap⟩, hab⟩

lemma mem_iff_ends_of_endsShown (hshown : EndsShown body entry) :
    b ∈ (ofTree body (ofEntry body entry)).of a ↔ Ends body entry a b := by
  refine ⟨ends_of_mem hin hsym hpreds, fun hends => ?_⟩
  obtain ⟨hb, ⟨p, hp, hap⟩, hab⟩ := id hends
  -- If `p` dominated `b` strictly, so would `a`.
  have hpb := hshown p b hap.reachable ((hsym p b).2 hp) fun hpb => hab (.trans_right hap hpb)
  exact (mem_of_ofEntry_iff (.of_symmetric hin hsym) (hends.ne_entry hpreds)).2 ⟨hpb.2, p, hp, hpb.1, hap, hab⟩

lemma endsShown_of_mem_iff_ends
    (hexact : ∀ a b, b ∈ (ofTree body (ofEntry body entry)).of a ↔ Ends body entry a b) :
    EndsShown body entry := by
  intro p b hp hedge hpb
  have hends : Ends body entry p b := ⟨hp.snoc hedge, ⟨p, (hsym p b).1 hedge, .refl hp⟩, hpb⟩
  obtain ⟨hb, q, -, hq, hpq, -⟩ :=
    (mem_of_ofEntry_iff (.of_symmetric hin hsym) (hends.ne_entry hpreds)).1 ((hexact p b).2 hends)
  -- `p` is held because it dominates `q`, which is.
  exact ⟨⟨hp, fun a ha => hq.2 a (ha.trans hpq)⟩, hb⟩

end Symmetric

/-- The frontiers of a body with symmetric edges, whose entry has no predecessor, list no block twice and
only blocks at which dominance ends. They list all of those if and only if the tree holds both ends of
the edges at which dominance ends, as it does if every block that the entry reaches is laid out. -/
theorem compute_exact_iff_endsShown (hentry : body.entry = some entry) (hin : body.hasBlock entry)
    (hsym : ∀ a b, b ∈ body.succs a ↔ a ∈ body.preds b) (hpreds : body.preds entry = []) :
    ∃ t f, DominatorTree.compute body = .ok t ∧ compute body t = .ok f ∧
      (∀ a, (f.of a).Nodup) ∧ (∀ a, ∀ b ∈ f.of a, Ends body entry a b) ∧
      ((∀ a b, b ∈ f.of a ↔ Ends body entry a b) ↔ EndsShown body entry) ∧
      (LaidOut body entry → ∀ a b, b ∈ f.of a ↔ Ends body entry a b) := by
  have h : Linked body entry := .of_symmetric hin hsym
  refine ⟨_, _, compute_eq hentry, compute_ofEntry h hpreds, fun a => nodup_of_ofTree,
    fun a b => ends_of_mem hin hsym hpreds, ⟨endsShown_of_mem_iff_ends hin hsym hpreds, ?_⟩, ?_⟩
  · exact fun hshown a b => mem_iff_ends_of_endsShown hin hsym hpreds hshown
  · exact fun hlaid a b =>
      mem_iff_ends_of_endsShown hin hsym hpreds (endsShown_of_laidOut hlaid)

/-- Block 2 jumps to itself or back to block 1, and block 4, which nothing leads to, to block 3. -/
def nestedLoops : Body := (Op.afterAll? [.createBlock none, .createBlock none, .createBlock none, .createBlock none,
    .createBlock none, .setJump ⟨0⟩ ⟨1⟩, .createInst (.branch ⟨2⟩ ⟨3⟩) [.arg ⟨0⟩] .void,
    .setTerminator ⟨1⟩ ⟨1⟩, .createInst (.branch ⟨2⟩ ⟨1⟩) [.arg ⟨0⟩] .void, .setTerminator ⟨2⟩ ⟨2⟩,
    .setJump ⟨4⟩ ⟨3⟩] (Body.empty [.i32] .void)).getD default

theorem nestedLoops_exact : nestedLoops.entry = some ⟨0⟩ ∧ nestedLoops.hasBlock ⟨0⟩ ∧
    (∀ a b, b ∈ nestedLoops.succs a ↔ a ∈ nestedLoops.preds b) ∧ nestedLoops.preds ⟨0⟩ = [] ∧
    ∃ t f, DominatorTree.compute nestedLoops = .ok t ∧ compute nestedLoops t = .ok f ∧
      f.of ⟨2⟩ = [⟨1⟩, ⟨2⟩] ∧ ∀ a b, b ∈ f.of a ↔ Ends nestedLoops ⟨0⟩ a b := by
  have hentry : nestedLoops.entry = some ⟨0⟩ := by decide
  have hsym := symmetric_of_blockIds nestedLoops (by decide) (by decide)
  refine ⟨hentry, by decide, hsym, by decide, ?_⟩
  obtain ⟨t, f, ht, hf, -, -, -, hexact⟩ := compute_exact_iff_endsShown hentry (by decide) hsym (by decide)
  refine ⟨t, f, ht, hf, ?_, hexact fun b hb _ => ?_⟩
  · have hcomputed : ((DominatorTree.compute nestedLoops).bind (compute nestedLoops)).map (·.of ⟨2⟩) =
        .ok [⟨1⟩, ⟨2⟩] := by cbv
    rw [ht] at hcomputed
    simpa [Except.bind, Except.map, hf] using hcomputed
  · exact mem_of_reachable nestedLoops.order (by decide) (by decide) hb

/-- Blocks 1 and 2 lead to block 4, which was put after a block that had been taken out, so it is not in
the row. -/
def strayMeeting : Body :=
  (Op.afterAll? [.createBlock none, .createBlock none, .createBlock none, .createBlock none,
    .removeBlock ⟨3⟩, .createBlock (some ⟨3⟩), .createInst (.branch ⟨1⟩ ⟨2⟩) [.arg ⟨0⟩] .void,
    .insertLast ⟨0⟩ ⟨0⟩, .setJump ⟨1⟩ ⟨4⟩, .setJump ⟨2⟩ ⟨4⟩, .createInst .ret [] .void,
    .insertLast ⟨4⟩ ⟨3⟩] (Body.empty [.i32] .void)).getD default

/-- No removed block is reachable and the dominance of block 1 ends at block 4, but its frontier is
empty. -/
theorem strayMeeting_not_exact : strayMeeting.entry = some ⟨0⟩ ∧
    (∀ a b, b ∈ strayMeeting.succs a ↔ a ∈ strayMeeting.preds b) ∧ strayMeeting.preds ⟨0⟩ = [] ∧
    (∀ b, Reachable (Edge strayMeeting.succs) ⟨0⟩ b → (strayMeeting.block b).isRemoved = false) ∧
    ∃ t f, DominatorTree.compute strayMeeting = .ok t ∧ compute strayMeeting t = .ok f ∧
      Ends strayMeeting ⟨0⟩ ⟨1⟩ ⟨4⟩ ∧ ⟨4⟩ ∉ f.of ⟨1⟩ := by
  have hentry : strayMeeting.entry = some ⟨0⟩ := by decide
  have hsym := symmetric_of_blockIds strayMeeting (by decide) (by decide)
  have hreach : Reachable (Edge strayMeeting.succs) ⟨0⟩ ⟨1⟩ :=
    Reachable.refl.snoc (show (⟨1⟩ : BlockId) ∈ strayMeeting.succs ⟨0⟩ by decide)
  refine ⟨hentry, hsym, by decide, fun b hb => ?_, _, _, compute_eq hentry,
    compute_ofEntry (.of_symmetric (by decide) hsym) (by decide),
    ⟨hreach.snoc (show (⟨4⟩ : BlockId) ∈ strayMeeting.succs ⟨1⟩ by decide),
      ⟨⟨1⟩, by decide, .refl hreach⟩, fun hdom => ?_⟩, fun hmem => ?_⟩
  · have hmem := mem_of_reachable [⟨0⟩, ⟨1⟩, ⟨2⟩, ⟨4⟩] (by decide) (by decide) hb
    have hall : ∀ b ∈ [(⟨0⟩ : BlockId), ⟨1⟩, ⟨2⟩, ⟨4⟩], (strayMeeting.block b).isRemoved = false := by
      decide
    exact hall b hmem
  · -- The way over block 2 leaves block 1 out.
    have hpath : Path (Edge strayMeeting.succs) ⟨0⟩ ⟨4⟩ [⟨0⟩, ⟨2⟩, ⟨4⟩] :=
      .step (show (⟨2⟩ : BlockId) ∈ strayMeeting.succs ⟨0⟩ by decide)
        (.step (show (⟨4⟩ : BlockId) ∈ strayMeeting.succs ⟨2⟩ by decide) (.single _))
    exact absurd (hdom.2.2 _ hpath) (by decide)
  · exact absurd (of_mem_ofTree hmem).1 (by decide)

end Frontier

end MethodIR
