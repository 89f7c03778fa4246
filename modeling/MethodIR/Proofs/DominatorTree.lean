import MethodIR.Body.Op
import MethodIR.Dominance.Tree
import MethodIR.Proofs.Immediate

/-!
# The computed dominator tree

Intervals of the walk are nested as the blocks dominate each other (`Spans.Inv`), so the tree is exact
if and only if every block that can be reached is laid out.
-/

namespace MethodIR.DominatorTree

open List FlowGraph DepthFirst Dominance Tables Option

/-! ## Intervals along a walk of the tree -/

namespace Spans

def start (s : Spans) (b : BlockId) : Nat := ((s.interval.getD b.index none).getD (0, 0)).1

def stop (s : Spans) (b : BlockId) : Nat := ((s.interval.getD b.index none).getD (0, 0)).2

variable {s : Spans} {a b c h : BlockId} {capacity : Nat} {E : BlockId → BlockId → Prop}
  {entry : BlockId} {opened seen : List BlockId}

@[simp] lemma position_step (s : Spans) (v : Visit) : (s.step v).position = s.position + 1 := by
  cases v <;> rfl

section

variable (hc : c.index < s.interval.size)
include hc

lemma interval_enter : (s.step (.enter c)).interval.getD b.index none =
      if b = c then some (s.position, s.position) else s.interval.getD b.index none := by
  rw [step, getD_setIfInBounds]
  by_cases hbc : b = c
  · rw [if_pos ⟨hbc ▸ rfl, hbc ▸ hc⟩, if_pos hbc]
  · rw [if_neg fun heq => hbc (BlockId.ext heq.1.symm), if_neg hbc]

lemma interval_exit : (s.step (.exit c)).interval.getD b.index none =
      if b = c then (s.interval.getD b.index none).map fun i => (i.1, s.position)
      else s.interval.getD b.index none := by
  rw [step, getD_modify]
  by_cases hbc : b = c
  · rw [if_pos ⟨hbc ▸ rfl, hbc ▸ hc⟩, if_pos hbc]
  · rw [if_neg fun heq => hbc (BlockId.ext heq.1.symm), if_neg hbc]

lemma start_enter : (s.step (.enter c)).start b = if b = c then s.position else s.start b := by
  rw [start, interval_enter hc]
  split <;> rfl

lemma stop_enter : (s.step (.enter c)).stop b = if b = c then s.position else s.stop b := by
  rw [stop, interval_enter hc]
  split <;> rfl

end

/-- What is known when a walk over the tree has entered `seen` and `opened` is open. A block that is
still open has no end yet. -/
structure Inv (E : BlockId → BlockId → Prop) (entry : BlockId) (capacity : Nat)
    (opened seen : List BlockId) (s : Spans) : Prop where
  interval_size : s.interval.size = capacity
  depth_size : s.depth.size = capacity
  level : s.level = opened.length
  isSome_iff : ∀ b, (s.interval.getD b.index none).isSome ↔ b ∈ seen
  start_lt : ∀ b ∈ seen, s.start b < s.position
  stop_lt : ∀ b ∈ seen, s.stop b < s.position
  opened_subset : ∀ b ∈ opened, b ∈ seen
  sorted : opened.Pairwise fun a b => s.start b < s.start a
  upward : ∀ b ∈ seen, ∀ a, Dominates E entry a b → a ∈ seen
  dominates : ∀ a ∈ seen, ∀ b ∈ seen, Dominates E entry a b ↔
    s.start a ≤ s.start b ∧ (a ∈ opened ∨ b ∉ opened ∧ s.stop b ≤ s.stop a)
  depth : ∀ b ∈ seen, s.depth.getD b.index 0 = {a | StrictlyDominates E entry a b}.ncard

section

variable (i : Inv E entry capacity opened seen s) (hc : c ∈ seen) (hlt : c.index < s.interval.size)
include i hc hlt

lemma start_exit : (s.step (.exit c)).start b = s.start b := by
  rw [start, interval_exit hlt, start]
  obtain ⟨x, hx⟩ := isSome_iff_exists.1 ((i.isSome_iff c).2 hc)
  by_cases hbc : b = c
  · simp [hbc, hx]
  · rw [if_neg hbc]

lemma stop_exit : (s.step (.exit c)).stop b = if b = c then s.position else s.stop b := by
  rw [stop, interval_exit hlt, stop]
  obtain ⟨x, hx⟩ := isSome_iff_exists.1 ((i.isSome_iff c).2 hc)
  by_cases hbc : b = c
  · simp [hbc, hx]
  · rw [if_neg hbc, if_neg hbc]

end

lemma Inv.mem_opened_iff (i : Inv E entry capacity (h :: opened) seen s) :
    a ∈ h :: opened ↔ Dominates E entry a h := by
  have hh : h ∈ seen := i.opened_subset h (by simp)
  constructor
  · intro ha
    refine (i.dominates a (i.opened_subset a ha) h hh).2 ⟨?_, .inl ha⟩
    rcases mem_cons.1 ha with rfl | ha
    · exact le_rfl
    · exact ((pairwise_cons.1 i.sorted).1 a ha).le
  · intro ha
    rcases ((i.dominates a (i.upward h hh a ha) h hh).1 ha).2 with hopen | ⟨hnot, -⟩
    · exact hopen
    · exact absurd (mem_cons_self ..) hnot

lemma Inv.nodup (i : Inv E entry capacity opened seen s) : opened.Nodup :=
  i.sorted.imp fun hlt heq => by simp [heq] at hlt

lemma Inv.enter (i : Inv E entry capacity (h :: opened) seen s) (idom : IsIdom E entry h c)
    (inside : c.index < capacity) (fresh : c ∉ seen) :
    Inv E entry capacity (c :: h :: opened) (seen ++ [c]) (s.step (.enter c)) := by
  have hc : c.index < s.interval.size := i.interval_size ▸ inside
  have hne : ∀ b ∈ seen, b ≠ c := fun b hb heq => fresh (heq ▸ hb)
  have hself : Dominates E entry c c := .refl idom.1.2.1
  -- The strict dominators of the new block are the open ones.
  have hstrict : ∀ a, StrictlyDominates E entry a c ↔ a ∈ h :: opened := fun a => by
    rw [idom.dominates_iff, i.mem_opened_iff]
  have hsplit : ∀ {p : BlockId → Prop}, (∀ b ∈ seen ++ [c], p b) ↔ (∀ b ∈ seen, p b) ∧ p c := by
    simp [or_imp, forall_and]
  refine ⟨by simp [step, i.interval_size], by simp [step, i.depth_size], ?_, ?_, ?_, ?_, ?_, ?_, ?_, ?_, ?_⟩
  · simp [step, i.level]
  · intro b
    rw [interval_enter hc]
    by_cases hbc : b = c
    · simp [hbc]
    · rw [if_neg hbc, i.isSome_iff]
      simp [hbc]
  · refine hsplit.2 ⟨fun b hb => ?_, ?_⟩
    · rw [start_enter hc, if_neg (hne b hb)]
      exact (i.start_lt b hb).trans (by simp)
    · rw [start_enter hc, if_pos rfl]
      simp
  · refine hsplit.2 ⟨fun b hb => ?_, ?_⟩
    · rw [stop_enter hc, if_neg (hne b hb)]
      exact (i.stop_lt b hb).trans (by simp)
    · rw [stop_enter hc, if_pos rfl]
      simp
  · intro b hb
    rcases mem_cons.1 hb with rfl | hb
    · simp
    · exact mem_append_left _ (i.opened_subset b hb)
  · refine pairwise_cons.2 ⟨fun b hb => ?_, i.sorted.imp_of_mem fun {a b} ha hb hlt => ?_⟩
    · have hb := i.opened_subset b hb
      rw [start_enter hc, start_enter hc, if_neg (hne b hb), if_pos rfl]
      exact i.start_lt b hb
    · rw [start_enter hc, start_enter hc, if_neg (hne _ (i.opened_subset _ hb)),
        if_neg (hne _ (i.opened_subset _ ha))]
      exact hlt
  · refine hsplit.2 ⟨fun b hb a ha => mem_append_left _ (i.upward b hb a ha), fun a ha => ?_⟩
    by_cases hac : a = c
    · simp [hac]
    · exact mem_append_left _ (i.opened_subset a ((hstrict a).1 ⟨hac, ha⟩))
  · refine hsplit.2 ⟨fun a ha => hsplit.2 ⟨fun b hb => ?_, ?_⟩, hsplit.2 ⟨fun b hb => ?_, ?_⟩⟩
    · rw [i.dominates a ha b hb, start_enter hc, start_enter hc, stop_enter hc, stop_enter hc]
      rw [if_neg (hne a ha), if_neg (hne b hb), if_neg (hne a ha), if_neg (hne b hb)]
      simp [hne a ha, hne b hb]
    · rw [start_enter hc, start_enter hc, if_neg (hne a ha), if_pos rfl]
      have hmem := hstrict a
      rw [StrictlyDominates, and_iff_right (hne a ha)] at hmem
      rw [hmem]
      have hle := (i.start_lt a ha).le
      simp [hle, hne a ha]
    · rw [start_enter hc, start_enter hc, if_pos rfl, if_neg (hne b hb)]
      have hlt := i.start_lt b hb
      constructor
      · exact fun hdom => absurd (i.upward b hb c hdom) fresh
      · exact fun hle => absurd hle.1 (by omega)
    · simp [hself]
  · refine hsplit.2 ⟨fun b hb => ?_, ?_⟩
    · rw [← i.depth b hb, step, getD_setIfInBounds, if_neg fun heq => hne b hb (BlockId.ext heq.1.symm)]
    · rw [step, getD_setIfInBounds, if_pos ⟨rfl, i.depth_size ▸ inside⟩, i.level,
        ← toFinset_card_of_nodup i.nodup, ← Set.ncard_coe_finset]
      congr 1
      ext a
      simp [hstrict]

lemma Inv.exit (i : Inv E entry capacity (h :: opened) seen s) :
    Inv E entry capacity opened seen (s.step (.exit h)) := by
  have hh : h ∈ seen := i.opened_subset h (by simp)
  have hlt : h.index < s.interval.size := by
    by_contra hge
    have hsome := (i.isSome_iff h).2 hh
    rw [getD_of_size_le _ _ _ (by omega)] at hsome
    simp at hsome
  have hnot : h ∉ opened := (nodup_cons.1 i.nodup).1
  have hstart : ∀ b, (s.step (.exit h)).start b = s.start b := fun b => start_exit i hh hlt
  have hstop : ∀ b, (s.step (.exit h)).stop b = if b = h then s.position else s.stop b :=
    fun b => stop_exit i hh hlt
  refine ⟨by simp [step, i.interval_size], i.depth_size, ?_, ?_, ?_, ?_, ?_, ?_, i.upward, ?_, i.depth⟩
  · simp [step, i.level]
  · intro b
    rw [interval_exit hlt, ← i.isSome_iff]
    by_cases hbh : b = h
    · simp [hbh]
    · rw [if_neg hbh]
  · intro b hb
    rw [hstart]
    exact (i.start_lt b hb).trans (by simp)
  · intro b hb
    rw [hstop]
    split
    · simp
    · exact (i.stop_lt b hb).trans (by simp)
  · exact fun b hb => i.opened_subset b (by simp [hb])
  · simpa only [hstart] using (pairwise_cons.1 i.sorted).2
  · intro a ha b hb
    rw [i.dominates a ha b hb, hstart, hstart, hstop, hstop]
    have hstopa := i.stop_lt a ha
    have hstopb := i.stop_lt b hb
    by_cases hah : a = h
    · -- A block opened at or after `h` is not among those that stay open.
      subst hah
      have hlate : s.start a ≤ s.start b → b ∉ opened := fun hle hmem =>
        absurd ((pairwise_cons.1 i.sorted).1 b hmem) (by omega)
      by_cases hba : b = a
      · simp [hba, hnot]
      · simp only [mem_cons_self, true_or, and_true, if_neg hba, if_pos, hnot, false_or]
        exact ⟨fun hle => ⟨hle, hlate hle, hstopb.le⟩, fun hle => hle.1⟩
    · by_cases hbh : b = h
      · subst hbh
        simp [hah, hnot, hstopa]
      · simp [hah, hbh]

lemma run_inv {ch : BlockId → List BlockId} {visits : List Visit}
    (run : Run ch capacity entry opened seen visits) (hch : ∀ p c, c ∈ ch p → IsIdom E entry p c)
    (i : Inv E entry capacity opened seen s) :
    Inv E entry capacity [] (seen ++ entered visits) (visits.foldl step s) := by
  induction run generalizing s with
  | done seen => simpa using i
  | @start visits inside _ ih =>
    have hroot : ∀ a, Dominates E entry a entry ↔ a = entry := by
      refine fun a => ⟨fun ha => ?_, fun ha => ha ▸ .refl .refl⟩
      by_contra hne
      exact not_strictlyDominates_root ⟨hne, ha⟩
    have hin : entry.index < s.interval.size := i.interval_size ▸ inside
    refine ih ⟨by simp [step, i.interval_size], by simp [step, i.depth_size], ?_, ?_, ?_, ?_, ?_, ?_, ?_, ?_, ?_⟩
    · simp [step, i.level]
    · intro b
      have hnone := (i.isSome_iff b).not.2 (by simp)
      rw [interval_enter hin]
      by_cases hb : b = entry
      · simp [hb]
      · rw [if_neg hb]
        simpa [hb] using hnone
    · simp [start_enter hin]
    · simp [stop_enter hin]
    · simp
    · simp
    · simp [hroot]
    · simp [hroot]
    · have hset : {a | StrictlyDominates E entry a entry} = ∅ := by
        ext a
        simp [not_strictlyDominates_root]
      intro b hb
      rw [mem_singleton.1 hb, hset, Set.ncard_empty, step, getD_setIfInBounds,
        if_pos ⟨rfl, i.depth_size ▸ inside⟩, i.level, length_nil]
  | @enter p b opened seen visits next _ ih =>
    obtain ⟨edge, inside, fresh⟩ := Run.fresh next
    simpa using ih (i.enter (hch p b edge) inside fresh)
  | exit _ _ ih => exact ih i.exit

end Spans

/-! ## The tree of a body -/

variable {body : Body} {entry a b c p : BlockId} {t : DominatorTree}

lemma mem_childrenOf {idom : Array (Option BlockId)} (hp : p.index < body.blocks.size) :
    c ∈ (childrenOf body idom).getD p.index [] ↔ c ∈ body.order ∧ idom.getD c.index none = some p := by
  suffices hall : ∀ add : Array (List BlockId) → BlockId → Array (List BlockId),
      (∀ children b, idom.getD b.index none = none → add children b = children) →
      (∀ children b q, idom.getD b.index none = some q → add children b = children.modify q.index (· ++ [b])) →
      ∀ (bs : List BlockId) (children : Array (List BlockId)), p.index < children.size →
        (c ∈ (bs.foldl add children).getD p.index [] ↔
          c ∈ children.getD p.index [] ∨ c ∈ bs ∧ idom.getD c.index none = some p) by
    refine (hall _ (fun children b hb => ?_) (fun children b q hb => ?_) _ _ (by simpa using hp)).trans ?_
    · simp only [hb]
    · simp only [hb]
    · rw [getD_replicated, ite_self]
      simp
  intro add hnone hsome bs
  induction bs with
  | nil => simp
  | cons b bs ih =>
    intro children hlt
    rw [foldl_cons]
    cases hb : idom.getD b.index none with
    | none =>
      rw [hnone children b hb, ih _ hlt]
      by_cases hcb : c = b
      · simp [hcb, -Array.getD_eq_getD_getElem?, hb]
      · simp [hcb]
    | some q =>
      rw [hsome children b q hb, ih _ (by simpa using hlt), getD_modify]
      by_cases hqp : q = p
      · rw [if_pos ⟨hqp ▸ rfl, hlt⟩, mem_append, mem_singleton]
        by_cases hcb : c = b
        · simp [hcb, -Array.getD_eq_getD_getElem?, hb, hqp]
        · simp [hcb]
      · rw [if_neg fun heq => hqp (BlockId.ext heq.1)]
        by_cases hcb : c = b
        · simp [hcb, -Array.getD_eq_getD_getElem?, hb, hqp]
        · simp [hcb]

def ofEntry (body : Body) (entry : BlockId) : DominatorTree :=
  let capacity := body.blocks.size
  let idom := Dominance.immediate body entry
  let children := childrenOf body idom
  let walk := DepthFirst.visits capacity entry fun b => children.getD b.index []
  let spans := Spans.ofWalk capacity walk
  { entry, idom, children, walk, depth := spans.depth, interval := spans.interval }

lemma compute_eq (hentry : body.entry = some entry) : compute body = .ok (ofEntry body entry) := by
  rw [compute, hentry]
  rfl

section

variable (h : Linked body entry)

include h

lemma idom?_eq_some_iff : (ofEntry body entry).idom? b = some a ↔ IsIdom (Edge body.succs) entry a b :=
  h.immediate_eq_some_iff

lemma mem_childrenAt_iff : c ∈ (ofEntry body entry).childrenAt p ↔
    c ∈ body.order ∧ IsIdom (Edge body.succs) entry p c := by
  by_cases hp : p.index < body.blocks.size
  · rw [← h.immediate_eq_some_iff]
    exact mem_childrenOf hp
  · have hsize : (childrenOf body (immediate body entry)).size = body.blocks.size := by
      rw [childrenOf]
      refine foldlRecOn (motive := fun xs : Array (List BlockId) => xs.size = body.blocks.size)
        _ _ (by simp) fun xs hxs b _ => ?_
      split <;> simp [hxs]
    have hnil : (ofEntry body entry).childrenAt p = [] := getD_of_size_le _ _ _ (hsize.trans_le (by omega))
    rw [hnil]
    refine ⟨fun hc => by simp at hc, fun hc => absurd (h.lt_of_reachable ?_) hp⟩
    exact hc.2.1.2.reachable_left

lemma spans_inv : Spans.Inv (Edge body.succs) entry body.blocks.size [] (ofEntry body entry).preorder
      (Spans.ofWalk body.blocks.size (ofEntry body entry).walk) := by
  have hrun : Run (ofEntry body entry).childrenAt body.blocks.size entry [] []
      (ofEntry body entry).walk := visits_run h.entry_lt
  refine Spans.run_inv hrun (fun p c hc => ((mem_childrenAt_iff h).1 hc).2) ⟨by simp, by simp, rfl,
    fun b => ?_, by simp, by simp, by simp, by simp, by simp, by simp, by simp⟩
  rw [getD_replicated, ite_self]
  simp

/-- The tree holds a block if all its dominators but the entry are laid out. -/
def Shown (body : Body) (entry b : BlockId) : Prop := Reachable (Edge body.succs) entry b ∧
    ∀ a, Dominates (Edge body.succs) entry a b → a ≠ entry → a ∈ body.order

lemma mem_preorder_iff : b ∈ (ofEntry body entry).preorder ↔ Shown body entry b := by
  have hedge : ∀ p c, c ∈ (ofEntry body entry).childrenAt p → c.index < body.blocks.size :=
    fun p c hc => h.lt_of_reachable ((mem_childrenAt_iff h).1 hc).2.1.2.1
  have hmem : b ∈ (ofEntry body entry).preorder ↔
      Reachable (Edge (ofEntry body entry).childrenAt) entry b :=
    mem_entered_visits h.entry_lt fun a b _ hb => hedge a b hb
  rw [hmem]
  constructor
  · intro hb
    refine Reachable.induction (motive := fun b => Shown body entry b) ?_ ?_ hb
    · refine ⟨.refl, fun a ha hne => ?_⟩
      exact absurd ⟨hne, ha⟩ not_strictlyDominates_root
    · intro p c _ hc hp
      obtain ⟨horder, hidom⟩ := (mem_childrenAt_iff h).1 hc
      refine ⟨hidom.1.2.1, fun a ha hne => ?_⟩
      by_cases hac : a = c
      · exact hac ▸ horder
      · exact hp.2 a (hidom.2 a ⟨hac, ha⟩) hne
  · rintro ⟨hreach, hlaid⟩
    refine Reachable.idom_induction (motive := fun b =>
      (∀ a, Dominates (Edge body.succs) entry a b → a ≠ entry → a ∈ body.order) →
        Reachable (Edge (ofEntry body entry).childrenAt) entry b)
      (fun b => h.exists_isIdom) (fun _ => .refl) ?_ hreach hlaid
    intro d b hd ih hlaid
    have hne : b ≠ entry := by
      rintro rfl
      exact not_strictlyDominates_root hd.1
    refine (ih fun a ha => hlaid a (ha.trans hd.1.2)).snoc ?_
    exact (mem_childrenAt_iff h).2 ⟨hlaid b (.refl hd.1.2.1) hne, hd⟩

lemma isReachable_iff : (ofEntry body entry).isReachable b ↔ Shown body entry b := by
  rw [← mem_preorder_iff h]
  exact (spans_inv h).isSome_iff b

lemma dominates_iff_shown : (ofEntry body entry).dominates a b ↔
    Shown body entry b ∧ Dominates (Edge body.succs) entry a b := by
  have i := spans_inv h
  have hmem : ∀ x, ((ofEntry body entry).interval? x).isSome ↔ x ∈ (ofEntry body entry).preorder := i.isSome_iff
  have hstart : ∀ x : BlockId, (Spans.ofWalk body.blocks.size (ofEntry body entry).walk).start x =
      (((ofEntry body entry).interval? x).getD (0, 0)).1 := fun x => rfl
  have hstop : ∀ x : BlockId, (Spans.ofWalk body.blocks.size (ofEntry body entry).walk).stop x =
      (((ofEntry body entry).interval? x).getD (0, 0)).2 := fun x => rfl
  rw [← mem_preorder_iff h]
  constructor
  · intro hdom
    cases ha : (ofEntry body entry).interval? a with
    | none => simp [dominates, ha] at hdom
    | some ia =>
      cases hb : (ofEntry body entry).interval? b with
      | none => simp [dominates, ha, hb] at hdom
      | some ib =>
        have hamem := (hmem a).1 (by simp [ha])
        have hbmem := (hmem b).1 (by simp [hb])
        refine ⟨hbmem, (i.dominates a hamem b hbmem).2 ?_⟩
        simpa [dominates, ha, hb, hstart, hstop] using hdom
  · rintro ⟨hbmem, hdom⟩
    have hamem := i.upward b hbmem a hdom
    obtain ⟨ia, ha⟩ := isSome_iff_exists.1 ((hmem a).2 hamem)
    obtain ⟨ib, hb⟩ := isSome_iff_exists.1 ((hmem b).2 hbmem)
    have hnest := (i.dominates a hamem b hbmem).1 hdom
    simpa [dominates, ha, hb, hstart, hstop] using hnest

lemma depthOf_eq (hb : Shown body entry b) : (ofEntry body entry).depthOf b =
    {a | StrictlyDominates (Edge body.succs) entry a b}.ncard :=
  (spans_inv h).depth b ((mem_preorder_iff h).2 hb)

end

/-! ## Exactness -/

/-- The tree says what the paths from the entry say. -/
structure Exact (body : Body) (entry : BlockId) (t : DominatorTree) : Prop where
  reachable : ∀ b, t.isReachable b ↔ Reachable (Edge body.succs) entry b
  dominates : ∀ a b, t.dominates a b ↔ Reachable (Edge body.succs) entry a ∧
    Reachable (Edge body.succs) entry b ∧ ∀ p, Path (Edge body.succs) entry b p → a ∈ p
  idom_none : ∀ b, b = entry ∨ ¬Reachable (Edge body.succs) entry b → t.idom? b = none
  idom_some : ∀ b, b ≠ entry → Reachable (Edge body.succs) entry b →
    ∃ d, t.idom? b = some d ∧ IsIdom (Edge body.succs) entry d b
  depth : ∀ b, Reachable (Edge body.succs) entry b →
    t.depthOf b = {a | StrictlyDominates (Edge body.succs) entry a b}.ncard

/-- Every block that the entry reaches is in the row of blocks. -/
def LaidOut (body : Body) (entry : BlockId) : Prop :=
  ∀ b, Reachable (Edge body.succs) entry b → b ≠ entry → b ∈ body.order

lemma shown_iff_of_laidOut (hlaid : LaidOut body entry) :
    Shown body entry b ↔ Reachable (Edge body.succs) entry b :=
  ⟨fun hb => hb.1, fun hb => ⟨hb, fun a ha => hlaid a ha.reachable_left⟩⟩

lemma idom?_eq_none (h : Linked body entry) (hb : b = entry ∨ ¬Reachable (Edge body.succs) entry b) :
    (ofEntry body entry).idom? b = none := by
  refine eq_none_iff_forall_ne_some.2 fun d hd => ?_
  have hidom := (idom?_eq_some_iff h).1 hd
  rcases hb with rfl | hb
  · exact not_strictlyDominates_root hidom.1
  · exact hb hidom.1.2.1

lemma exact_of_laidOut (h : Linked body entry) (hlaid : LaidOut body entry) :
    Exact body entry (ofEntry body entry) := by
  refine ⟨fun b => ?_, fun a b => ?_, fun b => idom?_eq_none h, fun b hne hb => ?_, fun b hb => ?_⟩
  · rw [isReachable_iff h, shown_iff_of_laidOut hlaid]
  · rw [dominates_iff_shown h, shown_iff_of_laidOut hlaid]
    exact ⟨fun hab => ⟨hab.2.reachable_left, hab.2⟩, fun hab => ⟨hab.2.1, hab.2⟩⟩
  · obtain ⟨d, hd⟩ := h.exists_isIdom hb hne
    exact ⟨d, (idom?_eq_some_iff h).2 hd, hd⟩
  · exact depthOf_eq h ((shown_iff_of_laidOut hlaid).2 hb)

lemma laidOut_of_exact (h : Linked body entry) (hexact : Exact body entry (ofEntry body entry)) :
    LaidOut body entry := by
  intro b hb hne
  have hshown := (isReachable_iff h).1 ((hexact.reachable b).2 hb)
  exact hshown.2 b (.refl hb) hne

lemma symmetric_of_blockIds (body : Body) (hsucc : ∀ a ∈ body.blockIds, ∀ b ∈ body.succs a, a ∈ body.preds b)
    (hpred : ∀ b ∈ body.blockIds, ∀ a ∈ body.preds b, b ∈ body.succs a) (a b : BlockId) :
    b ∈ body.succs a ↔ a ∈ body.preds b := by
  have hmem : ∀ x : BlockId, x.index < body.blocks.size → x ∈ body.blockIds := by
    intro x hx
    exact mem_map.2 ⟨x.index, mem_range.2 hx, rfl⟩
  constructor
  · intro hb
    by_cases ha : a.index < body.blocks.size
    · exact hsucc a (hmem a ha) b hb
    · rw [succs_of_size_le (by omega)] at hb
      simp at hb
  · intro ha
    by_cases hb : b.index < body.blocks.size
    · exact hpred b (hmem b hb) a ha
    · rw [preds_of_size_le (by omega)] at ha
      simp at ha

lemma mem_of_reachable (bs : List BlockId) (hentry : entry ∈ bs)
    (hclosed : ∀ a ∈ bs, ∀ b ∈ body.succs a, b ∈ bs) (hb : Reachable (Edge body.succs) entry b) : b ∈ bs :=
  Reachable.induction (motive := fun b => b ∈ bs) hentry (fun a b _ edge ha => hclosed a ha b edge) hb

/-- The tree of a body with symmetric edges is exact if and only if every block that the entry reaches
is laid out. -/
theorem compute_exact_iff_laidOut (hentry : body.entry = some entry) (hin : body.hasBlock entry)
    (hsym : ∀ a b, b ∈ body.succs a ↔ a ∈ body.preds b) :
    ∃ t, compute body = .ok t ∧ (Exact body entry t ↔ LaidOut body entry) := by
  have h : Linked body entry := .of_symmetric hin hsym
  exact ⟨_, compute_eq hentry, laidOut_of_exact h, exact_of_laidOut h⟩

/-- A loop from block 2 back to block 1, which also leads on to block 3. -/
def loopBody : Body := (Op.afterAll? [.createBlock none, .createBlock none, .createBlock none, .createBlock none,
    .setJump ⟨0⟩ ⟨1⟩, .createInst (.branch ⟨2⟩ ⟨3⟩) [.arg ⟨0⟩] .void, .setTerminator ⟨1⟩ ⟨1⟩,
    .setJump ⟨2⟩ ⟨1⟩] (Body.empty [.i32] .void)).getD default

theorem loopBody_exact : loopBody.entry = some ⟨0⟩ ∧ loopBody.hasBlock ⟨0⟩ ∧
    (∀ a b, b ∈ loopBody.succs a ↔ a ∈ loopBody.preds b) ∧
    ∃ t, compute loopBody = .ok t ∧ Exact loopBody ⟨0⟩ t := by
  have hentry : loopBody.entry = some ⟨0⟩ := by decide
  have hsym := symmetric_of_blockIds loopBody (by decide) (by decide)
  refine ⟨hentry, by decide, hsym, ?_⟩
  obtain ⟨t, ht, hexact⟩ := compute_exact_iff_laidOut hentry (by decide) hsym
  refine ⟨t, ht, hexact.2 fun b hb _ => ?_⟩
  exact mem_of_reachable loopBody.order (by decide) (by decide) hb

/-- Block 3 is put after a block that was taken out, so it is not in the row. -/
def strayBody : Body := (Op.afterAll? [.createBlock none, .createBlock none, .createBlock none, .removeBlock ⟨2⟩,
    .createBlock (some ⟨2⟩), .setJump ⟨0⟩ ⟨3⟩, .createInst .ret [] .void, .insertLast ⟨3⟩ ⟨1⟩]
    (Body.empty [.i32] .void)).getD default

/-- Edges are symmetric and no removed block is reachable, but the tree misses block 3. -/
theorem strayBody_not_exact : strayBody.entry = some ⟨0⟩ ∧ (∀ a b, b ∈ strayBody.succs a ↔ a ∈ strayBody.preds b) ∧
    (∀ b, Reachable (Edge strayBody.succs) ⟨0⟩ b → (strayBody.block b).isRemoved = false) ∧
    ∃ t, compute strayBody = .ok t ∧ ¬Exact strayBody ⟨0⟩ t := by
  have hentry : strayBody.entry = some ⟨0⟩ := by decide
  have hsym := symmetric_of_blockIds strayBody (by decide) (by decide)
  refine ⟨hentry, hsym, fun b hb => ?_, _, compute_eq hentry, fun hexact => ?_⟩
  · have hmem := mem_of_reachable [⟨0⟩, ⟨3⟩] (by decide) (by decide) hb
    have hall : ∀ b ∈ [(⟨0⟩ : BlockId), ⟨3⟩], (strayBody.block b).isRemoved = false := by decide
    exact hall b hmem
  · have hlaid := laidOut_of_exact (.of_symmetric (by decide) hsym) hexact
    have hreach : Reachable (Edge strayBody.succs) ⟨0⟩ ⟨3⟩ :=
      Reachable.refl.snoc (show (⟨3⟩ : BlockId) ∈ strayBody.succs ⟨0⟩ by decide)
    exact absurd (hlaid ⟨3⟩ hreach (by decide)) (by decide)

end MethodIR.DominatorTree
