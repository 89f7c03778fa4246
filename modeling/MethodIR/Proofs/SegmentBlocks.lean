import MethodIR.Proofs.Frames
import MethodIR.Proofs.SplitBlocks

/-!
# The blocks of segments

Every block belongs to a segment, but for one before the code (`Parted`). `Guarded` says how the blocks
of a segment are entered, `Ending` that terminators end blocks, `Stacked` what segments find on the stack.
-/

namespace MethodIR

open List Success Option

/-- The offsets at which the handler and the filter of a region start. -/
def Bytecode.Region.handlerStarts (r : Bytecode.Region) : List Nat := r.handlerStart :: r.filterStart.toList

namespace Import

open Traced Body

variable {m : Bytecode} {leaders : List Nat} {own own' : BlockId → Option Nat} {free : Nat → Prop}
  {rest n k : Nat} {s s' : State} {i g : InstId} {a b t : BlockId} {kind : Kind} {vs : List Value} {ty : Ty}

/-! ## What is kept -/

/-- The blocks are parted among the segments. A block before the code belongs to none. -/
structure Parted (m : Bytecode) (leaders : List Nat) (own : BlockId → Option Nat) (s : State) : Prop where
  size : s.segments.size = (ranges m.codeSize leaders).length
  range : ∀ n, n < s.segments.size →
    (ranges m.codeSize leaders)[n]? = some ((s.segment n).start, (s.segment n).stop)
  block : ∀ n, n < s.segments.size → s.body.hasBlock (s.segment n).block ∧ own (s.segment n).block = some n
  entryBlock : ∀ n, n < s.segments.size →
    s.body.hasBlock (s.segment n).entryBlock ∧ own (s.segment n).entryBlock = some n
  entry : s.body.entry = some ⟨0⟩
  entry_own : own ⟨0⟩ = if 0 ∈ leaders then none else some 0

section

variable (h : Parted m leaders own s)
include h

lemma Parted.congr (hsegments : SameSegments s s')
    (hblock : ∀ b, s.body.hasBlock b → s'.body.hasBlock b) (hentry : s'.body.entry = s.body.entry) :
    Parted m leaders own s' := by
  have hsize := hsegments.size
  refine ⟨hsize.trans h.size, fun n hn => ?_, fun n hn => ?_, fun n hn => ?_, hentry.trans h.entry, h.entry_own⟩
  all_goals
    obtain ⟨hstart, hstop, hown, hent⟩ := hsegments.same n
    rw [hsize] at hn
  · rw [hstart, hstop]
    exact h.range n hn
  · rw [hown]
    exact ⟨hblock _ (h.block n hn).1, (h.block n hn).2⟩
  · rw [hent]
    exact ⟨hblock _ (h.entryBlock n hn).1, (h.entryBlock n hn).2⟩

lemma Parted.block_inj (hn : n < s.segments.size)
    (hk : k < s.segments.size) (heq : (s.segment n).block = (s.segment k).block) : n = k := by
  have hown := (h.block n hn).2
  rw [heq, (h.block k hk).2] at hown
  exact (some.inj hown).symm

lemma Parted.start_inj (hleaders : Leaders m leaders) (hn : n < s.segments.size) (hk : k < s.segments.size)
    (heq : (s.segment n).start = (s.segment k).start) : n = k := by
  obtain ⟨hn', hcut⟩ := List.getElem?_eq_some_iff.1 (getElem?_ranges.1 (h.range n hn)).1
  obtain ⟨hk', hcut'⟩ := List.getElem?_eq_some_iff.1 (getElem?_ranges.1 (h.range k hk)).1
  have hnodup : (cuts m leaders).Nodup := hleaders.cuts_ascending.imp fun hlt => hlt.ne
  exact hnodup.getElem_inj_iff.1 (hcut.trans (heq.trans hcut'.symm))

lemma Parted.next (hn : n + 1 < s.segments.size) : (s.segment n).stop = (s.segment (n + 1)).start :=
  some.inj ((getElem?_ranges.1 (h.range n (Nat.lt_of_succ_lt hn))).2.symm.trans
    (getElem?_ranges.1 (h.range (n + 1) hn)).1)

lemma Parted.exists_start_iff (hleaders : Leaders m leaders) (hm : m.Contiguous)
    {offset : Nat} : (∃ n < s.segments.size, (s.segment n).start = offset) ↔
      offset < m.codeSize ∧ (offset = 0 ∨ offset ∈ leaders) := by
  rw [← hleaders.exists_range_iff hm]
  constructor
  · rintro ⟨n, hn, rfl⟩
    exact ⟨n, _, h.range n hn⟩
  · rintro ⟨n, stop, hrange⟩
    have hn : n < s.segments.size := h.size ▸ (List.getElem?_eq_some_iff.1 hrange).1
    rw [h.range n hn] at hrange
    exact ⟨n, hn, congrArg Prod.fst (some.inj hrange)⟩

lemma Parted.start_zero (hleaders : Leaders m leaders) (hn : 0 < s.segments.size) : (s.segment 0).start = 0 := by
  obtain ⟨hfirst, -⟩ := getElem?_ranges.1 (h.range 0 hn)
  obtain ⟨hlt, hfirst⟩ := List.getElem?_eq_some_iff.1 hfirst
  obtain ⟨k, hk, hzero⟩ := mem_iff_getElem.1 (mem_cuts.2 (.inr (.inl rfl)) : 0 ∈ cuts m leaders)
  rcases Nat.eq_zero_or_pos k with rfl | hpos
  · exact hfirst.symm.trans hzero
  · have := pairwise_iff_getElem.1 hleaders.cuts_ascending 0 k hlt hk hpos
    omega

end

/-- How control gets from an instruction of block `a` to the blocks of segment `n`: it is there already,
the instruction is the guard of a region that names the segment as handler or filter, the block is
the one before the code, or the segment is free for all. -/
def Enters (own : BlockId → Option Nat) (free : Nat → Prop) (s : State) (i : InstId) (a : BlockId)
    (n : Nat) : Prop :=
  own a = some n ∨ (∃ r, (i, r) ∈ s.guards ∧ (s.segment n).start ∈ r.handlerStarts) ∨ (a = ⟨0⟩ ∧ n = 0) ∨ free n

/-- Where control goes, and the guards. The code is entered at its start only if that is a leader. -/
structure Guarded (leaders : List Nat) (own : BlockId → Option Nat) (free : Nat → Prop) (s : State) : Prop where
  edges : ∀ i a t, (s.body.inst i).block = some a → t ∈ (s.body.kind i).successors →
    ∃ n, own t = some n ∧ (n = 0 → 0 ∈ leaders) ∧ Enters own free s i a n
  hosted : ∀ x ∈ s.guards, (∃ host, (s.body.inst x.1).block = some host) ∧ (s.body.kind x.1).isGuard

lemma Enters.mono (h : Enters own free s i a n) (hown : own' a = own a) (hguards : s.guards ⊆ s'.guards)
    (hstart : (s'.segment n).start = (s.segment n).start) : Enters own' free s' i a n := by
  rcases h with h | ⟨r, hr, hn⟩ | h | h
  · exact .inl (hown.trans h)
  · exact .inr (.inl ⟨r, hguards hr, by rwa [hstart]⟩)
  · exact .inr (.inr (.inl h))
  · exact .inr (.inr (.inr h))

lemma Guarded.congr (h : Guarded leaders own free s) (hsegments : SameSegments s s')
    (hguards : s'.guards = s.guards) (hhome : ∀ i a, (s'.body.inst i).block = some a →
      (s.body.inst i).block = some a ∧ s'.body.kind i = s.body.kind i)
    (hkept : ∀ i a, (s.body.inst i).block = some a →
      (s'.body.inst i).block = some a ∧ s'.body.kind i = s.body.kind i) : Guarded leaders own free s' := by
  refine ⟨fun i a t hi ht => ?_, fun x hx => ?_⟩
  · obtain ⟨hi, hkind⟩ := hhome i a hi
    rw [hkind] at ht
    obtain ⟨n, hn, hzero, henters⟩ := h.edges i a t hi ht
    exact ⟨n, hn, hzero, henters.mono rfl (by rw [hguards]; exact Subset.refl _) (hsegments.same n).1⟩
  · rw [hguards] at hx
    obtain ⟨⟨host, hhost⟩, hguard⟩ := h.hosted x hx
    obtain ⟨hhost', hkind⟩ := hkept x.1 host hhost
    exact ⟨⟨host, hhost'⟩, by rwa [hkind]⟩

/-- The value of a guard is all that is on the stack at the start of a segment that its region names. -/
def Seeded (s : State) (n : Nat) (slots : List EntrySlot) : Prop := ∃ g r, slots = [.value (.inst g)] ∧
  (g, r) ∈ s.guards ∧ (s.segment n).start ∈ r.handlerStarts ∧ passesException r.kind

/-- What is on the stack at the start of a segment: the value of a guard whose region names it, or
variables. -/
def Stacked (s : State) : Prop := ∀ n slots, (s.segment n).entryStack = some slots →
  Seeded s n slots ∨ ∃ vars : List VarId, slots = vars.map .var ∧ ∀ v ∈ vars, s.body.hasVar v

lemma Stacked.mono (h : Stacked s) (hsegments : SameSegments s s') (hguards : s'.guards = s.guards)
    (hvars : ∀ v, s.body.hasVar v → s'.body.hasVar v)
    (hstacks : ∀ n slots, (s'.segment n).entryStack = some slots → (s.segment n).entryStack = some slots ∨
      ∃ vars : List VarId, slots = vars.map .var ∧ ∀ v ∈ vars, s'.body.hasVar v) : Stacked s' := by
  intro n slots hn
  rcases hstacks n slots hn with hold | hnew
  · rw [Seeded, hguards, (hsegments.same n).1]
    refine (h n slots hold).imp_right ?_
    rintro ⟨vars, hslots, hhas⟩
    exact ⟨vars, hslots, fun v hv => hvars v (hhas v hv)⟩
  · exact .inr hnew

/-- Terminators end their blocks, and the blocks of the segments from `rest` on have none yet. -/
structure Ending (rest : Nat) (s : State) : Prop where
  last : ∀ b, ∀ i ∈ (s.body.instsOf b).dropLast, (s.body.kind i).isTerminator = false
  unended : ∀ n, rest ≤ n → n < s.segments.size →
    ∀ i ∈ s.body.instsOf (s.segment n).block, (s.body.kind i).isTerminator = false
  ended : ∀ b, s.body.hasBlock b → (∀ n, rest ≤ n → n < s.segments.size → b ≠ (s.segment n).block) →
    ∃ i, (s.body.instsOf b).getLast? = some i ∧ (s.body.kind i).isTerminator

lemma Ending.congr (h : Ending rest s) (hsegments : SameSegments s s')
    (hinsts : ∀ b, s'.body.instsOf b = s.body.instsOf b)
    (hkind : ∀ b, ∀ i ∈ s.body.instsOf b, (s'.body.kind i).isTerminator = (s.body.kind i).isTerminator)
    (hblock : ∀ b, s'.body.hasBlock b → s.body.hasBlock b) : Ending rest s' := by
  refine ⟨fun b i hi => ?_, fun n hn hn' i hi => ?_, fun b hb hrest => ?_⟩
  · rw [hinsts] at hi
    rw [hkind b i (mem_of_mem_dropLast hi)]
    exact h.last b i hi
  · rw [hinsts, (hsegments.same n).2.2.1] at hi
    rw [hkind _ i hi]
    exact h.unended n hn (hsegments.size ▸ hn') i hi
  · obtain ⟨i, hi, hterm⟩ := h.ended b (hblock b hb) fun n hn hn' => by
      rw [← (hsegments.same n).2.2.1]
      exact hrest n hn (hsegments.size.symm ▸ hn')
    refine ⟨i, by rw [hinsts, hi], ?_⟩
    rw [hkind b i (mem_of_getLast? hi)]
    exact hterm

/-! ## Instructions are attached -/

section Attach

variable {pre post l : List InstId} (hsegments : SameSegments s s')

lemma dropLast_insert_cons {α : Type} (pre : List α) (x y : α) (post : List α) :
    (pre ++ x :: y :: post).dropLast = pre ++ x :: (y :: post).dropLast := by
  rw [dropLast_append_of_ne_nil (by simp), dropLast_cons_of_ne_nil (by simp)]

include hsegments in
lemma Ending.attach (h : Ending rest s) (hb : s.body.hasBlock b) (hlist : pre ++ post = s.body.instsOf b)
    (hbody : s'.body = s.body.attach i b (pre ++ i :: post)) (hkind : (s.body.kind i).isTerminator = false)
    (hpost : post = [] → ∀ j ∈ pre, (s.body.kind j).isTerminator = false) : Ending rest s' := by
  have hkinds : ∀ j, s'.body.kind j = s.body.kind j := fun j => by rw [hbody, kind_attach]
  have hinsts : ∀ c, s'.body.instsOf c = if c = b then pre ++ i :: post else s.body.instsOf c := fun c => by
    rw [hbody, instsOf_attach _ hb]
  have hlast := h.last b
  rw [← hlist] at hlast
  refine ⟨fun c j hj => ?_, fun n hn hn' j hj => ?_, fun c hc hrest => ?_⟩
  · rw [hkinds]
    rw [hinsts] at hj
    by_cases hcb : c = b
    · rw [if_pos hcb] at hj
      cases post with
      | nil =>
        rw [dropLast_concat] at hj
        exact hpost rfl j hj
      | cons k post =>
        rw [dropLast_append_of_ne_nil (by simp)] at hlast
        rw [dropLast_insert_cons, mem_append, mem_cons] at hj
        rcases hj with hj | rfl | hj
        · exact hlast j (by simp [hj])
        · exact hkind
        · exact hlast j (mem_append_right pre hj)
    · rw [if_neg hcb] at hj
      exact h.last c j hj
  · rw [hkinds]
    rw [hinsts, (hsegments.same n).2.2.1] at hj
    rw [hsegments.size] at hn'
    split at hj
    · next hcb =>
      have hunended := h.unended n hn hn'
      rw [hcb, ← hlist] at hunended
      rw [mem_append, mem_cons] at hj
      rcases hj with hj | rfl | hj
      · exact hunended j (by simp [hj])
      · exact hkind
      · exact hunended j (by simp [hj])
    · exact h.unended n hn hn' j hj
  · have hc' : s.body.hasBlock c := by
      rw [hbody, hasBlock, size_blocks_attach] at hc
      exact hc
    obtain ⟨j, hj, hterm⟩ := h.ended c hc' fun n hn hn' => by
      rw [← (hsegments.same n).2.2.1]
      exact hrest n hn (hsegments.size.symm ▸ hn')
    refine ⟨j, ?_, by rwa [hkinds]⟩
    rw [hinsts]
    split
    · next hcb =>
      rw [hcb, ← hlist] at hj
      cases post with
      | nil =>
        rw [append_nil] at hj
        rw [hpost rfl j (mem_of_getLast? hj)] at hterm
        simp at hterm
      | cons k post =>
        rw [getLast?_append_of_ne_nil _ (by simp)] at hj ⊢
        rwa [getLast?_cons_cons]
    · exact hj

include hsegments in
lemma Ending.terminate (h : Ending rest s) (hparted : Parted m leaders own s)
    (hrest : rest < s.segments.size) (hb : b = (s.segment rest).block)
    (hbody : s'.body = s.body.attach i b (s.body.instsOf b ++ [i]))
    (hkind : (s.body.kind i).isTerminator) : Ending (rest + 1) s' := by
  have hkinds : ∀ j, s'.body.kind j = s.body.kind j := fun j => by rw [hbody, kind_attach]
  have hhas : s.body.hasBlock b := hb ▸ (hparted.block rest hrest).1
  have hinsts : ∀ c, s'.body.instsOf c =
      if c = b then s.body.instsOf b ++ [i] else s.body.instsOf c := fun c => by
    rw [hbody, instsOf_attach _ hhas]
  have hunended := h.unended rest le_rfl hrest
  rw [← hb] at hunended
  refine ⟨fun c j hj => ?_, fun n hn hn' j hj => ?_, fun c hc hnot => ?_⟩
  · rw [hkinds]
    rw [hinsts] at hj
    split at hj
    · rw [dropLast_concat] at hj
      exact hunended j hj
    · exact h.last c j hj
  · rw [hsegments.size] at hn'
    rw [hkinds]
    rw [hinsts, (hsegments.same n).2.2.1, if_neg fun heq => by
      have := hparted.block_inj hn' hrest (heq.trans hb)
      omega] at hj
    exact h.unended n (by omega) hn' j hj
  · rw [hinsts]
    split
    · exact ⟨i, getLast?_concat, by rwa [hkinds]⟩
    · next hcb =>
      have hc' : s.body.hasBlock c := by
        rw [hbody, hasBlock, size_blocks_attach] at hc
        exact hc
      obtain ⟨j, hj, hterm⟩ := h.ended c hc' fun n hn hn' => by
        rcases Nat.lt_or_ge rest n with hlt | hge
        · rw [← (hsegments.same n).2.2.1]
          exact hnot n hlt (hsegments.size.symm ▸ hn')
        · obtain rfl : n = rest := by omega
          rwa [← hb]
      exact ⟨j, hj, by rwa [hkinds]⟩

include hsegments in
lemma Guarded.attach (h : Guarded leaders own free s) (hin : s.body.hasInst i)
    (hbody : s'.body = s.body.attach i b l) (hguards : s.guards ⊆ s'.guards)
    (hnew : ∀ x ∈ s'.guards, x ∈ s.guards ∨ x.1 = i ∧ (s.body.kind i).isGuard)
    (hedges : ∀ t ∈ (s.body.kind i).successors,
      ∃ n, own t = some n ∧ (n = 0 → 0 ∈ leaders) ∧ Enters own free s' i b n) :
    Guarded leaders own free s' := by
  have hkinds : ∀ j, s'.body.kind j = s.body.kind j := fun j => by rw [hbody, kind_attach]
  have hhome : ∀ j, (s'.body.inst j).block = if i = j then some b else (s.body.inst j).block := fun j => by
    rw [hbody, home_attach hin]
  refine ⟨fun j a t hj ht => ?_, fun x hx => ?_⟩
  · rw [hkinds] at ht
    rw [hhome] at hj
    split at hj
    · next hij =>
      obtain rfl := some.inj hj
      subst hij
      exact hedges t ht
    · obtain ⟨n, hn, hzero, henters⟩ := h.edges j a t hj ht
      exact ⟨n, hn, hzero, henters.mono rfl hguards (hsegments.same n).1⟩
  · rw [hhome, hkinds]
    rcases hnew x hx with hx | ⟨rfl, hguard⟩
    · obtain ⟨⟨host, hhost⟩, hguard⟩ := h.hosted x hx
      refine ⟨?_, hguard⟩
      split
      · exact ⟨b, rfl⟩
      · exact ⟨host, hhost⟩
    · exact ⟨⟨b, if_pos rfl⟩, hguard⟩

end Attach

section AddInst

variable (hsegments : SameSegments s s') (hbody : s'.body = s.body.addInst kind vs ty)

include hsegments hbody

lemma Ending.addInst (h : Ending rest s) (hplaces : s.body.Attached) : Ending rest s' := by
  refine h.congr hsegments (fun b => by rw [hbody, instsOf_addInst]) (fun b i hi => ?_) fun b hb => ?_
  · have hin := hplaces.hasInst hi
    rw [hbody, kind_addInst, if_neg]
    rintro heq
    simp [hasInst, heq] at hin
  · rw [hbody, (sameGraph_addInst kind vs ty).hasBlock] at hb
    exact hb

lemma Guarded.addInst (h : Guarded leaders own free s) (hguards : s'.guards = s.guards)
    (hplaces : s.body.Attached) : Guarded leaders own free s' := by
  refine h.congr hsegments hguards (fun i a hi => ?_) fun i a hi => ?_
  · rw [hbody, hplaces.home_addInst_iff] at hi
    rw [hbody]
    exact ⟨hi, hplaces.kind_addInst_of_home hi⟩
  · rw [hbody, hplaces.home_addInst_iff]
    exact ⟨hi, hplaces.kind_addInst_of_home hi⟩

end AddInst

end Import

end MethodIR
