import MethodIR.Proofs.ControlFlow
import MethodIR.Proofs.HandlerPaths
import MethodIR.Proofs.ImportPhases

/-!
# Nested guards

Control gets to a block through the one split off it (`Follows`), and whatever is added later goes to
first blocks of segments (`Leads`). So guards that start at the same place stand one behind the other,
the outer one first (`outerGuard_onEveryPath`).
-/

namespace MethodIR.Import

open List Success Traced Body FlowGraph DepthFirst

variable {m : Bytecode} {leaders : List Nat} {own : BlockId → Option Nat} {done regions : List Bytecode.Region}
  {r : Bytecode.Region} {s s' s'' : State} {n : Nat} {g i outer inner : InstId} {a b head c entry : BlockId}
  {kind : Kind}
  {vs : List Value} {ty : Ty} {log : Array Event} {u : Unit} {t t' : Trace State} {x : InstId × Bytecode.Region}

/-! ## What is added goes to segments -/

lemma SameSegments.symm (h : SameSegments s s') : SameSegments s' s := ⟨h.size.symm, fun n => by
    obtain ⟨hstart, hstop, hblock, hentry⟩ := h.same n
    exact ⟨hstart.symm, hstop.symm, hblock.symm, hentry.symm⟩⟩

/-- What was in a block stays there, and what has been added since goes to the first blocks of segments. -/
structure Leads (s s' : State) : Prop where
  wired : s'.body.Wired
  segments : SameSegments s s'
  blocks : ∀ b, s.body.hasBlock b → s'.body.hasBlock b
  stays : s.body.Stays s'.body
  targets : ∀ i a b, (s'.body.inst i).block = some a → b ∈ (s'.body.kind i).successors →
    (s.body.inst i).block = some a ∨ ∃ offset, s.EntryAt offset b

lemma Leads.trans (h : Leads s s') (k : Leads s' s'') : Leads s s'' := by
  refine ⟨k.wired, h.segments.trans k.segments, fun b hb => k.blocks b (h.blocks b hb), h.stays.trans k.stays,
    fun i a b hi hb => ?_⟩
  rcases k.targets i a b hi hb with hi' | ⟨offset, hentry⟩
  · rw [(k.stays i a hi').2] at hb
    exact h.targets i a b hi' hb
  · exact .inr ⟨offset, hentry.congr h.segments.symm⟩

lemma leads_of_same (hw : s.body.Wired) (hsegments : SameSegments s s') (hinsts : s'.body.insts = s.body.insts)
    (hblocks : s'.body.blocks = s.body.blocks) (hlayout : s'.body.layout = s.body.layout)
    (hentry : s'.body.entry = s.body.entry) : Leads s s' := by
  have hinst : ∀ i, s'.body.inst i = s.body.inst i := fun i => by rw [inst, hinsts, inst]
  have hkind : ∀ i, s'.body.kind i = s.body.kind i := fun i => by rw [kind, hinst, kind]
  refine ⟨hw.control ⟨hblocks, hlayout, hentry, congrArg Array.size hinsts, fun i => by rw [hinst],
    fun i => by rw [hinst], fun i => by rw [hkind]⟩, hsegments, fun b hb => ?_, fun i a hi => ?_,
    fun i a b hi _ => .inl (hinst i ▸ hi)⟩
  · rwa [hasBlock, hblocks]
  · exact ⟨hinst i ▸ hi, hkind i⟩

lemma leads_attach (hw : s.body.Wired) (hparted : Parted m leaders own s) (hsegments : SameSegments s s')
    (hb : s.body.hasBlock b) (hkind : ∀ c ∈ kind.successors, ∃ offset, s.EntryAt offset c) {l : List InstId}
    (hl : l.Perm (⟨s.body.insts.size⟩ :: s.body.instsOf b))
    (hbody : s'.body = (s.body.addInst kind vs ty).attach ⟨s.body.insts.size⟩ b l) :
    Leads s s' ∧ (s'.body.inst ⟨s.body.insts.size⟩).block = some b := by
  have hsuccs : ∀ c ∈ kind.successors, s.body.hasBlock c := fun c hc => by
    obtain ⟨_, n, hn, -, rfl⟩ := hkind c hc
    exact (hparted.entryBlock n hn).1
  have hcan : (s.body.addInst kind vs ty).CanAttach ⟨s.body.insts.size⟩ b := canAttach_addInst_iff.2 ⟨hb, hsuccs⟩
  have hhome : ∀ i, (s'.body.inst i).block =
      if ⟨s.body.insts.size⟩ = i then some b else ((s.body.addInst kind vs ty).inst i).block := fun i => by
    rw [hbody, home_attach hcan.1]
  refine ⟨⟨?_, hsegments, fun c hc => ?_, ?_, fun i a c hi hc => ?_⟩, by rw [hhome, if_pos rfl]⟩
  · rw [hbody]
    exact (hw.addInst kind vs ty).attach hcan (by rwa [instsOf_addInst])
  · rw [hbody, hasBlock, size_blocks_attach, ← hasBlock, (sameGraph_addInst kind vs ty).hasBlock, hc]
  · rw [hbody]
    exact (hw.attached.stays_addInst kind vs ty).trans (stays_attach hcan.1 hcan.2.2.1 _)
  · rw [hhome] at hi
    split at hi
    · next heq =>
      subst heq
      rw [hbody, kind_attach, kind_addInst, if_pos rfl] at hc
      exact .inr (hkind c hc)
    · exact .inl (hw.attached.home_addInst_iff.1 hi)

lemma leads_append (hw : s.body.Wired) (hparted : Parted m leaders own s)
    (hb : s.body.hasBlock s.cursor.block) (hkind : ∀ c ∈ kind.successors, ∃ offset, s.EntryAt offset c) :
    Leads s (s.append kind vs ty) := by
  have hsegments : SameSegments s (s.append kind vs ty) := .of_eq rfl
  refine (leads_attach hw hparted hsegments hb hkind ?_ rfl).1
  rw [instsOf_addInst]
  exact perm_append_singleton _ _

lemma Step.leads (h : Step s s') (hw : s.body.Wired) (hparted : Parted m leaders own s) : Leads s s' := by
  have hsegments := h.sameCode.toSameSegments
  cases h with
  | emit block _ leads => exact leads_append hw hparted block leads
  | @load v ty block =>
    have hused : Leads s (s.used v false) := leads_of_same hw (.of_eq rfl) rfl rfl rfl rfl
    exact hused.trans (leads_append hw (hparted.congr (.of_eq rfl) (fun _ hb => hb) rfl) block
      (by simp [Kind.successors]))
  | @address v ty block =>
    have hused : Leads s ((s.used v false).expose v) := leads_of_same hw (.of_eq rfl) rfl rfl rfl rfl
    exact hused.trans (leads_append hused.wired (hparted.congr (.of_eq rfl) (fun _ hb => hb) rfl) block
      (by simp [Kind.successors]))
  | @store v w block =>
    have hused : Leads s (s.used v true) := leads_of_same hw (.of_eq rfl) rfl rfl rfl rfl
    exact hused.trans (leads_append hw (hparted.congr (.of_eq rfl) (fun _ hb => hb) rfl) block
      (by simp [Kind.successors]))
  | _ => exact leads_of_same hw hsegments rfl rfl rfl rfl

lemma Step.guards (h : Step s s') : s'.guards = s.guards := by
  cases h <;> rfl

lemma Steps.leads (h : Steps s s') (hw : s.body.Wired) (hparted : Parted m leaders own s) :
    Leads s s' ∧ s'.guards = s.guards := by
  refine (h.induction (P := fun x => Parted m leaders own x ∧ Leads s x ∧ x.guards = s.guards)
    ⟨hparted, leads_of_same hw (.of_eq rfl) rfl rfl rfl rfl, rfl⟩ ?_).2
  rintro x y hstep ⟨hparted, hx, hguards⟩
  have hg := hstep.grows
  refine ⟨hparted.congr hstep.sameCode.toSameSegments hg.block ?_, hx.trans (hstep.leads hx.wired hparted),
    hstep.guards.trans hguards⟩
  rw [hg.entry _ hparted.entry, hparted.entry]

/-! ## Blocks behind others -/

/-- Control gets to block `b` from block `a` alone, which is the newer one, and to no segment by `b`. -/
structure Follows (s : State) (a b : BlockId) : Prop where
  known : s.body.hasBlock a
  older : b.index < a.index
  ne_entry : b ≠ ⟨0⟩
  hidden : ∀ offset, ¬s.EntryAt offset b
  only : ∀ i c, (s.body.inst i).block = some c → b ∈ (s.body.kind i).successors → c = a

def Behind (s : State) : BlockId → BlockId → Prop := Relation.TransGen (Follows s)

lemma Follows.leads (h : Follows s a b) (hleads : Leads s s') : Follows s' a b := by
  refine ⟨hleads.blocks a h.known, h.older, h.ne_entry, fun offset hentry => ?_, fun i c hi hb => ?_⟩
  · exact h.hidden offset (hentry.congr hleads.segments.symm)
  · rcases hleads.targets i c b hi hb with hi' | ⟨offset, hentry⟩
    · rw [(hleads.stays i c hi').2] at hb
      exact h.only i c hi' hb
    · exact absurd hentry (h.hidden offset)

lemma Behind.lt (h : Behind s a b) : b.index < a.index := by
  induction h with
  | single h => exact h.older
  | tail _ h ih => exact h.older.trans ih

lemma Behind.onEveryPath (h : Behind s a b) (hw : s.body.Wired) : s.body.OnEveryPath ⟨0⟩ a b := by
  intro path hpath
  have hentry : ¬Behind s a ⟨0⟩ := fun hzero => by
    obtain ⟨_, -, hlast⟩ := Relation.TransGen.tail'_iff.1 hzero
    exact hlast.ne_entry rfl
  obtain ⟨x, hx, y, hedge, hout, hin⟩ := hpath.exists_entering hentry h
  obtain ⟨i, hi, hy⟩ := hw.mem_succs.1 hedge
  obtain ⟨c, hc, hlast⟩ := Relation.TransGen.tail'_iff.1 hin
  obtain rfl := hlast.only i x hi hy
  rcases Relation.reflTransGen_iff_eq_or_transGen.1 hc with rfl | hbehind
  · exact hx
  · exact absurd hbehind hout

/-! ## A block is split off -/

section Split

variable (h : Fenced m leaders own done s) (hsplit : Splits n s s')

include h hsplit

lemma Splits.entryAt_iff {offset : Nat} : s'.EntryAt offset b ↔
    (s.segment n).start = offset ∧ b = ⟨s.body.blocks.size⟩ ∨
      b ≠ (s.segment n).entryBlock ∧ s.EntryAt offset b := by
  constructor
  · rintro ⟨k, hk, hstart, rfl⟩
    rw [hsplit.size] at hk
    rw [(hsplit.same k).1] at hstart
    rw [hsplit.segment]
    split
    · next hkn => exact .inl ⟨hkn ▸ hstart, rfl⟩
    · next hkn =>
      refine .inr ⟨fun heq => hkn ?_, k, hk, hstart, rfl⟩
      have hown := (h.parted.entryBlock k hk).2
      rw [heq, (h.parted.entryBlock n hsplit.lt).2] at hown
      exact (Option.some.inj hown).symm
  · rintro (⟨hstart, rfl⟩ | ⟨hne, hentry⟩)
    · refine ⟨n, hsplit.size ▸ hsplit.lt, (hsplit.same n).1.trans hstart, ?_⟩
      rw [hsplit.segment, if_pos rfl]
    · have hrelay := hsplit.entryAt h.parted hentry
      rwa [relay, if_neg hne] at hrelay

lemma Splits.target (hi : (s'.body.inst i).block = some c) (hb : b ∈ (s'.body.kind i).successors) :
    c = ⟨s.body.blocks.size⟩ ∧ b = (s.segment n).entryBlock ∨ b = ⟨s.body.blocks.size⟩ ∨
      b ≠ (s.segment n).entryBlock ∧ (s.body.inst i).block = some c ∧ b ∈ (s.body.kind i).successors := by
  rw [hsplit.body.home] at hi
  split at hi
  · next hnew =>
    subst hnew
    rw [hsplit.body.jump] at hb
    exact .inl ⟨(Option.some.inj hi).symm, mem_singleton.1 hb⟩
  · rw [(hsplit.kind h.intact.wired.attached hi).2, successors_retarget, mem_map] at hb
    obtain ⟨d, hd, rfl⟩ := hb
    split
    · exact .inr (.inl rfl)
    · next hne => exact .inr (.inr ⟨hne, hi, hd⟩)

lemma Follows.split (hf : Follows s a b) : Follows s' a b := by
  have hne : b ≠ (s.segment n).entryBlock := by
    rintro rfl
    exact hf.hidden _ ⟨n, hsplit.lt, rfl, rfl⟩
  have hnew : b ≠ ⟨s.body.blocks.size⟩ := by
    rintro rfl
    have hlt : a.index < s.body.blocks.size := by simpa [hasBlock] using hf.known
    exact absurd hf.older (Nat.not_lt_of_gt hlt)
  refine ⟨(hsplit.body.hasBlock a).2 (.inr hf.known), hf.older, hf.ne_entry, fun offset hentry => ?_,
    fun i c hi hb => ?_⟩
  · rcases (hsplit.entryAt_iff h).1 hentry with ⟨-, heq⟩ | ⟨-, hold⟩
    · exact hnew heq
    · exact hf.hidden offset hold
  · rcases hsplit.target h hi hb with ⟨-, heq⟩ | heq | ⟨-, hi', hb'⟩
    · exact absurd heq hne
    · exact absurd heq hnew
    · exact hf.only i c hi' hb'

lemma Splits.follows (hzero : n = 0 → 0 ∈ leaders) : Follows s' ⟨s.body.blocks.size⟩ (s.segment n).entryBlock := by
  obtain ⟨hhas, hown⟩ := h.parted.entryBlock n hsplit.lt
  have hlt : (s.segment n).entryBlock.index < s.body.blocks.size := by simpa [hasBlock] using hhas
  have hnew : (s.segment n).entryBlock ≠ ⟨s.body.blocks.size⟩ := fun heq => by
    rw [heq] at hlt
    exact lt_irrefl _ hlt
  refine ⟨(hsplit.body.hasBlock _).2 (.inl rfl), hlt, fun heq => ?_, fun offset hentry => ?_, fun i c hi hb => ?_⟩
  · rw [heq, h.parted.entry_own] at hown
    split at hown
    · simp at hown
    · next hnot => exact hnot (hzero (Option.some.inj hown).symm)
  · rcases (hsplit.entryAt_iff h).1 hentry with ⟨-, heq⟩ | ⟨hne, -⟩
    · exact hnew heq
    · exact hne rfl
  · rcases hsplit.target h hi hb with ⟨rfl, -⟩ | heq | ⟨hne, -⟩
    · rfl
    · exact absurd heq hnew
    · exact absurd rfl hne

end Split

/-! ## Guards one behind the other -/

def Shields (s : State) (outer inner : InstId) : Prop :=
  ∃ a b, (s.body.inst outer).block = some a ∧ (s.body.inst inner).block = some b ∧ Behind s a b

/-- A guard is in the first block of the segment at which its region starts or behind it, and guards of outer
regions are before those of inner ones that are older. -/
structure Nested (s : State) : Prop where
  nodup : (s.guards.map Prod.fst).Nodup
  host : ∀ x ∈ s.guards, ∃ head a, s.EntryAt x.2.tryStart head ∧ (s.body.inst x.1).block = some a ∧
    Relation.ReflTransGen (Follows s) head a
  outer : s.guards.Pairwise fun x y => x.2.tryStart = y.2.tryStart → y.2.tryEnd < x.2.tryEnd → Shields s x.1 y.1

lemma Shields.leads (h : Shields s outer inner) (hleads : Leads s s') : Shields s' outer inner := by
  obtain ⟨a, b, ha, hb, hbehind⟩ := h
  exact ⟨a, b, (hleads.stays _ a ha).1, (hleads.stays _ b hb).1,
    Relation.TransGen.mono (fun _ _ hf => hf.leads hleads) _ _ hbehind⟩

section

variable (h : Nested s)
include h

lemma Nested.host_leads (hleads : Leads s s') (hx : x ∈ s.guards) :
    ∃ head a, s'.EntryAt x.2.tryStart head ∧ (s'.body.inst x.1).block = some a ∧
      Relation.ReflTransGen (Follows s') head a := by
  obtain ⟨head, a, hentry, ha, hbehind⟩ := h.host x hx
  exact ⟨head, a, hentry.congr hleads.segments, (hleads.stays _ a ha).1,
    Relation.ReflTransGen.mono (fun _ _ hf => hf.leads hleads) _ _ hbehind⟩

lemma Nested.leads (hleads : Leads s s') (hguards : s'.guards = s.guards) : Nested s' := by
  refine ⟨hguards ▸ h.nodup, fun x hx => h.host_leads hleads (hguards ▸ hx), ?_⟩
  rw [hguards]
  exact h.outer.imp fun hxy hstart hend => (hxy hstart hend).leads hleads

lemma Nested.split (hfenced : Fenced m leaders own done s) (hsplit : Splits n s s')
    (hzero : n = 0 → 0 ∈ leaders) : Nested s' := by
  have hattached := hfenced.intact.wired.attached
  have hfollows : ∀ a b, Follows s a b → Follows s' a b := fun _ _ hf => hf.split hfenced hsplit
  refine ⟨hsplit.guards ▸ h.nodup, fun x hx => ?_, ?_⟩
  · rw [hsplit.guards] at hx
    obtain ⟨head, a, hentry, ha, hbehind⟩ := h.host x hx
    refine ⟨_, a, hsplit.entryAt hfenced.parted hentry, (hsplit.kind hattached ha).1, ?_⟩
    have hrest := Relation.ReflTransGen.mono hfollows _ _ hbehind
    rw [relay]
    split
    · next heq =>
      subst heq
      exact .head (hsplit.follows hfenced hzero) hrest
    · exact hrest
  · rw [hsplit.guards]
    refine h.outer.imp fun hxy hstart hend => ?_
    obtain ⟨a, b, ha, hb, hbehind⟩ := hxy hstart hend
    exact ⟨a, b, (hsplit.kind hattached ha).1, (hsplit.kind hattached hb).1,
      Relation.TransGen.mono hfollows _ _ hbehind⟩

lemma Nested.addGuard (hparted : Parted m leaders own s) (hleaders : Leaders m leaders)
    (hleads : Leads s s') (hguards : s'.guards = (g, r) :: s.guards) (hfresh : (s.body.inst g).block = none)
    (hhead : s.EntryAt r.tryStart head) (hg : (s'.body.inst g).block = some head)
    (hinner : ∀ x ∈ s.guards, x.2.tryStart = r.tryStart → x.2.tryEnd < r.tryEnd →
      (s.body.inst x.1).block ≠ some head) : Nested s' := by
  refine ⟨?_, fun x hx => ?_, ?_⟩
  · rw [hguards, map_cons, nodup_cons]
    refine ⟨fun hmem => ?_, h.nodup⟩
    obtain ⟨x, hx, rfl⟩ := mem_map.1 hmem
    obtain ⟨_, a, -, ha, -⟩ := h.host x hx
    simp [hfresh] at ha
  · rw [hguards, mem_cons] at hx
    rcases hx with rfl | hx
    · exact ⟨head, head, hhead.congr hleads.segments, hg, .refl⟩
    · exact h.host_leads hleads hx
  · rw [hguards, pairwise_cons]
    refine ⟨fun x hx hstart hend => ?_, h.outer.imp fun hxy hstart hend => (hxy hstart hend).leads hleads⟩
    obtain ⟨head', a, hentry, ha, hbehind⟩ := h.host_leads hleads hx
    obtain ⟨_, a', -, ha', -⟩ := h.host x hx
    obtain rfl : a' = a := Option.some.inj ((hleads.stays _ a' ha').1.symm.trans ha)
    have hentry' := hentry.congr hleads.segments.symm
    rw [← hstart] at hentry'
    obtain rfl := hparted.entryAt_unique hleaders hhead hentry'
    rcases Relation.reflTransGen_iff_eq_or_transGen.1 hbehind with rfl | hbehind
    · exact absurd ha' (hinner x hx hstart.symm hend)
    · exact ⟨head, a', hg, ha, hbehind⟩

lemma Nested.block_ne (hfenced : Fenced m leaders own done s)
    (hany : (s.body.guards head).any (isInner s r) = false) (hx : x ∈ s.guards)
    (hstart : x.2.tryStart = r.tryStart) (hend : x.2.tryEnd < r.tryEnd) : (s.body.inst x.1).block ≠ some head := by
  intro hhome
  have hguard : x.1 ∈ s.body.guards head :=
    mem_filter.2 ⟨(hfenced.intact.wired.attached.mem_iff head x.1).2 hhome, (hfenced.guarded.hosted x hx).2⟩
  have hlookup : s.guards.lookup x.1 = some x.2 := by
    obtain ⟨pre, post, hsplit⟩ := append_of_mem hx
    refine lookup_eq_some_iff.2 ⟨pre, post, hsplit, fun y hy => ?_⟩
    have hnodup := h.nodup
    rw [hsplit, map_append, map_cons, nodup_append] at hnodup
    simpa using (hnodup.2.2 y.1 (mem_map_of_mem hy) x.1 mem_cons_self).symm
  have hnot := any_eq_false.1 hany x.1 hguard
  simp [isInner, hlookup, hstart, hend] at hnot

end

/-! ## The guards are created -/

section

variable (h : Nested s) (hfenced : Fenced m leaders own done s) (hleaders : Leaders m leaders)
include h hfenced hleaders

lemma Nested.guardBlock (hstart : r.tryStart ∈ leaders) (hrun : Import.guardBlock r ⟨s, log⟩ = .ok b t) :
    Nested t.state ∧ t.state.EntryAt r.tryStart b ∧ ∀ x ∈ t.state.guards, x.2.tryStart = r.tryStart →
      x.2.tryEnd < r.tryEnd → (t.state.body.inst x.1).block ≠ some b := by
  obtain ⟨n, hn, hoffset, ⟨rfl, hsplit⟩ | ⟨rfl, hsame, hany⟩⟩ := guardBlock_cases hfenced hrun
  · have hzero := hfenced.zero_mem_of_start hstart hleaders hn hoffset
    refine ⟨h.split hfenced hsplit hzero, (hsplit.entryAt_iff hfenced).2 (.inl ⟨hoffset, rfl⟩), fun x hx _ _ => ?_⟩
    -- Guards that are there already are in old blocks.
    rw [hsplit.guards] at hx
    obtain ⟨_, a, -, ha, -⟩ := h.host x hx
    rw [(hsplit.kind hfenced.intact.wired.attached ha).1]
    rintro ⟨⟩
    have hmem := (hfenced.intact.wired.attached.mem_iff _ x.1).2 ha
    rw [instsOf_of_not_hasBlock (by simp [hasBlock])] at hmem
    simp at hmem
  · rw [hsame]
    exact ⟨h, ⟨n, hn, hoffset, rfl⟩, fun x hx => h.block_ne hfenced hany hx⟩

lemma Nested.createGuard (hr : r ∈ m.regions) (hrun : Import.createGuard r ⟨s, log⟩ = .ok u t) : Nested t.state := by
  obtain ⟨-, -, hbounds⟩ := hleaders.regions r hr
  have hstart : r.tryStart ∈ leaders := hbounds _ (by simp [Bytecode.Region.bounds])
  obtain ⟨b, ⟨s₁, log₁⟩, n, ns, kind, ty, body, hblock, -, hguard, -, hinsert, hfinish⟩ := createGuard_cases hrun
  obtain ⟨own₁, k, hfenced₁, -, -, -, hhas⟩ := guardBlock_spec hfenced hstart hleaders hblock
  obtain ⟨hnested, hentry, hinner⟩ := h.guardBlock hfenced hleaders hstart hblock
  dsimp only at hguard hinsert hfinish hfenced₁ hhas hnested hentry hinner
  obtain ⟨hbody, hguards, hsegments⟩ : t.state.body = body ∧
      t.state.guards = (⟨s₁.body.insts.size⟩, r) :: s₁.guards ∧ SameSegments s₁ t.state := by
    rcases hfinish with ⟨-, heq⟩ | ⟨-, _, t₂, hseed, heq⟩
    · rw [heq]
      exact ⟨rfl, rfl, .of_eq rfl⟩
    · obtain ⟨hbody, hguards, hsame⟩ := seeds_same hseed
      rw [heq]
      exact ⟨hbody, hguards, hsame.size, hsame.same⟩
  have hattached := hfenced₁.intact.wired.attached
  obtain ⟨-, pre, post, hlist, hattach, -⟩ := insertBeforeEnd_eq_ok hinsert (hattached.addInst _ _ _) (by
    rw [instsOf_addInst]
    intro j hj
    have hmem := mem_of_mem_dropLast hj
    rw [hattached.kind_addInst_of_home ((hattached.mem_iff b j).1 hmem)]
    exact hfenced₁.ending.last b j hj)
  rw [instsOf_addInst] at hlist
  obtain ⟨hleads, hhome⟩ := leads_attach hfenced₁.intact.wired hfenced₁.parted hsegments hhas
    (fun c hc => (hguard.entryAt hc).imp fun _ h => h.2)
    (by rw [← hlist]; exact perm_middle) (hbody.trans hattach)
  refine hnested.addGuard hfenced₁.parted hleaders hleads hguards ?_ hentry hhome hinner
  rw [inst, Tables.getD_of_size_le _ _ _ le_rfl]
  rfl

end

lemma createGuards_nested (hleaders : Leaders m leaders)
    (hregions : regions ⊆ m.regions) (hfenced : Fenced m leaders own done t.state) (h : Nested t.state)
    (hrun : regions.forM createGuard t = .ok u t') : Nested t'.state := by
  refine (forM_induction (P := fun t : Trace State => (∃ own done, Fenced m leaders own done t.state) ∧
    Nested t.state) hrun ⟨⟨own, done, hfenced⟩, h⟩ ?_).2
  rintro r hr t₁ t₂ _ ⟨⟨own₁, done₁, hfenced₁⟩, h₁⟩ hone
  obtain ⟨own₂, hfenced₂⟩ := createGuard_spec hfenced₁ hleaders (hregions hr) hone
  exact ⟨⟨own₂, _, hfenced₂⟩, h₁.createGuard hfenced₁ hleaders (hregions hr) hone⟩

/-! ## From the guards to the end -/

lemma copyArguments_guards (hentry : t.state.body.entry = some entry)
    (h : copyArguments t = .ok u t') : t'.state.guards = t.state.guards :=
  copyArguments_induction (P := fun _ s => s.guards = t.state.guards) h hentry rfl (fun _ _ _ _ hs _ => hs)
    fun _ _ _ _ hs _ _ => hs

lemma copyArguments_leads (hfenced : Fenced m leaders own m.regions t.state) (h : copyArguments t = .ok u t') :
    Leads t.state t'.state := by
  have hentry := hfenced.parted.entry
  have hattached := hfenced.intact.wired.attached
  have hwired := (copyArguments_ground h hfenced.ground).intact.wired
  obtain ⟨hextended, stores, hstores, -, hinsts⟩ := copyArguments_spec h hentry (hfenced.intact.laid.entry _ hentry)
  refine ⟨hwired, .of_eq hextended.segments, hextended.grows.block, fun i a hi => ?_, fun i a b hi hb => ?_⟩
  · have hmem := (hattached.mem_iff a i).2 hi
    refine ⟨(hwired.attached.mem_iff a i).1 ?_, (hextended.grows.inst i (hattached.hasInst hmem)).2.1⟩
    rw [hinsts]
    split
    · exact mem_append_right _ hmem
    · exact hmem
  · have hmem := (hwired.attached.mem_iff a i).2 hi
    rw [hinsts] at hmem
    split at hmem
    · rcases mem_append.1 hmem with hnew | hold
      · obtain ⟨x, -, -, hkind, -⟩ := exists_of_mem_right hstores hnew
        simp [hkind, Kind.successors] at hb
      · exact .inl ((hattached.mem_iff a i).1 hold)
    · exact .inl ((hattached.mem_iff a i).1 hmem)

lemma markExposed_leads (hw : t.state.body.Wired) (h : markExposed t = .ok u t') :
    Leads t.state t'.state ∧ t'.state.guards = t.state.guards := by
  refine markExposed_induction (P := fun s => Leads t.state s ∧ s.guards = t.state.guards) h
    ⟨leads_of_same hw (.of_eq rfl) rfl rfl rfl rfl, rfl⟩ ?_
  rintro v s ⟨hleads, hguards⟩
  exact ⟨hleads.trans (leads_of_same hleads.wired (.of_eq rfl) rfl rfl rfl rfl), hguards⟩

lemma importMethod_nested (h : importMethod m ⟨State.ofMethod m, log⟩ = .ok u t) :
    Nested t.state ∧ t.state.body.Wired ∧ t.state.body.entry = some ⟨0⟩ ∧
      t.state.guards.map Prod.snd = m.regions.reverse ∧
      ∀ x ∈ t.state.guards, GuardsBy t.state x.2 (t.state.body.kind x.1) := by
  obtain ⟨leaders, own, t₀, t₁, t₂, t₃, t₄, hleaders, hstart, hguards, hfenced, -, hargs, hsteps, hmark, ht⟩ :=
    importMethod_phases h
  have hnone : t₀.state.guards = [] := by simpa using hstart.regions
  have hempty : Nested t₀.state := ⟨by simp [hnone], by simp [hnone], by simp [hnone]⟩
  have hnested := createGuards_nested hleaders (Subset.refl _) hstart hempty hguards
  have hleads₂ := copyArguments_leads hfenced hargs
  have hentry₂ := (copyArguments_ground hargs hfenced.ground).parted
  obtain ⟨hleads₃, hguards₃⟩ := hsteps.leads hleads₂.wired hentry₂
  obtain ⟨hleads₄, hguards₄⟩ := markExposed_leads hleads₃.wired hmark
  obtain ⟨body, ht₄, hgrows, -⟩ := markExposed_spec hmark
  have hleads := (hleads₂.trans hleads₃).trans hleads₄
  have hsame : t₄.state.guards = t₁.state.guards :=
    (hguards₄.trans hguards₃).trans (copyArguments_guards hfenced.parted.entry hargs)
  rw [ht]
  refine ⟨hnested.leads hleads hsame, hleads.wired, ?_, by rw [hsame, hfenced.regions], fun x hx => ?_⟩
  · rw [ht₄]
    exact hgrows.entry _ (hsteps.grows.entry _ hentry₂.entry)
  · rw [hsame] at hx
    exact ((hfenced.linked.guards x hx).stays hleads.segments hleads.stays).guards

/-- Of two regions that start at the same place, let the one that is listed first end first. Then their guards
are in different blocks, and every way from the entry to the block of its guard leads through the block of the
other's. -/
theorem outerGuard_onEveryPath {i j : Nat} {inner outer : Bytecode.Region}
    (h : importMethod m ⟨State.ofMethod m, log⟩ = .ok u t) (hij : i < j) (hi : m.regions[i]? = some inner)
    (hj : m.regions[j]? = some outer) (hstart : inner.tryStart = outer.tryStart)
    (hend : inner.tryEnd < outer.tryEnd) :
    ∃ innerGuard outerGuard a b entry, t.state.guards.reverse[i]? = some (innerGuard, inner) ∧
      t.state.guards.reverse[j]? = some (outerGuard, outer) ∧
      GuardsBy t.state inner (t.state.body.kind innerGuard) ∧
      GuardsBy t.state outer (t.state.body.kind outerGuard) ∧
      (t.state.body.inst innerGuard).block = some a ∧ (t.state.body.inst outerGuard).block = some b ∧ a ≠ b ∧
      t.state.body.entry = some entry ∧ t.state.body.OnEveryPath entry b a := by
  obtain ⟨hnested, hw, hentry, hregions, hguards⟩ := importMethod_nested h
  have hmap : t.state.guards.reverse.map Prod.snd = m.regions := by
    rw [map_reverse, hregions, reverse_reverse]
  rw [← hmap, getElem?_map, Option.map_eq_some_iff] at hi hj
  obtain ⟨x, hx, rfl⟩ := hi
  obtain ⟨y, hy, rfl⟩ := hj
  obtain ⟨hxlt, hxget⟩ := List.getElem?_eq_some_iff.1 hx
  obtain ⟨hylt, hyget⟩ := List.getElem?_eq_some_iff.1 hy
  have hpairs := pairwise_iff_getElem.1 (pairwise_reverse.2 hnested.outer) i j hxlt hylt hij
  rw [hxget, hyget] at hpairs
  obtain ⟨b, a, hb, ha, hbehind⟩ := hpairs hstart.symm hend
  refine ⟨x.1, y.1, a, b, ⟨0⟩, hx, hy, hguards x ?_, hguards y ?_, ha, hb, fun heq => ?_, hentry,
    hbehind.onEveryPath hw⟩
  · exact mem_reverse.1 (mem_of_getElem? hx)
  · exact mem_reverse.1 (mem_of_getElem? hy)
  · rw [heq] at hbehind
    exact lt_irrefl _ hbehind.lt

/-- Three regions start where a loop does. -/
def retries : Bytecode where
  name := "Retries"
  declaring := .object
  sig := { params := [.i32], ret := .void }
  code := #[⟨.nop, 0, .none⟩, ⟨.ldarg0, 1, .none⟩, ⟨.brtrueS, 2, .target 1⟩, ⟨.leaveS, 4, .target 15⟩,
    ⟨.pop, 6, .none⟩, ⟨.leaveS, 7, .target 15⟩, ⟨.pop, 9, .none⟩, ⟨.leaveS, 10, .target 15⟩,
    ⟨.pop, 12, .none⟩, ⟨.leaveS, 13, .target 15⟩, ⟨.ret, 15, .none⟩]
  regions := [
    { kind := .typed, tryStart := 1, tryEnd := 6, handlerStart := 6, handlerEnd := 9, caught := some .object },
    { kind := .typed, tryStart := 1, tryEnd := 9, handlerStart := 9, handlerEnd := 12, caught := some .object },
    { kind := .typed, tryStart := 1, tryEnd := 12, handlerStart := 12, handlerEnd := 15, caught := some .object }]

theorem retries_guards : ∃ t, importMethod retries ⟨State.ofMethod retries, #[]⟩ = .ok () t ∧
    (t.state.body.inst ⟨0⟩).block = some ⟨1⟩ ∧ (t.state.body.inst ⟨4⟩).block = some ⟨8⟩ ∧
    ⟨8⟩ ∈ t.state.body.succs ⟨1⟩ ∧ t.state.body.OnEveryPath ⟨0⟩ ⟨8⟩ ⟨1⟩ := by
  obtain ⟨t, h, hp⟩ := exists_of_imported? (m := retries) (p := fun s => decide (
    s.guards.reverse.map Prod.fst = [⟨0⟩, ⟨2⟩, ⟨4⟩] ∧ (s.body.inst ⟨0⟩).block = some ⟨1⟩ ∧
    (s.body.inst ⟨4⟩).block = some ⟨8⟩ ∧ ⟨8⟩ ∈ s.body.succs ⟨1⟩ ∧ s.body.entry = some ⟨0⟩)) (by decide +kernel)
  obtain ⟨hguards, hinner, houter, hback, hzero⟩ := of_decide_eq_true hp
  obtain ⟨g, g', a, b, entry, hg, hg', -, -, ha, hb, -, hentry, hpaths⟩ :=
    outerGuard_onEveryPath (i := 0) (j := 2) h (by decide) rfl rfl rfl (by decide)
  have hfirst : some g = some ⟨0⟩ := by
    have hmap := congrArg (Option.map Prod.fst) hg
    rwa [← getElem?_map, hguards, eq_comm] at hmap
  have hlast : some g' = some ⟨4⟩ := by
    have hmap := congrArg (Option.map Prod.fst) hg'
    rwa [← getElem?_map, hguards, eq_comm] at hmap
  obtain rfl := Option.some.inj hfirst
  obtain rfl := Option.some.inj hlast
  obtain rfl := Option.some.inj (ha.symm.trans hinner)
  obtain rfl := Option.some.inj (hb.symm.trans houter)
  obtain rfl := Option.some.inj (hentry.symm.trans hzero)
  exact ⟨t, h, hinner, houter, hback, hpaths⟩

end MethodIR.Import
