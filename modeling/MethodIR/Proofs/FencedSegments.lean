import MethodIR.Proofs.SegmentLinks

/-!
# Guards of exception regions

As long as only blocks and guards have been created, the blocks of a segment are entered from outside
only by the guards of the regions that name it as handler or filter (`Fenced`).
-/

namespace MethodIR.Import

open List Success Traced Body Function Kind State Import

variable {m : Bytecode} {leaders : List Nat} {own own' : BlockId → Option Nat} {n : Nat} {s s' : State}
  {i g : InstId} {a b t : BlockId} {kind : Kind} {ty : Ty}

/-! ## Guards are created -/

/-- The state while guards are created, with the regions whose guards are there. -/
structure Fenced (m : Bytecode) (leaders : List Nat) (own : BlockId → Option Nat)
    (done : List Bytecode.Region) (s : State) : Prop where
  intact : s.body.Intact
  parted : Parted m leaders own s
  guarded : Guarded leaders own (fun _ => False) s
  linked : Linked leaders own s
  seeded : ∀ n slots, (s.segment n).entryStack = some slots → Seeded s n slots
  ending : Ending 0 s
  operands : ∀ i, (s.body.inst i).operands = []
  kinds : ∀ i, s.body.hasInst i → (s.body.kind i).isGuard ∨ (s.body.kind i).isTerminator
  regions : s.guards.map Prod.snd = done.reverse
  vars : s.body.vars = (ofMethod m).body.vars
  args : s.body.args.size = (ofMethod m).body.args.size
  returnTy : s.body.returnTy = m.sig.ret
  argVars : s.argVars = (ofMethod m).argVars
  localVars : s.localVars = (ofMethod m).localVars

variable {done regions : List Bytecode.Region} {r : Bytecode.Region} {log : Array Event} {u : Unit} {tr : Trace State}
  {body : Body} {ns : Option Nat}

lemma kind_of_not_hasInst (h : body.hasInst i = false) : body.kind i = .binary .add := by
  rw [kind, inst, Tables.getD_of_size_le _ _ _ (by simpa [hasInst] using h)]
  rfl

section

variable (h : Fenced m leaders own done s)
include h

lemma Fenced.not_isPhi (i : InstId) : (s.body.kind i).isPhi = false := by
  by_cases hi : s.body.hasInst i
  · have hkind := h.kinds i hi
    cases hk : s.body.kind i <;> simp_all [isPhi, isGuard, isTerminator]
  · rw [kind_of_not_hasInst (by simpa using hi)]
    rfl

lemma Fenced.framed : Framed m s := by
  refine ⟨h.returnTy, fun slot v hv => ?_⟩
  rw [frameVar?_congr h.argVars h.localVars] at hv
  rw [hasVar, var, h.vars]
  exact ofMethod_frameVar? m slot v hv

lemma Fenced.stackVars : StackVars s := by
  have hnone : ∀ n vars, ¬s.Expects n vars := fun n vars hn => by
    obtain ⟨g, r, hslots, -⟩ := h.seeded n _ hn
    cases vars <;> simp at hslots
  refine ⟨fun n slots hn slot hslot => ?_, fun n vars hn => absurd hn (hnone n vars),
    fun n _ vars _ hn => absurd hn (hnone n vars)⟩
  obtain ⟨g, r, rfl, hg, -⟩ := h.seeded n slots hn
  obtain rfl := mem_singleton.1 hslot
  obtain ⟨⟨host, hhost⟩, -⟩ := h.guarded.hosted _ hg
  exact h.intact.wired.attached.hasInst ((h.intact.wired.attached.mem_iff host g).2 hhost)

lemma Fenced.splitFrom {start split : BlockId} (hrun : (do
      let split ← Edit.createBlock (s.body.layout.prev? start)
      (s.body.preds start).forM fun pred => Edit.replaceTarget pred start split
      Edit.setJump split start
      return split : Edit BlockId) s.body = .ok split body) :
    split = ⟨s.body.blocks.size⟩ ∧ SplitFrom s.body start body := by
  simp only [bind_iff, Edit.createBlock_iff, pure_iff] at hrun
  obtain ⟨_, _, ⟨-, rfl, rfl⟩, _, x, hfold, _, _, hjump, rfl, rfl⟩ := hrun
  generalize hplace : s.body.layout.prev? start = place at *
  have hadded : (s.body.addBlock place).Intact := h.intact.addBlock fun a ha => by
    obtain rfl := Option.mem_def.1 ha
    exact h.intact.mem_order.1 (h.intact.laid.row.mem_of_prev? hplace)
  have hnew : (s.body.addBlock place).hasBlock ⟨s.body.blocks.size⟩ := (hasBlock_addBlock place).2 (.inl rfl)
  obtain ⟨hx, hredirected⟩ := forM_replaceTarget hnew hadded h.not_isPhi hfold
  have hempty : x.instsOf ⟨s.body.blocks.size⟩ = [] := by
    rw [hredirected.places.instsOf, instsOf_addBlock]
    exact instsOf_of_not_hasBlock (by simp [hasBlock])
  obtain ⟨rfl, -, htarget⟩ := Edit.setJump_eq_ok hjump hempty
  exact ⟨rfl, splitFrom_append hredirected h.intact h.not_isPhi hx h.parted.entry htarget⟩

lemma Fenced.split (hsplit : Splits n s s') (hzero : n = 0 → 0 ∈ leaders) :
    Fenced m leaders (update own ⟨s.body.blocks.size⟩ (some n)) done s' := by
  have hbody := hsplit.body
  have hsize := hsplit.size
  have hsame := hsplit.same
  have hold : ∀ b, s.body.hasBlock b → b ≠ ⟨s.body.blocks.size⟩ := by
    rintro b hb rfl
    simp [hasBlock] at hb
  have hown : ∀ b, s.body.hasBlock b →
      update own ⟨s.body.blocks.size⟩ (some n) b = own b :=
    fun b hb => update_of_ne (hold b hb) _ _
  have hnew : ∀ i, s.body.hasInst i → i ≠ ⟨s.body.insts.size⟩ := by
    rintro i hi rfl
    simp [hasInst] at hi
  have hattached := h.intact.wired.attached
  have hentry := h.parted.entryBlock n hsplit.lt
  refine ⟨hbody.intact, ⟨hsize.trans h.parted.size, fun k hk => ?_, fun k hk => ?_, fun k hk => ?_,
    hbody.entry.trans h.parted.entry, ?_⟩, ⟨fun i a t hi ht => ?_, fun x hx => ?_⟩,
    Linked.split hsplit h.parted h.linked hattached, fun k slots hk => ?_,
    ⟨fun b i hi => ?_, fun k hk hk' i hi => ?_, fun b hb hnot => ?_⟩, fun i => ?_, fun i hi => ?_,
    by rw [hsplit.guards, h.regions], hbody.vars.trans h.vars, hbody.args.trans h.args,
    hbody.returnTy.trans h.returnTy, hsplit.argVars.trans h.argVars, hsplit.localVars.trans h.localVars⟩
  · rw [(hsame k).1, (hsame k).2.1]
    exact h.parted.range k (hsize ▸ hk)
  · obtain ⟨hhas, hk'⟩ := h.parted.block k (hsize ▸ hk)
    rw [(hsame k).2.2.1, hown _ hhas]
    exact ⟨(hbody.hasBlock _).2 (.inr hhas), hk'⟩
  · rw [hsplit.segment]
    split
    · next hkn =>
      subst hkn
      exact ⟨(hbody.hasBlock _).2 (.inl rfl), update_self ..⟩
    · obtain ⟨hhas, hk'⟩ := h.parted.entryBlock k (hsize ▸ hk)
      rw [hown _ hhas]
      exact ⟨(hbody.hasBlock _).2 (.inr hhas), hk'⟩
  · rw [hown _ (h.intact.laid.entry _ h.parted.entry)]
    exact h.parted.entry_own
  · rw [hbody.home] at hi
    split at hi
    · next hi' =>
      -- the new jump stays among the blocks of the segment
      subst hi'
      obtain rfl := Option.some.inj hi
      rw [hbody.jump, successors, mem_singleton] at ht
      subst ht
      exact ⟨n, (hown _ hentry.1).trans hentry.2, hzero, .inl (update_self ..)⟩
    · next hi' =>
      rw [(hsplit.kind hattached hi).2, successors_retarget, mem_map] at ht
      obtain ⟨t₀, ht₀, rfl⟩ := ht
      obtain ⟨k, hk, hk0, henters⟩ := h.guarded.edges i a t₀ hi ht₀
      have hedge := h.intact.wired.edges.hasBlock (h.intact.mem_succs.2 ⟨i, hi, ht₀⟩)
      refine ⟨k, ?_, hk0,
        henters.mono (hown a hedge.1) (by rw [hsplit.guards]; exact Subset.refl _) (hsame k).1⟩
      split
      · next heq =>
        subst heq
        rw [update_self, ← hk, hentry.2]
      · rw [hown _ hedge.2, hk]
  · rw [hsplit.guards] at hx
    obtain ⟨⟨host, hhost⟩, hk⟩ := h.guarded.hosted x hx
    obtain ⟨hhost', hkind⟩ := hsplit.kind hattached hhost
    exact ⟨⟨host, hhost'⟩, by rwa [hkind, isGuard_retarget]⟩
  · rw [(hsame k).2.2.2] at hk
    rw [Seeded, hsplit.guards, (hsame k).1]
    exact h.seeded k slots hk
  · rw [hbody.instsOf] at hi
    split at hi
    · simp at hi
    · have hin := hattached.hasInst (mem_of_mem_dropLast hi)
      rw [hbody.isTerminator (hnew i hin)]
      exact h.ending.last b i hi
  · obtain ⟨hhas, -⟩ := h.parted.block k (hsize ▸ hk')
    rw [(hsame k).2.2.1, hbody.instsOf, if_neg (hold _ hhas)] at hi
    rw [hbody.isTerminator (hnew i (hattached.hasInst hi))]
    exact h.ending.unended k hk (hsize ▸ hk') i hi
  · rw [hbody.instsOf]
    split
    · exact ⟨⟨s.body.insts.size⟩, rfl, by rw [hbody.jump]; rfl⟩
    · next hne =>
      obtain ⟨i, hi, hit⟩ := h.ending.ended b (((hbody.hasBlock b).1 hb).resolve_left hne) fun k hk hk' => by
        rw [← (hsame k).2.2.1]
        exact hnot k hk (hsize.symm ▸ hk')
      refine ⟨i, hi, ?_⟩
      rwa [hbody.isTerminator (hnew i (hattached.hasInst (mem_of_getLast? hi)))]
  · rw [hbody.operands]
    split
    · rfl
    · exact h.operands i
  · by_cases hi' : i = ⟨s.body.insts.size⟩
    · rw [hi', hbody.jump]
      exact .inr rfl
    · rw [hbody.isTerminator hi', hbody.isGuard hi']
      refine h.kinds i ?_
      have hlt : i.index < s.body.insts.size + 1 := by
        rw [← hbody.size]
        simpa [hasInst] using hi
      have : i.index ≠ s.body.insts.size := fun heq => hi' (InstId.ext heq)
      simp only [hasInst, decide_eq_true_eq]
      omega

lemma guardBlock_cases (hrun : guardBlock r ⟨s, log⟩ = .ok b tr) :
    ∃ n, n < s.segments.size ∧ (s.segment n).start = r.tryStart ∧ (b = ⟨s.body.blocks.size⟩ ∧ Splits n s tr.state ∨
        b = (s.segment n).entryBlock ∧ tr.state = s ∧
          (s.body.guards (s.segment n).entryBlock).any (isInner s r) = false) := by
  simp only [guardBlock, bind_iff, ↓getState_bind_iff] at hrun
  obtain ⟨n, _, hsegment, hrun⟩ := hrun
  obtain ⟨rfl, hn, hoffset⟩ := segmentAt_read _ _ _ _ hsegment
  refine ⟨n, hn, hoffset, ?_⟩
  split at hrun
  · simp only [bind_iff, edit_iff, modifyState_iff, report_iff, pure_iff] at hrun
    obtain ⟨split, _, ⟨body, hedit, rfl⟩, _, _, rfl, _, _, rfl, rfl, rfl⟩ := hrun
    obtain ⟨rfl, hsplit⟩ := h.splitFrom (by simpa only [bind_iff, pure_iff] using hedit)
    refine .inl ⟨rfl, hn, hsplit, by simp [modifySegment], fun k => ?_, rfl, rfl, rfl⟩
    rw [segment_modifySegment]
    by_cases hk : k = n
    · subst hk
      rw [if_pos ⟨rfl, hn⟩, if_pos rfl]
      rfl
    · rw [if_neg fun heq => hk heq.1.symm, if_neg hk]
      rfl
  · next hinner =>
    obtain ⟨rfl, rfl⟩ := pure_iff.1 hrun
    exact .inr ⟨rfl, rfl, by simpa using hinner⟩

lemma Fenced.zero_mem_of_start (hstart : r.tryStart ∈ leaders)
    (hleaders : Leaders m leaders) (hn : n < s.segments.size) (hoffset : (s.segment n).start = r.tryStart)
    (hzero : n = 0) : 0 ∈ leaders := by
  subst hzero
  rw [h.parted.start_zero hleaders hn] at hoffset
  rwa [hoffset]

lemma guardBlock_spec (hstart : r.tryStart ∈ leaders)
    (hleaders : Leaders m leaders) (hrun : guardBlock r ⟨s, log⟩ = .ok b tr) :
    ∃ own' n, Fenced m leaders own' done tr.state ∧ n < tr.state.segments.size ∧ own' b = some n ∧
      (tr.state.segment n).start = r.tryStart ∧ tr.state.body.hasBlock b := by
  obtain ⟨n, hn, hoffset, ⟨rfl, hsplits⟩ | ⟨rfl, hsame, -⟩⟩ := guardBlock_cases h hrun
  · refine ⟨_, n, h.split hsplits (h.zero_mem_of_start hstart hleaders hn hoffset), hsplits.size ▸ hn,
      update_self .., (hsplits.same n).1.trans hoffset, (hsplits.body.hasBlock _).2 (.inl rfl)⟩
  · rw [hsame]
    exact ⟨own, n, h, hn, (h.parted.entryBlock n hn).2, hoffset, (h.parted.entryBlock n hn).1⟩

end

lemma insertBeforeEnd_eq_ok {body' : Body} (h : insertBeforeEnd b i body = .ok u body')
    (hplaces : body.Attached) (hlast : ∀ j ∈ (body.instsOf b).dropLast, (body.kind j).isTerminator = false) :
    body.CanAttach i b ∧ ∃ pre post, pre ++ post = body.instsOf b ∧ body' = body.attach i b (pre ++ i :: post) ∧
      (post = [] → ∀ j ∈ pre, (body.kind j).isTerminator = false) := by
  simp only [insertBeforeEnd, bind_iff, get_iff] at h
  obtain ⟨_, _, ⟨rfl, rfl⟩, h⟩ := h
  cases hterm : body.terminator? b with
  | some term =>
    rw [hterm, Edit.insertBefore_iff] at h
    obtain ⟨c, -, hhome, hcan, rfl⟩ := h
    have hmem : term ∈ body.instsOf b := mem_of_getLast? (Option.filter_eq_some_iff.1 hterm).1
    obtain rfl : b = c := Option.some.inj (((hplaces.mem_iff b term).1 hmem).symm.trans hhome)
    refine ⟨hcan, _, _, takeWhile_append_dropWhile, rfl, fun hnil => ?_⟩
    rw [dropWhile_eq_nil_iff] at hnil
    simpa using hnil term hmem
  | none =>
    rw [hterm, Edit.insertLast_iff] at h
    refine ⟨h.1, _, [], append_nil _, h.2, fun _ j hj => ?_⟩
    rw [terminator?, Option.filter_eq_none_iff] at hterm
    rcases eq_nil_or_concat (body.instsOf b) with hnil | ⟨l, k, hl⟩
    · simp [hnil] at hj
    · rw [concat_eq_append] at hl
      rw [hl, dropLast_concat] at hlast
      rw [hl, mem_append, mem_singleton] at hj
      rcases hj with hj | rfl
      · exact hlast j hj
      · simpa [hl] using hterm j

lemma Fenced.withStacks (h : Fenced m leaders own done s) (hsegments : SameSegments s s')
    (hbody : s'.body = s.body) (hguards : s'.guards = s.guards) (hargs : s'.argVars = s.argVars)
    (hlocals : s'.localVars = s.localVars)
    (hseeded : ∀ n slots, (s'.segment n).entryStack = some slots → Seeded s' n slots) :
    Fenced m leaders own done s' := by
  refine ⟨hbody ▸ h.intact, h.parted.congr hsegments (fun b hb => hbody ▸ hb) (by rw [hbody]), ?_, ?_, hseeded, ?_,
    fun i => hbody ▸ h.operands i, fun i => hbody ▸ h.kinds i, by rw [hguards, h.regions], hbody ▸ h.vars,
    hbody ▸ h.args, hbody ▸ h.returnTy, hargs.trans h.argVars, hlocals.trans h.localVars⟩
  · refine h.guarded.congr hsegments hguards (fun i a hi => ?_) fun i a hi => ?_
    · rw [hbody] at hi ⊢
      exact ⟨hi, rfl⟩
    · rw [hbody]
      exact ⟨hi, rfl⟩
  · refine h.linked.stays hsegments (fun i a hi => ?_) (fun b => by rw [hbody])
      (by rw [hguards]; exact Subset.refl _) (fun x hx => .inl (hguards ▸ hx)) fun i a hi _ => .inl ?_
    · rw [hbody]
      exact ⟨hi, rfl⟩
    · rwa [hbody] at hi
  · exact h.ending.congr hsegments (fun b => by rw [hbody]) (fun b i _ => by rw [hbody]) fun b hb => hbody ▸ hb

lemma Fenced.addGuard (h : Fenced m leaders own done s) {pre post : List InstId}
    (hguard : GuardsBy s r kind) (harity : Edit.arityViolation? kind 0 = none)
    (hzero : ∀ n, n < s.segments.size → (s.segment n).start ∈ r.handlerStarts → n = 0 → 0 ∈ leaders)
    (hhost : ∃ n, own b = some n ∧ n < s.segments.size ∧ (s.segment n).start = r.tryStart)
    (hcan : (s.body.addInst kind [] ty).CanAttach ⟨s.body.insts.size⟩ b) (hlist : pre ++ post = s.body.instsOf b)
    (hpost : post = [] → ∀ j ∈ pre, (s.body.kind j).isTerminator = false)
    (hbody : s'.body = s.body.withInst b pre post kind [] ty) (hsegments : s'.segments = s.segments)
    (hguards : s'.guards = (⟨s.body.insts.size⟩, r) :: s.guards) (hargs : s'.argVars = s.argVars)
    (hlocals : s'.localVars = s.localVars) : Fenced m leaders own (done ++ [r]) s' := by
  obtain ⟨s₁, hs₁, hsegments₁, hguards₁⟩ : ∃ s₁ : State, s₁.body = s.body.addInst kind [] ty ∧
      s₁.segments = s.segments ∧ s₁.guards = s.guards :=
    ⟨{ s with body := s.body.addInst kind [] ty }, rfl, rfl, rfl⟩
  have hplaces := h.intact.wired.attached
  have hsame : SameSegments s s₁ := .of_eq hsegments₁
  have hsame' : SameSegments s₁ s' := .of_eq (hsegments.trans hsegments₁.symm)
  have hkind : ∀ i, s₁.body.kind i = if i.index = s.body.insts.size then kind else s.body.kind i := fun i => by
    rw [hs₁, kind_addInst]
  have hnew : s₁.body.kind ⟨s.body.insts.size⟩ = kind := by rw [hkind, if_pos rfl]
  have hinsts : ∀ c, s₁.body.instsOf c = s.body.instsOf c := fun c => by rw [hs₁, instsOf_addInst]
  have hold : ∀ c, ∀ j ∈ s.body.instsOf c, s₁.body.kind j = s.body.kind j := fun c j hj => by
    rw [hkind, if_neg]
    intro heq
    have hin := hplaces.hasInst hj
    simp [hasInst, heq] at hin
  have hattach : s'.body = s₁.body.attach ⟨s.body.insts.size⟩ b (pre ++ ⟨s.body.insts.size⟩ :: post) := by
    rw [hbody, withInst, hs₁]
  rw [← hs₁] at hcan
  have hplain : kind.isTerminator = false := by
    obtain ⟨_, _, _, rfl⟩ := hguard.form
    rfl
  have hstays : s.body.Stays s'.body := by
    rw [hattach]
    refine Stays.trans ?_ (stays_attach hcan.1 hcan.2.2.1 _)
    rw [hs₁]
    exact hplaces.stays_addInst kind [] ty
  have hhome : ∀ i, (s'.body.inst i).block =
      if ⟨s.body.insts.size⟩ = i then some b else (s₁.body.inst i).block := fun i => by
    rw [hattach, home_attach hcan.1]
  have hvars : s'.body.vars = s.body.vars := by
    rw [hattach, attach_eq, hs₁]
    exact (sameGraph_addInst kind [] ty).vars
  have hsubset : s₁.guards ⊆ s'.guards := by
    rw [hguards, hguards₁]
    exact subset_cons_self _ _
  have hblocks : ∀ c, s'.body.hasBlock c = s.body.hasBlock c := fun c => by
    rw [hattach, hasBlock, size_blocks_attach, ← hasBlock, hs₁, (sameGraph_addInst kind [] ty).hasBlock]
  refine ⟨?_, h.parted.congr (.of_eq hsegments) (fun c hc => (hblocks c).trans hc) ?_, ?_, ?_,
    fun n slots hn => ?_, ?_, fun i => ?_, fun i hi => ?_, by simp [hguards, h.regions], hvars.trans h.vars, ?_, ?_,
    hargs.trans h.argVars, hlocals.trans h.localVars⟩
  · rw [hbody]
    have hhas : ∀ c, (s.body.addInst kind [] ty).hasBlock c = s.body.hasBlock c :=
      (sameGraph_addInst kind [] ty).hasBlock
    refine h.intact.withInst harity (by simp) ?_ (fun c hc => ?_) hlist
    · rw [← hhas, ← hs₁]
      exact hcan.2.2.2.1
    · rw [← hhas, ← hs₁]
      exact hcan.2.2.2.2 c (by rwa [hnew])
  · rw [hattach, attach_eq, hs₁]
    exact (sameGraph_addInst kind [] ty).entry
  · refine (h.guarded.addInst hsame hs₁ hguards₁ hplaces).attach hsame' hcan.1 hattach hsubset (fun x hx => ?_)
      fun t ht => ?_
    · rw [hguards, mem_cons] at hx
      rcases hx with rfl | hx
      · exact .inr ⟨rfl, by rw [hnew]; exact hguard.isGuard⟩
      · exact .inl (by rwa [hguards₁])
    · rw [hnew] at ht
      obtain ⟨o, ho, n, hn, hstart, rfl⟩ := hguard.entryAt ht
      rw [← hstart] at ho
      refine ⟨n, (h.parted.entryBlock n hn).2, hzero n hn ho, .inr (.inl ⟨r, by simp [hguards], ?_⟩)⟩
      rwa [State.segment, hsegments]
  · refine h.linked.stays (.of_eq hsegments) hstays hblocks (by rw [hguards]; exact subset_cons_self _ _)
      (fun x hx => ?_) fun i a hi hguard' => ?_
    · rw [hguards, mem_cons] at hx
      rcases hx with rfl | hx
      · obtain ⟨n, hn, hlt, hstart⟩ := hhost
        refine .inr ⟨?_, b, n, by rw [hhome, if_pos rfl], hn, hsegments ▸ hlt, ?_⟩
        · rw [hattach, kind_attach, hnew]
          exact ⟨hguard.form, hguard.targets.imp fun _ _ hentry => hentry.congr (.of_eq hsegments)⟩
        · rw [State.segment, hsegments]
          exact hstart
      · exact .inl hx
    · rw [hhome] at hi
      split at hi
      · next heq => exact .inr ⟨r, by simp [hguards, ← heq]⟩
      · rw [hs₁, hplaces.home_addInst_iff] at hi
        exact .inl hi
  · rw [State.segment, hsegments] at hn
    rw [Seeded, State.segment, hsegments, hguards]
    obtain ⟨g, r', hslots, hmem, hrest⟩ := h.seeded n slots hn
    exact ⟨g, r', hslots, mem_cons_of_mem _ hmem, hrest⟩
  · refine (h.ending.addInst hsame hs₁ hplaces).attach hsame' hcan.2.2.2.1 (by rw [hinsts, hlist]) hattach
      (by rw [hnew, hplain]) fun hnil j hj => ?_
    rw [hold b j (by simp [← hlist, hj])]
    exact hpost hnil j hj
  · rw [hattach, inst_attach]
    have hadd : (s₁.body.inst i).operands = [] := by
      rw [hs₁, operands_addInst, h.operands i, ite_self]
    split <;> exact hadd
  · rw [hattach, kind_attach, hkind]
    split
    · exact .inl hguard.isGuard
    · next hne =>
      refine h.kinds i ?_
      rw [hbody, hasInst, size_withInst, decide_eq_true_eq] at hi
      rw [hasInst, decide_eq_true_eq]
      omega
  · have hgraph : SameGraph s.body s₁.body := hs₁ ▸ sameGraph_addInst kind [] ty
    rw [hattach, attach_eq]
    exact (hasArg_congr hgraph.args).trans h.args
  · rw [hattach, attach_eq, hs₁]
    exact (sameGraph_addInst kind [] ty).returnTy.trans h.returnTy

lemma filterSegment_read (h : r.filterStart.mapM segmentAt ⟨s, log⟩ = .ok ns tr) :
    tr = ⟨s, log⟩ ∧ (∀ o, o ∈ r.filterStart.toList ↔ ∃ k ∈ ns, k < s.segments.size ∧ (s.segment k).start = o) ∧
      Forall₂ s.EntryAt r.filterStart.toList (ns.map fun k => (s.segment k).entryBlock).toList := by
  cases hstart : r.filterStart with
  | none =>
    rw [hstart, Option.mapM_none] at h
    obtain ⟨rfl, rfl⟩ := pure_iff.1 h
    exact ⟨rfl, by simp, .nil⟩
  | some o =>
    rw [hstart, Option.mapM_some] at h
    simp only [map_iff] at h
    obtain ⟨k, hk, rfl⟩ := h
    obtain ⟨rfl, hlt, hoffset⟩ := segmentAt_read _ _ _ _ hk
    exact ⟨rfl, by simp [hlt, hoffset, eq_comm], .cons ⟨k, hlt, hoffset, rfl⟩ .nil⟩

lemma Fenced.zero_mem (h : Fenced m leaders own done s) (hleaders : Leaders m leaders)
    (hbounds : ∀ o ∈ r.bounds, o ∈ leaders) (hn : n < s.segments.size)
    (hstart : (s.segment n).start ∈ r.handlerStarts) (hzero : n = 0) : 0 ∈ leaders := by
  subst hzero
  rw [h.parted.start_zero hleaders hn] at hstart
  refine hbounds 0 ?_
  simp only [Bytecode.Region.handlerStarts, mem_cons] at hstart
  rcases hstart with hstart | hstart
  · simp [Bytecode.Region.bounds, ← hstart]
  · exact mem_append_right _ hstart

section

variable (hrun : (do seed g n; ns.forM (seed g) : M Unit) ⟨s, log⟩ = .ok u tr)
include hrun

lemma seeds_spec :
    ∃ segments, tr.state = { s with segments } ∧ segments.size = s.segments.size ∧ ∀ k, tr.state.segment k =
      if (n = k ∨ k ∈ ns) ∧ k < s.segments.size then { s.segment k with entryStack := some [.value (.inst g)] }
      else s.segment k := by
  simp only [bind_iff, seed, modifyState_iff] at hrun
  obtain ⟨_, _, rfl, hfilters⟩ := hrun
  cases ns with
  | none =>
    obtain ⟨-, rfl⟩ := pure_iff.1 hfilters
    refine ⟨_, rfl, by simp, fun k => ?_⟩
    simp [segment_modifySegment]
  | some j =>
    change seed _ j _ = _ at hfilters
    rw [seed, modifyState_iff] at hfilters
    subst hfilters
    refine ⟨_, rfl, by simp [modifySegment], fun k => ?_⟩
    have hsize : (s.modifySegment n fun x => { x with entryStack := some [.value (.inst g)] }).segments.size =
        s.segments.size := by simp [modifySegment]
    rw [segment_modifySegment, segment_modifySegment, hsize]
    by_cases hk : k < s.segments.size <;> by_cases hn : n = k <;> by_cases hj : j = k <;> simp [hk, hn, hj]

lemma seeds_same : tr.state.body = s.body ∧ tr.state.guards = s.guards ∧ SameSegments s tr.state := by
  obtain ⟨segments, hstate, hsize, hsegment⟩ := seeds_spec hrun
  refine ⟨by rw [hstate], by rw [hstate], by rw [hstate, hsize], fun k => ?_⟩
  rw [hsegment]
  split <;> exact ⟨rfl, rfl, rfl, rfl⟩

end

/-- The segments that the handler and the filter of a region start with. -/
def State.Heads (s : State) (r : Bytecode.Region) (n : Nat) (ns : Option Nat) : Prop :=
  ∀ o, o ∈ r.handlerStarts ↔ ∃ k, (n = k ∨ k ∈ ns) ∧ k < s.segments.size ∧ (s.segment k).start = o

lemma Fenced.seeds (h : Fenced m leaders own done s) (hg : (g, r) ∈ s.guards) (hpasses : passesException r.kind)
    (hheads : s.Heads r n ns)
    (hrun : (do seed g n; ns.forM (seed g) : M Unit) ⟨s, log⟩ = .ok u tr) :
    Fenced m leaders own done tr.state := by
  obtain ⟨segments, hstate, -, hsegment⟩ := seeds_spec hrun
  obtain ⟨hbody, hguards, hsame⟩ := seeds_same hrun
  refine h.withStacks hsame hbody hguards (by rw [hstate]) (by rw [hstate]) fun k slots hk => ?_
  rw [Seeded, (hsame.same k).1, hguards]
  rw [hsegment] at hk
  split at hk
  · next hkn =>
    obtain rfl := Option.some.inj hk
    exact ⟨g, r, rfl, hg, (hheads _).2 ⟨k, hkn.1, hkn.2, rfl⟩, hpasses⟩
  · exact h.seeded k slots hk

def State.withGuard (s : State) (r : Bytecode.Region) (body : Body) : State :=
  { s with body := body, guards := (⟨s.body.insts.size⟩, r) :: s.guards }

lemma Fenced.insertGuard (h : Fenced m leaders own done s) (hguard : GuardsBy s r kind)
    (harity : Edit.arityViolation? kind 0 = none)
    (hzero : ∀ n, n < s.segments.size → (s.segment n).start ∈ r.handlerStarts → n = 0 → 0 ∈ leaders)
    (hhost : ∃ n, own b = some n ∧ n < s.segments.size ∧ (s.segment n).start = r.tryStart)
    (hinsert : insertBeforeEnd b ⟨s.body.insts.size⟩ (s.body.addInst kind [] ty) = .ok u body) :
    Fenced m leaders own (done ++ [r]) (s.withGuard r body) := by
  have hplaces := h.intact.wired.attached
  have hold : ∀ j ∈ s.body.instsOf b, (s.body.addInst kind [] ty).kind j = s.body.kind j := fun j hj => by
    rw [kind_addInst, if_neg]
    intro heq
    have hin := hplaces.hasInst hj
    simp [hasInst, heq] at hin
  obtain ⟨hcan, pre, post, hlist, hbody, hpost⟩ := insertBeforeEnd_eq_ok hinsert (hplaces.addInst _ _ _) (by
    rw [instsOf_addInst]
    exact fun j hj => by
      rw [hold j (mem_of_mem_dropLast hj)]
      exact h.ending.last b j hj)
  rw [instsOf_addInst] at hlist
  refine h.addGuard hguard harity hzero hhost hcan hlist (fun hnil j hj => ?_) hbody rfl rfl rfl rfl
  rw [← hold j (by simp [← hlist, hj])]
  exact hpost hnil j hj

lemma createGuard_cases (hrun : createGuard r ⟨s, log⟩ = .ok u tr) :
    ∃ (b : BlockId) (t₁ : Trace State) (n : Nat) (ns : Option Nat) (kind : Kind) (ty : Ty) (body : Body),
      guardBlock r ⟨s, log⟩ = .ok b t₁ ∧ t₁.state.Heads r n ns ∧ GuardsBy t₁.state r kind ∧
      Edit.arityViolation? kind 0 = none ∧
      insertBeforeEnd b ⟨t₁.state.body.insts.size⟩ (t₁.state.body.addInst kind [] ty) = .ok () body ∧
      (passesException r.kind = false ∧ tr.state = t₁.state.withGuard r body ∨ passesException r.kind ∧ ∃ log t₂,
        (do seed ⟨t₁.state.body.insts.size⟩ n; ns.forM (seed ⟨t₁.state.body.insts.size⟩) : M Unit)
          ⟨t₁.state.withGuard r body, log⟩ = .ok () t₂ ∧ tr.state = t₂.state) := by
  simp only [createGuard, bind_iff, ↓getState_bind_iff] at hrun
  obtain ⟨b, t₁, hblock, n, t₂, hhandler, ns, t₃, hfilter, hrun⟩ := hrun
  obtain ⟨rfl, hn, hstart⟩ := segmentAt_read _ _ _ _ hhandler
  obtain ⟨rfl, hns, hfilters⟩ := filterSegment_read hfilter
  simp only [bind_iff, edit_iff, modifyState_iff, Edit.createInst_iff, pure_iff] at hrun
  obtain ⟨g, _, ⟨body, ⟨_, _, ⟨harity, -, rfl, rfl⟩, _, _, hinsert, rfl, rfl⟩, rfl⟩, _, _, rfl, hrun⟩ := hrun
  obtain ⟨s₁, log₁⟩ := t₁
  simp only at hns hfilters hn hstart hinsert hrun
  have hheads : s₁.Heads r n ns := fun o => by
    rw [Bytecode.Region.handlerStarts, mem_cons, hns]
    constructor
    · rintro (rfl | ⟨k, hk, hrest⟩)
      · exact ⟨n, .inl rfl, hn, hstart⟩
      · exact ⟨k, .inr hk, hrest⟩
    · rintro ⟨k, rfl | hk, hrest⟩
      · exact .inl (hrest.2.symm.trans hstart)
      · exact .inr ⟨k, hk, hrest⟩
  refine ⟨b, _, n, ns, _, _, _, hblock, hheads, ⟨⟨_, _, _, rfl⟩, .cons ⟨n, hn, hstart, rfl⟩ hfilters⟩, harity,
    hinsert, ?_⟩
  split at hrun
  · next hpasses =>
    simp only [← bind_assoc] at hrun
    obtain ⟨_, t₂, hseed, hreport⟩ := bind_iff.1 hrun
    rw [report_iff] at hreport
    exact .inr ⟨hpasses, _, t₂, hseed, by rw [hreport]⟩
  · next hpasses =>
    rw [report_iff] at hrun
    exact .inl ⟨by simpa using hpasses, by rw [hrun]; rfl⟩

lemma createGuard_spec (h : Fenced m leaders own done s) (hleaders : Leaders m leaders)
    (hr : r ∈ m.regions) (hrun : createGuard r ⟨s, log⟩ = .ok u tr) :
    ∃ own', Fenced m leaders own' (done ++ [r]) tr.state := by
  obtain ⟨-, -, hbounds⟩ := hleaders.regions r hr
  obtain ⟨b, t₁, n, ns, kind, ty, body, hblock, hheads, hguard, harity, hinsert, hfinish⟩ := createGuard_cases hrun
  obtain ⟨own', k, hfenced, hlt, hown, htry, -⟩ :=
    guardBlock_spec h (hbounds _ (by simp [Bytecode.Region.bounds])) hleaders hblock
  have hguarded := hfenced.insertGuard hguard harity (fun n hn => hfenced.zero_mem hleaders hbounds hn)
    ⟨k, hown, hlt, htry⟩ hinsert
  refine ⟨own', ?_⟩
  rcases hfinish with ⟨-, heq⟩ | ⟨hpasses, log, t₂, hseed, heq⟩
  · rw [heq]
    exact hguarded
  · rw [heq]
    exact hguarded.seeds mem_cons_self hpasses hheads hseed

/-- The value of a guard is expected where a handler or a filter starts. -/
def State.Catches (s : State) (offset : Nat) : Prop := ∃ n g, n < s.segments.size ∧ (s.segment n).start = offset ∧
  (s.segment n).entryStack = some [.value (.inst g)]

lemma createGuard_catches (h : Fenced m leaders own done s) (hrun : createGuard r ⟨s, log⟩ = .ok u tr) :
    (∀ o, s.Catches o → tr.state.Catches o) ∧
      (passesException r.kind → ∀ o ∈ r.handlerStarts, tr.state.Catches o) := by
  obtain ⟨b, t₁, n, ns, kind, ty, body, hblock, hheads, -, -, -, hfinish⟩ := createGuard_cases hrun
  have hold : ∀ o, s.Catches o → t₁.state.Catches o := by
    rintro o ⟨k, g, hk, hstart, hstack⟩
    obtain ⟨_, -, -, ⟨-, hsplits⟩ | ⟨-, hsame, -⟩⟩ := guardBlock_cases h hblock
    · obtain ⟨hstart', -, -, hstack'⟩ := hsplits.same k
      exact ⟨k, g, hsplits.size ▸ hk, hstart'.trans hstart, hstack'.trans hstack⟩
    · rw [hsame]
      exact ⟨k, g, hk, hstart, hstack⟩
  rcases hfinish with ⟨hnot, heq⟩ | ⟨-, log, t₂, hseeds, heq⟩
  · rw [heq]
    exact ⟨hold, by simp [hnot]⟩
  · obtain ⟨segments, -, -, hsegment⟩ := seeds_spec hseeds
    obtain ⟨-, -, hsame⟩ := seeds_same hseeds
    rw [heq]
    have hseeded : ∀ k, (n = k ∨ k ∈ ns) ∧ k < t₁.state.segments.size → t₂.state.Catches (t₁.state.segment k).start :=
      fun k hk => ⟨k, _, hsame.size ▸ hk.2, (hsame.same k).1,
        congrArg Segment.entryStack ((hsegment k).trans (if_pos hk))⟩
    refine ⟨fun o ho => ?_, fun _ o ho => ?_⟩
    · obtain ⟨k, g, hk, rfl, hstack⟩ := hold o ho
      by_cases hkn : (n = k ∨ k ∈ ns) ∧ k < t₁.state.segments.size
      · exact hseeded k hkn
      · exact ⟨k, g, hsame.size ▸ hk, (hsame.same k).1,
          (congrArg Segment.entryStack ((hsegment k).trans (if_neg hkn))).trans hstack⟩
    · obtain ⟨k, hkn, hk, rfl⟩ := (hheads o).1 ho
      exact hseeded k ⟨hkn, hk⟩

/-! ## The start -/

structure OnlyJumps (s : State) : Prop where
  intact : s.body.Intact
  guards : s.guards = []
  operands : ∀ i, (s.body.inst i).operands = []
  kinds : ∀ i, s.body.hasInst i → (s.body.kind i).isTerminator

lemma OnlyJumps.createSegments (h : OnlyJumps s) (hinsts : s.body.insts = #[]) {rs : List (Nat × Nat)}
    (hrun : (rs.forM (fun (start, stop) => createSegment m start stop) : M Unit) ⟨s, log⟩ = .ok u tr) :
    OnlyJumps tr.state ∧ tr.state.body.insts = #[] := by
  refine forM_induction (P := fun t : Trace State => OnlyJumps t.state ∧ t.state.body.insts = #[]) hrun
    ⟨h, hinsts⟩ ?_
  rintro ⟨start, stop⟩ - t t' u ⟨h, hinsts⟩ hone
  obtain rfl := createSegment_eq_ok hone
  exact ⟨⟨h.intact.addBlock_none, h.guards, h.operands, h.kinds⟩, hinsts⟩

lemma OnlyJumps.setJump (h : OnlyJumps s) (hinsts : s.body.insts = #[])
    (hjump : Edit.setJump b t s.body = .ok u body) : OnlyJumps { s with body } := by
  have hsize : s.body.insts.size = 0 := congrArg Array.size hinsts
  have hempty : s.body.instsOf b = [] := by
    refine eq_nil_iff_forall_not_mem.2 fun i hi => ?_
    have hin := h.intact.wired.attached.hasInst hi
    simp [hasInst, hsize] at hin
  obtain ⟨hbody, hhas, htarget⟩ := Edit.setJump_eq_ok hjump hempty
  rw [append_eq_withInst] at hbody
  have hattach : body = (s.body.addInst (.jump t) [] .void).attach ⟨s.body.insts.size⟩ b
      (s.body.instsOf b ++ [⟨s.body.insts.size⟩]) := hbody
  refine ⟨?_, h.guards, fun i => ?_, fun i hi => ?_⟩
  · rw [hbody]
    exact h.intact.withInst rfl (by simp) hhas (by simpa [successors] using htarget) (append_nil _)
  · have hadd : ((s.body.addInst (.jump t) [] .void).inst i).operands = [] := by
      rw [operands_addInst, h.operands i, ite_self]
    rw [hattach, inst_attach]
    split <;> exact hadd
  · rw [hbody, hasInst, size_withInst, hsize, decide_eq_true_eq] at hi
    rw [hattach, kind_attach, kind_addInst, if_pos (by omega)]
    rfl

lemma createBlocks_onlyJumps (h : createBlocks m leaders ⟨ofMethod m, log⟩ = .ok u tr) : OnlyJumps tr.state := by
  have hstart : OnlyJumps (ofMethod m) := by
    refine ⟨(intact_empty _ _).withVars _, rfl, fun i => rfl, fun i hi => ?_⟩
    simp [hasInst, ofMethod, empty] at hi
  rw [createBlocks] at h
  by_cases hzero : 0 ∈ leaders
  · simp only [contains_eq_mem, hzero, decide_true, if_true, bind_iff, map_iff, edit_iff,
      Edit.createBlock_iff] at h
    obtain ⟨_, t₁, ⟨_, ⟨body, ⟨-, rfl, rfl⟩, rfl⟩, rfl⟩, _, t₂, hsegments, h⟩ := h
    have hlead : OnlyJumps { ofMethod m with body := (ofMethod m).body.addBlock none } :=
      ⟨hstart.intact.addBlock_none, rfl, hstart.operands, hstart.kinds⟩
    obtain ⟨h₂, hinsts⟩ := hlead.createSegments rfl hsegments
    simp only [bind_iff, ↓getState_bind_iff, edit_iff, report_iff] at h
    obtain ⟨_, _, ⟨body, hjump, rfl⟩, rfl⟩ := h
    exact h₂.setJump hinsts hjump
  · simp only [contains_eq_mem, hzero, decide_false, bind_iff, Bool.false_eq_true, if_false, pure_iff] at h
    obtain ⟨_, _, ⟨rfl, rfl⟩, _, t₂, hsegments, h⟩ := h
    obtain ⟨-, rfl⟩ := pure_iff.1 h
    exact (hstart.createSegments rfl hsegments).1

def owner (leaders : List Nat) (b : BlockId) : Option Nat :=
  if leadIn leaders ≤ b.index then some (b.index - leadIn leaders) else none

lemma owner_segment (n : Nat) : owner leaders ⟨leadIn leaders + n⟩ = some n := by
  simp [owner]

lemma Opening.fenced (h : Opening m leaders s) (hjumps : OnlyJumps s) : Fenced m leaders (owner leaders) [] s := by
  have hsegment : ∀ n, n < s.segments.size → (ranges m.codeSize leaders)[n]? =
      some ((s.segment n).start, (s.segment n).stop) ∧ (s.segment n).block = ⟨leadIn leaders + n⟩ ∧
      (s.segment n).entryBlock = ⟨leadIn leaders + n⟩ := fun n hn => by
    rw [h.size] at hn
    have hrange := getElem?_eq_getElem hn
    rw [h.segment hrange, hrange]
    exact ⟨rfl, rfl, rfl⟩
  have hblock : ∀ n, n < s.segments.size → s.body.hasBlock ⟨leadIn leaders + n⟩ ∧
      owner leaders ⟨leadIn leaders + n⟩ = some n := fun n hn => by
    rw [h.size] at hn
    refine ⟨?_, owner_segment n⟩
    simp only [hasBlock, h.blocks, decide_eq_true_eq]
    omega
  -- an instruction is the jump of the block before the code
  have hplace : ∀ i a, (s.body.inst i).block = some a → 0 ∈ leaders ∧ a = ⟨0⟩ ∧ s.body.kind i = .jump ⟨1⟩ := by
    intro i a hi
    have hmem := (hjumps.intact.wired.attached.mem_iff a i).2 hi
    by_cases hlead : leadIn leaders ≤ a.index
    · rw [h.empty a hlead] at hmem
      simp at hmem
    · have hzero : 0 ∈ leaders := by
        by_contra hzero
        simp [leadIn, hzero] at hlead
      obtain rfl : a = ⟨0⟩ := BlockId.ext (by
        simp [leadIn, hzero] at hlead
        simpa using hlead)
      obtain ⟨jump, hjump, -, hkind⟩ := h.lead hzero
      rw [hjump, mem_singleton] at hmem
      exact ⟨hzero, rfl, hmem ▸ hkind⟩
  have houtside : ∀ b, s.body.hasBlock b → (∀ n, n < s.segments.size → b ≠ ⟨leadIn leaders + n⟩) →
      0 ∈ leaders ∧ b = ⟨0⟩ := by
    intro b hb hnot
    have hlt : b.index < s.body.blocks.size := by simpa [hasBlock] using hb
    rw [h.blocks, ← h.size] at hlt
    have hlead : ¬leadIn leaders ≤ b.index := fun hle =>
      hnot (b.index - leadIn leaders) (by omega) (BlockId.ext (by simp; omega))
    by_cases hzero : 0 ∈ leaders
    · refine ⟨hzero, BlockId.ext ?_⟩
      simp only [leadIn, hzero, if_true, not_le, Nat.lt_one_iff] at hlead
      exact hlead
    · simp [leadIn, hzero] at hlead
  have hlinked : Linked leaders (owner leaders) s := by
    refine ⟨fun n hn => ⟨[⟨leadIn leaders + n⟩], nodup_singleton _, ?_, ?_, fun b => ?_, .singleton _⟩,
      fun b hb hnot => houtside b hb fun n hn heq => ?_, fun hzero => ?_, fun x hx => ?_, fun i a hi hguard => ?_⟩
    · rw [(hsegment n hn).2.2]
      rfl
    · rw [(hsegment n hn).2.1]
      rfl
    · rw [mem_singleton]
      constructor
      · rintro rfl
        exact hblock n hn
      · rintro ⟨-, hown⟩
        rw [owner] at hown
        split at hown
        · exact BlockId.ext (by
            have := Option.some.inj hown
            simp
            omega)
        · simp at hown
    · exact hnot n hn (heq ▸ owner_segment n)
    · obtain ⟨jump, hjump, -, hkind⟩ := h.lead hzero
      have hhome := (hjumps.intact.wired.attached.mem_iff ⟨0⟩ jump).1 (by simp [hjump])
      have htarget := (hjumps.intact.wired.edges.hasBlock
        (hjumps.intact.mem_succs.2 ⟨jump, hhome, by rw [hkind]; exact mem_singleton.2 rfl⟩)).2
      have hsize : 0 < s.segments.size := by
        simp only [hasBlock, h.blocks, ← h.size, leadIn, hzero, if_true, decide_eq_true_eq] at htarget
        omega
      refine ⟨jump, hhome, ?_⟩
      rw [hkind, (hsegment 0 hsize).2.2]
      simp [leadIn, hzero]
    · simp [hjumps.guards] at hx
    · rw [(hplace i a hi).2.2] at hguard
      simp [isGuard] at hguard
  refine ⟨hjumps.intact, ⟨h.size, fun n hn => (hsegment n hn).1, fun n hn => ?_, fun n hn => ?_, h.entry, ?_⟩,
    ⟨fun i a t hi ht => ?_, fun x hx => ?_⟩, hlinked, fun n slots hn => ?_, ⟨fun b i hi => ?_,
    fun n _ hn i hi => ?_, fun b hb hnot => ?_⟩, hjumps.operands, fun i hi => .inr (hjumps.kinds i hi),
    by simp [hjumps.guards], h.vars, hasArg_congr h.grows.args, h.grows.returnTy, h.argVars, h.localVars⟩
  · rw [(hsegment n hn).2.1]
    exact hblock n hn
  · rw [(hsegment n hn).2.2]
    exact hblock n hn
  · by_cases hzero : 0 ∈ leaders <;> simp [owner, leadIn, hzero]
  · obtain ⟨hzero, rfl, hkind⟩ := hplace i a hi
    rw [hkind, successors, mem_singleton] at ht
    subst ht
    refine ⟨0, by simp [owner, leadIn, hzero], fun _ => hzero, .inr (.inr (.inl ⟨rfl, rfl⟩))⟩
  · simp [hjumps.guards] at hx
  · simp [h.entryStack n] at hn
  · have hmem := mem_of_mem_dropLast hi
    obtain ⟨hzero, rfl, -⟩ := hplace i b ((hjumps.intact.wired.attached.mem_iff b i).1 hmem)
    obtain ⟨jump, hjump, -⟩ := h.lead hzero
    simp [hjump] at hi
  · rw [(hsegment n hn).2.1, h.empty _ (Nat.le_add_right _ _)] at hi
    simp at hi
  · obtain ⟨hzero, rfl⟩ := houtside b hb fun n hn => by
      rw [← (hsegment n hn).2.1]
      exact hnot n (Nat.zero_le _) hn
    obtain ⟨jump, hjump, -, hkind⟩ := h.lead hzero
    exact ⟨jump, by rw [hjump]; rfl, by rw [hkind]; rfl⟩

lemma createGuards_spec (hleaders : Leaders m leaders)
    (hregions : regions ⊆ m.regions) : ∀ (own : BlockId → Option Nat) (done : List Bytecode.Region)
      (t t' : Trace State) (u : Unit), Fenced m leaders own done t.state →
      (regions.forM createGuard : M Unit) t = .ok u t' →
      (∃ own', Fenced m leaders own' (done ++ regions) t'.state) ∧ (∀ o, t.state.Catches o → t'.state.Catches o) ∧
        ∀ r ∈ regions, passesException r.kind → ∀ o ∈ r.handlerStarts, t'.state.Catches o := by
  induction regions with
  | nil =>
    intro own done t t' u h hrun
    obtain ⟨-, rfl⟩ := pure_iff.1 hrun
    exact ⟨⟨own, by simpa using h⟩, fun _ => id, by simp⟩
  | cons r regions ih =>
    intro own done t t' u h hrun
    change (createGuard r >>= fun _ => regions.forM createGuard) t = _ at hrun
    obtain ⟨_, t₁, hone, hrest⟩ := bind_iff.1 hrun
    obtain ⟨own₁, h₁⟩ := createGuard_spec h hleaders (hregions (by simp)) hone
    obtain ⟨hold, hnew⟩ := createGuard_catches h hone
    obtain ⟨⟨own', h'⟩, hkept, hall⟩ := ih (fun x hx => hregions (by simp [hx])) own₁ _ t₁ t' _ h₁ hrest
    refine ⟨⟨own', by simpa using h'⟩, fun o ho => hkept o (hold o ho), forall_mem_cons.2 ⟨?_, hall⟩⟩
    exact fun hpasses o ho => hkept o (hnew hpasses o ho)

/-- The stages of an import. In the end the guards of all regions are there. -/
lemma importMethod_fenced (h : importMethod m ⟨ofMethod m, log⟩ = .ok u tr) : ∃ leaders own t₁ t₂ t₃ t₄ t₅,
    Import.leaders m = .ok leaders ∧ ranges m.codeSize leaders ≠ [] ∧
      createBlocks m leaders ⟨ofMethod m, log⟩ = .ok () t₁ ∧ Fenced m leaders (owner leaders) [] t₁.state ∧
      m.regions.forM createGuard t₁ = .ok () t₂ ∧ Fenced m leaders own m.regions t₂.state ∧
      (∀ r ∈ m.regions, passesException r.kind → ∀ o ∈ r.handlerStarts, t₂.state.Catches o) ∧
      copyArguments t₂ = .ok () t₃ ∧ (range' 0 t₃.state.segments.size).forM (lowerSegment m) t₃ = .ok () t₄ ∧
      markExposed t₄ = .ok () t₅ ∧ tr.state = t₅.state := by
  obtain ⟨leaders, t₁, t₂, t₃, t₄, t₅, hleaders, hne, hblocks, hguards, hrest⟩ := importMethod_stages h
  have hfenced := (createBlocks_spec hne hblocks).fenced (createBlocks_onlyJumps hblocks)
  obtain ⟨⟨own, hown⟩, -, hcatches⟩ :=
    createGuards_spec (leaders_eq_ok hleaders) (Subset.refl _) _ _ t₁ t₂ _ hfenced hguards
  rw [nil_append] at hown
  exact ⟨leaders, own, t₁, t₂, t₃, t₄, t₅, hleaders, hne, hblocks, hfenced, hguards, hown, hcatches, hrest⟩

end MethodIR.Import
