import MethodIR.Proofs.FencedSegments
import MethodIR.Promotion.Accesses

/-!
# What instructions use

What an instruction of an imported body uses stands before it, or is the value of the guard that the
segment finds on the stack (`Sourced`). `Ground` collects all that is kept while segments are lowered.
-/

namespace MethodIR.Import

open List Success Traced Body State

variable {m : Bytecode} {leaders : List Nat} {own : BlockId → Option Nat} {free : Nat → Prop}
  {rest n : Nat} {s s' : State} {i d : InstId} {b : BlockId} {kind : Kind} {vs : List Value} {ty : Ty}
  {v : Value}

def State.Seeds (s : State) (b : BlockId) (d : InstId) : Prop :=
  ∃ n, n < s.segments.size ∧ (s.segment n).block = b ∧ (s.segment n).entryStack = some [.value (.inst d)]

/-- What instructions use is there, and is a result. -/
structure Sourced (s : State) : Prop where
  phis : ∀ i, (s.body.kind i).isPhi = false
  results : ∀ i d v, .inst d ∈ (s.body.inst i).operands → s.body.kind d ≠ .storeVar v
  vars : ∀ i v, (s.body.kind i).var? = some v → s.body.hasVar v
  sources : ∀ b, ∀ i ∈ s.body.instsOf b, ∀ d, .inst d ∈ (s.body.inst i).operands →
    [d, i].Sublist (s.body.instsOf b) ∨ s.Seeds b d
  frame : ∀ slot v, s.frameVar? slot = some v → s.body.hasVar v

lemma State.Seeds.mono (h : s.Seeds b d) (hsegments : SegmentsGrow s s') : s'.Seeds b d := by
  obtain ⟨n, hn, hb, hd⟩ := h
  exact ⟨n, hsegments.size ▸ hn, (hsegments.same n).2.2.1.trans hb, hsegments.expects n _ hd⟩

lemma Sourced.congr (h : Sourced s) (hsegments : SegmentsGrow s s') (hinsts : s'.body.insts = s.body.insts)
    (hblocks : s'.body.blocks = s.body.blocks) (hvars : ∀ v, s.body.hasVar v → s'.body.hasVar v)
    (hargs : s'.argVars = s.argVars) (hlocals : s'.localVars = s.localVars) : Sourced s' := by
  have hinst : ∀ i, s'.body.inst i = s.body.inst i := fun i => by rw [inst, hinsts, inst]
  have hkind : ∀ i, s'.body.kind i = s.body.kind i := fun i => by rw [kind, hinst, kind]
  refine ⟨fun i => ?_, fun i d v hd => ?_, fun i v hv => ?_, fun b i hi d hd => ?_, fun slot v hv => ?_⟩
  · rw [hkind]
    exact h.phis i
  · rw [hinst] at hd
    rw [hkind]
    exact h.results i d v hd
  · rw [hkind] at hv
    exact hvars v (h.vars i v hv)
  · have hl : s'.body.instsOf b = s.body.instsOf b := by
      rw [instsOf, block, hblocks, instsOf, block]
    rw [hl] at hi ⊢
    rw [hinst] at hd
    exact (h.sources b i hi d hd).imp_right fun hs => hs.mono hsegments
  · refine hvars v (h.frame slot v ?_)
    rwa [← frameVar?_congr hargs hlocals]

section Create

variable (hsegments : s'.segments = s.segments) (hargs : s'.argVars = s.argVars)
  (hlocals : s'.localVars = s.localVars)

include hsegments hargs hlocals

lemma Sourced.addInst (h : Sourced s) (hbody : s'.body = s.body.addInst kind vs ty)
    (hplaces : s.body.Attached) (huses : s.body.ExactUses) (hphi : kind.isPhi = false)
    (hvs : ∀ d, .inst d ∈ vs → s.body.hasInst d ∧ ∀ v, s.body.kind d ≠ .storeVar v)
    (hvar : ∀ v, kind.var? = some v → s.body.hasVar v) : Sourced s' := by
  have hgraph : SameGraph s.body s'.body := hbody ▸ sameGraph_addInst kind vs ty
  have hkind : ∀ i, s'.body.kind i = if i.index = s.body.insts.size then kind else s.body.kind i :=
    fun i => by rw [hbody, kind_addInst]
  have hops : ∀ i, (s'.body.inst i).operands =
      if i.index = s.body.insts.size then vs else (s.body.inst i).operands :=
    fun i => by rw [hbody, operands_addInst]
  have hold : ∀ d, s.body.hasInst d → s'.body.kind d = s.body.kind d := fun d hd => by
    rw [hkind, if_neg]
    intro heq
    simp [hasInst, heq] at hd
  refine ⟨fun i => ?_, fun i d v hd => ?_, fun i v hv => ?_, fun b i hi d hd => ?_, fun slot v hv => ?_⟩
  · rw [hkind]
    split
    · exact hphi
    · exact h.phis i
  · rw [hops] at hd
    split at hd
    · obtain ⟨hin, hresult⟩ := hvs d hd
      rw [hold d hin]
      exact hresult v
    · rw [hold d (huses.hasValue hd)]
      exact h.results i d v hd
  · rw [hgraph.hasVar]
    rw [hkind] at hv
    split at hv
    · exact hvar v hv
    · exact h.vars i v hv
  · have hl : s'.body.instsOf b = s.body.instsOf b := by rw [hbody, instsOf_addInst]
    rw [hl] at hi ⊢
    have hin := hplaces.hasInst hi
    rw [hops, if_neg fun heq => by simp [hasInst, heq] at hin] at hd
    exact (h.sources b i hi d hd).imp_right fun hs => hs.mono (.of_eq hsegments)
  · rw [hgraph.hasVar]
    refine h.frame slot v ?_
    rwa [← frameVar?_congr hargs hlocals]

lemma Sourced.attach (h : Sourced s) {pre post : List InstId} (hb : s.body.hasBlock b)
    (hlist : pre ++ post = s.body.instsOf b) (hbody : s'.body = s.body.attach i b (pre ++ i :: post))
    (hsources : ∀ d, .inst d ∈ (s.body.inst i).operands → d ∈ pre ∨ s.Seeds b d) : Sourced s' := by
  have hkind : ∀ j, s'.body.kind j = s.body.kind j := fun j => by rw [hbody, kind_attach]
  have hops : ∀ j, (s'.body.inst j).operands = (s.body.inst j).operands := fun j => by
    rw [hbody, inst_attach]
    split <;> rfl
  have hvars : ∀ v, s'.body.hasVar v = s.body.hasVar v := fun v => by
    rw [hbody, attach_eq]
    rfl
  have hinsts : ∀ c, s'.body.instsOf c = if c = b then pre ++ i :: post else s.body.instsOf c := fun c => by
    rw [hbody, instsOf_attach _ hb]
  have hseeds : ∀ {c d}, s.Seeds c d → s'.Seeds c d := fun hs => hs.mono (.of_eq hsegments)
  refine ⟨fun j => ?_, fun j d v hd => ?_, fun j v hv => ?_, fun c j hj d hd => ?_, fun slot v hv => ?_⟩
  · rw [hkind]
    exact h.phis j
  · rw [hops] at hd
    rw [hkind]
    exact h.results j d v hd
  · rw [hkind] at hv
    rw [hvars]
    exact h.vars j v hv
  · rw [hops] at hd
    rw [hinsts] at hj ⊢
    split at hj
    · next hc =>
      rw [if_pos hc, hc]
      have hsub : (pre ++ post).Sublist (pre ++ i :: post) := by simp
      by_cases hji : j = i
      · subst hji
        refine (hsources d hd).imp (fun hmem => ?_) hseeds
        obtain ⟨l₁, l₂, rfl⟩ := append_of_mem hmem
        simp
      · have hj' : j ∈ s.body.instsOf b := by
          rw [← hlist]
          simpa [hji] using hj
        refine (h.sources b j hj' d hd).imp (fun hold => ?_) hseeds
        rw [← hlist] at hold
        exact hold.trans hsub
    · next hc =>
      rw [if_neg hc]
      exact (h.sources c j hj d hd).imp_right hseeds
  · rw [hvars]
    refine h.frame slot v ?_
    rwa [← frameVar?_congr hargs hlocals]

end Create

/-! ## All that is kept -/

/-- What is fixed when lowering starts: the method with its leaders, the segment of each block, and the
segments that terminators may enter. -/
structure Outline where
  m : Bytecode
  leaders : List Nat
  own : BlockId → Option Nat
  free : Nat → Prop

variable {c : Outline}

/-- The state while the segments from `rest` on are still to be lowered. -/
structure Ground (c : Outline) (rest : Nat) (s : State) : Prop where
  intact : s.body.Intact
  parted : Parted c.m c.leaders c.own s
  guarded : Guarded c.leaders c.own c.free s
  linked : Linked c.leaders c.own s
  exits : ∀ n, n < rest → n < s.segments.size → Exited c.m s n
  stacked : Stacked s
  free_iff : ∀ n, n < s.segments.size → (c.free n ↔ ∀ d, (s.segment n).entryStack ≠ some [.value (.inst d)])
  ending : Ending rest s
  sourced : Sourced s
  regions : s.guards.map Prod.snd = c.m.regions.reverse

structure SameSetting (s s' : State) : Prop where
  segments : s'.segments = s.segments
  guards : s'.guards = s.guards
  argVars : s'.argVars = s.argVars
  localVars : s'.localVars = s.localVars

lemma Ground.congr (h : Ground c rest s) (hsegments : SegmentsGrow s s') (hguards : s'.guards = s.guards)
    (hargs : s'.argVars = s.argVars) (hlocals : s'.localVars = s.localVars)
    (hinsts : s'.body.insts = s.body.insts) (hblocks : s'.body.blocks = s.body.blocks)
    (hentry : s'.body.entry = s.body.entry) (hvars : ∀ v, s.body.hasVar v → s'.body.hasVar v)
    (hintact : s'.body.Intact)
    (hstacks : ∀ n slots, (s'.segment n).entryStack = some slots → (s.segment n).entryStack = some slots ∨
      ∃ vars : List VarId, slots = vars.map .var ∧ ∀ v ∈ vars, s'.body.hasVar v) : Ground c rest s' := by
  have hinst : ∀ i, s'.body.inst i = s.body.inst i := fun i => by rw [inst, hinsts, inst]
  have hkind : ∀ i, s'.body.kind i = s.body.kind i := fun i => by rw [kind, hinst, kind]
  have hblock : ∀ b, s'.body.hasBlock b = s.body.hasBlock b := fun b => by rw [hasBlock, hblocks, hasBlock]
  have hl : ∀ b, s'.body.instsOf b = s.body.instsOf b := fun b => by
    rw [instsOf, block, hblocks, instsOf, block]
  have hstays : s.body.Stays s'.body := fun i a hi => ⟨hinst i ▸ hi, hkind i⟩
  refine ⟨hintact, h.parted.congr hsegments.toSameSegments (fun b hb => (hblock b).trans hb) hentry,
    h.guarded.congr hsegments.toSameSegments hguards (fun i a hi => ?_) (fun i a hi => ?_),
    h.linked.stays hsegments.toSameSegments hstays hblock (by rw [hguards]; exact Subset.refl _)
      (fun x hx => .inl (hguards ▸ hx)) fun i a hi _ => .inl (hinst i ▸ hi),
    fun n hn hn' => (h.exits n hn (hsegments.size ▸ hn')).stays hsegments.toSameSegments hstays,
    h.stacked.mono hsegments.toSameSegments hguards hvars hstacks, fun n hn => ?_,
    h.ending.congr hsegments.toSameSegments hl (fun b i _ => by rw [hkind]) fun b hb => ?_,
    h.sourced.congr hsegments hinsts hblocks hvars hargs hlocals, by rw [hguards, h.regions]⟩
  · rw [hinst] at hi
    exact ⟨hi, hkind i⟩
  · rw [hinst]
    exact ⟨hi, hkind i⟩
  · rw [h.free_iff n (hsegments.size ▸ hn)]
    constructor
    · intro hfree d hd
      rcases hstacks n _ hd with hold | ⟨vars, hslots, -⟩
      · exact hfree d hold
      · cases vars <;> simp at hslots
    · exact fun hfree d hd => hfree d (hsegments.expects n _ hd)
  · rw [hblock] at hb
    exact hb

lemma Ground.withSetting (h : Ground c rest s) (hsame : SameSetting s s') (hbody : s'.body = s.body) :
    Ground c rest s' := by
  refine h.congr (.of_eq hsame.segments) hsame.guards hsame.argVars hsame.localVars (by rw [hbody])
    (by rw [hbody]) (by rw [hbody]) (fun v hv => hbody ▸ hv) (hbody ▸ h.intact) fun n slots hn => .inl ?_
  rwa [State.segment, hsame.segments] at hn

lemma Ground.addInst (h : Ground c rest s) (hsame : SameSetting s s')
    (hbody : s'.body = s.body.addInst kind vs ty) (harity : Edit.arityViolation? kind vs.length = none)
    (hphi : kind.isPhi = false) (hknown : ∀ v ∈ vs, s.body.hasValue v)
    (hvs : ∀ d, .inst d ∈ vs → ∀ v, s.body.kind d ≠ .storeVar v)
    (hvar : ∀ v, kind.var? = some v → s.body.hasVar v) : Ground c rest s' := by
  have hplaces := h.intact.wired.attached
  have hsegments : SameSegments s s' := .of_eq hsame.segments
  have hsegment : ∀ n, s'.segment n = s.segment n := fun n => by rw [State.segment, hsame.segments, State.segment]
  have hgraph : SameGraph s.body s'.body := hbody ▸ sameGraph_addInst kind vs ty
  have hstays : s.body.Stays s'.body := hbody ▸ hplaces.stays_addInst kind vs ty
  refine ⟨hbody ▸ h.intact.addInst harity fun v hv => .inr (hknown v hv),
    h.parted.congr hsegments (fun b hb => (hgraph.hasBlock b).trans hb) hgraph.entry,
    h.guarded.addInst hsegments hbody hsame.guards hplaces,
    h.linked.stays hsegments hstays hgraph.hasBlock (by rw [hsame.guards]; exact Subset.refl _)
      (fun x hx => .inl (hsame.guards ▸ hx)) fun i a hi _ => .inl (hplaces.home_addInst_iff.1 (hbody ▸ hi)),
    fun n hn hn' => (h.exits n hn (hsegments.size ▸ hn')).stays hsegments hstays,
    h.stacked.mono hsegments hsame.guards (fun v hv => (hgraph.hasVar v).trans hv)
      fun n slots hn => .inl (hsegment n ▸ hn), fun n hn => hsegment n ▸ h.free_iff n (hsegments.size ▸ hn),
    h.ending.addInst hsegments hbody hplaces, h.sourced.addInst hsame.segments hsame.argVars hsame.localVars hbody
      hplaces h.intact.uses hphi (fun d hd => ⟨hknown _ hd, hvs d hd⟩) hvar, by rw [hsame.guards, h.regions]⟩

section Attach

variable {pre post : List InstId}

lemma Ground.attached (h : Ground c rest s) (hsame : SameSetting s s') (hcan : s.body.CanAttach i b)
    (hlist : pre ++ post = s.body.instsOf b) (hbody : s'.body = s.body.attach i b (pre ++ i :: post))
    (hedges : ∀ t ∈ (s.body.kind i).successors,
      ∃ n, c.own t = some n ∧ (n = 0 → 0 ∈ c.leaders) ∧ Enters c.own c.free s i b n)
    (hguard : (s.body.kind i).isGuard = false)
    (hsources : ∀ d, .inst d ∈ (s.body.inst i).operands → d ∈ pre ∨ s.Seeds b d) {rest' : Nat}
    (hending : Ending rest' s') (hexits : ∀ n, rest ≤ n → n < rest' → Exited c.m s' n) : Ground c rest' s' := by
  have hsegments : SameSegments s s' := .of_eq hsame.segments
  have hsegment : ∀ n, s'.segment n = s.segment n := fun n => by rw [State.segment, hsame.segments, State.segment]
  have hvars : ∀ v, s'.body.hasVar v = s.body.hasVar v := fun v => by
    rw [hbody, attach_eq]
    rfl
  have hsubset : s.guards ⊆ s'.guards := by
    rw [hsame.guards]
    exact Subset.refl _
  have hblocks : ∀ t, s'.body.hasBlock t = s.body.hasBlock t := fun t => by
    rw [hbody, hasBlock, size_blocks_attach, hasBlock]
  have hstays : s.body.Stays s'.body := hbody ▸ stays_attach hcan.1 hcan.2.2.1 _
  refine ⟨?_, h.parted.congr hsegments (fun b hb => (hblocks b).trans hb) ?_,
    h.guarded.attach hsegments hcan.1 hbody hsubset (fun x hx => .inl (hsame.guards ▸ hx)) fun t ht => ?_,
    h.linked.stays hsegments hstays hblocks hsubset (fun x hx => .inl (hsame.guards ▸ hx)) fun j a hj hj' => .inl ?_,
    fun n hn hn' => ?_, h.stacked.mono hsegments hsame.guards (fun v hv => (hvars v).trans hv)
      fun n slots hn => .inl (hsegment n ▸ hn), fun n hn => hsegment n ▸ h.free_iff n (hsegments.size ▸ hn), hending,
    h.sourced.attach hsame.segments hsame.argVars hsame.localVars hcan.2.2.2.1 hlist hbody hsources,
    by rw [hsame.guards, h.regions]⟩
  · rw [hbody]
    refine h.intact.attach hcan ?_
    rw [← hlist]
    exact perm_middle
  · rw [hbody, attach_eq]
  · obtain ⟨n, hn, hzero, henters⟩ := hedges t ht
    exact ⟨n, hn, hzero, henters.mono rfl hsubset (hsegments.same n).1⟩
  · rw [hbody, kind_attach] at hj'
    rw [hbody, home_attach hcan.1] at hj
    split at hj
    · next hij => simp [← hij, hguard] at hj'
    · exact hj
  · rcases Nat.lt_or_ge n rest with hlt | hge
    · exact (h.exits n hlt (hsegments.size ▸ hn')).stays hsegments hstays
    · exact hexits n hge hn

end Attach

end MethodIR.Import
