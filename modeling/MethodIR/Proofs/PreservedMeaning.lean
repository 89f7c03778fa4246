import MethodIR.Proofs.LayoutHistories
import MethodIR.Proofs.PromotedWalks

/-!
# Promotion preserves meaning

The executions of a body and of what has become of it by promotion, step by step: phis are placed that
nothing uses yet, the accesses are renamed, phis that nothing uses are removed.
-/

namespace MethodIR

open List FlowGraph DepthFirst DominatorTree Execution Body

variable {bs : List BlockId}

/-- How variables are accessed: nothing uses the result of a store, a load has the type of its variable,
and what is stored has the stack type of the variable. -/
structure Body.TypedAccesses (x : Body) : Prop where
  unused : x.NoStoreOperands
  loads : ∀ b ∈ x.order, ∀ i ∈ x.instsOf b, ∀ v, x.kind i = .loadVar v → (x.inst i).ty = (x.var v).ty
  stores : ∀ b ∈ x.order, ∀ i ∈ x.instsOf b, ∀ v, x.kind i = .storeVar v →
    ∀ u ∈ (x.inst i).operands, (x.valueTy u).stackClass = (x.var v).ty.stackClass

/-- Whether an instruction accesses variables as it should. -/
def Body.accessTyped (x : Body) (i : InstId) : Bool := ((x.inst i).operands.all fun
    | .inst d => match x.kind d with
      | .storeVar _ => false
      | _ => true
    | _ => true) &&
  match x.kind i with
  | .loadVar v => (x.inst i).ty = (x.var v).ty
  | .storeVar v => (x.inst i).operands.all fun u => (x.valueTy u).stackClass = (x.var v).ty.stackClass
  | _ => true

section

variable {x : Body} {i : InstId} {v : VarId}

lemma Body.ty_of_accessTyped (h : x.accessTyped i) (hk : x.kind i = .loadVar v) : (x.inst i).ty = (x.var v).ty := by
  rw [accessTyped, Bool.and_eq_true, hk] at h
  simpa using h.2

lemma Body.stackClass_of_accessTyped (h : x.accessTyped i) (hk : x.kind i = .storeVar v) :
    ∀ u ∈ (x.inst i).operands, (x.valueTy u).stackClass = (x.var v).ty.stackClass := by
  rw [accessTyped, Bool.and_eq_true, hk] at h
  simpa using h.2

lemma Body.typedAccesses_of_all (h : (x.order.all fun b => (x.instsOf b).all x.accessTyped) = true) :
    x.TypedAccesses := by
  have hall : ∀ b ∈ x.order, ∀ i ∈ x.instsOf b, x.accessTyped i = true := by
    simpa [all_eq_true] using h
  refine ⟨fun b hb i hi d hd v hk => ?_, fun b hb i hi v => ty_of_accessTyped (hall b hb i hi),
    fun b hb i hi v => stackClass_of_accessTyped (hall b hb i hi)⟩
  have hcheck := hall b hb i hi
  rw [accessTyped, Bool.and_eq_true, all_eq_true] at hcheck
  simpa [hk] using hcheck.1 _ hd

end

lemma FlowGraph.Reachable.of_walk {x : Body} {entry p : BlockId}
    (hp : Reachable (Edge x.succs) entry p) (hbs : (p :: bs).IsChain fun a b => b ∈ x.succs a) :
    ∀ b ∈ p :: bs, Reachable (Edge x.succs) entry b := by
  induction bs generalizing p with
  | nil =>
    intro b hb
    rwa [mem_singleton.1 hb]
  | cons c bs ih =>
    rw [isChain_cons_cons] at hbs
    intro b hb
    rcases mem_cons.1 hb with rfl | hb
    · exact hp
    · exact ih (hp.snoc hbs.1) hbs.2 b hb

namespace Promotion

variable {D : Type} {I : Interpretation D} {x x₁ y z : Body} {entry b : BlockId}
  {plan : RenamingPlan} {out : BlockId → Values} {others : List BlockId} {r : Record}
  {dead : List InstId} {i : InstId}

section Steps

variable {values : InstId → D}

variable (hx : x.Arranged) (hv : x.Verified entry) (P : Promoted x entry plan x₁ out others r y dead z)

include hx hv P

lemma Promoted.thinned_placed : Thinned x₁ (!x.hasInst ·) x where
  graph := P.placed.graph.symm
  list b := by
    obtain ⟨new, hphis, hnew⟩ := P.placed.phis b
    have hold : ∀ i ∈ x.instsOf b, x.hasInst i := fun i hi => hx.attached.hasInst hi
    rw [← phis_append_nonPhis] at hold
    have hnew' : ∀ i ∈ new, x.hasInst i = false := fun i hi => by
      simpa [hasInst] using hnew i hi
    rw [← phis_append_nonPhis, ← phis_append_nonPhis, hphis, P.placed.nonPhis]
    have hnil : new.filter (x.hasInst ·) = [] := filter_eq_nil_iff.2 fun i hi => by
      simp [hnew' i hi]
    simp only [Bool.not_not, filter_append, hnil, append_nil]
    rw [← filter_append, filter_eq_self.2 hold]
  kept i hi := (P.placed.old i (by simpa using hi)).symm
  phis b i hi hdropped := by
    have hin := P.placed.attached.hasInst hi
    cases hφ : plan.phis.lookup i with
    | none => simp [(P.placed.lookup_eq_none_iff hin).1 hφ] at hdropped
    | some v =>
      obtain ⟨c, -, hbare⟩ := (P.planned hx hv).phi i v hφ
      rw [kind_of_bare hbare]
      rfl
  closed i hi d hd := by
    have hin : x.hasInst i := by simpa using hi
    rw [P.placed.operands_eq hin] at hd
    have hvalue : x.hasInst d := hv.uses.hasValue hd
    simpa using hvalue

omit hx hv in
lemma Promoted.not_dead (hi : x.hasInst i) : i ∉ dead := fun hdead => by
  obtain ⟨v, hv⟩ := P.phis i hdead
  have hle := (P.placed.of_lookup hv).1
  have hlt : i.index < x.insts.size := by simpa [hasInst] using hi
  omega

omit hx hv in
lemma Promoted.thinned_dead : Thinned y (decide <| · ∈ dead) z where
  graph := P.stripped.graph
  list b := by simpa using P.stripped.list b
  kept i hi := P.closed i (by simpa using hi)
  phis b i _ hdead := by
    obtain ⟨v, hφ⟩ := P.phis i (by simpa using hdead)
    rw [kind_of_bare (P.toured.renames.phi i v hφ)]
    rfl
  closed i hi d hd := by
    have hi : i ∉ dead := by simpa using hi
    have hops : (y.inst i).operands = (y.inst i).operands.map (blank y dead) :=
      operands_of_bare ((P.closed i hi).symm.trans (P.stripped.kept i hi))
    simp only [decide_eq_false_iff_not]
    intro hdead
    rw [hops] at hd
    obtain ⟨u, -, hu⟩ := mem_map.1 hd
    exact blank_ne hdead hu

lemma Promoted.staged (haccesses : x.TypedAccesses) : Staged x₁ plan entry (IsGlobal x)
    (fun b => opening x₁ plan (inherited (ofEntry x entry).idom? out b) b) out r y := by
  have hplan := P.planned hx hv
  have hsuccs : x₁.succs = x.succs := funext P.placed.graph.succs
  have hlinked := linked_of_verified hx hv
  have hold : ∀ c, ∀ i ∈ x₁.nonPhis c, i ∈ x.instsOf c ∧ x.hasInst i := fun c i hi => by
    rw [P.placed.nonPhis] at hi
    have hmem := mem_of_mem_nonPhis hi
    exact ⟨hmem, hx.attached.hasInst hmem⟩
  refine ⟨hplan, P.toured.renames, fun b hb => ?_, fun b hb => ?_, fun b v φ hφ => ?_,
    fun b v hφ => ?_, fun v => ?_, fun p b v hp hedge hglobal hφ => ?_,
    fun b pre i post v hb hsplit hk hprom hno => ?_, fun b pre i post d hb hsplit hd => ?_,
    fun p b φ hp hedge hφ hknown => ?_, fun p b φ v hp hedge hφ => ?_, fun b hb i hi v hk => ?_,
    fun b hb i hi v hk u hu => ?_⟩
  all_goals rw [hsuccs] at *
  · rw [P.placed.graph.order]
    exact mem_order_of_reachable hx hv hb
  · rw [P.placed.nonPhis]
    exact P.renamed hx hv hb
  · simp [opening, hφ]
  · cases hd : (ofEntry x entry).idom? b with
    | none => exact .inl (by simp [opening, hφ, inherited, hd])
    | some d =>
      refine .inr ⟨d, ?_, by simp [opening, hφ, inherited, hd]⟩
      exact ((idom?_eq_some_iff hlinked).1 hd).1
  · exact (P.placedPhi?_eq_none hx hv).2 fun hmem => (of_mem_places hv hmem).2.2 rfl
  · rw [← P.inherited_eq_out hx hv hp hedge hglobal ((P.placedPhi?_eq_none hx hv).1 hφ)]
    simp [opening, hφ]
  · rw [P.accesses, Accesses.isPromotable_ofBody] at hprom
    have hi := hold b i (by simp [hsplit])
    rw [P.placed.kind_eq hi.2] at hk
    refine isGlobal_of_load (mem_order_of_reachable hx hv hb) (P.placed.nonPhis b ▸ hsplit) hk hprom fun j hj => ?_
    rw [← P.placed.kind_eq (hold b j (by simp [hsplit, hj])).2]
    exact hno j hj
  · exact P.seen hx hv haccesses.unused hb hsplit hd
  · exact P.exists_incoming hx hv haccesses.unused hp hedge hφ hknown
  · obtain ⟨hlookup, hblock⟩ := (placedPhi?_eq_some_iff hplan).1 hφ
    exact P.incoming?_of_placed hx hv hlookup hblock hp hedge
  · obtain ⟨hmem, hin⟩ := hold b i hi
    rw [P.placed.kind_eq hin] at hk
    rw [ty_of_bare (P.placed.old i hin), P.placed.graph.var]
    exact haccesses.loads b (mem_order_of_reachable hx hv hb) i hmem v hk
  · obtain ⟨hmem, hin⟩ := hold b i hi
    rw [P.placed.kind_eq hin] at hk
    have hclosed := (P.thinned_placed hx hv).closed i (by simp [hin])
    rw [← (P.thinned_placed hx hv).valueTy_eq fun d hd => hclosed d (hd ▸ hu), P.placed.graph.var]
    rw [P.placed.operands_eq hin] at hu
    exact haccesses.stores b (mem_order_of_reachable hx hv hb) i hmem v hk u hu

lemma Promoted.isRemoved_iff (hb : Reachable (Edge x.succs) entry b) (hi : i ∈ x.instsOf b) :
    (z.inst i).isRemoved = plan.accesses.concerns (x.kind i) := by
  have horder := mem_order_of_reachable hx hv hb
  have hin := hx.attached.hasInst hi
  have hin₁ : x₁.hasInst i := hasInst_of_le (by simp [P.placed.size]) hin
  have hz : (z.inst i).isRemoved = (y.inst i).isRemoved := by
    rw [isRemoved_of_bare (P.closed i (P.not_dead hin))]
    rfl
  have hkind := P.placed.kind_eq hin
  rw [hz]
  cases hacc : plan.accesses.concerns (x.kind i) with
  | true =>
    have hmem : i ∈ x₁.nonPhis b := by
      rw [P.placed.nonPhis]
      exact mem_nonPhis hi (plan.accesses.isPhi_of_concerns hacc)
    have hgone := P.toured.gone (P.planned hx hv).toHeaded (.inl ((mem_preorder_of_verified hx hv).2 hb)) hmem
      (hkind ▸ hacc)
    exact isRemoved_of_bare (P.toured.renames.lost i hgone).2.2
  | false =>
    have hgone : ¬r.gone i := fun hg => by
      have hlost := (P.toured.renames.lost i hg).1
      simp [hkind, hacc] at hlost
    have hkept := P.toured.renames.kept i hin₁ hgone ((P.placed.lookup_eq_none_iff hin₁).2 hin)
    have hold : (x₁.inst i).isRemoved = (x.inst i).isRemoved := by
      rw [isRemoved_of_bare (P.placed.old i hin)]
      rfl
    rw [isRemoved_of_bare hkept]
    exact hold.trans (hv.listed b horder i hi).1

omit hx hv in
lemma Promoted.wasThere_eq (i : InstId) : wasThere x₁ plan i = (x.hasInst i && !decide (i ∈ dead)) := by
  cases hin : x.hasInst i with
  | true =>
    have hin₁ : x₁.hasInst i := hasInst_of_le (by simp [P.placed.size]) hin
    simp [wasThere, hin₁, (P.placed.lookup_eq_none_iff hin₁).2 hin, P.not_dead hin]
  | false =>
    cases hin₁ : x₁.hasInst i with
    | false => simp [wasThere, hin₁]
    | true =>
      have hnone : plan.phis.lookup i ≠ none := fun hnone => by
        simp [(P.placed.lookup_eq_none_iff hin₁).1 hnone] at hin
      simp [wasThere, hnone]

lemma Promoted.stays_eq (hb : Reachable (Edge x.succs) entry b) (hi : i ∈ x₁.instsOf b) :
    stays x₁ plan i = (!(z.inst i).isRemoved && x.hasInst i) := by
  have hin₁ := P.placed.attached.hasInst hi
  cases hin : x.hasInst i with
  | true =>
    have hmem : i ∈ x.instsOf b := by
      rw [(P.thinned_placed hx hv).list, mem_filter]
      exact ⟨hi, by simp [hin]⟩
    simp [stays, (P.placed.lookup_eq_none_iff hin₁).2 hin, P.placed.kind_eq hin, P.isRemoved_iff hx hv hb hmem]
  | false =>
    have hnone : plan.phis.lookup i ≠ none := fun hnone => by
      simp [(P.placed.lookup_eq_none_iff hin₁).1 hnone] at hin
    simp [stays, hnone]

lemma Promoted.keepsStored (hkeep : ∀ es ∈ trace I x none { values } bs, ∀ e ∈ es, KeepsStored I x e) :
    ∀ es ∈ trace I x₁ none { values } bs, ∀ e ∈ es, KeepsStored I x₁ e := by
  intro es hes e he v hk q hq
  obtain ⟨b, -, hmem⟩ := exists_block_of_mem_trace hes he
  have hthin := P.thinned_placed hx hv
  have hin : (!x.hasInst e.inst) = false := by
    refine Bool.eq_false_iff.2 fun hdropped => ?_
    have hphi := hthin.phis b e.inst hmem hdropped
    simp [hk, Kind.isPhi] at hphi
  have htrace : trace I x none { values } bs = _ := hthin.trace ⟨fun _ _ => rfl, rfl⟩ bs
  have hes' : es.filter (fun e => !!x.hasInst e.inst) ∈ trace I x none { values } bs := by
    rw [htrace]
    exact mem_map_of_mem hes
  have hkept := hkeep _ hes' e (mem_filter.2 ⟨he, by simp [hin]⟩) v (hthin.kind_eq hin ▸ hk) q
    (hthin.operands_eq hin ▸ hq)
  rwa [← hthin.valueTy_eq fun d hd => hthin.closed e.inst hin d (hd ▸ (of_mem_zip hq).1)]

lemma Promoted.trace_eq (haccesses : x.TypedAccesses) (hbs : (entry :: bs).IsChain fun a b => b ∈ x.succs a)
    (hkeep : ∀ es ∈ trace I x none { values } (entry :: bs), ∀ e ∈ es, KeepsStored I x e) :
    (trace I x none { values } (entry :: bs)).map (·.filter fun e => !(z.inst e.inst).isRemoved) =
      (trace I z none { values } (entry :: bs)).map (·.filter (x.hasInst ·.inst)) := by
  have hplaced : trace I x none { values } (entry :: bs) = _ :=
    (P.thinned_placed hx hv).trace ⟨fun _ _ => rfl, rfl⟩ (entry :: bs)
  have hdead : trace I z none { values } (entry :: bs) = _ :=
    P.thinned_dead.trace ⟨fun _ _ => rfl, rfl⟩ (entry :: bs)
  have hsuccs : x₁.succs = x.succs := funext P.placed.graph.succs
  have hstaged := (P.staged hx hv haccesses).trace_eq values (hsuccs ▸ hbs) (P.keepsStored hx hv hkeep)
  rw [hplaced, hdead, map_map, map_map]
  simp only [Function.comp_def, filter_filter]
  simp only [P.wasThere_eq] at hstaged
  rw [← hstaged]
  refine map_congr_left fun es hes => filter_congr fun e he => ?_
  obtain ⟨b, hb, hmem⟩ := exists_block_of_mem_trace hes he
  rw [P.stays_eq hx hv (Reachable.of_walk .refl hbs b hb) hmem, Bool.not_not]

end Steps

lemma concerns_ofBody_iff (hvars : ∀ k ∈ x.laidOutKinds, ∀ v, k.var? = some v → x.hasVar v)
    (hb : b ∈ x.order) (hi : i ∈ x.instsOf b) : (Accesses.ofBody x).concerns (x.kind i) ↔
      ∃ v, x.isPromotable v ∧ (x.kind i = .loadVar v ∨ x.kind i = .storeVar v) := by
  have hvar := hvars (x.kind i) (mem_laidOutKinds.2 ⟨b, hb, i, hi, rfl⟩)
  cases hk : x.kind i
  case loadVar v =>
    have hin := hvar v (by rw [hk]; rfl)
    simp [Accesses.concerns, Accesses.isPromotable_ofBody, hin]
  case storeVar v =>
    have hin := hvar v (by rw [hk]; rfl)
    simp [Accesses.concerns, Accesses.isPromotable_ofBody, hin]
  all_goals simp [Accesses.concerns]

/-- Promotion preserves meaning along every walk. The body is one that operations made, whose blocks are
all laid out and that the verifier accepts; its accesses are typed. Whatever instructions mean that are
no accesses, if on a walk from the entry conversions leave those stored values alone whose types do not
need them, then the instructions that promotion does not remove are evaluated on the same operands in
the promoted body, block by block and in the same order. What it removes are the accesses of the
variables that can be promoted, and the ways that control can take stay. -/
theorem run_preserves_operands {ops : List Op} {args : List Ty} {ret : Ty} {options : Options}
    {t t' : Trace Transform} {changes : Invalidations} {bs : List BlockId}
    (hops : Op.afterAll? ops (Body.empty args ret) = some x) (hrow : x.InRow)
    (hverify : x.verify = .ok ()) (haccesses : x.TypedAccesses) (hbody : t.state.body = x)
    (hfresh : t.state.analyses.Fresh x) (hrun : run options t = .ok changes t')
    (hentry : x.entry = some entry) (hbs : (entry :: bs).IsChain fun a b => b ∈ x.succs a)
    (I : Interpretation D) (values : InstId → D)
    (hkeep : ∀ es ∈ trace I x none { values } (entry :: bs), ∀ e ∈ es, KeepsStored I x e) :
    let z := t'.state.body
    (trace I x none { values } (entry :: bs)).map (·.filter fun e => !(z.inst e.inst).isRemoved) =
        (trace I z none { values } (entry :: bs)).map (·.filter fun e => x.hasInst e.inst) ∧
      (∀ b ∈ entry :: bs, ∀ i ∈ x.instsOf b, (z.inst i).isRemoved ↔
        ∃ v, x.isPromotable v ∧ (x.kind i = .loadVar v ∨ x.kind i = .storeVar v)) ∧
      ∀ b, z.succs b = x.succs b := by
  have hx := Op.arranged_of_inRow hops hrow
  obtain ⟨entry', hv⟩ := verify_eq_ok.1 hverify
  obtain rfl : entry' = entry := Option.some.inj (hv.entry_eq.symm.trans hentry)
  have hreach := Reachable.of_walk .refl hbs
  intro z
  rcases run_promoted hx hv haccesses.unused hbody hfresh hrun with
    ⟨hvars, hnone, hz⟩ | ⟨plan, x₁, out, others, r, y, dead, P⟩
  · -- there is nothing to promote
    obtain rfl : z = x := hz
    have hkept : ∀ b ∈ entry' :: bs, ∀ i ∈ z.instsOf b, (z.inst i).isRemoved = false := fun b hb i hi =>
      (hv.listed b (mem_order_of_reachable hx hv (hreach b hb)) i hi).1
    refine ⟨map_congr_left fun es hes => filter_congr fun e he => ?_, fun b hb i hi => ?_, fun _ => rfl⟩
    · obtain ⟨b, hb, hmem⟩ := exists_block_of_mem_trace hes he
      simp [hkept b hb e.inst hmem, hx.attached.hasInst hmem]
    · have horder := mem_order_of_reachable hx hv (hreach b hb)
      rw [hkept b hb i hi, ← concerns_ofBody_iff hvars horder hi]
      refine ⟨by simp, fun hacc => absurd ?_ hnone⟩
      exact any_eq_true.2 ⟨_, mem_laidOutKinds.2 ⟨b, horder, i, hi, rfl⟩, hacc⟩
  · refine ⟨P.trace_eq hx hv haccesses hbs hkeep, fun b hb i hi => ?_, fun b => ?_⟩
    · rw [P.isRemoved_iff hx hv (hreach b hb) hi, P.accesses]
      exact concerns_ofBody_iff P.vars (mem_order_of_reachable hx hv (hreach b hb)) hi
    · rw [P.stripped.graph.succs, P.toured.renames.graph.succs, P.placed.graph.succs]

/-- Two variables get the same sums in a loop, one of them cut down to a byte. -/
def loopSteps : List Op :=
  [.createVar .i32 (.local 0), .createVar (.prim .i8) (.local 1), .createBlock none, .createBlock none,
    .createBlock none, .createBlock none,
    .createInst (.storeVar ⟨0⟩) [.const (.i32 0)] .void, .insertLast ⟨0⟩ ⟨0⟩,
    .createInst (.storeVar ⟨1⟩) [.const (.i32 0)] .void, .insertLast ⟨0⟩ ⟨1⟩, .setJump ⟨0⟩ ⟨1⟩,
    .createInst (.loadVar ⟨0⟩) [] .i32, .insertLast ⟨1⟩ ⟨3⟩,
    .createInst (.branch ⟨2⟩ ⟨3⟩) [.inst ⟨3⟩] .void, .setTerminator ⟨1⟩ ⟨4⟩,
    .createInst (.loadVar ⟨0⟩) [] .i32, .insertLast ⟨2⟩ ⟨5⟩,
    .createInst (.binary .add) [.inst ⟨5⟩, .const (.i32 300)] .i32, .insertLast ⟨2⟩ ⟨6⟩,
    .createInst (.storeVar ⟨0⟩) [.inst ⟨6⟩] .void, .insertLast ⟨2⟩ ⟨7⟩,
    .createInst (.storeVar ⟨1⟩) [.inst ⟨6⟩] .void, .insertLast ⟨2⟩ ⟨8⟩, .setJump ⟨2⟩ ⟨1⟩,
    .createInst (.loadVar ⟨1⟩) [] (.prim .i8), .insertLast ⟨3⟩ ⟨10⟩,
    .createInst .ret [.inst ⟨10⟩] .void, .setTerminator ⟨3⟩ ⟨11⟩]

def wrappingLoop : Body := (Op.placingAfterAll? loopSteps (empty [] .i32)).getD default

/-- Sums and conversions to bytes; other operations give nothing. -/
def arithmetic : Interpretation Int where
  const
    | .i32 n => n.toInt
    | _ => 0
  undef _ := -1
  arg _ := 0
  eval
    | .binary .add, _, [a, b] => a + b
    | .convert .., t, [a] => if t.narrows .i32 then a.bmod 256 else a
    | _, _, _ => 0

lemma keeps_arithmetic (d : Int) : Keeps arithmetic .i32 d := by
  intro t _ ht
  simp [convert, arithmetic, ht]

lemma keepsStored_arithmetic {x : Body} {origin : Option BlockId} {s : State Int}
    (h : (bs.all fun b => (x.instsOf b).all fun i => (x.kind i).var? = none ||
      (x.inst i).operands.all fun u => x.valueTy u = .i32) = true) :
    ∀ es ∈ trace arithmetic x origin s bs, ∀ e ∈ es, KeepsStored arithmetic x e := by
  intro es hes e he v hk q hq
  obtain ⟨b, hb, hi⟩ := exists_block_of_mem_trace hes he
  have hall : ∀ u ∈ (x.inst e.inst).operands, x.valueTy u = .i32 := by
    simp only [all_eq_true, Bool.or_eq_true, decide_eq_true_eq] at h
    refine (h b hb e.inst hi).resolve_left ?_
    simp [hk, Kind.var?]
  rw [hall q.1 (of_mem_zip hq).1]
  exact keeps_arithmetic q.2

theorem wrappingLoop_preserved : ∃ changes t', run {} ⟨{ body := wrappingLoop }, #[]⟩ = .ok changes t' ∧
    (trace arithmetic wrappingLoop none { values := fun _ => 7 }
        [⟨0⟩, ⟨1⟩, ⟨2⟩, ⟨1⟩, ⟨3⟩]).map (·.filter fun e => !(t'.state.body.inst e.inst).isRemoved) =
      (trace arithmetic t'.state.body none { values := fun _ => 7 }
        [⟨0⟩, ⟨1⟩, ⟨2⟩, ⟨1⟩, ⟨3⟩]).map (·.filter fun e => wrappingLoop.hasInst e.inst) ∧
    (trace arithmetic t'.state.body none { values := fun _ => 7 }
        [⟨0⟩, ⟨1⟩, ⟨2⟩, ⟨1⟩, ⟨3⟩]).map (·.filter fun e => wrappingLoop.hasInst e.inst) =
      [[⟨⟨2⟩, []⟩], [⟨⟨4⟩, [0]⟩], [⟨⟨6⟩, [0, 300]⟩, ⟨⟨9⟩, []⟩], [⟨⟨4⟩, [300]⟩], [⟨⟨11⟩, [44]⟩]] := by
  have hplacing : Op.placingAfterAll? loopSteps (empty [] .i32) = some wrappingLoop := eq_some_getD (by decide)
  have hrow := (Op.laid_of_placing (tidy_empty [] .i32).laid hplacing).inRow
  have hverify : wrappingLoop.verify = .ok () := by cbv
  have haccesses : wrappingLoop.TypedAccesses := typedAccesses_of_all (by cbv)
  have hentry : wrappingLoop.entry = some ⟨0⟩ := by cbv
  have hwalk : [(⟨0⟩ : BlockId), ⟨1⟩, ⟨2⟩, ⟨1⟩, ⟨3⟩].IsChain fun a b => b ∈ wrappingLoop.succs a := by
    decide
  have hwide : ([⟨0⟩, ⟨1⟩, ⟨2⟩, ⟨1⟩, ⟨3⟩].all fun b => (wrappingLoop.instsOf b).all fun i =>
      (wrappingLoop.kind i).var? = none ||
        (wrappingLoop.inst i).operands.all fun u => wrappingLoop.valueTy u = .i32) = true := by cbv
  have hdone : (traceOf? {} wrappingLoop).any fun t =>
      decide ((trace arithmetic t.state.body none { values := fun _ => 7 }
          [⟨0⟩, ⟨1⟩, ⟨2⟩, ⟨1⟩, ⟨3⟩]).map (·.filter fun e => wrappingLoop.hasInst e.inst) =
        [[⟨⟨2⟩, []⟩], [⟨⟨4⟩, [0]⟩], [⟨⟨6⟩, [0, 300]⟩, ⟨⟨9⟩, []⟩], [⟨⟨4⟩, [300]⟩], [⟨⟨11⟩, [44]⟩]]) := by cbv
  obtain ⟨changes, t', hrun, htrace⟩ := exists_of_traceOf? hdone
  have hpreserved := run_preserves_operands (Op.afterAll_of_placing hplacing) hrow hverify haccesses
    rfl Analyses.fresh_empty hrun hentry hwalk arithmetic (fun _ => 7) (keepsStored_arithmetic hwide)
  exact ⟨changes, t', hrun, hpreserved.1, of_decide_eq_true htrace⟩

/-- A block made after a removed one gets outside the layout; it stores to the variable that the block
after it returns. -/
def strayStoreSteps : List Op :=
  [.createVar .i32 (.local 0), .createBlock none, .createBlock none, .createBlock none,
    .removeBlock ⟨2⟩, .createBlock (some ⟨2⟩), .setJump ⟨0⟩ ⟨3⟩,
    .createInst (.storeVar ⟨0⟩) [.const (.i32 5)] .void, .insertLast ⟨3⟩ ⟨1⟩, .setJump ⟨3⟩ ⟨1⟩,
    .createInst (.loadVar ⟨0⟩) [] .i32, .insertLast ⟨1⟩ ⟨3⟩,
    .createInst .ret [.inst ⟨3⟩] .void, .setTerminator ⟨1⟩ ⟨4⟩]

def strayStore : Body := (Op.afterAll? strayStoreSteps (empty [] .i32)).getD default

/-- Outside the layout nothing is renamed: the return gets an undefined value instead of the one stored
in the block before it. -/
theorem strayStore_not_preserved : Op.afterAll? strayStoreSteps (Body.empty [] .i32) = some strayStore ∧
      strayStore.verify = .ok () ∧ strayStore.TypedAccesses ∧ strayStore.entry = some ⟨0⟩ ∧
      ([⟨0⟩, ⟨3⟩, ⟨1⟩].all fun b => (strayStore.instsOf b).all strayStore.accessTyped) = true ∧
      [(⟨0⟩ : BlockId), ⟨3⟩, ⟨1⟩].IsChain (fun a b => b ∈ strayStore.succs a) ∧
      (∀ es ∈ trace arithmetic strayStore none { values := fun _ => 7 } [⟨0⟩, ⟨3⟩, ⟨1⟩], ∀ e ∈ es,
        KeepsStored arithmetic strayStore e) ∧
      ∃ changes t', run {} ⟨{ body := strayStore }, #[]⟩ = .ok changes t' ∧
        (t'.state.body.inst ⟨4⟩).isRemoved = false ∧
        ⟨⟨4⟩, [5]⟩ ∈ (trace arithmetic strayStore none { values := fun _ => 7 } [⟨0⟩, ⟨3⟩, ⟨1⟩]).flatten ∧
        (trace arithmetic t'.state.body none { values := fun _ => 7 } [⟨0⟩, ⟨3⟩, ⟨1⟩]).flatten =
          [⟨⟨0⟩, []⟩, ⟨⟨1⟩, [5]⟩, ⟨⟨2⟩, []⟩, ⟨⟨4⟩, [-1]⟩] := by
  have hops : Op.afterAll? strayStoreSteps (empty [] .i32) = some strayStore := eq_some_getD (by decide)
  have hwide : ([⟨0⟩, ⟨3⟩, ⟨1⟩].all fun b => (strayStore.instsOf b).all fun i =>
      (strayStore.kind i).var? = none ||
        (strayStore.inst i).operands.all fun u => strayStore.valueTy u = .i32) = true := by cbv
  have hdone : (traceOf? {} strayStore).any fun t => decide ((t.state.body.inst ⟨4⟩).isRemoved = false ∧
      (trace arithmetic t.state.body none { values := fun _ => 7 } [⟨0⟩, ⟨3⟩, ⟨1⟩]).flatten =
        [⟨⟨0⟩, []⟩, ⟨⟨1⟩, [5]⟩, ⟨⟨2⟩, []⟩, ⟨⟨4⟩, [-1]⟩]) := by cbv
  obtain ⟨changes, t', hrun, hleft⟩ := exists_of_traceOf? hdone
  obtain ⟨hkept, htrace⟩ := of_decide_eq_true hleft
  refine ⟨hops, by cbv, typedAccesses_of_all (by cbv), by cbv, by cbv, by decide,
    keepsStored_arithmetic hwide, changes, t', hrun, hkept, by decide, htrace⟩

end Promotion

end MethodIR
