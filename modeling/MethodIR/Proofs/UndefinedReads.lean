import MethodIR.Proofs.BlankReads
import MethodIR.Proofs.PreservedMeaning
import MethodIR.Proofs.PromotionEffect
import MethodIR.Proofs.IteratedFrontiers

/-!
# Reads of undefined variables

What a run of the pass says about undefined variables is exact (`Promotion.Diagnosed`): it reports a load
if and only if control can come to it but never through a store to its variable.
-/

namespace MethodIR

open List FlowGraph DominatorTree DepthFirst Success Traced Body Event

/-! ## What reports no undefined variable -/

def Traced.Quiet {σ α : Type} (op : Traced σ α) : Prop :=
  ∀ t a t', op t = .ok a t' → Event.warnings t'.log = Event.warnings t.log

namespace Traced

variable {σ τ α β : Type} {op : Traced σ α}

lemma Quiet.of_log (h : ∀ t a t', op t = .ok a t' → t'.log = t.log) : Quiet op := by
  intro t a t' hrun
  rw [warnings, h t a t' hrun, warnings]

lemma Quiet.bind {f : α → Traced σ β} (h : Quiet op) (hf : ∀ a, Quiet (f a)) : Quiet (op >>= f) := by
  intro t b t' hrun
  obtain ⟨a, t₁, hop, hrun⟩ := bind_iff.1 hrun
  exact (hf a t₁ b t' hrun).trans (h t a t₁ hop)

lemma Quiet.pure (a : α) : Quiet (pure a : Traced σ α) := by
  refine .of_log fun t b t' h => ?_
  obtain ⟨-, rfl⟩ := pure_iff.1 h
  rfl

lemma Quiet.getState : Quiet (getState : Traced σ σ) := by
  refine .of_log fun t s t' h => ?_
  obtain ⟨-, rfl⟩ := getState_iff.1 h
  rfl

lemma Quiet.modifyState (f : σ → σ) : Quiet (modifyState f) := .of_log fun t a t' h => by rw [modifyState_iff.1 h]

lemma Quiet.ofExcept (r : Except Error α) : Quiet (MonadExcept.ofExcept r : Traced σ α) := by
  refine .of_log fun t a t' h => ?_
  obtain ⟨-, rfl⟩ := ofExcept_iff.1 h
  rfl

lemma Quiet.ofEdit (e : Edit α) : Quiet (ofEdit e) := by
  refine .of_log fun t a t' h => ?_
  obtain ⟨body, -, rfl⟩ := ofEdit_iff.1 h
  rfl

lemma Quiet.report {e : Event} (he : e.isUndefinedRead = false) : Quiet (report e : Traced σ Unit) := by
  intro t a t' h
  rw [report_iff.1 h]
  simp [warnings, he]

lemma Quiet.zoom {part : σ → τ} {put : τ → σ → σ} {op : Traced τ α} (h : Quiet op) : Quiet (zoom part put op) := by
  intro t a t' hrun
  obtain ⟨u, hop, rfl⟩ := zoom_iff.1 hrun
  exact h _ a u hop

lemma Quiet.mapM {γ : Type} {f : γ → Traced σ α} (hf : ∀ c, Quiet (f c)) (l : List γ) : Quiet (l.mapM f) := by
  induction l with
  | nil => exact .pure []
  | cons c l ih =>
    rw [mapM_cons]
    exact (hf c).bind fun a => ih.bind fun as => .pure (a :: as)

end Traced

lemma Analyses.get_quiet {α : Type} {r : Request α} {x : Body} {keep : Bool}
    (h : Quiet (r.create x keep)) : Quiet (get r x keep) := by
  have hlast : Quiet (do
      report (.computing r.name)
      let value ← r.create x keep
      if keep then modifyState (r.put (some ⟨x.cfgVersion, value⟩))
      return value) := by
    refine (Quiet.report rfl).bind fun _ => h.bind fun value => ?_
    cases keep with
    | false => exact .pure value
    | true => exact (Quiet.modifyState _).bind fun _ => .pure value
  rw [get]
  refine Quiet.getState.bind fun a => ?_
  cases r.slot a with
  | none => exact hlast
  | some c =>
    dsimp only
    split
    · exact .pure c.value
    · exact (Quiet.report rfl).bind fun _ => (Quiet.modifyState _).bind fun _ => hlast

lemma Transform.getTree_quiet (keep : Bool) : Quiet (getTree keep) :=
  Quiet.getState.bind fun _ => .zoom (Analyses.get_quiet (.ofExcept _))

lemma Transform.getFrontier_quiet (keep : Bool) : Quiet (getFrontier keep) :=
  Quiet.getState.bind fun _ => .zoom <| Analyses.get_quiet <|
    (Analyses.get_quiet (.ofExcept _)).bind fun _ => .ofExcept _

namespace Promotion

lemma insertPhis_quiet (frontier : Frontier) (accesses : Accesses) : Quiet (insertPhis frontier accesses) := by
  refine Quiet.bind (.mapM (fun g => ?_) _) fun _ => .pure _
  exact Quiet.getState.bind fun x => .mapM (fun b => (Quiet.ofEdit _).bind fun φ =>
    (Quiet.report rfl).bind fun _ => .pure _) _

variable {x y z : Body} {plan : RenamingPlan} {entry b : BlockId} {known : BlockId → VarId → Bool}
  {i j : InstId} {v : VarId} {pre : List InstId}

/-! ## The loads in terms of the body before promotion -/

/-- After the instructions `pre` of a block comes a load of a variable that can be promoted. -/
structure LoadAfter (x : Body) (b : BlockId) (pre : List InstId) (i : InstId) (v : VarId) : Prop where
  split : ∃ post, x.instsOf b = pre ++ i :: post
  kind : x.kind i = .loadVar v
  promotable : x.isPromotable v

lemma forall_trail_iff (hb : Reachable (Edge x.succs) entry b) :
    (∀ l, x.Trail entry b l → ∀ j ∈ l ++ pre, x.kind j ≠ .storeVar v) ↔
      ¬x.StoredOnWay entry b v ∧ ∀ j ∈ pre, x.kind j ≠ .storeVar v := by
  constructor
  · intro hall
    refine ⟨?_, fun j hj => ?_⟩
    · rintro ⟨l, hl, j, hj, hk⟩
      exact hall l hl j (mem_append_left _ hj) hk
    · obtain ⟨l, hl⟩ := exists_trail hb
      exact hall l hl j (mem_append_right _ hj)
  · rintro ⟨hway, hno⟩ l hl j hj hk
    rcases mem_append.1 hj with hj | hj
    · exact hway ⟨l, hl, j, hj, hk⟩
    · exact hno j hj hk

section Plan

variable (hx : x.Arranged) (hv : x.Verified entry) (haccesses : plan.accesses = .ofBody x)
  (hplaced : Placed x plan.phis (places x (.ofTree x (ofEntry x entry))) y)
  (hvars : ∀ k ∈ x.laidOutKinds, ∀ v, k.var? = some v → x.hasVar v)

include hplaced in
lemma heads_iff (hx : x.Attached) : Heads y plan b v ↔ IsGlobal x v ∧ Meets x entry b v := by
  rw [Meets, ← hplaced.exists_mem_iff]
  obtain ⟨new, hphis, hnew⟩ := hplaced.exists_phis hx b
  constructor
  · rintro ⟨φ, hφ, hlookup⟩
    exact ⟨φ, (Lists.lookup_eq_some_iff hplaced.keys_nodup).1 hlookup,
      (hplaced.attached.mem_iff b φ).1 (takeWhile_subset _ hφ)⟩
  · rintro ⟨φ, hφ, hblock⟩
    refine ⟨φ, ?_, (Lists.lookup_eq_some_iff hplaced.keys_nodup).2 hφ⟩
    rw [hphis]
    exact mem_append_right _ ((hnew φ).2 ⟨v, hφ, hblock⟩)

include hplaced in
lemma storesTo_iff (hx : x.Attached) : (∃ i ∈ y.nonPhis b, y.kind i = .storeVar v) ↔ x.storesTo b v := by
  rw [storesTo, any_eq_true, hplaced.nonPhis]
  have hkind : ∀ i ∈ x.instsOf b, y.kind i = x.kind i := fun i hi => hplaced.kind_eq (hx.hasInst hi)
  constructor
  · rintro ⟨i, hi, hk⟩
    have hmem := mem_of_mem_nonPhis hi
    exact ⟨i, hmem, by simpa [hkind i hmem] using hk⟩
  · rintro ⟨i, hi, hk⟩
    rw [decide_eq_true_eq] at hk
    exact ⟨i, mem_nonPhis hi (by rw [hk]; rfl), (hkind i hi).trans hk⟩

include hx hv hplaced in
lemma given_iff (hglobal : IsGlobal x v) : Given y plan entry b v ↔ x.StoredOnWay entry b v := by
  have hsuccs : y.succs = x.succs := funext hplaced.graph.succs
  simp only [storedOnWay_iff hx hv, Given, AssignedAbove, Assigns, heads_iff hplaced hx.attached,
    storesTo_iff hplaced hx.attached, hsuccs, hglobal, true_and, or_comm]

include hx hv haccesses hplaced hvars in
lemma mem_blankReadsOf (hknown : ∀ b v, known b v ↔ Given y plan entry b v) (hb : b ∈ x.order) :
    (i, v) ∈ blankReadsOf y plan known b ↔ ∃ pre, LoadAfter x b pre i v ∧
      ¬x.StoredOnWay entry b v ∧ ∀ j ∈ pre, x.kind j ≠ .storeVar v := by
  have hkind : ∀ i ∈ x.nonPhis b, y.kind i = x.kind i := fun i hi =>
    hplaced.kind_eq (hx.attached.hasInst (mem_of_mem_nonPhis hi))
  have hhas : ∀ i ∈ x.instsOf b, x.kind i = .loadVar v → x.hasVar v := fun i hi hk =>
    hvars _ (mem_laidOutKinds.2 ⟨b, hb, i, hi, rfl⟩) v (by rw [hk]; rfl)
  have hglobal : ∀ pre post, x.nonPhis b = pre ++ i :: post → x.kind i = .loadVar v →
      x.isPromotable v → (∀ j ∈ pre, x.kind j ≠ .storeVar v) →
      (known b v = false ↔ ¬x.StoredOnWay entry b v) := by
    intro pre post hsplit hk hprom hno
    have hmem : i ∈ x.instsOf b := mem_of_mem_nonPhis (by simp [hsplit])
    rw [← given_iff hx hv hplaced (isGlobal_of_load hb hsplit hk ⟨hhas i hmem hk, hprom⟩ hno),
      ← hknown, Bool.not_eq_true]
  rw [blankReadsOf, mem_blankReads, haccesses, hplaced.nonPhis]
  constructor
  · rintro ⟨pre, post, hsplit, hk, hprom, hfalse, hno⟩
    have hprom := (Accesses.isPromotable_ofBody.1 hprom).2
    have hk : x.kind i = .loadVar v := by rwa [hkind i (by simp [hsplit])] at hk
    have hno : ∀ j ∈ pre, x.kind j ≠ .storeVar v := fun j hj => by
      rw [← hkind j (by simp [hsplit, hj])]
      exact hno j hj
    refine ⟨x.phis b ++ pre, ⟨⟨post, ?_⟩, hk, hprom⟩,
      (hglobal pre post hsplit hk hprom hno).1 hfalse, fun j hj => ?_⟩
    · rw [← phis_append_nonPhis, hsplit, append_assoc]
    · rcases mem_append.1 hj with hj | hj
      · intro heq
        simpa [heq, Kind.isPhi] using isPhi_of_mem_phis hj
      · exact hno j hj
  · rintro ⟨pre, ⟨⟨post, hsplit⟩, hk, hprom⟩, hway, hno⟩
    -- A load is no phi, so the phis of the block come before it.
    have hnot : i ∉ x.phis b := fun hphi => by
      simpa [hk, Kind.isPhi] using isPhi_of_mem_phis hphi
    obtain ⟨rest, rfl, hsplit'⟩ : ∃ rest, pre = x.phis b ++ rest ∧ x.nonPhis b = rest ++ i :: post := by
      have hparts := hsplit
      rw [← phis_append_nonPhis, append_eq_append_iff] at hparts
      rcases hparts with hparts | ⟨φs, hphis, hpost⟩
      · exact hparts
      · cases φs with
        | nil => exact ⟨[], by simpa using hphis.symm, by simpa using hpost.symm⟩
        | cons φ φs => simp [hphis, (cons.inj hpost).1] at hnot
    have hno : ∀ j ∈ rest, x.kind j ≠ .storeVar v := fun j hj => hno j (by simp [hj])
    refine ⟨rest, post, hsplit', ?_, Accesses.isPromotable_ofBody.2 ⟨hhas i ?_ hk, hprom⟩,
      (hglobal rest post hsplit' hk hprom hno).2 hway, fun j hj => ?_⟩
    · rw [hkind i (by simp [hsplit']), hk]
    · simp [hsplit]
    · rw [hkind j (by simp [hsplit', hj])]
      exact hno j hj

include hx hv haccesses hplaced hvars in
lemma mem_flatMap_preorder (hknown : ∀ b v, known b v ↔ Given y plan entry b v) :
    (i, v) ∈ (ofEntry x entry).preorder.flatMap (blankReadsOf y plan known) ↔
      ∃ b pre, LoadAfter x b pre i v ∧ Reachable (Edge x.succs) entry b ∧
        ∀ l, x.Trail entry b l → ∀ j ∈ l ++ pre, x.kind j ≠ .storeVar v := by
  rw [mem_flatMap]
  constructor
  · rintro ⟨b, hb, hmem⟩
    have hreach := (mem_preorder_of_verified hx hv).1 hb
    obtain ⟨pre, hload, hno⟩ := (mem_blankReadsOf hx hv haccesses hplaced hvars hknown
      (mem_order_of_reachable hx hv hreach)).1 hmem
    exact ⟨b, pre, hload, hreach, (forall_trail_iff hreach).2 hno⟩
  · rintro ⟨b, pre, hload, hreach, hno⟩
    exact ⟨b, (mem_preorder_of_verified hx hv).2 hreach, (mem_blankReadsOf hx hv haccesses hplaced hvars
      hknown (mem_order_of_reachable hx hv hreach)).2 ⟨pre, hload, (forall_trail_iff hreach).1 hno⟩⟩

include hx hv haccesses hplaced hvars in
lemma mem_flatMap_unreached (hknown : ∀ b v, known b v ↔ Given y plan entry b v) :
    (i, v) ∈ (x.order.filter fun b => !(ofEntry x entry).isReachable b).flatMap (blankReadsOf y plan known) ↔
      ∃ b ∈ x.order, ∃ pre, LoadAfter x b pre i v ∧ ¬Reachable (Edge x.succs) entry b ∧
        ∀ j ∈ pre, x.kind j ≠ .storeVar v := by
  have hfilter : ∀ b, b ∈ x.order.filter (fun b => !(ofEntry x entry).isReachable b) ↔
      b ∈ x.order ∧ ¬Reachable (Edge x.succs) entry b := fun b => by
    rw [mem_filter, ← (exact_of_verified hx hv).reachable b]
    simp
  rw [mem_flatMap]
  constructor
  · rintro ⟨b, hb, hmem⟩
    obtain ⟨horder, hout⟩ := (hfilter b).1 hb
    obtain ⟨pre, hload, -, hno⟩ := (mem_blankReadsOf hx hv haccesses hplaced hvars hknown horder).1 hmem
    exact ⟨b, horder, pre, hload, hout, hno⟩
  · rintro ⟨b, horder, pre, hload, hout, hno⟩
    refine ⟨b, (hfilter b).2 ⟨horder, hout⟩,
      (mem_blankReadsOf hx hv haccesses hplaced hvars hknown horder).2 ⟨pre, hload, ?_, hno⟩⟩
    rintro ⟨l, hl, -⟩
    exact hout hl.reachable

include hx hv haccesses hplaced in
lemma rename_counted {t t' : Trace Renaming} (hknown : ∀ b v, known b v ↔ Given y plan entry b v)
    (hbody : t.state.body = y) (hm : Mirrors plan [] t.state) (hrun : rename (ofEntry x entry) plan t = .ok () t') :
    (∃ out r h, Survey y plan entry known [] (itinerary x (ofEntry x entry)) out r h t'.state) ∧
      warnings t'.log = warnings t.log ++ (if plan.warnOnUndefined then
        ((ofEntry x entry).preorder.flatMap (blankReadsOf y plan known)).map (undefinedRead y) else []) ∧
      t'.state.undefined = t.state.undefined +
        ((itinerary x (ofEntry x entry)).flatMap (blankReadsOf y plan known)).length := by
  have hplan := hplaced.headed hx.attached hx.edges.succs_nodup haccesses
  have hlinked := linked_of_verified hx hv
  have hsuccs : y.succs = x.succs := funext hplaced.graph.succs
  obtain ⟨⟨⟩, t₁, hwalk, hrun⟩ := bind_iff.1 hrun
  have hvisits : Run (ofEntry x entry).childrenAt x.blocks.size entry [] [] (ofEntry x entry).walk :=
    visits_run hlinked.entry_lt
  obtain ⟨⟨out, r, h, S⟩, hcounted⟩ : (∃ out r h, Survey y plan entry known []
      (ofEntry x entry).preorder out r h t₁.state) ∧ Counted y plan.warnOnUndefined
        ((ofEntry x entry).preorder.flatMap (blankReadsOf y plan known)) t t₁ :=
    (Survey.initial hplan hbody hm).follow hvisits hplan hknown
      (fun p c hc => by rw [hsuccs]; exact ((mem_childrenAt_iff hlinked).1 hc).2) hwalk
  replace hrun := getState_bind_iff.1 hrun
  have horder : t₁.state.body.order = x.order := by
    rw [S.toured.renames.graph.order, hplaced.graph.order]
  rw [horder] at hrun
  have hrest : ∀ b ∈ x.order.filter (fun b => !(ofEntry x entry).isReachable b),
      b ∉ (ofEntry x entry).preorder ∧ ¬Reachable (Edge y.succs) entry b := by
    intro b hb
    have hnot := (mem_filter.1 hb).2
    have hout : ¬Reachable (Edge x.succs) entry b := by
      rw [← (exact_of_verified hx hv).reachable b]
      simpa using hnot
    exact ⟨fun hin => hout ((mem_preorder_of_verified hx hv).1 hin), by rwa [hsuccs]⟩
  obtain ⟨S', hcounted'⟩ := S.unreached hplan hknown (hx.nodup.filter _) hrest hrun
  refine ⟨S', ?_, ?_⟩
  · rw [hcounted'.warnings, hcounted.warnings]
    simp
  · rw [hcounted'.undefined, hcounted.undefined, itinerary, flatMap_append, length_append, Nat.add_assoc]

end Plan

/-! ## What a run reports -/

/-- How many loads of undefined variables the last report of a run of the pass tells of. -/
def undefinedCount? : Event → Option Nat
  | .promoted _ _ _ _ n => some n
  | .nothingToPromote => some 0
  | _ => none

/-- What a run of the pass that leads from `x` to `z` has said in addition to `log`. Control can come to
the loads of `reached`, but never through a store to their variable; these are reported if `warn`. The
loads of `others` are in blocks to which control cannot come, with no store before them in their block.
Both are counted, and an undefined value has been put for them. -/
structure Diagnosed (x : Body) (entry : BlockId) (warn : Bool) (reached others : List (InstId × VarId))
    (log log' : Array Event) (z : Body) : Prop where
  nodup : (reached ++ others).Nodup
  mem_reached : ∀ i v, (i, v) ∈ reached ↔ ∃ b pre, LoadAfter x b pre i v ∧
    Reachable (Edge x.succs) entry b ∧ ∀ l, x.Trail entry b l → ∀ j ∈ l ++ pre, x.kind j ≠ .storeVar v
  mem_others : ∀ i v, (i, v) ∈ others ↔ ∃ b ∈ x.order, ∃ pre, LoadAfter x b pre i v ∧
    ¬Reachable (Edge x.succs) entry b ∧ ∀ j ∈ pre, x.kind j ≠ .storeVar v
  warnings : Event.warnings log' = Event.warnings log ++
    if warn then reached.map (undefinedRead x) else []
  counted : log'.back?.bind undefinedCount? = some (reached.length + others.length)
  removed : ∀ p ∈ reached ++ others, (z.inst p.1).isRemoved
  replaced : ∀ p ∈ reached ++ others, ∀ j, x.hasInst j → (z.inst j).isRemoved = false →
    ∀ k : Nat, (x.inst j).operands[k]? = some (.inst p.1) → (z.inst j).operands[k]? = some (.undef (x.var p.2).ty)

lemma Renames.getElem?_operands {r : Record} {w : Body} {places : List (VarId × BlockId)} {u : Value}
    {k : Nat} (hr : Renames y plan r w) (hplaced : Placed x plan.phis places y)
    (hbare : (z.inst j).bare = (w.inst j).bare) (hj : x.hasInst j)
    (hstays : (z.inst j).isRemoved = false) (hk : (x.inst j).operands[k]? = some u) :
    (z.inst j).operands[k]? = some (r.sub u) := by
  have hj₁ : y.hasInst j := hasInst_of_le (by simp [hplaced.size]) hj
  have hgone : ¬r.gone j := fun hgone => by
    rw [isRemoved_of_bare (hbare.trans (hr.lost j hgone).2.2)] at hstays
    cases hstays
  have hops := hr.operands_eq hj₁ hgone ((hplaced.lookup_eq_none_iff hj₁).2 hj)
  rw [operands_of_bare hbare]
  change (w.inst j).operands[k]? = _
  rw [hops, hplaced.operands_eq hj, getElem?_map, hk]
  rfl

section Promote

variable {options : Options} (hx : x.Arranged) (hv : x.Verified entry)
  (hvars : ∀ k ∈ x.laidOutKinds, ∀ v, k.var? = some v → x.hasVar v)

include hx hv hvars

lemma promote_diagnosed {t t' : Trace Body} (hbody : t.state = x)
    (hrun : promote options (ofEntry x entry) (.ofTree x (ofEntry x entry)) (.ofBody x) t = .ok () t') :
    ∃ reached others, Diagnosed x entry options.warnOnUndefined reached others t.log t'.log t'.state := by
  classical
  obtain ⟨phis, t₁, u, removed, hphis, hrename, rfl⟩ := exists_of_promote hrun
  let plan : RenamingPlan := { accesses := .ofBody x, phis, warnOnUndefined := options.warnOnUndefined }
  have hplaced : Placed x plan.phis (places x (.ofTree x (ofEntry x entry))) t₁.state := by
    subst hbody
    exact insertPhis_spec hx.attached hv.uses hphis
  have hplan : Headed t₁.state plan := hplaced.headed hx.attached hx.edges.succs_nodup rfl
  let known : BlockId → VarId → Bool := fun b v => decide (Given t₁.state plan entry b v)
  have hknown : ∀ b v, known b v ↔ Given t₁.state plan entry b v := fun b v => decide_eq_true_iff
  obtain ⟨⟨out, r, h, S⟩, hwarnings, hundefined⟩ := rename_counted hx hv rfl hplaced hknown rfl
    (mirrors_initial plan t₁.state) hrename
  have hr := S.toured.renames
  obtain ⟨dead, hdead, -, hclosed⟩ := exists_stripped options hr.attached hr.uses hplaced.keys_nodup
    fun φ v hφ => hr.isPhi_of_lookup hplan hφ
  have hold : ∀ j, x.hasInst j → j ∉ dead := fun j hj => hplaced.not_mem_dead hdead hj
  let tree := ofEntry x entry
  let blank := blankReadsOf t₁.state plan known
  have hall : tree.preorder.flatMap blank ++
      (x.order.filter fun b => !tree.isReachable b).flatMap blank = (itinerary x tree).flatMap blank :=
    flatMap_append.symm
  have hvar : undefinedRead t₁.state = undefinedRead x := funext fun p => by
    rw [undefinedRead, hplaced.graph.var, undefinedRead]
  have hsub : ∀ p ∈ (itinerary x tree).flatMap blank, r.sub (.inst p.1) = .undef (x.var p.2).ty := by
    intro p hp
    obtain ⟨b, hb, hp⟩ := mem_flatMap.1 hp
    rw [S.undefined b hb p hp, hplaced.graph.var]
  refine ⟨tree.preorder.flatMap blank, (x.order.filter fun b => !tree.isReachable b).flatMap blank, ?_,
    fun i v => mem_flatMap_preorder hx hv rfl hplaced hvars hknown,
    fun i v => mem_flatMap_unreached hx hv rfl hplaced hvars hknown, ?_, ?_, ?_, ?_⟩
  · rw [hall]
    exact nodup_flatMap_blankReadsOf hplaced.attached (itinerary_nodup (linked_of_verified hx hv) hx.nodup)
  · have hquiet := insertPhis_quiet _ _ t phis t₁ hphis
    have hlast : warnings (u.log.push (.promoted (phis.length - removed) removed u.state.stores
        u.state.loads u.state.undefined)) = warnings u.log := by
      simp [warnings, isUndefinedRead]
    rw [hlast, hwarnings, hvar]
    exact congrArg (· ++ _) hquiet
  · rw [Array.back?_push, ← length_append, hall]
    simpa [undefinedCount?] using hundefined
  · rw [hall]
    intro p hp
    -- What still stood for itself would not be undefined.
    have hgone : r.gone p.1 := by
      by_contra hnot
      exact absurd ((hsub p hp).symm.trans (S.untouched p.1 hnot)) (by simp)
    obtain ⟨hacc, -, hbare⟩ := hr.lost p.1 hgone
    have hstays : p.1 ∉ dead := fun hmem => by
      obtain ⟨v, hlookup⟩ := hdead p.1 hmem
      have hnone := hplan.lookup_eq_none (plan.accesses.isPhi_of_concerns hacc)
      exact absurd (hnone.symm.trans hlookup) (by simp)
    exact isRemoved_of_bare ((hclosed p.1 hstays).trans hbare)
  · rw [hall]
    intro p hp j hj hstays k hk
    rw [hr.getElem?_operands hplaced (hclosed j (hold j hj)) hj hstays hk, hsub p hp]

end Promote

lemma LoadAfter.concerns (h : LoadAfter x b pre i v) (hb : b ∈ x.order)
    (hvars : ∀ k ∈ x.laidOutKinds, ∀ v, k.var? = some v → x.hasVar v) :
    x.laidOutKinds.any (Accesses.ofBody x).concerns := by
  obtain ⟨⟨post, hsplit⟩, hk, hprom⟩ := h
  have hmem : x.kind i ∈ x.laidOutKinds := mem_laidOutKinds.2 ⟨b, hb, i, by simp [hsplit], rfl⟩
  refine any_eq_true.2 ⟨_, hmem, ?_⟩
  rw [hk]
  exact Accesses.isPromotable_ofBody.2 ⟨hvars _ hmem v (by rw [hk]; rfl), hprom⟩

/-- What a run of the pass says about undefined variables is exact. The body is one that operations made,
whose blocks are all laid out and that the verifier accepts. If the run succeeds, the loads of variables
to promote to which control comes without a store on any way are those that it reports, if it is to, and
that it counts together with the loads in blocks to which control cannot come. An undefined value stands
for them in what is left. -/
theorem run_diagnosed {ops : List Op} {args : List Ty} {ret : Ty} {options : Options}
    {t t' : Trace Transform} {changes : Invalidations}
    (hops : Op.afterAll? ops (Body.empty args ret) = some x) (hrow : x.InRow)
    (hverify : x.verify = .ok ()) (hbody : t.state.body = x) (hfresh : t.state.analyses.Fresh x)
    (hrun : run options t = .ok changes t') : ∃ entry reached others, x.entry = some entry ∧
      Diagnosed x entry options.warnOnUndefined reached others t.log t'.log t'.state.body := by
  have hx := Op.arranged_of_inRow hops hrow
  obtain ⟨entry, hv⟩ := verify_eq_ok.1 hverify
  rcases of_run hrun with
    ⟨hcollect, rfl⟩ | ⟨accesses, tree, frontier, t₁, t₂, u, hcollect, htree, hfrontier, hpromote, rfl⟩
  · rw [hbody] at hcollect
    obtain ⟨hvars, hnone⟩ := Accesses.collect?_eq_ok_iff.1 hcollect
    have hno : ∀ b ∈ x.order, ∀ pre i v, ¬LoadAfter x b pre i v := fun b hb pre i v hload => by
      simp [hload.concerns hb hvars] at hnone
    refine ⟨entry, [], [], hv.entry_eq, by simp, fun i v => ?_, fun i v => ?_, ?_, ?_, by simp, by simp⟩
    · refine iff_of_false (by simp) ?_
      rintro ⟨b, pre, hload, hreach, -⟩
      exact hno b (mem_order_of_reachable hx hv hreach) pre i v hload
    · refine iff_of_false (by simp) ?_
      rintro ⟨b, hb, pre, hload, -⟩
      exact hno b hb pre i v hload
    · simp [warnings, isUndefinedRead]
    · simp [undefinedCount?]
  · rw [hbody] at hcollect
    obtain rfl := Accesses.eq_of_collect? hcollect
    have hvars := (Accesses.collect?_eq_ok_iff.1 hcollect).1
    have hquiet : warnings t₂.log = warnings t.log :=
      (Transform.getFrontier_quiet true t₁ frontier t₂ hfrontier).trans
        (Transform.getTree_quiet true t tree t₁ htree)
    obtain ⟨htree, hbody₁, hfresh₁⟩ := analyze_eq hbody hfresh Analyses.treeRequest_answers htree
    obtain ⟨hfrontier, hbody₂, -⟩ := analyze_eq hbody₁ hfresh₁ Analyses.frontierRequest_answers hfrontier
    have hcompute := Frontier.compute_ofEntry (linked_of_verified hx hv) hv.entry_preds
    rw [Frontier.ofBody, compute_eq hv.entry_eq] at hfrontier
    obtain rfl := Except.ok.inj ((compute_eq hv.entry_eq).symm.trans htree)
    obtain rfl := Except.ok.inj (hcompute.symm.trans hfrontier)
    obtain ⟨reached, others, D⟩ := promote_diagnosed hx hv hvars hbody₂ hpromote
    exact ⟨entry, reached, others, hv.entry_eq, { D with warnings := by rw [← hquiet]; exact D.warnings }⟩

/-- Variable 0 is stored in the body of a loop whose head loads it, and variable 1 nowhere. Control does
not come to block 4. -/
def lateStoreSteps : List Op :=
  [.createVar .i32 (.local 0), .createVar .i32 (.local 1), .createBlock none, .createBlock none,
    .createBlock none, .createBlock none, .createBlock none, .setJump ⟨0⟩ ⟨1⟩,
    .createInst (.loadVar ⟨0⟩) [] .i32, .insertLast ⟨1⟩ ⟨1⟩,
    .createInst (.branch ⟨2⟩ ⟨3⟩) [.inst ⟨1⟩] .void, .setTerminator ⟨1⟩ ⟨2⟩,
    .createInst (.storeVar ⟨0⟩) [.const (.i32 7)] .void, .insertLast ⟨2⟩ ⟨3⟩, .setJump ⟨2⟩ ⟨1⟩,
    .createInst (.loadVar ⟨1⟩) [] .i32, .insertLast ⟨3⟩ ⟨5⟩,
    .createInst .ret [.inst ⟨5⟩] .void, .setTerminator ⟨3⟩ ⟨6⟩,
    .createInst (.loadVar ⟨0⟩) [] .i32, .insertLast ⟨4⟩ ⟨7⟩,
    .createInst .ret [.inst ⟨7⟩] .void, .setTerminator ⟨4⟩ ⟨8⟩]

def lateStore : Body := (Op.placingAfterAll? lateStoreSteps (empty [] .i32)).getD default

/-- Only the load of variable 1 is reported; the head of the loop loads the stored value the second
time. -/
theorem lateStore_diagnosed : ∃ changes t' reached others, run {} ⟨{ body := lateStore }, #[]⟩ = .ok changes t' ∧
      Diagnosed lateStore ⟨0⟩ true reached others #[] t'.log t'.state.body ∧
      Event.warnings t'.log = [.undefinedRead ⟨1⟩ (.local 1) ⟨5⟩] ∧
      t'.log.back? = some (.promoted 1 0 1 3 2) ∧
      (t'.state.body.inst ⟨6⟩).operands = [.undef .i32] := by
  have hplacing : Op.placingAfterAll? lateStoreSteps (empty [] .i32) = some lateStore := eq_some_getD (by decide)
  have hrow := (Op.laid_of_placing (tidy_empty [] .i32).laid hplacing).inRow
  have hverify : lateStore.verify = .ok () := by cbv
  have hentry : lateStore.entry = some ⟨0⟩ := by cbv
  have hdone : (traceOf? {} lateStore).any fun t => decide (
      warnings t.log = [.undefinedRead ⟨1⟩ (.local 1) ⟨5⟩] ∧ t.log.back? = some (.promoted 1 0 1 3 2) ∧
        (t.state.body.inst ⟨6⟩).operands = [.undef .i32]) := by cbv
  obtain ⟨changes, t', hrun, hsays⟩ := exists_of_traceOf? hdone
  obtain ⟨hwarnings, hlast, hops⟩ := of_decide_eq_true hsays
  obtain ⟨entry, reached, others, hentry', D⟩ := run_diagnosed (Op.afterAll_of_placing hplacing) hrow
    hverify rfl Analyses.fresh_empty hrun
  obtain rfl := Option.some.inj (hentry.symm.trans hentry')
  exact ⟨changes, t', reached, others, hrun, D, hwarnings, hlast, hops⟩

/-- Through a block outside the layout control comes to a load after a store, but the load is counted
among those of undefined variables, and an undefined value is put for it. -/
theorem strayStore_misdiagnosed : Op.afterAll? strayStoreSteps (Body.empty [] .i32) = some strayStore ∧
      strayStore.verify = .ok () ∧ strayStore.entry = some ⟨0⟩ ∧
      strayStore.StoredOnWay ⟨0⟩ ⟨1⟩ ⟨0⟩ ∧ LoadAfter strayStore ⟨1⟩ [] ⟨3⟩ ⟨0⟩ ∧
      (strayStore.inst ⟨4⟩).operands = [.inst ⟨3⟩] ∧
      ∃ changes t', run {} ⟨{ body := strayStore }, #[]⟩ = .ok changes t' ∧
        t'.log.back?.bind undefinedCount? = some 1 ∧
        (t'.state.body.inst ⟨4⟩).operands = [.undef .i32] := by
  have hops : Op.afterAll? strayStoreSteps (empty [] .i32) = some strayStore := eq_some_getD (by decide)
  have hdone : (traceOf? {} strayStore).any fun t => decide (
      t.log.back?.bind undefinedCount? = some 1 ∧ (t.state.body.inst ⟨4⟩).operands = [.undef .i32]) := by cbv
  obtain ⟨changes, t', hrun, hsays⟩ := exists_of_traceOf? hdone
  obtain ⟨hcount, hoperands⟩ := of_decide_eq_true hsays
  have htrail : strayStore.Trail ⟨0⟩ ⟨1⟩ ([] ++ strayStore.instsOf ⟨0⟩ ++ strayStore.instsOf ⟨3⟩) :=
    .step (.step .start (by decide)) (by decide)
  exact ⟨hops, by cbv, by cbv, ⟨_, htrail, ⟨1⟩, by decide, by decide⟩,
    ⟨⟨_, by cbv⟩, by decide, by decide⟩, by cbv, changes, t', hrun, hcount, hoperands⟩

end Promotion

end MethodIR
