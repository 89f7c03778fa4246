import MethodIR.Proofs.PromotedBodies

/-!
# Renaming comes to its end

Renaming goes through the blocks of the dominator tree (`Promotion.Tour.exists_follow`), then through
those that control does not reach (`Promotion.Toured.exists_unreached`).
-/

namespace MethodIR

open List FlowGraph DepthFirst Tables Success Traced Function Body

def Body.StoresUnused (x : Body) : Prop := ∀ i d, .inst d ∈ (x.inst i).operands → ∀ v, x.kind d ≠ .storeVar v

def Body.StoresFilled (x : Body) : Prop :=
  ∀ b ∈ x.order, ∀ i ∈ x.instsOf b, ∀ v, x.kind i = .storeVar v → (x.inst i).operands ≠ []

lemma Body.StoresUnused.noStoreOperands {x : Body} (h : x.StoresUnused) : x.NoStoreOperands :=
  fun _ _ i _ d hd => h i d hd

lemma Body.hasInst_of_mem_operands {x : Body} {i : InstId} {u : Value}
    (h : u ∈ (x.inst i).operands) : x.hasInst i := by
  by_contra hnot
  rw [inst, getD_of_size_le _ _ _ (by simpa [hasInst] using hnot)] at h
  simp [default, instInhabitedInst.default] at h

namespace Promotion

open Renaming

variable {x y y' : Body} {plan : RenamingPlan} {entry b : BlockId} {r r' : Record} {i : InstId}
  {is js pre post : List InstId} {v : VarId} {h h' : Pushes} {idom : BlockId → Option BlockId}
  {out : BlockId → Values} {seen others opened bs : List BlockId} {t t' : Trace Renaming}
  {reachable : Bool}

/-! ## One access -/

section

variable (hc : Clean x plan r y h) (hr : Renames x plan r y) (hunused : x.StoresUnused)
include hc hr hunused

lemma Clean.uses_store (hk : x.kind i = .storeVar v) (hv : plan.accesses.isPromotable v) : y.uses (.inst i) = [] := by
  have hnot : ¬Firm x plan y (.inst i) := fun hfirm => by
    have hno := hfirm.2 i rfl
    rw [hk] at hno
    exact absurd hv (Bool.eq_false_iff.1 hno)
  rw [hr.uses.uses_eq_nil_iff rfl]
  intro j hj
  by_cases hin : x.hasInst j
  · by_cases hgone : r.gone j
    · rw [operands_of_bare (hr.lost j hgone).2.2] at hj
      cases hj
    · cases hφ : plan.phis.lookup j with
      | some w =>
        rw [operands_of_bare (hr.phi j w hφ)] at hj
        obtain ⟨a, ha, heq⟩ := mem_map.1 hj
        exact hnot (heq ▸ hc.args j a ha)
      | none =>
        rw [hr.operands_eq hin hgone hφ] at hj
        obtain ⟨u, hu, heq⟩ := mem_map.1 hj
        by_cases hsettled : Settled x plan.accesses u
        · rw [hr.settled u hsettled] at heq
          exact hunused j i (heq ▸ hu) v hk
        · -- a load that has been renamed stands for something firm, any other for itself
          simp only [Settled, not_forall] at hsettled
          obtain ⟨d, v', rfl, hkd, -⟩ := hsettled
          by_cases hd : r.gone d
          · exact hnot (heq ▸ hc.loads d v' hkd hd)
          · rw [hc.fresh d hd] at heq
            simp [Value.inst.inj heq, hk] at hkd
  · exact hnot (hc.insts j (by simpa [hasInst] using hin) _ hj)

lemma Clean.exists_accessed (hfilled : x.StoresFilled) (hb : b ∈ x.order)
    (hi : i ∈ x.instsOf b) (hrest : r.rest b = js ++ i :: is) :
    ∃ r' y' h', Accessed x plan b i r y h r' y' h' := by
  by_cases hacc : plan.accesses.concerns (x.kind i) = false
  · exact ⟨_, _, _, .other hacc⟩
  have hkinds : (∃ v, x.kind i = .loadVar v ∧ plan.accesses.isPromotable v) ∨
      ∃ v, x.kind i = .storeVar v ∧ plan.accesses.isPromotable v := by
    obtain ⟨v, hv, hk | hk⟩ := plan.accesses.exists_of_concerns (by simpa using hacc)
    · exact .inl ⟨v, hk, hv⟩
    · exact .inr ⟨v, hk, hv⟩
  rcases hkinds with ⟨v, hk, hv⟩ | ⟨v, hk, hv⟩
  · have hfirm := hc.held v
    exact ⟨_, _, _, .load hk hv rfl (fun heq => hacc (hfirm.2 i heq)) (.inr hfirm.1)⟩
  · have huses := hc.uses_store hr hunused hk hv
    obtain ⟨u, us, hops⟩ := exists_cons_of_ne_nil (hfilled b hb i hi v hk)
    cases hty : (x.var v).ty.narrows (y.valueTy (r.sub u)) with
    | false => exact ⟨_, _, _, .store hk hv hops huses hty⟩
    | true => exact ⟨_, _, _, .narrow hk hv hops huses hty hrest⟩

end

/-! ## One block -/

section Block

variable (hplan : Planned x plan) (hunused : x.StoresUnused) (hfilled : x.StoresFilled)
  (hb : b ∈ x.order) (hr : Renames x plan r t.state.body) (m : Mirrors plan h t.state)
  (hclean : Clean x plan r t.state.body h)

include hplan hunused hfilled hb hr m hclean

lemma exists_accesses (hrest : r.rest b = js ++ is) (his : is ⊆ x.nonPhis b) (hready : ∀ pre i post, is = pre ++ i :: post →
      Ready x plan (fun d => r.gone d ∨ d ∈ pre) i) (reachable : Bool) :
    ∃ t', is.forM (access plan reachable b) t = .ok () t' := by
  induction is generalizing t r h js with
  | nil => exact ⟨t, rfl⟩
  | cons i is ih =>
    have hmem : i ∈ x.instsOf b := mem_of_mem_nonPhis (his (by simp))
    obtain ⟨r₁, y₁, h₁, step⟩ := hclean.exists_accessed hr hunused hfilled hb hmem hrest
    have hfirst : Ready x plan _ i := hready [] i is rfl
    simp only [not_mem_nil, or_false] at hfirst
    obtain ⟨τ, js₁, hadv, hrest₁, -, hclean₁, -, hgone₁⟩ := step.renamed hr hplan.toHeaded hrest hclean hfirst
    obtain ⟨t₁, hrun, rfl, m₁⟩ : ∃ t₁, access plan reachable b i t = .ok () t₁ ∧ t₁.state.body = y₁ ∧
        Mirrors plan h₁ t₁.state :=
      access_complete hplan.toHeaded hr m (hplan.attached.hasInst hmem) (by simp [hrest])
        (hplan.hasVar b hb i hmem) step
    obtain ⟨t', hrun'⟩ := ih hadv.renames m₁ hclean₁ hrest₁ (fun j hj => his (by simp [hj]))
      (ready_tail hready hadv.later.gone hgone₁)
    exact ⟨t', bind_iff.2 ⟨(), t₁, hrun, hrun'⟩⟩

lemma exists_enter (hrest : r.rest b = x.nonPhis b) (hready : ∀ pre i post, x.nonPhis b = pre ++ i :: post →
      Ready x plan (fun d => r.gone d ∨ d ∈ pre) i) (reachable : Bool) :
    ∃ t', enter plan reachable b t = .ok () t' := by
  obtain ⟨t₁, -, hbody, m₁, hiff⟩ := enter_iff_of_renames hplan.toHeaded hr m reachable
  rw [← hbody] at hr hclean
  have hheads := hclean.headings hr hplan.toHeaded b
  have hstart : r.rest b = [] ++ x.nonPhis b := hrest
  obtain ⟨t₂, haccess⟩ := exists_accesses hplan hunused hfilled hb hr m₁ hheads hstart (fun _ => id) hready reachable
  rw [← hrest] at haccess hready
  obtain ⟨r₁, h', hchain, m₂⟩ := chain_sound hplan.toHeaded hr m₁ (nil_append _).symm haccess
  obtain ⟨τ, js, hadv, -, -, hclean₁, -⟩ := hchain.renamed hr hplan.toHeaded (nil_append _).symm hheads hready
  obtain ⟨t', hpass⟩ := passOn_progress hplan.toHeaded hadv.renames m₂ (fun v => (hclean₁.held v).1) b (x.succs b)
  exact ⟨t', (hiff t').2 ⟨t₂, haccess, hpass⟩⟩

end Block

/-! ## The blocks of the tree -/

lemma Tour.exists_follow {ch : BlockId → List BlockId} {capacity : Nat} {visits : List Visit}
    (run : Run ch capacity entry opened seen visits) (hplan : Planned x plan)
    (hunused : x.StoresUnused) (hfilled : x.StoresFilled)
    (hidom : ∀ a b, idom b = some a ↔ IsIdom (Edge x.succs) entry a b)
    (hch : ∀ p c, c ∈ ch p → IsIdom (Edge x.succs) entry p c) (horder : ∀ b ∈ entered visits, b ∈ x.order)
    (ho : ∀ b ∈ entered visits, Ordered x plan entry b) (H : Tour x plan entry idom opened seen t.state) :
    ∃ t', visits.forM (Renaming.follow plan) t = .ok () t' ∧
      Tour x plan entry idom [] (seen ++ entered visits) t'.state := by
  have hends : Ends True (visits.forM (Renaming.follow plan)) t _ := follow_ends
    (P := fun opened seen t => Tour x plan entry idom opened seen t.state) run hch H (fun b hb opened seen t H hseen hbelow => ⟨fun _ => ?_, fun _ hrun =>
      H.enter hbelow hplan hidom hseen (ho b hb) hrun⟩) fun _ _ _ _ H => H.exit
  · obtain ⟨t', hrun⟩ := hends.1 trivial
    exact ⟨t', hrun, hends.2 t' hrun⟩
  · obtain ⟨out, r, h, T, -, hclean, m⟩ := H.state
    exact exists_enter hplan hunused hfilled (horder b hb) T.renames m hclean (T.rest b hseen (by simp))
      (fun _ _ _ => T.ready hplan (H.seen_of_strict hbelow) (ho b hb)) true

/-! ## The other blocks -/

/-- The operands of the accesses of a block that are accesses themselves are loads that come before
them in the block, or in a block of `seen`. -/
def Settling (x : Body) (plan : RenamingPlan) (seen : List BlockId) (b : BlockId) : Prop :=
  ∀ pre i post, x.nonPhis b = pre ++ i :: post → Ready x plan (fun d => d ∈ pre ∨
    ∃ home ∈ seen, d ∈ x.nonPhis home) i

lemma Toured.ready_of_settling (T : Toured x plan entry idom out (seen ++ others) [] r y) (hplan : Headed x plan)
    (ho : Settling x plan seen b) (hsplit : x.nonPhis b = pre ++ i :: post) :
    Ready x plan (fun d => r.gone d ∨ d ∈ pre) i := by
  intro hacc u hu d hd hdacc
  obtain ⟨hload, hmem⟩ := ho pre i post hsplit hacc u hu d hd hdacc
  refine ⟨hload, ?_⟩
  rcases hmem with hmem | ⟨home, hhome, hmem⟩
  · exact .inr hmem
  · exact .inl (T.gone hplan (.inl (mem_append_left _ hhome)) hmem hdacc)

lemma Toured.exists_unreached (hplan : Planned x plan) (hunused : x.StoresUnused) (hfilled : x.StoresFilled)
    (hidom : ∀ a b, idom b = some a → IsIdom (Edge x.succs) entry a b)
    (T : Toured x plan entry idom out seen [] r t.state.body) (hclean : Clean x plan r t.state.body [])
    (m : Mirrors plan [] t.state) (hnodup : bs.Nodup)
    (hbs : ∀ b ∈ bs, b ∈ x.order ∧ b ∉ seen ∧ ¬Reachable (Edge x.succs) entry b ∧ Settling x plan seen b) :
    ∃ t' out' r', bs.forM (Renaming.unreached plan) t = .ok () t' ∧
      Toured x plan entry idom out' (seen ++ bs) [] r' t'.state.body ∧ Clean x plan r' t'.state.body [] := by
  have hends : Ends True (bs.forM (Renaming.unreached plan)) t _ := unreached_ends (P := fun bs t => ∃ out r,
    Toured x plan entry idom out (seen ++ bs) [] r t.state.body ∧ Clean x plan r t.state.body [] ∧
      Mirrors plan [] t.state) hnodup ⟨out, r, by simpa using T, hclean, m⟩ ?_
  · obtain ⟨t', hrun⟩ := hends.1 trivial
    obtain ⟨out', r', T', hclean', -⟩ := hends.2 t' hrun
    exact ⟨t', out', r', hrun, T', hclean'⟩
  · rintro b hmem done t ⟨out, r, T, hclean, m⟩ hdone
    obtain ⟨horder, hseen, hnot, ho⟩ := hbs b hmem
    have hb : b ∉ seen ++ done := by simp [hseen, hdone]
    have hready : ∀ pre i post, x.nonPhis b = pre ++ i :: post → Ready x plan (fun d => r.gone d ∨ d ∈ pre) i :=
      fun _ _ _ => T.ready_of_settling hplan.toHeaded ho
    refine ⟨fun _ => exists_enter hplan hunused hfilled horder T.renames m hclean (T.rest b hb (by simp))
      hready false, fun t₁ henter => ?_⟩
    have habove : idom b = none :=
      Option.eq_none_iff_forall_ne_some.2 fun a ha => hnot (hidom a b ha).1.2.reachable
    obtain ⟨r₁, h₁, he, m₁⟩ := enter_sound hplan.toHeaded T.renames m henter
    obtain ⟨T', hclean'⟩ := T.enter hplan hidom hb (fun a ha => absurd ha.2.reachable hnot) hready hclean
      (inherited_of_none habove).symm he
    obtain ⟨top, rfl, hown⟩ := he.pushes
    rw [append_assoc] at T'
    exact ⟨_, r₁, T', hclean'.subset (by simp), m₁.leave hown (by simp)⟩

end Promotion

end MethodIR
