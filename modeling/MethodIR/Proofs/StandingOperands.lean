import MethodIR.Proofs.CompletedRenaming
import MethodIR.Proofs.PromotedWalks

/-!
# What stands for operands

What stands for an operand has been evaluated where it is used, or is at least in a block
(`Promotion.Completed.seen_of_rest`, `attached_of_rest`), by one induction over a block
(`Promotion.Renamed.carry`).
-/

namespace MethodIR.Promotion

open List FlowGraph DepthFirst Body Option

variable {x y : Body} {plan : RenamingPlan} {entry a b c : BlockId} {r : Record} {i j d φ : InstId}
  {is js pre post ks : List InstId} {v : VarId} {u w : Value} {ρ ρ' : Values} {ty : Ty}
  {idom : BlockId → Option BlockId} {out : BlockId → Values} {seen others : List BlockId}
  {A : List InstId → Value → Prop}

/-! ## Along a block -/

/-- A property of values after some of the instructions of a block, which stays when more instructions
follow, and which what stands for an operand has if what stands for the instructions before does. -/
structure Carries (x : Body) (r : Record) (b : BlockId) (A : List InstId → Value → Prop) : Prop where
  undef : ∀ ks ty, A ks (.undef ty)
  mono : ∀ ks k w, A ks w → A (ks ++ [k]) w
  latest : ∀ ks, ∀ k ∈ r.rest b, A (ks ++ [k]) (.inst k)
  operand : ∀ pre i post ks, x.nonPhis b = pre ++ i :: post →
    (∀ d ∈ pre, (∀ v, x.kind d ≠ .storeVar v) → A ks (r.sub (.inst d))) →
    ∀ u ∈ (x.inst i).operands, A ks (r.sub u)

/-- All that stands for something after the instructions `pre` of a block, which have become `ks`, has
the property. -/
structure Carried (x : Body) (r : Record) (A : List InstId → Value → Prop) (pre ks : List InstId)
    (ρ : Values) : Prop where
  insts : ∀ d ∈ pre, (∀ v, x.kind d ≠ .storeVar v) → A ks (r.sub (.inst d))
  vars : ∀ v, A ks (held x ρ v)

section

variable (h : Carried x r A pre ks ρ)
include h

lemma Carried.mono (hA : Carries x r b A) (k : InstId) : Carried x r A pre (ks ++ [k]) ρ :=
  ⟨fun d hd hno => hA.mono ks k _ (h.insts d hd hno), fun v => hA.mono ks k _ (h.vars v)⟩

lemma Carried.snoc (hi : (∀ v, x.kind i ≠ .storeVar v) → A ks (r.sub (.inst i))) :
    Carried x r A (pre ++ [i]) ks ρ := by
  refine ⟨fun d hd hno => ?_, h.vars⟩
  rcases mem_append.1 hd with hd | hd
  · exact h.insts d hd hno
  · rw [mem_singleton.1 hd] at hno ⊢
    exact hi hno

lemma Carried.assign (hk : x.kind i = .storeVar v) (hw : A ks w) :
    Carried x r A (pre ++ [i]) ks (Function.update ρ v (some w)) := by
  refine ⟨(h.snoc fun hno => absurd hk (hno v)).insts, fun v' => ?_⟩
  by_cases hv : v' = v
  · subst hv
    simpa [held] using hw
  · simpa [held, hv] using h.vars v'

end

lemma forall_split_cons {P : List InstId → InstId → Prop} (hfirst : P [] j)
    (hrest : ∀ js₁ k js₂, js = js₁ ++ k :: js₂ → P (j :: js₁) k) (js₁ : List InstId) (k : InstId)
    (js₂ : List InstId) (hsplit : j :: js = js₁ ++ k :: js₂) : P js₁ k := by
  cases js₁ with
  | nil =>
    obtain ⟨rfl, -⟩ := cons.inj hsplit
    exact hfirst
  | cons l js₁ =>
    obtain ⟨rfl, htail⟩ := cons.inj hsplit
    exact hrest js₁ k js₂ htail

/-- The instructions of a block take the property along, and the operands of what they have become have
it. -/
lemma Renamed.carry (hR : Renamed x plan r y b ρ is js ρ') (hA : Carries x r b A)
    (hr : Renames x plan r y) (hplan : Headed x plan)
    (hlist : x.nonPhis b = pre ++ is) (hrest : r.rest b = ks ++ js) (h : Carried x r A pre ks ρ) :
    Carried x r A (pre ++ is) (ks ++ js) ρ' ∧
      ∀ js₁ k js₂, js = js₁ ++ k :: js₂ → ∀ u ∈ (y.inst k).operands, A (ks ++ js₁) u := by
  induction hR generalizing pre ks with
  | nil => exact ⟨by simpa using h, by simp⟩
  | @other _ _ i is js hk rest ih =>
    have hi : i ∈ x.nonPhis b := by simp [hlist]
    have hnext : x.nonPhis b = (pre ++ [i]) ++ is := by simpa using hlist
    have hrest' : r.rest b = (ks ++ [i]) ++ js := by simpa using hrest
    have hin := hplan.hasInst_of_nonPhis hi
    have hops : ∀ u ∈ (y.inst i).operands, A ks u := by
      intro u hu
      rw [hr.operands_of_rest hplan hin (b := b) (by simp [hrest])] at hu
      obtain ⟨u', hu', rfl⟩ := mem_map.1 hu
      exact hA.operand pre i is ks hlist h.insts u' hu'
    have hself : A (ks ++ [i]) (r.sub (.inst i)) := by
      rw [hr.sub_of_not_concerns hk]
      exact hA.latest ks i (by simp [hrest])
    obtain ⟨hend, hall⟩ := ih hnext hrest' ((h.mono hA i).snoc fun _ => hself)
    refine ⟨by simpa using hend, forall_split_cons (by simpa using hops) ?_⟩
    simpa using hall
  | @load _ _ i is js v hk hv hw firm rest ih =>
    have hnext : x.nonPhis b = (pre ++ [i]) ++ is := by simpa using hlist
    obtain ⟨hend, hall⟩ := ih hnext hrest (h.snoc fun _ => hw ▸ h.vars v)
    exact ⟨by simpa using hend, hall⟩
  | @store _ _ i is js v u us hk hv hops firm hty rest ih =>
    have hnext : x.nonPhis b = (pre ++ [i]) ++ is := by simpa using hlist
    have hu := hA.operand pre i is ks hlist h.insts u (by simp [hops])
    obtain ⟨hend, hall⟩ := ih hnext hrest (h.assign hk hu)
    exact ⟨by simpa using hend, hall⟩
  | @narrow _ _ i j is js v u us hk hv hops firm hty new has hj rest ih =>
    have hnext : x.nonPhis b = (pre ++ [i]) ++ is := by simpa using hlist
    have hrest' : r.rest b = (ks ++ [j]) ++ js := by simpa using hrest
    have hu := hA.operand pre i is ks hlist h.insts u (by simp [hops])
    obtain ⟨hend, hall⟩ := ih hnext hrest' ((h.mono hA j).assign hk (hA.latest ks j (by simp [hrest])))
    refine ⟨by simpa using hend, forall_split_cons (fun u' hu' => ?_) (by simpa using hall)⟩
    rw [operands_of_bare hj] at hu'
    rw [mem_singleton.1 hu']
    simpa using hu

/-! ## Blocks that control reaches -/

lemma Toured.weaken (T : Toured x plan entry idom out (seen ++ others) [] r y)
    (hup : ∀ b ∈ seen, ∀ a, Dominates (Edge x.succs) entry a b → a ∈ seen) :
    Toured x plan entry idom out seen others r y where
  renames := T.renames
  upward := hup
  rest b hb hb' := T.rest b (by simp [hb, hb']) (by simp)
  left b hb := T.left b (.inl (mem_append.2 hb))
  renamed b hb := T.renamed b (mem_append_left _ hb)
  firm b hb := T.firm b (mem_append_left _ hb)
  args φ v c hφ hblock := by
    rw [T.args_eq hφ hblock, filter_append, map_append]
    exact ⟨_, rfl, by simp [Function.comp_def]⟩

def Within (x : Body) (entry : BlockId) (pre : List InstId) (d : InstId) : Prop := ∃ c, d ∈ x.instsOf c ∧
    ((∃ v, x.kind d = .loadVar v) → Reachable (Edge x.succs) entry c ∨ d ∈ pre)

/-- All blocks of a body with placed phis have been renamed: those that control reaches and the
others. -/
structure Completed (x : Body) (plan : RenamingPlan) (entry : BlockId)
    (idom : BlockId → Option BlockId) (out : BlockId → Values) (seen others : List BlockId)
    (r : Record) (y : Body) : Prop where
  planned : Planned x plan
  toured : Toured x plan entry idom out (seen ++ others) [] r y
  clean : Clean x plan r y []
  unused : x.StoresUnused
  seen_iff : ∀ b, b ∈ seen ↔ Reachable (Edge x.succs) entry b
  others_iff : ∀ b, b ∈ others ↔ b ∈ x.order ∧ b ∉ seen
  nodup : (seen ++ others).Nodup
  order : ∀ b, Reachable (Edge x.succs) entry b → b ∈ x.order
  idom_iff : ∀ a b, idom b = some a ↔ IsIdom (Edge x.succs) entry a b
  exists_idom : ∀ b, Reachable (Edge x.succs) entry b → b ≠ entry → ∃ d, IsIdom (Edge x.succs) entry d b
  known : ∀ b, Reachable (Edge x.succs) entry b → ∀ pre i post d, x.nonPhis b = pre ++ i :: post →
    .inst d ∈ (x.inst i).operands → Seen x entry b pre d
  within : ∀ b ∈ others, ∀ pre i post d, x.nonPhis b = pre ++ i :: post →
    .inst d ∈ (x.inst i).operands → Within x entry pre d

/-- What stands for the results of a block and for the variables at its end is there at its end. -/
structure Gives (x : Body) (entry : BlockId) (out : BlockId → Values) (r : Record) (y : Body)
    (a : BlockId) : Prop where
  insts : ∀ d ∈ x.instsOf a, (∀ v, x.kind d ≠ .storeVar v) → Above y entry a (r.sub (.inst d))
  vars : ∀ v, Above y entry a (held x (out a) v)

section Reached

variable (C : Completed x plan entry idom out seen others r y) (hb : Reachable (Edge x.succs) entry b)
  (hup : ∀ a, StrictlyDominates (Edge x.succs) entry a b → Gives x entry out r y a)

include C hb hup

lemma Completed.carries_seen : Carries x r b fun ks w => ∀ d, w = .inst d → Seen y entry b ks d where
  undef ks ty d hd := by simp at hd
  mono ks k w hw d hd := (hw d hd).mono k
  latest ks k _ d hd := by
    obtain rfl := Value.inst.inj hd
    exact .inr (.inl (by simp))
  operand pre i post ks hsplit hpre u hu d hd := by
    have hr := C.toured.renames
    have hsuccs : y.succs = x.succs := funext hr.graph.succs
    by_cases hinst : ∃ k, u = .inst k
    · obtain ⟨k, rfl⟩ := hinst
      have hno := C.unused i k hu
      rcases C.known b hb pre i post k hsplit hu with hphi | hmem | ⟨a, hmem, hdom⟩
      · rw [hr.sub_of_mem_phis hphi] at hd
        obtain rfl := Value.inst.inj hd
        rw [← hr.phis C.planned (C.order b hb)] at hphi
        exact .inl hphi
      · exact hpre k hmem hno d hd
      · refine ((hup a hdom).insts k hmem hno).seen ?_ d hd
        rwa [hsuccs]
    · have hsettled : Settled x plan.accesses u := fun k _ hk _ => absurd ⟨k, hk⟩ hinst
      rw [hr.settled u hsettled] at hd
      exact absurd ⟨d, hd⟩ hinst

lemma Completed.carried_opening : Carried x r (fun ks w => ∀ d, w = .inst d → Seen y entry b ks d) [] []
      (opening x plan (inherited idom out b) b) := by
  have hr := C.toured.renames
  have hsuccs : y.succs = x.succs := funext hr.graph.succs
  refine ⟨by simp, fun v d hd => ?_⟩
  rw [held, opening] at hd
  cases hφ : placedPhi? x plan b v with
  | some φ =>
    obtain rfl : φ = d := by simpa [hφ] using hd
    have hmem : φ ∈ x.phis b := mem_of_find?_eq_some hφ
    rw [← hr.phis C.planned (C.order b hb)] at hmem
    exact .inl hmem
  | none =>
    rw [hφ, map_none, none_or] at hd
    cases he : idom b with
    | none =>
      rw [inherited_of_none he] at hd
      simp at hd
    | some e =>
      rw [inherited_of_some he] at hd
      have hdom := ((C.idom_iff e b).1 he).1
      refine ((hup e hdom).vars v).seen ?_ d hd
      rwa [hsuccs]

lemma Completed.carry_reached :
    Carried x r (fun ks w => ∀ d, w = .inst d → Seen y entry b ks d) (x.nonPhis b) (r.rest b) (out b) ∧
      ∀ ks k post, r.rest b = ks ++ k :: post → ∀ d, .inst d ∈ (y.inst k).operands → Seen y entry b ks d := by
  obtain ⟨hend, hall⟩ := (C.toured.renamed b (mem_append_left _ ((C.seen_iff b).2 hb))).carry
    (C.carries_seen hb hup) C.toured.renames C.planned.toHeaded (nil_append _).symm
    (nil_append _).symm (C.carried_opening hb hup)
  exact ⟨by simpa using hend, fun ks k post hsplit d hd => by simpa using hall ks k post hsplit _ hd d rfl⟩

lemma Completed.gives_step : Gives x entry out r y b := by
  have hr := C.toured.renames
  have hb' : Reachable (Edge y.succs) entry b := by
    rwa [show y.succs = x.succs from funext hr.graph.succs]
  have hrest : ∀ k ∈ r.rest b, k ∈ y.instsOf b := fun k hk => by
    rw [hr.list]
    exact mem_append_right _ hk
  obtain ⟨hend, -⟩ := C.carry_reached hb hup
  refine ⟨fun d hd hno => ?_, fun v => above_of_seen hb' hrest (hend.vars v)⟩
  rw [← phis_append_nonPhis] at hd
  rcases mem_append.1 hd with hd | hd
  · rw [hr.sub_of_mem_phis hd]
    intro j hj
    obtain rfl := Value.inst.inj hj
    refine ⟨b, ?_, .refl hb'⟩
    rw [hr.list]
    exact mem_append_left _ hd
  · exact above_of_seen hb' hrest (hend.insts d hd hno)

end Reached

section

variable (C : Completed x plan entry idom out seen others r y) (hb : Reachable (Edge x.succs) entry b)
include C hb

lemma Completed.gives : Gives x entry out r y b := by
  -- all blocks above a block, by induction along immediate dominators
  suffices hall : ∀ a, Dominates (Edge x.succs) entry a b → Gives x entry out r y a from
    hall b (.refl hb)
  refine hb.idom_induction (motive := fun b => ∀ a, Dominates (Edge x.succs) entry a b →
    Gives x entry out r y a) C.exists_idom (fun a ha => ?_) fun e b he ih a ha => ?_
  · obtain rfl : a = entry := ha.antisymm (root_dominates ha.reachable_left)
    exact C.gives_step ha.reachable_left fun a ha => absurd ha not_strictlyDominates_root
  · have hup : ∀ a, StrictlyDominates (Edge x.succs) entry a b → Gives x entry out r y a :=
      fun a ha => ih a (he.2 a ha)
    by_cases hab : a = b
    · subst hab
      exact C.gives_step ha.reachable_left hup
    · exact hup a ⟨hab, ha⟩

lemma Completed.seen_of_rest (hsplit : r.rest b = ks ++ j :: post)
    (hd : .inst d ∈ (y.inst j).operands) : Seen y entry b ks d :=
  (C.carry_reached hb fun _ ha => C.gives ha.2.reachable_left).2 ks j post hsplit d hd

end

/-! ## All blocks -/

def Housed (y : Body) (w : Value) : Prop := ∀ d, w = .inst d → ∃ c, d ∈ y.instsOf c

lemma Above.housed (h : Above y entry a w) : Housed y w := by
  intro d hd
  obtain ⟨c, hc, -⟩ := h d hd
  exact ⟨c, hc⟩

section All

variable (C : Completed x plan entry idom out seen others r y)

include C

lemma Completed.standing (hin : x.hasInst d) (hgone : ¬r.gone d) :
    (y.inst d).block = (x.inst d).block ∧ (y.inst d).isRemoved = (x.inst d).isRemoved := by
  have hr := C.toured.renames
  cases hφ : plan.phis.lookup d with
  | some v =>
    have hblock := block_of_bare (hr.phi d v hφ)
    have hremoved := isRemoved_of_bare (hr.phi d v hφ)
    exact ⟨hblock, hremoved⟩
  | none =>
    have hblock := block_of_bare (hr.kept d hin hgone hφ)
    have hremoved := isRemoved_of_bare (hr.kept d hin hgone hφ)
    exact ⟨hblock, hremoved⟩

lemma Completed.housed_of_not_gone (hd : d ∈ x.instsOf c) (hgone : ¬r.gone d) : Housed y (.inst d) := by
  rintro _ ⟨⟩
  refine ⟨c, (C.toured.renames.attached.mem_iff c d).2 ?_⟩
  rw [(C.standing (C.planned.attached.hasInst hd) hgone).1]
  exact (C.planned.attached.mem_iff c d).1 hd

lemma Completed.carry_others (hb : b ∈ others) : Carried x r (fun _ => Housed y) (x.nonPhis b) (r.rest b) (out b) ∧
      ∀ ks k post, r.rest b = ks ++ k :: post → ∀ u ∈ (y.inst k).operands, Housed y u := by
  have hr := C.toured.renames
  have hlist : ∀ k, k ∈ x.phis b ∨ k ∈ r.rest b → Housed y (.inst k) := by
    rintro k hk _ ⟨⟩
    refine ⟨b, ?_⟩
    rw [hr.list]
    exact mem_append.2 hk
  have hA : Carries x r b fun _ => Housed y := by
    refine ⟨by simp [Housed], fun _ _ _ hw => hw, fun _ k hk => hlist k (.inr hk), ?_⟩
    intro pre i post _ hsplit hpre u hu
    by_cases hinst : ∃ k, u = .inst k
    · obtain ⟨k, rfl⟩ := hinst
      have hno := C.unused i k hu
      obtain ⟨c, hc, hload⟩ := C.within b hb pre i post k hsplit hu
      by_cases hk : ∃ v, x.kind k = .loadVar v
      · rcases hload hk with hreach | hmem
        · exact ((C.gives hreach).insts k hc hno).housed
        · exact hpre k hmem hno
      · have hacc : plan.accesses.concerns (x.kind k) = false := by
          by_contra hacc
          obtain ⟨v, -, hkind⟩ := plan.accesses.exists_of_concerns (by simpa using hacc)
          exact hk ⟨v, hkind.resolve_right (hno v)⟩
        rw [hr.sub_of_not_concerns hacc]
        exact C.housed_of_not_gone hc fun hg => by simp [(hr.lost k hg).1] at hacc
    · have hsettled : Settled x plan.accesses u := fun k _ hk _ => absurd ⟨k, hk⟩ hinst
      rw [hr.settled u hsettled]
      exact fun d hd => absurd ⟨d, hd⟩ hinst
  have habove : idom b = none := eq_none_iff_forall_ne_some.2 fun a ha =>
    ((C.others_iff b).1 hb).2 ((C.seen_iff b).2 ((C.idom_iff a b).1 ha).1.2.reachable)
  have hstart : Carried x r (fun _ => Housed y) [] [] (opening x plan (inherited idom out b) b) := by
    refine ⟨by simp, fun v => ?_⟩
    rw [held, opening, inherited_of_none habove]
    cases hφ : placedPhi? x plan b v with
    | some φ => exact hlist φ (.inl (mem_of_find?_eq_some hφ))
    | none => simp [Housed]
  obtain ⟨hend, hall⟩ := (C.toured.renamed b (mem_append_right _ hb)).carry hA hr C.planned.toHeaded
    (nil_append _).symm (nil_append _).symm hstart
  exact ⟨by simpa using hend, by simpa using hall⟩

lemma Completed.housed_of_gone (hk : x.kind d = .loadVar v) (hgone : r.gone d) :
    Housed y (r.sub (.inst d)) := by
  have hno : ∀ v', x.kind d ≠ .storeVar v' := by simp [hk]
  obtain ⟨b, hblock, hb⟩ := C.toured.home C.planned.toHeaded hgone
  have hmem := (C.planned.attached.mem_iff b d).2 hblock
  rcases mem_append.1 (hb.resolve_right (by simp)) with hb | hb
  · exact ((C.gives ((C.seen_iff b).1 hb)).insts d hmem hno).housed
  · exact (C.carry_others hb).1.insts d (mem_nonPhis hmem (by rw [hk]; rfl)) hno

lemma Completed.housed_sub (hd : d ∈ x.instsOf c) (hno : ∀ v, x.kind d ≠ .storeVar v) :
    Housed y (r.sub (.inst d)) := by
  by_cases hgone : r.gone d
  · have hacc := (C.toured.renames.lost d hgone).1
    obtain ⟨v, -, hk⟩ := plan.accesses.exists_of_concerns hacc
    exact C.housed_of_gone (hk.resolve_right (hno v)) hgone
  · rw [C.clean.fresh d hgone]
    exact C.housed_of_not_gone hd hgone

lemma Completed.housed_of_arg {q : BlockId × Value} (hφ : plan.phis.lookup φ = some v)
    (hq : q ∈ r.args φ) : Housed y q.2 := by
  obtain ⟨c, hblock, -⟩ := C.planned.mem_phis hφ
  rw [C.toured.args_eq hφ hblock] at hq
  obtain ⟨p, hp, rfl⟩ := mem_map.1 hq
  rcases mem_append.1 (mem_filter.1 hp).1 with hmem | hmem
  · exact ((C.gives ((C.seen_iff p).1 hmem)).vars v).housed
  · exact (C.carry_others hmem).1.vars v

end All

end MethodIR.Promotion
