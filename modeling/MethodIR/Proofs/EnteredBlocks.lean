import MethodIR.Proofs.RenamedBlocks

/-!
# Entering a block

The placed phis of a block become current, its accesses are renamed, and the placed phis of its
successors get the values that are current at its end (`Entered`).
-/

namespace MethodIR.Promotion

open List Tables Success Traced Renaming Body Option

variable {x y y' : Body} {plan : RenamingPlan} {r r' r'' : Record} {φ ψ : InstId} {l l' : List InstId}
  {b c : BlockId} {v : VarId} {h h' : Pushes} {ρ : Values} {t t' : Trace Renaming}
  {reachable : Bool}

/-! ## The phis of a block -/

def heading (plan : RenamingPlan) (b : BlockId) (φ : InstId) : Pushes :=
  ((plan.phis.lookup φ).map fun v => (b, v, .inst φ)).toList

def headings (plan : RenamingPlan) (b : BlockId) (l : List InstId) : Pushes := l.reverse.flatMap (heading plan b)

lemma headings_cons : headings plan b (φ :: l) = headings plan b l ++ heading plan b φ := by
  simp [headings]

lemma mem_headings {d : BlockId × VarId × Value} : d ∈ headings plan b l ↔
    ∃ φ ∈ l, ∃ v, plan.phis.lookup φ = some v ∧ d = (b, v, .inst φ) := by
  simp only [headings, heading, mem_flatMap, mem_reverse, mem_toList, map_eq_some_iff]
  grind

lemma Renames.headings_eq (hr : Renames x plan r y) (hplan : Headed x plan) :
    headings plan b (y.phis b) = headings plan b (x.phis b) := by
  rw [hr.phis_eq hplan, headings, reverse_append, flatMap_append]
  refine append_left_eq_self.2 (flatMap_eq_nil_iff.2 fun i hi => ?_)
  simp [heading, hr.lookup_of_rest hplan (takeWhile_subset _ (mem_reverse.1 hi))]

lemma headings_spec (hplan : Headed x plan) (m : Mirrors plan h t.state) (b : BlockId)
    (l : List InstId) : ∃ t', (l.forM fun φ => do
      if let some v := plan.phis.lookup φ then modifyState (push b v (.inst φ)) :
        Traced Renaming Unit) t = .ok () t' ∧
      t'.state.body = t.state.body ∧ Mirrors plan (headings plan b l ++ h) t'.state := by
  induction l generalizing t h with
  | nil => exact ⟨t, rfl, rfl, m⟩
  | cons φ l ih =>
    cases hφ : plan.phis.lookup φ with
    | none =>
      obtain ⟨t', hrun, hbody, m'⟩ := ih m
      refine ⟨t', bind_iff.2 ⟨(), t, ?_, hrun⟩, hbody, ?_⟩
      · simp only [hφ]
        rfl
      · rwa [headings_cons, heading, hφ, map_none, toList_none, append_nil]
    | some v =>
      obtain ⟨t', hrun, hbody, m'⟩ :=
        ih (t := ⟨push b v (.inst φ) t.state, t.log⟩) (m.push (hplan.promotable φ v hφ) b (.inst φ))
      refine ⟨t', bind_iff.2 ⟨(), _, ?_, hrun⟩, hbody, ?_⟩
      · simp only [hφ]
        exact modifyState_iff.2 rfl
      · rwa [headings_cons, heading, hφ, map_some, toList_some, append_assoc]

lemma current_headings (plan : RenamingPlan) (b : BlockId) (l : List InstId) (h : Pushes) (v : VarId) :
    (∃ φ ∈ l, plan.phis.lookup φ = some v ∧ current (headings plan b l ++ h) v = some (.inst φ)) ∨
      (∀ φ ∈ l, plan.phis.lookup φ ≠ some v) ∧ current (headings plan b l ++ h) v = current h v := by
  rw [current, findSome?_append]
  cases hsome : (headings plan b l).findSome? fun d => if d.2.1 = v then some d.2.2 else none with
  | none =>
    refine .inr ⟨fun φ hφ hv => ?_, by rw [none_or]; rfl⟩
    have hnone := findSome?_eq_none_iff.1 hsome _ (mem_headings.2 ⟨φ, hφ, v, hv, rfl⟩)
    simp at hnone
  | some w =>
    obtain ⟨d, hd, hw⟩ := exists_of_findSome?_eq_some hsome
    obtain ⟨φ, hφ, v', hv', rfl⟩ := mem_headings.1 hd
    split at hw
    · rename_i heq
      obtain rfl := some.inj hw
      exact .inl ⟨φ, hφ, heq ▸ hv', rfl⟩
    · simp at hw

/-! ## The phis of the successors -/

def handed (x : Body) (plan : RenamingPlan) (b : BlockId) (ρ : Values) (φ : InstId) : List (BlockId × Value) :=
  ((plan.phis.lookup φ).map fun v => (b, held x ρ v)).toList

inductive Passed (x : Body) (plan : RenamingPlan) (b : BlockId) (ρ : Values) :
    List InstId → Record → Body → Record → Body → Prop
  | nil (r : Record) (y : Body) : Passed x plan b ρ [] r y r y
  | pass {φ : InstId} {v : VarId} {l : List InstId} {r r' : Record} {y y' : Body}
      (hφ : plan.phis.lookup φ = some v) (hvalue : y.hasValue (held x ρ v))
      (rest : Passed x plan b ρ l (r.addArg φ b (held x ρ v)) (y.pushArg φ b (held x ρ v)) r' y') :
      Passed x plan b ρ (φ :: l) r y r' y'

lemma Passed.append {y'' : Body} (hp : Passed x plan b ρ l r y r' y') (hp' : Passed x plan b ρ l' r' y' r'' y'') :
    Passed x plan b ρ (l ++ l') r y r'' y'' := by
  induction hp with
  | nil => exact hp'
  | pass hφ hvalue _ ih => exact .pass hφ hvalue (ih hp')

lemma Passed.spec (hp : Passed x plan b ρ l r y r' y') (hr : Renames x plan r y)
    (hplan : Headed x plan) (hl : l.Nodup) : Advance x plan b id r y r' y' ∧ r'.rest = r.rest ∧ r'.gone = r.gone ∧
      y'.insts.size = y.insts.size ∧ ∀ ψ, r'.args ψ = r.args ψ ++ if ψ ∈ l then handed x plan b ρ ψ else [] := by
  induction hp with
  | nil => exact ⟨.refl hr b, rfl, rfl, rfl, by simp⟩
  | @pass φ v l r _ y _ hφ hvalue _ ih =>
    obtain ⟨hr₁, k₁, hsize₁⟩ := hr.addPhiArg hplan hφ hvalue b
    obtain ⟨hnot, hnodup⟩ := nodup_cons.1 hl
    obtain ⟨hadv, hrest, hgone, hsize, hargs⟩ := ih hr₁ hnodup
    have hself : ∀ ψ, (r.addArg φ b (held x ρ v)).args ψ =
        r.args ψ ++ if ψ = φ then [(b, held x ρ v)] else [] := by
      intro ψ
      by_cases hψ : ψ = φ
      · subst hψ
        simp [Record.addArg]
      · simp [Record.addArg, hψ]
    have hadv₁ : Advance x plan b id r y (r.addArg φ b (held x ρ v)) (y.pushArg φ b (held x ρ v)) := by
      refine ⟨k₁, hr₁, fun _ _ => rfl, fun ψ => ⟨if ψ = φ then [(b, held x ρ v)] else [], ?_,
        fun a ha => ?_⟩⟩
      · rw [hself]
        simp
      · split at ha
        · rw [mem_singleton.1 ha]
        · simp at ha
    refine ⟨hadv₁.trans hadv, hrest, hgone, hsize.trans hsize₁, fun ψ => ?_⟩
    rw [hargs, hself]
    by_cases hψ : ψ = φ
    · subst hψ
      simp [handed, hφ, hnot]
    · simp [hψ]

lemma passTo_of_none (hφ : plan.phis.lookup φ = none) : passTo plan b φ t = .ok () t' ↔ t = t' := by
  rw [passTo, hφ]
  simp

lemma passTo_eq_ok_iff (hφ : plan.phis.lookup φ = some v) : passTo plan b φ t = .ok () t' ↔
    ∃ w, w = (t.state.current? v).getD (.undef (t.state.body.var v).ty) ∧
      t.state.body.hasInst φ ∧ (t.state.body.kind φ).isPhi ∧ t.state.body.hasValue w ∧
      t' = ⟨{ t.state with body := t.state.body.pushArg φ b w }, t.log⟩ := by
  rw [passTo, hφ]
  simp only [getState_bind_iff, edit_iff, Edit.addPhiArg_iff]
  constructor
  · rintro ⟨_, ⟨hin, hphi, hvalue, rfl⟩, rfl⟩
    exact ⟨_, rfl, hin, hphi, hvalue, rfl⟩
  · rintro ⟨_, rfl, hin, hphi, hvalue, rfl⟩
    exact ⟨_, ⟨hin, hphi, hvalue, rfl⟩, rfl⟩

lemma passTo_of_some (hr : Renames x plan r t.state.body) (hplan : Headed x plan)
    (m : Mirrors plan h t.state) (hφ : plan.phis.lookup φ = some v) :
    passTo plan b φ t = .ok () t' ↔ t.state.body.hasValue (held x (current h) v) ∧
      t' = ⟨{ t.state with body := t.state.body.pushArg φ b (held x (current h) v) }, t.log⟩ := by
  have hin : t.state.body.hasInst φ := hasInst_of_le hr.size (hplan.hasInst hφ)
  have hphi : (t.state.body.kind φ).isPhi := by
    rw [kind_of_bare (hr.phi φ v hφ)]
    rfl
  have hheld : (t.state.current? v).getD (.undef (t.state.body.var v).ty) =
      held x (current h) v := by rw [held, m.current?, hr.graph.var]
  rw [passTo_eq_ok_iff hφ, hheld]
  simp [hin, hphi]

section

variable (hplan : Headed x plan) (hr : Renames x plan r t.state.body) (m : Mirrors plan h t.state)
include hplan hr m

lemma passAll_sound (hrun : l.forM (passTo plan b) t = .ok () t') :
    ∃ r', Passed x plan b (current h) (l.filter fun φ => (plan.phis.lookup φ).isSome) r t.state.body r' t'.state.body ∧
      Renames x plan r' t'.state.body ∧ Mirrors plan h t'.state := by
  induction l generalizing t r with
  | nil =>
    obtain ⟨-, rfl⟩ := pure_iff.1 hrun
    exact ⟨r, .nil _ _, hr, m⟩
  | cons φ l ih =>
    obtain ⟨⟨⟩, t₁, hfirst, hrun⟩ := bind_iff.1 hrun
    cases hφ : plan.phis.lookup φ with
    | none =>
      obtain rfl := (passTo_of_none hφ).1 hfirst
      obtain ⟨r', hp, hr', m'⟩ := ih hr m hrun
      exact ⟨r', by rwa [filter_cons_of_neg (by simp [hφ])], hr', m'⟩
    | some v =>
      obtain ⟨hvalue, rfl⟩ := (passTo_of_some hr hplan m hφ).1 hfirst
      obtain ⟨hr₁, -, -⟩ := hr.addPhiArg hplan hφ hvalue b
      obtain ⟨r', hp, hr', m'⟩ := ih (t := ⟨{ t.state with body := _ }, _⟩) hr₁ (m.withBody _) hrun
      exact ⟨r', by rw [filter_cons_of_pos (by simp [hφ])]; exact .pass hφ hvalue hp, hr', m'⟩

lemma passAll_progress (hvalue : ∀ v, t.state.body.hasValue (held x (current h) v))
    (b : BlockId) (l : List InstId) : ∃ t', l.forM (passTo plan b) t = .ok () t' := by
  induction l generalizing t r with
  | nil => exact ⟨t, rfl⟩
  | cons φ l ih =>
    cases hφ : plan.phis.lookup φ with
    | none =>
      obtain ⟨t', hrun⟩ := ih hr m hvalue
      exact ⟨t', bind_iff.2 ⟨(), t, (passTo_of_none hφ).2 rfl, hrun⟩⟩
    | some v =>
      obtain ⟨hr₁, -, hsize⟩ := hr.addPhiArg hplan hφ (hvalue v) b
      obtain ⟨t', hrun⟩ := ih (t := ⟨{ t.state with body := _ }, t.log⟩) hr₁ (m.withBody _)
        fun v' => hr.hasValue_mono hr₁ hsize.ge (hvalue v')
      exact ⟨t', bind_iff.2 ⟨(), _, (passTo_of_some hr hplan m hφ).2 ⟨hvalue v, rfl⟩, hrun⟩⟩

end

def placedPhis (plan : RenamingPlan) (x : Body) (b : BlockId) : List InstId :=
  (x.phis b).filter fun φ => (plan.phis.lookup φ).isSome

def heirs (x : Body) (plan : RenamingPlan) (b : BlockId) : List InstId := (x.succs b).flatMap (placedPhis plan x)

lemma Renames.placedPhis_eq (hr : Renames x plan r y) (hplan : Headed x plan) :
    placedPhis plan y c = placedPhis plan x c := by
  rw [placedPhis, hr.phis_eq hplan, filter_append]
  refine append_right_eq_self.2 (filter_eq_nil_iff.2 fun i hi => ?_)
  simp [hr.lookup_of_rest hplan (takeWhile_subset _ hi)]

section

variable (hplan : Headed x plan)
include hplan

lemma Headed.block_of_placed (hφ : φ ∈ placedPhis plan x c) : (x.inst φ).block = some c :=
  (hplan.attached.mem_iff c φ).1 (takeWhile_subset _ (mem_filter.1 hφ).1)

lemma Headed.placedPhis_nodup (c : BlockId) : (placedPhis plan x c).Nodup :=
  ((hplan.attached.nodup c).sublist (takeWhile_sublist _)).filter _

lemma Headed.heirs_nodup (b : BlockId) : (heirs x plan b).Nodup := by
  refine nodup_flatMap.2 ⟨fun c _ => hplan.placedPhis_nodup c, ?_⟩
  refine (hplan.succs_nodup b).imp fun {c d} hne φ hc hd => hne ?_
  exact some.inj ((hplan.block_of_placed hc).symm.trans (hplan.block_of_placed hd))

lemma mem_heirs (hφ : plan.phis.lookup φ = some v)
    (hc : (x.inst φ).block = some c) : φ ∈ heirs x plan b ↔ c ∈ x.succs b := by
  obtain ⟨d, hd, hmem⟩ := hplan.mem_phis hφ
  obtain rfl : c = d := some.inj (hc.symm.trans hd)
  rw [heirs, mem_flatMap]
  constructor
  · rintro ⟨d, hd, hφd⟩
    rwa [some.inj (hc.symm.trans (hplan.block_of_placed hφd))]
  · exact fun hc => ⟨c, hc, mem_filter.2 ⟨hmem, by simp [hφ]⟩⟩

end

def passOn (plan : RenamingPlan) (b : BlockId) (succs : List BlockId) : Traced Renaming Unit :=
  succs.forM fun succ => do ((← getState).body.phis succ).forM (passTo plan b)

section

variable (hplan : Headed x plan) (hr : Renames x plan r t.state.body) (m : Mirrors plan h t.state)
include hplan hr m

lemma passOn_sound {succs : List BlockId} (hrun : passOn plan b succs t = .ok () t') :
    ∃ r', Passed x plan b (current h) (succs.flatMap (placedPhis plan x)) r t.state.body r' t'.state.body ∧
      Renames x plan r' t'.state.body ∧ Mirrors plan h t'.state := by
  induction succs generalizing t r with
  | nil =>
    obtain ⟨-, rfl⟩ := pure_iff.1 hrun
    exact ⟨r, .nil _ _, hr, m⟩
  | cons c succs ih =>
    obtain ⟨⟨⟩, t₁, hfirst, hrun⟩ := bind_iff.1 hrun
    replace hfirst := getState_bind_iff.1 hfirst
    obtain ⟨r₁, hp₁, hr₁, m₁⟩ := passAll_sound hplan hr m hfirst
    obtain ⟨r', hp', hr', m'⟩ := ih hr₁ m₁ hrun
    rw [← placedPhis, hr.placedPhis_eq hplan] at hp₁
    exact ⟨r', hp₁.append hp', hr', m'⟩

lemma passOn_progress (hvalue : ∀ v, t.state.body.hasValue (held x (current h) v)) (b : BlockId)
    (succs : List BlockId) : ∃ t', passOn plan b succs t = .ok () t' := by
  induction succs generalizing t r with
  | nil => exact ⟨t, rfl⟩
  | cons c succs ih =>
    obtain ⟨t₁, hfirst⟩ := passAll_progress hplan hr m hvalue b (t.state.body.phis c)
    obtain ⟨r₁, hp₁, hr₁, m₁⟩ := passAll_sound hplan hr m hfirst
    rw [← placedPhis, hr.placedPhis_eq hplan] at hp₁
    have hsize := (hp₁.spec hr hplan (hplan.placedPhis_nodup c)).2.2.2.1.ge
    obtain ⟨t', hrun⟩ := ih hr₁ m₁ fun v => hr.hasValue_mono hr₁ hsize (hvalue v)
    exact ⟨t', bind_iff.2 ⟨(), t₁, getState_bind_iff.2 hfirst, hrun⟩⟩

end

lemma Renames.firm_phi (hr : Renames x plan r y) (hplan : Headed x plan) (hφ : φ ∈ x.phis b) :
    Firm x plan y (.inst φ) := by
  refine ⟨hasInst_of_le hr.size (hplan.attached.hasInst (takeWhile_subset _ hφ)), fun i hi => ?_⟩
  obtain rfl := Value.inst.inj hi
  have hisPhi := isPhi_of_mem_phis hφ
  by_contra hacc
  rw [plan.accesses.isPhi_of_concerns (by simpa using hacc)] at hisPhi
  simp at hisPhi

lemma Clean.headings (hc : Clean x plan r y h) (hr : Renames x plan r y) (hplan : Headed x plan)
    (b : BlockId) : Clean x plan r y (headings plan b (x.phis b) ++ h) := by
  refine ⟨hc.fresh, hc.loads, fun d hd => ?_, hc.args, hc.insts⟩
  rcases mem_append.1 hd with hd | hd
  · obtain ⟨φ, hφ, v, -, rfl⟩ := mem_headings.1 hd
    exact hr.firm_phi hplan hφ
  · exact hc.pushes d hd

/-! ## The whole block -/

def Entered (x : Body) (plan : RenamingPlan) (b : BlockId) (r : Record) (y : Body) (h : Pushes)
    (r' : Record) (y' : Body) (h' : Pushes) : Prop :=
  ∃ r₁ y₁, Chain x plan b (r.rest b) r y (headings plan b (x.phis b) ++ h) r₁ y₁ h' ∧
    Passed x plan b (current h') (heirs x plan b) r₁ y₁ r' y'

def pushPhis (plan : RenamingPlan) (b : BlockId) (l : List InstId) : Traced Renaming Unit :=
  l.forM fun φ => do if let some v := plan.phis.lookup φ then modifyState (push b v (.inst φ))

lemma enter_iff : enter plan reachable b t = .ok () t' ↔ ∃ t₁ t₂,
    pushPhis plan b (t.state.body.phis b) t = .ok () t₁ ∧
    (t.state.body.instsOf b).forM (access plan reachable b) t₁ = .ok () t₂ ∧
    passOn plan b (t.state.body.succs b) t₂ = .ok () t' := by
  rw [enter, getState_bind_iff]
  simp only [bind_iff]
  constructor
  · rintro ⟨⟨⟩, t₁, h₁, ⟨⟩, t₂, h₂, h₃⟩
    exact ⟨t₁, t₂, h₁, h₂, h₃⟩
  · rintro ⟨t₁, t₂, h₁, h₂, h₃⟩
    exact ⟨(), t₁, h₁, (), t₂, h₂, h₃⟩

lemma access_phis (hl : ∀ φ ∈ l, (t.state.body.kind φ).isPhi) :
    l.forM (access plan reachable b) t = .ok () t' ↔ t = t' := by
  induction l with
  | nil => exact pure_iff.trans (by simp)
  | cons φ l ih =>
    have hφ := hl φ (by simp)
    have hfirst : ∀ t₁, access plan reachable b φ t = .ok () t₁ ↔ t = t₁ := by
      intro t₁
      rw [access_iff]
      cases hk : t.state.body.kind φ <;> simp_all [Kind.isPhi]
    refine bind_iff.trans ⟨?_, ?_⟩
    · rintro ⟨⟨⟩, t₁, h₁, h₂⟩
      obtain rfl := (hfirst t₁).1 h₁
      exact (ih fun ψ hψ => hl ψ (by simp [hψ])).1 h₂
    · rintro rfl
      exact ⟨(), t, (hfirst t).2 rfl, (ih fun ψ hψ => hl ψ (by simp [hψ])).2 rfl⟩

section Enter

variable (hplan : Headed x plan) (hr : Renames x plan r t.state.body) (m : Mirrors plan h t.state)

include hplan hr m

lemma enter_iff_of_renames (reachable : Bool) : ∃ t₁ : Trace Renaming,
    pushPhis plan b (t.state.body.phis b) t = .ok () t₁ ∧ t₁.state.body = t.state.body ∧
    Mirrors plan (headings plan b (x.phis b) ++ h) t₁.state ∧ ∀ t', enter plan reachable b t = .ok () t' ↔
      ∃ t₂, (r.rest b).forM (access plan reachable b) t₁ = .ok () t₂ ∧
        passOn plan b (x.succs b) t₂ = .ok () t' := by
  obtain ⟨t₁, hpush, hbody, m₁⟩ := headings_spec hplan m b (t.state.body.phis b)
  have hisPhi : ∀ φ ∈ x.phis b, (t₁.state.body.kind φ).isPhi := by
    intro φ hφ
    rw [hbody, hr.isPhi_eq hplan (hplan.attached.hasInst (takeWhile_subset _ hφ))]
    exact isPhi_of_mem_phis hφ
  refine ⟨t₁, hpush, hbody, hr.headings_eq hplan ▸ m₁, fun t' => ?_⟩
  rw [enter_iff, hr.list, hr.graph.succs]
  have hpush' : ∀ t₂, pushPhis plan b (t.state.body.phis b) t = .ok () t₂ ↔ t₁ = t₂ := by
    intro t₂
    rw [pushPhis, hpush]
    simp
  simp only [hpush', forM_append_iff]
  constructor
  · rintro ⟨_, t₂, rfl, ⟨t₃, hphi, hrun⟩, hpass⟩
    obtain rfl := (access_phis hisPhi).1 hphi
    exact ⟨t₂, hrun, hpass⟩
  · rintro ⟨t₂, hrun, hpass⟩
    exact ⟨t₁, t₂, rfl, ⟨t₁, (access_phis hisPhi).2 rfl, hrun⟩, hpass⟩

lemma enter_sound (hrun : enter plan reachable b t = .ok () t') :
    ∃ r' h', Entered x plan b r t.state.body h r' t'.state.body h' ∧ Mirrors plan h' t'.state := by
  obtain ⟨t₁, -, hbody, m₁, hiff⟩ := enter_iff_of_renames hplan hr m reachable
  obtain ⟨t₂, haccess, hpass⟩ := (hiff t').1 hrun
  rw [← hbody] at hr ⊢
  obtain ⟨r₁, h', hchain, m₂⟩ := chain_sound hplan hr m₁ (nil_append _).symm haccess
  obtain ⟨τ, -, hadv, -⟩ := hchain.advance hr hplan (nil_append _).symm
  obtain ⟨r', hp, -, m'⟩ := passOn_sound hplan hadv.renames m₂ hpass
  exact ⟨r', h', ⟨r₁, _, hchain, hp⟩, m'⟩

end Enter

section Entered

variable (he : Entered x plan b r y h r' y' h') (hr : Renames x plan r y) (hplan : Headed x plan)

include he

lemma Entered.pushes : ∃ top, h' = top ++ h ∧ ∀ d ∈ top, d.1 = b := by
  obtain ⟨r₁, y₁, hchain, -⟩ := he
  obtain ⟨top, rfl, htop⟩ := hchain.pushes
  refine ⟨top ++ headings plan b (x.phis b), by simp, fun d hd => ?_⟩
  rcases mem_append.1 hd with hd | hd
  · exact htop d hd
  · obtain ⟨φ, -, v, -, rfl⟩ := mem_headings.1 hd
    rfl

include hr hplan

lemma Entered.advance : ∃ τ, Advance x plan b τ r y r' y' ∧
    (r'.rest b).filter (x.hasInst ·) = remaining x plan (r.rest b) ∧ ∀ ψ, r'.args ψ = (r.args ψ).map (fun a => (a.1, τ a.2)) ++
      if ψ ∈ heirs x plan b then handed x plan b (current h') ψ else [] := by
  obtain ⟨r₁, y₁, hchain, hp⟩ := he
  obtain ⟨τ, js, hadv, hjs, hold, hargs⟩ := hchain.advance hr hplan (nil_append _).symm
  obtain ⟨hadv', hrest', -, -, hargs'⟩ := hp.spec hadv.renames hplan (hplan.heirs_nodup b)
  rw [nil_append] at hjs
  refine ⟨_, hadv.trans hadv', by rw [hrest', hjs, hold], fun ψ => ?_⟩
  rw [hargs', hargs]
  rfl

lemma Entered.renamed (hclean : Clean x plan r y h) (hready : ∀ pre i post, r.rest b = pre ++ i :: post →
      Ready x plan (fun d => r.gone d ∨ d ∈ pre) i) :
    ∃ τ, Advance x plan b τ r y r' y' ∧ Clean x plan r' y' h' ∧
      Renamed x plan r' y' b (current (headings plan b (x.phis b) ++ h)) (r.rest b) (r'.rest b) (current h') ∧
      ∀ ψ, r'.args ψ = (r.args ψ).map (fun a => (a.1, τ a.2)) ++
        if ψ ∈ heirs x plan b then handed x plan b (current h') ψ else [] := by
  obtain ⟨r₁, y₁, hchain, hp⟩ := he
  obtain ⟨τ, js, hadv, hjs, hargs, hclean₁, hR, -⟩ :=
    hchain.renamed hr hplan (nil_append _).symm (hclean.headings hr hplan b) hready
  obtain ⟨hadv', hrest', hgone', hsize, hargs'⟩ := hp.spec hadv.renames hplan (hplan.heirs_nodup b)
  rw [nil_append] at hjs
  refine ⟨_, hadv.trans hadv', ?_, ?_, fun ψ => ?_⟩
  · refine hclean₁.advance hadv.renames hadv' (fun _ _ => rfl) (fun i v _ hi hnot => ?_)
      (fun ψ new heq a ha => ?_) (fun j hj u hu => ?_)
    · exact absurd (hgone' ▸ hi) hnot
    · rw [hargs'] at heq
      have hnew : new = if ψ ∈ heirs x plan b then handed x plan b (current h') ψ else [] := by
        simpa using heq.symm
      rw [hnew] at ha
      split at ha
      · rw [handed, mem_toList, map_eq_some_iff] at ha
        obtain ⟨v, -, rfl⟩ := ha
        exact (hclean₁.held v).mono hadv.renames hadv'.renames hadv'.later.size
      · simp at ha
    · rw [operands_of_not_hasInst (by simp [hasInst, hsize, hj])] at hu
      simp at hu
  · rw [hrest', hjs]
    exact hR.later hadv'.later hadv.renames hadv'.renames
  · rw [hargs', hargs]
    rfl

end Entered

end MethodIR.Promotion
