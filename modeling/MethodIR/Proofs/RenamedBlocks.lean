import MethodIR.Proofs.RenamedAccesses

/-!
# Renaming one block

The instructions of a block lead from the values of variables at its start to those at its end
(`Renamed`), and that stays when other blocks are renamed.
-/

namespace MethodIR.Promotion

open List Tables Success Traced Renaming Body Function Accesses

/-- With the record `r` of a body that has become `y`, the instructions `is` of block `b` have become
`js`, and lead from some values of variables to others. -/
inductive Renamed (x : Body) (plan : RenamingPlan) (r : Record) (y : Body) (b : BlockId) :
    Values → List InstId → List InstId → Values → Prop
  | nil (ρ : Values) : Renamed x plan r y b ρ [] [] ρ
  | other {ρ ρ' : Values} {i : InstId} {is js : List InstId} (hk : plan.accesses.concerns (x.kind i) = false)
      (rest : Renamed x plan r y b ρ is js ρ') : Renamed x plan r y b ρ (i :: is) (i :: js) ρ'
  | load {ρ ρ' : Values} {i : InstId} {is js : List InstId} {v : VarId}
      (hk : x.kind i = .loadVar v) (hv : plan.accesses.isPromotable v)
      (hw : r.sub (.inst i) = held x ρ v)
      (firm : Firm x plan y (r.sub (.inst i)))
      (rest : Renamed x plan r y b ρ is js ρ') : Renamed x plan r y b ρ (i :: is) js ρ'
  | store {ρ ρ' : Values} {i : InstId} {is js : List InstId} {v : VarId} {u : Value}
      {us : List Value} (hk : x.kind i = .storeVar v) (hv : plan.accesses.isPromotable v)
      (hops : (x.inst i).operands = u :: us) (firm : Firm x plan y (r.sub u))
      (hty : (x.var v).ty.narrows (y.valueTy (r.sub u)) = false)
      (rest : Renamed x plan r y b (update ρ v (some (r.sub u))) is js ρ') :
      Renamed x plan r y b ρ (i :: is) js ρ'
  | narrow {ρ ρ' : Values} {i j : InstId} {is js : List InstId} {v : VarId} {u : Value}
      {us : List Value} (hk : x.kind i = .storeVar v) (hv : plan.accesses.isPromotable v)
      (hops : (x.inst i).operands = u :: us) (firm : Firm x plan y (r.sub u))
      (hty : (x.var v).ty.narrows (y.valueTy (r.sub u)) = true)
      (new : x.insts.size ≤ j.index) (has : y.hasInst j)
      (hj : (y.inst j).bare = conversion (x.var v).ty (r.sub u) b)
      (rest : Renamed x plan r y b (update ρ v (some (.inst j))) is js ρ') :
      Renamed x plan r y b ρ (i :: is) (j :: js) ρ'

structure Advance (x : Body) (plan : RenamingPlan) (b : BlockId) (τ : Value → Value) (r : Record)
    (y : Body) (r' : Record) (y' : Body) : Prop where
  later : Later x plan τ r y r' y'
  renames : Renames x plan r' y'
  rest : ∀ c, c ≠ b → r'.rest c = r.rest c
  args : ∀ φ, ∃ new, r'.args φ = (r.args φ).map (fun a => (a.1, τ a.2)) ++ new ∧ ∀ a ∈ new, a.1 = b

structure Clean (x : Body) (plan : RenamingPlan) (r : Record) (y : Body) (h : Pushes) : Prop where
  fresh : ∀ i, ¬r.gone i → r.sub (.inst i) = .inst i
  loads : ∀ i v, x.kind i = .loadVar v → r.gone i → Firm x plan y (r.sub (.inst i))
  pushes : ∀ d ∈ h, Firm x plan y d.2.2
  args : ∀ φ, ∀ a ∈ r.args φ, Firm x plan y a.2
  insts : ∀ j, x.insts.size ≤ j.index → ∀ u ∈ (y.inst j).operands, Firm x plan y u

variable {x y y' y'' : Body} {plan : RenamingPlan} {r r' r'' : Record} {i j φ : InstId}
  {is js is' js' l : List InstId} {b c : BlockId} {v : VarId} {u w : Value} {us : List Value}
  {h h' : Pushes} {ρ ρ' ρ'' : Values} {τ τ' : Value → Value}

lemma Renamed.append (hR : Renamed x plan r y b ρ is js ρ') (hR' : Renamed x plan r y b ρ' is' js' ρ'') :
    Renamed x plan r y b ρ (is ++ is') (js ++ js') ρ'' := by
  induction hR with
  | nil => exact hR'
  | other hk _ ih => exact .other hk (ih hR')
  | load hk hv hw firm _ ih => exact .load hk hv hw firm (ih hR')
  | store hk hv hops firm hty _ ih => exact .store hk hv hops firm hty (ih hR')
  | narrow hk hv hops firm hty new has hj _ ih =>
    exact .narrow hk hv hops firm hty new has hj (ih hR')

lemma Renamed.later (hR : Renamed x plan r y b ρ is js ρ') (k : Later x plan τ r y r' y')
    (hr : Renames x plan r y) (hr' : Renames x plan r' y') : Renamed x plan r' y' b ρ is js ρ' := by
  have hfix : ∀ u, Firm x plan y (r.sub u) →
      r'.sub u = r.sub u ∧ Firm x plan y' (r.sub u) ∧ y'.valueTy (r.sub u) = y.valueTy (r.sub u) :=
    fun u hu => ⟨(k.sub u).trans (k.settled _ hu.settled), hu.mono hr hr' k.size, k.valueTy hr hr' hu.1⟩
  induction hR with
  | nil => exact .nil _
  | other hk _ ih => exact .other hk ih
  | load hk hv hw firm _ ih =>
    obtain ⟨hsub, firm', -⟩ := hfix _ firm
    exact .load hk hv (hsub.trans hw) (hsub ▸ firm') ih
  | @store _ _ _ _ _ _ u _ hk hv hops firm hty _ ih =>
    obtain ⟨hsub, firm', hsame⟩ := hfix u firm
    rw [← hsub] at firm' hsame hty ih
    exact .store hk hv hops firm' (by rwa [hsame]) ih
  | @narrow _ _ _ j _ _ _ u _ hk hv hops firm hty new has hj _ ih =>
    obtain ⟨hsub, firm', hsame⟩ := hfix u firm
    have hj' := k.inst j new has
    rw [hj, operands_of_bare hj] at hj'
    simp only [conversion, map_cons, map_nil, k.settled _ firm.settled] at hj'
    rw [← hsub] at firm' hsame hty hj'
    exact .narrow hk hv hops firm' (by rwa [hsame]) new (hasInst_of_le k.size has) hj' ih

lemma Advance.refl (hr : Renames x plan r y) (b : BlockId) : Advance x plan b id r y r y :=
  ⟨.refl x plan r y, hr, fun _ _ => rfl, fun φ => ⟨[], by simp⟩⟩

lemma Advance.trans (ha : Advance x plan b τ r y r' y') (ha' : Advance x plan b τ' r' y' r'' y'') :
    Advance x plan b (τ' ∘ τ) r y r'' y'' := by
  refine ⟨ha.later.trans ha'.later, ha'.renames, fun c hc => ?_, fun φ => ?_⟩
  · rw [ha'.rest c hc, ha.rest c hc]
  · obtain ⟨new, hargs, hnew⟩ := ha.args φ
    obtain ⟨new', hargs', hnew'⟩ := ha'.args φ
    refine ⟨new.map (fun a => (a.1, τ' a.2)) ++ new', ?_, fun a hmem => ?_⟩
    · rw [hargs', hargs]
      simp [comp_def]
    · rcases mem_append.1 hmem with hmem | hmem
      · obtain ⟨a', ha', rfl⟩ := mem_map.1 hmem
        exact hnew a' ha'
      · exact hnew' a hmem

/-! ## One access -/

lemma Renames.rest_nodup (hr : Renames x plan r y) (b : BlockId) : (r.rest b).Nodup := by
  have hall := hr.attached.nodup b
  rw [hr.list] at hall
  exact hall.of_append_right

lemma erase_middle (hnodup : (js ++ i :: is).Nodup) : (js ++ i :: is).erase i = js ++ is := by
  have hnot : i ∉ js := fun hmem => (nodup_append.1 hnodup).2.2 i hmem i (by simp) rfl
  rw [erase_append_right _ hnot, erase_cons_head]

lemma middle_unique (hnodup : l.Nodup) (hl : l = js ++ i :: is)
    (hl' : l = js' ++ i :: is') : js = js' ∧ is = is' := by
  have hleft := takeWhile_ne_middle (hl ▸ hnodup)
  have hright := takeWhile_ne_middle (hl' ▸ hnodup)
  rw [← hl] at hleft
  rw [← hl'] at hright
  refine ⟨hleft.1.symm.trans hright.1, ?_⟩
  exact (cons.inj (hleft.2.symm.trans hright.2)).2

section Step

variable (hr : Renames x plan r y) (hplan : Headed x plan) (hrest : r.rest b = js ++ i :: is)

include hr hplan hrest

lemma Renames.takeOut (hacc : plan.accesses.concerns (x.kind i)) :
    Advance x plan b id r y (r.remove i b) (y.remove i) ∧ (r.remove i b).rest b = js ++ is ∧
      (y.remove i).insts.size = y.insts.size := by
  have hi : i ∈ r.rest b := by simp [hrest]
  have hsucc : (y.kind i).successors = [] := by
    rw [hr.kind_eq (plan.accesses.hasInst_of_concerns hacc) (hr.lookup_of_rest hplan hi)]
    exact plan.accesses.successors_of_concerns hacc
  obtain ⟨hr', k⟩ := hr.remove hplan hi hacc
  refine ⟨⟨k, hr', fun c hc => ?_, fun φ => ⟨[], by simp [Record.remove]⟩⟩, ?_,
    size_remove ((hr.attached.mem_iff b i).1 (hr.mem_instsOf hi)) hsucc⟩
  · simp [Record.remove, hc]
  · have hnodup := hr.rest_nodup b
    rw [hrest] at hnodup
    simp only [Record.remove, update_self, hrest]
    exact erase_middle hnodup

lemma Renames.putFor (hk : x.kind i = .loadVar v) (hv : plan.accesses.isPromotable v)
    (hne : w ≠ .inst i) (hvalue : y.uses (.inst i) = [] ∨ y.hasValue w) :
    Advance x plan b (.replace (.inst i) w) r y ((r.replace i w).remove i b)
        ((y.replaceUses (.inst i) w).remove i) ∧ ((r.replace i w).remove i b).rest b = js ++ is ∧
      ((y.replaceUses (.inst i) w).remove i).insts.size = y.insts.size := by
  have hacc : plan.accesses.concerns (x.kind i) := by rw [hk]; exact hv
  obtain ⟨hr₁, k₁⟩ := hr.replace hk hv hne hvalue
  have hadv : Advance x plan b _ r y (r.replace i w) _ :=
    ⟨k₁, hr₁, fun _ _ => rfl, fun φ => ⟨[], by simp [Record.replace]⟩⟩
  obtain ⟨hadv', hrest', hsize⟩ := hr₁.takeOut hplan hrest hacc
  exact ⟨hadv.trans hadv', hrest', hsize.trans (size_replaceUses hr.uses rfl hne hvalue)⟩

lemma Renames.cutDown (hk : x.kind i = .storeVar v) (hv : plan.accesses.isPromotable v)
    (hops : (x.inst i).operands = u :: us) :
    let z := (y.withInst b (x.phis b ++ js) (i :: is) (.convert false false) [r.sub u] (x.var v).ty).remove i
    let r' := (r.setRest b (js ++ ⟨y.insts.size⟩ :: i :: is)).remove i b
    Advance x plan b id r y r' z ∧ r'.rest b = js ++ [⟨y.insts.size⟩] ++ is ∧ z.insts.size = y.insts.size + 1 ∧
      (z.inst ⟨y.insts.size⟩).bare = conversion (x.var v).ty (r.sub u) b := by
  have hacc : plan.accesses.concerns (x.kind i) := by rw [hk]; exact hv
  have hi : i ∈ r.rest b := by simp [hrest]
  have hvalue : y.hasValue (r.sub u) := by
    refine hr.uses.hasValue (i := i) ?_
    rw [hr.operands_of_rest hplan (plan.accesses.hasInst_of_concerns hacc) hi, hops]
    simp
  obtain ⟨hr₁, k₁⟩ := hr.convert hplan (x.var v).ty (hasBlock_of_mem (hr.mem_instsOf hi)) hrest.symm hvalue
  have hnew : ((y.withInst b (x.phis b ++ js) (i :: is) (.convert false false) [r.sub u]
      (x.var v).ty).inst ⟨y.insts.size⟩).bare = conversion (x.var v).ty (r.sub u) b := by
    rw [inst_withInst, if_pos rfl]
    rfl
  have hsize : (y.withInst b (x.phis b ++ js) (i :: is) (.convert false false) [r.sub u]
      (x.var v).ty).insts.size = y.insts.size + 1 := size_withInst
  generalize y.withInst b (x.phis b ++ js) (i :: is) (.convert false false) [r.sub u]
    (x.var v).ty = y₁ at hr₁ k₁ hnew hsize
  have hadv : Advance x plan b id r y (r.setRest b (js ++ ⟨y.insts.size⟩ :: i :: is)) y₁ :=
    ⟨k₁, hr₁, fun c hc => by simp [Record.setRest, hc], fun φ => ⟨[], by simp [Record.setRest]⟩⟩
  have hplace : (r.setRest b (js ++ ⟨y.insts.size⟩ :: i :: is)).rest b =
      (js ++ [⟨y.insts.size⟩]) ++ i :: is := by simp [Record.setRest]
  obtain ⟨hadv', hrest', hsize'⟩ := hr₁.takeOut hplan hplace hacc
  refine ⟨hadv.trans hadv', hrest', hsize'.trans hsize, ?_⟩
  have hlast := hadv'.later.inst ⟨y.insts.size⟩ hr.size (by simp [hasInst, hsize])
  rw [hlast, map_id]
  exact hnew

end Step

/-- The instructions that renaming leaves where they are. -/
def remaining (x : Body) (plan : RenamingPlan) (is : List InstId) : List InstId :=
  is.filter fun i => x.hasInst i && !plan.accesses.concerns (x.kind i)

lemma remaining_idem (hl : l.filter (x.hasInst ·) = remaining x plan is) :
    remaining x plan l = remaining x plan is := by
  have hfilter : remaining x plan l = remaining x plan (l.filter (x.hasInst ·)) := by
    rw [remaining, remaining, filter_filter]
    refine filter_congr fun i _ => ?_
    cases x.hasInst i <;> simp
  rw [hfilter, hl]
  simp [remaining]

lemma Accessed.advance (ha : Accessed x plan b i r y h r' y' h') (hr : Renames x plan r y)
    (hplan : Headed x plan) (hrest : r.rest b = js ++ i :: is) :
    ∃ τ js', Advance x plan b τ r y r' y' ∧ r'.rest b = js ++ js' ++ is ∧
      js'.filter (x.hasInst ·) = remaining x plan [i] ∧ ∀ φ, r'.args φ = (r.args φ).map fun a => (a.1, τ a.2) := by
  cases ha with
  | other hk => exact ⟨id, [i], .refl hr b, by simp [hrest], by simp [remaining, filter_cons, hk], by simp⟩
  | load hk hv hw hne hvalue =>
    obtain ⟨hadv, hrest', -⟩ := hr.putFor hplan hrest hk hv hne hvalue
    exact ⟨_, [], hadv, by simpa using hrest', by simp [remaining, hk, concerns, hv], fun _ => rfl⟩
  | store hk hv hops huses hty =>
    obtain ⟨hadv, hrest', -⟩ := hr.takeOut hplan hrest (by rw [hk]; exact hv)
    exact ⟨id, [], hadv, by simpa using hrest', by simp [remaining, hk, concerns, hv],
      by simp [Record.remove]⟩
  | narrow hk hv hops huses hty hsplit =>
    obtain ⟨rfl, rfl⟩ := middle_unique (hr.rest_nodup b) hrest hsplit
    obtain ⟨hadv, hrest', -⟩ := hr.cutDown hplan hrest hk hv hops
    have hnew : ¬x.hasInst ⟨y.insts.size⟩ := by simpa [hasInst] using hr.size
    exact ⟨id, _, hadv, hrest', by simp [remaining, hk, concerns, hv, hnew],
      by simp [Record.remove, Record.setRest]⟩

lemma Clean.advance (hc : Clean x plan r y h) (hr : Renames x plan r y)
    (ha : Advance x plan b τ r y r' y') (hfresh : ∀ i, ¬r'.gone i → τ (.inst i) = .inst i)
    (hloads : ∀ i v, x.kind i = .loadVar v → r'.gone i → ¬r.gone i → Firm x plan y' (r'.sub (.inst i)))
    (hargs : ∀ φ new, r'.args φ = (r.args φ).map (fun a => (a.1, τ a.2)) ++ new → ∀ a ∈ new, Firm x plan y' a.2)
    (hinsts : ∀ j, y.insts.size ≤ j.index → ∀ u ∈ (y'.inst j).operands, Firm x plan y' u) :
    Clean x plan r' y' h := by
  have hkeep : ∀ w, Firm x plan y w → τ w = w ∧ Firm x plan y' w := fun w hw =>
    ⟨ha.later.settled w hw.settled, hw.mono hr ha.renames ha.later.size⟩
  refine ⟨fun i hi => ?_, fun i v hk hi => ?_, fun d hd => (hkeep _ (hc.pushes d hd)).2,
    fun φ a hmem => ?_, fun j hj u hu => ?_⟩
  · rw [ha.later.sub, hc.fresh i fun hg => hi (ha.later.gone i hg), hfresh i hi]
  · by_cases hg : r.gone i
    · obtain ⟨hsame, hfirm⟩ := hkeep _ (hc.loads i v hk hg)
      rwa [ha.later.sub, hsame]
    · exact hloads i v hk hi hg
  · obtain ⟨new, hsplit, -⟩ := ha.args φ
    rw [hsplit] at hmem
    rcases mem_append.1 hmem with hmem | hmem
    · obtain ⟨a', ha', rfl⟩ := mem_map.1 hmem
      obtain ⟨hsame, hfirm⟩ := hkeep _ (hc.args φ a' ha')
      rwa [hsame]
    · exact hargs φ new hsplit a hmem
  · by_cases hin : y.hasInst j
    · rw [operands_of_bare (ha.later.inst j hj hin)] at hu
      obtain ⟨u', hu', rfl⟩ := mem_map.1 hu
      obtain ⟨hsame, hfirm⟩ := hkeep _ (hc.insts j hj u' hu')
      rwa [hsame]
    · exact hinsts j (by simpa [hasInst] using hin) u hu

lemma Clean.push (hc : Clean x plan r y h) (hw : Firm x plan y w) (b : BlockId) (v : VarId) :
    Clean x plan r y ((b, v, w) :: h) := by
  refine ⟨hc.fresh, hc.loads, fun d hd => ?_, hc.args, hc.insts⟩
  rcases mem_cons.1 hd with rfl | hd
  · exact hw
  · exact hc.pushes d hd

lemma Clean.held (hc : Clean x plan r y h) (v : VarId) : Firm x plan y (held x (current h) v) := by
  rw [Promotion.held]
  cases hv : current h v with
  | none => exact firm_undef x plan y _
  | some w =>
    obtain ⟨d, hd, hsome⟩ := exists_of_findSome?_eq_some hv
    split at hsome
    · obtain rfl := Option.some.inj hsome
      exact hc.pushes d hd
    · simp at hsome

lemma current_cons_eq : current ((b, v, w) :: h) = update (current h) v (some w) := by
  funext v'
  rw [current_cons, update_apply]

def Ready (x : Body) (plan : RenamingPlan) (gone : InstId → Prop) (i : InstId) : Prop :=
  plan.accesses.concerns (x.kind i) → ∀ u ∈ (x.inst i).operands, ∀ d, u = .inst d →
    plan.accesses.concerns (x.kind d) → (∃ v, x.kind d = .loadVar v) ∧ gone d

lemma ready_tail {gone gone' : InstId → Prop}
    (hready : ∀ pre j post, i :: is = pre ++ j :: post → Ready x plan (fun d => gone d ∨ d ∈ pre) j)
    (hgone : ∀ d, gone d → gone' d) (hi : plan.accesses.concerns (x.kind i) → gone' i)
    (pre : List InstId) (j : InstId) (post : List InstId) (hsplit : is = pre ++ j :: post) :
    Ready x plan (fun d => gone' d ∨ d ∈ pre) j := by
  -- What stands before a later instruction of the rest stands before it with `i` in front.
  intro hacc u hu d hd hdacc
  obtain ⟨hload, hmem⟩ := hready (i :: pre) j post (by simp [hsplit]) hacc u hu d hd hdacc
  refine ⟨hload, ?_⟩
  rcases hmem with hg | hmem
  · exact .inl (hgone d hg)
  · rcases mem_cons.1 hmem with rfl | hmem
    · exact .inl (hi hdacc)
    · exact .inr hmem

lemma Clean.firm_sub (hc : Clean x plan r y h) (hr : Renames x plan r y) (hplan : Headed x plan)
    (hi : i ∈ r.rest b) (hacc : plan.accesses.concerns (x.kind i)) (hready : Ready x plan r.gone i)
    (hu : u ∈ (x.inst i).operands) : Firm x plan y (r.sub u) := by
  have hvalue : y.hasValue (r.sub u) := by
    refine hr.uses.hasValue (i := i) ?_
    rw [hr.operands_of_rest hplan (plan.accesses.hasInst_of_concerns hacc) hi]
    exact mem_map_of_mem hu
  by_cases hload : ∃ d, u = .inst d ∧ plan.accesses.concerns (x.kind d)
  · obtain ⟨d, rfl, hd⟩ := hload
    obtain ⟨⟨v, hk⟩, hg⟩ := hready hacc _ hu d rfl hd
    exact hc.loads d v hk hg
  · have hnot : ∀ d, u = .inst d → plan.accesses.concerns (x.kind d) = false := fun d hd => by
      simpa using fun hacc => hload ⟨d, hd, hacc⟩
    have hsettled : Settled x plan.accesses u := by
      intro d v hd hk
      have hno := hnot d hd
      rwa [hk] at hno
    rw [hr.settled u hsettled] at hvalue ⊢
    exact ⟨hvalue, hnot⟩

section

variable (ha : Accessed x plan b i r y h r' y' h')
include ha

lemma Accessed.renamed (hr : Renames x plan r y) (hplan : Headed x plan) (hrest : r.rest b = js ++ i :: is)
    (hc : Clean x plan r y h) (hready : Ready x plan r.gone i) :
    ∃ τ js', Advance x plan b τ r y r' y' ∧ r'.rest b = js ++ js' ++ is ∧
      (∀ φ, r'.args φ = (r.args φ).map fun a => (a.1, τ a.2)) ∧
      Clean x plan r' y' h' ∧ Renamed x plan r' y' b (current h) [i] js' (current h') ∧
      (plan.accesses.concerns (x.kind i) → r'.gone i) := by
  have hi : i ∈ r.rest b := by simp [hrest]
  have hgone := hr.not_gone (hr.mem_instsOf hi)
  have hargs : ∀ (xs : List (BlockId × Value)) new, xs = xs ++ new → ∀ a ∈ new,
      Firm x plan y' a.2 := by
    intro xs new heq a hmem
    rw [append_right_eq_self.1 heq.symm] at hmem
    simp at hmem
  cases ha with
  | other hk =>
    refine ⟨id, [i], .refl hr b, by simp [hrest], by simp, hc, .other hk (.nil _), fun hacc => ?_⟩
    simp [hk] at hacc
  | @load v w hk hv hw hne hvalue =>
    obtain ⟨hadv, hrest', hsize⟩ := hr.putFor hplan hrest hk hv hne hvalue
    have hsub : ((r.replace i w).remove i b).sub (.inst i) = w := by
      simp only [Record.remove, Record.replace]
      rw [hc.fresh i hgone, Value.replace_self]
    have hfirm : Firm x plan ((y.replaceUses (.inst i) w).remove i) w := by
      refine Firm.mono ?_ hr hadv.renames hadv.later.size
      rw [hw]
      exact hc.held v
    refine ⟨_, [], hadv, by simpa using hrest', fun _ => rfl, hc.advance hr hadv (fun j hj => ?_)
      (fun j v' hk' hj hgj => ?_) (fun φ new heq => ?_) (fun j hj u hu => ?_), ?_, fun _ => .inl rfl⟩
    · refine Value.replace_of_ne fun heq => hj (.inl ?_)
      exact Value.inst.inj heq
    · obtain rfl : j = i := hj.resolve_right hgj
      rwa [hsub]
    · simp only [Record.remove, Record.replace] at heq
      exact hargs _ new heq
    · rw [operands_of_not_hasInst (by simp [hasInst, hsize, hj])] at hu
      simp at hu
    · exact .load hk hv (hsub.trans hw) (by rwa [hsub]) (.nil _)
  | @store v u us hk hv hops huses hty =>
    have hacc : plan.accesses.concerns (x.kind i) := by rw [hk]; exact hv
    obtain ⟨hadv, hrest', hsize⟩ := hr.takeOut hplan hrest hacc
    have hfirm := hc.firm_sub hr hplan hi hacc hready (u := u) (by simp [hops])
    have hfirm' := hfirm.mono hr hadv.renames hadv.later.size
    have hclean : Clean x plan (r.remove i b) (y.remove i) h := by
      refine hc.advance hr hadv (fun _ _ => rfl) (fun j v' hk' hj hgj => ?_)
        (fun φ new heq => hargs (r.args φ) new (by simpa [Record.remove] using heq)) (fun j hj u hu => ?_)
      · obtain rfl : j = i := hj.resolve_right hgj
        simp [hk] at hk'
      · rw [operands_of_not_hasInst (by simp [hasInst, hsize, hj])] at hu
        simp at hu
    refine ⟨_, [], hadv, by simpa using hrest', by simp [Record.remove], hclean.push hfirm' b v, ?_, fun _ => .inl rfl⟩
    rw [current_cons_eq]
    rw [← hadv.later.valueTy hr hadv.renames hfirm.1] at hty
    exact .store hk hv hops hfirm' hty (.nil _)
  | @narrow v u us pre post hk hv hops huses hty hsplit =>
    obtain ⟨rfl, rfl⟩ := middle_unique (hr.rest_nodup b) hrest hsplit
    have hacc : plan.accesses.concerns (x.kind i) := by rw [hk]; exact hv
    obtain ⟨hadv, hrest', hsize, hnew⟩ := hr.cutDown hplan hrest hk hv hops
    have hfirm := hc.firm_sub hr hplan hi hacc hready (u := u) (by simp [hops])
    generalize (y.withInst b (x.phis b ++ js) (i :: is) (.convert false false) [r.sub u]
      (x.var v).ty).remove i = z at hadv hsize hnew hargs
    have hfirm' := hfirm.mono hr hadv.renames hadv.later.size
    have hin : z.hasInst ⟨y.insts.size⟩ := by simp [hasInst, hsize]
    have hfresh : Firm x plan z (.inst ⟨y.insts.size⟩) := by
      refine ⟨hin, fun j hj => ?_⟩
      obtain rfl := Value.inst.inj hj
      rw [kind, inst, getD_of_size_le _ _ _ hr.size]
      rfl
    have hclean : Clean x plan ((r.setRest b (js ++ ⟨y.insts.size⟩ :: i :: is)).remove i b) z h := by
      refine hc.advance hr hadv (fun _ _ => rfl) (fun j v' hk' hj hgj => ?_)
        (fun φ new heq => hargs (r.args φ) new (by simpa [Record.remove, Record.setRest] using heq))
        (fun j hj u' hu => ?_)
      · obtain rfl : j = i := hj.resolve_right hgj
        simp [hk] at hk'
      · by_cases hlast : j = ⟨y.insts.size⟩
        · rw [hlast, operands_of_bare hnew] at hu
          rw [mem_singleton.1 hu]
          exact hfirm'
        · have hgt : y.insts.size < j.index := lt_of_le_of_ne hj fun heq => hlast (InstId.ext heq.symm)
          rw [operands_of_not_hasInst (by simp [hasInst, hsize, hgt])] at hu
          simp at hu
    refine ⟨_, [⟨y.insts.size⟩], hadv, hrest', by simp [Record.remove, Record.setRest],
      hclean.push hfresh b v, ?_, fun _ => .inl rfl⟩
    rw [current_cons_eq]
    rw [← hadv.later.valueTy hr hadv.renames hfirm.1] at hty
    exact .narrow hk hv hops hfirm' hty hr.size hin hnew (.nil _)

lemma Accessed.pushes : ∃ top, h' = top ++ h ∧ ∀ d ∈ top, d.1 = b := by
  cases ha with
  | other => exact ⟨[], rfl, by simp⟩
  | load => exact ⟨[], rfl, by simp⟩
  | store => exact ⟨[_], rfl, by simp⟩
  | narrow => exact ⟨[_], rfl, by simp⟩

end

/-! ## The accesses of a block -/

inductive Chain (x : Body) (plan : RenamingPlan) (b : BlockId) :
    List InstId → Record → Body → Pushes → Record → Body → Pushes → Prop
  | nil (r : Record) (y : Body) (h : Pushes) : Chain x plan b [] r y h r y h
  | cons {i : InstId} {is : List InstId} {r r₁ r' : Record} {y y₁ y' : Body} {h h₁ h' : Pushes}
      (step : Accessed x plan b i r y h r₁ y₁ h₁) (rest : Chain x plan b is r₁ y₁ h₁ r' y' h') :
      Chain x plan b (i :: is) r y h r' y' h'

lemma Chain.pushes (hc : Chain x plan b is r y h r' y' h') : ∃ top, h' = top ++ h ∧ ∀ d ∈ top, d.1 = b := by
  induction hc with
  | nil => exact ⟨[], rfl, by simp⟩
  | cons step _ ih =>
    obtain ⟨top, rfl, htop⟩ := step.pushes
    obtain ⟨top', rfl, htop'⟩ := ih
    refine ⟨top' ++ top, by simp, fun d hd => ?_⟩
    exact (mem_append.1 hd).elim (htop' d) (htop d)

section

variable (hc : Chain x plan b is r y h r' y' h') (hr : Renames x plan r y) (hplan : Headed x plan)
  (hrest : r.rest b = js ++ is)
include hc hr hplan hrest

lemma Chain.advance : ∃ τ js', Advance x plan b τ r y r' y' ∧ r'.rest b = js ++ js' ∧
      js'.filter (x.hasInst ·) = remaining x plan is ∧ ∀ φ, r'.args φ = (r.args φ).map fun a => (a.1, τ a.2) := by
  induction hc generalizing js with
  | nil => exact ⟨id, [], .refl hr b, hrest, rfl, by simp⟩
  | @cons i is _ _ _ _ _ _ _ _ _ step _ ih =>
    obtain ⟨τ, js₁, hadv, hrest₁, hjs₁, hargs⟩ := step.advance hr hplan hrest
    obtain ⟨τ', js', hadv', hrest', hjs', hargs'⟩ := ih hadv.renames hrest₁
    refine ⟨_, js₁ ++ js', hadv.trans hadv', by rw [hrest', append_assoc], ?_, fun φ => ?_⟩
    · rw [filter_append, hjs₁, hjs']
      exact (filter_append [i] is).symm
    · rw [hargs', hargs]
      simp [comp_def]

lemma Chain.renamed (hclean : Clean x plan r y h) (hready : ∀ pre i post, is = pre ++ i :: post →
      Ready x plan (fun d => r.gone d ∨ d ∈ pre) i) :
    ∃ τ js', Advance x plan b τ r y r' y' ∧ r'.rest b = js ++ js' ∧
      (∀ φ, r'.args φ = (r.args φ).map fun a => (a.1, τ a.2)) ∧ Clean x plan r' y' h' ∧
      Renamed x plan r' y' b (current h) is js' (current h') ∧
      ∀ i ∈ is, plan.accesses.concerns (x.kind i) → r'.gone i := by
  induction hc generalizing js with
  | nil => exact ⟨id, [], .refl hr b, hrest, by simp, hclean, .nil _, by simp⟩
  | @cons i is r₀ r₁ _ _ _ _ _ _ _ step _ ih =>
    have hfirst : Ready x plan _ i := hready [] i is rfl
    simp only [not_mem_nil, or_false] at hfirst
    obtain ⟨τ, js₁, hadv, hrest₁, hargs₁, hclean₁, hR, hgone₁⟩ :=
      step.renamed hr hplan hrest hclean hfirst
    obtain ⟨τ', js', hadv', hrest', hargs', hclean', hR', hgone'⟩ :=
      ih hadv.renames hrest₁ hclean₁ (ready_tail hready hadv.later.gone hgone₁)
    refine ⟨_, js₁ ++ js', hadv.trans hadv', by rw [hrest', append_assoc], fun φ => ?_, hclean',
      (hR.later hadv'.later hadv.renames hadv'.renames).append hR', fun j hj hacc => ?_⟩
    · rw [hargs', hargs₁]
      simp [comp_def]
    rcases mem_cons.1 hj with rfl | hj
    · exact hadv'.later.gone j (hgone₁ hacc)
    · exact hgone' j hj hacc

end

lemma chain_sound {t t' : Trace Renaming} {reachable : Bool} (hplan : Headed x plan)
    (hr : Renames x plan r t.state.body) (m : Mirrors plan h t.state)
    (hrest : r.rest b = js ++ is)
    (hrun : is.forM (access plan reachable b) t = .ok () t') :
    ∃ r' h', Chain x plan b is r t.state.body h r' t'.state.body h' ∧ Mirrors plan h' t'.state := by
  induction is generalizing t r h js with
  | nil =>
    obtain ⟨-, rfl⟩ := pure_iff.1 hrun
    exact ⟨r, h, .nil _ _ _, m⟩
  | cons i is ih =>
    obtain ⟨⟨⟩, t₁, hfirst, hrun⟩ := bind_iff.1 hrun
    obtain ⟨r₁, h₁, step, m₁⟩ := access_sound hplan hr m (by simp [hrest]) hfirst
    obtain ⟨τ, js₁, hadv, hrest₁, -⟩ := step.advance hr hplan hrest
    obtain ⟨r', h', hchain, m'⟩ := ih hadv.renames m₁ hrest₁ hrun
    exact ⟨r', h', .cons step hchain, m'⟩

end MethodIR.Promotion
