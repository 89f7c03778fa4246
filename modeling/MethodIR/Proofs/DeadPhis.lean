import MethodIR.Promotion.DeadPhis
import MethodIR.Proofs.RenamedBodies

/-!
# Phis that are removed again

What uses a dead phi is a dead phi (`Promotion.deadPhis_closed`), so a body without its dead phis is the same body but
for them (`Promotion.Stripped`). They are those from which only inserted phis can be reached by way of users
(`Promotion.mem_deadPhis_iff`), and the body without them does not depend on any order, since it is determined by its
bare tables and its use lists (`Body.eq_of_bare`).
-/

namespace MethodIR

open List Tables Relation Body

namespace Body

variable {body : Body} {i j : InstId} {b : BlockId}

section Destroy

variable (hb : (body.inst i).block = some b) (hsucc : (body.kind i).successors = [])

include hb hsucc

lemma sameGraph_destroy : SameGraph body (body.destroy i) := by
  rw [destroy, detach_of_no_successors hb hsucc]
  exact (sameGraph_loosen.trans (sameShape_dropOperands.trans sameShape_replaceUses).sameGraph).trans
    (sameGraph_modifyInst _)

lemma size_destroy (h : body.ExactUses) : (body.destroy i).insts.size = body.insts.size := by
  have hremove : (body.remove i).insts.size = body.insts.size := size_remove hb hsucc
  have hexact : ((body.detach i).dropOperands i).ExactUses := h.detach.dropOperands
  rw [remove] at hremove
  rw [destroy, discard]
  generalize (body.detach i).dropOperands i = y at hremove hexact
  have hreplace : (y.replaceUses (.inst i) (.undef (y.inst i).ty)).insts.size = y.insts.size :=
    size_replaceUses hexact rfl (by simp) (.inr rfl)
  simp only [markRemoved, modifyInst, Array.size_modify] at hremove ⊢
  exact hreplace.trans hremove

lemma inst_destroy (h : body.ExactUses) (hin : body.hasInst i) : ((body.destroy i).inst j).bare =
    if j = i then (body.inst i).bare.removed
    else { (body.inst j).bare with
      operands := (body.inst j).operands.map (.replace (.inst i) (.undef (body.inst i).ty)) } := by
  have hremove : ∀ j, ((body.remove i).inst j).bare =
      if j = i then (body.inst i).bare.removed else (body.inst j).bare := fun j =>
    inst_remove hb hsucc hin
  have hsize : (body.remove i).insts.size = body.insts.size := size_remove hb hsucc
  have hexact : ((body.detach i).dropOperands i).ExactUses := h.detach.dropOperands
  rw [remove] at hsize
  simp only [remove] at hremove
  rw [destroy, discard]
  generalize (body.detach i).dropOperands i = y at hremove hsize hexact
  have hhas : y.hasInst i := by
    have hlt : i.index < body.insts.size := hasInst_iff.1 hin
    simp only [markRemoved, modifyInst, Array.size_modify] at hsize
    simpa [hasInst, hsize] using hlt
  have hother : j ≠ i → (y.inst j).bare = (body.inst j).bare := by
    intro hj
    have hj' := hremove j
    rwa [markRemoved, inst_modifyInst, if_neg fun heq => hj heq.1.symm, if_neg hj] at hj'
  have hself : { (y.inst i).bare with isRemoved := true } = (body.inst i).bare.removed := by
    have hi := hremove i
    rwa [markRemoved, inst_modifyInst, if_pos ⟨rfl, hhas⟩, if_pos rfl] at hi
  have hty : (y.inst i).ty = (body.inst i).ty := by injection hself
  have hops : (y.inst i).operands = [] := by injection hself
  have hinst : ∀ j, ((y.replaceUses (.inst i) (.undef (y.inst i).ty)).inst j).bare =
      { (y.inst j).bare with
        operands := (y.inst j).operands.map (.replace (.inst i) (.undef (y.inst i).ty)) } :=
    fun j => inst_replaceUses hexact rfl (by simp) (.inr rfl)
  have hsize' : (y.replaceUses (.inst i) (.undef (y.inst i).ty)).insts.size = y.insts.size :=
    size_replaceUses hexact rfl (by simp) (.inr rfl)
  generalize y.replaceUses (.inst i) (.undef (y.inst i).ty) = z at hinst hsize'
  have hhas' : z.hasInst i := by
    rw [hasInst, hsize']
    exact hhas
  rw [markRemoved, inst_modifyInst]
  by_cases hj : j = i
  · subst hj
    rw [if_pos ⟨rfl, hhas'⟩, if_pos rfl, ← hself]
    have hz := hinst j
    simp only [Inst.bare, Inst.mk.injEq] at hz ⊢
    simp [hz, hops]
  · rw [if_neg fun heq => hj heq.1.symm, if_neg hj, hinst, hty, hother hj, operands_of_bare (hother hj)]
    rfl

end Destroy

end Body

namespace Promotion

variable {body y z : Body} {undecided worklist phis dead ds : List InstId} {d φ i : InstId}
  {b : BlockId} {v : Value}

/-! ## Which phis are dead -/

lemma unreached_sublist : (unreached body undecided worklist).Sublist undecided := by
  fun_induction unreached body undecided worklist with
  | case1 undecided => exact .refl undecided
  | case2 _ _ _ _ _ ih => exact ih
  | case3 _ _ _ _ _ ih => exact ih.trans filter_sublist

lemma unreached_closed (hd : d ∈ unreached body undecided worklist)
    (hφ : φ ∈ worklist ∨ φ ∈ undecided ∧ φ ∉ unreached body undecided worklist) :
    .inst d ∉ (body.inst φ).operands := by
  fun_induction unreached body undecided worklist with
  | case1 undecided =>
    rcases hφ with hφ | ⟨hin, hout⟩
    · simp at hφ
    · exact absurd hin hout
  | case2 undecided ψ worklist new hnil ih =>
    intro hmem
    rcases hφ with hφ | hφ
    · rcases mem_cons.1 hφ with rfl | hφ
      · have hnew : d ∈ new := by
          simp only [new, mem_eraseDups, mem_filter, mem_filterMap]
          exact ⟨⟨.inst d, hmem, rfl⟩, by simpa using unreached_sublist.subset hd⟩
        simp [hnil] at hnew
      · exact ih hd (.inl hφ) hmem
    · exact ih hd (.inr hφ) hmem
  | case3 undecided ψ worklist new hnew ih =>
    intro hmem
    have hleft : ∀ c, c ∈ undecided.removeAll new ↔ c ∈ undecided ∧ c ∉ new := by
      simp [removeAll]
    rcases hφ with hφ | ⟨hin, hout⟩
    · rcases mem_cons.1 hφ with rfl | hφ
      · have hd' := (hleft d).1 (unreached_sublist.subset hd)
        refine hd'.2 ?_
        simp only [new, mem_eraseDups, mem_filter, mem_filterMap]
        exact ⟨⟨.inst d, hmem, rfl⟩, by simpa using hd'.1⟩
      · exact ih hd (.inl (mem_append_right _ hφ)) hmem
    · by_cases hφ : φ ∈ new
      · exact ih hd (.inl (mem_append_left _ hφ)) hmem
      · exact ih hd (.inr ⟨(hleft φ).2 ⟨hin, hφ⟩, hout⟩) hmem

lemma deadPhis_sublist : (deadPhis body phis).Sublist phis := by
  rw [deadPhis, partition_eq_filter_filter]
  exact unreached_sublist.trans filter_sublist

lemma deadPhis_closed (h : body.ExactUses) (hd : d ∈ deadPhis body phis)
    (hi : .inst d ∈ (body.inst i).operands) : i ∈ deadPhis body phis := by
  have huser : i ∈ body.users (.inst d) := (h.mem_users_iff rfl).2 hi
  rw [deadPhis, partition_eq_filter_filter] at hd ⊢
  have hrest := mem_filter.1 (unreached_sublist.subset hd)
  have hphi : i ∈ phis := by
    have hnot := hrest.2
    simp only [isUsedOutside, Function.comp_apply, Bool.not_eq_true', any_eq_false,
      decide_eq_true_eq, not_not] at hnot
    exact hnot i huser
  by_contra hout
  by_cases hused : isUsedOutside body phis i
  · exact unreached_closed hd (.inl (mem_filter.2 ⟨hphi, hused⟩)) hi
  · exact unreached_closed hd (.inr ⟨mem_filter.2 ⟨hphi, by simpa using hused⟩, hout⟩) hi

/-! ## The body without them -/

def blank (y : Body) (dead : List InstId) : Value → Value
  | .inst d => if d ∈ dead then .undef (y.inst d).ty else .inst d
  | v => v

lemma blank_of_not_mem (hv : ∀ d ∈ dead, v ≠ .inst d) : blank y dead v = v := by
  cases v with
  | inst d => exact if_neg fun hd => hv d hd rfl
  | _ => rfl

lemma blank_ne (hd : d ∈ dead) : blank y dead v ≠ .inst d := by
  cases v with
  | inst j =>
    by_cases hj : j ∈ dead
    · simp [blank, hj]
    · rw [blank, if_neg hj]
      exact fun heq => hj (Value.inst.inj heq ▸ hd)
  | _ => simp [blank]

/-- `z` is `y` without the phis of `dead`. -/
structure Stripped (y : Body) (dead : List InstId) (z : Body) : Prop where
  graph : y.SameGraph z
  attached : z.Attached
  uses : z.ExactUses
  size : z.insts.size = y.insts.size
  kept : ∀ i, i ∉ dead → (z.inst i).bare =
    { (y.inst i).bare with operands := (y.inst i).operands.map (blank y dead) }
  gone : ∀ i ∈ dead, (z.inst i).bare = (y.inst i).bare.removed
  list : ∀ b, z.instsOf b = (y.instsOf b).filter (· ∉ dead)

lemma Stripped.refl (hattached : y.Attached) (huses : y.ExactUses) : Stripped y [] y := by
  refine ⟨.refl y, hattached, huses, rfl, fun i _ => ?_, by simp, by simp⟩
  have hblank : blank y [] = id := funext fun v => blank_of_not_mem (by simp)
  rw [hblank, map_id]
  rfl

section

variable (h : Stripped y dead z)
include h

lemma Stripped.mem_instsOf : i ∈ z.instsOf b ↔ i ∈ y.instsOf b ∧ i ∉ dead := by
  rw [h.list, mem_filter, decide_eq_true_eq]

lemma Stripped.successors_eq_nil (hd : d ∉ dead) (hphi : (y.kind d).isPhi) : (z.kind d).successors = [] := by
  rw [kind_of_bare (h.kept d hd)]
  have hk : (y.kind d).successors = [] := by
    cases hkind : y.kind d <;> simp_all [Kind.isPhi, Kind.successors]
  exact hk

lemma Stripped.destroy (hd : d ∉ dead) (hphi : (y.kind d).isPhi)
    (hb : (y.inst d).block = some b) : Stripped y (dead ++ [d]) (z.destroy d) := by
  have hz := h.kept d hd
  have hblock : (z.inst d).block = some b := (block_of_bare hz).trans hb
  have hmem : d ∈ z.instsOf b := (h.attached.mem_iff b d).2 hblock
  have hin : z.hasInst d := h.attached.hasInst hmem
  have hsucc := h.successors_eq_nil hd hphi
  have hty : (z.inst d).ty = (y.inst d).ty := by
    rw [ty_of_bare hz]
    rfl
  have hinst : ∀ j, ((z.destroy d).inst j).bare = _ := fun j =>
    inst_destroy hblock hsucc h.uses hin
  refine ⟨h.graph.trans (sameGraph_destroy hblock hsucc), h.attached.destroy, h.uses.detach.discard,
    (size_destroy hblock hsucc h.uses).trans h.size, fun i hi => ?_, fun i hi => ?_, fun c => ?_⟩
  · rw [mem_append, mem_singleton, not_or] at hi
    rw [hinst, if_neg hi.2]
    have hi' := h.kept i hi.1
    have hops := operands_of_bare hi'
    rw [hi', hops, hty]
    simp only [List.map_map]
    congr 1
    refine map_congr_left fun v _ => ?_
    rw [Function.comp_apply]
    cases v with
    | inst j =>
      simp only [blank, mem_append, mem_singleton]
      by_cases hj : j ∈ dead
      · simp [hj, Value.replace]
      · by_cases hjd : j = d
        · simp [hjd, hd, Value.replace]
        · simp [hj, hjd, Value.replace]
    | _ => simp [blank, Value.replace]
  · rcases mem_append.1 hi with hi | hi
    · have hne : i ≠ d := fun heq => hd (heq ▸ hi)
      rw [hinst, if_neg hne]
      have hi' := h.gone i hi
      have hops : (z.inst i).operands = [] := operands_of_bare hi'
      rw [hi', hops]
      rfl
    · obtain rfl := mem_singleton.1 hi
      rw [hinst, if_pos rfl, hz]
      rfl
  · rw [Body.destroy, Body.samePlaces_discard.instsOf, h.attached.instsOf_detach, h.list, filter_filter]
    refine filter_congr fun i _ => ?_
    simp [and_comm]

lemma Stripped.foldl_destroy (hnodup : (dead ++ ds).Nodup)
    (hds : ∀ d ∈ ds, (y.kind d).isPhi ∧ ∃ b, (y.inst d).block = some b) :
    Stripped y (dead ++ ds) (ds.foldl (·.destroy ·) z) := by
  induction ds generalizing dead z with
  | nil => simpa using h
  | cons d ds ih =>
    obtain ⟨hphi, b, hb⟩ := hds d (by simp)
    have hd : d ∉ dead := fun hmem =>
      (nodup_append.1 hnodup).2.2 d hmem d (by simp) rfl
    have hnodup' : (dead ++ [d] ++ ds).Nodup := by simpa using hnodup
    have hnext := ih (h.destroy hd hphi hb) hnodup' fun e he => hds e (by simp [he])
    simpa using hnext

end

lemma removeDeadPhis_spec (hattached : y.Attached) (huses : y.ExactUses) (hnodup : phis.Nodup)
    (hphis : ∀ φ ∈ phis, (y.kind φ).isPhi ∧ ∃ b, (y.inst φ).block = some b) :
    Stripped y (deadPhis y phis) (removeDeadPhis y phis).2 ∧ ∀ i, i ∉ deadPhis y phis →
        ((removeDeadPhis y phis).2.inst i).bare = (y.inst i).bare := by
  have hstrip : Stripped y (deadPhis y phis) (removeDeadPhis y phis).2 := by
    refine (Stripped.refl hattached huses).foldl_destroy (hnodup.sublist deadPhis_sublist) ?_
    exact fun d hd => hphis d (deadPhis_sublist.subset hd)
  refine ⟨hstrip, fun i hi => ?_⟩
  have hmap : (y.inst i).operands.map (blank y (deadPhis y phis)) = (y.inst i).operands := by
    refine (map_congr_left fun v hv => ?_).trans (map_id _)
    exact blank_of_not_mem fun d hd heq => hi (deadPhis_closed huses hd (heq ▸ hv))
  rw [hstrip.kept i hi, hmap]
  rfl

end Promotion

namespace Body

variable {body x y : Body} {i : InstId} {b : BlockId} {v : Value} {ty : Ty}

lemma eq_of_bare (hbare : x.bare = y.bare) (huses : ∀ v, x.uses v = y.uses v) : x = y := by
  obtain ⟨hargs, hret, hvars, hinsts, hblocks, hentry, hlayout, hversion⟩ := mk.inj hbare
  have hargs : x.args = y.args := by
    have hsize : x.args.size = y.args.size := by simpa using congrArg Array.size hargs
    refine Array.ext hsize fun n hn hn' => ?_
    have hty : x.args[n].ty = y.args[n].ty := by
      have hget := congrArg (·[n]?) hargs
      simpa [hn, hn', Arg.bare] using hget
    have hlist : x.args[n].uses = y.args[n].uses := by
      simpa [uses, hn, hn'] using huses (.arg ⟨n⟩)
    exact Arg.mk.injEq .. ▸ ⟨hty, hlist⟩
  have hinsts : x.insts = y.insts := by
    have hsize : x.insts.size = y.insts.size := by simpa using congrArg Array.size hinsts
    refine Array.ext hsize fun n hn hn' => ?_
    have hrest : x.insts[n].bare = y.insts[n].bare := by
      have hget := congrArg (·[n]?) hinsts
      simpa [hn, hn'] using hget
    have hlist : x.insts[n].uses = y.insts[n].uses := by
      simpa [uses, inst, hn, hn'] using huses (.inst ⟨n⟩)
    obtain ⟨hkind, hty, hops, hblock, hremoved⟩ := Inst.bare_eq_iff.1 hrest
    exact Inst.mk.injEq .. ▸ ⟨hkind, hty, hops, hblock, hlist, hremoved⟩
  exact mk.injEq .. ▸ ⟨hargs, hret, hvars, hinsts, hblocks, hentry, hlayout, hversion⟩

lemma uses_loosen : (body.loosen i b).uses v = body.uses v := by
  have hinst : (body.modifyInst i fun x => { x with block := none }).uses v = body.uses v :=
    uses_modifyInst fun _ => rfl
  rw [← hinst]
  cases v <;> rfl

lemma uses_dropOperands (h : body.ExactUses) :
    (body.dropOperands i).uses v = (body.uses v).filter (·.inst ≠ i) := by
  have huses : (body.dropOperands i).uses v = (body.dropUses (body.slots i)).uses v := uses_modifyInst fun _ => rfl
  rw [huses, uses_dropUses_eq h.nodup]
  refine filter_congr fun u hu => ?_
  have htracked : v.isTracked := by cases v <;> simp_all [uses, Value.isTracked]
  have hholds := (h.mem_iff v u htracked).1 hu
  simp [mem_slots, hholds]

lemma uses_replaceUses_undef (h : body.ExactUses) : (body.replaceUses (.inst i) (.undef ty)).uses v =
      if v = .inst i then [] else body.uses v := by
  split
  · next hv =>
    rw [hv]
    exact (replaceUses_spec h rfl (by simp) (.inr rfl)).2.1
  · next hv =>
    rw [replaceUses, if_neg (by simp)]
    refine foldlRecOn (motive := fun x : Body => x.uses v = body.uses v) _ _ rfl fun x hx u _ => ?_
    rw [uses_moveUse rfl, if_neg (by simp [Value.isTracked]), if_neg hv, hx]

lemma uses_destroy (hb : (body.inst i).block = some b) (hsucc : (body.kind i).successors = [])
    (h : body.ExactUses) : (body.destroy i).uses v =
      if v = .inst i then [] else (body.uses v).filter (·.inst ≠ i) := by
  have hmark : ∀ x : Body, (x.markRemoved i).uses v = x.uses v := fun x =>
    uses_modifyInst fun _ => rfl
  rw [destroy, discard, hmark, uses_replaceUses_undef h.detach.dropOperands,
    uses_dropOperands h.detach, detach_of_no_successors hb hsucc, uses_loosen]

/-- An instruction takes the value of another as an operand. -/
def Feeds (body : Body) (d i : InstId) : Prop := i ∈ body.users (.inst d)

end Body

namespace Promotion

variable {body y z z' : Body} {undecided worklist phis phis' dead dead' ds : List InstId} {d φ : InstId}
  {v : Value}

/-! ## What keeps a phi -/

/-- One of the given phis that leads to nothing but them. -/
def IsDead (y : Body) (phis : List InstId) (φ : InstId) : Prop :=
  φ ∈ phis ∧ ∀ i, ReflTransGen y.Feeds φ i → i ∈ phis

lemma exists_of_not_unreached (h : body.ExactUses)
    (hlive : ∀ φ ∈ worklist, ∃ i, ReflTransGen body.Feeds φ i ∧ i ∉ phis)
    (hd : d ∈ undecided) (hnot : d ∉ unreached body undecided worklist) :
    ∃ i, ReflTransGen body.Feeds d i ∧ i ∉ phis := by
  fun_induction unreached body undecided worklist with
  | case1 undecided => exact absurd hd hnot
  | case2 undecided φ worklist new hnil ih =>
    exact ih (fun ψ hψ => hlive ψ (mem_cons_of_mem φ hψ)) hd hnot
  | case3 undecided φ worklist new hnew ih =>
    -- An operand of a phi that leads out leads out by way of it.
    have hoperand : ∀ e ∈ new, ∃ i, ReflTransGen body.Feeds e i ∧ i ∉ phis := by
      intro e he
      simp only [new, mem_eraseDups, mem_filter, mem_filterMap] at he
      obtain ⟨⟨v, hv, hve⟩, -⟩ := he
      obtain rfl : v = .inst e := by cases v <;> simp_all [Value.inst?]
      obtain ⟨i, hi, hout⟩ := hlive φ mem_cons_self
      exact ⟨i, .head ((h.mem_users_iff rfl).2 hv) hi, hout⟩
    by_cases hdnew : d ∈ new
    · exact hoperand d hdnew
    · refine ih (fun ψ hψ => ?_) (by simp [removeAll, hd, hdnew]) hnot
      rcases mem_append.1 hψ with hψ | hψ
      · exact hoperand ψ hψ
      · exact hlive ψ (mem_cons_of_mem φ hψ)

lemma mem_deadPhis_iff (h : body.ExactUses) : φ ∈ deadPhis body phis ↔ IsDead body phis φ := by
  constructor
  · intro hφ
    refine ⟨deadPhis_sublist.subset hφ, fun i hi => ?_⟩
    have hdead : i ∈ deadPhis body phis := by
      induction hi with
      | refl => exact hφ
      | tail _ hfeeds ih => exact deadPhis_closed h ih ((h.mem_users_iff rfl).1 hfeeds)
    exact deadPhis_sublist.subset hdead
  · rintro ⟨hφ, hall⟩
    by_contra hnot
    rw [deadPhis, partition_eq_filter_filter] at hnot
    have hlive : ∀ ψ ∈ phis.filter (isUsedOutside body phis), ∃ i, ReflTransGen body.Feeds ψ i ∧ i ∉ phis := by
      intro ψ hψ
      obtain ⟨i, hi, hout⟩ := any_eq_true.1 (mem_filter.1 hψ).2
      exact ⟨i, .single hi, by simpa using hout⟩
    obtain ⟨i, hi, hout⟩ : ∃ i, ReflTransGen body.Feeds φ i ∧ i ∉ phis := by
      by_cases hused : isUsedOutside body phis φ
      · exact hlive φ (mem_filter.2 ⟨hφ, hused⟩)
      · exact exists_of_not_unreached h hlive (mem_filter.2 ⟨hφ, by simpa using hused⟩) hnot
    exact hout (hall i hi)

/-! ## Independence of order -/

lemma Stripped.bare_eq (h : Stripped y dead z) (h' : Stripped y dead' z')
    (hdead : ∀ i, i ∈ dead ↔ i ∈ dead') : z.bare = z'.bare := by
  have hgraph := h.graph.symm.trans h'.graph
  have hblank : blank y dead = blank y dead' := by
    funext v
    cases v with
    | inst d => simp [blank, hdead]
    | _ => rfl
  have hinst : ∀ i, (z.inst i).bare = (z'.inst i).bare := by
    intro i
    by_cases hi : i ∈ dead
    · rw [h.gone i hi, h'.gone i ((hdead i).1 hi)]
    · rw [h.kept i hi, h'.kept i (mt (hdead i).2 hi), hblank]
  have hblock : ∀ b, z.block b = z'.block b := by
    intro b
    have hframe := hgraph.frame b
    have hlist : z.instsOf b = z'.instsOf b := by
      rw [h.list, h'.list]
      exact filter_congr fun i _ => by simp [hdead]
    simp only [Block.frame, Block.mk.injEq] at hframe
    exact Block.mk.injEq .. ▸ ⟨hlist, hframe.2.1.symm, hframe.2.2.1.symm, hframe.2.2.2.symm⟩
  refine mk.injEq .. ▸ ⟨?_, hgraph.returnTy.symm, hgraph.vars.symm, ?_, ?_, hgraph.entry.symm,
    hgraph.layout.symm, hgraph.version.symm⟩
  · have hty : ∀ x : Body, x.args.map Arg.bare = (x.args.map Arg.ty).map fun ty => { ty } := by
      intro x
      rw [Array.map_map]
      rfl
    rw [hty, hty, hgraph.args]
  · refine Array.ext (by simp [h.size, h'.size]) fun n hn hn' => ?_
    have hget := hinst ⟨n⟩
    rw [Array.size_map] at hn hn'
    simpa [inst, hn, hn'] using hget
  · refine Array.ext hgraph.size.symm fun n hn hn' => ?_
    simpa [block, hn, hn'] using hblock ⟨n⟩

lemma Stripped.uses_destroy (h : Stripped y dead z) (hd : d ∉ dead)
    (hphi : (y.kind d).isPhi) (hb : (y.inst d).block = some b) : (z.destroy d).uses v =
      if v = .inst d then [] else (z.uses v).filter (·.inst ≠ d) := by
  exact Body.uses_destroy ((Body.block_of_bare (h.kept d hd)).trans hb) (h.successors_eq_nil hd hphi) h.uses

lemma Stripped.uses_foldl_destroy (h : Stripped y dead z) (hnodup : (dead ++ ds).Nodup)
    (hds : ∀ d ∈ ds, (y.kind d).isPhi ∧ ∃ b, (y.inst d).block = some b) : (ds.foldl (·.destroy ·) z).uses v =
      if ∃ d ∈ ds, v = .inst d then [] else (z.uses v).filter (·.inst ∉ ds) := by
  induction ds generalizing dead z with
  | nil => simp
  | cons d ds ih =>
    obtain ⟨hphi, b, hb⟩ := hds d (by simp)
    have hd : d ∉ dead := fun hmem =>
      (nodup_append.1 hnodup).2.2 d hmem d (by simp) rfl
    have hnodup' : (dead ++ [d] ++ ds).Nodup := by simpa using hnodup
    rw [foldl_cons, ih (h.destroy hd hphi hb) hnodup' fun e he => hds e (by simp [he]),
      h.uses_destroy hd hphi hb]
    by_cases hv : v = .inst d
    · simp [hv]
    · rw [if_neg hv, filter_filter]
      simp [hv, Bool.and_comm]

lemma foldl_destroy_perm (hattached : y.Attached) (huses : y.ExactUses) (hnodup : dead.Nodup)
    (hdead : ∀ d ∈ dead, (y.kind d).isPhi ∧ ∃ b, (y.inst d).block = some b)
    (hperm : dead'.Perm dead) : dead'.foldl (·.destroy ·) y = dead.foldl (·.destroy ·) y := by
  have hmem : ∀ i, i ∈ dead' ↔ i ∈ dead := fun i => hperm.mem_iff
  have hnodup' : dead'.Nodup := hperm.nodup_iff.2 hnodup
  have hdead' : ∀ d ∈ dead', (y.kind d).isPhi ∧ ∃ b, (y.inst d).block = some b := fun d hd =>
    hdead d ((hmem d).1 hd)
  have hself := Stripped.refl hattached huses
  have hleft : Stripped y dead' (dead'.foldl (·.destroy ·) y) := hself.foldl_destroy hnodup' hdead'
  have hright : Stripped y dead (dead.foldl (·.destroy ·) y) := hself.foldl_destroy hnodup hdead
  refine eq_of_bare (hleft.bare_eq hright hmem) fun v => ?_
  have hleftUses : (dead'.foldl (·.destroy ·) y).uses v = _ := hself.uses_foldl_destroy hnodup' hdead'
  have hrightUses : (dead.foldl (·.destroy ·) y).uses v = _ := hself.uses_foldl_destroy hnodup hdead
  rw [hleftUses, hrightUses]
  simp only [hmem]

/-- Of distinct attached phis exactly those are removed that lead to no other instruction, and what is
left is the same in whatever order the phis are listed, and in whatever order the dead ones among them are
destroyed. -/
theorem removeDeadPhis_exact (hattached : y.Attached) (huses : y.ExactUses) (hnodup : phis.Nodup)
    (hphis : ∀ φ ∈ phis, (y.kind φ).isPhi ∧ ∃ b, (y.inst φ).block = some b) :
    ∃ (dead : List InstId) (z : Body), dead.Nodup ∧ (∀ φ, φ ∈ dead ↔ IsDead y phis φ) ∧
      (∀ phis', phis'.Perm phis → removeDeadPhis y phis' = (dead.length, z)) ∧
      (∀ ds, Perm ds dead → ds.foldl (·.destroy ·) y = z) ∧
      (∀ i ∈ dead, (z.inst i).bare = (y.inst i).bare.removed) ∧
      (∀ i, i ∉ dead → (z.inst i).bare = (y.inst i).bare) ∧ (∀ b, z.instsOf b = (y.instsOf b).filter (· ∉ dead)) ∧
      (∀ v, z.uses v = if ∃ d ∈ dead, v = .inst d then [] else (y.uses v).filter (·.inst ∉ dead)) ∧
      y.SameGraph z := by
  have hdead : ∀ d ∈ deadPhis y phis, (y.kind d).isPhi ∧ ∃ b, (y.inst d).block = some b := fun d hd =>
    hphis d (deadPhis_sublist.subset hd)
  have hnodup' : (deadPhis y phis).Nodup := hnodup.sublist deadPhis_sublist
  obtain ⟨hstripped, hkept⟩ := removeDeadPhis_spec hattached huses hnodup hphis
  refine ⟨deadPhis y phis, (removeDeadPhis y phis).2, hnodup', fun φ => mem_deadPhis_iff huses,
    fun phis' hperm => ?_, fun ds => foldl_destroy_perm hattached huses hnodup' hdead,
    hstripped.gone, hkept, hstripped.list, fun v => ?_, hstripped.graph⟩
  · have hsame : (deadPhis y phis').Perm (deadPhis y phis) := by
      refine (perm_ext_iff_of_nodup
        ((hperm.nodup_iff.2 hnodup).sublist deadPhis_sublist) hnodup').2 fun φ => ?_
      simp only [mem_deadPhis_iff huses, IsDead, hperm.mem_iff]
    rw [removeDeadPhis, hsame.length_eq, foldl_destroy_perm hattached huses hnodup' hdead hsame]
    rfl
  · exact (Stripped.refl hattached huses).uses_foldl_destroy hnodup' hdead

/-- Phis 2 and 3 take each other's value and nothing else does; phis 4 and 5 do so too, but the value of
phi 4 is returned. Phi 6 takes it as well, and nothing takes phi 6. -/
def phiCyclesSteps : List Op := [.createBlock none, .createBlock none, .createBlock none, .setJump ⟨0⟩ ⟨1⟩,
    .createInst (.branch ⟨1⟩ ⟨2⟩) [.arg ⟨0⟩] .void, .setTerminator ⟨1⟩ ⟨1⟩,
    .insertPhi ⟨1⟩ .i32, .insertPhi ⟨1⟩ .i32, .insertPhi ⟨1⟩ .i32, .insertPhi ⟨1⟩ .i32,
    .insertPhi ⟨1⟩ .i32, .addPhiArg ⟨2⟩ ⟨0⟩ (.arg ⟨0⟩), .addPhiArg ⟨2⟩ ⟨1⟩ (.inst ⟨3⟩),
    .addPhiArg ⟨3⟩ ⟨0⟩ (.arg ⟨0⟩), .addPhiArg ⟨3⟩ ⟨1⟩ (.inst ⟨2⟩),
    .addPhiArg ⟨4⟩ ⟨0⟩ (.arg ⟨0⟩), .addPhiArg ⟨4⟩ ⟨1⟩ (.inst ⟨5⟩),
    .addPhiArg ⟨5⟩ ⟨0⟩ (.arg ⟨0⟩), .addPhiArg ⟨5⟩ ⟨1⟩ (.inst ⟨4⟩),
    .addPhiArg ⟨6⟩ ⟨0⟩ (.inst ⟨4⟩), .addPhiArg ⟨6⟩ ⟨1⟩ (.inst ⟨4⟩),
    .createInst .ret [.inst ⟨4⟩] .void, .setTerminator ⟨2⟩ ⟨7⟩]

def phiCycles : Body := (Op.afterAll? phiCyclesSteps (empty [.i32] .i32)).getD default

theorem phiCycles_removed : ∃ z,
    (∀ phis, phis.Perm [⟨2⟩, ⟨3⟩, ⟨4⟩, ⟨5⟩, ⟨6⟩] → removeDeadPhis phiCycles phis = (3, z)) ∧
      z.instsOf ⟨1⟩ = [⟨4⟩, ⟨5⟩, ⟨1⟩] ∧ z.uses (.inst ⟨4⟩) = [⟨⟨7⟩, 0⟩, ⟨⟨5⟩, 1⟩] := by
  have hops : Op.afterAll? phiCyclesSteps (empty [.i32] .i32) = some phiCycles := eq_some_getD (by decide)
  have hphis : ∀ φ ∈ [(⟨2⟩ : InstId), ⟨3⟩, ⟨4⟩, ⟨5⟩, ⟨6⟩],
      (phiCycles.kind φ).isPhi ∧ (phiCycles.inst φ).block = some ⟨1⟩ := by decide
  obtain ⟨dead, z, -, -, hperm, -⟩ := removeDeadPhis_exact (Op.attached_of_afterAll hops)
    (Op.exactUses_of_afterAll hops) (by decide) fun φ hφ => (hphis φ hφ).imp_right fun hb => ⟨_, hb⟩
  have hself := hperm _ (.refl _)
  have hlength : (removeDeadPhis phiCycles [⟨2⟩, ⟨3⟩, ⟨4⟩, ⟨5⟩, ⟨6⟩]).1 = 3 := by cbv
  have hlist : (removeDeadPhis phiCycles [⟨2⟩, ⟨3⟩, ⟨4⟩, ⟨5⟩, ⟨6⟩]).2.instsOf ⟨1⟩ = [⟨4⟩, ⟨5⟩, ⟨1⟩] := by cbv
  have huses : (removeDeadPhis phiCycles [⟨2⟩, ⟨3⟩, ⟨4⟩, ⟨5⟩, ⟨6⟩]).2.uses (.inst ⟨4⟩) =
      [⟨⟨7⟩, 0⟩, ⟨⟨5⟩, 1⟩] := by cbv
  rw [hself] at hlength hlist huses
  exact ⟨z, fun phis hphis => (hperm phis hphis).trans (Prod.ext hlength rfl), hlist, huses⟩

end Promotion

end MethodIR
