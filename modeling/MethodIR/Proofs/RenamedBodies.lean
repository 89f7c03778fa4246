import MethodIR.Promotion.Renaming
import MethodIR.Proofs.PhiPlacement
import MethodIR.Proofs.UseHistories

/-!
# Bodies during renaming

What has become of a body is told by a record (`Record`): how operands have been replaced, which accesses
are gone, which arguments placed phis have, and what stands after the phis of each block.
-/

namespace MethodIR

open List Body Function Kind

namespace Body

variable {body : Body} {i : InstId} {x : Inst}

section

variable (h : (body.inst i).bare = x)
include h

lemma kind_of_bare : body.kind i = x.kind := h ▸ rfl

lemma ty_of_bare : (body.inst i).ty = x.ty := h ▸ rfl

lemma operands_of_bare : (body.inst i).operands = x.operands := h ▸ rfl

lemma isRemoved_of_bare : (body.inst i).isRemoved = x.isRemoved := h ▸ rfl

lemma block_of_bare : (body.inst i).block = x.block := h ▸ rfl

end

section PushArg

variable {φ j : InstId} {b : BlockId} {w : Value}

lemma samePlaces_pushArg : body.SamePlaces (body.pushArg φ b w) := by
  refine .trans (samePlaces_modifyInst ?_) sameShape_pushOperand.samePlaces
  exact fun _ => rfl

lemma sameGraph_pushArg : body.SameGraph (body.pushArg φ b w) :=
  (sameGraph_modifyInst _).trans sameShape_pushOperand.sameGraph

lemma bare_pushArg : (body.pushArg φ b w).bare =
    ((body.modifyInst φ fun x => { x with kind := .phi (x.kind.blocks ++ [b]) }).modifyInst φ fun x =>
      { x with operands := x.operands ++ [w] }).bare := bare_pushOperand

lemma size_pushArg : (body.pushArg φ b w).insts.size = body.insts.size := by
  have hbare : (body.pushArg φ b w).bare = _ := bare_pushArg
  have hsize := congrArg (fun z : Body => z.insts.size) hbare
  simpa [bare, modifyInst] using hsize

lemma inst_pushArg (hin : body.hasInst φ) : ((body.pushArg φ b w).inst j).bare =
    if j = φ then { (body.inst φ).bare with
      kind := .phi ((body.inst φ).kind.blocks ++ [b]), operands := (body.inst φ).operands ++ [w] }
    else (body.inst j).bare := by
  rw [bare_inst_congr bare_pushArg, inst_modifyInst, inst_modifyInst, hasInst_modifyInst]
  by_cases hj : j = φ
  · subst hj
    rw [if_pos ⟨rfl, hin⟩, if_pos ⟨rfl, hin⟩, if_pos rfl]
    rfl
  · have hne : φ ≠ j := Ne.symm hj
    rw [if_neg fun h => hne h.1, if_neg fun h => hne h.1, if_neg hj]

end PushArg

end Body

namespace Promotion

open Tables Success

variable {k : Kind}

/-- What renaming has done so far. -/
structure Record where
  /-- What stands for a value now. -/
  sub : Value → Value
  gone : InstId → Prop
  args : InstId → List (BlockId × Value)
  /-- The instructions of a block after its phis. -/
  rest : BlockId → List InstId

namespace Record

/-- Before anything has been renamed. -/
def initial (x : Body) : Record :=
  { sub := id, gone := fun _ => False, args := fun _ => [], rest := x.nonPhis }

def replace (r : Record) (i : InstId) (w : Value) : Record :=
  { r with
    sub := fun u => .replace (.inst i) w (r.sub u)
    args := fun φ => (r.args φ).map fun a => (a.1, .replace (.inst i) w a.2) }

def remove (r : Record) (i : InstId) (b : BlockId) : Record :=
  { r with
    gone := fun j => j = i ∨ r.gone j
    rest := update r.rest b ((r.rest b).erase i) }

def setRest (r : Record) (b : BlockId) (is : List InstId) : Record :=
  { r with rest := update r.rest b is }

def addArg (r : Record) (φ : InstId) (b : BlockId) (w : Value) : Record :=
  { r with args := update r.args φ (r.args φ ++ [(b, w)]) }

end Record

def Settled (x : Body) (accesses : Accesses) (w : Value) : Prop :=
  ∀ i v, w = .inst i → x.kind i = .loadVar v → accesses.isPromotable v = false

def Firm (x : Body) (plan : RenamingPlan) (y : Body) (w : Value) : Prop :=
  y.hasValue w ∧ ∀ i, w = .inst i → plan.accesses.concerns (x.kind i) = false

/-- The phis of a plan stand at the heads of their blocks, without arguments. -/
structure Headed (x : Body) (plan : RenamingPlan) : Prop where
  attached : x.Attached
  uses : x.ExactUses
  succs_nodup : ∀ b, (x.succs b).Nodup
  phi : ∀ φ v, plan.phis.lookup φ = some v → ∃ b, φ ∈ x.phis b ∧ (x.inst φ).bare = emptyPhi (x.var v).ty b
  promotable : ∀ φ v, plan.phis.lookup φ = some v → plan.accesses.isPromotable v

structure Planned (x : Body) (plan : RenamingPlan) : Prop extends Headed x plan where
  nonPhis : ∀ b ∈ x.order, ∀ i ∈ x.nonPhis b, (x.kind i).isPhi = false
  unique : ∀ φ ψ v, plan.phis.lookup φ = some v → plan.phis.lookup ψ = some v →
    (x.inst φ).block = (x.inst ψ).block → φ = ψ
  hasVar : ∀ b ∈ x.order, ∀ i ∈ x.instsOf b, ∀ v, (x.kind i).var? = some v → x.hasVar v

def conversion (ty : Ty) (w : Value) (b : BlockId) : Inst :=
  { kind := .convert false false, ty, operands := [w], block := some b }

structure Renames (x : Body) (plan : RenamingPlan) (r : Record) (y : Body) : Prop where
  graph : x.SameGraph y
  attached : y.Attached
  uses : y.ExactUses
  size : x.insts.size ≤ y.insts.size
  kept : ∀ i, x.hasInst i → ¬r.gone i → plan.phis.lookup i = none →
    (y.inst i).bare = { (x.inst i).bare with operands := (x.inst i).operands.map r.sub }
  phi : ∀ φ v, plan.phis.lookup φ = some v → (y.inst φ).bare =
    { (x.inst φ).bare with
      kind := .phi ((r.args φ).map Prod.fst), operands := (r.args φ).map Prod.snd }
  lost : ∀ i, r.gone i → plan.accesses.concerns (x.kind i) ∧ (∃ b, (x.inst i).block = some b) ∧
    (y.inst i).bare = (x.inst i).bare.removed
  settled : ∀ w, Settled x plan.accesses w → r.sub w = w
  list : ∀ b, y.instsOf b = x.phis b ++ r.rest b
  new : ∀ j, x.insts.size ≤ j.index → y.hasInst j → ∃ ty w b, (y.inst j).bare = conversion ty w b

/-- Later edits have put `τ w` for `w`, also in the instructions that renaming has added, and nothing
else that has been settled. -/
structure Later (x : Body) (plan : RenamingPlan) (τ : Value → Value) (r : Record) (y : Body)
    (r' : Record) (z : Body) : Prop where
  size : y.insts.size ≤ z.insts.size
  settled : ∀ w, Settled x plan.accesses w → τ w = w
  sub : ∀ u, r'.sub u = τ (r.sub u)
  gone : ∀ i, r.gone i → r'.gone i
  inst : ∀ j, x.insts.size ≤ j.index → y.hasInst j →
    (z.inst j).bare = { (y.inst j).bare with operands := (y.inst j).operands.map τ }

lemma Accesses.exists_of_concerns (a : Accesses) (h : a.concerns k) :
    ∃ v, a.isPromotable v ∧ (k = .loadVar v ∨ k = .storeVar v) := by
  cases k with
  | loadVar v => exact ⟨v, h, .inl rfl⟩
  | storeVar v => exact ⟨v, h, .inr rfl⟩
  | _ => cases h

lemma Accesses.isPhi_of_concerns (a : Accesses) (h : a.concerns k) : k.isPhi = false := by
  obtain ⟨v, -, rfl | rfl⟩ := a.exists_of_concerns h
  · rfl
  · rfl

lemma Accesses.successors_of_concerns (a : Accesses) (h : a.concerns k) : k.successors = [] := by
  cases k <;> simp_all [Accesses.concerns, Kind.successors]

variable {x y z : Body} {plan : RenamingPlan} {r r' r'' : Record} {i j φ : InstId} {b c : BlockId}
  {v : VarId} {u w : Value} {τ τ' : Value → Value}

lemma Later.refl (x : Body) (plan : RenamingPlan) (r : Record) (y : Body) : Later x plan id r y r y :=
  ⟨le_rfl, fun _ _ => rfl, fun _ => rfl, fun _ => id, fun j _ _ => by rw [map_id]; rfl⟩

lemma Later.trans {y' : Body} (h : Later x plan τ r y r' z) (k : Later x plan τ' r' z r'' y') :
    Later x plan (τ' ∘ τ) r y r'' y' := by
  refine ⟨h.size.trans k.size, fun w hw => ?_, fun u => ?_, fun i hi => k.gone i (h.gone i hi), fun j hj hin => ?_⟩
  · rw [comp_apply, h.settled w hw, k.settled w hw]
  · rw [k.sub, h.sub, comp_apply]
  · have hin' : z.hasInst j := by
      have hlt : j.index < y.insts.size := by simpa [hasInst] using hin
      simpa [hasInst] using hlt.trans_le h.size
    rw [k.inst j hj hin']
    have hz := h.inst j hj hin
    simp only [Inst.bare, Inst.mk.injEq] at hz ⊢
    simp [hz]

lemma Accesses.hasInst_of_concerns (a : Accesses) (h : a.concerns (x.kind i)) : x.hasInst i := by
  by_contra hnot
  rw [kind, inst, getD_of_size_le _ _ _ (by simpa [hasInst] using hnot)] at h
  cases h

lemma settled_inst (h : ∀ v, x.kind i = .loadVar v → plan.accesses.isPromotable v = false) :
    Settled x plan.accesses (.inst i) := by
  rintro j v heq hk
  obtain rfl := Value.inst.inj heq
  exact h v hk

lemma not_settled (hk : x.kind i = .loadVar v) (hv : plan.accesses.isPromotable v) :
    ¬Settled x plan.accesses (.inst i) := fun h => by simp [h i v rfl hk] at hv

lemma hasInst_of_le {x y : Body} (hle : x.insts.size ≤ y.insts.size) (hi : x.hasInst i) : y.hasInst i := by
  have hlt : i.index < x.insts.size := by simpa [hasInst] using hi
  simpa [hasInst] using hlt.trans_le hle

lemma Firm.settled (h : Firm x plan y w) : Settled x plan.accesses w := by
  intro i v hw hk
  have hnot := h.2 i hw
  rwa [hk] at hnot

lemma firm_undef (x : Body) (plan : RenamingPlan) (y : Body) (ty : Ty) :
    Firm x plan y (.undef ty) := ⟨rfl, by simp⟩

/-! ## What a record tells -/

section

variable (h : Headed x plan)
include h

lemma Headed.lookup_eq_none (hi : (x.kind i).isPhi = false) : plan.phis.lookup i = none := by
  refine Option.eq_none_iff_forall_ne_some.2 fun v hv => ?_
  obtain ⟨b, hmem, -⟩ := h.phi i v hv
  simp [isPhi_of_mem_phis hmem] at hi

lemma Headed.mem_phis (hφ : plan.phis.lookup φ = some v) : ∃ b, (x.inst φ).block = some b ∧ φ ∈ x.phis b := by
  obtain ⟨b, hmem, hbare⟩ := h.phi φ v hφ
  exact ⟨b, block_of_bare hbare, hmem⟩

lemma Headed.hasInst (hφ : plan.phis.lookup φ = some v) : x.hasInst φ := by
  obtain ⟨b, hmem, -⟩ := h.phi φ v hφ
  exact h.attached.hasInst (takeWhile_subset _ hmem)

lemma Headed.hasInst_of_nonPhis (hi : i ∈ x.nonPhis b) : x.hasInst i :=
  h.attached.hasInst (mem_of_mem_nonPhis hi)

lemma Renames.initial : Renames x plan (.initial x) x := by
  refine ⟨.refl x, h.attached, h.uses, le_rfl, fun i _ _ _ => ?_, fun φ v hφ => ?_,
    fun _ hgone => hgone.elim, fun _ _ => rfl, fun b => ?_, fun j hj hin => ?_⟩
  · rw [Record.initial, map_id]
    rfl
  · obtain ⟨b, -, hbare⟩ := h.phi φ v hφ
    rw [hbare]
    rfl
  · exact (phis_append_nonPhis x b).symm
  · have hlt : j.index < x.insts.size := by simpa [hasInst] using hin
    omega

end

section

variable (h : Renames x plan r y)
include h

lemma Renames.mem_instsOf (hi : i ∈ r.rest b) : i ∈ y.instsOf b := by
  rw [h.list]
  exact mem_append_right _ hi

lemma Renames.not_mem_phis (hi : i ∈ r.rest b) : i ∉ x.phis b := by
  have hnodup := h.attached.nodup b
  rw [h.list] at hnodup
  exact fun hphi => (nodup_append.1 hnodup).2.2 i hphi i hi rfl

lemma Renames.not_gone (hi : i ∈ y.instsOf b) : ¬r.gone i := fun hg => by
  have hblock := (h.attached.mem_iff b i).1 hi
  rw [block_of_bare (h.lost i hg).2.2] at hblock
  cases hblock

lemma Renames.sub_of_not_concerns (hi : plan.accesses.concerns (x.kind i) = false) : r.sub (.inst i) = .inst i :=
  h.settled _ (settled_inst fun v hk => by rwa [hk] at hi)

lemma Renames.sub_of_mem_phis (hφ : φ ∈ x.phis b) : r.sub (.inst φ) = .inst φ := by
  have hphi := isPhi_of_mem_phis hφ
  refine h.settled _ (settled_inst fun v hk => ?_)
  simp [hk, Kind.isPhi] at hphi

lemma Renames.not_gone_of_isPhi (hi : (x.kind i).isPhi) : ¬r.gone i := fun hg => by
  simp [plan.accesses.isPhi_of_concerns (h.lost i hg).1] at hi

lemma Renames.kind_eq (hx : x.hasInst i) (hnone : plan.phis.lookup i = none) : y.kind i = x.kind i := by
  by_cases hg : r.gone i
  · obtain ⟨hacc, -, hbare⟩ := h.lost i hg
    rw [kind_of_bare hbare]
    exact Inst.kind_removed (x := (x.inst i).bare) (plan.accesses.isPhi_of_concerns hacc)
  · rw [kind_of_bare (h.kept i hx hg hnone)]
    rfl

lemma Renames.operands_eq (hx : x.hasInst i) (hgone : ¬r.gone i) (hnone : plan.phis.lookup i = none) :
    (y.inst i).operands = (x.inst i).operands.map r.sub :=
  operands_of_bare (h.kept i hx hgone hnone)

lemma Renames.ty (i : InstId) (hx : x.hasInst i) : (y.inst i).ty = (x.inst i).ty := by
  by_cases hg : r.gone i
  · exact (ty_of_bare (h.lost i hg).2.2).trans rfl
  · cases hv : plan.phis.lookup i with
    | none => exact (ty_of_bare (h.kept i hx hg hv)).trans rfl
    | some v => exact (ty_of_bare (h.phi i v hv)).trans rfl

section

variable (hplan : Headed x plan)
include hplan

lemma Renames.lookup_of_rest (hi : i ∈ r.rest b) : plan.phis.lookup i = none := by
  refine Option.eq_none_iff_forall_ne_some.2 fun v hv => ?_
  obtain ⟨c, hc, hphi⟩ := hplan.mem_phis hv
  have hblock := (h.attached.mem_iff b i).1 (h.mem_instsOf hi)
  rw [block_of_bare (h.phi i v hv)] at hblock
  obtain rfl : b = c := Option.some.inj (hblock.symm.trans hc)
  exact h.not_mem_phis hi hphi

lemma Renames.operands_of_rest (hx : x.hasInst i) (hi : i ∈ r.rest b) :
    (y.inst i).operands = (x.inst i).operands.map r.sub :=
  h.operands_eq hx (h.not_gone (h.mem_instsOf hi)) (h.lookup_of_rest hplan hi)

lemma Renames.mem_nonPhis (hx : x.hasInst i) (hi : i ∈ r.rest b) : i ∈ x.nonPhis b := by
  have hmem := h.mem_instsOf hi
  have hblock := (h.attached.mem_iff b i).1 hmem
  rw [block_of_bare (h.kept i hx (h.not_gone hmem) (h.lookup_of_rest hplan hi))] at hblock
  have hold := (hplan.attached.mem_iff b i).2 hblock
  rw [← phis_append_nonPhis] at hold
  exact (mem_append.1 hold).resolve_left (h.not_mem_phis hi)

lemma Renames.isPhi_eq (hx : x.hasInst i) : (y.kind i).isPhi = (x.kind i).isPhi := by
  cases hv : plan.phis.lookup i with
  | none => rw [h.kind_eq hx hv]
  | some v =>
    obtain ⟨b, hmem, -⟩ := hplan.phi i v hv
    rw [kind_of_bare (h.phi i v hv), isPhi_of_mem_phis hmem]
    rfl

lemma Renames.phis_eq (c : BlockId) : y.phis c = x.phis c ++ (r.rest c).takeWhile fun i => (y.kind i).isPhi := by
  rw [phis, h.list, takeWhile_append_of_pos]
  intro i hi
  rw [h.isPhi_eq hplan (hplan.attached.hasInst (takeWhile_subset _ hi))]
  exact isPhi_of_mem_phis hi

end

lemma Renames.isPhi_of_rest (hplan : Planned x plan) (hb : b ∈ x.order) (hi : i ∈ r.rest b) :
    (y.kind i).isPhi = false := by
  by_cases hx : x.hasInst i
  · rw [h.isPhi_eq hplan.toHeaded hx]
    exact hplan.nonPhis b hb i (h.mem_nonPhis hplan.toHeaded hx hi)
  · obtain ⟨ty, w, c, hbare⟩ := h.new i (by simpa [hasInst] using hx) (h.attached.hasInst (h.mem_instsOf hi))
    rw [kind_of_bare hbare]
    rfl

lemma Renames.phis (hplan : Planned x plan) (hc : c ∈ x.order) : y.phis c = x.phis c := by
  rw [h.phis_eq hplan.toHeaded]
  cases hrest : r.rest c with
  | nil => simp
  | cons j js => simp [h.isPhi_of_rest hplan hc (i := j) (by simp [hrest])]

end

lemma Renames.hasValue_mono (h : Renames x plan r y) (h' : Renames x plan r' z)
    (hsize : y.insts.size ≤ z.insts.size) (hw : y.hasValue w) : z.hasValue w :=
  hasValue_of_args (h.graph.symm.trans h'.graph).args (fun _ => hasInst_of_le hsize) hw

lemma Firm.mono (hw : Firm x plan y w) (h : Renames x plan r y) (h' : Renames x plan r' z)
    (hsize : y.insts.size ≤ z.insts.size) : Firm x plan z w :=
  ⟨h.hasValue_mono h' hsize hw.1, hw.2⟩

lemma Later.valueTy (k : Later x plan τ r y r' z) (h : Renames x plan r y)
    (h' : Renames x plan r' z) (hw : y.hasValue w) : z.valueTy w = y.valueTy w := by
  refine valueTy_of_args (h.graph.symm.trans h'.graph).args fun i hi => ?_
  by_cases hx : x.hasInst i
  · exact (h'.ty i hx).trans (h.ty i hx).symm
  · have hge : x.insts.size ≤ i.index := by simpa [hasInst] using hx
    have hty := ty_of_bare (k.inst i hge (by subst hi; exact hw))
    exact hty

/-! ## The edits -/

section

variable (h : Renames x plan r y)
include h

lemma Renames.replace (hk : x.kind i = .loadVar v) (hv : plan.accesses.isPromotable v) (hw : w ≠ .inst i)
    (hvalue : y.uses (.inst i) = [] ∨ y.hasValue w) : Renames x plan (r.replace i w) (y.replaceUses (.inst i) w) ∧
      Later x plan (.replace (.inst i) w) r y (r.replace i w) (y.replaceUses (.inst i) w) := by
  obtain ⟨huses, -, -⟩ := replaceUses_spec h.uses rfl hw hvalue
  have hinst : ∀ j, ((y.replaceUses (.inst i) w).inst j).bare =
      { (y.inst j).bare with operands := (y.inst j).operands.map (.replace (.inst i) w) } :=
    fun j => inst_replaceUses h.uses rfl hw hvalue
  have hsize : (y.replaceUses (.inst i) w).insts.size = y.insts.size := size_replaceUses h.uses rfl hw hvalue
  have hreplace : ∀ u, Settled x plan.accesses u → Value.replace (.inst i) w u = u := fun u hu =>
    Value.replace_of_ne fun heq => not_settled hk hv (heq ▸ hu)
  refine ⟨⟨h.graph.trans sameShape_replaceUses.sameGraph, h.attached.congr sameShape_replaceUses.samePlaces, huses,
    hsize ▸ h.size, fun j hj hgone hphi => ?_, fun φ v' hφ => ?_, fun j hj => ?_, fun u hu => ?_, fun b => ?_,
    fun j hj hin => ?_⟩, hsize.ge, hreplace, fun _ => rfl, fun _ => id, fun j _ _ => hinst j⟩
  · rw [hinst, h.kept j hj hgone hphi, h.operands_eq hj hgone hphi, map_map]
    rfl
  · have hy := h.phi φ v' hφ
    rw [hinst, operands_of_bare hy, hy]
    simp [Record.replace, comp_def]
  · obtain ⟨hacc, hhome, hy⟩ := h.lost j hj
    refine ⟨hacc, hhome, ?_⟩
    rw [hinst, operands_of_bare hy, hy]
    rfl
  · simp only [Record.replace]
    rw [h.settled u hu, hreplace u hu]
  · rw [sameShape_replaceUses.samePlaces.instsOf, h.list]
    rfl
  · obtain ⟨ty, u, b, hy⟩ := h.new j hj (by simpa [hasInst, hsize] using hin)
    refine ⟨ty, .replace (.inst i) w u, b, ?_⟩
    rw [hinst, operands_of_bare hy, hy]
    rfl

lemma Renames.remove (hplan : Headed x plan) (hi : i ∈ r.rest b) (hacc : plan.accesses.concerns (x.kind i)) :
    Renames x plan (r.remove i b) (y.remove i) ∧ Later x plan id r y (r.remove i b) (y.remove i) := by
  have hx := plan.accesses.hasInst_of_concerns hacc
  have hnone := h.lookup_of_rest hplan hi
  have hmem := h.mem_instsOf hi
  have hkept := h.kept i hx (h.not_gone hmem) hnone
  have hb := (h.attached.mem_iff b i).1 hmem
  have hsucc : (y.kind i).successors = [] := by
    rw [h.kind_eq hx hnone]
    exact plan.accesses.successors_of_concerns hacc
  have hself : ((y.remove i).inst i).bare = (y.inst i).bare.removed := by
    rw [inst_remove hb hsucc (h.attached.hasInst hmem), if_pos rfl]
  have hother : ∀ j, j ≠ i → ((y.remove i).inst j).bare = (y.inst j).bare := fun j hj => by
    rw [inst_remove hb hsucc (h.attached.hasInst hmem), if_neg hj]
  have hsize : (y.remove i).insts.size = y.insts.size := size_remove hb hsucc
  have hold : ∀ j, x.insts.size ≤ j.index → j ≠ i := by
    rintro j hj rfl
    have hlt : j.index < x.insts.size := by simpa [hasInst] using hx
    omega
  refine ⟨⟨h.graph.trans (sameGraph_remove hb hsucc), h.attached.remove hb hsucc, h.uses.remove hb hsucc,
    h.size.trans hsize.ge, fun j hj hgone hphi => ?_, fun φ v hφ => ?_, fun j hj => ?_, h.settled, fun c => ?_,
    fun j hj hin => ?_⟩, hsize.ge, fun _ _ => rfl, fun _ => rfl, fun _ => .inr, fun j hj _ => ?_⟩
  · rw [hother j fun heq => hgone (.inl heq)]
    exact h.kept j hj (fun hg => hgone (.inr hg)) hphi
  · rw [hother φ fun heq => by simp [heq, hnone] at hφ]
    exact h.phi φ v hφ
  · by_cases hji : j = i
    · subst hji
      refine ⟨hacc, ⟨b, (block_of_bare hkept).symm.trans hb⟩, ?_⟩
      rw [hself, hkept]
      rfl
    · rw [hother j hji]
      exact h.lost j (hj.resolve_left hji)
  · rw [instsOf_remove hb hsucc, h.list]
    simp only [Record.remove]
    by_cases hc : c = b
    · subst hc
      rw [if_pos rfl, update_self, erase_append_right _ (h.not_mem_phis hi)]
    · rw [if_neg hc, update_of_ne hc]
  · rw [hother j (hold j hj)]
    exact h.new j hj (by simpa [hasInst, hsize] using hin)
  · rw [hother j (hold j hj), map_id]
    rfl

lemma Renames.convert (hplan : Headed x plan) (ty : Ty) {pre post : List InstId} (hb : y.hasBlock b)
    (hlist : pre ++ post = r.rest b) (hw : y.hasValue w) :
    Renames x plan (r.setRest b (pre ++ ⟨y.insts.size⟩ :: post))
        (y.withInst b (x.phis b ++ pre) post (.convert false false) [w] ty) ∧
      Later x plan id r y (r.setRest b (pre ++ ⟨y.insts.size⟩ :: post))
        (y.withInst b (x.phis b ++ pre) post (.convert false false) [w] ty) := by
  have hlist' : (x.phis b ++ pre) ++ post = y.instsOf b := by
    rw [h.list, ← hlist, append_assoc]
  have hold : ∀ j, y.hasInst j →
      ((y.withInst b (x.phis b ++ pre) post (.convert false false) [w] ty).inst j).bare = (y.inst j).bare := by
    intro j hj
    have hlt : j.index < y.insts.size := by simpa [hasInst] using hj
    rw [inst_withInst, if_neg (by omega)]
  have hsize : (y.withInst b (x.phis b ++ pre) post (.convert false false) [w] ty).insts.size =
      y.insts.size + 1 := size_withInst
  refine ⟨⟨h.graph.trans (sameGraph_withInst rfl), h.attached.withInst hb hlist', h.uses.withInst (by simpa using hw),
    hsize ▸ h.size.trans (Nat.le_succ _), fun j hj hgone hphi => ?_, fun φ v hφ => ?_, fun j hj => ?_, h.settled,
    fun c => ?_, fun j hj hin => ?_⟩, hsize ▸ Nat.le_succ _, fun _ _ => rfl, fun _ => rfl, fun _ => id,
    fun j _ hin => ?_⟩
  · rw [hold j (hasInst_of_le h.size hj)]
    exact h.kept j hj hgone hphi
  · rw [hold φ (hasInst_of_le h.size (hplan.hasInst hφ))]
    exact h.phi φ v hφ
  · obtain ⟨hacc, hhome, hy⟩ := h.lost j hj
    rw [hold j (hasInst_of_le h.size (plan.accesses.hasInst_of_concerns hacc))]
    exact ⟨hacc, hhome, hy⟩
  · rw [instsOf_withInst hb, h.list]
    simp only [Record.setRest]
    by_cases hc : c = b
    · subst hc
      rw [if_pos rfl, update_self, append_assoc]
    · rw [if_neg hc, update_of_ne hc]
  · by_cases hjy : y.hasInst j
    · rw [hold j hjy]
      exact h.new j hj hjy
    · have hle : j.index < y.insts.size + 1 := by simpa [hasInst, hsize] using hin
      have hge : ¬j.index < y.insts.size := by simpa [hasInst] using hjy
      exact ⟨ty, w, b, by rw [inst_withInst, if_pos (by omega)]; rfl⟩
  · rw [hold j hin, map_id]
    rfl

lemma Renames.addPhiArg (hplan : Headed x plan)
    (hφ : plan.phis.lookup φ = some v) (hw : y.hasValue w) (b : BlockId) :
    Renames x plan (r.addArg φ b w) (y.pushArg φ b w) ∧ Later x plan id r y (r.addArg φ b w) (y.pushArg φ b w) ∧
      (y.pushArg φ b w).insts.size = y.insts.size := by
  have hin : y.hasInst φ := hasInst_of_le h.size (hplan.hasInst hφ)
  have hself : ((y.pushArg φ b w).inst φ).bare = _ := (inst_pushArg hin).trans (if_pos rfl)
  have hother : ∀ j, j ≠ φ → ((y.pushArg φ b w).inst j).bare = (y.inst j).bare :=
    fun j hj => (inst_pushArg hin).trans (if_neg hj)
  have hsize : (y.pushArg φ b w).insts.size = y.insts.size := size_pushArg
  have hold : ∀ j, x.insts.size ≤ j.index → j ≠ φ := by
    rintro j hj rfl
    have hlt : j.index < x.insts.size := by simpa [hasInst] using hplan.hasInst hφ
    omega
  refine ⟨⟨h.graph.trans sameGraph_pushArg, h.attached.congr samePlaces_pushArg, h.uses.pushArg hin hw,
    h.size.trans hsize.ge, fun j hj hgone hphi => ?_, fun ψ u hψ => ?_, fun j hj => ?_, h.settled, fun c => ?_,
    fun j hj hin => ?_⟩, ⟨hsize.ge, fun _ _ => rfl, fun _ => rfl, fun _ => id, fun j hj _ => ?_⟩, hsize⟩
  · rw [hother j fun heq => by simp [← heq, hphi] at hφ]
    exact h.kept j hj hgone hphi
  · by_cases hψφ : ψ = φ
    · subst hψφ
      have hy := h.phi ψ u hψ
      rw [hself]
      simp only [Inst.bare, Inst.mk.injEq] at hy ⊢
      simp [hy, Record.addArg, Kind.blocks]
    · rw [hother ψ hψφ, h.phi ψ u hψ]
      simp only [Record.addArg, update_of_ne hψφ]
  · have hne : j ≠ φ := by
      rintro rfl
      simp [hplan.lookup_eq_none (plan.accesses.isPhi_of_concerns (h.lost j hj).1)] at hφ
    rw [hother j hne]
    exact h.lost j hj
  · rw [samePlaces_pushArg.instsOf, h.list]
    rfl
  · rw [hother j (hold j hj)]
    exact h.new j hj (by simpa [hasInst, hsize] using hin)
  · rw [hother j (hold j hj), map_id]
    rfl

end

end Promotion

end MethodIR
