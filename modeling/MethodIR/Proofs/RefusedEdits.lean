import MethodIR.Proofs.UseHistories

/-!
# Refused edits

An edit that breaks a rule of bodies has changed nothing (`Op.run_refused`). Three edits change the body
and then check; there the later checks never fail.
-/

namespace MethodIR

open List Success Body

namespace Edit

variable {α β : Type} {P : Body → Prop} {x y : Body} {m : Edit α} {f : α → Edit β} {i anchor : InstId}
  {b target : BlockId}
  {v : Violation} {vs : List Value} {insts : List InstId → List InstId}

/-- An edit that gives no result is out of range, or it breaks a rule and leaves a body with `P`. -/
def Refuses (P : Body → Prop) (m : Edit α) (x : Body) : Prop :=
  ∀ e y, m x = .error e y → e = .outOfRange ∨ (∃ v, e = .violation v) ∧ P y

lemma Refuses.bind (hm : Refuses P m x) (hf : ∀ a y, m x = .ok a y → Refuses P (f a) y) :
    Refuses P (m >>= f) x := by
  intro e z hrun
  change EStateM.bind m f x = _ at hrun
  rw [EStateM.bind] at hrun
  cases hr : m x with
  | ok a y =>
    rw [hr] at hrun
    exact hf a y hr e z hrun
  | error e' y =>
    rw [hr] at hrun
    cases hrun
    exact hm e z hr

lemma Refuses.map {g : α → β} (hm : Refuses P m x) : Refuses P (g <$> m) x := by
  intro e z hrun
  change EStateM.map g m x = _ at hrun
  rw [EStateM.map] at hrun
  cases hr : m x with
  | ok a y =>
    rw [hr] at hrun
    cases hrun
  | error e' y =>
    rw [hr] at hrun
    cases hrun
    exact hm e z hr

lemma refuses_pure {a : α} : Refuses P (pure a : Edit α) x := by
  rintro e y ⟨⟩

lemma Refuses.bind_pure {c : β} (hm : Refuses P m x) : Refuses P (m >>= fun _ => pure c) x :=
  hm.bind fun _ _ _ => refuses_pure

lemma refuses_modify {g : Body → Body} : Refuses P (modify g : Edit Unit) x := by
  rintro e y ⟨⟩

lemma refuses_set : Refuses P (set y : Edit Unit) x := by
  rintro e z ⟨⟩

lemma refuses_get {f : Body → Edit β} (h : Refuses P (f x) x) : Refuses P (get >>= f) x := h

lemma refuses_refuse (h : P x) : Refuses P (refuse v : Edit α) x := by
  rintro e y ⟨⟩
  exact .inr ⟨⟨v, rfl⟩, h⟩

lemma refuses_refuse_bind (h : P x) : Refuses P (refuse v >>= f) x :=
  (refuses_refuse h).bind fun _ _ hrun => by simp at hrun

lemma refuses_need {p : Bool} {f : Unit → Edit β} (h : p → Refuses P (f ()) x) : Refuses P (need p >>= f) x := by
  cases p with
  | true => exact h rfl
  | false =>
    rintro e y ⟨⟩
    exact .inl rfl

lemma refuses_inst {f : Inst → Edit β} (h : x.hasInst i → Refuses P (f (x.inst i)) x) :
    Refuses P (inst i >>= f) x := by
  rw [inst, bind_assoc]
  refine refuses_get ?_
  rw [bind_assoc]
  exact refuses_need h

lemma refuses_block {f : Block → Edit β} (h : x.hasBlock b → Refuses P (f (x.block b)) x) :
    Refuses P (block b >>= f) x := by
  rw [block, bind_assoc]
  refine refuses_get ?_
  rw [bind_assoc]
  exact refuses_need h

lemma refuses_discard_inst {f : Unit → Edit β} (h : x.hasInst i → Refuses P (f ()) x) :
    Refuses P (discard (inst i) >>= f) x := by
  rw [discard_bind]
  exact refuses_inst h

lemma refuses_discard_block {f : Unit → Edit β} (h : x.hasBlock b → Refuses P (f ()) x) :
    Refuses P (discard (block b) >>= f) x := by
  rw [discard_bind]
  exact refuses_block h

/-! ## The edits one by one -/

lemma refuses_createInst {kind : Kind} {ty : Ty}
    (hx : arityViolation? kind vs.length ≠ none → P x) : Refuses P (createInst kind vs ty) x := by
  rw [createInst]
  cases harity : arityViolation? kind vs.length with
  | some v => exact refuses_refuse_bind (hx (by simp [harity]))
  | none =>
    refine refuses_get (refuses_need fun _ => ?_)
    exact refuses_set.bind fun _ _ _ => refuses_pure

lemma refuses_needDetached (hx : (x.inst i).isRemoved ∨ (x.inst i).block ≠ none → P x) :
    Refuses P (needDetached i) x := by
  refine refuses_inst fun _ => ?_
  cases hr : (x.inst i).isRemoved with
  | true => exact refuses_refuse (hx (.inl hr))
  | false =>
    cases hb : (x.inst i).block with
    | some b => exact refuses_refuse (hx (.inr (by simp [hb])))
    | none => exact refuses_pure

lemma refuses_attach : Refuses P (attach i b insts) x :=
  refuses_block fun _ => refuses_get (refuses_need fun _ => refuses_set)

section

variable (hx : (x.inst i).isRemoved ∨ (x.inst i).block ≠ none → P x)
include hx

lemma refuses_insertFirst : Refuses P (insertFirst b i) x :=
  (refuses_needDetached hx).bind fun _ _ _ => refuses_attach

lemma refuses_insertLast : Refuses P (insertLast b i) x :=
  (refuses_needDetached hx).bind fun _ _ _ => refuses_attach

end

lemma refuses_insertNextTo
    (hx : (x.inst i).isRemoved ∨ (x.inst i).block ≠ none ∨ (x.inst anchor).block = none → P x) :
    Refuses P (do needDetached i; attach i (← anchorBlock anchor) insts) x := by
  refine (refuses_needDetached fun h => hx ?_).bind fun _ y hy => ?_
  · exact h.imp_right .inl
  · obtain ⟨-, -, -, rfl⟩ := needDetached_iff.1 hy
    rw [anchorBlock, bind_assoc]
    refine refuses_inst fun _ => ?_
    cases hb : (x.inst anchor).block with
    | some b => exact refuses_attach
    | none => exact refuses_refuse_bind (hx (.inr (.inr hb)))

lemma refuses_insertPhi (hx : x.Attached) (b : BlockId) (ty : Ty) : Refuses P (insertPhi b ty) x := by
  refine (refuses_createInst fun h => absurd rfl h).bind fun phi y hy => ?_
  obtain ⟨-, -, rfl, rfl⟩ := createInst_iff.1 hy
  refine refuses_discard_block fun _ => refuses_get ?_
  cases hlast : ((x.addInst (.phi []) [] ty).phis b).getLast? with
  | none =>
    refine (refuses_insertFirst fun h => ?_).bind_pure
    simp [block_none_addInst] at h
  | some last =>
    have hmem := takeWhile_subset _ (mem_of_getLast? hlast)
    have hblock := ((hx.addInst (.phi []) [] ty).mem_iff b last).1 hmem
    refine (refuses_insertNextTo fun h => ?_).bind_pure
    simp [block_none_addInst, hblock] at h

lemma refuses_removeInst (hx : (x.inst i).uses ≠ [] → P x) : Refuses P (removeInst i) x := by
  refine refuses_inst fun _ => ?_
  cases huses : (x.inst i).uses with
  | nil => exact refuses_modify
  | cons u us => exact refuses_refuse_bind (hx (by simp [huses]))

lemma refuses_setTerminator
    (hx : (x.kind i).isTerminator = false ∨ (x.inst i).isRemoved ∨ (x.inst i).block ≠ none → P x) :
    Refuses P (setTerminator b i) x := by
  refine refuses_inst fun _ => ?_
  cases hterm : (x.inst i).kind.isTerminator with
  | false =>
    simp only [hterm, Bool.false_eq_true, if_false]
    exact refuses_refuse_bind (hx (.inl hterm))
  | true =>
    simp only [hterm, if_true]
    refine refuses_discard_block fun _ => refuses_get ?_
    refine (refuses_insertLast fun h => hx (.inr h)).bind fun _ y _ => ?_
    cases x.terminator? b with
    | none => exact refuses_pure
    | some old => exact refuses_modify

lemma refuses_setJump : Refuses P (setJump b target) x := by
  refine (refuses_createInst fun h => absurd rfl h).bind fun jump y hy => ?_
  obtain ⟨-, -, rfl, rfl⟩ := createInst_iff.1 hy
  refine refuses_setTerminator fun h => ?_
  simp [block_none_addInst, kind_addInst, Kind.isTerminator] at h

lemma refuses_replaceUses {v w : Value} : Refuses P (replaceUses v w) x := by
  rw [replaceUses]
  by_cases hvw : v = w
  · simp only [hvw, if_true]
    exact refuses_pure
  · simp only [hvw, if_false, uses, bind_assoc, pure_bind]
    refine refuses_get (refuses_need fun _ => refuses_get (refuses_need fun _ => ?_))
    exact refuses_modify.bind_pure

lemma refuses_replaceWith (hx : x.ExactUses) {v : Value} (hself : v = .inst i → P x) :
    Refuses P (replaceWith i v) x := by
  rw [replaceWith]
  by_cases hv : v = .inst i
  · simp only [hv, if_true]
    exact refuses_refuse_bind (hself hv)
  · simp only [hv, if_false, discard_bind]
    refine refuses_replaceUses.bind fun n y hy => ?_
    rw [replaceUses_iff, if_neg (Ne.symm hv)] at hy
    obtain ⟨-, rfl, hknown, rfl⟩ := hy
    have hnone := (replaceUses_spec hx rfl hv (hknown.imp_left eq_nil_of_length_eq_zero)).2.1
    exact refuses_removeInst fun huses => absurd hnone huses

lemma refuses_needPhi (hx : P x) : Refuses P (needPhi i) x := by
  refine refuses_inst fun _ => ?_
  cases (x.inst i).kind
  case phi => exact refuses_pure
  all_goals exact refuses_refuse hx

lemma eq_of_needPhi (h : needPhi i x = .ok vs y) : x = y := by
  obtain ⟨z, x', hinst, hrest⟩ := bind_iff.1 h
  obtain ⟨-, rfl, rfl⟩ := inst_iff.1 hinst
  cases hk : (x.inst i).kind
  case phi =>
    rw [hk] at hrest
    exact (pure_iff.1 hrest).2
  all_goals
    rw [hk] at hrest
    simp at hrest

lemma refuses_removeBlock (hx : P x) : Refuses P (removeBlock b) x := by
  refine refuses_block fun _ => ?_
  cases hp : (x.block b).preds.isEmpty with
  | false =>
    simp only [hp, Bool.false_eq_true, if_false]
    exact refuses_refuse_bind hx
  | true =>
    simp only [hp, if_true]
    refine refuses_get ?_
    by_cases he : x.entry = some b
    · simp only [he, if_true]
      exact refuses_refuse_bind hx
    · cases hg : x.isGuarded b with
      | true =>
        simp only [he, if_true, if_false]
        exact refuses_refuse_bind hx
      | false =>
        simp only [he, if_false, Bool.false_eq_true]
        exact refuses_modify

lemma refuses_setOperand (hx : P x) (n : Nat) (v : Value) : Refuses P (setOperand i n v) x := by
  refine refuses_inst fun _ => ?_
  cases hold : (x.inst i).operands[n]? with
  | none =>
    simp only [hold]
    exact refuses_refuse hx
  | some old =>
    simp only [hold]
    by_cases hne : old = v
    · rw [if_neg (not_not.2 hne)]
      exact refuses_pure
    · rw [if_pos hne]
      exact refuses_get (refuses_need fun _ => refuses_modify)

end Edit

namespace Op

open Edit

variable {P : Body → Prop} {x y : Body}

lemma refuses_run (hplaces : x.Attached) (huses : x.ExactUses) (hx : P x) (op : Op) : Refuses P op.run x := by
  cases op with
  | createVar ty origin =>
    rintro e y ⟨⟩
  | setVar v decl =>
    refine Refuses.bind_pure ?_
    rw [Edit.setVar, Edit.var, discard_bind, bind_assoc]
    refine refuses_get ?_
    rw [bind_assoc]
    exact refuses_need fun _ => refuses_modify
  | createBlock place =>
    refine Refuses.map (refuses_get (refuses_need fun _ => ?_))
    exact refuses_set.bind_pure
  | createInst kind vs ty => exact (refuses_createInst fun _ => hx).map
  | insertFirst b i => exact (refuses_insertFirst fun _ => hx).bind_pure
  | insertLast b i => exact (refuses_insertLast fun _ => hx).bind_pure
  | insertBefore a i => exact (refuses_insertNextTo fun _ => hx).bind_pure
  | insertAfter a i => exact (refuses_insertNextTo fun _ => hx).bind_pure
  | insertPhi b ty => exact (refuses_insertPhi hplaces b ty).map
  | addPhiArg i b v =>
    refine Refuses.bind_pure ?_
    rw [Edit.addPhiArg, discard_bind]
    refine (refuses_needPhi hx).bind fun _ y _ => ?_
    exact refuses_get (refuses_need fun _ => refuses_modify)
  | removePhiArg i n =>
    refine Refuses.bind_pure ((refuses_needPhi hx).bind fun vs y hy => ?_)
    obtain rfl := eq_of_needPhi hy
    by_cases hn : n < vs.length
    · rw [if_pos hn]
      exact refuses_modify
    · rw [if_neg hn]
      exact refuses_refuse_bind hx
  | detach i =>
    refine Refuses.bind_pure (refuses_inst fun _ => ?_)
    cases hr : (x.inst i).isRemoved with
    | true => exact refuses_refuse_bind hx
    | false => exact refuses_modify
  | removeInst i => exact (refuses_removeInst fun _ => hx).bind_pure
  | destroyInst i =>
    refine Refuses.bind_pure ?_
    rw [Edit.destroyInst]
    exact refuses_discard_inst fun _ => refuses_modify
  | setTerminator b i => exact (refuses_setTerminator fun _ => hx).bind_pure
  | setJump b t => exact refuses_setJump.bind_pure
  | replaceTarget b old new =>
    refine Refuses.bind_pure (refuses_block fun _ => refuses_get ?_)
    by_cases hold : old ∈ x.targets b
    · rw [if_pos hold]
      exact refuses_need fun _ => refuses_modify
    · rw [if_neg hold]
      exact refuses_refuse_bind hx
  | connect a b =>
    refine Refuses.bind_pure (refuses_block fun _ => refuses_get (refuses_need fun _ => ?_))
    exact refuses_modify
  | disconnect a b =>
    refine Refuses.bind_pure ?_
    rw [Edit.disconnect]
    exact refuses_discard_block fun _ => refuses_modify
  | setEntry b =>
    refine Refuses.bind_pure (refuses_block fun _ => ?_)
    cases hp : (x.block b).preds.isEmpty with
    | false => exact refuses_refuse_bind hx
    | true => exact refuses_modify
  | removeBlock b => exact (refuses_removeBlock hx).bind_pure
  | setOperand i n v => exact (refuses_setOperand hx n v).bind_pure
  | replaceUses v w => exact refuses_replaceUses.map
  | replaceWith i v => exact (refuses_replaceWith huses fun _ => hx).bind_pure

def broken? (op : Op) (x : Body) : Option Violation :=
  match op.run x with
  | .error (.violation v) _ => some v
  | _ => none

/-- A sum is computed in one block and returned by the next one. -/
def returnedSumSteps : List Op := [.createBlock none, .createBlock none,
    .createInst (.binary .add) [.const (.i32 1), .const (.i32 2)] .i32, .insertLast ⟨0⟩ ⟨0⟩,
    .setJump ⟨0⟩ ⟨1⟩, .createInst .ret [.inst ⟨0⟩] .void, .setTerminator ⟨1⟩ ⟨2⟩]

def returnedSum : Body := (afterAll? returnedSumSteps (.empty [] .i32)).getD default

/-- Each of these breaks a rule there. -/
def brokenSteps : List Op :=
  [.createInst (.binary .add) [.const (.i32 1)] .i32, .insertFirst ⟨1⟩ ⟨0⟩, .insertAfter ⟨2⟩ ⟨1⟩,
    .addPhiArg ⟨0⟩ ⟨0⟩ (.const (.i32 3)), .removeInst ⟨0⟩, .replaceWith ⟨0⟩ (.inst ⟨0⟩),
    .setTerminator ⟨0⟩ ⟨0⟩, .replaceTarget ⟨0⟩ ⟨0⟩ ⟨1⟩, .setEntry ⟨1⟩, .removeBlock ⟨1⟩,
    .setOperand ⟨0⟩ 2 (.const (.i32 3))]

end Op

end MethodIR
