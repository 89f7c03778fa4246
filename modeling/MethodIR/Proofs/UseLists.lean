import MethodIR.Proofs.Bare

/-!
# Exact use lists

A use list is exact if it holds the slots where its value stands, each once. With exact lists,
replacing the uses of a value replaces it in every operand (`Body.operands_replaceUses`).
-/

namespace MethodIR

open List Tables

def Value.replace (old new v : Value) : Value := if v = old then new else v

@[simp] lemma Value.replace_self (old new : Value) : Value.replace old new old = new := by
  simp [replace]

lemma Value.replace_of_ne {old new v : Value} (h : v ≠ old) : Value.replace old new v = v := by
  simp [replace, h]

/-- An instruction whose operands were dropped. -/
def Inst.cleared (x : Inst) : Inst :=
  { x with
    operands := []
    kind := match x.kind with
      | .phi _ => .phi []
      | k => k }

namespace Body

variable {body body' : Body} {i j : InstId} {b : BlockId} {v w old new : Value} {u u' : Use} {f : Value → Value}
  {vs : List Value} {x : Value × Use}

/-- A value stands in a slot. -/
def Holds (body : Body) (u : Use) (v : Value) : Prop := (body.inst u.inst).operands[u.slot]? = some v

structure ExactUses (body : Body) : Prop where
  nodup : ∀ v, (body.uses v).Nodup
  mem_iff : ∀ v u, v.isTracked → (u ∈ body.uses v ↔ body.Holds u v)

lemma operands_of_not_hasInst (h : body.hasInst i = false) : (body.inst i).operands = [] := by
  rw [inst, getD_of_size_le _ _ _ (by simpa [hasInst] using h)]
  rfl

lemma Holds.hasInst (h : body.Holds u v) : body.hasInst u.inst := by
  by_contra hnot
  rw [Holds, operands_of_not_hasInst (by simpa using hnot)] at h
  simp at h

lemma uses_of_not_hasValue (h : body.hasValue v = false) : body.uses v = [] := by
  cases v with
  | const c => rfl
  | undef t => rfl
  | arg a =>
    rw [uses, getD_of_size_le _ _ _ (by simpa [hasValue] using h)]
    rfl
  | inst i =>
    rw [uses, inst, getD_of_size_le _ _ _ (by simpa [hasValue, Body.hasInst] using h)]
    rfl

lemma ExactUses.hasValue (h : body.ExactUses) (hv : v ∈ (body.inst i).operands) : body.hasValue v := by
  by_contra hnot
  have hnot : body.hasValue v = false := by simpa using hnot
  have htracked : v.isTracked := by cases v <;> simp_all [Value.isTracked, Body.hasValue]
  obtain ⟨n, hn⟩ := mem_iff_getElem?.1 hv
  have hmem := (h.mem_iff v ⟨i, n⟩ htracked).2 hn
  rw [uses_of_not_hasValue hnot] at hmem
  simp at hmem

lemma ExactUses.uses_eq_nil_iff (h : body.ExactUses) (htracked : v.isTracked) :
    body.uses v = [] ↔ ∀ i, v ∉ (body.inst i).operands := by
  constructor
  · intro hnil i hi
    obtain ⟨n, hn⟩ := mem_iff_getElem?.1 hi
    have hmem := (h.mem_iff v ⟨i, n⟩ htracked).2 hn
    rw [hnil] at hmem
    simp at hmem
  · intro hall
    refine eq_nil_iff_forall_not_mem.2 fun u hu => hall u.inst ?_
    exact mem_iff_getElem?.2 ⟨u.slot, (h.mem_iff v u htracked).1 hu⟩

lemma mem_users : i ∈ body.users v ↔ ∃ n, (⟨i, n⟩ : Use) ∈ body.uses v := by
  simp only [users, mem_eraseDups, mem_map]
  constructor
  · rintro ⟨u, hu, rfl⟩
    exact ⟨u.slot, hu⟩
  · rintro ⟨n, hn⟩
    exact ⟨_, hn, rfl⟩

lemma ExactUses.mem_users_iff (h : body.ExactUses) (htracked : v.isTracked) :
    i ∈ body.users v ↔ v ∈ (body.inst i).operands := by
  rw [mem_users, mem_iff_getElem?]
  exact exists_congr fun n => h.mem_iff v ⟨i, n⟩ htracked

/-! ## What changes of use lists do -/

lemma uses_modifyInst {f : Inst → Inst} (hf : ∀ x, (f x).uses = x.uses) :
    (body.modifyInst i f).uses v = body.uses v := by
  cases v with
  | const c => rfl
  | undef t => rfl
  | arg a => rfl
  | inst j =>
    rw [uses, inst_modifyInst]
    split
    · exact hf _
    · rfl

lemma uses_addUse (hv : body.hasValue v) : (body.addUse v u).uses w =
    if w = v ∧ v.isTracked then u :: body.uses w else body.uses w := by
  cases v with
  | const c => simp [addUse, Value.isTracked]
  | undef t => simp [addUse, Value.isTracked]
  | arg a =>
    have ha : a.index < body.args.size := by simpa [hasValue] using hv
    cases w with
    | arg c =>
      rw [addUse, uses, modifyArg, getD_modify]
      by_cases hac : c = a
      · subst hac
        simp [ha, Value.isTracked, uses]
      · rw [if_neg fun h => hac (ArgId.ext h.1.symm), if_neg fun h => hac (Value.arg.inj h.1)]
        rfl
    | const c => simp [uses]
    | undef t => simp [uses]
    | inst i => simp [addUse, uses, modifyArg, inst]
  | inst j =>
    cases w with
    | inst c =>
      rw [addUse, uses, inst_modifyInst]
      by_cases hac : j = c
      · subst hac
        rw [if_pos ⟨rfl, hv⟩, if_pos ⟨rfl, rfl⟩]
        rfl
      · rw [if_neg fun h => hac h.1, if_neg fun h => hac (Value.inst.inj h.1).symm]
        rfl
    | const c => simp [uses]
    | undef t => simp [uses]
    | arg a => simp [addUse, uses, modifyInst]

lemma uses_dropUse : (body.dropUse v u).uses w = if w = v then (body.uses w).erase u else body.uses w := by
  cases v with
  | const c => cases w <;> simp [dropUse, uses]
  | undef t => cases w <;> simp [dropUse, uses]
  | arg a =>
    cases w with
    | arg c =>
      rw [dropUse, uses, modifyArg, getD_modify]
      by_cases hac : c = a
      · subst hac
        by_cases hc : c.index < body.args.size
        · simp [hc, uses]
        · have hnil : (body.args.getD c.index default).uses = [] := by
            rw [getD_of_size_le _ _ _ (by omega)]
            rfl
          rw [if_neg fun h => hc h.2, if_pos rfl, uses, hnil]
          rfl
      · rw [if_neg fun h => hac (ArgId.ext h.1.symm), if_neg fun h => hac (Value.arg.inj h)]
        rfl
    | const c => simp [uses]
    | undef t => simp [uses]
    | inst i => simp [dropUse, uses, modifyArg, inst]
  | inst j =>
    cases w with
    | inst c =>
      rw [dropUse, uses, inst_modifyInst]
      by_cases hac : j = c
      · subst hac
        by_cases hj : body.hasInst j
        · rw [if_pos ⟨rfl, hj⟩, if_pos rfl]
          rfl
        · have hnil : body.uses (.inst j) = [] := uses_of_not_hasValue (by simpa [hasValue] using hj)
          rw [if_neg fun h => hj h.2, if_pos rfl, hnil]
          exact hnil
      · rw [if_neg fun h => hac h.1, if_neg fun h => hac (Value.inst.inj h).symm]
        rfl
    | const c => simp [uses]
    | undef t => simp [uses]
    | arg a => simp [dropUse, uses, modifyInst]

section

variable (h : body.bare = body'.bare)
include h

lemma operands_congr (i : InstId) : (body.inst i).operands = (body'.inst i).operands := by
  have hbare := congrArg Inst.operands (bare_inst_congr h i)
  exact hbare

lemma holds_congr : body.Holds u v ↔ body'.Holds u v := by
  rw [Holds, Holds, operands_congr h]

lemma hasInst_congr : body.hasInst i = body'.hasInst i := by
  rw [← hasInst_bare, h, hasInst_bare]

lemma hasValue_congr : body.hasValue v = body'.hasValue v := by
  cases v with
  | const c => rfl
  | undef t => rfl
  | arg a =>
    have hsize := congrArg (fun x : Body => x.args.size) h
    simp only [bare, Array.size_map] at hsize
    simp [hasValue, hsize]
  | inst i => exact hasInst_congr h

end

lemma hasValue_modifyInst (f : Inst → Inst) : (body.modifyInst i f).hasValue v = body.hasValue v := by
  cases v with
  | inst j => exact hasInst_modifyInst f
  | _ => rfl

/-! ## Moving a use -/

lemma moveUse_bare : (body.moveUse old new u).bare =
    (body.modifyInst u.inst fun x => { x with operands := x.operands.set u.slot new }).bare := by
  rw [moveUse, bare_addUse]
  exact bare_modifyInst_congr bare_dropUse fun _ => rfl

lemma holds_moveUse (h : body.Holds u old) :
    (body.moveUse old new u).Holds u' v ↔ if u' = u then v = new else body.Holds u' v := by
  rw [holds_congr moveUse_bare, Holds, inst_modifyInst]
  have hlt := (List.getElem?_eq_some_iff.1 h).1
  by_cases hi : u.inst = u'.inst
  · have hin : body.hasInst u'.inst := hi ▸ h.hasInst
    rw [if_pos ⟨hi, hin⟩, getElem?_set, ← hi]
    by_cases hs : u.slot = u'.slot
    · have hu : u' = u := by cases u; cases u'; simp_all
      rw [if_pos hs, if_pos hlt, if_pos hu, Option.some.injEq, eq_comm]
    · have hu : u' ≠ u := fun heq => hs (heq ▸ rfl)
      rw [if_neg hs, if_neg hu, Holds, hi]
  · have hu : u' ≠ u := fun heq => hi (heq ▸ rfl)
    rw [if_neg fun h => hi h.1, if_neg hu, Holds]

lemma uses_moveUse (hnew : body.hasValue new) : (body.moveUse old new u).uses w = if w = new ∧ new.isTracked
      then u :: (if w = old then (body.uses w).erase u else body.uses w)
      else if w = old then (body.uses w).erase u else body.uses w := by
  have hkeep : ∀ x : Body, ∀ w : Value, (x.modifyInst u.inst fun y =>
      { y with operands := y.operands.set u.slot new }).uses w = x.uses w := fun x w =>
    uses_modifyInst fun _ => rfl
  have hvalue : ((body.dropUse old u).modifyInst u.inst fun y =>
      { y with operands := y.operands.set u.slot new }).hasValue new := by
    rw [hasValue_modifyInst, hasValue_congr bare_dropUse]
    exact hnew
  rw [moveUse, uses_addUse hvalue, hkeep, uses_dropUse]

lemma ExactUses.moveUse (h : body.ExactUses) (hold : body.Holds u old) (hne : new ≠ old)
    (hnew : body.hasValue new) : (body.moveUse old new u).ExactUses := by
  have hfresh : new.isTracked → u ∉ body.uses new := fun ht hmem => by
    have hhold := (h.mem_iff new u ht).1 hmem
    exact hne (Option.some.inj (hhold.symm.trans hold))
  refine ⟨fun w => ?_, fun w u' hw => ?_⟩
  · rw [uses_moveUse hnew]
    by_cases hwn : w = new ∧ new.isTracked
    · rw [if_pos hwn, if_neg (hwn.1 ▸ hne)]
      exact nodup_cons.2 ⟨hwn.1 ▸ hfresh hwn.2, h.nodup w⟩
    · rw [if_neg hwn]
      split
      · exact (h.nodup w).erase u
      · exact h.nodup w
  · rw [uses_moveUse hnew, holds_moveUse hold]
    by_cases hwn : w = new
    · subst hwn
      rw [if_pos ⟨rfl, hw⟩, if_neg hne, mem_cons, h.mem_iff w u' hw]
      by_cases huu : u' = u <;> simp [huu]
    · rw [if_neg fun h => hwn h.1]
      by_cases hwo : w = old
      · subst hwo
        rw [if_pos rfl, (h.nodup w).mem_erase_iff, h.mem_iff w u' hw]
        by_cases huu : u' = u <;> simp [huu, hwn]
      · rw [if_neg hwo, h.mem_iff w u' hw]
        by_cases huu : u' = u
        · subst huu
          have hnot : ¬body.Holds u' w := fun hold' => hwo (Option.some.inj (hold'.symm.trans hold))
          simp [hnot, hwn]
        · rw [if_neg huu]

/-! ## Replacing all uses of a value -/

def mapOperands (f : Value → Value) (body : Body) : Body :=
  { body with insts := body.insts.map fun x => { x with operands := x.operands.map f } }

@[simp] lemma inst_mapOperands (f : Value → Value) : (body.mapOperands f).inst i =
    { body.inst i with operands := (body.inst i).operands.map f } := by
  simp only [inst, mapOperands, Array.getD_eq_getD_getElem?, Array.getElem?_map]
  cases body.insts[i.index]? <;> rfl

lemma instIds_map_inst : body.instIds.map body.inst = body.insts.toList := by
  refine ext_getElem (by simp [instIds]) fun k hk hk' => ?_
  have hlt : k < body.insts.size := by simpa using hk'
  simp [instIds, inst, hlt]

lemma inst_eq_getElem {k : Nat} (hk : k < body.insts.size) : body.inst ⟨k⟩ = body.insts[k] := by
  simp [inst, hk]

lemma mapOperands_eq_self (h : ∀ i, ∀ v ∈ (body.inst i).operands, f v = v) : body.mapOperands f = body := by
  rw [mapOperands]
  congr 1
  refine Array.ext (by simp) fun k hk hk' => ?_
  have hmap : (body.insts[k].operands).map f = body.insts[k].operands := by
    rw [← inst_eq_getElem hk', map_congr_left (h ⟨k⟩), map_id']
  simp [hmap]

lemma mapOperands_set (hold : body.Holds u old) (hf : f new = f old) : (body.modifyInst u.inst fun x =>
      { x with operands := x.operands.set u.slot new }).bare.mapOperands f =
    body.bare.mapOperands f := by
  simp only [mapOperands, bare, modifyInst]
  congr 1
  refine Array.ext (by simp) fun k hk hk' => ?_
  simp only [Array.getElem_map, Array.getElem_modify]
  split
  · next heq =>
    subst heq
    have hlt : u.inst.index < body.insts.size := by simpa using hk'
    have hslot : (body.insts[u.inst.index]).operands[u.slot]? = some old := by
      rw [← inst_eq_getElem hlt]
      exact hold
    have hmap : ((body.insts[u.inst.index]).operands.set u.slot new).map f =
        (body.insts[u.inst.index]).operands.map f := by
      have hget : ((body.insts[u.inst.index]).operands.map f)[u.slot]? = some (f old) := by
        simp [hslot]
      obtain ⟨_, hval⟩ := List.getElem?_eq_some_iff.1 hget
      rw [map_set, hf, ← hval, set_getElem_self]
    simp [Inst.bare, hmap]
  · rfl

lemma foldl_moveUse (h : body.ExactUses) (htracked : old.isTracked) (hne : new ≠ old)
    (hnew : body.hasValue new) {us : List Use} (hus : body.uses old = us) :
    (us.foldl (·.moveUse old new ·) body).ExactUses ∧ (us.foldl (·.moveUse old new ·) body).uses old = [] ∧
      (us.foldl (·.moveUse old new ·) body).bare.mapOperands (.replace old new) =
        body.bare.mapOperands (.replace old new) := by
  induction us generalizing body with
  | nil => exact ⟨h, hus, rfl⟩
  | cons u us ih =>
    have hu : u ∈ body.uses old := by simp [hus]
    have hvalue : (body.moveUse old new u).hasValue new := by
      rw [hasValue_congr moveUse_bare, hasValue_modifyInst]
      exact hnew
    have huses : (body.moveUse old new u).uses old = us := by
      rw [uses_moveUse hnew, if_neg fun h => hne h.1.symm, if_pos rfl, hus, erase_cons_head]
    have hold : body.Holds u old := (h.mem_iff old u htracked).1 hu
    obtain ⟨hexact, hnil, hmap⟩ := ih (h.moveUse hold hne hnew) hvalue huses
    refine ⟨hexact, hnil, hmap.trans ?_⟩
    rw [moveUse_bare]
    refine mapOperands_set hold ?_
    rw [Value.replace_self, Value.replace_of_ne hne]

section

variable (h : body.ExactUses) (htracked : old.isTracked) (hne : new ≠ old)
  (hnew : body.uses old = [] ∨ body.hasValue new)
include h htracked hne hnew

lemma replaceUses_spec : (body.replaceUses old new).ExactUses ∧ (body.replaceUses old new).uses old = [] ∧
      (body.replaceUses old new).bare = body.bare.mapOperands (.replace old new) := by
  have hbare : ∀ x : Body, x.ExactUses → x.uses old = [] →
      x.bare.mapOperands (.replace old new) = x.bare := by
    intro x hx hnil
    refine mapOperands_eq_self fun i v hv => Value.replace_of_ne fun heq => ?_
    have hv : v ∈ (x.inst i).operands := by
      rw [inst_bare] at hv
      exact hv
    exact (hx.uses_eq_nil_iff htracked).1 hnil i (heq ▸ hv)
  rw [replaceUses, if_neg (Ne.symm hne)]
  rcases hnew with hnil | hnew
  · rw [hnil]
    exact ⟨h, hnil, (hbare body h hnil).symm⟩
  · obtain ⟨hexact, hnil, hmap⟩ := foldl_moveUse h htracked hne hnew rfl
    exact ⟨hexact, hnil, (hbare _ hexact hnil).symm.trans hmap⟩

lemma inst_replaceUses : ((body.replaceUses old new).inst i).bare =
      { (body.inst i).bare with operands := (body.inst i).operands.map (.replace old new) } := by
  rw [← inst_bare, (replaceUses_spec h htracked hne hnew).2.2, inst_mapOperands, inst_bare]
  rfl

lemma size_replaceUses : (body.replaceUses old new).insts.size = body.insts.size := by
  have hsize := congrArg (fun x : Body => x.insts.size) (replaceUses_spec h htracked hne hnew).2.2
  simpa [bare, mapOperands] using hsize

end

/-! ## New and dropped operands -/

lemma holds_pushOperand (hi : body.hasInst i) : (body.pushOperand i v).Holds u w ↔
    body.Holds u w ∨ u = ⟨i, (body.inst i).operands.length⟩ ∧ w = v := by
  rw [holds_congr bare_pushOperand, Holds, inst_modifyInst]
  by_cases hu : i = u.inst
  · subst hu
    rw [if_pos ⟨rfl, hi⟩, Holds, getElem?_append]
    cases u with
    | mk i n =>
      simp only [Use.mk.injEq, true_and]
      by_cases hn : n < (body.inst i).operands.length
      · simp only [hn, if_true]
        constructor
        · exact .inl
        · rintro (h | ⟨rfl, -⟩)
          · exact h
          · exact absurd hn (lt_irrefl _)
      · have hnone : (body.inst i).operands[n]? = none := by simpa using hn
        simp only [hn, if_false, hnone, reduceCtorEq, false_or]
        rw [getElem?_singleton]
        by_cases hz : n = (body.inst i).operands.length
        · simp [hz, eq_comm]
        · rw [if_neg (by omega)]
          simp [hz]
  · have hne : u ≠ ⟨i, (body.inst i).operands.length⟩ := fun heq => hu (heq ▸ rfl)
    rw [if_neg fun h => hu h.1]
    simp [hne, Holds]

lemma ExactUses.pushOperand (h : body.ExactUses) (hi : body.hasInst i) (hv : body.hasValue v) :
    (body.pushOperand i v).ExactUses := by
  have huses : ∀ w, (body.pushOperand i v).uses w = if w = v ∧ v.isTracked
      then ⟨i, (body.inst i).operands.length⟩ :: body.uses w else body.uses w := fun w => by
    have hkeep : ∀ w, (body.modifyInst i fun x => { x with operands := x.operands ++ [v] }).uses w =
        body.uses w := fun w => uses_modifyInst fun _ => rfl
    rw [Body.pushOperand, uses_addUse (by rw [hasValue_modifyInst]; exact hv), hkeep]
  have hfresh : ∀ w, w.isTracked → (⟨i, (body.inst i).operands.length⟩ : Use) ∉ body.uses w := by
    intro w hw hmem
    have hhold := (h.mem_iff w _ hw).1 hmem
    simp [Holds] at hhold
  refine ⟨fun w => ?_, fun w u hw => ?_⟩
  · rw [huses]
    split
    · next hwv => exact nodup_cons.2 ⟨hfresh w (hwv.1 ▸ hwv.2), h.nodup w⟩
    · exact h.nodup w
  · rw [huses, holds_pushOperand hi]
    by_cases hwv : w = v
    · subst hwv
      rw [if_pos ⟨rfl, hw⟩, mem_cons, h.mem_iff w u hw]
      simp [or_comm]
    · rw [if_neg fun h => hwv h.1, h.mem_iff w u hw]
      simp [hwv]

lemma ExactUses.foldl_pushOperand (h : body.ExactUses) (hi : body.hasInst i)
    (hvs : ∀ v ∈ vs, body.hasValue v) : (vs.foldl (·.pushOperand i ·) body).ExactUses := by
  induction vs generalizing body with
  | nil => exact h
  | cons v vs ih =>
    rw [foldl_cons]
    refine ih (h.pushOperand hi (hvs v (by simp))) ?_ fun w hw => ?_
    · rw [hasInst_congr bare_pushOperand, hasInst_modifyInst]
      exact hi
    · rw [hasValue_congr bare_pushOperand, hasValue_modifyInst]
      exact hvs w (by simp [hw])

lemma hasValue_pushInst {x : Inst} : (body.pushInst x).hasValue v ↔
    v = .inst ⟨body.insts.size⟩ ∨ body.hasValue v := by
  cases v with
  | const c => simp [hasValue]
  | undef t => simp [hasValue]
  | arg a =>
    simp only [hasValue, pushInst, reduceCtorEq, false_or]
    rfl
  | inst i =>
    simp only [hasValue, hasInst, pushInst, Array.size_push, decide_eq_true_eq, Value.inst.injEq, InstId.ext_iff]
    omega

lemma ExactUses.pushInst (h : body.ExactUses) (kind : Kind) (ty : Ty) : (body.pushInst { kind, ty }).ExactUses := by
  have hold : ∀ u w, (body.pushInst { kind, ty }).Holds u w ↔ body.Holds u w := by
    intro u w
    rw [Holds, inst_pushInst, Holds]
    split
    · next hu => rw [operands_of_not_hasInst (by simp [hasInst, hu])]
    · rfl
  have huses : ∀ w, (body.pushInst { kind, ty }).uses w = body.uses w := by
    intro w
    cases w with
    | inst j =>
      rw [uses, inst_pushInst, uses]
      split
      · next hj =>
        rw [inst, getD_of_size_le _ _ _ (by omega)]
        rfl
      · rfl
    | _ => rfl
  exact ⟨fun w => huses w ▸ h.nodup w, fun w u hw => by rw [huses, hold, h.mem_iff w u hw]⟩

lemma ExactUses.addInst (h : body.ExactUses) {kind : Kind} {ty : Ty}
    (hvs : ∀ v ∈ vs, v = .inst ⟨body.insts.size⟩ ∨ body.hasValue v) : (body.addInst kind vs ty).ExactUses := by
  refine (h.pushInst kind ty).foldl_pushOperand ?_ fun v hv => hasValue_pushInst.2 (hvs v hv)
  simp [hasInst, Body.pushInst]

lemma mem_slots : x ∈ body.slots i ↔ x.2.inst = i ∧ body.Holds x.2 x.1 := by
  obtain ⟨v, ⟨j, n⟩⟩ := x
  simp only [slots, mem_mapIdx, Prod.mk.injEq, Use.mk.injEq, Holds]
  constructor
  · rintro ⟨k, hk, rfl, rfl, rfl⟩
    exact ⟨rfl, getElem?_eq_getElem hk⟩
  · rintro ⟨rfl, hold⟩
    obtain ⟨hk, heq⟩ := List.getElem?_eq_some_iff.1 hold
    exact ⟨n, hk, heq, rfl, rfl⟩

lemma uses_dropUses_eq (hnodup : ∀ v, (body.uses v).Nodup) (xs : List (Value × Use)) (w : Value) :
    (body.dropUses xs).uses w = (body.uses w).filter fun u => (w, u) ∉ xs := by
  rw [dropUses]
  induction xs generalizing body with
  | nil => simp
  | cons x xs ih =>
    obtain ⟨v, u'⟩ := x
    have hstep : ∀ w, (body.dropUse v u').uses w = (body.uses w).filter fun u => (w, u) ≠ (v, u') := by
      intro w
      rw [uses_dropUse]
      split
      · next hwv =>
        rw [(hnodup w).erase_eq_filter]
        exact filter_congr fun u _ => by rw [hwv, Bool.eq_iff_iff]; simp
      · next hwv => simp [hwv]
    rw [foldl_cons, ih fun w => hstep w ▸ (hnodup w).filter _, hstep, filter_filter]
    refine filter_congr fun u _ => ?_
    simp [and_comm]

lemma uses_dropUses (hnodup : ∀ v, (body.uses v).Nodup) (xs : List (Value × Use)) (w : Value) :
    ((body.dropUses xs).uses w).Nodup ∧ ∀ u, u ∈ (body.dropUses xs).uses w ↔ u ∈ body.uses w ∧ (w, u) ∉ xs := by
  rw [uses_dropUses_eq hnodup]
  exact ⟨(hnodup w).filter _, fun u => by simp [mem_filter]⟩

lemma bare_dropOperands : (body.dropOperands i).bare = (body.modifyInst i Inst.cleared).bare :=
  bare_modifyInst_congr (bare_dropUses _) fun _ => rfl

lemma ExactUses.dropOperands (h : body.ExactUses) : (body.dropOperands i).ExactUses := by
  have huses : ∀ w, (body.dropOperands i).uses w = (body.dropUses (body.slots i)).uses w := fun w =>
    uses_modifyInst fun _ => rfl
  have hold : ∀ u w, (body.dropOperands i).Holds u w ↔ u.inst ≠ i ∧ body.Holds u w := by
    intro u w
    rw [holds_congr bare_dropOperands, Holds, inst_modifyInst]
    by_cases hi : i = u.inst
    · subst hi
      by_cases hin : body.hasInst u.inst
      · rw [if_pos ⟨rfl, hin⟩]
        simp [Inst.cleared]
      · rw [if_neg fun h => hin h.2, operands_of_not_hasInst (by simpa using hin)]
        simp
    · rw [if_neg fun h => hi h.1]
      simp [Ne.symm hi, Holds]
  refine ⟨fun w => ?_, fun w u hw => ?_⟩
  · rw [huses]
    exact (uses_dropUses h.nodup _ w).1
  · rw [huses, (uses_dropUses h.nodup _ w).2, hold, mem_slots, h.mem_iff w u hw]
    tauto

/-! ## Places -/

lemma ExactUses.congr (h : body.ExactUses) (huses : ∀ v, body'.uses v = body.uses v)
    (hops : ∀ i, (body'.inst i).operands = (body.inst i).operands) : body'.ExactUses := by
  refine ⟨fun v => huses v ▸ h.nodup v, fun v u hv => ?_⟩
  rw [huses, Holds, hops, h.mem_iff v u hv, Holds]

lemma ExactUses.modifyInst (h : body.ExactUses) {f : Inst → Inst}
    (huses : ∀ x, (f x).uses = x.uses) (hops : ∀ x, (f x).operands = x.operands) :
    (body.modifyInst i f).ExactUses := by
  refine h.congr (fun v => uses_modifyInst huses) fun j => ?_
  rw [inst_modifyInst]
  split
  · exact hops _
  · rfl

lemma ExactUses.attach (h : body.ExactUses) (l : List InstId) : (body.attach i b l).ExactUses := by
  rw [attach_eq]
  exact (h.modifyInst (i := i) (f := fun x => { x with block := some b }) (fun _ => rfl)
    fun _ => rfl).congr (fun v => by cases v <;> rfl) fun j => rfl

/-! ## Renumbered slots -/

lemma uses_addUses {xs : List (Value × Use)} (hvalue : ∀ x ∈ xs, body.hasValue x.1)
    (hxs : xs.Nodup) (hnodup : ∀ v, (body.uses v).Nodup)
    (hfresh : ∀ x ∈ xs, x.1.isTracked → x.2 ∉ body.uses x.1) (w : Value) : ((body.addUses xs).uses w).Nodup ∧
      ∀ u, u ∈ (body.addUses xs).uses w ↔ u ∈ body.uses w ∨ w.isTracked ∧ (w, u) ∈ xs := by
  rw [addUses]
  induction xs generalizing body with
  | nil => simpa using hnodup w
  | cons x xs ih =>
    obtain ⟨v, u'⟩ := x
    have hv : body.hasValue v := hvalue (v, u') (by simp)
    have huses : ∀ w, (body.addUse v u').uses w =
        if w = v ∧ v.isTracked then u' :: body.uses w else body.uses w := fun w => uses_addUse hv
    obtain ⟨hnot, hxs⟩ := nodup_cons.1 hxs
    have hstep := @ih (body.addUse v u') (fun x hx => ?_) hxs (fun w => ?_) fun x hx ht => ?_
    · refine ⟨hstep.1, fun u => ?_⟩
      rw [foldl_cons, hstep.2 u, huses, mem_cons, Prod.mk.injEq]
      by_cases hwv : w = v ∧ v.isTracked
      · rw [if_pos hwv, mem_cons]
        obtain ⟨rfl, ht⟩ := hwv
        simp [ht]
        tauto
      · rw [if_neg hwv]
        have hskip : ¬(w.isTracked ∧ w = v) := fun h => hwv ⟨h.2, h.2 ▸ h.1⟩
        tauto
    · rw [hasValue_congr bare_addUse]
      exact hvalue x (by simp [hx])
    · rw [huses]
      split
      · next hwv =>
        exact nodup_cons.2 ⟨hwv.1 ▸ hfresh (v, u') (by simp) hwv.2, hnodup w⟩
      · exact hnodup w
    · rw [huses]
      have hold := hfresh x (by simp [hx]) ht
      split
      · next hwv =>
        refine fun hmem => (mem_cons.1 hmem).elim (fun heq => hnot ?_) hold
        have hpair : x = (v, u') := Prod.ext hwv.1 heq
        exact hpair ▸ hx
      · exact hold

lemma mem_drop_slots {n : Nat} : x ∈ (body.slots i).drop n ↔
    x.2.inst = i ∧ n ≤ x.2.slot ∧ body.Holds x.2 x.1 := by
  obtain ⟨v, ⟨j, k⟩⟩ := x
  simp only [slots, mem_iff_getElem?, getElem?_drop, getElem?_mapIdx,
    Option.map_eq_some_iff, Prod.mk.injEq, Use.mk.injEq, Holds]
  constructor
  · rintro ⟨m, w, hw, rfl, rfl, rfl⟩
    exact ⟨rfl, Nat.le_add_right n m, hw⟩
  · rintro ⟨rfl, hle, hold⟩
    have hk : n + (k - n) = k := Nat.add_sub_cancel' hle
    exact ⟨k - n, v, by rw [hk]; exact hold, rfl, rfl, hk⟩

lemma nodup_slots : (body.slots i).Nodup := by
  refine List.Nodup.of_map (fun x => x.2.slot) ?_
  have hmap : (body.slots i).map (fun x => x.2.slot) =
      range (body.inst i).operands.length :=
    ext_getElem (by simp [slots]) fun k hk hk' => by simp [slots]
  exact hmap ▸ nodup_range

def eraseSlot (body : Body) (i : InstId) (n : Nat) : Body := body.modifyInst i fun x =>
    { x with
      operands := x.operands.eraseIdx n
      kind := match x.kind with
        | .phi blocks => .phi (blocks.eraseIdx n)
        | k => k }

lemma removePhiSlot_eq (n : Nat) : body.removePhiSlot i n =
    let loose := (body.dropUses ((body.slots i).drop n)).eraseSlot i n
    loose.addUses ((loose.slots i).drop n) := rfl

lemma bare_removePhiSlot (n : Nat) : (body.removePhiSlot i n).bare = (body.eraseSlot i n).bare := by
  rw [removePhiSlot_eq, bare_addUses]
  exact bare_modifyInst_congr (bare_dropUses _) fun _ => rfl

lemma operands_eraseSlot (n : Nat) : ((body.eraseSlot i n).inst j).operands =
    if j = i then (body.inst j).operands.eraseIdx n else (body.inst j).operands := by
  rw [eraseSlot, inst_modifyInst]
  by_cases hj : j = i
  · subst hj
    by_cases hin : body.hasInst j
    · rw [if_pos ⟨rfl, hin⟩, if_pos rfl]
    · rw [if_neg fun h => hin h.2, if_pos rfl, operands_of_not_hasInst (by simpa using hin)]
      rfl
  · rw [if_neg fun h => hj h.1.symm, if_neg hj]

lemma ExactUses.removePhiSlot (h : body.ExactUses) (n : Nat) : (body.removePhiSlot i n).ExactUses := by
  have hbare : (body.dropUses ((body.slots i).drop n)).bare = body.bare := bare_dropUses _
  rw [removePhiSlot_eq]
  set loose := (body.dropUses ((body.slots i).drop n)).eraseSlot i n with hloose
  have hops : ∀ j, (loose.inst j).operands =
      if j = i then (body.inst j).operands.eraseIdx n else (body.inst j).operands := by
    intro j
    rw [hloose, operands_eraseSlot, operands_congr hbare]
  have hdrop := uses_dropUses h.nodup ((body.slots i).drop n)
  have huses : ∀ w, loose.uses w = (body.dropUses ((body.slots i).drop n)).uses w := fun w =>
    uses_modifyInst fun _ => rfl
  have hmem : ∀ w u, w.isTracked → (u ∈ loose.uses w ↔
      body.Holds u w ∧ ¬(u.inst = i ∧ n ≤ u.slot ∧ body.Holds u w)) := by
    intro w u hw
    rw [huses, (hdrop w).2, h.mem_iff w u hw, mem_drop_slots]
  have hadd := @uses_addUses loose ((loose.slots i).drop n) (fun x hx => ?_)
    (nodup_slots.sublist (drop_sublist _ _)) (fun w => huses w ▸ (hdrop w).1) fun x hx ht => ?_
  · refine ⟨fun w => (hadd w).1, fun w u hw => ?_⟩
    rw [(hadd w).2, hmem w u hw, mem_drop_slots, holds_congr (bare_addUses _)]
    by_cases hu : u.inst = i
    · by_cases hn : u.slot < n
      · -- The slots before the one that goes are where they were.
        have hsame : loose.Holds u w ↔ body.Holds u w := by
          rw [Holds, hops, if_pos hu, getElem?_eraseIdx_of_lt hn, Holds]
        have hle : ¬n ≤ u.slot := by omega
        rw [hsame]
        tauto
      · have hle : n ≤ u.slot := by omega
        tauto
    · have hsame : loose.Holds u w ↔ body.Holds u w := by
        rw [Holds, hops, if_neg hu, Holds]
      rw [hsame]
      tauto
  · obtain ⟨rfl, -, hold⟩ := mem_drop_slots.1 hx
    have hin : x.1 ∈ (body.inst x.2.inst).operands := by
      have hlist := mem_of_getElem? hold
      rw [hops, if_pos rfl] at hlist
      exact mem_of_mem_eraseIdx hlist
    rw [hloose, eraseSlot, hasValue_modifyInst, hasValue_congr hbare]
    exact h.hasValue hin
  · obtain ⟨hinst, hle, -⟩ := mem_drop_slots.1 hx
    rw [hmem x.1 x.2 ht]
    tauto

end Body

end MethodIR
