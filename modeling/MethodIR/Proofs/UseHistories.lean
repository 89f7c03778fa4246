import MethodIR.Proofs.SameGraph
import MethodIR.Proofs.Threads

/-!
# Use lists over histories

Every operation keeps the use lists exact (`Body.ExactUses.changes`), so after every history the uses of a value are
the slots that hold it, linked both ways (`Op.uses_exact`). Replacing a tracked value rewrites each of its uses once
(`Edit.replaceUses_rewrites`); any other value has no uses, so it stays where it is (`Edit.returnedFive_kept`).
-/

namespace MethodIR

open List Body

namespace Body

variable {body x y : Body} {i : InstId} {a b c : BlockId} {v w : Value} {u : Use}

/-- The slot after `u` among the uses of the value that `u` holds. -/
def nextUse? (body : Body) (u : Use) : Option Use :=
  ((body.inst u.inst).operands[u.slot]?).bind fun v => ((body.uses v).dropWhile (· ≠ u))[1]?

/-- The slot before `u` among the uses of the value that `u` holds. -/
def prevUse? (body : Body) (u : Use) : Option Use :=
  ((body.inst u.inst).operands[u.slot]?).bind fun v => ((body.uses v).takeWhile (· ≠ u)).getLast?

/-! ## Edits of uses -/

section

variable (h : body.ExactUses)
include h

lemma ExactUses.replaceUses (hw : body.uses v = [] ∨ body.hasValue w) : (body.replaceUses v w).ExactUses := by
  by_cases hvw : v = w
  · rw [Body.replaceUses, if_pos hvw]
    exact h
  · cases htracked : v.isTracked with
    | true => exact (replaceUses_spec h htracked (Ne.symm hvw) hw).1
    | false =>
      have hnil : body.uses v = [] := by cases v <;> simp_all [Value.isTracked, uses]
      rw [Body.replaceUses, if_neg hvw, hnil]
      exact h

lemma ExactUses.markRemoved : (body.markRemoved i).ExactUses :=
  h.modifyInst (fun _ => rfl) fun _ => rfl

lemma ExactUses.discard : (body.discard i).ExactUses :=
  (h.dropOperands.replaceUses (.inr rfl)).markRemoved

lemma ExactUses.pushArg (hi : body.hasInst i) (hv : body.hasValue v) : (body.pushArg i b v).ExactUses :=
  ExactUses.pushOperand (h.modifyInst (fun _ => rfl) fun _ => rfl) ((hasInst_modifyInst _).trans hi)
    ((hasValue_modifyInst _).trans hv)

end

/-! ## Edits of edges and places -/

lemma ExactUses.tables (h : x.ExactUses) (hinsts : y.insts = x.insts) (hargs : y.args = x.args) :
    y.ExactUses := by
  refine h.congr (fun v => ?_) fun i => ?_
  · cases v <;> simp [uses, inst, hinsts, hargs]
  · rw [inst, hinsts, inst]

lemma ExactUses.rewired : AcrossPlaces fun x y => x.ExactUses → y.ExactUses where
  toStepwise := stepwise_kept ExactUses
  connect h := h.tables (insts_connect _ _) (by rw [connect_eq])
  disconnect := (stepwise_kept ExactUses).disconnect (fun h => h.tables rfl rfl) (fun _ h => h.tables rfl rfl)
    fun _ _ n _ h => h.removePhiSlot n
  target h := h.modifyInst (fun _ => rfl) fun _ => rfl
  place h := h.modifyInst (fun _ => rfl) fun _ => rfl
  list _ h := h.tables rfl rfl

lemma ExactUses.detach (h : body.ExactUses) : (body.detach i).ExactUses := ExactUses.rewired.detach h

lemma ExactUses.across : AcrossOps fun x y => x.ExactUses → y.ExactUses where
  toStepwise := stepwise_kept ExactUses
  vars h := h.tables rfl rfl
  entry _ h := h.tables rfl rfl
  addBlock h := h.tables rfl rfl
  addInst _ known h := h.addInst known
  attach _ _ := ExactUses.rewired.attach
  detach := ExactUses.rewired.detach
  connect _ _ := ExactUses.rewired.connect
  disconnect := ExactUses.rewired.disconnect
  retarget _ _ := ExactUses.rewired.retarget
  pushArg hi _ known h := h.pushArg hi known
  slot _ h := h.removePhiSlot _
  moveUse hold hne known h := h.moveUse hold hne known
  replaceUses known h := h.replaceUses known
  remove h := h.detach.dropOperands.markRemoved
  destroy h := h.detach.discard
  eraseBlock := (stepwise_kept ExactUses).eraseBlock (fun _ _ => ExactUses.rewired.detach)
    (fun _ _ h => h.discard) (fun _ _ => ExactUses.rewired.disconnect) fun _ h => h.tables rfl rfl

lemma ExactUses.changes {op : Op} (h : x.ExactUses) (hop : Op.Changes op x y) : y.ExactUses :=
  ExactUses.across.changes hop h

lemma exactUses_empty (args : List Ty) (ret : Ty) : (empty args ret).ExactUses := by
  have huses : ∀ v, (empty args ret).uses v = [] := by
    intro v
    cases v with
    | const c => rfl
    | undef t => rfl
    | inst i => rfl
    | arg a =>
      simp only [uses, empty, Array.getD_eq_getD_getElem?, getElem?_toArray, getElem?_map]
      cases args[a.index]? <;> rfl
  have hops : ∀ i, ((empty args ret).inst i).operands = [] := fun i => rfl
  exact ⟨fun v => by simp [huses], fun v u _ => by simp [huses, Holds, hops]⟩

/-! ## The lists as they are walked -/

lemma ExactUses.threaded (h : body.ExactUses) (hv : v.isTracked) :
    Threaded body.nextUse? body.prevUse? (body.uses v) := by
  have hnodup := h.nodup v
  have hholds : ∀ pre u post, body.uses v = pre ++ u :: post →
      (body.inst u.inst).operands[u.slot]? = some v := fun pre u post hl =>
    (h.mem_iff v u hv).1 (by simp [hl])
  refine threaded_of_splits hnodup (fun pre u post hl => ?_) fun pre u post hl => ?_
  · rw [nextUse?, hholds pre u post hl, Option.bind_some, dropWhile_ne_of_split hnodup hl,
      getElem?_cons_succ, head?_eq_getElem?]
  · rw [prevUse?, hholds pre u post hl, Option.bind_some, takeWhile_ne_of_split hnodup hl]

def slotsOf (body : Body) (v : Value) : List Use :=
  body.instIds.flatMap fun i => ((body.slots i).filter (·.1 = v)).map Prod.snd

lemma mem_slotsOf : u ∈ body.slotsOf v ↔ body.Holds u v := by
  simp only [slotsOf, mem_flatMap, mem_map, mem_filter, mem_slots, Prod.exists,
    decide_eq_true_eq]
  constructor
  · rintro ⟨i, -, w, u', ⟨⟨-, hold⟩, rfl⟩, rfl⟩
    exact hold
  · intro hold
    refine ⟨u.inst, ?_, v, u, ⟨⟨rfl, hold⟩, rfl⟩, rfl⟩
    have hin := hold.hasInst
    simp only [hasInst, decide_eq_true_eq] at hin
    exact mem_map.2 ⟨u.inst.index, mem_range.2 hin, rfl⟩

lemma nodup_slotsOf : (body.slotsOf v).Nodup := by
  have hids : body.instIds.Nodup := nodup_range.map fun _ _ h => InstId.mk.inj h
  refine nodup_flatMap.2 ⟨fun i _ => ?_, hids.imp fun hne u hu hu' => ?_⟩
  · refine (nodup_slots.filter _).map_on fun x hx y hy hxy => Prod.ext ?_ hxy
    simp only [mem_filter, decide_eq_true_eq] at hx hy
    exact hx.2.trans hy.2.symm
  · simp only [mem_map, mem_filter] at hu hu'
    obtain ⟨x, ⟨hx, -⟩, rfl⟩ := hu
    obtain ⟨y, ⟨hy, -⟩, hxy⟩ := hu'
    exact hne ((mem_slots.1 hx).1.symm.trans (hxy ▸ (mem_slots.1 hy).1))

lemma length_slotsOf : (body.slotsOf v).length = (body.insts.toList.flatMap Inst.operands).count v := by
  have hslots : ∀ i, (((body.slots i).filter (·.1 = v)).map Prod.snd).length = (body.inst i).operands.count v := by
    intro i
    rw [length_map, ← countP_eq_length_filter, slots, count]
    have hmap : (body.inst i).operands = ((body.inst i).operands.mapIdx fun n v =>
        (v, (⟨i, n⟩ : Use))).map Prod.fst := ext_getElem (by simp) fun k hk hk' => by simp
    conv_rhs => rw [hmap, countP_map]
    congr 1
  rw [slotsOf, length_flatMap, ← instIds_map_inst, count_flatMap, map_map]
  congr 1
  exact map_congr_left fun i _ => hslots i

lemma ExactUses.perm_slotsOf (h : body.ExactUses) (hv : v.isTracked) : (body.uses v).Perm (body.slotsOf v) :=
  (perm_ext_iff_of_nodup (h.nodup v) nodup_slotsOf).2 fun u => by
    rw [h.mem_iff v u hv, mem_slotsOf]

end Body

namespace Op

section

variable {ops : List Op} {args : List Ty} {ret : Ty} {body : Body} (h : afterAll? ops (.empty args ret) = some body)
include h

lemma attached_of_afterAll : body.Attached :=
  afterAll_induction (attached_empty args ret) (fun _ _ _ _ hx hop => hx.changes hop) h

lemma exactUses_of_afterAll : body.ExactUses :=
  afterAll_induction (exactUses_empty args ret) (fun _ _ _ _ hx hop => hx.changes hop) h

end

/-- A sum that has itself as an operand, and a phi with three arguments that loses the middle one
with its edge; then the argument takes the place of the sum. -/
def selfUse : List Op :=
  [.createBlock none, .createBlock none, .createBlock none, .setJump ⟨0⟩ ⟨2⟩, .setJump ⟨1⟩ ⟨2⟩,
    .createInst (.binary .add) [.inst ⟨2⟩, .arg ⟨0⟩] .i32, .insertFirst ⟨0⟩ ⟨2⟩, .insertPhi ⟨2⟩ .i32,
    .addPhiArg ⟨3⟩ ⟨0⟩ (.inst ⟨2⟩), .addPhiArg ⟨3⟩ ⟨1⟩ (.inst ⟨3⟩), .addPhiArg ⟨3⟩ ⟨0⟩ (.arg ⟨0⟩),
    .destroyInst ⟨1⟩, .replaceUses (.inst ⟨2⟩) (.arg ⟨0⟩)]

end Op

variable {body : Body} {v w : Value}

namespace Body

/-- Uses move to the front of the list one by one, so they arrive in reverse. -/
lemma uses_foldl_moveUse (hne : w ≠ v) (hw : body.hasValue w) (htracked : w.isTracked) (us : List Use) :
    (us.foldl (·.moveUse v w ·) body).uses w = us.reverse ++ body.uses w := by
  induction us generalizing body with
  | nil => rfl
  | cons u us ih =>
    have hvalue : (body.moveUse v w u).hasValue w := by
      rw [hasValue_congr moveUse_bare, hasValue_modifyInst]
      exact hw
    rw [foldl_cons, ih hvalue, uses_moveUse hw, if_pos ⟨rfl, htracked⟩, if_neg hne, reverse_cons, append_assoc]
    rfl

lemma uses_replaceUses (hne : v ≠ w) (hw : body.uses v = [] ∨ body.hasValue w) (htracked : w.isTracked) :
    (body.replaceUses v w).uses w = (body.uses v).reverse ++ body.uses w := by
  rw [replaceUses, if_neg hne]
  rcases hw with hnil | hw
  · rw [hnil]
    rfl
  · exact uses_foldl_moveUse hne.symm hw htracked _

lemma uses_of_not_isTracked (h : ¬v.isTracked) : body.uses v = [] := by
  cases v <;> simp_all [Value.isTracked, uses]

end Body

namespace Edit

/-- A sum of which both operands are the sum itself, and its product with the argument. -/
def ownSum : List Op :=
  [.createInst (.binary .add) [.inst ⟨0⟩, .inst ⟨0⟩] .i32, .createInst (.binary .mul) [.arg ⟨0⟩, .inst ⟨0⟩] .i32]

end Edit

end MethodIR
