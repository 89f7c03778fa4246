import MethodIR.Proofs.Arities
import MethodIR.Proofs.Growth

/-!
# Bodies that only grew

Nothing was removed from a body that is still being made, so that the rules about places, edges, uses
and the layout hold of all that is in its tables (`Body.Intact`).
-/

namespace MethodIR.Body

open Rewired Edit

variable {body : Body} {i j : InstId} {a b c old new : BlockId} {kind : Kind} {vs : List Value} {ty : Ty}
  {l pre post : List InstId}

/-! ## Places of instructions -/

lemma home_addInst : ((body.addInst kind vs ty).inst i).block =
    if i.index = body.insts.size then none else (body.inst i).block := by
  have hbare := congrArg Inst.block (inst_addInst body kind vs ty i)
  rw [apply_ite Inst.block] at hbare
  exact hbare

lemma Attached.index_ne (h : body.Attached) (hi : (body.inst i).block = some a) :
    i.index ≠ body.insts.size := fun heq => by
  have hin := h.hasInst ((h.mem_iff a i).2 hi)
  simp [Body.hasInst, heq] at hin

lemma Attached.home_addInst_iff (h : body.Attached) :
    ((body.addInst kind vs ty).inst i).block = some a ↔ (body.inst i).block = some a := by
  rw [home_addInst]
  constructor
  · intro hi
    split at hi
    · simp at hi
    · exact hi
  · intro hi
    rw [if_neg (h.index_ne hi), hi]

lemma Attached.kind_addInst_of_home (h : body.Attached) (hi : (body.inst i).block = some a) :
    (body.addInst kind vs ty).kind i = body.kind i := by
  rw [kind_addInst, if_neg (h.index_ne hi)]

lemma home_attach (hi : body.hasInst i) : ((body.attach i b l).inst j).block =
    if i = j then some b else (body.inst j).block := by
  rw [inst_attach]
  by_cases hij : i = j
  · subst hij
    rw [if_pos ⟨rfl, hi⟩, if_pos rfl]
  · rw [if_neg fun h => hij h.1, if_neg hij]

/-! ## Bodies without removals -/

/-- Instructions, edges, uses and the layout agree, no operand is missing, and nothing was removed. -/
structure Intact (body : Body) : Prop where
  wired : body.Wired
  uses : body.ExactUses
  paired : body.Paired
  laid : body.Laid
  filled : body.Filled
  insts : ∀ i, (body.inst i).isRemoved = false
  blocks : ∀ b, (body.block b).isRemoved = false

lemma Intact.tidy (h : body.Intact) : body.Tidy where
  attached := h.wired.attached
  uses := h.uses
  edges := h.wired.edges
  loose i hi := by simp [h.insts i] at hi
  spent i hi := by simp [h.insts i] at hi
  paired := h.paired
  laid := h.laid

lemma Intact.mem_order (h : body.Intact) : b ∈ body.order ↔ body.hasBlock b := by
  rw [h.laid.mem_iff, h.blocks b]
  simp

lemma Wired.mem_succs (h : body.Wired) : b ∈ body.succs a ↔
    ∃ i, (body.inst i).block = some a ∧ b ∈ (body.kind i).successors := by
  rw [h.named a b, mem_targets]
  exact exists_congr fun i => and_congr_left fun _ => h.attached.mem_iff a i

lemma Intact.mem_succs (h : body.Intact) : b ∈ body.succs a ↔
    ∃ i, (body.inst i).block = some a ∧ b ∈ (body.kind i).successors := h.wired.mem_succs

lemma intact_empty (args : List Ty) (ret : Ty) : (empty args ret).Intact where
  wired := wired_empty args ret
  uses := exactUses_empty args ret
  paired := (tidy_empty args ret).paired
  laid := (tidy_empty args ret).laid
  filled := filled_empty args ret
  insts _ := rfl
  blocks _ := rfl

section

variable (h : body.Intact)
include h

lemma Intact.withVars (vars : Array Variable) : ({ body with vars } : Body).Intact where
  wired := h.wired.control ⟨rfl, rfl, rfl, rfl, fun _ => rfl, fun _ => rfl, fun _ => rfl⟩
  uses := ⟨h.uses.1, h.uses.2⟩
  paired := h.paired
  laid := h.laid.congr ⟨rfl, rfl, rfl, fun _ => rfl⟩
  filled := h.filled
  insts := h.insts
  blocks := h.blocks

lemma Intact.addBlock {place : Option BlockId} (hplace : ∀ a ∈ place, body.hasBlock a) :
    (body.addBlock place).Intact where
  wired := h.wired.addBlock place
  uses := ⟨h.uses.1, h.uses.2⟩
  paired := h.paired
  laid := h.laid.addBlock fun a ha => h.mem_order.2 (hplace a ha)
  filled := h.filled
  insts := h.insts
  blocks b := by
    rw [block_addBlock]
    exact h.blocks b

lemma Intact.addBlock_none : (body.addBlock none).Intact :=
  h.addBlock fun a (ha : a ∈ none) => by simp at ha

lemma Intact.addInst (harity : arityViolation? kind vs.length = none)
    (hvs : ∀ v ∈ vs, v = .inst ⟨body.insts.size⟩ ∨ body.hasValue v) : (body.addInst kind vs ty).Intact where
  wired := h.wired.addInst kind vs ty
  uses := h.uses.addInst hvs
  paired := h.paired.addInst ty harity
  laid := h.laid.congr (sameGraph_addInst kind vs ty).sameRow
  filled := h.filled.addInst ty harity
  insts i := by
    rw [isRemoved_addInst, h.insts i, ite_self]
  blocks b := by
    rw [block_addInst]
    exact h.blocks b

lemma Intact.attach (can : body.CanAttach i b)
    (hl : l.Perm (i :: body.instsOf b)) : (body.attach i b l).Intact where
  wired := h.wired.attach can hl
  uses := h.uses.attach l
  paired := h.paired.trims across.attach.trims
  laid := h.laid.congr across.attach.toSameRow
  filled := h.filled.fills across.attach.fills
  insts j := (across.attach.standing.removed j).trans (h.insts j)
  blocks c := (across.attach.erased c).trans (h.blocks c)

lemma Intact.withInst (harity : arityViolation? kind vs.length = none)
    (hvs : ∀ v ∈ vs, v = .inst ⟨body.insts.size⟩ ∨ body.hasValue v) (hb : body.hasBlock b)
    (hsuccs : ∀ c ∈ kind.successors, body.hasBlock c) (hlist : pre ++ post = body.instsOf b) :
    (body.withInst b pre post kind vs ty).Intact := by
  refine (h.addInst harity hvs).attach (canAttach_addInst_iff.2 ⟨hb, hsuccs⟩) ?_
  rw [instsOf_addInst, ← hlist]
  exact List.perm_middle

end

lemma append_eq_withInst : body.append b kind vs ty = body.withInst b (body.instsOf b) [] kind vs ty := by
  rw [append, instsOf_addInst, withInst]

lemma hasInst_append : (body.append b kind vs ty).hasInst i ↔ body.hasInst i ∨ i = ⟨body.insts.size⟩ := by
  rw [hasInst, insts_size_append, hasInst, InstId.ext_iff]
  simp only [decide_eq_true_eq]
  omega

lemma Intact.append (h : body.Intact) (harity : arityViolation? kind vs.length = none)
    (hvs : ∀ v ∈ vs, body.hasValue v) (hb : body.hasBlock b)
    (hsuccs : ∀ c ∈ kind.successors, body.hasBlock c) : (body.append b kind vs ty).Intact := by
  rw [append_eq_withInst]
  exact h.withInst harity (fun v hv => .inr (hvs v hv)) hb hsuccs (List.append_nil _)

lemma Intact.moveUse (h : body.Intact) {old new : Value} {u : Use} (hold : body.Holds u old) (hne : new ≠ old)
    (hnew : body.hasValue new) : (body.moveUse old new u).Intact where
  wired := h.wired.control sameShape_moveUse.control
  uses := h.uses.moveUse hold hne hnew
  paired := h.paired.moveUse
  laid := h.laid.congr sameShape_moveUse.control.standing.toSameRow
  filled := h.filled.fills fills_moveUse
  insts j := (sameShape_moveUse.control.isRemoved j).trans (h.insts j)
  blocks c := (sameShape_moveUse.control.standing.erased c).trans (h.blocks c)

lemma Intact.retarget (h : body.Intact) (hb : body.hasBlock b)
    (hold : old ∈ body.targets b) (hnew : body.hasBlock new) : (body.retarget b old new).Intact where
  wired := h.wired.changes (.replaceTarget hb hold (.inr hnew)) rfl
  uses := h.uses.changes (.replaceTarget hb hold (.inr hnew))
  paired := h.paired.trims across.retarget.trims
  laid := h.laid.congr across.retarget.toSameRow
  filled := h.filled.fills across.retarget.fills
  insts j := (across.retarget.standing.removed j).trans (h.insts j)
  blocks c := (across.retarget.erased c).trans (h.blocks c)

end MethodIR.Body
