import MethodIR.Proofs.LiveHistories
import MethodIR.Proofs.PhiPlacement

/-!
# Arguments of phis and edges

A phi loses an argument exactly when the edge goes along which it comes (`Body.drops_disconnect`), over
whole operations as well, which may add edges first (`Op.phiArgs_after`).
-/

namespace MethodIR

open List Kind

/-- Instructions are in their places, uses are exact, edges are known at both ends, and what is removed
is in no block. -/
structure Body.Consistent (x : Body) : Prop where
  attached : x.Attached
  uses : x.ExactUses
  edges : x.Edges
  loose : x.Loose

lemma Body.Consistent.changes {op : Op} {x y : Body} (h : x.Consistent) (hop : Op.Changes op x y) :
    y.Consistent where
  attached := h.attached.changes hop
  uses := h.uses.changes hop
  edges := h.edges.changes hop
  loose := h.loose.changes hop

namespace Body

variable {body x y z : Body} {i j p : InstId} {a b c old new : BlockId} {n : Nat} {α : Type} {is l js : List InstId}
  {q : InstId → Bool}

/-! ## Slots of a phi -/

lemma phiArgs_congr (hkind : y.kind i = x.kind i) (hops : (y.inst i).operands = (x.inst i).operands) :
    y.phiArgs i = x.phiArgs i := by
  rw [phiArgs, hkind, hops, phiArgs]

lemma phiArgs_of_kind {blocks : List BlockId} (h : body.kind i = .phi blocks) :
    body.phiArgs i = blocks.zip (body.inst i).operands := by
  rw [phiArgs, h]

lemma snd_mem_operands {e : BlockId × Value} (he : e ∈ body.phiArgs i) : e.2 ∈ (body.inst i).operands := by
  rw [phiArgs] at he
  split at he
  · exact (of_mem_zip he).2
  · simp at he

lemma zip_eraseIdx {β : Type} (as : List α) (bs : List β) (n : Nat) :
    (as.eraseIdx n).zip (bs.eraseIdx n) = (as.zip bs).eraseIdx n := by
  induction as generalizing bs n with
  | nil => simp
  | cons a as ih =>
    cases bs with
    | nil => simp
    | cons b bs =>
      cases n with
      | zero => simp
      | succ n => simp [ih]

lemma filter_eraseIdx {q : α → Bool} {as : List α} (h : ∀ a ∈ as[n]?, q a = false) :
    (as.eraseIdx n).filter q = as.filter q := by
  induction as generalizing n with
  | nil => simp
  | cons a as ih =>
    cases n with
    | zero =>
      have ha : q a = false := h a (by simp)
      simp [ha]
    | succ n =>
      have hrest := ih (n := n) fun a ha => h a (by simpa using ha)
      simp [filter_cons, hrest]

lemma hasInst_of_isPhi (h : (body.kind i).isPhi) : body.hasInst i := by
  by_contra hnot
  rw [kind, inst, Tables.getD_of_size_le _ _ _ (by simpa [hasInst] using hnot)] at h
  cases h

section

variable {blocks : List BlockId} (h : body.kind i = .phi blocks)
include h

lemma kind_removePhiSlot : (body.removePhiSlot i n).kind i = .phi (blocks.eraseIdx n) := by
  have hin : body.hasInst i := hasInst_of_isPhi (by simp [h, isPhi])
  have hbare := congrArg Inst.kind (bare_inst_congr (bare_removePhiSlot n : (body.removePhiSlot i n).bare = _) i)
  refine hbare.trans ?_
  change ((body.eraseSlot i n).inst i).kind = _
  rw [kind] at h
  rw [eraseSlot, inst_modifyInst, if_pos ⟨rfl, hin⟩, h]

lemma phiArgs_removePhiSlot : (body.removePhiSlot i n).phiArgs i = (body.phiArgs i).eraseIdx n := by
  rw [phiArgs_of_kind (kind_removePhiSlot h), phiArgs_of_kind h, operands_congr (bare_removePhiSlot n),
    operands_eraseSlot, if_pos rfl, zip_eraseIdx]

lemma phiArgs_removePhiSlots (hn : blocks.length ≤ n) :
    (body.removePhiSlots i a n).phiArgs i = (body.phiArgs i).filter (·.1 ≠ a) := by
  induction n generalizing body blocks with
  | zero =>
    obtain rfl : blocks = [] := eq_nil_of_length_eq_zero (by omega)
    rw [removePhiSlots, phiArgs_of_kind h]
    rfl
  | succ n ih =>
    rw [removePhiSlots]
    have hslot : body.phiSlot? i a = blocks.idxOf? a := by rw [phiSlot?, h]
    rw [hslot]
    cases hfound : blocks.idxOf? a with
    | none =>
      have hnot : a ∉ blocks := idxOf?_eq_none_iff.1 hfound
      refine (filter_eq_self.2 fun e he => ?_).symm
      rw [phiArgs_of_kind h] at he
      have hmem := (of_mem_zip he).1
      exact decide_eq_true fun heq => hnot (heq ▸ hmem)
    | some slot =>
      obtain ⟨hlt, heq, -⟩ := idxOf?_eq_some_iff.1 hfound
      have hget : blocks[slot]? = some a := List.getElem?_eq_some_iff.2 ⟨hlt, heq⟩
      change ((body.removePhiSlot i slot).removePhiSlots i a n).phiArgs i = _
      rw [ih (kind_removePhiSlot h) (by rw [length_eraseIdx_of_lt hlt]; omega),
        phiArgs_removePhiSlot h, filter_eraseIdx]
      intro e he
      rw [phiArgs_of_kind h] at he
      have hfst : blocks[slot]? = some e.1 := (getElem?_zip_eq_some.1 he).1
      simp [Option.some.inj (hget.symm.trans hfst)]

end

lemma inst_removePhiSlots_of_ne (hj : j ≠ i) : ((body.removePhiSlots i a n).inst j).bare = (body.inst j).bare := by
  induction n generalizing body with
  | zero => rfl
  | succ n ih =>
    rw [removePhiSlots]
    split
    · next slot _ =>
      rw [ih, bare_inst_congr (bare_removePhiSlot slot) j, eraseSlot, inst_modifyInst, if_neg fun h => hj h.1.symm]
    · rfl

lemma phiArgs_of_bare (h : (y.inst i).bare = (x.inst i).bare) : y.phiArgs i = x.phiArgs i := by
  obtain ⟨hkind, -, hops, -⟩ := Inst.bare_eq_iff.1 h
  exact phiArgs_congr hkind hops

lemma isPhi_removePhiSlots : ((body.removePhiSlots i a n).kind j).isPhi = (body.kind j).isPhi := by
  induction n generalizing body with
  | zero => rfl
  | succ n ih =>
    rw [removePhiSlots]
    split
    · next slot _ => rw [ih, kind, ((sameShape_removePhiSlot slot).inst j).isPhi, kind]
    · rfl

lemma foldl_removePhiSlots (his : ∀ i ∈ is, (body.kind i).isPhi) :
    (is.foldl (fun body i => body.removePhiSlots i a (body.kind i).blocks.length) body).phiArgs p =
      if p ∈ is then (body.phiArgs p).filter (·.1 ≠ a) else body.phiArgs p := by
  induction is generalizing body with
  | nil => simp
  | cons i is ih =>
    have hrest : ∀ j ∈ is, ((body.removePhiSlots i a (body.kind i).blocks.length).kind j).isPhi :=
      fun j hj => isPhi_removePhiSlots.trans (his j (by simp [hj]))
    rw [foldl_cons, ih hrest]
    by_cases hp : p = i
    · subst hp
      cases hk : body.kind p with
      | phi blocks =>
        simp only [Kind.blocks, phiArgs_removePhiSlots hk le_rfl, mem_cons_self, if_true,
          filter_filter, Bool.and_self, ite_self]
      | _ => simp [hk, isPhi] at his
    · rw [phiArgs_of_bare (inst_removePhiSlots_of_ne hp)]
      simp [hp]

lemma phiArgs_removePhiArgs : (body.removePhiArgs b a).phiArgs p =
    if p ∈ body.phis b then (body.phiArgs p).filter (·.1 ≠ a) else body.phiArgs p := by
  rw [removePhiArgs]
  exact foldl_removePhiSlots fun i hi => isPhi_of_mem_phis hi

/-! ## Edges that go -/

/-- `x` has an edge that `y` has not. -/
def Loses (x y : Body) (a b : BlockId) : Prop := b ∈ x.succs a ∧ b ∉ y.succs a

instance (x y : Body) (a b : BlockId) : Decidable (x.Loses y a b) := inferInstanceAs (Decidable (_ ∧ _))

/-- From `x` to `y` edges to `c` only go, and `p`, which stays at the head of `c`, loses what it has
from them. -/
structure Drops (c : BlockId) (p : InstId) (x y : Body) : Prop where
  head : p ∈ y.phis c
  fewer : ∀ a, c ∈ y.succs a → c ∈ x.succs a
  args : y.phiArgs p = (x.phiArgs p).filter fun e => ¬x.Loses y e.1 c

lemma Drops.refl (hp : p ∈ x.phis c) : Drops c p x x where
  head := hp
  fewer _ := id
  args := by simp [Loses]

lemma Drops.trans (h : Drops c p x y) (k : Drops c p y z) : Drops c p x z where
  head := k.head
  fewer a ha := h.fewer a (k.fewer a ha)
  args := by
    rw [k.args, h.args, filter_filter]
    refine filter_congr fun e _ => ?_
    have hxy := h.fewer e.1
    have hyz := k.fewer e.1
    rw [← Bool.decide_and, decide_eq_decide, Loses, Loses, Loses]
    tauto

lemma phis_cut : (body.cut a b).phis c = body.phis c := (phis_congr (samePlaces_cut.instsOf c) fun _ _ => rfl).1

lemma phis_disconnect : (body.disconnect a b).phis c = body.phis c := by
  refine (phis_congr (SamePlaces.across.disconnect.instsOf c) fun i _ => ?_).1
  by_cases hmem : b ∈ body.succs a
  · rw [disconnect_eq hmem]
    exact ((sameShape_removePhiArgs : SameShape (body.cut a b) _).inst i).isPhi
  · rw [disconnect_of_not_mem hmem]

lemma phiArgs_disconnect (hmem : b ∈ body.succs a) : (body.disconnect a b).phiArgs p =
    if p ∈ body.phis b then (body.phiArgs p).filter (·.1 ≠ a) else body.phiArgs p := by
  have hcut : (body.cut a b).phiArgs p = body.phiArgs p := phiArgs_congr rfl rfl
  have hargs : ((body.cut a b).removePhiArgs b a).phiArgs p = _ := phiArgs_removePhiArgs
  rw [phis_cut, hcut] at hargs
  rw [disconnect_eq hmem]
  exact hargs

/-- An edge that is taken away takes along what the phis of its target have from it. -/
lemma drops_disconnect (hplaces : x.Attached) (hedges : x.Edges) (hp : p ∈ x.phis c) :
    Drops c p x (x.disconnect a b) where
  head := phis_disconnect.symm ▸ hp
  fewer d hd := (hedges.mem_succs_disconnect.1 hd).1
  args := by
    by_cases hmem : b ∈ x.succs a
    · have hlost : ∀ d, x.Loses (x.disconnect a b) d c ↔ d = a ∧ c = b := by
        intro d
        rw [Loses, hedges.mem_succs_disconnect]
        constructor
        · tauto
        · rintro ⟨rfl, rfl⟩
          exact ⟨hmem, fun h => h.2 ⟨rfl, rfl⟩⟩
      rw [phiArgs_disconnect hmem]
      simp only [hlost]
      by_cases hc : c = b
      · subst hc
        simp [hp]
      · have hnot : p ∉ x.phis b := fun hpb =>
          hc (hplaces.eq_of_mem (takeWhile_subset _ hp) (takeWhile_subset _ hpb))
        simp [hnot, hc]
    · rw [disconnect_of_not_mem hmem]
      simp [Loses]

lemma drops_foldl_disconnectUnnamed (hplaces : x.Attached) (hedges : x.Edges) (hp : p ∈ x.phis c)
    (ts : List BlockId) : Drops c p x (ts.foldl (·.disconnectUnnamed a ·) x) := by
  induction ts generalizing x with
  | nil => exact .refl hp
  | cons t ts ih =>
    rw [foldl_cons, disconnectUnnamed]
    split
    · exact ih hplaces hedges hp
    · have hdrop := drops_disconnect (a := a) (b := t) hplaces hedges hp
      exact hdrop.trans (ih (hplaces.congr SamePlaces.across.disconnect) hedges.disconnect hdrop.head)

/-! ## Instructions that go -/

lemma mem_takeWhile_erase (hi : q i = false) (hp : p ∈ is.takeWhile q) : p ∈ (is.erase i).takeWhile q := by
  induction is with
  | nil => simp at hp
  | cons j is ih =>
    cases hj : q j with
    | false => simp [hj] at hp
    | true =>
      have hne : j ≠ i := by
        rintro rfl
        simp [hi] at hj
      rw [erase_cons_tail (by simpa using hne)]
      simp only [takeWhile_cons, hj, if_true, mem_cons] at hp ⊢
      exact hp.imp_right ih

lemma drops_detach (hplaces : x.Attached) (hedges : x.Edges) (hi : (x.kind i).isPhi = false)
    (hp : p ∈ x.phis c) : Drops c p x (x.detach i) := by
  cases hb : (x.inst i).block with
  | none =>
    rw [detach_of_none hb]
    exact .refl hp
  | some b =>
    have hhead : p ∈ (x.loosen i b).phis c := by
      rw [phis, instsOf_loosen]
      simp only [kind_loosen]
      split
      · exact mem_takeWhile_erase hi hp
      · exact hp
    have hdrop := drops_foldl_disconnectUnnamed (a := b) (hplaces.loosen hb)
      (edges_of_frame hedges frame_loosen) hhead ((x.loosen i b).kind i).successors
    have hargs : (x.loosen i b).phiArgs p = x.phiArgs p := by
      refine phiArgs_congr kind_loosen ?_
      rw [inst_loosen]
      split <;> rfl
    rw [detach_eq hb]
    refine ⟨hdrop.head, fun a ha => ?_, ?_⟩
    · have hfewer := hdrop.fewer a ha
      rwa [succs_loosen] at hfewer
    · have hrest := hdrop.args
      simp only [Loses, succs_loosen, hargs] at hrest
      exact hrest

lemma Loses.of_detach (hedges : x.Edges) (h : x.Loses (x.detach i) a c) :
    (x.inst i).block = some a ∧ ∀ j ∈ x.instsOf a, j ≠ i → c ∉ (x.kind j).successors := by
  obtain ⟨hmem, hlost⟩ := h
  cases hb : (x.inst i).block with
  | none =>
    rw [detach_of_none hb] at hlost
    exact absurd hmem hlost
  | some b =>
    have hloose := edges_of_frame hedges (frame_loosen (i := i) (b := b))
    rw [detach_eq hb, (hloose.foldl_disconnectUnnamed _).2.1, succs_loosen, not_and_not_right] at hlost
    obtain ⟨rfl, -, hunnamed⟩ := hlost hmem
    refine ⟨rfl, fun j hj hne hnamed => hunnamed (mem_targets.2 ⟨j, ?_, ?_⟩)⟩
    · rw [instsOf_loosen, if_pos rfl]
      exact (mem_erase_of_ne hne).2 hj
    · rwa [kind_loosen]

/-! ## Values that go -/

/-- What stands for a value after a change from `x` to `y`: an undefined value, if it is an instruction
that has been removed meanwhile. -/
def remnant (x y : Body) : Value → Value
  | .inst i => if (y.inst i).isRemoved && !(x.inst i).isRemoved then .undef (x.inst i).ty else .inst i
  | v => v

lemma remnant_of_removed (h : ∀ i, (y.inst i).isRemoved = (x.inst i).isRemoved) (v : Value) :
    x.remnant y v = v := by
  cases v <;> simp [remnant, h]

def Sheds (c : BlockId) (p : InstId) (x y : Body) : Prop :=
  y.phiArgs p = ((x.phiArgs p).filter fun e => ¬x.Loses y e.1 c).map fun e => (e.1, x.remnant y e.2)

lemma Drops.sheds (h : Drops c p x y) (k : SameStanding x y) : Sheds c p x y := by
  simp [Sheds, h.args, remnant_of_removed k.removed]

lemma Sheds.refl : Sheds c p x x := by
  simp [Sheds, remnant_of_removed, Loses]

lemma succs_discard : (body.discard i).succs c = body.succs c := by
  obtain ⟨y, hy, heq⟩ := @sameControl_discard_mark body i
  rw [heq, succs, succs, ← hy.block]
  rfl

lemma isRemoved_discard (hi : body.hasInst i) :
    ((body.discard i).inst j).isRemoved = (decide (j = i) || (body.inst j).isRemoved) := by
  obtain ⟨y, hy, heq⟩ := @sameControl_discard_mark body i
  have hin : y.hasInst i := by simpa [hasInst, hy.size] using hi
  rw [heq, markRemoved, inst_modifyInst]
  by_cases hj : i = j
  · subst hj
    simp [hin]
  · simp [hj, Ne.symm hj, hy.isRemoved]

lemma isRemoved_destroy (hi : body.hasInst i) :
    ((body.destroy i).inst j).isRemoved = (decide (j = i) || (body.inst j).isRemoved) := by
  have hin : (body.detach i).hasInst i := by simpa [hasInst, Rewired.across.detach.insts] using hi
  rw [destroy, isRemoved_discard hin, Rewired.across.detach.standing.removed]

lemma phiArgs_discard (huses : body.ExactUses) (hp : p ≠ i) : (body.discard i).phiArgs p =
    (body.phiArgs p).map fun e => (e.1, .replace (.inst i) (.undef (body.inst i).ty) e.2) := by
  have hty : ((body.dropOperands i).inst i).ty = (body.inst i).ty := by
    rw [(Inst.bare_eq_iff.1 (bare_inst_congr bare_dropOperands i)).2.1, inst_modifyInst]
    split <;> rfl
  have hcleared : ((body.dropOperands i).inst p).bare = (body.inst p).bare := by
    rw [bare_inst_congr bare_dropOperands, inst_modifyInst, if_neg fun h => hp h.1.symm]
  have hinst : ((body.discard i).inst p).bare = ({ body.inst p with
      operands := (body.inst p).operands.map (.replace (.inst i) (.undef (body.inst i).ty)) } : Inst).bare := by
    rw [discard, markRemoved, inst_modifyInst, if_neg fun h => hp h.1.symm, hty,
      inst_replaceUses huses.dropOperands rfl (by simp) (.inr rfl), hcleared,
      (Inst.bare_eq_iff.1 hcleared).2.2.1]
    rfl
  obtain ⟨hkind, -, hops, -⟩ := Inst.bare_eq_iff.1 hinst
  rw [phiArgs, phiArgs, kind, kind, hkind, hops]
  cases (body.inst p).kind with
  | phi blocks => exact zip_map_right
  | _ => rfl

lemma sheds_destroy (hx : x.Consistent) (hi : x.hasInst i) (hphi : (x.kind i).isPhi = false) (hp : p ∈ x.phis c)
    (hlive : x.uses (.inst i) = [] ∨ (x.inst i).isRemoved = false) : Sheds c p x (x.destroy i) := by
  have hne : p ≠ i := by
    rintro rfl
    simp [isPhi_of_mem_phis hp] at hphi
  have hdrop := drops_detach hx.attached hx.edges hphi hp
  have hloses : ∀ a, x.Loses (x.destroy i) a c ↔ x.Loses (x.detach i) a c := fun a => by
    rw [Loses, Loses, destroy, succs_discard]
  rw [Sheds]
  simp only [hloses, ← hdrop.args]
  rw [destroy, phiArgs_discard hx.uses.detach hne, (Rewired.across.detach.inst i).ty]
  refine map_congr_left fun e he => Prod.ext rfl ?_
  rw [← destroy]
  -- Only what has no uses may have been removed before, and it is no argument then.
  rcases eq_or_ne e.2 (.inst i) with heq | hother
  · have hstood : (x.inst i).isRemoved = false := by
      refine hlive.resolve_left fun hnil => ?_
      rw [hdrop.args] at he
      have hmem := snd_mem_operands (mem_of_mem_filter he)
      exact (hx.uses.uses_eq_nil_iff rfl).1 hnil p (heq ▸ hmem)
    simp [heq, remnant, isRemoved_destroy hi, hstood]
  · rw [Value.replace_of_ne hother]
    cases hv : e.2 with
    | inst j =>
      have hj : j ≠ i := fun hji => hother (hv.trans (hji ▸ rfl))
      simp [remnant, isRemoved_destroy hi, hj]
    | _ => rfl

lemma destroy_of_unused (huses : x.ExactUses) (hnil : x.uses (.inst i) = []) :
    x.destroy i = ((x.detach i).dropOperands i).markRemoved i := by
  have hnone : ((x.detach i).dropOperands i).uses (.inst i) = [] := by
    refine (huses.detach.dropOperands.uses_eq_nil_iff rfl).2 fun j hj => ?_
    have htrims := Rewired.across.detach.trims.trans (trims_dropOperands : Trims (x.detach i) ((x.detach i).dropOperands i))
    exact (huses.uses_eq_nil_iff rfl).1 hnil j ((htrims j).2.1 hj)
  rw [destroy, discard, replaceUses, if_neg (by simp), hnone, foldl_nil]

/-! ## Edges that come -/

structure Gains (c : BlockId) (p : InstId) (x y : Body) : Prop where
  head : p ∈ y.phis c
  more : ∀ a, c ∈ x.succs a → c ∈ y.succs a
  args : y.phiArgs p = x.phiArgs p
  insts : ∀ i, x.hasInst i → (y.inst i).isRemoved = (x.inst i).isRemoved ∧ (y.inst i).ty = (x.inst i).ty

lemma Gains.sheds (h : Gains c p x y) (huses : x.ExactUses) (k : Sheds c p y z)
    (hback : ∀ a, y.Loses z a c → c ∈ x.succs a) : Sheds c p x z := by
  have hloses : ∀ a, y.Loses z a c ↔ x.Loses z a c := fun a =>
    ⟨fun hlost => ⟨hback a hlost, hlost.2⟩, fun hlost => ⟨h.more a hlost.1, hlost.2⟩⟩
  rw [Sheds] at k ⊢
  rw [k, h.args]
  simp only [hloses]
  refine map_congr_left fun e he => Prod.ext rfl ?_
  cases hv : e.2 with
  | inst i =>
    have hi : x.hasInst i := by
      have hvalue := huses.hasValue (snd_mem_operands (mem_of_mem_filter he))
      rwa [hv] at hvalue
    simp [remnant, h.insts i hi]
  | _ => rfl

lemma gains_addInst (hplaces : x.Attached) (hp : p ∈ x.phis c) (kind : Kind) (vs : List Value) (ty : Ty) :
    Gains c p x (x.addInst kind vs ty) := by
  have hinst : ∀ i, x.hasInst i → ((x.addInst kind vs ty).inst i).bare = (x.inst i).bare := by
    intro i hi
    rw [inst_addInst, if_neg]
    intro heq
    simp [hasInst, heq] at hi
  have hin := hplaces.hasInst (takeWhile_subset _ hp)
  refine ⟨?_, fun a ha => ?_, phiArgs_of_bare (hinst p hin), fun i hi => ?_⟩
  · rw [(phis_congr (instsOf_addInst kind vs ty c) fun i hi => ?_).1]
    · exact hp
    · rw [hplaces.kind_addInst_of_mem hi]
  · rwa [succs, block_addInst]
  · obtain ⟨-, hty, -, -, hremoved⟩ := Inst.bare_eq_iff.1 (hinst i hi)
    exact ⟨hremoved, hty⟩

lemma mem_succs_attach (hedges : x.Edges) (can : x.CanAttach i b) :
    c ∈ (x.attach i b l).succs a ↔ c ∈ x.succs a ∨ a = b ∧ c ∈ (x.kind i).successors := by
  have hframe := edges_of_frame hedges (frame_fasten (i := i) (b := b) (l := l))
  rw [attach_eq_fasten, (hframe.foldl_connect (hasBlock_fasten.trans can.2.2.2.1) fun t ht =>
    hasBlock_fasten.trans (can.2.2.2.2 t ht)).2.1, succs_fasten]

lemma mem_takeWhile_append (hp : p ∈ is.takeWhile q) : p ∈ (is ++ js).takeWhile q := by
  induction is with
  | nil => simp at hp
  | cons i is ih =>
    cases hi : q i with
    | false => simp [hi] at hp
    | true =>
      simp only [cons_append, takeWhile_cons, hi, if_true, mem_cons] at hp ⊢
      exact hp.imp_right ih

lemma gains_insertLast (hedges : x.Edges) (can : x.CanAttach i b) (hp : p ∈ x.phis c) :
    Gains c p x (x.attach i b (x.instsOf b ++ [i])) := by
  have hinst : ∀ j, ((x.attach i b (x.instsOf b ++ [i])).inst j) =
      if i = j ∧ x.hasInst j then { x.inst j with block := some b } else x.inst j := fun j => inst_attach _
  have hkind : ∀ j, (x.attach i b (x.instsOf b ++ [i])).kind j = x.kind j := fun j => by
    rw [kind, hinst]
    split <;> rfl
  refine ⟨?_, fun a ha => (mem_succs_attach hedges can).2 (.inl ha), phiArgs_congr (hkind p) ?_, fun j _ => ?_⟩
  · rw [phis, instsOf_attach _ can.2.2.2.1]
    simp only [hkind]
    split
    · next hc => exact mem_takeWhile_append (hc ▸ hp)
    · exact hp
  · rw [hinst]
    split <;> rfl
  · rw [hinst]
    split <;> exact ⟨rfl, rfl⟩

lemma inst_rename_of_not_mem (hj : j ∉ is) : (body.rename old new is).inst j = body.inst j := by
  rw [rename]
  induction is generalizing body with
  | nil => rfl
  | cons i is ih =>
    rw [foldl_cons, ih fun h => hj (by simp [h]), inst_modifyInst, if_neg]
    rintro ⟨rfl, -⟩
    simp at hj

lemma isPhi_of_branching {k : Kind} (h : k.isTerminator || k.isGuard) : k.isPhi = false := by
  cases k <;> simp_all [isTerminator, isGuard, isPhi]

lemma gains_rename (hplaces : x.Attached) (hb : x.hasBlock b) (hp : p ∈ x.phis c) (old new : BlockId) :
    Gains c p x ((x.rename old new (x.branching b)).connect b new) := by
  have hnot : ∀ j, (x.kind j).isPhi → j ∉ x.branching b := fun j hj hmem => by
    simp [isPhi_of_branching (mem_branching.1 hmem).2] at hj
  have hinsts : ∀ j, ((x.rename old new (x.branching b)).connect b new).inst j =
      (x.rename old new (x.branching b)).inst j := fun j => by rw [inst, insts_connect, inst]
  refine ⟨?_, fun a ha => ?_, phiArgs_of_bare ?_, fun i _ => ?_⟩
  · rw [(phis_congr ((instsOf_connect b new).trans (instsOf_rename old new _)) fun j hj => ?_).1]
    · exact hp
    · rw [kind, hinsts, ← kind, hplaces.kind_rename]
      split
      · cases x.kind j <;> rfl
      · rfl
  · rw [mem_succs_connect ((hasBlock_rename old new _).trans hb), succs_rename]
    exact .inl ha
  · rw [hinsts, inst_rename_of_not_mem (hnot p (isPhi_of_mem_phis hp))]
  · rw [hinsts]
    exact ⟨((Rewired.across.rename _).inst i).isRemoved, ((Rewired.across.rename _).inst i).ty⟩

lemma sheds_retarget (hx : x.Consistent) (hb : x.hasBlock b) (hold : old ∈ x.targets b)
    (hnew : new ∈ x.succs b ∨ x.hasBlock new) (hp : p ∈ x.phis c) : Sheds c p x (x.retarget b old new) := by
  have hb' : (x.rename old new (x.branching b)).hasBlock b := (hasBlock_rename old new _).trans hb
  have hgains := gains_rename hx.attached hb hp old new
  have hedges' : ((x.rename old new (x.branching b)).connect b new).Edges :=
    (edges_rename hx.edges old new _).connect hb' (by
      rw [succs_rename, hasBlock_rename]
      exact hnew)
  have hdrop := drops_foldl_disconnectUnnamed (a := b)
    (hx.attached.congr ((SamePlaces.across.rename _).trans SamePlaces.across.connect)) hedges' hgains.head [old]
  rw [foldl_cons, foldl_nil] at hdrop
  rw [retarget_eq]
  refine hgains.sheds hx.uses (hdrop.sheds Rewired.across.disconnectUnnamed.standing) fun a hlost => ?_
  obtain ⟨hmem, hgone⟩ := hlost
  have hlost := (hedges'.foldl_disconnectUnnamed (a := b) [old]).2.1 a c
  rw [foldl_cons, foldl_nil] at hlost
  rw [hlost, not_and_not_right] at hgone
  obtain ⟨rfl, hc, hunnamed⟩ := hgone hmem
  obtain rfl := mem_singleton.1 hc
  rw [mem_succs_connect hb', succs_rename] at hmem
  refine hmem.resolve_right fun heq => hunnamed ?_
  rw [targets_connect, hx.attached.targets_rename, if_pos rfl]
  exact mem_map.2 ⟨c, hold, by rw [if_pos rfl, ← heq.2]⟩

lemma Consistent.of_terminator {old : InstId} (hx : x.Consistent) (hold : x.terminator? b = some old) : old ∈ x.instsOf b ∧ (x.inst old).block = some b ∧
      (x.inst old).isRemoved = false ∧ (x.kind old).isPhi = false := by
  obtain ⟨hlast, hterm⟩ := Option.filter_eq_some_iff.1 hold
  have hmem : old ∈ x.instsOf b := mem_of_getLast? hlast
  have hblock := (hx.attached.mem_iff b old).1 hmem
  refine ⟨hmem, hblock, ?_, isPhi_of_branching (by simp [hterm])⟩
  by_contra hremoved
  simp [hx.loose old (by simpa using hremoved)] at hblock

lemma sheds_replaceTerminator (hx : x.Consistent) {old : InstId} (hold : x.terminator? b = some old)
    (can : x.CanAttach i b) (hp : p ∈ x.phis c) : Sheds c p x ((x.attach i b (x.instsOf b ++ [i])).destroy old) := by
  obtain ⟨hmem, hblock, hlive, hphi⟩ := hx.of_terminator hold
  have hne : i ≠ old := by
    rintro rfl
    simp [can.2.2.1] at hblock
  have hinst : (x.attach i b (x.instsOf b ++ [i])).inst old = x.inst old := by
    rw [inst_attach, if_neg fun h => hne h.1]
  have hphi' : ((x.attach i b (x.instsOf b ++ [i])).kind old).isPhi = false := by
    rwa [kind, hinst]
  have hgains := gains_insertLast hx.edges can hp
  have hx' := hx.changes (.insertLast can)
  have hmem' : old ∈ (x.attach i b (x.instsOf b ++ [i])).instsOf b := by
    rw [instsOf_attach _ can.2.2.2.1, if_pos rfl]
    exact mem_append_left _ hmem
  refine hgains.sheds hx.uses (sheds_destroy hx' (hx'.attached.hasInst hmem') hphi' hgains.head
    (.inr (hinst ▸ hlive))) fun a hlost => ?_
  have hdetached : (x.attach i b (x.instsOf b ++ [i])).Loses
      ((x.attach i b (x.instsOf b ++ [i])).detach old) a c := by
    rwa [destroy, Loses, succs_discard] at hlost
  obtain ⟨hhome, hunnamed⟩ := hdetached.of_detach hx'.edges
  rw [hinst, hblock] at hhome
  obtain rfl := Option.some.inj hhome
  refine ((mem_succs_attach hx.edges can).1 hlost.1).resolve_right fun hnew => hunnamed i ?_ hne ?_
  · rw [instsOf_attach _ can.2.2.2.1, if_pos rfl]
    simp
  · rw [kind, inst_attach]
    split
    · exact hnew.2
    · exact hnew.2

end Body

/-! ## Operations -/

/-- The phis of every block come before its other instructions. -/
def Body.PhisFirst (x : Body) : Prop := ∀ b, ∀ i ∈ x.nonPhis b, (x.kind i).isPhi = false

lemma Body.PhisFirst.mem_phis {x : Body} (h : x.PhisFirst)
    (hi : i ∈ x.instsOf b) (hphi : (x.kind i).isPhi) : i ∈ x.phis b := by
  rw [← phis_append_nonPhis] at hi
  refine (mem_append.1 hi).resolve_right fun hrest => ?_
  simp [h b i hrest] at hphi

lemma Body.phisFirst_of_all {x : Body} (h : ((range x.blocks.size).all fun n =>
    (x.nonPhis ⟨n⟩).all fun i => !(x.kind i).isPhi) = true) : x.PhisFirst := by
  intro b i hi
  have hin : x.hasBlock b := hasBlock_of_mem (dropWhile_subset _ hi)
  simp only [all_eq_true, mem_range, Bool.not_eq_eq_eq_not, Bool.not_true] at h
  exact h b.index (by simpa [hasBlock] using hin) i hi

namespace Op

open Body

variable {op : Op} {x y : Body} {i p j : InstId} {b c : BlockId}

lemma consistent_of_afterAll {ops : List Op} {args : List Ty} {ret : Ty}
    (h : afterAll? ops (.empty args ret) = some x) : x.Consistent :=
  afterAll_induction (P := Body.Consistent)
    ⟨attached_empty args ret, exactUses_empty args ret, (wired_empty args ret).edges, fun _ _ => rfl⟩
    (fun _ _ _ _ hx hop => hx.changes hop) h

/-- Whether an operation gives or takes control of a block: by a terminator, by the targets of one, by
an edge, or by taking a terminator or guard out that nothing uses. -/
def rewires (x : Body) : Op → Bool
  | setTerminator .. | setJump .. | replaceTarget .. | disconnect .. => true
  | detach i | removeInst i | destroyInst i =>
    ((x.kind i).isTerminator || (x.kind i).isGuard) && (x.uses (.inst i)).isEmpty
  | _ => false

/-- The terminator in whose place an operation puts another one. -/
def ousted? (x : Body) : Op → Option InstId
  | setTerminator b _ | setJump b _ => x.terminator? b
  | _ => none

lemma sheds_insertLast (hx : x.Consistent) (h : Changes (.insertLast b i) x y) (hp : p ∈ x.phis c) :
    Sheds c p x y := by
  cases h with
  | refused => exact .refl
  | insertLast can =>
    exact (gains_insertLast hx.edges can hp).sheds hx.uses .refl fun a hlost => absurd hlost.1 hlost.2

lemma sheds_setTerminator (hx : x.Consistent) (h : Changes (.setTerminator b i) x y)
    (hp : p ∈ x.phis c) : Sheds c p x y := by
  cases h with
  | refused => exact .refl
  | setTerminator insert => exact sheds_insertLast hx insert hp
  | replaceTerminator before insert =>
    cases insert with
    | refused =>
      obtain ⟨hmem, -, hlive, hphi⟩ := hx.of_terminator before
      exact sheds_destroy hx (hx.attached.hasInst hmem) hphi hp (.inr hlive)
    | insertLast can => exact sheds_replaceTerminator hx before can hp

lemma terminator?_addInst (hx : x.Attached) (kind : Kind) (vs : List Value) (ty : Ty) :
    (x.addInst kind vs ty).terminator? b = x.terminator? b := by
  rw [terminator?, instsOf_addInst, terminator?]
  cases hlast : (x.instsOf b).getLast? with
  | none => rfl
  | some i => simp [Option.filter, hx.kind_addInst_of_mem (mem_of_getLast? hlast)]

lemma sheds_of_changes (hx : x.Consistent) (hop : op.rewires x) (h : Changes op x y)
    (hp : p ∈ x.phis c) : Sheds c p x y := by
  cases h with
  | refused => exact .refl
  | detach =>
    have hphi := isPhi_of_branching (Bool.and_eq_true_iff.1 hop).1
    exact (drops_detach hx.attached hx.edges hphi hp).sheds Rewired.across.detach.standing
  | removeInst exists_inst unused =>
    have hphi := isPhi_of_branching (Bool.and_eq_true_iff.1 hop).1
    rw [← destroy_of_unused hx.uses unused]
    exact sheds_destroy hx exists_inst hphi hp (.inl unused)
  | destroyInst exists_inst =>
    obtain ⟨hbranching, hunused⟩ := Bool.and_eq_true_iff.1 hop
    exact sheds_destroy hx exists_inst (isPhi_of_branching hbranching) hp
      (.inl (isEmpty_iff.1 hunused))
  | setTerminator insert => exact sheds_insertLast hx insert hp
  | replaceTerminator before insert =>
    exact sheds_setTerminator hx (.replaceTerminator before insert) hp
  | setJump create insert =>
    cases create with
    | refused => exact sheds_setTerminator hx insert hp
    | createInst arity known =>
      rename_i b target
      have hgains := gains_addInst hx.attached hp (.jump target) [] .void
      have hx' : (x.addInst (.jump target) [] .void).Consistent := hx.changes (.createInst arity known)
      refine hgains.sheds hx.uses (sheds_setTerminator hx' insert hgains.head) fun a hlost => ?_
      have hmem := hlost.1
      rwa [succs, block_addInst] at hmem
  | replaceTarget exists_block named known =>
    exact sheds_retarget hx exists_block named known hp
  | disconnect => exact (drops_disconnect hx.attached hx.edges hp).sheds Rewired.across.disconnect.standing
  | _ => cases hop

lemma removed_of_setTerminator (hx : x.Consistent) (h : Changes (.setTerminator b i) x y)
    (hy : (y.inst j).isRemoved) (hj : (x.inst j).isRemoved = false) : x.terminator? b = some j := by
  cases h with
  | refused => simp [hj] at hy
  | setTerminator insert =>
    cases insert with
    | refused => simp [hj] at hy
    | insertLast can => simp [Rewired.across.attach.standing.removed, hj] at hy
  | replaceTerminator before insert =>
    rename_i old z
    have hold := hx.attached.hasInst (hx.of_terminator before).1
    have hz : z.hasInst old ∧ (z.inst j).isRemoved = false := by
      cases insert with
      | refused => exact ⟨hold, hj⟩
      | insertLast can =>
        rw [Rewired.across.attach.standing.removed]
        refine ⟨?_, hj⟩
        rw [attach_eq]
        simpa [hasInst] using hold
    rw [isRemoved_destroy hz.1, hz.2, Bool.or_false, decide_eq_true_eq] at hy
    rw [before, hy]

lemma removed_of_changes (hx : x.Consistent) (hop : op.rewires x) (h : Changes op x y)
    (hy : (y.inst j).isRemoved) (hj : (x.inst j).isRemoved = false) :
    x.uses (.inst j) = [] ∨ op.ousted? x = some j := by
  have hstays : ∀ {z : Body}, SameStanding x z → ¬(z.inst j).isRemoved := fun hz => by
    simp [hz.removed, hj]
  cases h with
  | refused => exact absurd hy (hstays (Rewired.across.refl x).standing)
  | detach => exact absurd hy (hstays Rewired.across.detach.standing)
  | removeInst exists_inst unused =>
    rw [← destroy_of_unused hx.uses unused, isRemoved_destroy exists_inst, hj, Bool.or_false,
      decide_eq_true_eq] at hy
    exact .inl (hy ▸ unused)
  | destroyInst exists_inst =>
    rw [isRemoved_destroy exists_inst, hj, Bool.or_false, decide_eq_true_eq] at hy
    exact .inl (hy ▸ isEmpty_iff.1 (Bool.and_eq_true_iff.1 hop).2)
  | setTerminator insert => exact .inr (removed_of_setTerminator hx (.setTerminator insert) hy hj)
  | replaceTerminator before insert =>
    exact .inr (removed_of_setTerminator hx (.replaceTerminator before insert) hy hj)
  | setJump create insert =>
    cases create with
    | refused => exact .inr (removed_of_setTerminator hx insert hy hj)
    | createInst arity known =>
      refine .inr ((terminator?_addInst hx.attached _ _ _).symm.trans
        (removed_of_setTerminator (hx.changes (.createInst arity known)) insert hy ?_))
      rw [isRemoved_addInst]
      split
      · rfl
      · exact hj
  | replaceTarget => exact absurd hy (hstays Rewired.across.retarget.standing)
  | disconnect => exact absurd hy (hstays Rewired.across.disconnect.standing)
  | _ => cases hop

/-- Arguments of phis go with their edges. In a body whose phis come first in their blocks, an operation
that rewires a block takes from each phi just the arguments from blocks that had an edge to the phi's
block and have none any more. The others keep their order, and their values too, except that an
undefined value stands for the terminator that was replaced. -/
theorem phiArgs_after (hx : x.Consistent) (hphis : x.PhisFirst) (hop : op.rewires x)
    (hafter : op.after? x = some y) (hp : p ∈ x.instsOf c) (hphi : (x.kind p).isPhi) :
    y.phiArgs p = ((x.phiArgs p).filter fun e => ¬x.Loses y e.1 c).map (fun e => (e.1, x.remnant y e.2)) ∧
      ∀ i, x.remnant y (.inst i) ≠ .inst i → x.uses (.inst i) = [] ∨ op.ousted? x = some i := by
  have hchange := changes_of_after hafter
  refine ⟨sheds_of_changes hx hop hchange (hphis.mem_phis hp hphi), fun i hi => ?_⟩
  have hgone : (y.inst i).isRemoved ∧ (x.inst i).isRemoved = false := by
    by_contra hnot
    refine hi (if_neg ?_)
    simpa using hnot
  exact removed_of_changes hx hop hchange hgone.1 hgone.2

/-- A branch goes to a block with a phi and to one before it, from which the phi gets what the branch
gives. -/
def forkSteps : List Op := [.createBlock none, .createBlock none, .createBlock none,
    .createInst (.branch ⟨1⟩ ⟨2⟩) [.const (.i32 1)] .i32, .setTerminator ⟨0⟩ ⟨0⟩, .setJump ⟨2⟩ ⟨1⟩,
    .insertPhi ⟨1⟩ .i32, .addPhiArg ⟨2⟩ ⟨0⟩ (.const (.i32 5)), .addPhiArg ⟨2⟩ ⟨2⟩ (.inst ⟨0⟩)]

def fork : Body := (afterAll? forkSteps (.empty [] .i32)).getD default

/-- A jump in place of the branch. -/
def forkJoined : Body := ((setJump ⟨0⟩ ⟨2⟩).after? fork).getD default

theorem forkJoined_phiArgs : fork.PhisFirst ∧ (setJump ⟨0⟩ ⟨2⟩).after? fork = some forkJoined ∧
    forkJoined.phiArgs ⟨2⟩ = ((fork.phiArgs ⟨2⟩).filter fun e => ¬fork.Loses forkJoined e.1 ⟨1⟩).map
      (fun e => (e.1, fork.remnant forkJoined e.2)) ∧ forkJoined.phiArgs ⟨2⟩ = [(⟨2⟩, .undef .i32)] := by
  have hops : afterAll? forkSteps (.empty [] .i32) = some fork := eq_some_getD (by decide)
  have hafter : (setJump ⟨0⟩ ⟨2⟩).after? fork = some forkJoined := eq_some_getD (by decide)
  have hphis : fork.PhisFirst := phisFirst_of_all (by decide)
  refine ⟨hphis, hafter, ?_, by decide⟩
  exact (phiArgs_after (consistent_of_afterAll hops) hphis rfl hafter (by decide) (by decide)).1

/-- A jump along which a phi gets what the jump itself gives. -/
def usedJumpSteps : List Op :=
  [.createBlock none, .createBlock none, .createInst (.jump ⟨1⟩) [] .i32, .setTerminator ⟨0⟩ ⟨0⟩,
    .insertPhi ⟨1⟩ .i32, .addPhiArg ⟨1⟩ ⟨0⟩ (.inst ⟨0⟩)]

def usedJump : Body := (afterAll? usedJumpSteps (.empty [] .i32)).getD default

/-- Another jump to the same block. -/
def usedJumpAgain : Body := ((setJump ⟨0⟩ ⟨1⟩).after? usedJump).getD default

theorem usedJump_value_lost : afterAll? usedJumpSteps (.empty [] .i32) = some usedJump ∧
    usedJump.PhisFirst ∧ (setJump ⟨0⟩ ⟨1⟩).after? usedJump = some usedJumpAgain ∧
    ⟨1⟩ ∈ usedJump.succs ⟨0⟩ ∧ ⟨1⟩ ∈ usedJumpAgain.succs ⟨0⟩ ∧
    usedJump.phiArgs ⟨1⟩ = [(⟨0⟩, .inst ⟨0⟩)] ∧ usedJumpAgain.phiArgs ⟨1⟩ = [(⟨0⟩, .undef .i32)] := by
  exact ⟨eq_some_getD (by decide), phisFirst_of_all (by decide), eq_some_getD (by decide), by decide, by decide,
    by decide, by decide⟩

end Op

end MethodIR
