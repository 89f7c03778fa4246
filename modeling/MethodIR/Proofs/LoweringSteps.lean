import MethodIR.Proofs.FencedSegments
import MethodIR.Proofs.LoweringRules

/-!
# Steps of lowering

Lowering changes the state in steps of a few kinds (`Step`). A variable for a value on the stack has the
type of what is stored to it first.
-/

namespace MethodIR.Import

open List Success Traced Body State Edit
open Bytecode (Action Storage ElementTy)

variable {s s' s'' : State} {v : VarId} {u : Value} {n : Nat} {vars pending pending' : List VarId} {kind : Kind}
  {vs : List Value} {t t' : Trace State} {a : Unit}

namespace State

def used (s : State) (v : VarId) (isStore : Bool) : State :=
  s.noteUse v s.cursor.block (isStore && s.cursor.inRegion)

def Stored (s : State) (v : VarId) : Prop := ∃ i, s.body.hasInst i ∧ s.body.kind i = .storeVar v

/-- A value may be stored to a variable: it is one of the frame, or it was stored to before, or it has the
type of the value. -/
def Takes (s : State) (v : VarId) (u : Value) : Prop :=
  s.body.hasVar v ∧ ((∃ slot, s.frameVar? slot = some v) ∨ s.Stored v ∨
    s.body.hasValue u ∧ s.body.valueTy u = (s.body.var v).ty)

end State

/-- One thing that lowering does. -/
inductive Step : State → State → Prop
  /-- The stack, the offset or the modifiers change. -/
  | cursor {s : State} (f : Cursor → Cursor) (index : ∀ k, (f k).index = k.index)
    (block : ∀ k, (f k).block = k.block) (inRegion : ∀ k, (f k).inRegion = k.inRegion) :
    Step s (s.modifyCursor f)
  | enter {s : State} {n : Nat} (lt : n < s.segments.size) : Step s (s.enter n)
  /-- An instruction is added that names no variable, and no blocks but the first ones of segments. -/
  | emit {s : State} {kind : Kind} {vs : List Value} {ty : Ty} (block : s.body.hasBlock s.cursor.block)
    (plain : kind.var? = none) (leads : ∀ b ∈ kind.successors, ∃ offset, s.EntryAt offset b) :
    Step s (s.append kind vs ty)
  | load {s : State} {v : VarId} {ty : Ty} (block : s.body.hasBlock s.cursor.block)
    (known : s.body.hasVar v) : Step s ((s.used v false).append (.loadVar v) [] ty)
  | address {s : State} {v : VarId} {ty : Ty} (block : s.body.hasBlock s.cursor.block)
    (known : s.body.hasVar v) : Step s (((s.used v false).expose v).append (.varAddr v) [] ty)
  | store {s : State} {v : VarId} {u : Value} (block : s.body.hasBlock s.cursor.block)
    (takes : s.Takes v u) : Step s ((s.used v true).append (.storeVar v) [u] .void)
  | declare {s : State} {vars : Array Variable} (grows : s.body.Grows { s.body with vars }) :
    Step s { s with body := { s.body with vars } }
  /-- It becomes known in which variables a segment expects the stack. -/
  | expect {s : State} (n : Nat) {vars : List VarId} : Step s (s.expect n vars)

def Steps : State → State → Prop := Relation.ReflTransGen Step

lemma Steps.refl (s : State) : Steps s s := Relation.ReflTransGen.refl

lemma Steps.trans (h : Steps s s') (k : Steps s' s'') : Steps s s'' := Relation.ReflTransGen.trans h k

lemma Step.steps (h : Step s s') : Steps s s' := Relation.ReflTransGen.single h

lemma Steps.induction {P : State → Prop} (h : Steps s s') (hs : P s)
    (hstep : ∀ s s', Step s s' → P s → P s') : P s' := by
  induction h with
  | refl => exact hs
  | tail _ step ih => exact hstep _ _ step ih

/-! ## What stays -/

lemma Step.grows (h : Step s s') : s.body.Grows s'.body := by
  cases h with
  | cursor => exact .refl _
  | enter => exact .refl _
  | emit => exact grows_append ..
  | load => exact grows_append ..
  | @address v ty =>
    have hexpose : s.body.Grows ((s.used v false).expose v).body :=
      grows_modifyVar v (fun _ => rfl) fun _ => rfl
    exact hexpose.trans (grows_append ..)
  | store => exact grows_append ..
  | declare grows => exact grows
  | expect => exact .refl _

lemma Step.frameVar? (h : Step s s') : s'.frameVar? = s.frameVar? := by
  cases h <;> exact frameVar?_congr rfl rfl

lemma Steps.grows (h : Steps s s') : s.body.Grows s'.body := by
  refine h.induction (P := fun x => s.body.Grows x.body) (.refl _) ?_
  exact fun _ _ step hg => hg.trans step.grows

lemma Steps.frameVar? (h : Steps s s') : s'.frameVar? = s.frameVar? := by
  refine h.induction (P := fun x => x.frameVar? = s.frameVar?) rfl ?_
  exact fun _ _ step heq => step.frameVar?.trans heq

lemma State.Stored.mono (h : s.Stored v) (hg : s.body.Grows s'.body) : s'.Stored v := by
  obtain ⟨i, hi, hk⟩ := h
  obtain ⟨hi', hkind, -⟩ := hg.inst i hi
  exact ⟨i, hi', hkind.trans hk⟩

lemma State.Takes.mono (h : s.Takes v u) (hsteps : Steps s s') : s'.Takes v u := by
  obtain ⟨hv, htakes⟩ := h
  have hg := hsteps.grows
  obtain ⟨hv', hty, -⟩ := hg.var v hv
  refine ⟨hv', htakes.imp (fun hframe => ?_) fun h => h.imp (fun hs => hs.mono hg) fun ⟨hu, heq⟩ => ?_⟩
  · rwa [hsteps.frameVar?]
  · exact ⟨hg.hasValue hu, by rw [hg.valueTy hu, heq, hty]⟩

structure SameCode (s s' : State) : Prop extends SameSegments s s' where
  inRegion : ∀ n, (s'.segment n).inRegion = (s.segment n).inRegion

lemma SameCode.of_eq (h : s'.segments = s.segments) : SameCode s s' :=
  ⟨.of_eq h, fun n => by rw [State.segment, h, State.segment]⟩

lemma SameCode.trans (h : SameCode s s') (k : SameCode s' s'') : SameCode s s'' :=
  ⟨h.toSameSegments.trans k.toSameSegments, fun n => (k.inRegion n).trans (h.inRegion n)⟩

lemma sameCode_modifySegment (s : State) (n : Nat) (slots : Option (List EntrySlot)) :
    SameCode s (s.modifySegment n fun x => { x with entryStack := slots }) := by
  refine ⟨⟨Array.size_modify .., fun k => ?_⟩, fun k => ?_⟩
  · rw [segment_modifySegment]
    split <;> exact ⟨rfl, rfl, rfl, rfl⟩
  · rw [segment_modifySegment]
    split <;> rfl

lemma Step.sameCode (h : Step s s') : SameCode s s' := by
  cases h with
  | @enter n =>
    have hsame := sameCode_modifySegment s n (some ((s.segment n).entryStack.getD []))
    exact ⟨⟨hsame.size, hsame.same⟩, hsame.inRegion⟩
  | expect n => exact sameCode_modifySegment s n _
  | _ => exact .of_eq rfl

lemma Steps.sameCode (h : Steps s s') : SameCode s s' := by
  refine h.induction (P := fun x => SameCode s x) (.of_eq rfl) ?_
  exact fun _ _ step hsame => hsame.trans step.sameCode

/-! ## Variables that segments expect -/

/-- The variables of the frame are there, and so are those in which segments expect the stack, which have
been stored to unless they are pending. -/
structure Settled (pending : List VarId) (s : State) : Prop where
  frame : ∀ slot v, s.frameVar? slot = some v → s.body.hasVar v
  entry : ∀ n slots v, (s.segment n).entryStack = some slots → .var v ∈ slots →
    s.body.hasVar v ∧ (v ∈ pending ∨ s.Stored v)

section

variable (h : Settled pending s)
include h

lemma Settled.weaken (hsub : pending ⊆ pending') : Settled pending' s :=
  ⟨h.frame, fun n slots v hn hv => (h.entry n slots v hn hv).imp_right fun h => h.imp_left fun h => hsub h⟩

lemma Settled.finish (hall : ∀ v ∈ pending, s.Stored v) : Settled [] s := ⟨h.frame, fun n slots v hn hv =>
    (h.entry n slots v hn hv).imp_right fun h => .inr (h.elim (hall v) id)⟩

lemma Settled.steps (hsteps : Steps s s') (hsegments : s'.segments = s.segments) : Settled pending s' := by
  have hg := hsteps.grows
  refine ⟨fun slot v hv => ?_, fun n slots v hn hv => ?_⟩
  · rw [hsteps.frameVar?] at hv
    exact (hg.var v (h.frame slot v hv)).1
  · rw [State.segment, hsegments] at hn
    obtain ⟨hhas, hstored⟩ := h.entry n slots v hn hv
    exact ⟨(hg.var v hhas).1, hstored.imp_right fun hs => hs.mono hg⟩

lemma Settled.expect (n : Nat) (hvars : ∀ v ∈ vars, s.body.hasVar v ∧ (v ∈ pending ∨ s.Stored v)) :
    Settled pending (s.expect n vars) := by
  refine ⟨h.frame, fun k slots v hk hv => ?_⟩
  rw [State.expect, segment_modifySegment] at hk
  split at hk
  · obtain rfl := Option.some.inj hk
    obtain ⟨w, hw, hwv⟩ := mem_map.1 hv
    obtain rfl := EntrySlot.var.inj hwv
    exact hvars w hw
  · exact h.entry k slots v hk hv

lemma Settled.enter (n : Nat) : Settled pending (s.enter n) := by
  refine ⟨h.frame, fun k slots v hk hv => ?_⟩
  rcases entryStack_enter hk with hk | rfl
  · exact h.entry k slots v hk hv
  · simp at hv

end

/-! ## Computations -/

def moving (m : Bytecode) : Keeping where
  m
  inv := Settled []
  onward := Steps
  done s s' := Steps s s' ∧ Settled [] s'
  faults _ := True
  blames _ := trivial
  refl := .refl
  trans := .trans
  finish h k := ⟨h.trans k.1, k.2⟩

section Moves

variable {m : Bytecode} {α : Type} {x : M α} {f : Cursor → Cursor}

lemma moves_of_ok (h : ∀ log a t, Settled [] s → x ⟨s, log⟩ = .ok a t →
    Steps s t.state ∧ Settled [] t.state) : (moving m).Runs s x fun _ _ => True := by
  refine fun log hs => ⟨fun _ _ _ => trivial, fun a t hx => ?_⟩
  obtain ⟨hsteps, hs'⟩ := h log a t hs hx
  exact ⟨hs', hsteps, trivial⟩

lemma moves_of_step (h : ∀ log a t, x ⟨s, log⟩ = .ok a t →
    Step s t.state ∧ t.state.segments = s.segments) : (moving m).Runs s x fun _ _ => True := by
  refine moves_of_ok fun log a t hs hx => ?_
  obtain ⟨hstep, hsegments⟩ := h log a t hx
  exact ⟨hstep.steps, hs.steps hstep.steps hsegments⟩

lemma Step.modifyCursor (hf : CursorEdit f) : Step s (s.modifyCursor f) :=
  .cursor f (fun k => (hf k).1) (fun k => (hf k).2.1) fun k => (hf k).2.2

lemma moves_modifyCursor (hf : CursorEdit f) :
    (moving m).Runs s (modifyState (·.modifyCursor f)) fun _ _ => True := by
  refine moves_of_step fun log a t h => ?_
  obtain rfl := modifyState_iff.1 h
  exact ⟨.modifyCursor hf, rfl⟩

lemma moves_emit {ty : Ty} (hplain : kind.var? = none)
    (hleads : ∀ b ∈ kind.successors, ∃ offset, s.EntryAt offset b) :
    (moving m).Runs s (emit kind vs ty) fun _ _ => True := by
  refine moves_of_step fun log a t h => ?_
  obtain ⟨-, hblock, -, -, -, rfl⟩ := emit_eq_ok h
  exact ⟨.emit hblock hplain hleads, rfl⟩

lemma moves_loadVar (v : VarId) : (moving m).Runs s (loadVar v) fun _ _ => True := by
  refine moves_of_step fun log a t h => ?_
  simp only [loadVar, noteUse, bind_iff, modifyState_iff, edit_iff, var_iff] at h
  obtain ⟨_, _, rfl, _, _, ⟨_, ⟨hhas, rfl, rfl⟩, rfl⟩, hemit⟩ := h
  obtain ⟨-, hblock, -, -, -, rfl⟩ := emit_eq_ok hemit
  exact ⟨.load hblock hhas, rfl⟩

lemma moves_varAddr (v : VarId) : (moving m).Runs s (varAddr v) fun _ _ => True := by
  have hexpose : (moving m).Runs s (do
      noteUse v false
      edit <| modify (·.modifyVar v fun x => { x with isExposed := true })
      emit (.varAddr v) [] (.byRef (← edit (var v)).ty)) fun _ _ => True := by
    refine moves_of_step fun log a t h => ?_
    simp only [noteUse, bind_iff, modifyState_iff, edit_iff, modify_iff, var_iff] at h
    obtain ⟨_, _, rfl, _, _, ⟨_, rfl, rfl⟩, _, _, ⟨_, ⟨hhas, rfl, rfl⟩, rfl⟩, hemit⟩ := h
    obtain ⟨-, hblock, -, -, -, rfl⟩ := emit_eq_ok hemit
    refine ⟨.address hblock ?_, rfl⟩
    simpa [hasVar, modifyVar, State.noteUse] using hhas
  have hpush : (moving m).Runs s (_ >>= push) fun _ _ => True :=
    hexpose.bind fun _ u _ _ _ => moves_modifyCursor (f := fun k => { k with stack := u :: k.stack })
      fun _ => ⟨rfl, rfl, rfl⟩
  simpa only [varAddr, emitPush, bind_assoc] using hpush

lemma storeVar_step (h : storeVar v u t = .ok a t')
    (htakes : t.state.Takes v u) : Step t.state t'.state ∧ t'.state.segments = t.state.segments ∧
      t'.state.Stored v := by
  simp only [storeVar, noteUse, emitVoid, bind_iff, modifyState_iff, discard_iff] at h
  obtain ⟨_, _, rfl, _, hemit⟩ := h
  obtain ⟨-, hblock, -, -, -, rfl⟩ := emit_eq_ok hemit
  refine ⟨.store hblock htakes, rfl, (t.state.used v true).nextInst, ?_, (append_kind _ _ _ _).1⟩
  simp [hasInst, nextInst, insts_size_append, used]

lemma moves_storeVar (slot : Storage) (hv : s.frameVar? slot = some v) :
    (moving m).Runs s (storeVar v u) fun _ _ => True := by
  refine moves_of_ok fun log a t hs h => ?_
  obtain ⟨hstep, hsegments, -⟩ := storeVar_step h ⟨hs.frame slot v hv, .inl ⟨slot, hv⟩⟩
  exact ⟨hstep.steps, hs.steps hstep.steps hsegments⟩

end Moves

/-! ## Spilling -/

lemma freshVars_steps (h : freshVars t = .ok vars t') :
    Steps t.state t'.state ∧ t'.state.segments = t.state.segments ∧ t'.state.cursor = t.state.cursor ∧
      vars.length = t.state.cursor.stack.length ∧
      ∀ x ∈ t.state.cursor.stack.reverse.zip vars, t'.state.Takes x.2 x.1 := by
  obtain ⟨hlength, -, decls, rfl, hgrows, hnew, htyped⟩ := freshVars_eq_ok h
  refine ⟨(Step.declare hgrows).steps, rfl, rfl, hlength, fun x hx => ?_⟩
  obtain ⟨hvalue, hty⟩ := htyped x hx
  refine ⟨decide_eq_true (hnew x.2 (of_mem_zip hx).2).2, .inr (.inr ⟨hgrows.hasValue hvalue, ?_⟩)⟩
  exact (hgrows.valueTy hvalue).trans hty.symm

lemma storeAll_steps (xs : List (Value × VarId)) : ∀ (t t' : Trace State) (a : Unit),
    (xs.forM (fun (u, v) => storeVar v u) : M Unit) t = .ok a t' → (∀ x ∈ xs, t.state.Takes x.2 x.1) →
    Steps t.state t'.state ∧ t'.state.segments = t.state.segments ∧ ∀ x ∈ xs, t'.state.Stored x.2 := by
  induction xs with
  | nil =>
    intro t t' a h _
    obtain ⟨-, rfl⟩ := pure_iff.1 h
    exact ⟨.refl _, rfl, by simp⟩
  | cons x xs ih =>
    intro t t' a h htakes
    rw [forall_mem_cons] at htakes
    change (storeVar x.2 x.1 >>= fun _ => xs.forM fun (u, v) => storeVar v u) t = _ at h
    obtain ⟨_, t₁, hone, hrest⟩ := bind_iff.1 h
    obtain ⟨hstep, hsegments, hstored⟩ := storeVar_step hone htakes.1
    obtain ⟨hsteps, hsegments', hall⟩ := ih t₁ t' a hrest fun y hy => (htakes.2 y hy).mono hstep.steps
    refine ⟨hstep.steps.trans hsteps, hsegments'.trans hsegments, ?_⟩
    rw [forall_mem_cons]
    exact ⟨hstored.mono hsteps.grows, hall⟩

lemma exists_mem_zip {α β : Type} {l : List α} {l' : List β} (h : l'.length = l.length) {y : β}
    (hy : y ∈ l') : ∃ x ∈ l.zip l', x.2 = y := by
  obtain ⟨k, hk, rfl⟩ := mem_iff_getElem.1 hy
  have hlt : k < (l.zip l').length := by simpa [h] using hk
  exact ⟨_, getElem_mem hlt, by simp⟩

structure Spilled (fresh : Option (List VarId)) (written : List (List VarId)) (s : State) : Prop where
  settled : Settled [] s
  fresh : ∀ vars, fresh = some vars → ∀ v ∈ vars, s.body.hasVar v ∧ s.Stored v
  written : ∀ vars ∈ written, ∀ v ∈ vars, s.Stored v

/-- The stack may be stored to `vars`, which is all that is owed to segments. -/
structure Offered (vars : List VarId) (fresh : Option (List VarId)) (written : List (List VarId)) (s : State) : Prop where
  settled : Settled vars s
  fresh : ∀ ws, fresh = some ws → ws = vars ∨ ∀ v ∈ ws, s.body.hasVar v ∧ s.Stored v
  written : ∀ ws ∈ written, ∀ v ∈ ws, s.Stored v
  has : ∀ v ∈ vars, s.body.hasVar v ∧ (s.Stored v ∨ ∃ x ∈ s.cursor.stack.reverse.zip vars, x.2 = v)
  takes : ∀ x ∈ s.cursor.stack.reverse.zip vars, s.Takes x.2 x.1

section Spill

variable {fresh fresh' : Option (List VarId)} {written written' : List (List VarId)} {succs : List Nat}
  {t t' : Trace State} {a : Unit}

lemma Spilled.offered (h : Spilled fresh written s) (hvars : ∀ v ∈ vars, s.body.hasVar v ∧ s.Stored v)
    (hfresh : ∀ ws, fresh' = some ws → ws = vars ∨ fresh = some ws) : Offered vars fresh' written s where
  settled := h.settled.weaken (by simp)
  fresh ws hws := (hfresh ws hws).imp_right (h.fresh ws)
  written := h.written
  has v hv := (hvars v hv).imp_right .inl
  takes x hx := (hvars x.2 (of_mem_zip hx).2).imp_right fun h => .inr (.inl h)

lemma Offered.expect (h : Offered vars (some vars) written s) (n : Nat) :
    Offered vars (some vars) written (s.expect n vars) := by
  have hstep : Step s (s.expect n vars) := .expect n
  refine ⟨h.settled.expect n fun v hv => ⟨(h.has v hv).1, .inl hv⟩, fun ws hws => .inl (Option.some.inj hws).symm,
    fun ws hws v hv => (h.written ws hws v hv).mono hstep.grows, fun v hv => ?_,
    fun x hx => (h.takes x hx).mono hstep.steps⟩
  exact (h.has v hv).imp_right fun h => h.imp_left fun h => h.mono hstep.grows

lemma Offered.spilled (h : Offered vars fresh written s) (hsteps : Steps s s') (hsegments : s'.segments = s.segments)
    (hstored : ∀ v ∈ vars, s'.Stored v) (hsub : ∀ ws ∈ written', ws = vars ∨ ws ∈ written) :
    Spilled fresh written' s' := by
  have hg := hsteps.grows
  refine ⟨(h.settled.steps hsteps hsegments).finish hstored, fun ws hws v hv => ?_, fun ws hws v hv => ?_⟩
  · rcases h.fresh ws hws with rfl | hold
    · exact ⟨(hg.var v (h.has v hv).1).1, hstored v hv⟩
    · exact ⟨(hg.var v (hold v hv).1).1, (hold v hv).2.mono hg⟩
  · rcases hsub ws hws with rfl | hws
    · exact hstored v hv
    · exact (h.written ws hws v hv).mono hg

section

variable (hs : Spilled fresh written t.state)
include hs

lemma slotsFor_steps (h : slotsFor fresh n t = .ok (vars, fresh') t') :
    Steps t.state t'.state ∧ Offered vars fresh' written t'.state := by
  obtain ⟨rfl, rfl, hexpects, -⟩ | ⟨rfl, -, t₁, rfl, hvars⟩ := slotsFor_eq_ok h
  · refine ⟨.refl _, hs.offered (fun v hv => ?_) fun _ => .inr⟩
    have hentry := hs.settled.entry n _ v hexpects (mem_map.2 ⟨v, hv, rfl⟩)
    exact hentry.imp_right fun h => h.resolve_left (by simp)
  · have hoffered : Steps t.state t₁.state ∧ Offered vars (some vars) written t₁.state := by
      rcases hvars with ⟨rfl, rfl⟩ | ⟨rfl, hvars⟩
      · exact ⟨.refl _, hs.offered (hs.fresh vars rfl) fun _ => .inr⟩
      · obtain ⟨hsteps, hsegments, hcursor, hlength, htakes⟩ := freshVars_steps hvars
        rw [← hcursor] at htakes hlength
        refine ⟨hsteps, (hs.settled.steps hsteps hsegments).weaken (by simp), fun ws hws => .inl
          (Option.some.inj hws).symm, fun ws hws v hv => (hs.written ws hws v hv).mono hsteps.grows, fun v hv => ?_,
          htakes⟩
        obtain ⟨x, hx, rfl⟩ := exists_mem_zip (hlength.trans length_reverse.symm) hv
        exact ⟨(htakes x hx).1, .inr ⟨x, hx, rfl⟩⟩
    have hexpect : Step t₁.state (t₁.state.expect n vars) := .expect n
    exact ⟨hoffered.1.trans hexpect.steps, hoffered.2.expect n⟩

lemma spillFor_steps (h : spillFor fresh written n t = .ok (fresh', written') t') :
    Steps t.state t'.state ∧ Spilled fresh' written' t'.state := by
  obtain ⟨⟨vars, fresh''⟩, t₁, hslots, h⟩ := bind_iff.1 h
  obtain ⟨hsteps, hoffered⟩ := slotsFor_steps hs hslots
  dsimp only at h
  split at h
  · next hmem =>
    obtain ⟨heq, rfl⟩ := pure_iff.1 h
    obtain ⟨rfl, rfl⟩ := Prod.mk.inj heq
    exact ⟨hsteps, hoffered.spilled (.refl _) rfl (hoffered.written vars hmem) fun _ => .inr⟩
  · simp only [bind_iff, ↓getState_bind_iff, pure_iff, Prod.mk.injEq] at h
    obtain ⟨_, t₂, hall, ⟨rfl, rfl⟩, rfl⟩ := h
    obtain ⟨hsteps', hsegments, hzip⟩ := storeAll_steps _ t₁ t₂ _ hall hoffered.takes
    refine ⟨hsteps.trans hsteps', hoffered.spilled hsteps' hsegments (fun v hv => ?_) fun _ => mem_cons.1⟩
    rcases (hoffered.has v hv).2 with hold | ⟨x, hx, rfl⟩
    · exact hold.mono hsteps'.grows
    · exact hzip x hx

lemma spillTo_steps (h : spillTo fresh written succs t = .ok a t') :
    Steps t.state t'.state ∧ Settled [] t'.state := by
  induction succs generalizing fresh written t with
  | nil =>
    obtain ⟨-, rfl⟩ := pure_iff.1 h
    exact ⟨.refl _, hs.settled⟩
  | cons n succs ih =>
    obtain ⟨⟨fresh', written'⟩, t₁, hfirst, h⟩ := bind_iff.1 h
    obtain ⟨hsteps, hs₁⟩ := spillFor_steps hs hfirst
    obtain ⟨hsteps', hs'⟩ := ih hs₁ h
    exact ⟨hsteps.trans hsteps', hs'⟩

end

end Spill

section Rules

variable {m : Bytecode} {i : Bytecode.Instruction} {code : List Bytecode.Instruction}

lemma moves_spill (succs : List Nat) : (moving m).Runs s (spill succs) fun _ _ => True := by
  have hspill : (moving m).Runs s (spillTo none [] succs) fun _ _ => True :=
    moves_of_ok fun log a t hs h => spillTo_steps ⟨hs, by simp, by simp⟩ h
  exact hspill.bind fun _ _ _ _ _ => moves_modifyCursor (f := fun k => { k with stack := [] })
    fun _ => ⟨rfl, rfl, rfl⟩

lemma moves_terminate (hterm : kind.isTerminator)
    (htargets : ∀ t ∈ kind.successors, ∃ k, (s.segment k).entryBlock = t ∧ k < s.segments.size ∧ True) :
    (moving m).Ends s (emitVoid kind vs) := by
  have hplain : kind.var? = none := by cases kind <;> simp_all [Kind.isTerminator, Kind.var?]
  have hemit : (moving m).Runs s (emit kind vs .void) fun _ _ => True := by
    refine moves_emit hplain fun b hb => ?_
    obtain ⟨k, hentry, hk, -⟩ := htargets b hb
    exact ⟨_, k, hk, rfl, hentry⟩
  exact Keeping.Gives.weaken hemit.discard fun _ _ h => ⟨h.2.1, h.1⟩

def movingRules (m : Bytecode) : Regime where
  toKeeping := moving m
  known _ _ := True
  target s k := k < s.segments.size
  free _ := True
  leader _ := True
  exits _ _ := True
  grows := Steps.grows
  segments h := h.sameCode.toSameSegments
  frameVar? := Steps.frameVar?
  keeps _ _ _ := trivial
  const := trivial
  stack _ _ := trivial
  hasValue _ := .inr fun _ => trivial
  hasVar hs hv := hs.frame _ _ hv
  leads _ hk _ := hk
  next _ hk := hk
  exits_congr _ _ := trivial
  target_congr hsame hk := hsame.size ▸ hk
  cursor hf _ := moves_modifyCursor hf
  emit hplain _ _ := moves_emit (inner_of_plain hplain).2 (by simp [(inner_of_plain hplain).1.2.2])
  load _ := moves_loadVar _
  address _ := moves_varAddr _
  store slot _ _ hv _ := moves_storeVar slot hv
  spill ks _ := (moves_spill ks).weaken fun _ _ _ _ _ => trivial
  terminate hterm _ _ htargets _ := moves_terminate hterm htargets
  reset hf h :=
    have hcursor := (Step.modifyCursor hf).steps
    ⟨h.1.trans hcursor, h.2.steps hcursor rfl⟩

lemma moves_lower (hmem : i ∈ m.code.toList) : (moving m).Runs s (lower i) fun _ _ => True := by
  by_cases hi : i.op.endsBlock
  · have hends : (movingRules m).Ends s (lower i) :=
      Regime.ends_lower hi (fun _ _ => trivial) fun _ _ _ _ _ => trivial
    exact Keeping.Gives.weaken hends fun _ _ h => ⟨h.2, h.1, trivial⟩
  · exact Regime.runs_lower (r := movingRules m) hmem (Bool.not_eq_true _ ▸ hi)

lemma moves_code (hcode : ∀ i ∈ code, i ∈ m.code.toList) :
    ∀ s, (moving m).Runs s (code.forM lower) fun _ _ => True := by
  induction code with
  | nil => exact fun s => .ret trivial
  | cons i code ih =>
    rw [forall_mem_cons] at hcode
    exact fun s => (moves_lower hcode.1).bind fun s₁ _ _ _ _ => ih hcode.2 s₁

lemma mem_of_codeBetween {start stop : Nat}
    (h : codeBetween m start stop = .ok code) (hi : i ∈ code) : i ∈ m.code.toList := by
  obtain ⟨first, -, h⟩ := Bytecode.ok_bind_iff.1 h
  obtain ⟨last, -, h⟩ := Bytecode.ok_bind_iff.1 h
  split at h
  · cases h
  · obtain rfl := Except.ok.inj h
    rw [Array.toList_extract] at hi
    exact mem_of_mem_drop (mem_of_mem_take hi)

lemma moves_lowerCode (hcode : ∀ i ∈ code, i ∈ m.code.toList) (stop : Nat) :
    (movingRules m).Ends s (lowerCode code stop) := by
  refine (moves_code hcode s).finish fun s₁ _ _ _ _ => ?_
  split
  · exact fun log hs => ⟨.pure, fun u t h => (pure_iff.1 h).2 ▸ ⟨.refl _, hs⟩⟩
  · refine (Regime.runs_setOffset (r := movingRules m) _).finish fun s₂ _ _ _ _ => .assume fun hs => ?_
    refine .read reads_fallThrough fun k hk => ?_
    obtain ⟨rfl, hk⟩ := hk
    exact Regime.ends_passTo (r := movingRules m) (.inl rfl) hk trivial

end Rules

/-! ## The whole -/

lemma lowerSegment_steps (hn : n < t.state.segments.size)
    (hs : Settled [] t.state) (h : lowerSegment m n t = .ok a t') :
    Steps t.state t'.state ∧ Settled [] t'.state := by
  rw [lowerSegment_eq] at h
  simp only [bind_iff, ↓getState_bind_iff, modifyState_iff, ofExcept_iff, report_iff] at h
  obtain ⟨_, _, rfl, _, t₂, henter, code, _, ⟨hcode, rfl⟩, _, t₄, hlower, rfl⟩ := h
  have hstart : Step t.state (t.state.enter n) := .enter hn
  have hvars : ∀ w, .var w ∈ (t.state.segment n).entryStack.getD [] → (t.state.enter n).body.hasVar w := by
    intro w hw
    cases hentry : (t.state.segment n).entryStack with
    | none => simp [hentry] at hw
    | some slots => exact (hs.entry n slots w hentry (by simpa [hentry] using hw)).1
  obtain ⟨-, hstack⟩ := Regime.runs_enterStack (r := movingRules m) _ (t.state.enter n) (fun _ _ => trivial)
    hvars t.log (hs.enter n)
  obtain ⟨hs₂, hsteps, -⟩ := hstack _ t₂ henter
  obtain ⟨-, hends⟩ := moves_lowerCode (fun i hi => mem_of_codeBetween hcode hi) (t.state.segment n).stop t₂.log hs₂
  obtain ⟨hsteps', hs'⟩ := hends _ t₄ hlower
  exact ⟨(hstart.steps.trans hsteps).trans hsteps', hs'⟩

lemma lowerSegments_steps {ns : List Nat} (hns : ∀ n ∈ ns, n < t.state.segments.size) (hs : Settled [] t.state)
    (h : (ns.forM (lowerSegment m) : M Unit) t = .ok a t') : Steps t.state t'.state ∧ Settled [] t'.state := by
  refine forM_induction (P := fun t₁ : Trace State => Steps t.state t₁.state ∧ Settled [] t₁.state) h
    ⟨.refl _, hs⟩ ?_
  rintro n hn t₁ t₂ _ ⟨hsteps, hs₁⟩ hone
  obtain ⟨hsteps', hs₂⟩ := lowerSegment_steps (hsteps.sameCode.size ▸ hns n hn) hs₁ hone
  exact ⟨hsteps.trans hsteps', hs₂⟩

end MethodIR.Import
