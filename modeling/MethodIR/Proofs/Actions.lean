import MethodIR.Proofs.Simulation

/-!
# Lowering an action

Every action that does not end a block is lowered to what it does to the evaluation stack
(`sim_perform`).
-/

namespace MethodIR.Import

open List Success Body.Machine Traced Bytecode.Machine Edit Scene
open Bytecode (Storage Action ElementTy)
open Bytecode.Machine (Exec)

variable {V α β γ : Type} {c : Scene V} {s s' : State} {v value r index : Value} {w : V × Ty} {y : Exec V β}
  {il il' : Bytecode.Machine V} {t t' : Trace State} {slot : Storage} {x : M α}

lemma discard_eq_some {r : β} (h : y il = some (r, il')) : (discard y : Exec V Unit) il = some ((), il') := by
  change (y il).bind _ = _
  rw [h]
  rfl

lemma lift_some_bind (a : α) (f : α → Exec V β) : StateT.lift (some a) >>= f = f a := rfl

lemma Sim.next {R : State → α → β → Prop} (h : Sim c s x y R) :
    Sim c s x (y >>= fun _ => pure Bytecode.Transfer.next) fun _ _ r => r = .next := by
  intro log a t ht il hil
  obtain ⟨hlater, r, il', hy, hil', -⟩ := h log a t ht il hil
  refine ⟨hlater, .next, il', ?_, hil', rfl⟩
  change (y il).bind _ = _
  rw [hy]
  rfl

lemma Sim.read {f : α → M γ} {S : State → γ → β → Prop} {P : α → Prop}
    (hx : ∀ log a t, x ⟨s, log⟩ = .ok a t → t = ⟨s, log⟩ ∧ P a)
    (hf : ∀ a, P a → Sim c s (f a) y S) : Sim c s (x >>= f) y S := by
  intro log a t ht il hil
  obtain ⟨a₁, t₁, h₁, h₂⟩ := bind_iff.1 ht
  obtain ⟨rfl, hP⟩ := hx log a₁ t₁ h₁
  exact hf a₁ hP log a t h₂ il hil

lemma valueTy_read (h : c.Stands s v w) (log : Array Event) (ty : Ty) (t : Trace State)
    (ht : valueTy v ⟨s, log⟩ = .ok ty t) : t = ⟨s, log⟩ ∧ ty = w.2 := by
  simp only [valueTy, edit_iff, valueTy_iff] at ht
  obtain ⟨_, ⟨-, rfl, rfl⟩, rfl⟩ := ht
  exact ⟨rfl, by rw [← h.2]; rfl⟩

lemma pointeeTy_read (h : c.Stands s v w) (log : Array Event) (ty : Ty) (t : Trace State)
    (ht : pointeeTy v ⟨s, log⟩ = .ok ty t) : t = ⟨s, log⟩ ∧ ty = pointee w.2 := by
  simp only [pointeeTy, bind_iff, pure_iff] at ht
  obtain ⟨ty', t', ht', rfl, rfl⟩ := ht
  obtain ⟨rfl, rfl⟩ := valueTy_read h log ty' t' ht'
  exact ⟨rfl, rfl⟩

lemma elementTy_read (h : c.Stands s v w) (op : Opcode) (e : ElementTy) (log : Array Event) (ty : Ty)
    (t : Trace State) (ht : elementTy op v e ⟨s, log⟩ = .ok ty t) :
    t = ⟨s, log⟩ ∧ Bytecode.Machine.elementTy w.2 e = some ty := by
  cases e with
  | given t' =>
    obtain ⟨rfl, rfl⟩ := pure_iff.1 ht
    exact ⟨rfl, rfl⟩
  | ofArray =>
    obtain ⟨rfl, rfl⟩ := pointeeTy_read h log ty t ht
    exact ⟨rfl, rfl⟩
  | missing => simp [elementTy, fail, failAt] at ht

lemma frameVar_read (slot : Storage) (log : Array Event) (v : VarId) (t : Trace State)
    (ht : frameVar slot ⟨s, log⟩ = .ok v t) : t = ⟨s, log⟩ ∧ s.frameVar? slot = some v := by
  cases slot with
  | argument n =>
    simp only [frameVar, getState_bind_iff] at ht
    cases hv : s.argVars[n]? <;> simp_all [fail, failAt, State.frameVar?]
  | «local» n =>
    simp only [frameVar, getState_bind_iff] at ht
    cases hv : s.localVars[n]? <;> simp_all [fail, failAt, State.frameVar?]

lemma loadVar_eq_ok {v : VarId} (h : loadVar v t = .ok r t') :
    ∃ usage, r = .inst t.state.nextInst ∧ t.state.body.hasVar v ∧
      t'.state = { t.state.append (.loadVar v) [] (t.state.body.var v).ty with usage } := by
  simp only [loadVar, noteUse, bind_iff, modifyState_iff, edit_iff, var_iff] at h
  obtain ⟨_, _, rfl, _, _, ⟨_, ⟨hhas, rfl, rfl⟩, rfl⟩, hemit⟩ := h
  obtain ⟨rfl, -, -, -, -, rfl⟩ := emit_eq_ok hemit
  exact ⟨_, rfl, hhas, rfl⟩

lemma storeVar_eq_ok {v : VarId} {u : Unit} (h : storeVar v value t = .ok u t') :
    ∃ usage, t'.state = { t.state.append (.storeVar v) [value] .void with usage } := by
  simp only [storeVar, noteUse, emitVoid, bind_iff, modifyState_iff, discard_iff] at h
  obtain ⟨_, _, rfl, _, hemit⟩ := h
  obtain ⟨rfl, -, -, -, -, rfl⟩ := emit_eq_ok hemit
  exact ⟨_, rfl⟩

lemma Scene.At.withUsage (h : c.At s il) (usage : Array Usage) : c.At { s with usage } il :=
  ⟨⟨h.framed.returnTy, h.framed.var⟩, h.block, h.hasBlock, h.skip, h.closed, h.values, h.stack,
    h.slots, h.modifiers, h.effects, h.choices, h.still, 
    h.stackVars.extends ⟨.refl _, .of_eq rfl, rfl, rfl⟩ fun _ _ => .inl⟩

lemma Scene.Later.withUsage (h : c.Later s s') (usage : Array Usage) : c.Later s { s' with usage } :=
  ⟨⟨h.grows, h.segments.trans (.of_eq rfl), h.argVars, h.localVars⟩, h.env, h.index, h.others, h.own⟩

lemma Scene.At.withBody (h : c.At s il) {body : Body}
    (hg : s.body.Grows body) (hinsts : ∀ b, body.instsOf b = s.body.instsOf b) :
    c.ran body = c.ran s.body ∧ c.At { s with body } il ∧ c.Later s { s with body } := by
  have hran : c.ran body = c.ran s.body := by
    rw [ran, hinsts]
    exact foldl_exec_congr (fun i hi => h.closed i (mem_of_mem_drop hi)) hg
  have hlater : c.Later s { s with body } := ⟨⟨hg, .of_eq rfl, rfl, rfl⟩, fun i _ => by rw [hran], rfl,
    fun b _ => hinsts b, (hinsts c.block) ▸ prefix_rfl⟩
  refine ⟨hran, h.onward hlater rfl (fun i hi => ?_) (h.stackVars.extends hlater.toExtends fun _ _ => .inl)
    (fun slot v hv => ?_) ?_ (by rw [hran]) rfl, hlater⟩
  · rw [hinsts] at hi
    exact (h.closed i hi).mono hg
  · rw [hran]
    exact h.slots slot v hv
  · rw [hran]
    exact h.effects

/-! ## Operations -/

def Plain : Kind → Bool
  | .loadVar _ | .storeVar _ | .varAddr _ | .jump _ | .branch .. | .switch .. | .phi _ | .ret
  | .guard .. | .throw _ | .leave _ | .resume => false
  | _ => true

lemma labelled_of_plain {kind : Kind} (ty : Ty) (h : Plain kind) : Labelled kind ty (.op kind ty) := by
  refine ⟨?_, ?_⟩
  · rintro v rfl
    simp [Plain] at h
  · rintro body x rfl rfl
    rw [label?]
    cases hk : x.kind <;> simp_all [Plain]

section Operations

variable {kind : Kind} {vs : List Value} {ws : List V} {ty : Ty} {x : V × Ty}

section

variable (h : Plain kind) (hvs : c.StandAll s vs ws)
include h hvs

lemma sim_emitPush : Sim c s (emitPush kind vs ty) (operate c.I kind ws ty) fun _ _ _ => True :=
  (sim_emit (labelled_of_plain ty h) hvs).bind fun _ _ _ _ hv => sim_push hv

lemma sim_emitVoid :
    Sim c s (emitVoid kind vs) (discard (Bytecode.Machine.emit c.I (.op kind .void) ws)) fun _ _ _ => True := by
  intro log a t ht il hil
  obtain ⟨v, ht⟩ := discard_iff.1 ht
  obtain ⟨hlater, r, il', hy, hil', -⟩ := sim_emit (labelled_of_plain .void h) hvs log v t ht il hil
  exact ⟨hlater, (), il', discard_eq_some hy, hil', trivial⟩

lemma sim_emitResult : Sim c s (emitResult kind vs ty) (operateResult c.I kind ws ty) fun _ _ _ => True := by
  refine (sim_emit (labelled_of_plain ty h) hvs).bind fun s' v r _ hv => ?_
  by_cases hvoid : ty.isVoid
  · rw [hvoid]
    exact .ret trivial
  · rw [Bool.not_eq_true] at hvoid
    rw [hvoid]
    exact sim_push hv

end

lemma sim_loadFrom (h : c.Stands s v w) :
    Sim c s (loadFrom v ty) (Bytecode.Machine.loadFrom c.I w.1 ty) fun _ _ _ => True := by
  refine sim_modifiers.bind fun s' a r hlater hr => ?_
  obtain ⟨rfl, hr⟩ := hr
  rw [hr]
  exact sim_emitPush rfl (.cons (h.later hlater) (standAll_nil _))

lemma sim_storeAt (h : c.Stands s v w) (hvalue : c.Stands s value x) :
    Sim c s (storeAt v value ty) (Bytecode.Machine.storeAt c.I w.1 x.1 ty) fun _ _ _ => True := by
  refine sim_modifiers.bind fun s' a r hlater hr => ?_
  obtain ⟨rfl, hr⟩ := hr
  rw [hr]
  exact sim_emitVoid rfl (.cons (h.later hlater) (.cons (hvalue.later hlater) (standAll_nil _)))

lemma sim_fieldAddr (f : Field) (hvs : c.StandAll s vs ws) :
    Sim c s (fieldAddr f vs) (Bytecode.Machine.fieldAddr c.I f ws) fun s v r => c.Stands s v (r, .byRef f.ty) :=
  sim_emit (labelled_of_plain _ rfl) hvs

lemma sim_elementAddr (h : c.Stands s v w) (hindex : c.Stands s index x) :
    Sim c s (elementAddr v index ty) (Bytecode.Machine.elementAddr c.I w.1 x.1 ty)
      fun s v r => c.Stands s v (r, .byRef ty) := by
  refine sim_modifiers.bind fun s' a r hlater hr => ?_
  obtain ⟨rfl, hr⟩ := hr
  rw [hr]
  exact sim_emit (labelled_of_plain _ rfl)
    (.cons (h.later hlater) (.cons (hindex.later hlater) (standAll_nil _)))

end Operations

/-! ## Slots of the frame -/

section

variable {v : VarId} (hv : s.frameVar? slot = some v)
include hv

lemma sim_loadVar : Sim c s (loadVar v) (readSlot c.m slot) c.Stands := by
  intro log r t ht il hil
  obtain ⟨usage, rfl, -, ht⟩ := loadVar_eq_ok ht
  obtain ⟨-, hty, -⟩ := hil.framed.var slot v hv
  obtain ⟨hat, hstands, -⟩ := hil.append_loadVar v (s.body.var v).ty
  rw [ht]
  refine ⟨hil.later_append.withUsage usage, _, il, ?_, hat.withUsage usage, hstands⟩
  rw [← hil.slots slot v hv, readSlot, hty]
  rfl

lemma sim_storeVar (h : c.Stands s value w) :
    Sim c s (storeVar v value) (writeSlot c.m slot w.1) fun _ _ _ => True := by
  intro log r t ht il hil
  obtain ⟨usage, ht⟩ := storeVar_eq_ok ht
  obtain ⟨-, hty, -⟩ := hil.framed.var slot v hv
  rw [ht]
  refine ⟨hil.later_append.withUsage usage, (), _, ?_, (hil.append_storeVar hv).withUsage usage,
    trivial⟩
  rw [h.2, writeSlot, hty]
  rfl

lemma sim_varAddr : Sim c s (varAddr v) (Bytecode.Machine.slotAddr c.I c.m slot >>= Bytecode.Machine.push)
      fun _ _ _ => True := by
  intro log r t ht il hil
  simp only [varAddr, noteUse, emitPush, push, bind_iff, modifyState_iff, edit_iff, modify_iff, var_iff] at ht
  obtain ⟨_, _, rfl, _, _, ⟨_, rfl, rfl⟩, _, _, ⟨_, ⟨-, rfl, rfl⟩, rfl⟩, _, _, hemit, rfl⟩ := ht
  obtain ⟨-, hty, -⟩ := hil.framed.var slot v hv
  have hvar : s.body.hasVar v := (hil.framed.var slot v hv).1
  have hg : s.body.Grows (s.body.modifyVar v fun x => { x with isExposed := true }) :=
    Body.grows_modifyVar v (fun _ => rfl) fun _ => rfl
  obtain ⟨-, hat, hlater⟩ := hil.withBody hg fun _ => rfl
  obtain ⟨rfl, -, -, -, -, rfl⟩ := emit_eq_ok hemit
  have hty' := (hg.var v hvar).2.1
  obtain ⟨hat', hstands⟩ := hat.append_varAddr hv (.byRef (s.body.var v).ty)
  rw [← hty'] at hty hat' hstands
  obtain ⟨hlater', _, il', hpush, hat'', -⟩ := sim_push (c := c) hstands log () _ (modifyState_iff.2 rfl) _ hat'
  refine ⟨((hlater.trans hat.later_append).trans hlater').withUsage _, (), il', ?_, hat''.withUsage _, trivial⟩
  rw [← hpush, slotAddr, hty]
  rfl

end

lemma sim_load (slot : Storage) (op : Opcode) : Sim c s (perform op (.load slot))
    (Bytecode.Machine.perform c.I c.m (.load slot)) fun _ _ r => r = .next := by
  refine .read (frameVar_read slot) fun v hv => ?_
  refine (sim_loadVar hv).bind fun s' v w _ hw => ?_
  exact (sim_push hw).next

lemma sim_store (slot : Storage) (op : Opcode) : Sim c s (perform op (.store slot))
    (Bytecode.Machine.perform c.I c.m (.store slot)) fun _ _ r => r = .next := by
  refine .read (frameVar_read slot) fun v hv => ?_
  refine sim_pop.bind fun s' value w hlater hw => ?_
  rw [← hlater.frameVar?] at hv
  exact (sim_storeVar hv hw).next

lemma sim_address (slot : Storage) (op : Opcode) : Sim c s (perform op (.address slot))
    (Bytecode.Machine.perform c.I c.m (.address slot)) fun _ _ r => r = .next := by
  refine .read (frameVar_read slot) fun v hv => ?_
  have hsim := (sim_varAddr (c := c) hv).next
  simpa [Bytecode.Machine.perform] using hsim

/-! ## All actions -/

def passesControl : Action → Bool
  | .jump _ | .leave _ | .branch .. | .compareBranch .. | .switch _ | .ret | .throw | .rethrow
  | .endFinally | .endFilter => true
  | _ => false

lemma compare_bind {γ : Type} (o : CompareOp) (f : Value → M γ) : compare o >>= f = (do
      let right ← pop
      let left ← pop
      emit (.compare o) [left, right] .bool >>= f) := by
  simp only [compare, bind_assoc]

lemma sim_perform (op : Opcode) (a : Action) (h : passesControl a = false) :
    Sim c s (perform op a) (Bytecode.Machine.perform c.I c.m a) fun _ _ r => r = .next := by
  cases a with
  | skip => exact .ret rfl
  | tail => exact .ret rfl
  | load slot => exact sim_load slot op
  | store slot => exact sim_store slot op
  | address slot => exact sim_address slot op
  | push k => exact (sim_push ⟨rfl, rfl⟩).next
  | dup =>
    refine sim_pop.bind fun _ v w _ hv => ?_
    refine (sim_push hv).bind fun _ _ _ hlater _ => ?_
    exact (sim_push (hv.later hlater)).next
  | drop =>
    intro log r t ht il hil
    obtain ⟨v, ht⟩ := discard_iff.1 ht
    obtain ⟨hlater, w, il', hy, hil', -⟩ := sim_pop log v t ht il hil
    refine ⟨hlater, .next, il', ?_, hil', rfl⟩
    change ((discard Bytecode.Machine.pop : Exec V Unit) il).bind _ = _
    rw [discard_eq_some hy]
    rfl
  | unary o =>
    refine sim_pop.bind fun _ v w _ hv => ?_
    refine .read (valueTy_read hv) fun ty hty => ?_
    rw [hty]
    exact (sim_emitPush rfl (.cons hv (standAll_nil _))).next
  | binary o =>
    refine sim_pop.bind fun _ right r _ hr => ?_
    refine sim_pop.bind fun _ left l hlater hl => ?_
    refine .read (valueTy_read hl) fun ty hty => ?_
    refine .read (valueTy_read (hr.later hlater)) fun ty' hty' => ?_
    rw [hty, hty']
    exact (sim_emitPush rfl (.cons hl (.cons (hr.later hlater) (standAll_nil _)))).next
  | compare o =>
    change Sim c s (Import.compare o >>= push) _ _
    rw [compare_bind]
    refine sim_pop.bind fun _ right r _ hr => ?_
    refine sim_pop.bind fun _ left l hlater hl => ?_
    exact (sim_emitPush rfl (.cons hl (.cons (hr.later hlater) (standAll_nil _)))).next
  | convert ty checked fromUnsigned =>
    refine sim_pop.bind fun _ v w _ hv => ?_
    exact (sim_emitPush rfl (.cons hv (standAll_nil _))).next
  | jump t => simp [passesControl] at h
  | leave t => simp [passesControl] at h
  | branch t n => simp [passesControl] at h
  | compareBranch o t => simp [passesControl] at h
  | switch ts => simp [passesControl] at h
  | ret => simp [passesControl] at h
  | call m isVirtual =>
    refine (sim_popMany _).bind fun _ vs ws _ hvs => ?_
    refine sim_modifiers.bind fun s' a r hlater hr => ?_
    obtain ⟨rfl, hr⟩ := hr
    rw [hr]
    exact (sim_emitResult rfl (hvs.later hlater)).next
  | newObj ctor =>
    refine (sim_popMany _).bind fun _ vs ws _ hvs => ?_
    exact (sim_emitPush rfl hvs).next
  | funcAddr m isVirtual =>
    cases isVirtual with
    | false => exact (sim_emitPush rfl (standAll_nil _)).next
    | true =>
      refine sim_pop.bind fun _ v w _ hv => ?_
      exact (sim_emitPush rfl (.cons hv (standAll_nil _))).next
  | loadField f =>
    refine sim_pop.bind fun _ v w _ hv => ?_
    refine .read (valueTy_read hv) fun ty hty => ?_
    rw [hty]
    by_cases hstruct : w.2.stackClass = .struct
    · simp only [hstruct, if_true]
      exact (sim_emitPush rfl (.cons hv (standAll_nil _))).next
    · simp only [hstruct, if_false]
      refine (sim_fieldAddr f (.cons hv (standAll_nil _))).bind fun _ v w _ hv => ?_
      exact (sim_loadFrom hv).next
  | fieldAddr f =>
    refine sim_pop.bind fun _ v w _ hv => ?_
    refine (sim_fieldAddr f (.cons hv (standAll_nil _))).bind fun _ v w _ hv => ?_
    exact (sim_push hv).next
  | storeField f =>
    refine sim_pop.bind fun _ value x _ hvalue => ?_
    refine sim_pop.bind fun _ v w hlater hv => ?_
    refine (sim_fieldAddr f (.cons hv (standAll_nil _))).bind fun _ v w hlater' hv => ?_
    exact (sim_storeAt hv ((hvalue.later hlater).later hlater')).next
  | loadStatic f =>
    refine (sim_fieldAddr f (standAll_nil _)).bind fun _ v w _ hv => ?_
    exact (sim_loadFrom hv).next
  | staticAddr f =>
    refine (sim_fieldAddr f (standAll_nil _)).bind fun _ v w _ hv => ?_
    exact (sim_push hv).next
  | storeStatic f =>
    refine sim_pop.bind fun _ value x _ hvalue => ?_
    refine (sim_fieldAddr f (standAll_nil _)).bind fun _ v w hlater hv => ?_
    exact (sim_storeAt hv (hvalue.later hlater)).next
  | loadIndirect ty =>
    refine sim_pop.bind fun _ v w _ hv => ?_
    cases ty with
    | none =>
      refine .read (pointeeTy_read hv) fun ty hty => ?_
      rw [hty]
      exact (sim_loadFrom hv).next
    | some ty => exact (sim_loadFrom hv).next
  | storeIndirect ty =>
    refine sim_pop.bind fun _ value x _ hvalue => ?_
    refine sim_pop.bind fun _ v w hlater hv => ?_
    cases ty with
    | none =>
      refine .read (pointeeTy_read hv) fun ty hty => ?_
      rw [hty]
      exact (sim_storeAt hv (hvalue.later hlater)).next
    | some ty => exact (sim_storeAt hv (hvalue.later hlater)).next
  | elementAddr ty =>
    refine sim_pop.bind fun _ index x _ hindex => ?_
    refine sim_pop.bind fun _ v w hlater hv => ?_
    refine (sim_elementAddr hv (hindex.later hlater)).bind fun _ v w _ hv => ?_
    exact (sim_push hv).next
  | loadElement ty =>
    refine sim_pop.bind fun _ index x _ hindex => ?_
    refine sim_pop.bind fun _ v w hlater hv => ?_
    obtain ⟨array, arrayTy⟩ := w
    refine .read (elementTy_read hv op ty) fun ty' hty => ?_
    simp only at hty ⊢
    rw [hty, lift_some_bind]
    refine (sim_elementAddr hv (hindex.later hlater)).bind fun _ v w _ hv => ?_
    exact (sim_loadFrom hv).next
  | storeElement ty =>
    refine sim_pop.bind fun _ value y _ hvalue => ?_
    refine sim_pop.bind fun _ index x hlater hindex => ?_
    refine sim_pop.bind fun _ v w hlater' hv => ?_
    obtain ⟨array, arrayTy⟩ := w
    refine .read (elementTy_read hv op ty) fun ty' hty => ?_
    simp only at hty ⊢
    rw [hty, lift_some_bind]
    refine (sim_elementAddr hv (hindex.later hlater')).bind fun _ v w hlater'' hv => ?_
    exact (sim_storeAt hv (((hvalue.later hlater).later hlater').later hlater'')).next
  | intrinsic id args result =>
    by_cases harity : id.arity = 0
    · simp only [perform, Bytecode.Machine.perform, harity, if_true]
      exact (sim_emitResult rfl (standAll_nil _)).next
    · simp only [perform, Bytecode.Machine.perform, harity, if_false]
      refine sim_pop.bind fun _ v w _ hv => ?_
      exact (sim_emitResult rfl (.cons hv (standAll_nil _))).next
  | throw => simp [passesControl] at h
  | rethrow => simp [passesControl] at h
  | endFinally => simp [passesControl] at h
  | endFilter => simp [passesControl] at h
  | constrained ty => exact (sim_modifyNext fun x => { x with constrained := some ty }).next
  | volatile =>
    exact (sim_modifyNext fun x => { x with flags := { x.flags with isVolatile := true } }).next
  | unaligned =>
    exact (sim_modifyNext fun x => { x with flags := { x.flags with isUnaligned := true } }).next
  | readonly => exact (sim_modifyNext fun x => { x with isReadonly := true }).next

end MethodIR.Import
