import MethodIR.Proofs.Growth
import MethodIR.Proofs.Machines

/-!
# Lowering step by step

While a block is lowered, the instructions in it and the bytecode read so far are kept in step
(`Scene.At`). Each step of lowering keeps this (`Sim`), and steps are put together by `Sim.bind`.
-/

namespace MethodIR

open List Success Body Function

variable {V : Type} {l : Label} {m : Bytecode} {s s' : State}

namespace Body.Machine

variable {I : Meaning V} {x y body : Body} {s : Machine V} {i j : InstId} {v : VarId}

lemma exec_loadVar (h : body.kind i = .loadVar v) :
    exec I body s i = { s with env := update s.env i (s.vars v) } := by
  rw [kind] at h
  simp [exec, h]

lemma exec_storeVar {w : Value} (h : body.kind i = .storeVar v) (hops : (body.inst i).operands = [w]) :
    exec I body s i = { s with vars := update s.vars v (eval I s.env w) } := by
  rw [kind] at h
  simp [exec, h, hops]

lemma exec_label (h : label? body (body.inst i) = some l) : exec I body s i =
      let effects := ⟨l, (body.inst i).operands.map (eval I s.env)⟩ :: s.effects
      { s with effects, env := update s.env i (I.result effects) } := by
  simp only [exec]
  split
  · simp_all [label?]
  · simp_all [label?]
  · simp [h]

lemma exec_silent (h : label? body (body.inst i) = none) (hload : ∀ v, body.kind i ≠ .loadVar v)
    (hstore : ∀ v, body.kind i ≠ .storeVar v) : exec I body s i = s := by
  simp only [exec]
  split
  · exact absurd ‹_› (hload _)
  · exact absurd ‹_› (hstore _)
  · simp [h]

@[simp] lemma exec_choices : (exec I body s i).choices = s.choices := by
  simp only [exec]
  split
  · rfl
  · rfl
  · split <;> rfl

@[simp] lemma exec_path : (exec I body s i).path = s.path := by
  simp only [exec]
  split
  · rfl
  · rfl
  · split <;> rfl

@[simp] lemma exec_halted : (exec I body s i).halted = s.halted := by
  simp only [exec]
  split
  · rfl
  · rfl
  · split <;> rfl

lemma exec_env_of_ne (h : j ≠ i) : (exec I body s i).env j = s.env j := by
  simp only [exec]
  split
  · simp [update_of_ne h]
  · rfl
  · split <;> simp [update_of_ne h]

def Closed (body : Body) (i : InstId) : Prop := body.hasInst i ∧ ∀ v, body.kind i = .varAddr v → body.hasVar v

section

variable (h : Closed x i) (hg : Grows x y)
include h hg

lemma Closed.mono : Closed y i := by
  obtain ⟨hy, hkind, -⟩ := hg.inst i h.1
  refine ⟨hy, fun v hv => (hg.var v (h.2 v ?_)).1⟩
  rw [← hv]
  exact hkind.symm

lemma label?_congr : label? y (y.inst i) = label? x (x.inst i) := by
  obtain ⟨-, hkind, hty, -⟩ := hg.inst i h.1
  rw [label?, label?, hkind, hty]
  cases hk : (x.inst i).kind with
  | varAddr v =>
    obtain ⟨-, -, horigin⟩ := hg.var v (h.2 v hk)
    simp [horigin]
  | _ => rfl

lemma exec_congr : exec I y s i = exec I x s i := by
  have hlabel := label?_congr h hg
  obtain ⟨-, hkind, -, hops⟩ := hg.inst i h.1
  simp only [exec]
  simp only [hkind, hops, hlabel]

end

lemma foldl_exec_congr {l : List InstId} (h : ∀ i ∈ l, Closed x i) (hg : Grows x y) :
    l.foldl (exec I y) s = l.foldl (exec I x) s := by
  induction l generalizing s with
  | nil => rfl
  | cons i l ih =>
    rw [foldl_cons, foldl_cons, exec_congr (h i (by simp)) hg, ih fun j hj => h j (by simp [hj])]

end Body.Machine

namespace Import

open Body.Machine
open Bytecode (Storage)

variable {slot slot' : Storage} {ws : List V}

def State.frameVar? (s : State) : Storage → Option VarId
  | .argument n => s.argVars[n]?
  | .local n => s.localVars[n]?

lemma State.frameVar?_congr (hargs : s'.argVars = s.argVars)
    (hlocals : s'.localVars = s.localVars) : s'.frameVar? = s.frameVar? := by
  funext slot
  cases slot <;> simp [frameVar?, hargs, hlocals]

/-- The variables of the frame are declared as the method says. -/
structure Framed (m : Bytecode) (s : State) : Prop where
  returnTy : s.body.returnTy = m.sig.ret
  var : ∀ slot v, s.frameVar? slot = some v → s.body.hasVar v ∧
    m.slotTy? slot = some (s.body.var v).ty ∧ (s.body.var v).origin = slot.origin

lemma Framed.inj (h : Framed m s) {v : VarId}
    (hs : s.frameVar? slot = some v) (hs' : s.frameVar? slot' = some v) : slot = slot' := by
  have horigin := (h.var slot v hs).2.2.symm.trans (h.var slot' v hs').2.2
  cases slot <;> cases slot' <;> simp_all [Storage.origin]

def State.Expects (s : State) (n : Nat) (vars : List VarId) : Prop :=
  (s.segment n).entryStack = some (vars.map .var)

/-! ## States that grow -/

structure SameSegments (s s' : State) : Prop where
  size : s'.segments.size = s.segments.size
  same : ∀ n, (s'.segment n).start = (s.segment n).start ∧ (s'.segment n).stop = (s.segment n).stop ∧
    (s'.segment n).block = (s.segment n).block ∧ (s'.segment n).entryBlock = (s.segment n).entryBlock

structure SegmentsGrow (s s' : State) : Prop extends SameSegments s s' where
  expects : ∀ n slots, (s.segment n).entryStack = some slots → (s'.segment n).entryStack = some slots

structure Extends (s s' : State) : Prop where
  grows : s.body.Grows s'.body
  segments : SegmentsGrow s s'
  argVars : s'.argVars = s.argVars
  localVars : s'.localVars = s.localVars

section

variable {s s' s'' : State}

lemma SameSegments.of_eq (h : s'.segments = s.segments) : SameSegments s s' :=
  ⟨by rw [h], fun n => by rw [State.segment, h]; exact ⟨rfl, rfl, rfl, rfl⟩⟩

lemma SameSegments.trans (h : SameSegments s s') (k : SameSegments s' s'') : SameSegments s s'' := by
  refine ⟨k.size.trans h.size, fun n => ?_⟩
  obtain ⟨hstart, hstop, hblock, hentry⟩ := h.same n
  obtain ⟨kstart, kstop, kblock, kentry⟩ := k.same n
  exact ⟨kstart.trans hstart, kstop.trans hstop, kblock.trans hblock, kentry.trans hentry⟩

lemma SegmentsGrow.of_eq (h : s'.segments = s.segments) : SegmentsGrow s s' :=
  ⟨.of_eq h, fun n slots hn => by rwa [State.segment, h]⟩

lemma SegmentsGrow.refl (s : State) : SegmentsGrow s s := .of_eq rfl

lemma SegmentsGrow.trans (h : SegmentsGrow s s') (k : SegmentsGrow s' s'') : SegmentsGrow s s'' :=
  ⟨h.toSameSegments.trans k.toSameSegments, fun n slots hn => k.expects n slots (h.expects n slots hn)⟩

lemma Extends.refl (s : State) : Extends s s := ⟨.refl _, .refl _, rfl, rfl⟩

lemma Extends.trans (h : Extends s s') (k : Extends s' s'') : Extends s s'' :=
  ⟨h.grows.trans k.grows, h.segments.trans k.segments, k.argVars.trans h.argVars, k.localVars.trans h.localVars⟩

lemma Extends.frameVar? (h : Extends s s') : s'.frameVar? = s.frameVar? :=
  State.frameVar?_congr h.argVars h.localVars

lemma Framed.mono (h : Framed m s) (hg : s.body.Grows s'.body)
    (hframe : s'.frameVar? = s.frameVar?) : Framed m s' := by
  refine ⟨hg.returnTy.trans h.returnTy, fun slot v hv => ?_⟩
  rw [hframe] at hv
  obtain ⟨hhas, hty, horigin⟩ := h.var slot v hv
  obtain ⟨hhas', hty', horigin'⟩ := hg.var v hhas
  exact ⟨hhas', hty.trans (congrArg some hty'.symm), horigin'.trans horigin⟩

lemma Framed.extends (h : Framed m s) (hs : Extends s s') : Framed m s' :=
  h.mono hs.grows hs.frameVar?

end

/-- What a segment expects is there. -/
def EntrySlot.Known (body : Body) : EntrySlot → Prop
  | .value v => body.hasValue v
  | .var v => body.hasVar v

def EntrySlot.ty (body : Body) : EntrySlot → Ty
  | .value v => body.valueTy v
  | .var v => (body.var v).ty

lemma EntrySlot.Known.mono {x y : Body} {slot : EntrySlot} (h : slot.Known x) (hg : Grows x y) :
    slot.Known y ∧ slot.ty y = slot.ty x := by
  cases slot with
  | value v => exact ⟨hg.hasValue h, hg.valueTy h⟩
  | var v => exact ⟨(hg.var v h).1, (hg.var v h).2.1⟩

/-- The variables in which segments expect the stack: apart from those of the frame, and for two
segments the same ones or different ones throughout. -/
structure StackVars (s : State) : Prop where
  known : ∀ n slots, (s.segment n).entryStack = some slots → ∀ slot ∈ slots, slot.Known s.body
  vars : ∀ n vars, s.Expects n vars → vars.Nodup ∧ ∀ v ∈ vars, ∀ slot, s.frameVar? slot ≠ some v
  apart : ∀ n n' vars vars', s.Expects n vars → s.Expects n' vars' → vars = vars' ∨ ∀ v ∈ vars, v ∉ vars'

lemma StackVars.extends (h : StackVars s) (hs : Extends s s')
    (hold : ∀ n slots, (s'.segment n).entryStack = some slots →
      (s.segment n).entryStack = some slots ∨ slots = []) : StackVars s' := by
  have hexpects : ∀ n vars, s'.Expects n vars → s.Expects n vars ∨ vars = [] := fun n vars hn =>
    (hold n _ hn).imp_right map_eq_nil_iff.1
  refine ⟨fun n slots hn slot hslot => ?_, fun n vars hn => ?_, fun n n' vars vars' hn hn' => ?_⟩
  · rcases hold n slots hn with hn | rfl
    · exact ((h.known n slots hn slot hslot).mono hs.grows).1
    · simp at hslot
  · rw [hs.frameVar?]
    rcases hexpects n vars hn with hn | rfl
    · exact h.vars n vars hn
    · exact ⟨.nil, by simp⟩
  · rcases hexpects n vars hn with hn | rfl
    · rcases hexpects n' vars' hn' with hn' | rfl
      · exact h.apart n n' vars vars' hn hn'
      · exact .inr fun v _ => not_mem_nil
    · exact .inr (by simp)

/-- A block about to be lowered, with both machines at its start. The first `skip` instructions of the
block have been run. -/
structure Scene (V : Type) where
  I : Meaning V
  m : Bytecode
  block : BlockId
  skip : Nat
  ir : Body.Machine V
  il : Bytecode.Machine V

namespace Scene

variable (c : Scene V)

def ran (body : Body) : Body.Machine V := ((body.instsOf c.block).drop c.skip).foldl (exec c.I body) c.ir

def value (body : Body) (v : Value) : V × Ty := (eval c.I (c.ran body).env v, body.valueTy v)

/-- Both machines have come to the same point. -/
structure At (s : State) (il : Bytecode.Machine V) : Prop where
  framed : Framed c.m s
  block : s.cursor.block = c.block
  hasBlock : s.body.hasBlock c.block
  skip : c.skip ≤ (s.body.instsOf c.block).length
  closed : ∀ i ∈ s.body.instsOf c.block, Closed s.body i
  values : ∀ v ∈ s.cursor.stack, s.body.hasValue v
  stack : il.stack = s.cursor.stack.map (c.value s.body)
  slots : ∀ slot v, s.frameVar? slot = some v → il.slots slot = (c.ran s.body).vars v
  modifiers : il.modifiers = s.cursor.modifiers
  effects : il.effects = (c.ran s.body).effects
  choices : il.choices = (c.ran s.body).choices
  still : il.offset = c.il.offset ∧ il.path = c.il.path ∧ il.halted = c.il.halted
  stackVars : StackVars s

structure Later (s s' : State) : Prop extends Extends s s' where
  env : ∀ i, s.body.hasInst i → (c.ran s'.body).env i = (c.ran s.body).env i
  index : s'.cursor.index = s.cursor.index
  others : ∀ b, b ≠ c.block → s'.body.instsOf b = s.body.instsOf b
  own : s.body.instsOf c.block <+: s'.body.instsOf c.block

variable {c} {s s' s'' : State} {v : Value} {w : V × Ty}

lemma Later.refl (s : State) : c.Later s s :=
  ⟨.refl s, fun _ _ => rfl, rfl, fun _ _ => rfl, prefix_rfl⟩

lemma Later.trans (h : c.Later s s') (k : c.Later s' s'') : c.Later s s'' :=
  ⟨h.toExtends.trans k.toExtends, fun i hi => (k.env i (h.grows.inst i hi).1).trans (h.env i hi),
    k.index.trans h.index, fun b hb => (k.others b hb).trans (h.others b hb), h.own.trans k.own⟩

lemma Later.value (h : c.Later s s') (hv : s.body.hasValue v) : c.value s'.body v = c.value s.body v := by
  rw [Scene.value, Scene.value, h.grows.valueTy hv]
  cases v with
  | inst i => exact congrArg (·, _) (h.env i hv)
  | _ => rfl

variable (c)

def Stands (s : State) (v : Value) (w : V × Ty) : Prop := s.body.hasValue v ∧ c.value s.body v = w

def StandAll (s : State) (vs : List Value) (ws : List V) : Prop :=
  (∀ v ∈ vs, s.body.hasValue v) ∧ vs.map (eval c.I (c.ran s.body).env) = ws

variable {c} {vs : List Value}

lemma Stands.later (h : c.Stands s v w) (k : c.Later s s') : c.Stands s' v w :=
  ⟨k.grows.hasValue h.1, (k.value h.1).trans h.2⟩

lemma StandAll.later (h : c.StandAll s vs ws) (k : c.Later s s') : c.StandAll s' vs ws := by
  refine ⟨fun v hv => k.grows.hasValue (h.1 v hv), ?_⟩
  rw [← h.2]
  exact map_congr_left fun v hv => congrArg Prod.fst (k.value (h.1 v hv))

lemma standAll_nil (s : State) : c.StandAll s [] [] := ⟨by simp, rfl⟩

lemma StandAll.cons (h : c.Stands s v w) (k : c.StandAll s vs ws) : c.StandAll s (v :: vs) (w.1 :: ws) := by
  refine ⟨by simpa using ⟨h.1, k.1⟩, ?_⟩
  rw [map_cons, k.2, ← h.2]
  rfl

end Scene

/-- From a state of lowering in step with a machine, `x` goes to a later one in step with the machine
after `y`, and the results are related. -/
def Sim {α β : Type} (c : Scene V) (s : State) (x : M α) (y : Bytecode.Machine.Exec V β)
    (R : State → α → β → Prop) : Prop :=
  ∀ log a t, x ⟨s, log⟩ = .ok a t → ∀ il, c.At s il →
    c.Later s t.state ∧ ∃ r il', y il = some (r, il') ∧ c.At t.state il' ∧ R t.state a r

variable {α β γ δ : Type} {c : Scene V} {s s' : State} {v : Value} {w : V × Ty}

lemma Sim.bind {x : M α} {y : Bytecode.Machine.Exec V β} {R : State → α → β → Prop}
    {f : α → M γ} {g : β → Bytecode.Machine.Exec V δ} {S : State → γ → δ → Prop}
    (hx : Sim c s x y R) (hf : ∀ s' a r, c.Later s s' → R s' a r → Sim c s' (f a) (g r) S) :
    Sim c s (x >>= f) (y >>= g) S := by
  intro log a t h il hil
  obtain ⟨a₁, t₁, h₁, h₂⟩ := bind_iff.1 h
  obtain ⟨hlater, r, il₁, hy, hil₁, hR⟩ := hx log a₁ t₁ h₁ il hil
  obtain ⟨hlater', r', il', hg, hil', hS⟩ := hf t₁.state a₁ r hlater hR t₁.log a t h₂ il₁ hil₁
  refine ⟨hlater.trans hlater', r', il', ?_, hil', hS⟩
  change (y il).bind _ = _
  rw [hy]
  exact hg

lemma Sim.ret {R : State → α → β → Prop} {a : α} {r : β} (h : R s a r) : Sim c s (pure a) (pure r) R := by
  intro log a' t ht il hil
  obtain ⟨rfl, rfl⟩ := pure_iff.1 ht
  exact ⟨.refl s, r, il, rfl, hil, h⟩

/-! ## The symbolic stack -/

section Stack

variable {il : Bytecode.Machine V} {k : Cursor}

lemma Scene.At.withCursor (h : c.At s il) {stack : List (V × Ty)} {mods : Modifiers}
    (hblock : k.block = s.cursor.block) (hvalues : ∀ v ∈ k.stack, s.body.hasValue v)
    (hstack : stack = k.stack.map (c.value s.body)) (hmods : mods = k.modifiers) :
    c.At { s with cursor := k } { il with stack, modifiers := mods } :=
  ⟨⟨h.framed.returnTy, h.framed.var⟩, hblock.trans h.block, h.hasBlock, h.skip, h.closed, hvalues,
    hstack, h.slots, hmods, h.effects, h.choices, h.still,
    h.stackVars.extends ⟨.refl _, .of_eq rfl, rfl, rfl⟩ fun _ _ => .inl⟩

lemma Scene.later_cursor (hindex : k.index = s.cursor.index) : c.Later s { s with cursor := k } :=
  ⟨⟨.refl _, .of_eq rfl, rfl, rfl⟩, fun _ _ => rfl, hindex, fun _ _ => rfl, prefix_rfl⟩

lemma sim_push (h : c.Stands s v w) : Sim c s (push v) (Bytecode.Machine.push w) fun _ _ _ => True := by
  intro log a t ht il hil
  obtain rfl := Traced.modifyState_iff.1 ht
  refine ⟨Scene.later_cursor rfl, (), { il with stack := w :: il.stack }, rfl, ?_, trivial⟩
  exact hil.withCursor (k := { s.cursor with stack := v :: s.cursor.stack }) rfl
    (by simpa using ⟨h.1, hil.values⟩) (by simp [hil.stack, h.2]) hil.modifiers

lemma sim_setStack_nil : Sim c s (setStack []) Bytecode.Machine.clear fun _ _ _ => True := by
  intro log a t ht il hil
  obtain rfl := Traced.modifyState_iff.1 ht
  refine ⟨Scene.later_cursor rfl, (), { il with stack := [] }, rfl, ?_, trivial⟩
  exact hil.withCursor (k := { s.cursor with stack := [] }) rfl (by simp) rfl hil.modifiers

lemma sim_pop : Sim c s pop Bytecode.Machine.pop c.Stands := by
  intro log a t ht il hil
  simp only [pop, Traced.getState_bind_iff] at ht
  cases hstack : s.cursor.stack with
  | nil => simp [hstack, fail, failAt] at ht
  | cons v rest =>
    simp only [hstack, setStack, bind_iff, Traced.modifyState_iff, pure_iff] at ht
    obtain ⟨_, _, rfl, rfl, rfl⟩ := ht
    have hil' := hil.stack
    rw [hstack, map_cons] at hil'
    have hvalues := hil.values
    rw [hstack] at hvalues
    refine ⟨Scene.later_cursor rfl, _, { il with stack := rest.map (c.value s.body) }, ?_,
      hil.withCursor (k := { s.cursor with stack := rest }) rfl (fun v hv => hvalues v (by simp [hv]))
        rfl hil.modifiers, hvalues v (by simp), rfl⟩
    simp only [Bytecode.Machine.pop, hil']
    rfl

lemma sim_popMany (n : Nat) : Sim c s (popMany n) (Bytecode.Machine.popMany n) c.StandAll := by
  intro log a t ht il hil
  simp only [popMany, Traced.getState_bind_iff] at ht
  by_cases hlen : s.cursor.stack.length < n
  · simp [hlen, fail, failAt] at ht
  · simp only [hlen, if_false, setStack, bind_iff, Traced.modifyState_iff, pure_iff] at ht
    obtain ⟨_, _, rfl, rfl, rfl⟩ := ht
    refine ⟨Scene.later_cursor rfl, _, { il with stack := il.stack.drop n }, ?_,
      hil.withCursor (k := { s.cursor with stack := s.cursor.stack.drop n }) rfl
        (fun v hv => hil.values v (mem_of_mem_drop hv)) (by rw [hil.stack, map_drop])
        hil.modifiers, fun v hv => ?_, rfl⟩
    · have hlen' : ¬il.stack.length < n := by simpa [hil.stack] using hlen
      rw [Bytecode.Machine.popMany, if_neg hlen', hil.stack, ← map_take, map_map, map_reverse]
      rfl
    · exact hil.values v (mem_of_mem_take (mem_reverse.1 hv))

lemma sim_modifyNext (f : Modifiers → Modifiers) :
    Sim c s (modifyNext f) (Bytecode.Machine.modifyNext f) fun _ _ _ => True := by
  intro log a t ht il hil
  obtain rfl := Traced.modifyState_iff.1 ht
  refine ⟨Scene.later_cursor rfl, (), { il with modifiers := f il.modifiers }, rfl, ?_, trivial⟩
  exact hil.withCursor (k := { s.cursor with modifiers := f s.cursor.modifiers }) rfl hil.values
    hil.stack (by rw [hil.modifiers])

lemma sim_modifiers : Sim c s (Traced.getState : M State) get
    fun s' a r => a = s' ∧ r.modifiers = s'.cursor.modifiers := by
  intro log a t ht il hil
  obtain ⟨rfl, rfl⟩ := Traced.getState_iff.1 ht
  exact ⟨.refl _, il, il, rfl, hil, rfl, hil.modifiers⟩

end Stack

/-! ## Instructions added to the block -/

section Emit

variable {il il' : Bytecode.Machine V} {kind : Kind} {vs : List Value} {ty : Ty} {value : Value}

/-- The state after an instruction was added to the block. -/
def State.append (s : State) (kind : Kind) (vs : List Value) (ty : Ty) : State :=
  { s with body := s.body.append s.cursor.block kind vs ty }

def State.nextInst (s : State) : InstId := ⟨s.body.insts.size⟩

lemma append_kind (s : State) (kind : Kind) (vs : List Value) (ty : Ty) :
    (s.append kind vs ty).body.kind s.nextInst = kind ∧ ((s.append kind vs ty).body.inst s.nextInst).ty = ty ∧
    ((s.append kind vs ty).body.inst s.nextInst).operands = vs :=
  append_new s.body s.cursor.block kind vs ty

section

variable (h : c.At s il)
include h

lemma Scene.At.instsOf_append : (s.append kind vs ty).body.instsOf c.block =
    s.body.instsOf c.block ++ [s.nextInst] := by
  rw [← h.block]
  refine (Body.instsOf_append _ _ kind vs ty ?_).trans (if_pos rfl)
  rw [h.block]
  exact h.hasBlock

lemma Scene.At.ran_append : c.ran (s.append kind vs ty).body =
    exec c.I (s.append kind vs ty).body (c.ran s.body) s.nextInst := by
  rw [Scene.ran, h.instsOf_append, drop_append_of_le_length h.skip, foldl_append, foldl_cons,
    foldl_nil, foldl_exec_congr fun i hi => h.closed i (mem_of_mem_drop hi)]
  · rfl
  · exact grows_append _ _ kind vs ty

lemma Scene.At.later_append : c.Later s (s.append kind vs ty) := by
  refine ⟨⟨grows_append _ _ kind vs ty, .of_eq rfl, rfl, rfl⟩, fun i hi => ?_, rfl, fun b hb => ?_, ?_⟩
  · rw [h.ran_append]
    refine exec_env_of_ne ?_
    rintro rfl
    simp [State.nextInst, hasInst] at hi
  · have hhas : s.body.hasBlock s.cursor.block := by
      rw [h.block]
      exact h.hasBlock
    refine (Body.instsOf_append _ _ kind vs ty hhas).trans (if_neg ?_)
    rwa [h.block]
  · rw [h.instsOf_append]
    exact prefix_append _ _

lemma Scene.At.onward (k : c.Later s s') (hcursor : s'.cursor = s.cursor)
    (hclosed : ∀ i ∈ s'.body.instsOf c.block, Closed s'.body i) (hvars : StackVars s')
    (hslots : ∀ slot v, s.frameVar? slot = some v → il'.slots slot = (c.ran s'.body).vars v)
    (heffects : il'.effects = (c.ran s'.body).effects) (hchoices : (c.ran s'.body).choices = (c.ran s.body).choices)
    (hrest : il' = { il with slots := il'.slots, effects := il'.effects }) : c.At s' il' := by
  refine ⟨h.framed.extends k.toExtends, by rw [hcursor, h.block], k.grows.block _ h.hasBlock,
    h.skip.trans k.own.length_le, hclosed, fun v hv => ?_, ?_, fun slot v hv => ?_, ?_, heffects, ?_, ?_, hvars⟩
  · rw [hcursor] at hv
    exact k.grows.hasValue (h.values v hv)
  · rw [hrest, hcursor]
    change il.stack = _
    rw [h.stack]
    exact map_congr_left fun v hv => (k.value (h.values v hv)).symm
  · rw [k.frameVar?] at hv
    exact hslots slot v hv
  · rw [hrest, hcursor]
    exact h.modifiers
  · rw [hrest, hchoices]
    exact h.choices
  · rw [hrest]
    exact h.still

lemma Scene.At.append (hclosed : ∀ v, kind = .varAddr v → s.body.hasVar v)
    (hslots : ∀ slot v, s.frameVar? slot = some v → il'.slots slot = (c.ran (s.append kind vs ty).body).vars v)
    (heffects : il'.effects = (c.ran (s.append kind vs ty).body).effects)
    (hrest : il' = { il with slots := il'.slots, effects := il'.effects }) :
    c.At (s.append kind vs ty) il' := by
  have hlater : c.Later s (s.append kind vs ty) := h.later_append
  have hgrows := hlater.grows
  refine h.onward hlater rfl (fun i hi => ?_) (h.stackVars.extends hlater.toExtends fun _ _ => .inl) hslots heffects
    (by rw [h.ran_append, exec_choices]) hrest
  rw [h.instsOf_append] at hi
  rcases mem_append.1 hi with hi | hi
  · exact (h.closed i hi).mono hgrows
  · obtain rfl := mem_singleton.1 hi
    refine ⟨?_, fun v hv => (hgrows.var v (hclosed v ((append_kind s kind vs ty).1.symm.trans hv))).1⟩
    simp [hasInst, State.nextInst, State.append, insts_size_append]

end

def Labelled (kind : Kind) (ty : Ty) (l : Label) : Prop := (∀ v, kind ≠ .varAddr v) ∧
    ∀ (body : Body) (x : Inst), x.kind = kind → x.ty = ty → label? body x = some l

lemma sim_emit (hlabel : Labelled kind ty l) (hvs : c.StandAll s vs ws) :
    Sim c s (emit kind vs ty) (Bytecode.Machine.emit c.I l ws) fun s v r => c.Stands s v (r, ty) := by
  intro log v t ht il hil
  obtain ⟨rfl, -, -, -, -, rfl⟩ := emit_eq_ok ht
  obtain ⟨hkind, hty, hops⟩ := append_kind s kind vs ty
  have hran : c.ran (s.append kind vs ty).body = _ := hil.ran_append
  rw [exec_label (hlabel.2 _ _ hkind hty), hops, hvs.2, ← hil.effects] at hran
  refine ⟨hil.later_append, _, { il with effects := ⟨l, ws⟩ :: il.effects }, rfl, ?_, ?_, ?_⟩
  · refine hil.append (fun v hv => absurd hv (hlabel.1 v)) (fun slot v hv => ?_) ?_ rfl
    · rw [hran]
      exact hil.slots slot v hv
    · rw [hran]
  · simp [hasValue, hasInst, insts_size_append]
  · refine Prod.ext ?_ hty
    change (c.ran (s.append kind vs ty).body).env s.nextInst = _
    rw [hran]
    exact update_self ..

section

variable (h : c.At s il)
include h

lemma Scene.At.append_silent (vs : List Value) (ty : Ty) (hkind : (∃ b, kind = .jump b) ∨ ∃ b, kind = .leave b) :
    c.At (s.append kind vs ty) il ∧ c.ran (s.append kind vs ty).body = c.ran s.body := by
  have hk := (append_kind s kind vs ty).1
  have hran : c.ran (s.append kind vs ty).body = c.ran s.body := by
    rw [h.ran_append]
    rw [Body.kind] at hk
    rcases hkind with ⟨b, rfl⟩ | ⟨b, rfl⟩ <;>
      exact exec_silent (by simp [label?, hk]) (by simp [kind, hk]) (by simp [kind, hk])
  refine ⟨h.append ?_ (fun slot v hv => ?_) ?_ rfl, hran⟩
  · rintro v rfl
    simp at hkind
  · rw [hran]
    exact h.slots slot v hv
  · rw [hran]
    exact h.effects

lemma Scene.At.append_loadVar (v : VarId) (ty : Ty) : c.At (s.append (.loadVar v) [] ty) il ∧
      c.Stands (s.append (.loadVar v) [] ty) (.inst s.nextInst) ((c.ran s.body).vars v, ty) ∧
      (c.ran (s.append (.loadVar v) [] ty).body).vars = (c.ran s.body).vars := by
  obtain ⟨hkind, hty, -⟩ := append_kind s (.loadVar v) [] ty
  have hran : c.ran (s.append (.loadVar v) [] ty).body = _ := h.ran_append
  rw [exec_loadVar hkind] at hran
  refine ⟨h.append (by simp) (fun slot v hv => ?_) ?_ rfl, ⟨?_, Prod.ext ?_ hty⟩, ?_⟩
  · rw [hran]
    exact h.slots slot v hv
  · rw [hran]
    exact h.effects
  · simp [State.append, State.nextInst, hasValue, hasInst, insts_size_append]
  · change (c.ran (s.append (.loadVar v) [] ty).body).env s.nextInst = _
    rw [hran]
    exact update_self ..
  · rw [hran]

lemma Scene.At.ran_storeVar (v : VarId) (value : Value) :
    (c.ran (s.append (.storeVar v) [value] ty).body) = { c.ran s.body with
      vars := update (c.ran s.body).vars v (c.value s.body value).1 } := by
  obtain ⟨hkind, -, hops⟩ := append_kind s (.storeVar v) [value] ty
  rw [h.ran_append, exec_storeVar hkind hops]
  rfl

lemma Scene.At.append_storeVar {v : VarId}
    (hv : s.frameVar? slot = some v) : c.At (s.append (.storeVar v) [value] ty)
      { il with slots := update il.slots slot (c.value s.body value).1 } := by
  have hran : c.ran (s.append (.storeVar v) [value] ty).body = _ := h.ran_storeVar v value
  refine h.append (by simp) (fun slot' v' hv' => ?_) ?_ rfl
  · rw [hran]
    by_cases hslot : slot' = slot
    · subst hslot
      obtain rfl : v = v' := Option.some.inj (hv.symm.trans hv')
      simp
    · have hne : v' ≠ v := by
        rintro rfl
        exact hslot (h.framed.inj hv' hv)
      simp [hslot, hne, h.slots slot' v' hv']
  · rw [hran]
    exact h.effects

lemma Scene.At.append_storeStack {v : VarId}
    (hv : ∀ slot, s.frameVar? slot ≠ some v) : c.At (s.append (.storeVar v) [value] ty) il := by
  have hran : c.ran (s.append (.storeVar v) [value] ty).body = _ := h.ran_storeVar v value
  refine h.append (by simp) (fun slot' v' hv' => ?_) ?_ rfl
  · have hne : v' ≠ v := by
      rintro rfl
      exact hv slot' hv'
    rw [hran]
    simp [hne, h.slots slot' v' hv']
  · rw [hran]
    exact h.effects

lemma Scene.At.append_varAddr {v : VarId}
    (hv : s.frameVar? slot = some v) (ty : Ty) : c.At (s.append (.varAddr v) [] ty)
        { il with effects := ⟨.address slot.origin ty, []⟩ :: il.effects } ∧
      c.Stands (s.append (.varAddr v) [] ty) (.inst s.nextInst)
        (c.I.result (⟨.address slot.origin ty, []⟩ :: il.effects), ty) := by
  obtain ⟨hhas, -, horigin⟩ := h.framed.var slot v hv
  obtain ⟨hkind, hty, hops⟩ := append_kind s (.varAddr v) [] ty
  have hlabel : label? (s.append (.varAddr v) [] ty).body
      ((s.append (.varAddr v) [] ty).body.inst s.nextInst) = some (.address slot.origin ty) := by
    have hgrows : s.body.Grows (s.append (.varAddr v) [] ty).body := grows_append _ _ _ _ _
    rw [kind] at hkind
    rw [label?, hkind, hty]
    simp [(hgrows.var v hhas).2.2, horigin]
  have hran : c.ran (s.append (.varAddr v) [] ty).body = _ := h.ran_append
  rw [exec_label hlabel, hops, map_nil, ← h.effects] at hran
  refine ⟨h.append ?_ (fun slot v hv => ?_) ?_ rfl, ⟨?_, Prod.ext ?_ hty⟩⟩
  · rintro w ⟨⟩
    exact hhas
  · rw [hran]
    exact h.slots slot v hv
  · rw [hran]
  · simp [State.append, State.nextInst, hasValue, hasInst, insts_size_append]
  · change (c.ran (s.append (.varAddr v) [] ty).body).env s.nextInst = _
    rw [hran]
    exact update_self ..

end

end Emit

end Import

end MethodIR
