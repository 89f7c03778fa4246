import MethodIR.Promotion.Accesses
import MethodIR.Proofs.Failures

/-!
# Rules of lowering

What there is to keep while a block is filled and ended is said by a `Regime`. From its few rules follow
those for all actions (`Regime.runs_lower` and `Regime.ends_lower`).
-/

namespace MethodIR.Import

open List Success Traced Edit Kind
open Bytecode (Action Storage ElementTy Instruction)

variable {α β : Type} {s s' s'' : State} {k : Nat} {kind : Kind} {vs stack : List Value} {ty : Ty} {v w : Value}

def Reads (m : Bytecode) (s : State) (x : M α) (P : α → Prop) : Prop :=
  ∀ log, FailsOnly m.Blames x ⟨s, log⟩ ∧ ∀ a t, x ⟨s, log⟩ = .ok a t → t = ⟨s, log⟩ ∧ P a

/-- What is kept while a block is filled, how a state comes after another one, while the block is filled and
when it has been ended, and for what reasons it may fail. -/
structure Keeping where
  m : Bytecode
  inv : State → Prop
  onward : State → State → Prop
  done : State → State → Prop
  faults : Error → Prop
  blames : ∀ {e}, m.Blames e → faults e
  refl : ∀ s, onward s s
  trans : ∀ {s s' s''}, onward s s' → onward s' s'' → onward s s''
  finish : ∀ {s s' s''}, onward s s' → done s' s'' → done s s''

namespace Keeping

variable {r : Keeping} {x : M α} {f : α → M β} {Q Q' : State → α → Prop} {R : State → β → Prop}

/-- Run in a state in which a block is being filled, `x` leads to a state of which `Q` holds, or fails for one
of the reasons. -/
def Gives (r : Keeping) (s : State) (x : M α) (Q : State → α → Prop) : Prop :=
  ∀ log, r.inv s → FailsOnly r.faults x ⟨s, log⟩ ∧ ∀ a t, x ⟨s, log⟩ = .ok a t → Q t.state a

def Runs (r : Keeping) (s : State) (x : M α) (Q : State → α → Prop) : Prop :=
  r.Gives s x fun s' a => r.inv s' ∧ r.onward s s' ∧ Q s' a

/-- `x` ends the block. -/
def Ends (r : Keeping) (s : State) (x : M Unit) : Prop := r.Gives s x fun s' _ => r.done s s'

lemma Gives.assume (hx : r.inv s → r.Gives s x Q) : r.Gives s x Q := fun log hs => hx hs log hs

lemma Gives.weaken (hx : r.Gives s x Q) (hQ : ∀ s' a, Q s' a → Q' s' a) : r.Gives s x Q' :=
  fun log hs => ⟨(hx log hs).1, fun a t h => hQ _ _ ((hx log hs).2 a t h)⟩

lemma Gives.bind (hx : r.Gives s x Q) (hf : ∀ s' a, Q s' a → r.inv s' ∧ r.Gives s' (f a) R) :
    r.Gives s (x >>= f) R := by
  intro log hs
  obtain ⟨hfails, hgives⟩ := hx log hs
  refine ⟨hfails.bind fun a t₁ h₁ => ?_, fun b t h => ?_⟩
  · obtain ⟨hs₁, hrest⟩ := hf t₁.state a (hgives a t₁ h₁)
    exact (hrest t₁.log hs₁).1
  · obtain ⟨a, t₁, h₁, h₂⟩ := bind_iff.1 h
    obtain ⟨hs₁, hrest⟩ := hf t₁.state a (hgives a t₁ h₁)
    exact (hrest t₁.log hs₁).2 b t h₂

lemma Gives.read {P : α → Prop} (hx : Reads r.m s x P) (hf : ∀ a, P a → r.Gives s (f a) R) :
    r.Gives s (x >>= f) R := by
  intro log hs
  obtain ⟨hfails, hread⟩ := hx log
  refine ⟨FailsOnly.bind (fun e t h => r.blames (hfails e t h)) fun a t₁ h₁ => ?_, fun b t h => ?_⟩
  · obtain ⟨rfl, hP⟩ := hread a t₁ h₁
    exact (hf a hP log hs).1
  · obtain ⟨a, t₁, h₁, h₂⟩ := bind_iff.1 h
    obtain ⟨rfl, hP⟩ := hread a t₁ h₁
    exact (hf a hP log hs).2 b t h₂

lemma Gives.fail {cause : Malformation} : r.Gives s (fail cause) Q := by
  refine fun log _ => ⟨failsOnly_fail fun _ => r.blames (.inl rfl), fun a t h => ?_⟩
  simp [Import.fail, failAt] at h

lemma Runs.bind (hx : r.Runs s x Q)
    (hf : ∀ s' a, r.inv s → r.onward s s' → Q s' a → r.Runs s' (f a) R) : r.Runs s (x >>= f) R := by
  refine .assume fun hs => Gives.bind hx fun s' a hx => ⟨hx.1, ?_⟩
  exact (hf s' a hs hx.2.1 hx.2.2).weaken fun _ _ h => ⟨h.1, r.trans hx.2.1 h.2.1, h.2.2⟩

lemma Runs.finish {f : α → M Unit} (hx : r.Runs s x Q)
    (hf : ∀ s' a, r.inv s → r.onward s s' → Q s' a → r.Ends s' (f a)) : r.Ends s (x >>= f) := by
  refine .assume fun hs => Gives.bind hx fun s' a hx => ⟨hx.1, ?_⟩
  exact (hf s' a hs hx.2.1 hx.2.2).weaken fun _ _ h => r.finish hx.2.1 h

lemma Runs.ret {a : α} (h : Q s a) : r.Runs s (pure a) Q := by
  refine fun log hs => ⟨.pure, fun b t ht => ?_⟩
  obtain ⟨rfl, rfl⟩ := pure_iff.1 ht
  exact ⟨hs, r.refl _, h⟩

lemma Runs.weaken (hx : r.Runs s x Q) (hQ : ∀ s' a, Q s' a → Q' s' a) : r.Runs s x Q' :=
  Gives.weaken hx fun s' a h => ⟨h.1, h.2.1, hQ s' a h.2.2⟩

lemma Runs.discard (hx : r.Runs s x Q) : r.Runs s (discard x) fun _ _ => True := by
  refine fun log hs => ⟨(hx log hs).1.discard, fun u t h => ?_⟩
  obtain ⟨a, h⟩ := discard_iff.1 h
  obtain ⟨hs', honward, -⟩ := (hx log hs).2 a t h
  exact ⟨hs', honward, trivial⟩

end Keeping

/-! ## Looks at the state -/

section Reads

variable {m : Bytecode}

lemma reads_state : Reads m s (getState : M State) (· = s) := by
  refine fun log => ⟨failsOnly_getState, fun a t h => ?_⟩
  obtain ⟨rfl, rfl⟩ := getState_iff.1 h
  exact ⟨rfl, rfl⟩

lemma reads_frameVar (slot : Storage) : Reads m s (frameVar slot) fun w => s.frameVar? slot = some w := by
  refine fun log => ⟨?_, frameVar_read slot log⟩
  cases slot with
  | argument n | «local» n =>
    refine failsOnly_getState.bind fun a _ _ => ?_
    split
    · exact .pure
    · exact blames_fail

lemma reads_branchTarget (op : Opcode) (target : Option Nat) :
    Reads m s (branchTarget op target) fun k => k ∈ target.toList := by
  cases target with
  | none => exact fun log => ⟨blames_fail, fun k t h => by simp [branchTarget, fail, failAt] at h⟩
  | some target =>
    refine fun log => ⟨.pure, fun k t h => ?_⟩
    obtain ⟨rfl, rfl⟩ := pure_iff.1 h
    exact ⟨rfl, by simp⟩

lemma reads_action (i : Instruction) :
    Reads m s (MonadExcept.ofExcept (Action.ofInstruction i)) fun a => Action.ofInstruction i = .ok a := by
  refine fun log => ⟨.ofExcept fun e he => .inl (Bytecode.reported_ofInstruction i e he), fun a t h => ?_⟩
  obtain ⟨ha, rfl⟩ := ofExcept_iff.1 h
  exact ⟨rfl, ha⟩

lemma failsOnly_segmentAt (offset : Nat) (t : Trace State) : FailsOnly m.Blames (segmentAt offset) t := by
  refine failsOnly_getState.bind fun a _ _ => ?_
  split
  · exact .pure
  · exact .throw (.inl rfl)

lemma reads_segmentAt (offset : Nat) : Reads m s (segmentAt offset) fun k =>
    k < s.segments.size ∧ (s.segment k).start = offset :=
  fun log => ⟨failsOnly_segmentAt _ _, segmentAt_read offset log⟩

lemma reads_table (ts : List Nat) : Reads m s (ts.mapM segmentAt) fun ks =>
    (∀ k ∈ ks, k < s.segments.size) ∧ ks.map (fun k => (s.segment k).start) = ts :=
  fun log => ⟨.mapM (I := fun _ => True) ts trivial fun _ _ _ _ =>
    ⟨failsOnly_segmentAt _ _, fun _ _ _ => trivial⟩, mapM_segmentAt_read ts log⟩

lemma reads_fallThrough : Reads m s fallThrough fun k =>
    k = s.cursor.index + 1 ∧ s.cursor.index + 1 < s.segments.size := by
  refine fun log => ⟨failsOnly_getState.bind fun a _ _ => ?_, fallThrough_read log⟩
  dsimp only
  split
  · exact .pure
  · exact blames_fail

lemma reads_entryBlock (k : Nat) : Reads m s (entryBlock k) fun b => (s.segment k).entryBlock = b := by
  refine fun log => ⟨.of_ok (entryBlock_iff.2 ⟨rfl, rfl⟩), fun b t h => ?_⟩
  obtain ⟨hb, rfl⟩ := entryBlock_iff.1 h
  exact ⟨rfl, hb⟩

lemma reads_entryBlocks (ks : List Nat) :
    Reads m s (ks.mapM entryBlock) fun bs => bs = ks.map fun k => (s.segment k).entryBlock :=
  fun _ => ⟨.mapM (I := fun _ => True) ks trivial fun _ _ _ _ =>
    ⟨.of_ok (entryBlock_iff.2 ⟨rfl, rfl⟩), fun _ _ _ => trivial⟩, fun _ _ h => mapM_entryBlock h⟩

end Reads

/-! ## Rules -/

def Inner (kind : Kind) : Prop := kind.isPhi = false ∧ kind.isTerminator = false ∧ kind.successors = []

lemma inner_of_plain (h : Plain kind) : Inner kind ∧ kind.var? = none := by
  cases kind <;> simp_all [Plain, Inner, isPhi, isTerminator, successors, var?]

def CursorEdit (f : Cursor → Cursor) : Prop :=
  ∀ k, (f k).index = k.index ∧ (f k).block = k.block ∧ (f k).inRegion = k.inRegion

/-- What is kept, together with what is known of the values in use (`known`), of the segments to which control
may be passed (`target`, and `free` after the stack has been stored for them) from code at certain offsets
(`leader`), and of the terminators that may end the block (`exits`). -/
structure Regime extends Keeping where
  known : State → Value → Prop
  target : State → Nat → Prop
  free : Nat → Prop
  leader : Nat → Prop
  exits : State → Kind → Prop
  grows : ∀ {s s'}, onward s s' → s.body.Grows s'.body
  segments : ∀ {s s'}, onward s s' → SameSegments s s'
  frameVar? : ∀ {s s'}, onward s s' → s'.frameVar? = s.frameVar?
  keeps : ∀ {s s' v}, inv s → onward s s' → known s v → known s' v
  const : ∀ {s k}, known s (.const k)
  stack : ∀ {s v}, inv s → v ∈ s.cursor.stack → known s v
  hasValue : ∀ {s v}, known s v → s.body.hasValue v ∨ ∀ e, faults e
  hasVar : ∀ {s slot v}, inv s → s.frameVar? slot = some v → s.body.hasVar v
  leads : ∀ {s k}, inv s → k < s.segments.size → leader (s.segment k).start → target s k
  next : ∀ {s}, inv s → s.cursor.index + 1 < s.segments.size → target s (s.cursor.index + 1)
  exits_congr : ∀ {s s' kind}, SameSegments s s' → exits s kind → exits s' kind
  target_congr : ∀ {s s' k}, SameSegments s s' → target s k → target s' k
  cursor : ∀ {s f}, CursorEdit f → (inv s → ∀ v ∈ (f s.cursor).stack, known s v) →
    toKeeping.Runs s (modifyState (·.modifyCursor f)) fun _ _ => True
  emit : ∀ {s kind vs ty}, Plain kind → (∀ v ∈ vs, known s v) →
    (∀ w, arityViolation? kind vs.length = some w → faults (.violation w)) →
    toKeeping.Runs s (emit kind vs ty) known
  load : ∀ {s v}, s.body.hasVar v → toKeeping.Runs s (loadVar v) known
  address : ∀ {s v}, s.body.hasVar v → toKeeping.Runs s (varAddr v) fun _ _ => True
  store : ∀ {s} slot {v u}, s.frameVar? slot = some v → known s u → toKeeping.Runs s (storeVar v u) fun _ _ => True
  spill : ∀ {s} ks, (∀ k ∈ ks, target s k) → toKeeping.Runs s (spill ks) fun _ _ => ∀ k ∈ ks, free k
  terminate : ∀ {s kind vs}, kind.isTerminator → (∀ v ∈ vs, known s v) →
    arityViolation? kind vs.length = none →
    (∀ t ∈ kind.successors, ∃ k, (s.segment k).entryBlock = t ∧ target s k ∧ free k) → exits s kind →
    toKeeping.Ends s (emitVoid kind vs)
  reset : ∀ {s s' f}, CursorEdit f → done s s' → done s (s'.modifyCursor f)

namespace Regime

variable {r : Regime} {a : Action}

section Stack

lemma runs_push (hv : r.known s v) : r.Runs s (push v) fun _ _ => True :=
  r.cursor (fun _ => ⟨rfl, rfl, rfl⟩) fun hs _ hw =>
    (mem_cons.1 hw).elim (fun heq => heq ▸ hv) (r.stack hs)

lemma runs_setStack (h : r.inv s → ∀ v ∈ stack, r.known s v) : r.Runs s (setStack stack) fun _ _ => True :=
  r.cursor (fun _ => ⟨rfl, rfl, rfl⟩) h

lemma runs_modifyNext (f : Modifiers → Modifiers) : r.Runs s (modifyNext f) fun _ _ => True :=
  r.cursor (fun _ => ⟨rfl, rfl, rfl⟩) fun hs _ => r.stack hs

lemma runs_setOffset (offset : Nat) :
    r.Runs s (modifyState (·.modifyCursor fun k => { k with offset })) fun _ _ => True :=
  r.cursor (fun _ => ⟨rfl, rfl, rfl⟩) fun hs _ => r.stack hs

lemma runs_pop : r.Runs s pop r.known := by
  refine .read reads_state fun a ha => ?_
  rw [ha]
  cases hstack : s.cursor.stack with
  | nil => exact .fail
  | cons v rest =>
    have hmem : ∀ w ∈ v :: rest, w ∈ s.cursor.stack := fun _ hw => hstack ▸ hw
    refine (runs_setStack fun hs w hw => r.stack hs (hmem w (mem_cons_of_mem _ hw))).bind ?_
    exact fun _ _ hs honward _ => .ret (r.keeps hs honward (r.stack hs (hmem v mem_cons_self)))

lemma runs_popMany (n : Nat) : r.Runs s (popMany n) fun s' vs => vs.length = n ∧ ∀ v ∈ vs, r.known s' v := by
  refine .read reads_state fun a ha => ?_
  rw [ha]
  by_cases hlen : s.cursor.stack.length < n
  · simp only [hlen, if_true]
    exact Keeping.Runs.bind (Q := fun _ _ => False) .fail fun _ _ _ _ h => h.elim
  · simp only [hlen, if_false]
    refine (runs_setStack fun hs v hv => r.stack hs (mem_of_mem_drop hv)).bind fun s' _ hs honward _ => ?_
    refine .ret ⟨by simpa using hlen, fun v hv => r.keeps hs honward (r.stack hs ?_)⟩
    exact mem_of_mem_take (mem_reverse.1 hv)

end Stack

section Plain

variable (hplain : Plain kind) (hvs : ∀ v ∈ vs, r.known s v) (harity : arityViolation? kind vs.length = none)

include hplain hvs harity

lemma runs_emit : r.Runs s (Import.emit kind vs ty) r.known := r.emit hplain hvs (by simp [harity])

lemma runs_emitPush : r.Runs s (emitPush kind vs ty) fun _ _ => True :=
  (runs_emit hplain hvs harity).bind fun _ _ _ _ hv => runs_push hv

lemma runs_emitVoid : r.Runs s (emitVoid kind vs) fun _ _ => True := (runs_emit hplain hvs harity).discard

lemma runs_emitResult : r.Runs s (emitResult kind vs ty) fun _ _ => True := by
  refine (runs_emit hplain hvs harity).bind fun _ v _ _ hv => ?_
  by_cases hvoid : ty.isVoid
  · simp only [hvoid, if_true]
    exact .ret trivial
  · simp only [hvoid]
    exact runs_push hv

end Plain

lemma runs_loadFrom (hv : r.known s v) : r.Runs s (loadFrom v ty) fun _ _ => True :=
  .read reads_state fun _ _ => runs_emitPush rfl (by simpa using hv) rfl

lemma runs_storeAt (hv : r.known s v) (hw : r.known s w) : r.Runs s (storeAt v w ty) fun _ _ => True :=
  .read reads_state fun _ _ => runs_emitVoid rfl (by simpa using ⟨hv, hw⟩) rfl

lemma runs_elementAddr (hv : r.known s v) (hw : r.known s w) : r.Runs s (elementAddr v w ty) r.known :=
  .read reads_state fun _ _ => runs_emit rfl (by simpa using ⟨hv, hw⟩) rfl

/-! ## Actions -/

section Types

variable {R : State → β → Prop} {f : Ty → M β}

variable (hv : r.known s v)

include hv

lemma runs_valueTy (hf : ∀ ty, r.Gives s (f ty) R) : r.Gives s (valueTy v >>= f) R := by
  refine fun log hs => ⟨FailsOnly.bind ?_ fun ty t h => ?_, fun b t h => ?_⟩
  · rcases r.hasValue hv with hhas | hall
    · exact failsOnly_edit (.of_ok (valueTy_iff.2 ⟨hhas, rfl, rfl⟩))
    · exact fun e _ _ => hall e
  · simp only [valueTy, edit_iff, valueTy_iff] at h
    obtain ⟨_, ⟨-, -, rfl⟩, rfl⟩ := h
    exact (hf ty log hs).1
  · simp only [valueTy, bind_iff, edit_iff, valueTy_iff] at h
    obtain ⟨ty, _, ⟨_, ⟨-, -, rfl⟩, rfl⟩, h⟩ := h
    exact (hf ty log hs).2 b t h

lemma runs_pointeeTy (hf : ∀ ty, r.Gives s (f ty) R) : r.Gives s (pointeeTy v >>= f) R := by
  simp only [pointeeTy, bind_assoc, pure_bind]
  exact runs_valueTy hv fun _ => hf _

lemma runs_elementTy (op : Opcode) (e : ElementTy)
    (hf : ∀ ty, r.Gives s (f ty) R) : r.Gives s (elementTy op v e >>= f) R := by
  cases e with
  | given ty => exact hf ty
  | ofArray => exact runs_pointeeTy hv hf
  | missing => exact Keeping.Gives.bind (Q := fun _ _ => False) .fail fun _ _ h => h.elim

end Types

lemma runs_perform {i : Instruction} (hi : i ∈ r.m.code.toList) (hof : a.IsOf i)
    (h : passesControl a = false) : r.Runs s (perform i.op a) fun _ _ => True := by
  cases a with
  | skip | tail => exact .ret trivial
  | load slot =>
    refine .assume fun hs => .read (reads_frameVar slot) fun w hw => ?_
    exact (r.load (r.hasVar hs hw)).bind fun _ _ _ _ hv => runs_push hv
  | store slot =>
    refine .read (reads_frameVar slot) fun w hw => ?_
    refine runs_pop.bind fun s₁ v _ honward hv => r.store slot ?_ hv
    rwa [r.frameVar? honward]
  | address slot =>
    exact .assume fun hs => .read (reads_frameVar slot) fun w hw => r.address (r.hasVar hs hw)
  | push k => exact runs_push r.const
  | dup =>
    refine runs_pop.bind fun _ v _ _ hv => (runs_push hv).bind fun _ _ hs honward _ => ?_
    exact runs_push (r.keeps hs honward hv)
  | drop => exact runs_pop.discard
  | unary o =>
    refine runs_pop.bind fun _ v _ _ hv => runs_valueTy hv fun ty => ?_
    exact runs_emitPush rfl (by simpa using hv) rfl
  | binary o =>
    refine runs_pop.bind fun _ right _ _ hr => runs_pop.bind fun _ left hs honward hl => ?_
    have hr₁ := r.keeps hs honward hr
    refine runs_valueTy hl fun ty => runs_valueTy hr₁ fun ty' => ?_
    exact runs_emitPush rfl (by simpa using ⟨hl, hr₁⟩) rfl
  | compare o =>
    change r.Runs s (Import.compare o >>= push) _
    rw [compare_bind]
    refine runs_pop.bind fun _ right _ _ hr => runs_pop.bind fun _ left hs honward hl => ?_
    exact runs_emitPush rfl (by simpa using ⟨hl, r.keeps hs honward hr⟩) rfl
  | convert ty checked fromUnsigned =>
    exact runs_pop.bind fun _ v _ _ hv => runs_emitPush rfl (by simpa using hv) rfl
  | call m isVirtual =>
    refine (runs_popMany _).bind fun _ vs _ _ hvs => .read reads_state fun _ _ => ?_
    exact runs_emitResult rfl hvs.2 (by simp [arityViolation?, arity?, hvs.1])
  | newObj ctor =>
    refine (runs_popMany _).bind fun _ vs _ _ hvs => ?_
    exact runs_emitPush rfl hvs.2 (by simp [arityViolation?, arity?, hvs.1])
  | funcAddr m isVirtual =>
    cases isVirtual with
    | false => exact runs_emitPush rfl (by simp) rfl
    | true => exact runs_pop.bind fun _ v _ _ hv => runs_emitPush rfl (by simpa using hv) rfl
  | loadField f =>
    refine runs_pop.bind fun s₁ v _ _ hv => runs_valueTy hv fun ty => ?_
    by_cases hstruct : ty.stackClass = .struct
    · simp only [hstruct, if_true]
      exact runs_emitPush rfl (by simpa using hv) rfl
    · simp only [hstruct, if_false]
      refine (r.emit rfl (by simpa using hv) fun w hw => ?_).bind fun _ _ _ _ hv => runs_loadFrom hv
      exact r.blames (Bytecode.blames_object hi hof.2 (by simp [hof.1]) hw)
  | fieldAddr f =>
    refine runs_pop.bind fun s₁ v _ _ hv => ?_
    refine (r.emit rfl (by simpa using hv) fun w hw => ?_).bind fun _ _ _ _ hv => runs_push hv
    exact r.blames (Bytecode.blames_object hi hof.2 (by simp [hof.1]) hw)
  | storeField f =>
    refine runs_pop.bind fun _ value _ _ hvalue => runs_pop.bind fun s₁ v hs honward hv => ?_
    have hvalue₁ := r.keeps hs honward hvalue
    refine (r.emit rfl (by simpa using hv) fun w hw => ?_).bind fun _ address hs honward haddress => ?_
    · exact r.blames (Bytecode.blames_object hi hof.2 (by simp [hof.1]) hw)
    · exact runs_storeAt haddress (r.keeps hs honward hvalue₁)
  | loadStatic f =>
    refine (r.emit rfl (by simp) fun w hw => ?_).bind fun _ _ _ _ hv => runs_loadFrom hv
    exact r.blames (Bytecode.blames_static hi hof.2 (by simp [hof.1]) hw)
  | staticAddr f =>
    refine (r.emit rfl (by simp) fun w hw => ?_).bind fun _ _ _ _ hv => runs_push hv
    exact r.blames (Bytecode.blames_static hi hof.2 (by simp [hof.1]) hw)
  | storeStatic f =>
    refine runs_pop.bind fun _ value _ _ hvalue => ?_
    refine (r.emit rfl (by simp) fun w hw => ?_).bind fun _ address hs honward haddress => ?_
    · exact r.blames (Bytecode.blames_static hi hof.2 (by simp [hof.1]) hw)
    · exact runs_storeAt haddress (r.keeps hs honward hvalue)
  | loadIndirect ty =>
    refine runs_pop.bind fun _ v _ _ hv => ?_
    cases ty with
    | none => exact runs_pointeeTy hv fun _ => runs_loadFrom hv
    | some ty => exact runs_loadFrom hv
  | storeIndirect ty =>
    refine runs_pop.bind fun _ value _ _ hvalue => runs_pop.bind fun _ v hs honward hv => ?_
    have hvalue₁ := r.keeps hs honward hvalue
    cases ty with
    | none => exact runs_pointeeTy hv fun _ => runs_storeAt hv hvalue₁
    | some ty => exact runs_storeAt hv hvalue₁
  | elementAddr ty =>
    refine runs_pop.bind fun _ index _ _ hindex => runs_pop.bind fun _ array hs honward harray => ?_
    exact (runs_elementAddr harray (r.keeps hs honward hindex)).bind fun _ _ _ _ hv => runs_push hv
  | loadElement ty =>
    refine runs_pop.bind fun _ index _ _ hindex => runs_pop.bind fun _ array hs honward harray => ?_
    refine runs_elementTy harray i.op ty fun ty' => ?_
    exact (runs_elementAddr harray (r.keeps hs honward hindex)).bind fun _ _ _ _ hv => runs_loadFrom hv
  | storeElement ty =>
    refine runs_pop.bind fun _ value _ _ hvalue => runs_pop.bind fun _ index hs honward hindex => ?_
    have hvalue₁ := r.keeps hs honward hvalue
    refine runs_pop.bind fun _ array hs honward harray => runs_elementTy harray i.op ty fun ty' => ?_
    have hvalue₂ := r.keeps hs honward hvalue₁
    refine (runs_elementAddr harray (r.keeps hs honward hindex)).bind fun _ v hs honward hv => ?_
    exact runs_storeAt hv (r.keeps hs honward hvalue₂)
  | intrinsic id args result =>
    by_cases harity : id.arity = 0
    · simp only [perform, harity, if_true]
      exact runs_emitResult rfl (by simp) (by simp [arityViolation?, arity?, harity])
    · simp only [perform, harity, if_false]
      have hone : id.arity = 1 := by cases id <;> simp_all [Intrinsic.arity]
      exact runs_pop.bind fun _ v _ _ hv =>
        runs_emitResult rfl (by simpa using hv) (by simp [arityViolation?, arity?, hone])
  | constrained ty => exact runs_modifyNext fun x => { x with constrained := some ty }
  | volatile => exact runs_modifyNext fun x => { x with flags := { x.flags with isVolatile := true } }
  | unaligned => exact runs_modifyNext fun x => { x with flags := { x.flags with isUnaligned := true } }
  | readonly => exact runs_modifyNext fun x => { x with isReadonly := true }
  | _ => simp [passesControl] at h

/-! ## Terminators -/

section

variable (hterm : kind.isTerminator) (hlast : kind.successors = []) (hvs : ∀ v ∈ vs, r.known s v)
  (harity : arityViolation? kind vs.length = none) (hexits : r.exits s kind)
include hterm hlast hvs harity hexits

lemma ends_last : r.Ends s (emitVoid kind vs) := r.terminate hterm hvs harity (by simp [hlast]) hexits

lemma ends_drop : r.Ends s (do setStack []; emitVoid kind vs) :=
  (runs_setStack (by simp)).finish fun _ _ hs honward _ =>
    ends_last hterm hlast (fun v hv => r.keeps hs honward (hvs v hv)) harity
      (r.exits_congr (r.segments honward) hexits)

end

lemma ends_passTo {kind : BlockId → Kind} (hkind : kind = .jump ∨ kind = .leave) (hk : r.target s k)
    (hexits : r.exits s (kind (s.segment k).entryBlock)) : r.Ends s (passTo kind k) := by
  refine (r.spill [k] (by simpa using hk)).finish fun s₁ _ _ honward hfree => ?_
  have hsame := r.segments honward
  refine .read (reads_entryBlock k) fun b hb => ?_
  have hsuccs : (kind b).isTerminator ∧ (kind b).successors = [b] ∧ arityViolation? (kind b) 0 = none := by
    rcases hkind with rfl | rfl <;> exact ⟨rfl, rfl, rfl⟩
  refine r.terminate hsuccs.1 (by simp) hsuccs.2.2 (fun t ht => ?_) ?_
  · rw [hsuccs.2.1, mem_singleton] at ht
    exact ⟨k, hb.trans ht.symm, r.target_congr hsame hk, hfree k (by simp)⟩
  · rw [← hb, (hsame.same k).2.2.2]
    exact r.exits_congr hsame hexits

lemma ends_branchOn {target : Nat} (htarget : r.leader target) (isNegated : Bool) (hv : r.known s v)
    (hexits : ∀ b, s.EntryAt target b → s.cursor.index + 1 < s.segments.size →
      r.exits s (if isNegated then .branch (s.segment (s.cursor.index + 1)).entryBlock b
        else .branch b (s.segment (s.cursor.index + 1)).entryBlock)) :
    r.Ends s (branchOn v target isNegated) := by
  refine .assume fun hs => .read (reads_segmentAt target) fun k hk => .read reads_fallThrough fun next hnext => ?_
  obtain ⟨hk, rfl⟩ := hk
  obtain ⟨rfl, hnext⟩ := hnext
  have hexits := hexits _ ⟨k, hk, rfl, rfl⟩ hnext
  have hk := r.leads hs hk htarget
  have hnext := r.next hs hnext
  refine (r.spill [k, s.cursor.index + 1] (by simpa using ⟨hk, hnext⟩)).finish ?_
  intro s₁ _ hs honward hfree
  have hsame := r.segments honward
  refine .read (reads_entryBlock k) fun b hb => .read (reads_entryBlock _) fun b' hb' => ?_
  have hall : ∀ t ∈ [b, b'], ∃ k, (s₁.segment k).entryBlock = t ∧ r.target s₁ k ∧ r.free k := by
    simp only [mem_cons, not_mem_nil, or_false, forall_eq_or_imp, forall_eq]
    exact ⟨⟨k, hb, r.target_congr hsame hk, hfree k (by simp)⟩, _, hb', r.target_congr hsame hnext,
      hfree _ (by simp)⟩
  have hv₁ : ∀ w ∈ [v], r.known s₁ w := by simpa using r.keeps hs honward hv
  have hexits₁ : r.exits s₁ (if isNegated then .branch b' b else .branch b b') := by
    rw [← hb, ← hb', (hsame.same k).2.2.2, (hsame.same _).2.2.2]
    exact r.exits_congr hsame hexits
  cases isNegated with
  | false => exact r.terminate rfl hv₁ rfl hall hexits₁
  | true => exact r.terminate rfl hv₁ rfl (fun t ht => hall t (mem_reverse.1 ht)) hexits₁

lemma ends_switch {ts : List Nat} (hts : ∀ t ∈ ts, r.leader t) (hv : r.known s v)
    (hexits : ∀ bs, Forall₂ s.EntryAt ts bs → s.cursor.index + 1 < s.segments.size →
      r.exits s (.switch bs (s.segment (s.cursor.index + 1)).entryBlock)) : r.Ends s (do
        let segments ← ts.mapM segmentAt
        let next ← fallThrough
        Import.spill (segments ++ [next])
        emitVoid (.switch (← segments.mapM entryBlock) (← entryBlock next)) [v]) := by
  refine .assume fun hs => .read (reads_table ts) fun ks hks => .read reads_fallThrough fun next hnext => ?_
  obtain ⟨hks, rfl⟩ := hks
  obtain ⟨rfl, hnext⟩ := hnext
  have hentries : Forall₂ s.EntryAt (ks.map fun k => (s.segment k).start)
      (ks.map fun k => (s.segment k).entryBlock) := by
    rw [forall₂_map_left_iff, forall₂_map_right_iff, forall₂_same]
    exact fun k hk => ⟨k, hks k hk, rfl, rfl⟩
  have hexits := hexits _ hentries hnext
  have hall : ∀ k ∈ ks ++ [s.cursor.index + 1], r.target s k := by
    have hks : ∀ k ∈ ks, r.target s k := fun k hk => r.leads hs (hks k hk) (hts _ (mem_map_of_mem hk))
    simpa [or_imp, forall_and] using ⟨hks, r.next hs hnext⟩
  refine (r.spill _ hall).finish fun s₁ _ hs honward hfree => ?_
  have hsame := r.segments honward
  refine .read (reads_entryBlocks ks) fun bs hbs => .read (reads_entryBlock _) fun b hb => ?_
  refine r.terminate rfl (by simpa using r.keeps hs honward hv) rfl (fun t ht => ?_) ?_
  · have hmem : t ∈ (ks ++ [s.cursor.index + 1]).map fun k => (s₁.segment k).entryBlock := by
      rw [map_append, ← hbs, map_singleton, hb]
      exact ht
    obtain ⟨k, hk, rfl⟩ := mem_map.1 hmem
    exact ⟨k, rfl, r.target_congr hsame (hall k hk), hfree k hk⟩
  · rw [hbs, ← hb, map_congr_left fun k _ => (hsame.same k).2.2.2, (hsame.same _).2.2.2]
    exact r.exits_congr hsame hexits

lemma ends_ret (vs : List Value) (hlen : vs.length ≤ 1) (hvs : ∀ v ∈ vs, r.known s v) (hexits : r.exits s .ret) : r.Ends s (do
    let rest := (← getState).cursor.stack
    unless rest.isEmpty do fail (.leftOver rest.length)
    emitVoid .ret vs) := by
  refine .read reads_state fun s₁ _ => ?_
  cases s₁.cursor.stack with
  | cons v rest => exact Keeping.Gives.bind (Q := fun _ _ => False) .fail fun _ _ h => h.elim
  | nil => exact ends_last rfl rfl hvs (by simp [arityViolation?, arity?, hlen]) hexits

def Allows (r : Regime) (s : State) (x : Instruction) : Prop :=
  ∀ s' kind, r.inv s' → r.onward s s' → ((s'.cursor.index + 1 < s'.segments.size →
    s'.EntryAt x.endOffset (s'.segment (s'.cursor.index + 1)).entryBlock) → x.Exits s'.EntryAt kind) →
    r.exits s' kind

lemma ends_perform {x : Instruction} (h : passesControl a) (hgoesTo : ∀ t ∈ a.goesTo, r.leader t)
    (hof : a.IsOf x) (hexits : r.Allows s x) : r.Ends s (perform x.op a) := by
  refine .assume fun hs => ?_
  cases a with
  | jump t =>
    refine .read (reads_segmentAt t) fun k hk => ?_
    obtain ⟨hk, rfl⟩ := hk
    refine ends_passTo (.inl rfl) (r.leads hs hk (hgoesTo _ (by simp [Action.goesTo]))) ?_
    exact hexits s _ hs (r.refl s) fun _ => .jump hof.1 hof.2 ⟨k, hk, rfl, rfl⟩
  | leave t =>
    refine (runs_setStack (by simp)).finish fun s₁ _ _ honward _ => .assume fun hs => ?_
    refine .read (reads_segmentAt t) fun k hk => ?_
    obtain ⟨hk, rfl⟩ := hk
    refine ends_passTo (.inr rfl) (r.leads hs hk (hgoesTo _ (by simp [Action.goesTo]))) ?_
    exact hexits s₁ _ hs honward fun _ => .leave hof.1 hof.2 ⟨k, hk, rfl, rfl⟩
  | branch target isNegated =>
    obtain ⟨hflow, hnegated, hoperand⟩ := hof
    refine runs_pop.finish fun s₁ v _ honward hv => .assume fun hs => ?_
    refine .read (reads_branchTarget x.op target) fun t ht => ?_
    refine ends_branchOn (hgoesTo t ht) isNegated hv fun b hb hlt => hexits s₁ _ hs honward fun hnext => ?_
    have htarget := hoperand t (by simpa using ht)
    cases isNegated with
    | false => exact .branch hflow (by simpa using hnegated.symm) htarget hb (hnext hlt)
    | true => exact .branchFalse (by simpa using hnegated.symm) htarget hb (hnext hlt)
  | compareBranch o target =>
    obtain ⟨hflow, hstraight, hoperand⟩ := hof
    change r.Ends s (Import.compare o >>= _)
    rw [compare_bind]
    refine runs_pop.finish fun _ right _ honward hr => runs_pop.finish fun _ left hs honward' hl => ?_
    refine (runs_emit rfl (by simpa using ⟨hl, r.keeps hs honward' hr⟩) rfl).finish ?_
    refine fun s₁ v _ honward'' hv => .assume fun hs => .read (reads_branchTarget x.op target) fun t ht => ?_
    refine ends_branchOn (hgoesTo t ht) false hv fun b hb hlt => ?_
    refine hexits s₁ _ hs (r.trans (r.trans honward honward') honward'') fun hnext => ?_
    exact .branch hflow hstraight (hoperand t (by simpa using ht)) hb (hnext hlt)
  | switch ts =>
    refine runs_pop.finish fun s₁ v _ honward hv => .assume fun hs => ends_switch hgoesTo hv fun bs hbs hlt => ?_
    exact hexits s₁ _ hs honward fun hnext => .switch hof.1 hof.2 hbs (hnext hlt)
  | ret =>
    refine .read reads_state fun s₁ _ => ?_
    by_cases hvoid : s₁.body.returnTy.isVoid
    · simp only [hvoid, if_true]
      exact ends_ret [] (by simp) (by simp) (hexits s _ hs (r.refl s) fun _ => .ret hof)
    · simp only [hvoid]
      refine runs_pop.finish fun s₂ v _ honward hv => .assume fun hs => ?_
      exact ends_ret [v] (by simp) (by simpa using hv) (hexits s₂ _ hs honward fun _ => .ret hof)
  | throw =>
    obtain ⟨hflow, hne⟩ := hof
    refine runs_pop.finish fun s₁ v _ honward hv => .assume fun hs => ?_
    refine ends_drop rfl rfl (by simpa using hv) rfl (hexits s₁ _ hs honward fun _ => ?_)
    exact (beq_eq_false_iff_ne.2 hne) ▸ .throw hflow
  | rethrow =>
    refine ends_drop rfl rfl (by simp) rfl (hexits s _ hs (r.refl s) fun _ => ?_)
    exact (beq_iff_eq.2 hof) ▸ .throw (by rw [hof]; rfl)
  | endFinally => exact ends_drop rfl rfl (by simp) rfl (hexits s _ hs (r.refl s) fun _ => .resume hof)
  | endFilter =>
    refine runs_pop.finish fun s₁ v _ honward hv => .assume fun hs => ?_
    exact ends_drop rfl rfl (by simpa using hv) rfl (hexits s₁ _ hs honward fun _ => .resume hof)
  | _ => simp [passesControl] at h

/-! ## Instructions -/

variable {i : Instruction}

lemma runs_lower (hmem : i ∈ r.m.code.toList) (hi : i.op.endsBlock = false) :
    r.Runs s (lower i) fun _ _ => True := by
  refine (runs_setOffset i.offset).bind fun s₁ _ _ _ _ => .read (reads_action i) fun a ha => ?_
  have hcontrol := (Bytecode.passesControl_eq ha).trans hi
  refine (runs_perform hmem (Bytecode.isOf_of_ofInstruction ha) hcontrol).bind fun s₂ _ _ _ _ => ?_
  by_cases hmodifier : a.isModifier
  · simp only [hmodifier, if_true]
    exact .ret trivial
  · simp only [hmodifier]
    exact runs_modifyNext fun _ => {}

lemma ends_lower (hi : i.op.endsBlock) (hleads : ∀ t ∈ i.branchTargets, r.leader t) (hexits : r.Allows s i) :
    r.Ends s (lower i) := by
  refine (runs_setOffset i.offset).finish fun s₁ _ _ honward _ => .read (reads_action i) fun a ha => ?_
  have hcontrol : passesControl a := (Bytecode.passesControl_eq ha).trans hi
  have hperform : r.Ends s₁ (perform i.op a) :=
    ends_perform hcontrol (fun t ht => hleads t (Bytecode.goesTo_subset ha ht)) (Bytecode.isOf_of_ofInstruction ha)
      fun s' kind hs' honward' => hexits s' kind hs' (r.trans honward honward')
  have hmodifier : a.isModifier = false := by
    cases a <;> simp_all [passesControl, Action.isModifier]
  simp only [hmodifier, Bool.false_eq_true, if_false]
  intro log hs
  obtain ⟨hfails, hdone⟩ := hperform log hs
  refine ⟨hfails.bind fun _ _ _ => failsOnly_modifyState, fun u t h => ?_⟩
  obtain ⟨_, t₁, h₁, h₂⟩ := bind_iff.1 h
  obtain rfl := modifyState_iff.1 h₂
  exact r.reset (f := fun k => { k with modifiers := {} }) (fun _ => ⟨rfl, rfl, rfl⟩) (hdone _ t₁ h₁)

lemma runs_enterStack (slots : List EntrySlot) : ∀ s : State, (∀ v, .value v ∈ slots → r.known s v) →
    (∀ w, .var w ∈ slots → s.body.hasVar w) → r.Runs s (enterStack slots) fun _ _ => True := by
  induction slots with
  | nil => exact fun s _ _ => .ret trivial
  | cons slot slots ih =>
    intro s hslots hvars
    have hrest : ∀ s₁, r.inv s → r.onward s s₁ → r.Runs s₁ (enterStack slots) fun _ _ => True :=
      fun s₁ hs honward => ih s₁ (fun v hv => r.keeps hs honward (hslots v (mem_cons_of_mem _ hv)))
        fun w hw => ((r.grows honward).var w (hvars w (mem_cons_of_mem _ hw))).1
    cases slot with
    | value v => exact (runs_push (hslots v mem_cons_self)).bind fun s₁ _ hs honward _ => hrest s₁ hs honward
    | var w =>
      have hload : r.Runs s (do push (← loadVar w)) fun _ _ => True :=
        (r.load (hvars w mem_cons_self)).bind fun _ _ _ _ hv => runs_push hv
      exact hload.bind fun s₁ _ hs honward _ => hrest s₁ hs honward

end Regime

end MethodIR.Import
