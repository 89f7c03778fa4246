import MethodIR.Proofs.Segments

/-!
# Lowering a segment

The instructions of a segment, lowered one after the other, run to the terminator of its block in step with
the bytecode (`lowerCode_spec`), and what is expected on the stack is pushed before them (`enterStack_spec`).
-/

namespace MethodIR

variable {transfer : Transfer}

namespace Bytecode

open Import List Action Option Except

variable {t : Nat}

section

variable {α β : Type} {x : Except Error α} {b : β}

lemma ok_map_iff {f : α → β} : f <$> x = .ok b ↔ ∃ a, x = .ok a ∧ f a = b := by
  cases x <;> simp [Functor.map, Except.map]

lemma ok_bind_iff {f : α → Except Error β} : x >>= f = .ok b ↔ ∃ a, x = .ok a ∧ f a = .ok b := by
  cases x <;> simp [bind, Except.bind]

lemma ok_pure_iff {a : β} : (pure a : Except Error β) = .ok b ↔ a = b := by
  simp [pure, Except.pure]

end

def Action.goesTo : Action → List Nat
  | .jump t | .leave t => [t]
  | .branch t _ | .compareBranch _ t => t.toList
  | .switch ts => ts
  | _ => []

section

variable {i : Instruction} {a : Action}

lemma passesControl_eq (h : ofInstruction i = .ok a) : passesControl a = i.op.endsBlock := by
  rw [ofInstruction] at h
  cases hop : i.op <;>
    simp only [hop, binary?, conversion?, branchCompare?, compare?,
      smallConst?, onType, ok_map_iff, ok_bind_iff, ok_pure_iff, ok.injEq,
      reduceCtorEq] at h <;>
    first
    | (subst h; rfl)
    | (obtain ⟨_, _, rfl⟩ := h; rfl)
    | (split at h <;> first | (obtain rfl := ok.inj h; rfl) | simp [missing] at h)

def Action.IsOf (i : Instruction) : Action → Prop
  | .jump t => i.op.flow = .unconditionalBranch ∧ i.operand = .target t
  | .leave t => i.op.flow = .leave ∧ i.operand = .target t
  | .branch t isNegated => i.op.flow = .conditionalBranch ∧
      (isNegated = decide (i.op = .brfalse ∨ i.op = .brfalseS)) ∧ ∀ o, t = some o → i.operand = .target o
  | .compareBranch _ t => i.op.flow = .conditionalBranch ∧ (i.op ≠ .brfalse ∧ i.op ≠ .brfalseS) ∧
      ∀ o, t = some o → i.operand = .target o
  | .switch ts => i.op.flow = .switch ∧ i.operand = .table ts
  | .ret => i.op.flow = .return
  | .throw => i.op.flow = .throw ∧ i.op ≠ .rethrow
  | .rethrow => i.op = .rethrow
  | .endFinally | .endFilter => i.op.flow = .endFinally
  | .loadField f => i.op = .ldfld ∧ i.operand = .entity (.field f)
  | .fieldAddr f => i.op = .ldflda ∧ i.operand = .entity (.field f)
  | .storeField f => i.op = .stfld ∧ i.operand = .entity (.field f)
  | .loadStatic f => i.op = .ldsfld ∧ i.operand = .entity (.field f)
  | .staticAddr f => i.op = .ldsflda ∧ i.operand = .entity (.field f)
  | .storeStatic f => i.op = .stsfld ∧ i.operand = .entity (.field f)
  | _ => True

lemma target?_eq_some (h : target? i = some t) : i.operand = .target t := by
  rw [target?] at h
  cases hoperand : i.operand <;> simp_all

lemma target_eq_ok (h : target i = .ok t) : i.operand = .target t := by
  rw [target] at h
  cases htarget : target? i with
  | none => simp [htarget, missing] at h
  | some o =>
    obtain rfl : o = t := by simpa [htarget] using h
    exact target?_eq_some htarget

lemma field_eq_ok {f : Field} (h : field i = .ok f) : i.operand = .entity (.field f) := by
  rw [field] at h
  split at h
  · next heq => exact heq.trans (by rw [ok.inj h])
  · simp [missing] at h

lemma isOf_of_ofInstruction (h : ofInstruction i = .ok a) : a.IsOf i := by
  have htarget? : ∀ o, target? i = some o → i.operand = .target o := fun _ => target?_eq_some
  rw [ofInstruction] at h
  cases hop : i.op <;>
    simp only [hop, binary?, conversion?, branchCompare?, compare?,
      smallConst?, onType, ok_map_iff, ok_bind_iff, ok_pure_iff, ok.injEq,
      reduceCtorEq] at h <;>
    first
    | (subst h; trivial)
    | (subst h; simp [Action.IsOf, hop, Opcode.flow]; done)
    | (subst h; exact ⟨by rw [hop]; rfl, by rw [hop]; decide, htarget?⟩)
    | (obtain ⟨_, _, rfl⟩ := h; trivial)
    | (obtain ⟨t, ht, rfl⟩ := h; exact ⟨by rw [hop]; rfl, target_eq_ok ht⟩)
    | (obtain ⟨f, hf, rfl⟩ := h; exact ⟨hop, field_eq_ok hf⟩)
    | (split at h <;> first
        | (obtain rfl := ok.inj h; trivial)
        | (next ts hts => obtain rfl := ok.inj h; exact ⟨by rw [hop]; rfl, hts⟩)
        | simp [missing] at h)

lemma goesTo_subset (h : ofInstruction i = .ok a) : a.goesTo ⊆ i.branchTargets := by
  have hof := isOf_of_ofInstruction h
  rw [Instruction.branchTargets]
  cases a with
  | jump t | leave t | switch ts => simp [goesTo, hof.2]
  | branch t isNegated | compareBranch op t =>
    cases t with
    | none => exact nil_subset _
    | some o => simp [goesTo, hof.2.2 o rfl]
  | _ => exact nil_subset _

end

namespace Machine

variable {V α β : Type} {I : Meaning V} {m : Bytecode} {s s' s₁ : Machine V} {ws : List V}

lemma exec_bind_iff {x : Exec V α} {f : α → Exec V β} {r : β × Machine V} :
    (x >>= f) s = some r ↔ ∃ a t, x s = some (a, t) ∧ f a t = some r := by
  change (x s).bind (fun p => f p.1 p.2) = _ ↔ _
  rw [bind_eq_some_iff]
  exact ⟨fun ⟨⟨a, t⟩, h⟩ => ⟨a, t, h⟩, fun ⟨a, t, h⟩ => ⟨⟨a, t⟩, h⟩⟩

lemma exec_pure_iff {a : α} {r : α × Machine V} : (pure a : Exec V α) s = some r ↔ (a, s) = r := by
  change some (a, s) = _ ↔ _
  rw [some_inj]

lemma branchOn_goto {w : V} {target : Option Nat} {isNegated : Bool}
    (h : branchOn I w target isNegated s = some (.goto t, s')) : t ∈ target.toList := by
  cases target with
  | none => simp [branchOn, exec_bind_iff, StateT.lift] at h
  | some target =>
    simp only [branchOn, exec_bind_iff, exec_pure_iff] at h
    obtain ⟨target', _, hlift, _, _, -, k, _, -, htransfer⟩ := h
    obtain ⟨rfl, -⟩ := Prod.mk.inj (some.inj hlift)
    have := (Prod.mk.inj htransfer).1
    split at this
    · obtain rfl := Transfer.goto.inj this
      simp
    · simp at this

lemma finish_ne_goto {l : Label} : finish I l ws s ≠ some (.goto t, s') := by
  intro h
  simp only [finish, exec_bind_iff, exec_pure_iff] at h
  obtain ⟨_, _, -, h⟩ := h
  simp at h

lemma finishEmpty_ne_goto : (do
      unless (← get).stack.isEmpty do failure
      finish I .ret ws : Exec V Transfer) s ≠ some (.goto t, s') := by
  intro h
  obtain ⟨_, _, -, h⟩ := exec_bind_iff.1 h
  split at h
  · exact finish_ne_goto h
  · obtain ⟨_, _, hfail, -⟩ := exec_bind_iff.1 h
    exact some_ne_none _ hfail.symm

lemma perform_goto (ha : passesControl a) (h : perform I m a s = some (.goto t, s')) : t ∈ a.goesTo := by
  cases a with
  | jump target =>
    obtain ⟨hgoto, -⟩ := Prod.mk.inj (exec_pure_iff.1 h)
    obtain rfl := Transfer.goto.inj hgoto
    exact mem_singleton.2 rfl
  | leave target =>
    obtain ⟨_, _, -, h⟩ := exec_bind_iff.1 h
    obtain ⟨hgoto, -⟩ := Prod.mk.inj (exec_pure_iff.1 h)
    obtain rfl := Transfer.goto.inj hgoto
    exact mem_singleton.2 rfl
  | branch target isNegated =>
    obtain ⟨_, _, -, h⟩ := exec_bind_iff.1 h
    exact branchOn_goto h
  | compareBranch o target =>
    obtain ⟨_, _, -, h⟩ := exec_bind_iff.1 h
    obtain ⟨_, _, -, h⟩ := exec_bind_iff.1 h
    obtain ⟨_, _, -, h⟩ := exec_bind_iff.1 h
    exact branchOn_goto h
  | switch ts =>
    obtain ⟨_, _, -, h⟩ := exec_bind_iff.1 h
    obtain ⟨_, _, -, h⟩ := exec_bind_iff.1 h
    obtain ⟨k, _, -, h⟩ := exec_bind_iff.1 h
    cases hk : ts[k]? with
    | none => simp [hk, exec_pure_iff] at h
    | some target =>
      rw [hk] at h
      obtain ⟨hgoto, -⟩ := Prod.mk.inj (exec_pure_iff.1 h)
      obtain rfl := Transfer.goto.inj hgoto
      exact mem_of_getElem? hk
  | ret =>
    simp only [perform] at h
    split at h
    · obtain ⟨_, _, -, h⟩ := exec_bind_iff.1 h
      exact absurd h finishEmpty_ne_goto
    · obtain ⟨_, _, -, h⟩ := exec_bind_iff.1 h
      obtain ⟨_, _, -, h⟩ := exec_bind_iff.1 h
      exact absurd h finishEmpty_ne_goto
  | throw =>
    obtain ⟨_, _, -, h⟩ := exec_bind_iff.1 h
    exact absurd h finish_ne_goto
  | rethrow => exact absurd h finish_ne_goto
  | endFinally => exact absurd h finish_ne_goto
  | endFilter =>
    obtain ⟨_, _, -, h⟩ := exec_bind_iff.1 h
    exact absurd h finish_ne_goto
  | _ => simp [passesControl] at ha

/-! ## Steps -/

def goOn (shape : Nat → Option (List Ty)) (stop : Nat) (s : Machine V) : Transfer → Option (Machine V)
  | .next => s.arrive shape stop
  | .goto t => s.arrive shape t
  | .stop => some { s with halted := true }

lemma step_eq (shape : Nat → Option (List Ty)) (hrunning : s.halted = false)
    (hi : m.code.toList.find? (·.offset = s.offset) = some i) (ha : ofInstruction i = .ok a)
    (hperform : perform I m a s = some (transfer, s₁)) : step I m shape s =
      (if a.isModifier then s₁ else { s₁ with modifiers := {} }).goOn shape i.endOffset transfer := by
  simp only [step, hrunning, hi, ha, hperform, Except.toOption, bind, Option.bind]
  cases transfer <;> rfl

def steps (I : Meaning V) (m : Bytecode) (shape : Nat → Option (List Ty)) : Nat → Machine V → Option (Machine V)
  | 0, s => some s
  | n + 1, s => (step I m shape s).bind (steps I m shape n)

lemma steps_one {shape : Nat → Option (List Ty)} : steps I m shape 1 s = step I m shape s := bind_fun_some ..

lemma steps_add (shape : Nat → Option (List Ty)) (n k : Nat) (s : Machine V) :
    steps I m shape (n + k) s = (steps I m shape n s).bind (steps I m shape k) := by
  induction n generalizing s with
  | zero =>
    rw [Nat.zero_add]
    rfl
  | succ n ih =>
    rw [Nat.add_right_comm, steps, steps, bind_assoc]
    exact congrArg _ (funext ih)

lemma run_eq_steps (shape : Nat → Option (List Ty)) (choices : Nat → Nat) (n : Nat) :
    run I m shape choices n = steps I m shape n (start I choices) := by
  induction n with
  | zero => rfl
  | succ n ih =>
    rw [run, ih, steps_add]
    exact congrArg _ (funext fun _ => steps_one.symm)

end Machine

end Bytecode

namespace Import

open Success Body.Machine Traced
open Bytecode (Action Transfer Instruction)

variable {V : Type} {c : Scene V} {s s' : State} {il il₁ il₂ il' : Bytecode.Machine V} {i j : Instruction}
  {log : Array Event} {u : Unit} {t : Trace State} {m : Bytecode} {leaders : List Nat}

lemma Scene.At.reset (h : ({ c with il := il₁ } : Scene V).At s il)
    (hstill : il.offset = il₂.offset ∧ il.path = il₂.path ∧ il.halted = il₂.halted) :
    ({ c with il := il₂ } : Scene V).At s il :=
  ⟨h.framed, h.block, h.hasBlock, h.skip, h.closed, h.values, h.stack, h.slots, h.modifiers, h.effects,
    h.choices, hstill, h.stackVars⟩

lemma Scene.Later.reset (h : ({ c with il := il₁ } : Scene V).Later s s') : c.Later s s' :=
  ⟨h.toExtends, h.env, h.index, h.others, h.own⟩

lemma Scene.Ends.here (h : ({ c with il := il₁ } : Scene V).Ends s il transfer) :
    ({ c with il } : Scene V).Ends s il transfer :=
  ⟨h.stand.reset ⟨rfl, rfl, rfl⟩, h.last⟩

lemma Scene.At.moveTo (h : c.At s il) (offset : Nat) :
    ({ c with il := { il with offset } } : Scene V).At s { il with offset } :=
  ⟨h.framed, h.block, h.hasBlock, h.skip, h.closed, h.values, h.stack, h.slots, h.modifiers, h.effects,
    h.choices, ⟨rfl, rfl, rfl⟩, h.stackVars⟩

lemma sim_setOffset (offset : Nat) :
    Sim c s (modifyState (·.modifyCursor fun k => { k with offset }) : M Unit) (pure ()) fun _ _ _ => True := by
  intro log a t ht il hil
  obtain rfl := modifyState_iff.1 ht
  exact ⟨Scene.later_cursor rfl, (), il, rfl,
    hil.withCursor (k := { s.cursor with offset }) rfl hil.values hil.stack hil.modifiers, trivial⟩

lemma sim_resetModifiers (a : Action) : Sim c s (unless a.isModifier do modifyNext fun _ => {} : M Unit)
    (modify fun x => if a.isModifier then x else { x with modifiers := {} })
    fun _ _ _ => True := by
  by_cases ha : a.isModifier
  · simp only [ha, if_true]
    exact .ret trivial
  · simp only [ha]
    exact sim_modifyNext fun _ => {}

lemma lower_eq_ok (h : lower i ⟨s, log⟩ = .ok u t) (hat : c.At s il) : ∃ a t₁ t₃ v, Action.ofInstruction i = .ok a ∧
    c.Later s t₁.state ∧ c.At t₁.state il ∧ perform i.op a t₁ = .ok v t₃ ∧
    (unless a.isModifier do modifyNext fun _ => {} : M Unit) t₃ = .ok u t := by
  obtain ⟨_, t₁, hoffset, h⟩ := bind_iff.1 h
  obtain ⟨a, t₂, haction, h⟩ := bind_iff.1 h
  obtain ⟨ha, rfl⟩ := ofExcept_iff.1 haction
  obtain ⟨_, t₃, hperform, hreset⟩ := bind_iff.1 h
  obtain ⟨hlater₁, _, _, hpure, hat₁, -⟩ := sim_setOffset i.offset log _ t₁ hoffset il hat
  obtain ⟨-, rfl⟩ := Prod.mk.inj (Option.some.inj hpure)
  exact ⟨a, t₁, t₃, _, ha, hlater₁, hat₁, hperform, hreset⟩

lemma lower_plain (h : lower i ⟨s, log⟩ = .ok u t) (hi : i.op.endsBlock = false) (hat : c.At s il) :
    c.Later s t.state ∧ ∃ a il₁, Action.ofInstruction i = .ok a ∧
      Bytecode.Machine.perform c.I c.m a il = some (.next, il₁) ∧
      c.At t.state (if a.isModifier then il₁ else { il₁ with modifiers := {} }) := by
  obtain ⟨a, t₁, t₃, _, ha, hlater₁, hat₁, hperform, hreset⟩ := lower_eq_ok h hat
  have hplain : passesControl a = false := (Bytecode.passesControl_eq ha).trans hi
  obtain ⟨hlater₂, transfer, il₁, hrun, hat₂, rfl⟩ := sim_perform i.op a hplain t₁.log _ t₃ hperform il hat₁
  obtain ⟨hlater₃, _, _, hmodify, hat₃, -⟩ := sim_resetModifiers a t₃.log _ t hreset il₁ hat₂
  obtain ⟨-, rfl⟩ := Prod.mk.inj (Option.some.inj hmodify)
  exact ⟨(hlater₁.trans hlater₂).trans hlater₃, a, il₁, ha, hrun, hat₃⟩

lemma Scene.Ends.resetModifiers (h : c.Ends s il transfer) :
    c.Ends (s.modifyCursor fun k => { k with modifiers := {} }) { il with modifiers := {} }
      transfer := by
  refine ⟨?_, h.last⟩
  exact h.stand.withCursor (k := { s.cursor with modifiers := {} }) rfl h.stand.values h.stand.stack rfl

lemma lower_ends (h : lower i ⟨s, log⟩ = .ok u t) (hi : i.op.endsBlock) (hat : c.At s il) :
    c.Later s t.state ∧ ∃ a transfer il₁, Action.ofInstruction i = .ok a ∧ a.isModifier = false ∧
      Bytecode.Machine.perform c.I c.m a il = some (transfer, il₁) ∧
      c.Ends t.state { il₁ with modifiers := {} } transfer := by
  obtain ⟨a, t₁, t₃, _, ha, hlater₁, hat₁, hperform, hreset⟩ := lower_eq_ok h hat
  have hcontrol : passesControl a := (Bytecode.passesControl_eq ha).trans hi
  have hmodifier : a.isModifier = false := by
    cases a <;> simp_all [passesControl, Action.isModifier]
  obtain ⟨hlater₂, transfer, il₁, hrun, hends⟩ := perform_ends i.op a hcontrol t₁.log _ t₃ hperform il hat₁
  simp only [hmodifier, Bool.false_eq_true, if_false] at hreset
  obtain rfl := modifyState_iff.1 hreset
  exact ⟨(hlater₁.trans hlater₂).trans (Scene.later_cursor rfl), a, transfer, il₁, ha, hmodifier, hrun,
    hends.resetModifiers⟩

/-! ## The code of a segment -/

def lowerCode (code : List Instruction) (stop : Nat) : M Unit := do
  code.forM lower
  unless code.getLast?.any (·.op.endsBlock) do
    modifyState (·.modifyCursor fun k => { k with offset := stop })
    passTo .jump (← fallThrough)

lemma lowerCode_cons (i j : Instruction) (rest : List Instruction) (stop : Nat) :
    lowerCode (i :: j :: rest) stop = (do lower i; lowerCode (j :: rest) stop) := by
  have hlast : (i :: j :: rest).getLast? = (j :: rest).getLast? := by simp
  unfold lowerCode
  rw [hlast]
  change ((lower i >>= fun _ => (j :: rest).forM lower) >>= _) = _
  rw [bind_assoc]

lemma lowerCode_singleton (i : Instruction) (stop : Nat) : lowerCode [i] stop = (do
    lower i
    unless i.op.endsBlock do
      modifyState (·.modifyCursor fun k => { k with offset := stop })
      passTo .jump (← fallThrough)) := by
  unfold lowerCode
  change ((lower i >>= fun _ => pure ()) >>= _) = _
  rw [bind_assoc]
  rfl

lemma IsSegment.tail {first : Nat} {rest : List Instruction} (h : IsSegment m leaders first (i :: j :: rest)) :
    IsSegment m leaders (first + 1) (j :: rest) := by
  refine ⟨by simp, fun k hk => ?_, fun k x hk hx => ?_, fun k hk hk' => ?_⟩
  · have := h.instruction (k + 1) (by simpa using hk)
    rwa [List.getElem?_cons_succ, show first + (k + 1) = first + 1 + k by omega] at this
  · exact h.plain (k + 1) x (by simpa using hk) (by simpa using hx)
  · rw [show first + 1 + k = first + (k + 1) by omega]
    exact h.between (k + 1) (by omega) (by simpa using hk')

lemma Leaders.goto_mem (h : Leaders m leaders) {target : Nat} (hi : i ∈ m.code.toList)
    (hends : i.op.endsBlock) (ha : Action.ofInstruction i = .ok a)
    (hperform : Bytecode.Machine.perform I m a il = some (.goto target, il')) : target ∈ leaders := by
  have hcontrol : passesControl a := (Bytecode.passesControl_eq ha).trans hends
  have htarget := Bytecode.goesTo_subset ha (Bytecode.Machine.perform_goto hcontrol hperform)
  exact (h.code i hi hends).2 target htarget

lemma lowerCode_spec (shape : Nat → Option (List Ty)) (hleaders : Leaders c.m leaders) (hm : c.m.Contiguous)
    (hshape : ∀ o, o ∉ cuts c.m leaders → shape o = none) (code : List Instruction) :
    ∀ (first : Nat) (s : State) (log : Array Event) (u : Unit) (t : Trace State)
      (il : Bytecode.Machine V), IsSegment c.m leaders first code →
    lowerCode code (c.m.boundary (first + code.length)) ⟨s, log⟩ = .ok u t →
    ({ c with il } : Scene V).At s il → il.halted = false → il.offset = c.m.boundary first →
    c.Later s t.state ∧ ∃ transfer il', ({ c with il := il' } : Scene V).Ends t.state il' transfer ∧
      Bytecode.Machine.steps c.I c.m shape code.length il =
        il'.goOn shape (c.m.boundary (first + code.length)) transfer ∧
      il'.path = il.path ∧ il'.halted = false ∧
      ∀ target, transfer = .goto target → target ∈ leaders := by
  induction code with
  | nil => exact fun _ _ _ _ _ _ hsegment => absurd rfl hsegment.ne_nil
  | cons i code ih =>
    intro first s log u t il hsegment h hat hrunning hoffset
    have hi : c.m.code[first]? = some i := hsegment.instruction 0 (by simp)
    have hfind : c.m.code.toList.find? (·.offset = il.offset) = some i := by
      rw [hoffset, Bytecode.boundary_eq hi]
      exact Bytecode.find?_offset hm hi
    have hmem : i ∈ c.m.code.toList := List.mem_of_getElem? (by simpa using hi)
    cases code with
    | nil =>
      have hstop : c.m.boundary (first + [i].length) = i.endOffset := Bytecode.boundary_succ hm hi
      rw [lowerCode_singleton, hstop] at h
      rw [hstop]
      obtain ⟨_, t₁, hlower, h⟩ := bind_iff.1 h
      by_cases hends : i.op.endsBlock
      · simp only [hends, if_true, pure_iff] at h
        obtain ⟨-, rfl⟩ := h
        obtain ⟨hlater, a, transfer, il₁, ha, hmodifier, hperform, hend⟩ := lower_ends hlower hends hat
        have hstep := Bytecode.Machine.step_eq shape hrunning hfind ha hperform
        rw [hmodifier] at hstep
        obtain ⟨-, hpath, hhalted⟩ := hend.stand.still
        refine ⟨hlater.reset, transfer, { il₁ with modifiers := {} }, hend.here, ?_, hpath,
          hhalted.trans hrunning, ?_⟩
        · exact Bytecode.Machine.steps_one.trans hstep
        · rintro target rfl
          exact hleaders.goto_mem hmem hends ha hperform
      · rw [Bool.not_eq_true] at hends
        simp only [hends, Bool.false_eq_true, if_false] at h
        obtain ⟨_, t₂, hset, h⟩ := bind_iff.1 h
        obtain ⟨hlater₁, a, il₁, ha, hperform, hat₁⟩ := lower_plain hlower hends hat
        have hstep := Bytecode.Machine.step_eq shape hrunning hfind ha hperform
        generalize hil₂ : (if a.isModifier then il₁ else { il₁ with modifiers := {} }) = il₂ at hat₁ hstep
        obtain ⟨hlater₂, _, _, hpure, hat₂, -⟩ := sim_setOffset i.endOffset _ _ t₂ hset il₂ hat₁
        obtain ⟨-, rfl⟩ := Prod.mk.inj (Option.some.inj hpure)
        obtain ⟨hlater₃, transfer, il₃, hnext, hend⟩ := simEnd_fallThrough _ _ t h _ hat₂
        obtain ⟨rfl, rfl⟩ := Prod.mk.inj (Option.some.inj hnext)
        obtain ⟨-, hpath, hhalted⟩ := hat₂.still
        refine ⟨((hlater₁.trans hlater₂).trans hlater₃).reset, .next, _, hend.here, ?_, hpath,
          hhalted.trans hrunning, by simp⟩
        exact Bytecode.Machine.steps_one.trans hstep
    | cons j rest =>
      have hsucc : first + (i :: j :: rest).length = first + 1 + (j :: rest).length := by
        simp only [List.length_cons]
        omega
      rw [lowerCode_cons, hsucc] at h
      rw [hsucc]
      obtain ⟨_, t₁, hlower, h⟩ := bind_iff.1 h
      have hends : i.op.endsBlock = false := hsegment.plain 0 i (by simp) rfl
      obtain ⟨hlater₁, a, il₁, ha, hperform, hat₁⟩ := lower_plain hlower hends hat
      have hstep := Bytecode.Machine.step_eq shape hrunning hfind ha hperform
      generalize hil₂ : (if a.isModifier then il₁ else { il₁ with modifiers := {} }) = il₂ at hat₁ hstep
      obtain ⟨-, hpath, hhalted⟩ := hat₁.still
      -- no block starts between two instructions of a segment
      have hinside : shape i.endOffset = none := by
        rw [← Bytecode.boundary_succ hm hi]
        exact hshape _ (hsegment.between 1 (by omega) (by simp))
      rw [Bytecode.Machine.goOn, Bytecode.Machine.arrive, hinside] at hstep
      obtain ⟨hlater₂, transfer, il', hend, hsteps, hpath', hhalted', htarget⟩ := ih (first + 1) t₁.state
        t₁.log u t { il₂ with offset := i.endOffset } hsegment.tail h (hat₁.moveTo _)
        (hhalted.trans hrunning) (Bytecode.boundary_succ hm hi).symm
      refine ⟨hlater₁.reset.trans hlater₂, transfer, il', hend, ?_, hpath'.trans hpath, hhalted', htarget⟩
      rw [List.length_cons, Bytecode.Machine.steps, hstep]
      exact hsteps

/-! ## A segment -/

/-- What is found on the stack. -/
def EntrySlot.read (I : Meaning V) (ir : Body.Machine V) : EntrySlot → V
  | .value v => eval I ir.env v
  | .var v => ir.vars v

lemma enterStack_spec (slots : List EntrySlot) : ∀ (s : State) (log : Array Event) (u : Unit)
    (t : Trace State) (il : Bytecode.Machine V), enterStack slots ⟨s, log⟩ = .ok u t → c.At s il →
    (∀ x ∈ slots, x.Known s.body) → c.Later s t.state ∧ c.At t.state { il with
      stack := (slots.map fun x => (x.read c.I (c.ran s.body), x.ty s.body)).reverse ++ il.stack } := by
  induction slots with
  | nil =>
    intro s log u t il h hat _
    obtain ⟨-, rfl⟩ := pure_iff.1 h
    exact ⟨.refl s, hat⟩
  | cons x slots ih =>
    intro s log u t il h hat hknown
    obtain ⟨_, t₁, hone, hrest⟩ := bind_iff.1 h
    have hx := hknown x (by simp)
    obtain ⟨hlater, hat₁, hvars⟩ : c.Later s t₁.state ∧ c.At t₁.state { il with
        stack := (x.read c.I (c.ran s.body), x.ty s.body) :: il.stack } ∧
        (c.ran t₁.state.body).vars = (c.ran s.body).vars := by
      cases x with
      | value v =>
        obtain ⟨hlater, _, _, hrun, hat₁, -⟩ := sim_push ⟨hx, rfl⟩ log _ t₁ hone il hat
        obtain ⟨-, rfl⟩ := Prod.mk.inj (Option.some.inj hrun)
        obtain rfl := modifyState_iff.1 hone
        exact ⟨hlater, hat₁, rfl⟩
      | var v =>
        obtain ⟨value, t₂, hload, hpush⟩ := bind_iff.1 hone
        obtain ⟨usage, rfl, -, ht₂⟩ := loadVar_eq_ok hload
        obtain ⟨hat₂, hstands, hsame⟩ := hat.append_loadVar v (s.body.var v).ty
        have hlater₂ : c.Later s (s.append (.loadVar v) [] (s.body.var v).ty) := hat.later_append
        have hat₂' := hat₂.withUsage usage
        have hlater₂' := hlater₂.withUsage usage
        rw [← ht₂] at hat₂' hlater₂'
        have hstands' : c.Stands t₂.state (.inst s.nextInst) ((c.ran s.body).vars v, (s.body.var v).ty) := by
          rw [ht₂]
          exact hstands
        obtain ⟨hlater₁, _, _, hrun, hat₁, -⟩ := sim_push hstands' t₂.log _ t₁ hpush il hat₂'
        obtain ⟨-, rfl⟩ := Prod.mk.inj (Option.some.inj hrun)
        obtain rfl := modifyState_iff.1 hpush
        refine ⟨hlater₂'.trans hlater₁, hat₁, ?_⟩
        change (c.ran t₂.state.body).vars = _
        rw [ht₂]
        exact hsame
    obtain ⟨hlater', hat'⟩ := ih _ t₁.log u t _ hrest hat₁ fun y hy => ((hknown y (by simp [hy])).mono hlater.grows).1
    refine ⟨hlater.trans hlater', ?_⟩
    have hvals : (slots.map fun y => (y.read c.I (c.ran t₁.state.body), y.ty t₁.state.body)) =
        slots.map fun y => (y.read c.I (c.ran s.body), y.ty s.body) := by
      refine List.map_congr_left fun y hy => ?_
      have hy' := hknown y (by simp [hy])
      rw [(hy'.mono hlater.grows).2]
      refine congrArg (·, _) ?_
      cases y with
      | value v => exact congrArg Prod.fst (hlater.value hy')
      | var v => exact congrFun hvars v
    rw [List.map_cons, List.reverse_cons, List.append_assoc, ← hvals]
    exact hat'

namespace State

/-- The state in which a segment is begun. -/
def enter (s : State) (n : Nat) : State :=
  { s.modifySegment n fun x => { x with entryStack := some ((s.segment n).entryStack.getD []) } with
    cursor := { index := n, block := (s.segment n).block, inRegion := (s.segment n).inRegion,
                offset := (s.segment n).start } }

variable {n k : Nat}

lemma segment_enter (s : State) (n k : Nat) : (s.enter n).segment k = if n = k ∧ k < s.segments.size
    then { s.segment k with entryStack := some ((s.segment n).entryStack.getD []) } else s.segment k :=
  segment_modifySegment ..

lemma entryStack_enter {slots : List EntrySlot} (h : ((s.enter n).segment k).entryStack = some slots) :
    (s.segment k).entryStack = some slots ∨ slots = [] := by
  rw [segment_enter] at h
  split at h
  · next hkn =>
    obtain ⟨rfl, -⟩ := hkn
    obtain rfl := Option.some.inj h
    cases (s.segment n).entryStack with
    | none => exact .inr rfl
    | some slots => exact .inl rfl
  · exact .inl h

lemma entryStack_enter_self (hn : n < s.segments.size) :
    ((s.enter n).segment n).entryStack = some ((s.segment n).entryStack.getD []) := by
  rw [segment_enter, if_pos ⟨rfl, hn⟩]

lemma extends_enter (s : State) (n : Nat) : Extends s (s.enter n) := by
  refine ⟨.refl _, ⟨⟨by simp [enter, modifySegment], fun k => ?_⟩, fun k slots hk => ?_⟩, rfl, rfl⟩
  · rw [segment_enter]
    split <;> exact ⟨rfl, rfl, rfl, rfl⟩
  · rw [segment_enter]
    split
    · next hkn =>
      obtain ⟨rfl, -⟩ := hkn
      rw [hk]
      rfl
    · exact hk

end State

lemma lowerSegment_eq (m : Bytecode) (n : Nat) : lowerSegment m n = (do
    let x := (← getState).segment n
    let slots := x.entryStack.getD []
    modifyState fun s =>
      { s.modifySegment n fun x => { x with entryStack := some slots } with
        cursor := { index := n, block := x.block, inRegion := x.inRegion, offset := x.start } }
    enterStack slots
    let code ← MonadExcept.ofExcept (codeBetween m x.start x.stop)
    lowerCode code x.stop
    report (.lowered x.block x.start x.stop)) := by
  unfold lowerSegment
  refine bind_congr fun s => bind_congr fun _ => bind_congr fun _ => bind_congr fun code => ?_
  rw [lowerCode, bind_assoc]
  refine bind_congr fun _ => ?_
  by_cases hends : code.getLast?.any (·.op.endsBlock)
  · simp only [hends, if_true, pure_bind]
  · simp only [hends, if_false, bind_assoc, Bool.false_eq_true]

end Import

end MethodIR
