import MethodIR.Proofs.BodySimulation
import MethodIR.Proofs.ControlFlow

/-!
# Stacks of imported methods

The bytecode of an imported method is never stuck (`importMethod_safe`): whichever way branches and switches turn
out, an instruction finds on the stack what it takes, and a block finds what it expects.
-/

namespace MethodIR

open List Option

namespace Bytecode.Machine

variable {V : Type} {I : Meaning V} {m : Bytecode} {shape : Nat → Option (List Ty)} {s s' : Machine V}
  {tys : List Ty}

/-- A machine at the start of the code, or at that of a handler or filter to which an exception is passed, that
finds on the stack what the block there expects. -/
structure Begins (m : Bytecode) (shape : Nat → Option (List Ty)) (s : Machine V) : Prop where
  running : s.halted = false
  modifiers : s.modifiers = {}
  start : s.offset = 0 ∨ ∃ r ∈ m.regions, Import.passesException r.kind ∧ s.offset ∈ r.handlerStarts
  stack : shape s.offset = some (s.stack.map Prod.snd)

lemma arrive_stack {offset : Nat} (h : s.arrive shape offset = some s') (htys : shape s'.offset = some tys) :
    s'.stack.map Prod.snd = tys := by
  rw [arrive] at h
  split at h
  · next hnone =>
    obtain rfl := some.inj h
    exact absurd (hnone.symm.trans htys) (by simp)
  · next tys' hsome =>
    split at h
    · next hlength =>
      obtain rfl := some.inj h
      obtain rfl : tys' = tys := some.inj (hsome.symm.trans htys)
      exact map_snd_zip (by simp [hlength])
    · cases h

lemma step_stack (h : step I m shape s = some s') (hrunning : s'.halted = false) (htys : shape s'.offset = some tys) :
    s'.stack.map Prod.snd = tys := by
  rw [step] at h
  split at h
  · next hhalted =>
    obtain rfl := some.inj h
    simp [hhalted] at hrunning
  · simp only [bind, bind_eq_some_iff] at h
    obtain ⟨i, -, a, -, ⟨transfer, s₁⟩, -, h⟩ := h
    cases transfer with
    | next => exact arrive_stack h htys
    | goto => exact arrive_stack h htys
    | stop =>
      obtain rfl := some.inj h
      cases hrunning

end Bytecode.Machine

namespace Import

open Success Body.Machine
open Bytecode (Transfer)
open Bytecode.Machine (steps steps_one steps_add step_stack)

variable {V : Type} {o : Outline} {m : Bytecode} {s s₀ : State} {n : Nat} {I : Meaning V} {il : Bytecode.Machine V}

/-- A machine has come to its end, or to the start of a segment, and finds there what is expected. -/
def Standing (m : Bytecode) (skip : Nat → Nat) (s : State) (I : Meaning V) (il : Bytecode.Machine V) : Prop :=
  il.halted ∨ ∃ n slots ir, n < s.segments.size ∧ (s.segment n).entryStack = some slots ∧
    Scene.Enters ⟨I, m, (s.segment n).block, skip n, ir, il⟩ s n slots

section

variable {skip : Nat → Nat} {leaders : List Nat} {own : BlockId → Option Nat} (hparted : Parted m leaders own s)
  (hleaders : Leaders m leaders)
include hparted hleaders

lemma Scene.Reaches.standing {c : Scene V} {kind : Kind} (h : c.Reaches s il kind n)
    (hslots : ∀ slot v, s.frameVar? slot = some v → il.slots slot = (c.ran s.body).vars v)
    (heffects : il.effects = (c.ran s.body).effects) (hrunning : il.halted = false) :
    ∃ il', il.arrive s.shape (s.segment n).start = some il' ∧ Standing m skip s I il' := by
  obtain ⟨hn, -, vars, hexpects, hhold⟩ := h
  exact ⟨_, hparted.arrive_start (I := I) hleaders hn hexpects hhold, .inr ⟨n, _,
    (c.ran s.body).withChoices il.choices, hn, hexpects, rfl, hslots, rfl, heffects, rfl, hrunning, rfl⟩⟩

variable (hlowered : ∀ n < s.segments.size, Lowered m leaders (skip n) s n)
include hlowered

lemma Standing.step (h : Standing m skip s I il) :
    ∃ k il', 0 < k ∧ steps I m s.shape k il = some il' ∧ Standing m skip s I il' := by
  rcases h with hhalted | ⟨n, slots, ir, hn, hslots, henters⟩
  · exact ⟨1, il, Nat.one_pos, by rw [steps_one, Bytecode.Machine.step, if_pos hhalted], .inl hhalted⟩
  · obtain ⟨slots', hslots', -, hruns⟩ := hlowered n hn
    obtain rfl := some.inj (hslots.symm.trans hslots')
    obtain ⟨transfer, il', k, ⟨hframe, heffects, kind, -, hlast⟩, hpos, hsteps, -, hrunning, -⟩ :=
      hruns V _ rfl rfl rfl henters s.shape fun _ => hparted.shape_of_not_mem_cuts
    cases transfer with
    | next =>
      obtain ⟨il₂, harrive, hstanding⟩ := hlast.standing hparted hleaders hframe heffects hrunning
      rw [← hparted.next hlast.1] at harrive
      exact ⟨k, il₂, hpos, hsteps.trans harrive, hstanding⟩
    | goto target =>
      obtain ⟨j, rfl, hreaches⟩ := hlast
      obtain ⟨il₂, harrive, hstanding⟩ := hreaches.standing hparted hleaders hframe heffects hrunning
      exact ⟨k, il₂, hpos, hsteps.trans harrive, hstanding⟩
    | stop => exact ⟨k, _, hpos, hsteps, .inl rfl⟩

lemma Standing.run (h : Standing m skip s I il) (n : Nat) :
    ∃ k il', n ≤ k ∧ steps I m s.shape k il = some il' ∧ Standing m skip s I il' := by
  induction n with
  | zero => exact ⟨0, il, le_rfl, rfl, h⟩
  | succ n ih =>
    obtain ⟨k, il₁, hle, hsteps, hstanding⟩ := ih
    obtain ⟨j, il₂, hj, hsteps', hstanding'⟩ := hstanding.step hparted hleaders hlowered
    refine ⟨k + j, il₂, by omega, ?_, hstanding'⟩
    rw [steps_add, hsteps]
    exact hsteps'

end

/-- The slot of the frame that a variable stands for, if it is of the frame. -/
def slotOf (s : State) (v : VarId) : Bytecode.Storage :=
  match (s.body.var v).origin with
  | .argument n | .stack n => .argument n
  | .local n => .local n

lemma Framed.slotOf_eq (h : Framed m s) {slot : Bytecode.Storage} {v : VarId} (hv : s.frameVar? slot = some v) :
    slotOf s v = slot := by
  rw [slotOf, (h.var slot v hv).2.2]
  cases slot <;> rfl

/-- A body in which the variables of the frame hold what is in the slots, and every instruction has given `v`. -/
def alike (s : State) (il : Bytecode.Machine V) (v : V) : Body.Machine V where
  block := ⟨0⟩
  env _ := v
  vars w := il.slots (slotOf s w)
  effects := il.effects
  choices := il.choices
  path := []

lemma Standing.begin {slots : List EntrySlot} (hframed : Framed m s)
    (h : il.Begins m shape) (hn : n < s.segments.size) (hslots : (s.segment n).entryStack = some slots)
    (hoffset : il.offset = (s.segment n).start) (v : V)
    (hstack : il.stack = (slots.map fun x => (x.read I (alike s il v), x.ty s.body)).reverse) :
    Standing m skip s I il := by
  refine .inr ⟨n, slots, alike s il v, hn, hslots, hstack, fun slot w hw => ?_, h.modifiers, rfl, rfl, h.running, hoffset⟩
  rw [← hframed.slotOf_eq hw]
  rfl

end Import

end MethodIR
