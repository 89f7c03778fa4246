import MethodIR.Proofs.SegmentLinks

/-!
# Failures

Why a computation can fail (`FailsOnly`), and which errors the code of a method is to blame for
(`Bytecode.Blames`).
-/

namespace MethodIR

open List Edit

def FailsOnly {ε σ α : Type} (P : ε → Prop) (x : EStateM ε σ α) (s : σ) : Prop := ∀ e t, x s = .error e t → P e

namespace FailsOnly

variable {ε σ α β γ : Type} {P : ε → Prop} {x : EStateM ε σ α} {f : α → EStateM ε σ β} {s t : σ} {a : α}
  {I : σ → Prop}

lemma of_ok (h : x s = .ok a t) : FailsOnly P x s := fun e t he => by
  rw [h] at he
  cases he

lemma bind (hx : FailsOnly P x s) (hf : ∀ a t, x s = .ok a t → FailsOnly P (f a) t) :
    FailsOnly P (x >>= f) s := by
  intro e t he
  change EStateM.bind x f s = _ at he
  rw [EStateM.bind] at he
  cases h : x s with
  | ok a t₁ =>
    rw [h] at he
    exact hf a t₁ h e t he
  | error e' t₁ =>
    rw [h] at he
    obtain ⟨rfl, rfl⟩ := EStateM.Result.error.inj he
    exact hx _ _ h

lemma pure : FailsOnly P (pure a : EStateM ε σ α) s := of_ok (Success.pure_iff.2 ⟨rfl, rfl⟩)

lemma map {g : α → β} (hx : FailsOnly P x s) : FailsOnly P (g <$> x) s := by
  rw [← bind_pure_comp]
  exact hx.bind fun _ _ _ => pure

lemma discard (hx : FailsOnly P x s) : FailsOnly P (discard x) s := hx.map

lemma throw {e : ε} (h : P e) : FailsOnly P (throw e : EStateM ε σ α) s := by
  intro e' t he
  obtain ⟨rfl, -⟩ := EStateM.Result.error.inj he
  exact h

lemma ofExcept {P : Error → Prop} {r : Except Error α} (h : ∀ e, r = .error e → P e) :
    FailsOnly P (MonadExcept.ofExcept r : EStateM Error σ α) s := by
  cases r with
  | ok a => exact pure
  | error e => exact throw (h e rfl)

lemma forM {g : γ → EStateM ε σ Unit} (xs : List γ) (hs : I s)
    (hstep : ∀ c ∈ xs, ∀ s, I s → FailsOnly P (g c) s ∧ ∀ u t, g c s = .ok u t → I t) :
    FailsOnly P (xs.forM g) s := by
  induction xs generalizing s with
  | nil => exact pure
  | cons c xs ih =>
    change FailsOnly P (g c >>= fun _ => xs.forM g) s
    obtain ⟨hc, hkeep⟩ := hstep c mem_cons_self s hs
    exact hc.bind fun u t ht => ih (hkeep u t ht) fun d hd => hstep d (mem_cons_of_mem _ hd)

lemma mapM {g : γ → EStateM ε σ α} (xs : List γ) (hs : I s)
    (hstep : ∀ c ∈ xs, ∀ s, I s → FailsOnly P (g c) s ∧ ∀ a t, g c s = .ok a t → I t) :
    FailsOnly P (xs.mapM g) s := by
  induction xs generalizing s with
  | nil =>
    rw [mapM_nil]
    exact pure
  | cons c xs ih =>
    rw [mapM_cons]
    obtain ⟨hc, hkeep⟩ := hstep c mem_cons_self s hs
    refine hc.bind fun a t ht => ?_
    exact (ih (hkeep a t ht) fun d hd => hstep d (mem_cons_of_mem _ hd)).bind fun _ _ _ => pure

end FailsOnly

/-- Whether code is reported as malformed or as not supported. -/
def Error.isReport : Error → Bool
  | .invalidProgram .. | .notSupported _ => true
  | _ => false

def Reported {α : Type} (x : Except Error α) : Prop := ∀ e, x = .error e → e.isReport

namespace Reported

variable {α β γ : Type} {x : Except Error α}

lemma ok (a : α) : Reported (.ok a) := fun _ h => by cases h

lemma error {e : Error} (h : e.isReport) : Reported (.error e : Except Error α) := fun _ he => by
  cases he
  exact h

lemma bind {f : α → Except Error β} (hx : Reported x) (hf : ∀ a, x = .ok a → Reported (f a)) :
    Reported (x >>= f) := by
  cases x with
  | ok a => exact hf a rfl
  | error e => exact .error (hx e rfl)

lemma map {f : α → β} (hx : Reported x) : Reported (f <$> x) := by
  cases x with
  | ok a => exact .ok _
  | error e => exact .error (hx e rfl)

lemma foldlM {f : β → γ → Except Error β} (xs : List γ) (hf : ∀ b, ∀ x ∈ xs, Reported (f b x)) (b : β) :
    Reported (xs.foldlM f b) := by
  induction xs generalizing b with
  | nil => exact .ok b
  | cons x xs ih =>
    rw [foldlM_cons]
    exact (hf b x mem_cons_self).bind fun b' _ => ih (fun b y hy => hf b y (mem_cons_of_mem _ hy)) b'

lemma forM {f : γ → Except Error Unit} (xs : List γ) (hf : ∀ x ∈ xs, Reported (f x)) : Reported (xs.forM f) := by
  induction xs with
  | nil => exact .ok ()
  | cons x xs ih =>
    exact (hf x mem_cons_self).bind fun _ _ => ih fun y hy => hf y (mem_cons_of_mem _ hy)

end Reported

namespace Bytecode

variable {m : Bytecode} {i : Instruction} {f : Field}

section Operands

variable {α : Type}

lemma reported_missing (need : OperandNeed) : Reported (Action.missing i need : Except Error α) := .error rfl

lemma reported_slot : Reported (Action.slot i) := by
  rw [Action.slot]
  split
  · exact .ok _
  · exact reported_missing _

lemma reported_target : Reported (Action.target i) := by
  rw [Action.target]
  split
  · exact .ok _
  · exact reported_missing _

lemma reported_type : Reported (Action.type i) := by
  rw [Action.type]
  split
  · exact .ok _
  · exact reported_missing _

lemma reported_method : Reported (Action.method i) := by
  rw [Action.method]
  split
  · exact .ok _
  · exact reported_missing _

lemma reported_field : Reported (Action.field i) := by
  rw [Action.field]
  split
  · exact .ok _
  · exact reported_missing _

end Operands

lemma reported_ofInstruction (i : Instruction) : Reported (Action.ofInstruction i) := by
  rw [Action.ofInstruction]
  cases hop : i.op <;>
    simp only [Action.binary?, Action.conversion?, Action.branchCompare?, Action.compare?, Action.smallConst?] <;>
    first
    | exact .ok _
    | exact .error rfl
    | exact reported_slot.map.map
    | exact reported_target.map
    | exact reported_type.map
    | exact reported_method.map
    | exact reported_field.map
    | exact reported_type.bind fun _ _ => .ok _
    | exact reported_method.bind fun _ _ => .ok _
    | (split <;> first | exact .ok _ | exact reported_missing _)

lemma reported_indexAt (offset : Nat) : Reported (m.indexAt offset) := by
  rw [indexAt]
  split
  · exact .ok _
  · split
    · exact .ok _
    · exact .error rfl

/-- An instruction for fields of objects names a static field, or one for static fields a field of objects. -/
def Instruction.Misaccesses (i : Instruction) (f : Field) : Prop := i.operand = .entity (.field f) ∧
    i.op ∈ if f.isStatic then [Opcode.ldfld, .ldflda, .stfld] else [Opcode.ldsfld, .ldsflda, .stsfld]

/-- The errors for which the code of a method is to blame. -/
def Blames (m : Bytecode) (e : Error) : Prop := e.isReport ∨ ∃ i ∈ m.code.toList, ∃ f, i.Misaccesses f ∧
    e = .violation (.arity (.fieldAddr f) (!f.isStatic).toNat f.isStatic.toNat)

section Fields

variable (hi : i ∈ m.code.toList) (hoperand : i.operand = .entity (.field f)) {w : Violation}

include hi hoperand

lemma blames_object (hop : i.op ∈ [Opcode.ldfld, .ldflda, .stfld])
    (h : arityViolation? (.fieldAddr f) 1 = some w) : m.Blames (.violation w) := by
  cases hstatic : f.isStatic with
  | false => simp [arityViolation?, Kind.arity?, hstatic] at h
  | true =>
    obtain rfl : Violation.arity (.fieldAddr f) 0 1 = w := by
      simpa [arityViolation?, Kind.arity?, hstatic] using h
    exact .inr ⟨i, hi, f, ⟨hoperand, by rw [hstatic]; exact hop⟩, by rw [hstatic]; rfl⟩

lemma blames_static (hop : i.op ∈ [Opcode.ldsfld, .ldsflda, .stsfld])
    (h : arityViolation? (.fieldAddr f) 0 = some w) : m.Blames (.violation w) := by
  cases hstatic : f.isStatic with
  | true => simp [arityViolation?, Kind.arity?, hstatic] at h
  | false =>
    obtain rfl : Violation.arity (.fieldAddr f) 1 0 = w := by
      simpa [arityViolation?, Kind.arity?, hstatic] using h
    exact .inr ⟨i, hi, f, ⟨hoperand, by rw [hstatic]; exact hop⟩, by rw [hstatic]; rfl⟩

end Fields

end Bytecode

namespace Edit

variable {P : Error → Prop} {body : Body} {kind : Kind} {vs : List Value} {ty : Ty}

lemma failsOnly_createInst (hvs : ∀ v ∈ vs, body.hasValue v)
    (harity : ∀ w, arityViolation? kind vs.length = some w → P (.violation w)) :
    FailsOnly P (createInst kind vs ty) body := by
  cases h : arityViolation? kind vs.length with
  | none => exact .of_ok (createInst_iff.2 ⟨h, fun v hv => .inr (hvs v hv), rfl, rfl⟩)
  | some w =>
    rw [createInst, h]
    exact FailsOnly.bind (.throw (harity w h)) fun _ _ hok => absurd hok (by simp)

end Edit

namespace Import

open Traced Success

variable {m : Bytecode} {α : Type} {P : Error → Prop} {s : State} {log : Array Event} {t : Trace State}
  {kind : Kind} {vs : List Value} {ty : Ty} {cause : Malformation}

lemma reported_codeBetween {leaders : List Nat} {n start stop : Nat} (h : Leaders m leaders)
    (hm : m.Contiguous) (hrange : (ranges m.codeSize leaders)[n]? = some (start, stop)) :
    Reported (codeBetween m start stop) := by
  refine (Bytecode.reported_indexAt start).bind fun first hfirst => ?_
  refine (Bytecode.reported_indexAt stop).bind fun last hlast => ?_
  rw [if_neg (Nat.not_lt_of_lt (h.index_lt hm hrange hfirst hlast).1)]
  exact .ok _

lemma failsOnly_edit {x : Edit α} (h : FailsOnly P x t.state.body) : FailsOnly P (edit x) t := by
  intro e t' he
  rw [edit, zoom, ofEdit] at he
  cases hx : x t.state.body with
  | ok a body => simp [hx] at he
  | error e' body =>
    simp only [hx, EStateM.Result.error.injEq] at he
    exact he.1 ▸ h e' body hx

lemma failsOnly_fail (h : ∀ offset, P (.invalidProgram offset cause)) : FailsOnly P (fail cause : M α) t :=
  FailsOnly.bind (.of_ok (getState_iff.2 ⟨rfl, rfl⟩)) fun _ _ _ => .throw (h _)

lemma blames_fail : FailsOnly m.Blames (fail cause : M α) t :=
  failsOnly_fail fun _ => .inl rfl

lemma failsOnly_getState : FailsOnly P (getState : M State) t := .of_ok (getState_iff.2 ⟨rfl, rfl⟩)

lemma failsOnly_getState_bind {f : State → M α} (h : FailsOnly P (f t.state) t) : FailsOnly P (getState >>= f) t := h

lemma failsOnly_modifyState {f : State → State} : FailsOnly P (modifyState f : M Unit) t :=
  .of_ok (a := ()) (modifyState_iff.2 rfl)

lemma failsOnly_emit (hb : s.body.hasBlock s.cursor.block) (hvs : ∀ v ∈ vs, s.body.hasValue v)
    (hsuccs : ∀ t ∈ kind.successors, s.body.hasBlock t)
    (harity : ∀ w, arityViolation? kind vs.length = some w → P (.violation w)) :
    FailsOnly P (emit kind vs ty) ⟨s, log⟩ := by
  refine failsOnly_getState_bind ?_
  refine failsOnly_edit (.bind (failsOnly_createInst hvs harity) fun i body hi => ?_)
  obtain ⟨-, -, rfl, rfl⟩ := createInst_iff.1 hi
  refine .bind (.of_ok (a := ()) (insertLast_iff.2 ⟨?_, rfl⟩)) fun _ _ _ => .pure
  exact Body.canAttach_addInst_iff.2 ⟨hb, hsuccs⟩

end Import

end MethodIR
