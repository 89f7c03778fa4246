import Mathlib
import MethodIR.Trace

/-!
# Computations that succeed

What it means for a computation with a state to succeed, part by part. A sequence succeeds if its
parts do, one in the state that the other leaves.
-/

namespace MethodIR

open List Body

namespace Success

variable {ε σ α β γ : Type} {x : EStateM ε σ α} {f : α → EStateM ε σ β} {s s' t : σ} {a : α} {b : β} {u : Unit}
  {as : List α} {g : γ → EStateM ε σ Unit} {xs ys done : List γ} {P : List γ → σ → Prop}

@[simp] lemma bind_iff : (x >>= f) s = .ok b s' ↔ ∃ a t, x s = .ok a t ∧ f a t = .ok b s' := by
  change EStateM.bind x f s = _ ↔ _
  rw [EStateM.bind]
  cases h : x s <;> simp

@[simp] lemma pure_iff {c : α} : (pure a : EStateM ε σ α) s = .ok c s' ↔ a = c ∧ s = s' := by
  change EStateM.Result.ok a s = _ ↔ _
  simp

@[simp] lemma map_iff {g : α → β} : (g <$> x) s = .ok b s' ↔ ∃ a, x s = .ok a s' ∧ g a = b := by
  change EStateM.map g x s = _ ↔ _
  rw [EStateM.map]
  cases h : x s <;> simp [and_comm]

@[simp] lemma get_iff : (get : EStateM ε σ σ) s = .ok t s' ↔ s = t ∧ s = s' := by
  change EStateM.Result.ok s s = _ ↔ _
  simp

@[simp] lemma set_iff : (set t : EStateM ε σ Unit) s = .ok u s' ↔ t = s' := by
  change EStateM.Result.ok () t = _ ↔ _
  simp

@[simp] lemma modify_iff {g : σ → σ} : (modify g : EStateM ε σ Unit) s = .ok u s' ↔ g s = s' := by
  change EStateM.Result.ok () (g s) = _ ↔ _
  simp

@[simp] lemma modifyGet_iff {g : σ → α × σ} : (modifyGet g : EStateM ε σ α) s = .ok a s' ↔ g s = (a, s') := by
  change EStateM.modifyGet g s = _ ↔ _
  rw [EStateM.modifyGet]
  rcases g s with ⟨c, t⟩
  simp

@[simp] lemma throw_iff {e : ε} : (throw e : EStateM ε σ α) s = .ok a s' ↔ False := by
  change EStateM.Result.error e s = _ ↔ _
  simp

@[simp] lemma discard_iff : (discard x : EStateM ε σ Unit) s = .ok u s' ↔ ∃ a, x s = .ok a s' := by
  change (Functor.mapConst () x) s = _ ↔ _
  change ((fun _ => ()) <$> x) s = _ ↔ _
  simp

@[simp] lemma ofExcept_iff {r : Except Error α} {s s' : σ} :
    (MonadExcept.ofExcept r : EStateM Error σ α) s = .ok a s' ↔ r = .ok a ∧ s = s' := by
  cases r with
  | error e =>
    change (throw e : EStateM Error σ α) s = _ ↔ _
    simp
  | ok c =>
    change (pure c : EStateM Error σ α) s = _ ↔ _
    simp

@[simp] lemma mapM_nil_iff {g : γ → EStateM ε σ α} : ([] : List γ).mapM g s = .ok as s' ↔ [] = as ∧ s = s' := by
  rw [mapM_nil]
  exact pure_iff

@[simp] lemma mapM_cons_iff {g : γ → EStateM ε σ α} {c : γ} : (c :: xs).mapM g s = .ok as s' ↔
      ∃ a t, g c s = .ok a t ∧ ∃ rest, xs.mapM g t = .ok rest s' ∧ a :: rest = as := by
  simp only [mapM_cons, bind_iff, pure_iff]
  grind

lemma forM_append_iff : (xs ++ ys).forM g s = .ok u s' ↔ ∃ t, xs.forM g s = .ok () t ∧ ys.forM g t = .ok u s' := by
  induction xs generalizing s with
  | nil =>
    refine ⟨fun h => ⟨s, rfl, h⟩, ?_⟩
    rintro ⟨t, hnil, h⟩
    obtain ⟨-, rfl⟩ := pure_iff.1 hnil
    exact h
  | cons c xs ih =>
    change (g c >>= fun _ => (xs ++ ys).forM g) s = _ ↔ ∃ t, (g c >>= fun _ => xs.forM g) s = _ ∧ _
    simp only [bind_iff, ih]
    grind

lemma forM_induction {P : σ → Prop}
    (h : xs.forM g s = .ok u s') (hs : P s) (hstep : ∀ c ∈ xs, ∀ s s' u, P s → g c s = .ok u s' → P s') : P s' := by
  induction xs generalizing s with
  | nil =>
    obtain ⟨-, rfl⟩ := pure_iff.1 h
    exact hs
  | cons c xs ih =>
    change (g c >>= fun _ => xs.forM g) s = _ at h
    obtain ⟨u, t, hc, hrest⟩ := bind_iff.1 h
    exact ih hrest (hstep c (by simp) s t u hs hc) fun d hd => hstep d (by simp [hd])

lemma mapM_induction {g : γ → EStateM ε σ α} (h : xs.mapM g s = .ok as s') (hs : P done s)
    (hstep : ∀ done, ∀ c ∈ xs, ∀ s s' a, P done s → g c s = .ok a s' → P (c :: done) s') :
    P (xs.reverse ++ done) s' := by
  induction xs generalizing s as done with
  | nil =>
    obtain ⟨-, rfl⟩ := mapM_nil_iff.1 h
    exact hs
  | cons c xs ih =>
    obtain ⟨a, t, hc, rest, hrest, -⟩ := mapM_cons_iff.1 h
    simpa using ih hrest (hstep done c (by simp) s t a hs hc) fun done d hd => hstep done d (by simp [hd])

/-- `x` comes to an end if `S` holds, and in any case only with `Q`. -/
def Ends (S : Prop) (x : EStateM ε σ Unit) (s : σ) (Q : σ → Prop) : Prop :=
  (S → ∃ t, x s = .ok () t) ∧ ∀ t, x s = .ok () t → Q t

namespace Ends

variable {S : Prop} {x y : EStateM ε σ Unit} {Q R : σ → Prop}

lemma of_ok (h : x s = .ok () t) (hQ : Q t) : Ends S x s Q := by
  refine ⟨fun _ => ⟨t, h⟩, fun t' h' => ?_⟩
  rw [h] at h'
  cases h'
  exact hQ

lemma bind (h : Ends S x s R) (hy : ∀ t, R t → Ends S y t Q) : Ends S (x >>= fun _ => y) s Q := by
  constructor
  · intro hS
    obtain ⟨t, ht⟩ := h.1 hS
    obtain ⟨t', ht'⟩ := (hy t (h.2 t ht)).1 hS
    exact ⟨t', bind_iff.2 ⟨(), t, ht, ht'⟩⟩
  · intro t' hrun
    obtain ⟨⟨⟩, t, ht, ht'⟩ := bind_iff.1 hrun
    exact (hy t (h.2 t ht)).2 t' ht'

lemma forM (hs : P [] s)
    (hstep : ∀ pre c post s, xs = pre ++ c :: post → P pre s → Ends S (g c) s (P (pre ++ [c]))) :
    Ends S (xs.forM g) s (P xs) := by
  induction xs generalizing s P with
  | nil => exact .of_ok rfl hs
  | cons c xs ih =>
    refine (hstep [] c xs s rfl hs).bind fun t ht => ih (P := fun pre => P (c :: pre)) ht fun pre d post s heq => ?_
    exact hstep (c :: pre) d post s (by rw [heq, cons_append])

end Ends

end Success

def Body.CanAttach (body : Body) (i : InstId) (b : BlockId) : Prop :=
  body.hasInst i ∧ (body.inst i).isRemoved = false ∧ (body.inst i).block = none ∧
    body.hasBlock b ∧ ∀ c ∈ (body.kind i).successors, body.hasBlock c

namespace Edit

open Success

variable {body body' : Body} {u : Unit} {b : BlockId} {i anchor : InstId} {v w : Value} {ty : Ty}

@[simp] lemma need_iff {p : Bool} : need p body = .ok u body' ↔ p ∧ body = body' := by
  rw [need]
  cases p
  · simp
  · simp

@[simp] lemma refuse_iff {α : Type} {v : Violation} {a : α} : (refuse v : Edit α) body = .ok a body' ↔ False := by
  simp [refuse]

@[simp] lemma inst_iff {x : Inst} :
    inst i body = .ok x body' ↔ body.hasInst i ∧ body.inst i = x ∧ body = body' := by
  simp only [inst, bind_iff, get_iff, need_iff, pure_iff]
  grind

@[simp] lemma block_iff {x : Block} :
    block b body = .ok x body' ↔ body.hasBlock b ∧ body.block b = x ∧ body = body' := by
  simp only [block, bind_iff, get_iff, need_iff, pure_iff]
  grind

@[simp] lemma var_iff {v : VarId} {x : Variable} :
    var v body = .ok x body' ↔ body.hasVar v ∧ body.var v = x ∧ body = body' := by
  simp only [var, bind_iff, get_iff, need_iff, pure_iff]
  grind

@[simp] lemma valueTy_iff :
    valueTy v body = .ok ty body' ↔ body.hasValue v ∧ body.valueTy v = ty ∧ body = body' := by
  simp only [valueTy, bind_iff, get_iff, need_iff, pure_iff]
  grind

@[simp] lemma uses_iff {us : List Use} :
    uses v body = .ok us body' ↔ body.hasValue v ∧ body.uses v = us ∧ body = body' := by
  simp only [uses, bind_iff, get_iff, need_iff, pure_iff]
  grind

@[simp] lemma createVar_iff {origin : Variable.Origin} {v : VarId} :
    createVar ty origin body = .ok v body' ↔ body.addVar ty origin = (v, body') :=
  modifyGet_iff

lemma createInst_iff {kind : Kind} {operands : List Value} :
    createInst kind operands ty body = .ok i body' ↔ arityViolation? kind operands.length = none ∧
      (∀ v ∈ operands, v = .inst ⟨body.insts.size⟩ ∨ body.hasValue v) ∧
      i = ⟨body.insts.size⟩ ∧ body' = body.addInst kind operands ty := by
  rw [createInst]
  cases arityViolation? kind operands.length with
  | some v => simp
  | none =>
    simp only [bind_iff, get_iff, set_iff, need_iff, pure_iff, all_eq_true, Bool.or_eq_true, beq_iff_eq]
    grind

lemma createBlock_iff {place : Option BlockId} : createBlock place body = .ok b body' ↔
      (∀ a ∈ place, a = ⟨body.blocks.size⟩ ∨ body.hasBlock a) ∧
      b = ⟨body.blocks.size⟩ ∧ body' = body.addBlock place := by
  simp only [createBlock, bind_iff, get_iff, set_iff, need_iff, pure_iff]
  cases place with
  | none =>
    simp only [Option.all_none]
    grind
  | some a =>
    simp only [Option.all_some, Bool.or_eq_true, beq_iff_eq, Option.mem_def, Option.some.injEq]
    grind

lemma needDetached_iff : needDetached i body = .ok u body' ↔
    body.hasInst i ∧ (body.inst i).isRemoved = false ∧ (body.inst i).block = none ∧ body = body' := by
  simp only [needDetached, bind_iff, inst_iff]
  cases hr : (body.inst i).isRemoved <;> cases hb : (body.inst i).block <;> simp [hr, hb]

lemma attach_iff {insts : List InstId → List InstId} : attach i b insts body = .ok u body' ↔
    body.hasBlock b ∧ (∀ c ∈ (body.kind i).successors, body.hasBlock c) ∧
      body' = body.attach i b (insts (body.instsOf b)) := by
  simp only [attach, bind_iff, block_iff, get_iff, set_iff, need_iff, all_eq_true, instsOf]
  grind

lemma insertFirst_iff : insertFirst b i body = .ok u body' ↔
    body.CanAttach i b ∧ body' = body.attach i b (i :: body.instsOf b) := by
  simp only [insertFirst, bind_iff, needDetached_iff, attach_iff, Body.CanAttach]
  grind

lemma insertLast_iff : insertLast b i body = .ok u body' ↔
    body.CanAttach i b ∧ body' = body.attach i b (body.instsOf b ++ [i]) := by
  simp only [insertLast, bind_iff, needDetached_iff, attach_iff, Body.CanAttach]
  grind

lemma anchorBlock_iff : anchorBlock anchor body = .ok b body' ↔
    body.hasInst anchor ∧ (body.inst anchor).block = some b ∧ body = body' := by
  simp only [anchorBlock, bind_iff, inst_iff]
  cases hb : (body.inst anchor).block with
  | none => simp [hb]
  | some c => simp [hb]

lemma insertBefore_iff : insertBefore anchor i body = .ok u body' ↔
    ∃ b, body.hasInst anchor ∧ (body.inst anchor).block = some b ∧ body.CanAttach i b ∧
      body' = body.attach i b ((body.instsOf b).takeWhile (· ≠ anchor) ++
        i :: (body.instsOf b).dropWhile (· ≠ anchor)) := by
  simp only [insertBefore, bind_iff, needDetached_iff, anchorBlock_iff, attach_iff, Body.CanAttach]
  grind

lemma insertAfter_iff : insertAfter anchor i body = .ok u body' ↔
    ∃ b, body.hasInst anchor ∧ (body.inst anchor).block = some b ∧ body.CanAttach i b ∧
      body' = body.attach i b ((body.instsOf b).takeWhile (· ≠ anchor) ++
        anchor :: i :: ((body.instsOf b).dropWhile (· ≠ anchor)).drop 1) := by
  simp only [insertAfter, bind_iff, needDetached_iff, anchorBlock_iff, attach_iff, Body.CanAttach]
  grind

lemma removeInst_iff : removeInst i body = .ok u body' ↔ body.hasInst i ∧ (body.inst i).uses = [] ∧
      body' = ((body.detach i).dropOperands i).markRemoved i := by
  simp only [removeInst, bind_iff, inst_iff]
  cases hu : (body.inst i).uses with
  | nil =>
    simp [hu]
    grind
  | cons x xs => simp [hu]

lemma replaceUses_iff {n : Nat} : replaceUses v w body = .ok n body' ↔ if v = w then n = 0 ∧ body' = body
    else body.hasValue v ∧ n = (body.uses v).length ∧ (n = 0 ∨ body.hasValue w) ∧
      body' = body.replaceUses v w := by
  rw [replaceUses]
  by_cases hvw : v = w
  · simp [hvw]
    grind
  · simp [hvw]
    grind

lemma replaceWith_iff : replaceWith i v body = .ok u body' ↔
    v ≠ .inst i ∧ body.hasInst i ∧ ((body.inst i).uses = [] ∨ body.hasValue v) ∧
      removeInst i (body.replaceUses (.inst i) v) = .ok u body' := by
  rw [replaceWith]
  by_cases hv : v = .inst i
  · simp [hv]
  · have hv' : Value.inst i ≠ v := Ne.symm hv
    simp [hv, replaceUses_iff, hv', Body.hasValue, Body.uses]
    grind

lemma addPhiArg_iff : addPhiArg i b v body = .ok u body' ↔
    body.hasInst i ∧ (body.kind i).isPhi ∧ body.hasValue v ∧ body' = (body.modifyInst i fun x =>
        { x with kind := .phi (x.kind.blocks ++ [b]) }).pushOperand i v := by
  simp only [addPhiArg, needPhi, bind_iff, discard_iff, inst_iff, get_iff, need_iff, modify_iff, kind]
  cases hk : (body.inst i).kind <;> simp [hk, Kind.isPhi]
  grind

end Edit

namespace Traced

open Success

variable {σ τ α : Type} {t t' : Trace σ} {u : Unit} {a : α}

@[simp] lemma report_iff {e : Event} : (report e : Traced σ Unit) t = .ok u t' ↔
    t' = { t with log := t.log.push e } := by
  rw [report, modify_iff, eq_comm]

@[simp] lemma getState_iff : (getState : Traced σ σ) t = .ok s t' ↔ t.state = s ∧ t = t' := by
  simp only [getState, bind_iff, get_iff, pure_iff]
  grind

lemma getState_bind_iff {f : σ → Traced σ α} : (getState >>= f) t = .ok a t' ↔ f t.state t = .ok a t' := .rfl

@[simp] lemma setState_iff : (setState s : Traced σ Unit) t = .ok u t' ↔ t' = { t with state := s } := by
  rw [setState, modify_iff, eq_comm]

@[simp] lemma modifyState_iff {f : σ → σ} : (modifyState f : Traced σ Unit) t = .ok u t' ↔
    t' = { t with state := f t.state } := by
  rw [modifyState, modify_iff, eq_comm]

lemma zoom_iff {part : σ → τ} {put : τ → σ → σ} {x : Traced τ α} : zoom part put x t = .ok a t' ↔
      ∃ r, x ⟨part t.state, t.log⟩ = .ok a r ∧ t' = ⟨put r.state t.state, r.log⟩ := by
  rw [zoom]
  cases x ⟨part t.state, t.log⟩ with
  | ok b r =>
    simp
    grind
  | error e r => simp

lemma ofEdit_iff {x : Edit α} {t t' : Trace Body} : ofEdit x t = .ok a t' ↔
    ∃ body, x t.state = .ok a body ∧ t' = { t with state := body } := by
  rw [ofEdit]
  cases x t.state with
  | ok b r =>
    simp
    grind
  | error e r => simp

end Traced

end MethodIR
