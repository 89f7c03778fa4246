import MethodIR.Body.Op
import MethodIR.Proofs.Success

/-!
# What operations do to a body

An operation that is not out of range is refused and leaves the body as it was, or makes one of the
changes of `Op.Changes` (`Op.changes_of_after`).
-/

namespace MethodIR

open List Success

lemma eq_some_getD {α : Type} {o : Option α} {d : α} (h : o.isSome) : o = some (o.getD d) := by
  cases o with
  | none => simp at h
  | some a => rfl

namespace Edit

variable {α β : Type} {P Q : Body → Prop} {body : Body} {x : Edit α} {f : α → Edit β} {i : InstId} {b : BlockId}

def Leaves (P : Body → Prop) (x : Edit α) (body : Body) : Prop :=
  match x body with
  | .ok _ s => P s
  | .error .outOfRange _ => True
  | .error _ s => P s

lemma Leaves.bind (hok : ∀ a s, x body = .ok a s → Leaves P (f a) s)
    (herr : ∀ e s, x body = .error e s → e ≠ .outOfRange → P s) : Leaves P (x >>= f) body := by
  change match EStateM.bind x f body with
    | .ok _ s => P s
    | .error .outOfRange _ => True
    | .error _ s => P s
  rw [EStateM.bind]
  cases hr : x body with
  | ok a s => exact hok a s hr
  | error e s =>
    cases e with
    | outOfRange => trivial
    | _ => exact herr _ s hr (by simp)

lemma Leaves.map {g : α → β} (hx : Leaves P x body) : Leaves P (g <$> x) body := by
  rw [Leaves] at *
  change match EStateM.map g x body with
    | .ok _ s => P s
    | .error .outOfRange _ => True
    | .error _ s => P s
  rw [EStateM.map]
  cases hr : x body with
  | ok a s =>
    rw [hr] at hx
    exact hx
  | error e s =>
    rw [hr] at hx
    cases e <;> exact hx

lemma Leaves.andThen (hx : Leaves Q x body) (hQ : ∀ s, Q s → P s)
    (hok : ∀ a s, x body = .ok a s → Q s → Leaves P (f a) s) : Leaves P (x >>= f) body := by
  rw [Leaves] at hx
  refine Leaves.bind (fun a s hr => ?_) fun e s hr hne => ?_
  · rw [hr] at hx
    exact hok a s hr hx
  · rw [hr] at hx
    cases e with
    | outOfRange => exact absurd rfl hne
    | _ => exact hQ s hx

lemma Leaves.mono (hx : Leaves Q x body) (hQ : ∀ s, Q s → P s) : Leaves P x body := by
  rw [Leaves] at *
  cases hr : x body with
  | ok a s =>
    rw [hr] at hx
    exact hQ s hx
  | error e s =>
    rw [hr] at hx
    cases e with
    | outOfRange => trivial
    | _ => exact hQ s hx

lemma Leaves.bind_pure {b : β} (hx : Leaves P x body) : Leaves P (x >>= fun _ => pure b) body :=
  hx.andThen (fun _ hs => hs) fun _ _ _ hs => hs

lemma leaves_get {f : Body → Edit β} (h : Leaves P (f body) body) : Leaves P (get >>= f) body := h

lemma leaves_modify {f : Body → Body} (h : P (f body)) : Leaves P (modify f) body := h

lemma leaves_refuse {v : Violation} (h : P body) : Leaves P (refuse v : Edit α) body := h

lemma leaves_need {p : Bool} {f : Unit → Edit β} (h : p → Leaves P (f ()) body) : Leaves P (need p >>= f) body := by
  cases p with
  | false => exact trivial
  | true => exact h rfl

lemma leaves_inst {f : Inst → Edit β} (h : body.hasInst i → Leaves P (f (body.inst i)) body) :
    Leaves P (inst i >>= f) body := by
  rw [inst, bind_assoc]
  refine leaves_get ?_
  rw [bind_assoc]
  exact leaves_need h

lemma leaves_block {f : Block → Edit β} (h : body.hasBlock b → Leaves P (f (body.block b)) body) :
    Leaves P (block b >>= f) body := by
  rw [block, bind_assoc]
  refine leaves_get ?_
  rw [bind_assoc]
  exact leaves_need h

lemma discard_bind {f : Unit → Edit β} : (discard x >>= f) = (x >>= fun _ => f ()) := by
  funext s
  change EStateM.bind (EStateM.map (fun _ => ()) x) f s = EStateM.bind x (fun _ => f ()) s
  rw [EStateM.bind, EStateM.bind, EStateM.map]
  cases x s <;> rfl

end Edit

namespace Op

open Edit

/-- The changes that an operation can make. -/
inductive Changes : Op → Body → Body → Prop
  | refused {op : Op} {x : Body} : Changes op x x
  | createVar {ty : Ty} {origin : Variable.Origin} {x : Body} :
    Changes (.createVar ty origin) x (x.addVar ty origin).2
  | setVar {v : VarId} {decl : Variable} {x : Body} : Changes (.setVar v decl) x (x.modifyVar v fun _ => decl)
  | createBlock {place : Option BlockId} {x : Body} (known : ∀ a ∈ place, a = ⟨x.blocks.size⟩ ∨ x.hasBlock a) :
    Changes (.createBlock place) x (x.addBlock place)
  | createInst {kind : Kind} {vs : List Value} {ty : Ty} {x : Body} (arity : arityViolation? kind vs.length = none)
    (known : ∀ v ∈ vs, v = .inst ⟨x.insts.size⟩ ∨ x.hasValue v) :
    Changes (.createInst kind vs ty) x (x.addInst kind vs ty)
  | insertFirst {b : BlockId} {i : InstId} {x : Body} (can : x.CanAttach i b) :
    Changes (.insertFirst b i) x (x.attach i b (i :: x.instsOf b))
  | insertLast {b : BlockId} {i : InstId} {x : Body} (can : x.CanAttach i b) :
    Changes (.insertLast b i) x (x.attach i b (x.instsOf b ++ [i]))
  | insertBefore {anchor i : InstId} {b : BlockId} {x : Body}
    (home : (x.inst anchor).block = some b) (can : x.CanAttach i b) :
    Changes (.insertBefore anchor i) x (x.attach i b ((x.instsOf b).takeWhile (· ≠ anchor) ++
      i :: (x.instsOf b).dropWhile (· ≠ anchor)))
  | insertAfter {anchor i : InstId} {b : BlockId} {x : Body}
    (home : (x.inst anchor).block = some b) (can : x.CanAttach i b) :
    Changes (.insertAfter anchor i) x (x.attach i b ((x.instsOf b).takeWhile (· ≠ anchor) ++
      anchor :: i :: ((x.instsOf b).dropWhile (· ≠ anchor)).drop 1))
  | insertPhi {b : BlockId} {ty : Ty} {x y z : Body} (create : Changes (.createInst (.phi []) [] ty) x y)
    (insert : Changes (.insertFirst b ⟨x.insts.size⟩) y z) : Changes (.insertPhi b ty) x z
  | insertPhiAfter {b : BlockId} {ty : Ty} {last : InstId} {x y z : Body}
    (create : Changes (.createInst (.phi []) [] ty) x y) (mem : last ∈ y.phis b)
    (insert : Changes (.insertAfter last ⟨x.insts.size⟩) y z) : Changes (.insertPhi b ty) x z
  | addPhiArg {i : InstId} {b : BlockId} {v : Value} {x : Body} (exists_inst : x.hasInst i)
    (phi : (x.kind i).isPhi) (known : x.hasValue v) :
    Changes (.addPhiArg i b v) x ((x.modifyInst i fun y =>
      { y with kind := .phi (y.kind.blocks ++ [b]) }).pushOperand i v)
  | removePhiArg {i : InstId} {n : Nat} {x : Body} (exists_inst : x.hasInst i)
    (phi : (x.kind i).isPhi) (slot : n < (x.inst i).operands.length) :
    Changes (.removePhiArg i n) x (x.removePhiSlot i n)
  | detach {i : InstId} {x : Body} : Changes (.detach i) x (x.detach i)
  | removeInst {i : InstId} {x : Body} (exists_inst : x.hasInst i) (unused : (x.inst i).uses = []) :
    Changes (.removeInst i) x (((x.detach i).dropOperands i).markRemoved i)
  | destroyInst {i : InstId} {x : Body} (exists_inst : x.hasInst i) : Changes (.destroyInst i) x (x.destroy i)
  | setTerminator {b : BlockId} {i : InstId} {x y : Body} (insert : Changes (.insertLast b i) x y) :
    Changes (.setTerminator b i) x y
  | replaceTerminator {b : BlockId} {i old : InstId} {x y : Body}
    (before : x.terminator? b = some old) (insert : Changes (.insertLast b i) x y) :
    Changes (.setTerminator b i) x (y.destroy old)
  | setJump {b target : BlockId} {x y z : Body} (create : Changes (.createInst (.jump target) [] .void) x y)
    (insert : Changes (.setTerminator b ⟨x.insts.size⟩) y z) : Changes (.setJump b target) x z
  | replaceTarget {b old new : BlockId} {x : Body} (exists_block : x.hasBlock b)
    (named : old ∈ x.targets b) (known : new ∈ x.succs b ∨ x.hasBlock new) :
    Changes (.replaceTarget b old new) x (x.retarget b old new)
  | connect {a b : BlockId} {x : Body} (exists_block : x.hasBlock a)
    (known : b ∈ x.succs a ∨ x.hasBlock b) : Changes (.connect a b) x (x.connect a b)
  | disconnect {a b : BlockId} {x : Body} : Changes (.disconnect a b) x (x.disconnect a b)
  | setEntry {b : BlockId} {x : Body} (exists_block : x.hasBlock b) (first : x.preds b = []) :
    Changes (.setEntry b) x { x with entry := some b }.bump
  | removeBlock {b : BlockId} {x : Body} (exists_block : x.hasBlock b) (unused : x.preds b = [])
    (entry : x.entry ≠ some b) : Changes (.removeBlock b) x (x.eraseBlock b)
  | setOperand {i : InstId} {n : Nat} {old v : Value} {x : Body}
    (slot : (x.inst i).operands[n]? = some old) (ne : old ≠ v) (known : x.hasValue v) :
    Changes (.setOperand i n v) x (x.moveUse old v ⟨i, n⟩)
  | replaceUses {v w : Value} {x : Body} (ne : v ≠ w) (known : x.uses v = [] ∨ x.hasValue w) :
    Changes (.replaceUses v w) x (x.replaceUses v w)
  | replaceWith {i : InstId} {v : Value} {x y z : Body} (replace : Changes (.replaceUses (.inst i) v) x y)
    (remove : Changes (.removeInst i) y z) : Changes (.replaceWith i v) x z

variable {x y : Body} {P : Body → Prop} {i anchor : InstId} {b : BlockId} {β : Type}
  {insts : List InstId → List InstId}

/-! ## The edits one by one -/

lemma leaves_createInst {kind : Kind} {vs : List Value} {ty : Ty}
    {f : InstId → Edit β} (hx : P x) (h : Changes (.createInst kind vs ty) x (x.addInst kind vs ty) →
      Leaves P (f ⟨x.insts.size⟩) (x.addInst kind vs ty)) : Leaves P (Edit.createInst kind vs ty >>= f) x := by
  rw [Edit.createInst]
  cases harity : arityViolation? kind vs.length with
  | some v => exact hx
  | none =>
    simp only [bind_assoc, pure_bind]
    refine leaves_get (leaves_need fun hknown => h (.createInst harity fun v hv => ?_))
    simpa using all_eq_true.1 hknown v hv

lemma leaves_needDetached {f : Unit → Edit β} (hx : P x)
    (h : x.hasInst i → (x.inst i).isRemoved = false → (x.inst i).block = none →
      Leaves P (f ()) x) : Leaves P (needDetached i >>= f) x := by
  rw [needDetached, bind_assoc]
  refine leaves_inst fun hi => ?_
  cases hr : (x.inst i).isRemoved with
  | true => exact hx
  | false =>
    cases hb : (x.inst i).block with
    | some b => exact hx
    | none => exact h hi hr hb

lemma leaves_attach (hi : x.hasInst i) (hlive : (x.inst i).isRemoved = false) (hnone : (x.inst i).block = none)
    (h : x.CanAttach i b → P (x.attach i b (insts (x.instsOf b)))) : Leaves P (attach i b insts) x := by
  refine leaves_block fun hb => leaves_get (leaves_need fun hsuccs => h ?_)
  exact ⟨hi, hlive, hnone, hb, all_eq_true.1 hsuccs⟩

lemma leaves_insertFirst (hx : P x) (h : x.CanAttach i b →
    P (x.attach i b (i :: x.instsOf b))) : Leaves P (Edit.insertFirst b i) x :=
  leaves_needDetached hx fun hi hlive hnone => leaves_attach hi hlive hnone h

lemma leaves_insertLast (hx : P x) (h : x.CanAttach i b →
    P (x.attach i b (x.instsOf b ++ [i]))) : Leaves P (Edit.insertLast b i) x :=
  leaves_needDetached hx fun hi hlive hnone => leaves_attach hi hlive hnone h

lemma leaves_insertNextTo (hx : P x)
    (h : ∀ b, (x.inst anchor).block = some b → x.CanAttach i b → P (x.attach i b (insts (x.instsOf b)))) :
    Leaves P (do needDetached i; attach i (← anchorBlock anchor) insts) x := by
  refine leaves_needDetached hx fun hi hlive hnone => ?_
  rw [anchorBlock, bind_assoc]
  refine leaves_inst fun _ => ?_
  cases hb : (x.inst anchor).block with
  | none => exact hx
  | some b => exact leaves_attach hi hlive hnone (h b hb)

lemma leaves_insertPhi (b : BlockId) (ty : Ty) : Leaves (Changes (.insertPhi b ty) x) (Edit.insertPhi b ty) x := by
  refine leaves_createInst .refused fun hcreate => ?_
  rw [discard_bind]
  refine leaves_block fun _ => leaves_get ?_
  cases hlast : ((x.addInst (.phi []) [] ty).phis b).getLast? with
  | some last =>
    have hmem := mem_of_getLast? hlast
    refine Leaves.bind_pure (leaves_insertNextTo (.insertPhiAfter hcreate hmem .refused) ?_)
    exact fun c hc hcan => .insertPhiAfter hcreate hmem (.insertAfter hc hcan)
  | none =>
    refine Leaves.bind_pure (leaves_insertFirst (.insertPhi hcreate .refused) fun hcan => ?_)
    exact .insertPhi hcreate (.insertFirst hcan)

lemma leaves_removeInst (hx : P x) (h : x.hasInst i → (x.inst i).uses = [] →
    P (((x.detach i).dropOperands i).markRemoved i)) : Leaves P (Edit.removeInst i) x := by
  refine leaves_inst fun hi => ?_
  cases huses : (x.inst i).uses with
  | cons u us => exact hx
  | nil => exact h hi huses

lemma leaves_setTerminator : Leaves (Changes (.setTerminator b i) x) (Edit.setTerminator b i) x := by
  refine leaves_inst fun _ => ?_
  cases hterm : (x.inst i).kind.isTerminator with
  | false =>
    simp only [hterm, Bool.false_eq_true, if_false]
    exact .refused
  | true =>
    simp only [hterm, if_true]
    rw [discard_bind]
    refine leaves_block fun _ => leaves_get ?_
    have hinsert : Leaves (Changes (.insertLast b i) x) (Edit.insertLast b i) x :=
      leaves_insertLast .refused .insertLast
    refine hinsert.andThen (fun _ hs => .setTerminator hs) fun _ s _ hs => ?_
    cases hold : x.terminator? b with
    | none => exact .setTerminator hs
    | some old => exact .replaceTerminator hold hs

lemma leaves_replaceUses {v w : Value} : Leaves (Changes (.replaceUses v w) x) (Edit.replaceUses v w) x := by
  rw [Edit.replaceUses]
  by_cases hvw : v = w
  · simp only [hvw, if_true]
    exact .refused
  · simp only [hvw, if_false, uses, bind_assoc, pure_bind]
    refine leaves_get (leaves_need fun _ => leaves_get (leaves_need fun hknown => ?_))
    have hknown : x.uses v = [] ∨ x.hasValue w := by simpa using hknown
    exact .replaceUses hvw hknown

lemma leaves_removeBlock (b : BlockId) : Leaves (Changes (.removeBlock b) x) (Edit.removeBlock b) x := by
  refine leaves_block fun hb => ?_
  cases hp : (x.block b).preds.isEmpty with
  | false =>
    simp only [hp, Bool.false_eq_true, if_false]
    exact .refused
  | true =>
    simp only [hp, if_true]
    refine leaves_get ?_
    by_cases he : x.entry = some b
    · simp only [he, if_true]
      exact .refused
    · cases hg : x.isGuarded b with
      | true =>
        simp only [he, if_true, if_false]
        exact .refused
      | false =>
        simp only [he, if_false, Bool.false_eq_true]
        exact .removeBlock hb (isEmpty_iff.1 hp) he

lemma leaves_setOperand (i : InstId) (n : Nat) (v : Value) :
    Leaves (Changes (.setOperand i n v) x) (Edit.setOperand i n v) x := by
  refine leaves_inst fun _ => ?_
  cases hold : (x.inst i).operands[n]? with
  | none =>
    simp only [hold]
    exact leaves_refuse .refused
  | some old =>
    simp only [hold]
    by_cases hne : old = v
    · rw [if_neg (not_not.2 hne)]
      exact Changes.refused
    · rw [if_pos hne]
      exact leaves_get (leaves_need fun hknown => leaves_modify (.setOperand hold hne hknown))

lemma leaves_needPhi {f : List Value → Edit β} (hx : P x)
    (h : x.hasInst i → (x.kind i).isPhi → Leaves P (f (x.inst i).operands) x) :
    Leaves P (needPhi i >>= f) x := by
  rw [needPhi, bind_assoc]
  refine leaves_inst fun hi => ?_
  have hkind : x.kind i = (x.inst i).kind := rfl
  cases hk : (x.inst i).kind with
  | phi blocks => exact h hi (by simp [hkind, hk, Kind.isPhi])
  | _ => exact hx

lemma leaves_changes (op : Op) : Leaves (Changes op x) op.run x := by
  cases op with
  | createVar ty origin => exact Leaves.map (g := Outcome.var) .createVar
  | setVar v decl =>
    refine Leaves.bind_pure ?_
    rw [Edit.setVar, discard_bind, Edit.var, bind_assoc]
    refine leaves_get ?_
    rw [bind_assoc]
    exact leaves_need fun _ => .setVar
  | createBlock place =>
    refine Leaves.map (leaves_get (leaves_need fun hknown => .createBlock ?_))
    rintro a rfl
    simpa using hknown
  | createInst kind vs ty =>
    refine Leaves.map (g := Outcome.inst) ?_
    rw [← bind_pure (Edit.createInst kind vs ty)]
    exact leaves_createInst .refused id
  | insertFirst b i => exact Leaves.bind_pure (leaves_insertFirst .refused .insertFirst)
  | insertLast b i => exact Leaves.bind_pure (leaves_insertLast .refused .insertLast)
  | insertBefore anchor i =>
    exact Leaves.bind_pure (leaves_insertNextTo .refused fun _ => .insertBefore)
  | insertAfter anchor i =>
    exact Leaves.bind_pure (leaves_insertNextTo .refused fun _ => .insertAfter)
  | insertPhi b ty => exact (leaves_insertPhi b ty).map
  | addPhiArg i b v =>
    refine Leaves.bind_pure ?_
    rw [Edit.addPhiArg, discard_bind]
    exact leaves_needPhi .refused fun hi hphi =>
      leaves_get (leaves_need fun hknown => .addPhiArg hi hphi hknown)
  | removePhiArg i n =>
    refine Leaves.bind_pure (leaves_needPhi .refused fun hi hphi => ?_)
    by_cases hn : n < (x.inst i).operands.length
    · simp only [hn, if_true]
      exact .removePhiArg hi hphi hn
    · simp only [hn, if_false]
      exact .refused
  | detach i =>
    refine Leaves.bind_pure (leaves_inst fun _ => ?_)
    cases (x.inst i).isRemoved with
    | true => exact .refused
    | false => exact .detach
  | removeInst i => exact Leaves.bind_pure (leaves_removeInst .refused .removeInst)
  | destroyInst i =>
    refine Leaves.bind_pure ?_
    rw [Edit.destroyInst, discard_bind]
    exact leaves_inst .destroyInst
  | setTerminator b i => exact Leaves.bind_pure leaves_setTerminator
  | setJump b target =>
    refine Leaves.bind_pure (leaves_createInst .refused fun hcreate => ?_)
    exact leaves_setTerminator.mono fun _ hs => .setJump hcreate hs
  | replaceTarget b old new =>
    refine Leaves.bind_pure (leaves_block fun hb => leaves_get ?_)
    by_cases hold : old ∈ x.targets b
    · simp only [hold, if_true]
      refine leaves_need fun hknown => leaves_modify (.replaceTarget hb hold ?_)
      simpa [Body.succs] using hknown
    · simp only [hold, if_false]
      exact .refused
  | connect a b =>
    refine Leaves.bind_pure (leaves_block fun ha => leaves_get (leaves_need fun hknown => ?_))
    exact leaves_modify (.connect ha (by simpa [Body.succs] using hknown))
  | disconnect a b =>
    refine Leaves.bind_pure ?_
    rw [Edit.disconnect, discard_bind]
    exact leaves_block fun _ => .disconnect
  | setEntry b =>
    refine Leaves.bind_pure (leaves_block fun hb => ?_)
    cases hp : (x.block b).preds.isEmpty with
    | false => exact .refused
    | true => exact .setEntry hb (isEmpty_iff.1 hp)
  | removeBlock b => exact Leaves.bind_pure (leaves_removeBlock b)
  | setOperand i n v => exact Leaves.bind_pure (leaves_setOperand i n v)
  | replaceUses v w => exact leaves_replaceUses.map
  | replaceWith i v =>
    refine Leaves.bind_pure ?_
    rw [Edit.replaceWith]
    by_cases hv : v = .inst i
    · simp only [hv, if_true]
      exact .refused
    · simp only [hv, if_false]
      rw [discard_bind]
      refine leaves_replaceUses.andThen (fun y hy => .replaceWith hy .refused) fun _ y _ hy => ?_
      exact leaves_removeInst (.replaceWith hy .refused) fun hi huses =>
        .replaceWith hy (.removeInst hi huses)

lemma changes_of_after {op : Op} (h : op.after? x = some y) : Changes op x y := by
  have hleaves := leaves_changes (x := x) op
  rw [Leaves] at hleaves
  rw [after?] at h
  cases hrun : op.run x with
  | ok a s =>
    rw [hrun] at h hleaves
    exact Option.some.inj h ▸ hleaves
  | error e s =>
    rw [hrun] at h hleaves
    cases e <;> simp at h <;> exact h ▸ hleaves

lemma afterAll_induction {ops : List Op} (hx : P x)
    (hstep : ∀ op ∈ ops, ∀ x y, P x → Changes op x y → P y) (h : afterAll? ops x = some y) : P y := by
  rw [afterAll?] at h
  induction ops generalizing x with
  | nil => exact Option.some.inj h ▸ hx
  | cons op ops ih =>
    obtain ⟨next, hop, hrest⟩ := Option.bind_eq_some_iff.1 h
    have hnext := hstep op (by simp) x next hx (changes_of_after hop)
    exact ih hnext (fun o ho => hstep o (by simp [ho])) hrest

end Op

end MethodIR
