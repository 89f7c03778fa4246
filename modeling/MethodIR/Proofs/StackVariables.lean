import MethodIR.Proofs.ExposedVariables

/-!
# Variables for values on the stack

A variable for a value on the stack has the type of the value that is stored first (`Typed`), so a later
store narrows exactly if that type asks for it.
-/

namespace MethodIR

open List Success

lemma Ty.narrows_self (t : Ty) : t.narrows t = false := by
  unfold narrows
  split
  all_goals simp

namespace Body

variable {body : Body} {v : VarId} {i : InstId} {u : Value} {b c : BlockId}

/-- The store to a variable that was made first. -/
structure FirstStore (body : Body) (v : VarId) (i : InstId) (u : Value) : Prop where
  there : ∃ b, i ∈ body.instsOf b
  hasInst : body.hasInst i
  kind : body.kind i = .storeVar v
  operands : (body.inst i).operands = [u]
  first : ∀ j, body.hasInst j → body.kind j = .storeVar v → i.index ≤ j.index

def KnownStores (body : Body) : Prop :=
  ∀ i, body.hasInst i → ∀ v, body.kind i = .storeVar v → body.hasVar v ∧ ∃ u, (body.inst i).operands = [u]

/-- A variable for a value on the stack has the type of what is first stored to it. -/
structure Typed (body : Body) : Prop where
  stores : body.KnownStores
  first : ∀ i, body.hasInst i → ∀ v d, body.kind i = .storeVar v → (body.var v).origin = .stack d →
    ∃ j u, body.FirstStore v j u ∧ body.hasValue u ∧ body.valueTy u = (body.var v).ty

lemma Typed.withVars (h : body.Typed) {vars : Array Variable} (hg : body.Grows { body with vars }) :
    Typed { body with vars } := by
  refine ⟨fun i hi v hk => ?_, fun i hi v d hk horigin => ?_⟩
  · obtain ⟨hv, hops⟩ := h.stores i hi v hk
    exact ⟨(hg.var v hv).1, hops⟩
  · obtain ⟨-, hty, hsame⟩ := hg.var v (h.stores i hi v hk).1
    obtain ⟨j, u, hfirst, hvalue, htyped⟩ := h.first i hi v d hk (hsame.symm.trans horigin)
    exact ⟨j, u, ⟨hfirst.there, hfirst.hasInst, hfirst.kind, hfirst.operands, hfirst.first⟩, hg.hasValue hvalue,
      ((hg.valueTy hvalue).trans htyped).trans hty.symm⟩

section Append

variable {kind : Kind} {vs : List Value} {ty : Ty}

lemma mem_append_of_mem (hb : body.hasBlock b) (hi : i ∈ body.instsOf c) :
    i ∈ (body.append b kind vs ty).instsOf c := by
  rw [instsOf_append _ _ _ _ _ hb]
  split
  · next hc => exact mem_append_left _ (hc ▸ hi)
  · exact hi

lemma FirstStore.append (h : body.FirstStore v i u) (hb : body.hasBlock b) :
    (body.append b kind vs ty).FirstStore v i u := by
  have hg : body.Grows (body.append b kind vs ty) := grows_append ..
  obtain ⟨hhas, hkind, -, hops⟩ := hg.inst i h.hasInst
  obtain ⟨c, hc⟩ := h.there
  refine ⟨⟨c, mem_append_of_mem hb hc⟩, hhas, hkind.trans h.kind, hops.trans h.operands, fun j hj hk => ?_⟩
  rcases hasInst_append.1 hj with hj | rfl
  · exact h.first j hj ((hg.inst j hj).2.1.symm.trans hk)
  · have hlt : i.index < body.insts.size := by simpa [Body.hasInst] using h.hasInst
    exact hlt.le

lemma Typed.append (h : body.Typed) (hb : body.hasBlock b)
    (hstore : ∀ v, kind = .storeVar v → body.hasVar v ∧ ∃ u, vs = [u] ∧ ∀ d, (body.var v).origin = .stack d →
      (∃ i, body.hasInst i ∧ body.kind i = .storeVar v) ∨
        body.hasValue u ∧ body.valueTy u = (body.var v).ty) : (body.append b kind vs ty).Typed := by
  have hg : body.Grows (body.append b kind vs ty) := grows_append ..
  obtain ⟨hnew, -, hops⟩ := append_new body b kind vs ty
  have hvar : ∀ v, (body.append b kind vs ty).var v = body.var v := fun v => by
    rw [var, vars_append, var]
  -- The first store stays the first one.
  have hold : ∀ i, body.hasInst i → ∀ v d, body.kind i = .storeVar v → (body.var v).origin = .stack d →
      ∃ j u, (body.append b kind vs ty).FirstStore v j u ∧ (body.append b kind vs ty).hasValue u ∧
        (body.append b kind vs ty).valueTy u = (body.var v).ty := by
    intro i hi v d hk horigin
    obtain ⟨j, u, hfirst, hvalue, hty⟩ := h.first i hi v d hk horigin
    exact ⟨j, u, hfirst.append hb, hg.hasValue hvalue, (hg.valueTy hvalue).trans hty⟩
  refine ⟨fun i hi v hk => ?_, fun i hi v d hk horigin => ?_⟩
  · rcases hasInst_append.1 hi with hi | rfl
    · obtain ⟨-, hkind, -, hops⟩ := hg.inst i hi
      obtain ⟨hv, u, hu⟩ := h.stores i hi v (hkind.symm.trans hk)
      exact ⟨(hg.var v hv).1, u, hops.trans hu⟩
    · obtain ⟨hv, u, hu, -⟩ := hstore v (hnew.symm.trans hk)
      exact ⟨(hg.var v hv).1, u, hops.trans hu⟩
  · rw [hvar] at horigin ⊢
    rcases hasInst_append.1 hi with hi | rfl
    · exact hold i hi v d ((hg.inst i hi).2.1.symm.trans hk) horigin
    · by_cases hstored : ∃ i, body.hasInst i ∧ body.kind i = .storeVar v
      · obtain ⟨i, hi, hk⟩ := hstored
        exact hold i hi v d hk horigin
      · obtain ⟨-, u, rfl, htyped⟩ := hstore v (hnew.symm.trans hk)
        obtain ⟨hvalue, hty⟩ := (htyped d horigin).resolve_left hstored
        refine ⟨_, u, ⟨⟨b, ?_⟩, hi, hk, hops, fun j hj hkj => ?_⟩, hg.hasValue hvalue,
          (hg.valueTy hvalue).trans hty⟩
        · rw [instsOf_append _ _ _ _ _ hb, if_pos rfl]
          simp
        · rcases hasInst_append.1 hj with hj | rfl
          · exact absurd ⟨j, hj, (hg.inst j hj).2.1.symm.trans hkj⟩ hstored
          · exact le_rfl

end Append

end Body

namespace Import

open Traced Body

variable {m : Bytecode} {leaders : List Nat} {own : BlockId → Option Nat} {s s' : State} {v : VarId}
  {t t' : Trace State} {u : Unit}

lemma Step.typed (h : Step s s') (hframe : Framed m s) (hs : s.body.Typed) : s'.body.Typed := by
  cases h with
  | cursor => exact hs
  | enter => exact hs
  | emit block plain =>
    refine hs.append block fun v hv => ?_
    simp [hv, Kind.var?] at plain
  | load block => exact hs.append block (by simp)
  | @address v ty block known =>
    have hexpose : ((s.used v false).expose v).body.Typed :=
      hs.withVars (grows_modifyVar v (fun _ => rfl) fun _ => rfl)
    exact hexpose.append block (by simp)
  | @store v u block takes =>
    refine hs.append block fun w hw => ?_
    obtain rfl := Kind.storeVar.inj hw
    refine ⟨takes.1, u, rfl, fun d hd => ?_⟩
    rcases takes.2 with ⟨slot, hslot⟩ | hstored | htyped
    · rw [(hframe.var slot v hslot).2.2] at hd
      cases slot <;> cases hd
    · exact .inl hstored
    · exact .inr htyped
  | declare grows => exact hs.withVars grows
  | expect => exact hs

lemma Steps.typed (h : Steps s s') (hframe : Framed m s) (hs : s.body.Typed) : s'.body.Typed := by
  refine (h.induction (P := fun x => Framed m x ∧ x.body.Typed) ⟨hframe, hs⟩ ?_).2
  rintro x y hstep ⟨hframe, hx⟩
  exact ⟨hframe.mono hstep.grows hstep.frameVar?, hstep.typed hframe hx⟩

/-! ## Before and after the steps -/

lemma ofMethod_origin (m : Bytecode) (v : VarId) (d : Nat) : ((State.ofMethod m).body.var v).origin ≠ .stack d := by
  rw [var, Array.getD_eq_getD_getElem?]
  cases hget : (State.ofMethod m).body.vars[v.index]? with
  | none =>
    intro h
    cases h
  | some x =>
    have hmem := Array.mem_of_getElem? hget
    simp only [State.ofMethod, mem_toArray, mem_append, mem_map] at hmem
    rcases hmem with ⟨y, -, rfl⟩ | ⟨y, -, rfl⟩ <;> simp

lemma Fenced.typed (h : Fenced m leaders own m.regions t.state) (hrun : copyArguments t = .ok u t') :
    Framed m t'.state ∧ t'.state.body.Typed := by
  have hentry := h.parted.entry
  obtain ⟨hextended, stores, hstores, hnew, -⟩ := copyArguments_spec hrun hentry (h.intact.laid.entry _ hentry)
  have hg := hextended.grows
  have horigin : ∀ v d, (t'.state.body.var v).origin ≠ .stack d := fun v d => by
    rw [var, hextended.vars, h.vars]
    exact ofMethod_origin m v d
  refine ⟨h.framed.extends hextended.extends, fun i hi v hk => ?_, fun i _ v d _ hd => absurd hd (horigin v d)⟩
  rcases hnew i hi with hold | hmem
  · have hkinds := h.kinds i hold
    rw [kind, ← (hg.inst i hold).2.1, ← kind, hk] at hkinds
    simp [Kind.isGuard, Kind.isTerminator] at hkinds
  · obtain ⟨x, hx, -, hkind, hops⟩ := exists_of_mem_right hstores hmem
    obtain rfl := Kind.storeVar.inj (hkind.symm.trans hk)
    refine ⟨(hg.var x.1 (h.framed.var (.argument x.2) x.1 ?_).1).1, _, hops⟩
    rw [State.frameVar?]
    simpa using mem_zipIdx_iff_getElem?.1 hx

lemma markExposed_typed (h : markExposed t = .ok u t') (hs : t.state.body.Typed) : t'.state.body.Typed :=
  markExposed_induction (P := fun s => s.body.Typed) h hs fun _ _ hs =>
    hs.withVars (grows_modifyVar _ (fun _ => rfl) fun _ => rfl)

lemma importMethod_typed {log : Array Event} (h : importMethod m ⟨State.ofMethod m, log⟩ = .ok u t) :
    t.state.body.Typed := by
  obtain ⟨leaders, own, _, t₁, t₂, t₃, t₄, -, -, -, hfenced, -, hargs, hsteps, hmark, ht⟩ := importMethod_phases h
  obtain ⟨hframe, htyped⟩ := hfenced.typed hargs
  rw [ht]
  exact markExposed_typed hmark (hsteps.typed hframe htyped)

/-- What a store to a variable for a value on the stack does in an imported method. The variable has the type
of the value that is stored to it first, which is not cut down. A value that is stored later is cut down exactly
if a value of the first one's type would be too narrow for it. -/
theorem stackVar_narrows_iff {log : Array Event} {i : InstId} {b : BlockId} {d : Nat}
    (h : importMethod m ⟨State.ofMethod m, log⟩ = .ok u t) (hi : i ∈ t.state.body.instsOf b)
    (hk : t.state.body.kind i = .storeVar v) (horigin : (t.state.body.var v).origin = .stack d) :
    ∃ value first value₀, (t.state.body.inst i).operands = [value] ∧
      t.state.body.FirstStore v first value₀ ∧ t.state.body.valueTy value₀ = (t.state.body.var v).ty ∧
      ((t.state.body.var v).ty.narrows (t.state.body.valueTy value) ↔
        i ≠ first ∧ (t.state.body.valueTy value₀).narrows (t.state.body.valueTy value)) := by
  have htyped := importMethod_typed h
  have hhas := (importMethod_screened h).noted.there b i hi
  obtain ⟨-, value, hvalue⟩ := htyped.stores i hhas v hk
  obtain ⟨first, value₀, hfirst, -, hty⟩ := htyped.first i hhas v d hk horigin
  refine ⟨value, first, value₀, hvalue, hfirst, hty, fun hnarrows => ⟨?_, hty ▸ hnarrows⟩, fun h => hty ▸ h.2⟩
  rintro rfl
  obtain rfl : value = value₀ := singleton_inj.1 (hvalue.symm.trans hfirst.operands)
  rw [hty, Ty.narrows_self] at hnarrows
  cases hnarrows

/-- A number and then a truth value come to the same place. -/
def numberFirst : Bytecode where
  name := "NumberFirst"
  declaring := .object
  sig := { params := [.i32], ret := .i32 }
  code := #[⟨.ldarg0, 0, .none⟩, ⟨.brfalseS, 1, .target 6⟩, ⟨.ldcI45, 3, .none⟩, ⟨.brS, 4, .target 10⟩,
    ⟨.ldarg0, 6, .none⟩, ⟨.ldarg0, 7, .none⟩, ⟨.ceq, 8, .none⟩, ⟨.ret, 10, .none⟩]

theorem numberFirst_keeps : ∃ t, importMethod numberFirst ⟨.ofMethod numberFirst, #[]⟩ = .ok () t ∧
    ⟨8⟩ ∈ t.state.body.instsOf ⟨2⟩ ∧ t.state.body.kind ⟨8⟩ = .storeVar ⟨1⟩ ∧
    (t.state.body.var ⟨1⟩).origin = .stack 0 ∧ (t.state.body.inst ⟨8⟩).operands = [.inst ⟨7⟩] ∧
    t.state.body.valueTy (.inst ⟨7⟩) = .bool ∧
    (t.state.body.var ⟨1⟩).ty.narrows (t.state.body.valueTy (.inst ⟨7⟩)) = false := by
  obtain ⟨t, h, hok⟩ := exists_of_imported? (m := numberFirst) (p := fun s => decide (⟨8⟩ ∈ s.body.instsOf ⟨2⟩ ∧
    s.body.kind ⟨8⟩ = .storeVar ⟨1⟩ ∧ s.body.var ⟨1⟩ = { ty := .i32, origin := .stack 0 } ∧
    (s.body.inst ⟨8⟩).operands = [.inst ⟨7⟩] ∧ s.body.valueTy (.inst ⟨7⟩) = .bool)) (by decide +kernel)
  obtain ⟨hmem, hkind, hvar, hoperands, hty⟩ := of_decide_eq_true hok
  refine ⟨t, h, hmem, hkind, by rw [hvar], hoperands, hty, ?_⟩
  obtain ⟨value, first, value₀, hvalue, -, hfirst, hiff⟩ :=
    stackVar_narrows_iff (d := 0) h hmem hkind (by rw [hvar])
  obtain rfl : value = .inst ⟨7⟩ := singleton_inj.1 (hvalue.symm.trans hoperands)
  rw [hfirst, hvar] at hiff
  rw [Bool.eq_false_iff, hvar, Ne, hiff]
  exact fun h => nomatch h.2

/-- A truth value and then a number come to the same place. -/
def truthFirst : Bytecode where
  name := "TruthFirst"
  declaring := .object
  sig := { params := [.i32], ret := .i32 }
  code := #[⟨.ldarg0, 0, .none⟩, ⟨.brfalseS, 1, .target 9⟩, ⟨.ldarg0, 3, .none⟩, ⟨.ldarg0, 4, .none⟩,
    ⟨.ceq, 5, .none⟩, ⟨.brS, 7, .target 10⟩, ⟨.ldcI45, 9, .none⟩, ⟨.ret, 10, .none⟩]

theorem truthFirst_narrows : ∃ t, importMethod truthFirst ⟨.ofMethod truthFirst, #[]⟩ = .ok () t ∧
    ⟨8⟩ ∈ t.state.body.instsOf ⟨2⟩ ∧ t.state.body.kind ⟨8⟩ = .storeVar ⟨1⟩ ∧
    (t.state.body.var ⟨1⟩).origin = .stack 0 ∧ (t.state.body.inst ⟨8⟩).operands = [.const (.i32 5)] ∧
    (t.state.body.var ⟨1⟩).ty.narrows (t.state.body.valueTy (.const (.i32 5))) = true := by
  obtain ⟨t, h, hok⟩ := exists_of_imported? (m := truthFirst) (p := fun s => decide (⟨8⟩ ∈ s.body.instsOf ⟨2⟩ ∧
    s.body.kind ⟨8⟩ = .storeVar ⟨1⟩ ∧ (s.body.var ⟨1⟩).origin = .stack 0 ∧
    (s.body.inst ⟨8⟩).operands = [.const (.i32 5)] ∧
    (s.body.var ⟨1⟩).ty.narrows (s.body.valueTy (.const (.i32 5))) = true)) (by decide +kernel)
  exact ⟨t, h, of_decide_eq_true hok⟩

end Import

end MethodIR
