import MethodIR.Proofs.Actions

/-!
# Stacks between blocks

At the end of a block the values of the stack are in the variables in which every successor expects
them (`spillTo_spec`).
-/

namespace MethodIR.Import

open List Success Body.Machine Traced Tables Body State

variable {V : Type} {c : Scene V} {s s' : State} {il : Bytecode.Machine V} {n : Nat} {t t' : Trace State}
  {vars vars' : List VarId} {log : Array Event} {fresh fresh' r : Option (List VarId)}

def State.height (s : State) : Nat := s.cursor.stack.length

/-- What a segment expects, if that is known, is the stack as it is, in variables. -/
def State.Accepts (s : State) (n : Nat) : Prop :=
  (s.segment n).entryStack = none ∨ ∃ vars, s.Expects n vars ∧ vars.length = s.height

/-- A segment is asked for what it expects in vain if it does not accept the stack. -/
lemma expected?_cases (n : Nat) (t : Trace State) :
    (∃ r, expected? n t = .ok r t ∧ (r = none ∧ (t.state.segment n).entryStack = none ∨
      ∃ vars, r = some vars ∧ t.state.Expects n vars ∧ vars.length = t.state.cursor.stack.length)) ∨
    ¬ t.state.Accepts n ∧ ∃ cause, expected? n t = .error (.invalidProgram t.state.cursor.offset cause) t := by
  have hslots : ∀ read : EntrySlot → M VarId, (∀ v, read (.var v) = pure v) →
      (∀ v, read (.value v) = fail .intoHandler) → ∀ (slots : List EntrySlot) r, slots.mapM read t = r →
      (∃ vars, slots = vars.map .var ∧ r = .ok vars t) ∨ (∃ v, .value v ∈ slots) ∧
        r = .error (.invalidProgram t.state.cursor.offset .intoHandler) t := by
    intro read hread hfail slots
    induction slots with
    | nil =>
      rintro _ rfl
      exact .inl ⟨[], rfl, mapM_nil_iff.2 ⟨rfl, rfl⟩⟩
    | cons slot slots ih =>
      rintro _ rfl
      rw [mapM_cons]
      cases slot with
      | value v =>
        rw [hfail]
        exact .inr ⟨⟨v, mem_cons_self⟩, rfl⟩
      | var v =>
        rw [hread, pure_bind]
        obtain ⟨vars, rfl, h⟩ | ⟨⟨w, hw⟩, h⟩ := ih _ rfl
        · exact .inl ⟨v :: vars, rfl, bind_iff.2 ⟨vars, t, h, rfl⟩⟩
        · exact .inr ⟨⟨w, mem_cons_of_mem _ hw⟩, by simp [bind, EStateM.bind, h]⟩
  have hget : ∀ f : State → M (Option (List VarId)), (getState >>= f) t = f t.state t := fun _ => rfl
  cases hentry : (t.state.segment n).entryStack with
  | none => exact .inl ⟨none, by simp [expected?, hentry], .inl ⟨rfl, rfl⟩⟩
  | some slots =>
    have haccepts : t.state.Accepts n → ∃ vars : List VarId, slots = vars.map .var ∧ vars.length = t.state.height := by
      rintro (hnone | ⟨vars, hexpects, hlength⟩)
      · simp [hnone] at hentry
      · exact ⟨vars, Option.some.inj (hentry.symm.trans hexpects), hlength⟩
    simp only [expected?, hget, hentry]
    by_cases hlength : slots.length = t.state.cursor.stack.length
    · simp only [hlength, ne_eq, not_true_eq_false, if_false, Functor.map, EStateM.map]
      generalize hmap : (slots.mapM _ : M (List VarId)) t = r
      obtain ⟨vars, rfl, rfl⟩ | ⟨⟨v, hv⟩, rfl⟩ := hslots _ (fun _ => rfl) (fun _ => rfl) slots r hmap
      · exact .inl ⟨some vars, rfl, .inr ⟨vars, rfl, hentry, by simpa using hlength⟩⟩
      · refine .inr ⟨fun h => ?_, _, rfl⟩
        obtain ⟨vars, rfl, -⟩ := haccepts h
        simp at hv
    · refine .inr ⟨fun h => ?_, _, by simp only [ne_eq, hlength, not_false_eq_true, if_true]; rfl⟩
      obtain ⟨vars, rfl, hvars⟩ := haccepts h
      exact hlength ((length_map _).trans hvars)

lemma expected?_eq_ok (h : expected? n t = .ok r t') : t' = t ∧ (r = none ∧ (t.state.segment n).entryStack = none ∨
        ∃ vars, r = some vars ∧ t.state.Expects n vars ∧
          vars.length = t.state.cursor.stack.length) := by
  obtain ⟨r', hok, hr⟩ | ⟨-, cause, herror⟩ := expected?_cases n t
  · rw [hok] at h
    cases h
    exact ⟨rfl, hr⟩
  · rw [herror] at h
    cases h

/-- The variables are new, and have the types of the values on the stack. -/
lemma freshVars_eq_ok (h : freshVars t = .ok vars t') :
    vars.length = t.state.cursor.stack.length ∧ vars.Nodup ∧ ∃ decls,
      t' = ⟨{ t.state with body := { t.state.body with vars := decls } }, t.log⟩ ∧
      t.state.body.Grows { t.state.body with vars := decls } ∧
      (∀ v ∈ vars, t.state.body.vars.size ≤ v.index ∧ v.index < decls.size) ∧
      ∀ x ∈ t.state.cursor.stack.reverse.zip vars, t.state.body.hasValue x.1 ∧
        (decls.getD x.2.index default).ty = t.state.body.valueTy x.1 := by
  have hall : ∀ (xs : List (Value × Nat)) (vars : List VarId) (t t' : Trace State), (xs.mapM (fun x => do
        let ty ← valueTy x.1
        edit (Edit.createVar ty (.stack x.2))) : M _) t = .ok vars t' →
      vars = (range' t.state.body.vars.size xs.length).map VarId.mk ∧ ∃ decls,
        t' = ⟨{ t.state with body := { t.state.body with vars := decls } }, t.log⟩ ∧
        t.state.body.Grows { t.state.body with vars := decls } ∧
        decls.size = t.state.body.vars.size + xs.length ∧
        ∀ x ∈ (xs.map Prod.fst).zip vars, t.state.body.hasValue x.1 ∧
          (decls.getD x.2.index default).ty = t.state.body.valueTy x.1 := by
    intro xs
    induction xs with
    | nil =>
      intro vars t t' h
      obtain ⟨rfl, rfl⟩ := mapM_nil_iff.1 h
      exact ⟨rfl, _, rfl, .refl _, rfl, by simp⟩
    | cons x xs ih =>
      intro vars t t' h
      obtain ⟨v, t₁, hv, rest, hrest, rfl⟩ := mapM_cons_iff.1 h
      simp only [valueTy, bind_iff, edit_iff, Edit.valueTy_iff, Edit.createVar_iff] at hv
      obtain ⟨_, _, ⟨_, ⟨hhas, rfl, rfl⟩, rfl⟩, body, hadd, rfl⟩ := hv
      obtain ⟨rfl, rfl⟩ := Prod.mk.inj hadd
      obtain ⟨hvars, decls, rfl, hg, hsize, htyped⟩ := ih rest _ t' hrest
      simp only [Array.size_push] at hsize hvars
      refine ⟨?_, decls, rfl, (grows_addVar _ (.stack x.2)).trans hg, by rw [hsize, length_cons]; omega,
        forall_mem_cons.2 ⟨⟨hhas, ?_⟩, htyped⟩⟩
      · rw [length_cons, range'_succ, map_cons, hvars]
      · refine (hg.var ⟨t.state.body.vars.size⟩ (by simp [hasVar])).2.1.trans ?_
        simp [var]
  simp only [freshVars, getState_bind_iff] at h
  obtain ⟨hvars, decls, rfl, hg, hsize, htyped⟩ := hall _ _ _ _ h
  refine ⟨by simp [hvars], ?_, decls, rfl, hg, fun v hv => ?_, by simpa using htyped⟩
  · rw [hvars]
    exact Nodup.map (fun a b hab => congrArg VarId.index hab) nodup_range'
  · rw [hvars] at hv
    obtain ⟨k, hk, rfl⟩ := mem_map.1 hv
    rw [mem_range'_1] at hk
    exact ⟨hk.1, hsize ▸ hk.2⟩

lemma storeAll_spec (vars : List VarId) : ∀ (vals : List Value) (s : State) (log : Array Event)
    (u : Unit) (t : Trace State),
    ((vals.zip vars).forM (fun (value, v) => storeVar v value) : M Unit) ⟨s, log⟩ = .ok u t → c.At s il →
    vals.length = vars.length → vars.Nodup → (∀ v ∈ vars, ∀ slot, s.frameVar? slot ≠ some v) →
    (∀ x ∈ vals, s.body.hasValue x) → c.Later s t.state ∧ c.At t.state il ∧ t.state.cursor = s.cursor ∧
      vars.map (c.ran t.state.body).vars = vals.map (fun x => (c.value s.body x).1) ∧
      ∀ v, v ∉ vars → (c.ran t.state.body).vars v = (c.ran s.body).vars v := by
  induction vars with
  | nil =>
    intro vals s log u t h hat hlength _ _ _
    obtain rfl := length_eq_zero_iff.1 hlength
    obtain ⟨-, rfl⟩ := pure_iff.1 h
    exact ⟨.refl s, hat, rfl, rfl, fun _ _ => rfl⟩
  | cons v vars ih =>
    intro vals s log u t h hat hlength hnodup hframe hvals
    obtain ⟨x, vals, rfl⟩ := exists_cons_of_length_eq_add_one hlength
    change (storeVar v x >>= fun _ => (vals.zip vars).forM fun (value, v) => storeVar v value) _ = _ at h
    obtain ⟨_, t₁, hstore, hrest⟩ := bind_iff.1 h
    obtain ⟨usage, ht₁⟩ := storeVar_eq_ok hstore
    obtain ⟨s₁, log₁⟩ := t₁
    obtain rfl : s₁ = _ := ht₁
    have hran : c.ran (s.append (.storeVar v) [x] .void).body = _ := hat.ran_storeVar v x
    have hlater : c.Later s (s.append (.storeVar v) [x] .void) := hat.later_append
    have hstored₁ : c.At (s.append (.storeVar v) [x] .void) il := hat.append_storeStack (hframe v (by simp))
    have hat₁ := hstored₁.withUsage usage
    rw [nodup_cons] at hnodup
    obtain ⟨hlater', hat', hcursor, hstored, hkept⟩ := ih vals _ _ u t hrest hat₁
      (by simpa using hlength) hnodup.2 (fun w hw => hframe w (by simp [hw]))
      (fun y hy => hlater.grows.hasValue (hvals y (by simp [hy])))
    refine ⟨(hlater.withUsage usage).trans hlater', hat', hcursor, ?_, fun w hw => ?_⟩
    · rw [map_cons, map_cons, hkept v hnodup.1, hstored]
      refine congrArg₂ _ ?_ (map_congr_left fun y hy => ?_)
      · change (c.ran (s.append (.storeVar v) [x] .void).body).vars v = _
        rw [hran]
        exact Function.update_self ..
      · exact congrArg Prod.fst (hlater.value (hvals y (by simp [hy])))
    · rw [mem_cons, not_or] at hw
      rw [hkept w hw.2]
      change (c.ran (s.append (.storeVar v) [x] .void).body).vars w = _
      rw [hran]
      exact Function.update_of_ne hw.1 ..

lemma segment_modifySegment (s : State) (n k : Nat) (f : Segment → Segment) : (s.modifySegment n f).segment k =
      if n = k ∧ k < s.segments.size then f (s.segment k) else s.segment k := by
  rw [State.segment, State.modifySegment, getD_modify]
  rfl

def State.expect (s : State) (n : Nat) (vars : List VarId) : State :=
  s.modifySegment n fun x => { x with entryStack := some (vars.map .var) }

lemma entryStack_expect (s : State) (vars : List VarId) (hn : n < s.segments.size) (k : Nat) :
    ((s.expect n vars).segment k).entryStack =
      if k = n then some (vars.map .var) else (s.segment k).entryStack := by
  rw [expect, segment_modifySegment]
  by_cases hk : k = n
  · rw [if_pos ⟨hk.symm, hk ▸ hn⟩, if_pos hk]
  · rw [if_neg (fun h => hk h.1.symm), if_neg hk]

lemma map_var_inj (h : vars.map EntrySlot.var = vars'.map .var) : vars = vars' :=
  map_injective_iff.2 (fun _ _ h => EntrySlot.var.inj h) h

lemma expects_expect (hn : n < s.segments.size) {k : Nat} :
    (s.expect n vars).Expects k vars' ↔ if k = n then vars = vars' else s.Expects k vars' := by
  rw [State.Expects, entryStack_expect s vars hn]
  split
  · exact ⟨fun h => map_var_inj (Option.some.inj h), fun h => by rw [h]⟩
  · exact Iff.rfl

lemma StackVars.expect (h : StackVars s) (hn : n < s.segments.size)
    (hnodup : vars.Nodup) (hvars : ∀ v ∈ vars, s.body.hasVar v ∧ ∀ slot, s.frameVar? slot ≠ some v)
    (hapart : ∀ k vars', s.Expects k vars' → vars = vars' ∨ ∀ v ∈ vars, v ∉ vars') :
    StackVars (s.expect n vars) := by
  refine ⟨fun k slots hk slot hslot => ?_, fun k w hk => ?_, fun k k' w w' hk hk' => ?_⟩
  · rw [entryStack_expect s vars hn] at hk
    split at hk
    · obtain rfl := Option.some.inj hk
      obtain ⟨v, hv, rfl⟩ := mem_map.1 hslot
      exact (hvars v hv).1
    · exact h.known k slots hk slot hslot
  · rw [expects_expect hn] at hk
    split at hk
    · exact hk ▸ ⟨hnodup, fun v hv => (hvars v hv).2⟩
    · exact h.vars k w hk
  · rw [expects_expect hn] at hk hk'
    split at hk
    · split at hk'
      · exact .inl (hk.symm.trans hk')
      · exact hk ▸ hapart k' w' hk'
    · split at hk'
      · rcases hapart k w hk with heq | hne
        · exact .inl (heq.symm.trans hk')
        · exact .inr fun v hv hv' => hne v (hk' ▸ hv') hv
      · exact h.apart k k' w w' hk hk'

lemma segmentsGrow_expect (hn : n < s.segments.size)
    (hold : ∀ slots, (s.segment n).entryStack = some slots → slots = vars.map .var) :
    SegmentsGrow s (s.expect n vars) := by
  refine ⟨⟨by simp [expect, modifySegment], fun k => ?_⟩, fun k slots hk => ?_⟩
  · rw [expect, segment_modifySegment]
    split <;> exact ⟨rfl, rfl, rfl, rfl⟩
  · rw [entryStack_expect s vars hn]
    split
    · next hkn =>
      subst hkn
      rw [hold slots hk]
    · exact hk

lemma Scene.At.expect (h : c.At s il) (hn : n < s.segments.size)
    (hnone : (s.segment n).entryStack = none) (hnodup : vars.Nodup)
    (hvars : ∀ v ∈ vars, s.body.hasVar v ∧ ∀ slot, s.frameVar? slot ≠ some v)
    (hapart : ∀ k vars', s.Expects k vars' → vars = vars' ∨ ∀ v ∈ vars, v ∉ vars') :
    c.At (s.expect n vars) il ∧ c.Later s (s.expect n vars) :=
  ⟨⟨⟨h.framed.returnTy, h.framed.var⟩, h.block, h.hasBlock, h.skip, h.closed, h.values, h.stack,
    h.slots, h.modifiers, h.effects, h.choices, h.still,
    h.stackVars.expect hn hnodup hvars hapart⟩, ⟨.refl _, segmentsGrow_expect hn (by simp [hnone]), rfl, rfl⟩,
    fun _ _ => rfl, rfl, fun _ _ => rfl, prefix_rfl⟩

lemma StackVars.nodup (h : StackVars s) (hn : s.Expects n vars) :
    vars.Nodup ∧ ∀ v ∈ vars, s.body.hasVar v ∧ ∀ slot, s.frameVar? slot ≠ some v :=
  (h.vars n vars hn).imp_right fun hvars v hv => ⟨h.known n _ hn _ (mem_map_of_mem hv), hvars v hv⟩

lemma State.Expects.later (h : s.Expects n vars) (hlater : c.Later s s') : s'.Expects n vars :=
  hlater.segments.expects n _ h

lemma slotsFor_eq_ok (h : slotsFor fresh n t = .ok (vars, fresh') t') :
    t' = t ∧ fresh' = fresh ∧ t.state.Expects n vars ∧ vars.length = t.state.cursor.stack.length ∨
      fresh' = some vars ∧ (t.state.segment n).entryStack = none ∧ ∃ t₁ : Trace State,
        t' = ⟨t₁.state.expect n vars, t₁.log⟩ ∧
          (fresh = some vars ∧ t₁ = t ∨ fresh = none ∧ freshVars t = .ok vars t₁) := by
  obtain ⟨r, t₁, hr, h⟩ := bind_iff.1 h
  obtain ⟨rfl, ⟨rfl, hnone⟩ | ⟨vars', rfl, hexpects, hlength⟩⟩ := expected?_eq_ok hr
  · cases fresh with
    | some ws =>
      simp only [pure_bind, bind_iff, modifyState_iff, pure_iff, Prod.mk.injEq] at h
      obtain ⟨_, _, rfl, ⟨rfl, rfl⟩, rfl⟩ := h
      exact .inr ⟨rfl, hnone, _, rfl, .inl ⟨rfl, rfl⟩⟩
    | none =>
      simp only [bind_iff, modifyState_iff, pure_iff, Prod.mk.injEq] at h
      obtain ⟨_, t₂, hvars, _, _, rfl, ⟨rfl, rfl⟩, rfl⟩ := h
      exact .inr ⟨rfl, hnone, t₂, rfl, .inr ⟨rfl, hvars⟩⟩
  · simp only [pure_iff, Prod.mk.injEq] at h
    obtain ⟨⟨rfl, rfl⟩, rfl⟩ := h
    exact .inl ⟨rfl, rfl, hexpects, hlength⟩

def SharedFresh (s : State) (fresh : Option (List VarId)) : Prop :=
  ∀ vars, fresh = some vars → (∃ n, s.Expects n vars) ∧ vars.length = s.cursor.stack.length

lemma slotsFor_spec (h : slotsFor fresh n ⟨s, log⟩ = .ok (vars, fresh') t)
    (hat : c.At s il) (hn : n < s.segments.size) (hfresh : SharedFresh s fresh) :
    c.Later s t.state ∧ c.At t.state il ∧ t.state.cursor = s.cursor ∧
      c.ran t.state.body = c.ran s.body ∧ t.state.Expects n vars ∧
      vars.length = s.cursor.stack.length ∧ SharedFresh t.state fresh' := by
  obtain ⟨rfl, rfl, hexpects, hlength⟩ | ⟨rfl, hnone, t₁, rfl, ⟨rfl, rfl⟩ | ⟨rfl, hvars⟩⟩ := slotsFor_eq_ok h
  · exact ⟨.refl s, hat, rfl, rfl, hexpects, hlength, hfresh⟩
  · obtain ⟨⟨k, hk⟩, hlength⟩ := hfresh vars rfl
    obtain ⟨hnodup, hown⟩ := hat.stackVars.nodup hk
    obtain ⟨hat', hlater⟩ := hat.expect hn hnone hnodup hown fun k' vars' hk' =>
      hat.stackVars.apart k k' vars vars' hk hk'
    have hexpects : (s.expect n vars).Expects n vars := by
      rw [expects_expect hn, if_pos rfl]
    refine ⟨hlater, hat', rfl, rfl, hexpects, hlength, ?_⟩
    rintro _ ⟨⟩
    exact ⟨⟨n, hexpects⟩, hlength⟩
  · obtain ⟨hlength, hnodup, decls, rfl, hg, hnew, -⟩ := freshVars_eq_ok hvars
    obtain ⟨hran, hat₁, hlater₁⟩ := hat.withBody hg fun _ => rfl
    have hold : ∀ v, s.body.hasVar v → v ∉ vars := by
      intro v hv hmem
      have := (hnew v hmem).1
      simp only [hasVar, decide_eq_true_eq] at hv
      exact absurd hv (not_lt.2 this)
    obtain ⟨hat', hlater⟩ := hat₁.expect (n := n) hn hnone hnodup
      (fun v hv => ⟨decide_eq_true (hnew v hv).2, fun slot hslot => hold v (hat.framed.var slot v hslot).1 hv⟩)
      fun k w hk => .inr fun v hv hw => hold v ((hat.stackVars.nodup hk).2 v hw).1 hv
    have hexpects : (expect { s with body := { s.body with vars := decls } } n vars).Expects n vars :=
      (expects_expect (by exact hn)).2 (by rw [if_pos rfl])
    refine ⟨hlater₁.trans hlater, hat', rfl, hran, hexpects, hlength, ?_⟩
    rintro _ ⟨⟩
    exact ⟨⟨n, hexpects⟩, hlength⟩

variable (c) in
def Scene.Hold (s : State) (il : Bytecode.Machine V) (vars : List VarId) : Prop :=
  vars.map (c.ran s.body).vars = (il.stack.map Prod.fst).reverse

variable (c) in
def Scene.Written (s : State) (il : Bytecode.Machine V) (written : List (List VarId)) : Prop :=
  ∀ vars ∈ written, (∃ n, s.Expects n vars) ∧ c.Hold s il vars

variable {fresh fresh' : Option (List VarId)} {written written' : List (List VarId)} {ns : List Nat} {u : Unit}

lemma spillFor_spec (h : spillFor fresh written n ⟨s, log⟩ = .ok (fresh', written') t) (hat : c.At s il)
    (hn : n < s.segments.size) (hfresh : SharedFresh s fresh) (hwritten : c.Written s il written) :
    c.Later s t.state ∧ c.At t.state il ∧ SharedFresh t.state fresh' ∧ c.Written t.state il written' ∧
      written ⊆ written' ∧ ∃ vars ∈ written', t.state.Expects n vars := by
  obtain ⟨⟨vars, fresh''⟩, t₁, hslots, h⟩ := bind_iff.1 h
  obtain ⟨hlater₁, hat₁, hcursor₁, hran₁, hexpects, hlength, hfresh'⟩ := slotsFor_spec hslots hat hn hfresh
  have hwritten₁ : c.Written t₁.state il written := by
    intro w hw
    obtain ⟨⟨k, hk⟩, hhold⟩ := hwritten w hw
    exact ⟨⟨k, hk.later hlater₁⟩, by rwa [Scene.Hold, hran₁]⟩
  by_cases hmem : vars ∈ written
  · simp only [hmem, if_true, pure_iff, Prod.mk.injEq] at h
    obtain ⟨⟨rfl, rfl⟩, rfl⟩ := h
    exact ⟨hlater₁, hat₁, hfresh', hwritten₁, fun _ => id, vars, hmem, hexpects⟩
  · simp only [hmem, if_false, bind_iff, getState_iff, pure_iff, Prod.mk.injEq] at h
    obtain ⟨_, _, ⟨rfl, rfl⟩, _, t₂, hstore, ⟨rfl, rfl⟩, rfl⟩ := h
    obtain ⟨hnodup, hown⟩ := hat₁.stackVars.nodup hexpects
    obtain ⟨hlater₂, hat₂, hcursor₂, hstored, hother⟩ := storeAll_spec vars _ _ _ _ _
      hstore hat₁ (by rw [length_reverse, hcursor₁, hlength]) hnodup
      (fun v hv => (hown v hv).2) (fun x hx => hat₁.values x (mem_reverse.1 hx))
    have hhold : c.Hold t₂.state il vars := by
      rw [Scene.Hold, hstored, hat₁.stack, map_map, map_reverse]
      rfl
    refine ⟨hlater₁.trans hlater₂, hat₂, fun w hw => ?_, fun w hw => ?_, subset_cons_self _ _, vars, mem_cons_self,
      hexpects.later hlater₂⟩
    · obtain ⟨⟨k, hk⟩, hwlength⟩ := hfresh' w hw
      exact ⟨⟨k, hk.later hlater₂⟩, hwlength.trans (by rw [hcursor₂])⟩
    · rcases mem_cons.1 hw with rfl | hw
      · exact ⟨⟨n, hexpects.later hlater₂⟩, hhold⟩
      · -- what was stored for the segments before is apart from these variables
        obtain ⟨⟨k, hk⟩, hwhold⟩ := hwritten₁ w hw
        refine ⟨⟨k, hk.later hlater₂⟩, ?_⟩
        rcases hat₁.stackVars.apart k n w vars hk hexpects with rfl | hapart
        · exact hhold
        · rw [Scene.Hold, ← hwhold]
          exact map_congr_left fun v hv => hother v (hapart v hv)

lemma spillTo_spec (h : spillTo fresh written ns ⟨s, log⟩ = .ok u t) (hat : c.At s il)
    (hns : ∀ n ∈ ns, n < s.segments.size) (hfresh : SharedFresh s fresh) (hwritten : c.Written s il written) :
    c.Later s t.state ∧ c.At t.state il ∧ ∃ written', c.Written t.state il written' ∧ written ⊆ written' ∧
      ∀ n ∈ ns, ∃ vars ∈ written', t.state.Expects n vars := by
  induction ns generalizing fresh written s log with
  | nil =>
    obtain ⟨-, rfl⟩ := pure_iff.1 h
    exact ⟨.refl s, hat, written, hwritten, fun _ => id, by simp⟩
  | cons n ns ih =>
    obtain ⟨⟨fresh', written₁⟩, t₁, hfirst, h⟩ := bind_iff.1 h
    obtain ⟨hlater₁, hat₁, hfresh₁, hwritten₁, hsub, vars, hvars, hexpects⟩ :=
      spillFor_spec hfirst hat (hns n (by simp)) hfresh hwritten
    obtain ⟨hlater, hat', written', hwritten', hsub', hrest⟩ := ih (s := t₁.state) h hat₁
      (fun k hk => hlater₁.segments.size ▸ hns k (by simp [hk])) hfresh₁ hwritten₁
    refine ⟨hlater₁.trans hlater, hat', written', hwritten', fun _ hw => hsub' (hsub hw), forall_mem_cons.2 ⟨?_, hrest⟩⟩
    exact ⟨vars, hsub' hvars, hexpects.later hlater⟩

lemma spill_spec (h : spill ns ⟨s, log⟩ = .ok u t) (hat : c.At s il) (hns : ∀ n ∈ ns, n < s.segments.size) :
    c.Later s t.state ∧ c.At t.state { il with stack := [] } ∧
      ∀ n ∈ ns, ∃ vars, t.state.Expects n vars ∧ c.Hold t.state il vars := by
  simp only [spill, bind_iff] at h
  obtain ⟨_, t₁, hspill, hset⟩ := h
  obtain ⟨hlater, hat₁, written, hwritten, -, hexpects⟩ := spillTo_spec hspill hat hns (by rintro _ ⟨⟩) fun _ h => by
    cases h
  obtain ⟨hlater', _, il', hclear, hat', -⟩ := sim_setStack_nil t₁.log _ t hset il hat₁
  obtain ⟨-, rfl⟩ := Prod.mk.inj (Option.some.inj hclear)
  obtain rfl := modifyState_iff.1 hset
  refine ⟨hlater.trans hlater', hat', fun n hn => ?_⟩
  obtain ⟨vars, hvars, hn⟩ := hexpects n hn
  exact ⟨vars, hn, (hwritten vars hvars).2⟩

end MethodIR.Import
