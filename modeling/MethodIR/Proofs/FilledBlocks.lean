import MethodIR.Proofs.LoweringRules
import MethodIR.Proofs.Sources

/-!
# Blocks filled by lowering

Lowering adds instructions to the block of a segment, all of which use what is there (`Filling`). Where it
fails, the code is to blame (`keeps_perform`).
-/

namespace MethodIR.Import

open List Success Traced Body Edit Kind
open Bytecode (Action Storage ElementTy)

variable {c : Outline} {n : Nat} {s s' s'' : State} {d : InstId} {b : BlockId} {kind : Kind} {vs : List Value}
  {ty : Ty} {v : Value} {w : VarId}

def Avail (s : State) (b : BlockId) (v : Value) : Prop := s.body.hasValue v ∧
    ∀ d, v = .inst d → (d ∈ s.body.instsOf b ∨ s.Seeds b d) ∧ ∀ w, s.body.kind d ≠ .storeVar w

lemma Ground.hasInst (h : Ground c n s) (hd : d ∈ s.body.instsOf b ∨ s.Seeds b d) : s.body.hasInst d := by
  have hplaces := h.intact.wired.attached
  rcases hd with hd | ⟨k, -, -, hseed⟩
  · exact hplaces.hasInst hd
  · rcases h.stacked k _ hseed with ⟨g, r, hslots, hg, -⟩ | ⟨vars, hslots, -⟩
    · obtain ⟨⟨host, hhost⟩, -⟩ := h.guarded.hosted _ hg
      obtain rfl : d = g := by simpa using hslots
      exact hplaces.hasInst ((hplaces.mem_iff host d).2 hhost)
    · cases vars <;> simp at hslots

/-- The block of segment `n` is being filled. -/
structure Filling (c : Outline) (n : Nat) (s : State) : Prop where
  ground : Ground c n s
  lt : n < s.segments.size
  index : s.cursor.index = n
  block : s.cursor.block = (s.segment n).block
  stack : ∀ v ∈ s.cursor.stack, Avail s s.cursor.block v

lemma Filling.hasBlock (h : Filling c n s) : s.body.hasBlock s.cursor.block :=
  h.block ▸ (h.ground.parted.block n h.lt).1

structure Onward (s s' : State) : Prop extends Extends s s' where
  index : s'.cursor.index = s.cursor.index
  block : s'.cursor.block = s.cursor.block
  own : s.body.instsOf s.cursor.block ⊆ s'.body.instsOf s.cursor.block

lemma Onward.refl (s : State) : Onward s s := ⟨.refl s, rfl, rfl, Subset.refl _⟩

lemma Onward.trans (h : Onward s s') (k : Onward s' s'') : Onward s s'' := by
  refine ⟨h.toExtends.trans k.toExtends, k.index.trans h.index, k.block.trans h.block, ?_⟩
  have hown := k.own
  rw [h.block] at hown
  exact Subset.trans h.own hown

lemma Avail.onward (hv : Avail s s.cursor.block v) (h : Onward s s') (hground : Ground c n s) :
    Avail s' s'.cursor.block v := by
  refine ⟨h.grows.hasValue hv.1, fun d hd => ?_⟩
  obtain ⟨hplace, hresult⟩ := hv.2 d hd
  rw [h.block]
  refine ⟨hplace.imp (fun hmem => h.own hmem) fun hseed => hseed.mono h.segments, fun w => ?_⟩
  rw [kind, (h.grows.inst d (hground.hasInst hplace)).2.1]
  exact hresult w

lemma Filling.onward (h : Filling c n s) (hground : Ground c n s') (honward : Onward s s')
    (hstack : ∀ v ∈ s'.cursor.stack, Avail s s.cursor.block v) : Filling c n s' where
  ground := hground
  lt := honward.segments.size ▸ h.lt
  index := honward.index.trans h.index
  block := honward.block.trans (h.block.trans (honward.segments.same n).2.2.1.symm)
  stack v hv := (hstack v hv).onward honward h.ground

def filling (c : Outline) (n : Nat) : Keeping where
  m := c.m
  inv := Filling c n
  onward := Onward
  done _ s' := Ground c (n + 1) s'
  faults := c.m.Blames
  blames := id
  refl := .refl
  trans := .trans
  finish _ h := h

/-- Run in a state in which a block is being filled, `x` goes on filling it, or fails by fault of the code. -/
abbrev Keeps {α : Type} (c : Outline) (n : Nat) (s : State) (x : M α) (Q : State → α → Prop) : Prop :=
  (filling c n).Runs s x Q

/-! ## The stack -/

lemma Filling.withCursor (h : Filling c n s) (s' : State) (hsame : SameSetting s s') (hbody : s'.body = s.body)
    (hindex : s'.cursor.index = s.cursor.index) (hblock : s'.cursor.block = s.cursor.block)
    (hstack : ∀ v ∈ s'.cursor.stack, Avail s s.cursor.block v) : Filling c n s' ∧ Onward s s' := by
  have honward : Onward s s' := by
    refine ⟨⟨?_, .of_eq hsame.segments, hsame.argVars, hsame.localVars⟩, hindex, hblock, ?_⟩
    · rw [hbody]
      exact .refl _
    · rw [hbody]
      exact Subset.refl _
  exact ⟨h.onward (h.ground.withSetting hsame hbody) honward hstack, honward⟩

lemma keeps_modifyCursor {f : Cursor → Cursor} (hf : CursorEdit f)
    (hstack : Filling c n s → ∀ v ∈ (f s.cursor).stack, Avail s s.cursor.block v) :
    Keeps c n s (modifyState (·.modifyCursor f) : M Unit) fun _ _ => True := by
  refine fun log hs => ⟨failsOnly_modifyState, fun u t h => ?_⟩
  obtain rfl := modifyState_iff.1 h
  obtain ⟨hs', honward⟩ := hs.withCursor (s.modifyCursor f) ⟨rfl, rfl, rfl, rfl⟩ rfl (hf _).1 (hf _).2.1 (hstack hs)
  exact ⟨hs', honward, trivial⟩

lemma keeps_push (hv : Avail s s.cursor.block v) : Keeps c n s (push v) fun _ _ => True :=
  keeps_modifyCursor (fun _ => ⟨rfl, rfl, rfl⟩) fun hs w hw =>
    (mem_cons.1 hw).elim (fun heq => heq ▸ hv) (hs.stack w)

lemma keeps_setStack_nil : Keeps c n s (setStack []) fun _ _ => True :=
  keeps_modifyCursor (fun _ => ⟨rfl, rfl, rfl⟩) fun _ w hw => by simp at hw

/-! ## Instructions -/

lemma Ground.insert (h : Ground c n s) (hsame : SameSetting s s') {pre post : List InstId}
    (hlist : pre ++ post = s.body.instsOf b) (hbody : s'.body = s.body.withInst b pre post kind vs ty)
    (hb : s.body.hasBlock b) (harity : arityViolation? kind vs.length = none) (hphi : kind.isPhi = false)
    (hguard : kind.isGuard = false) (hknown : ∀ v ∈ vs, s.body.hasValue v)
    (hvs : ∀ d, .inst d ∈ vs → (d ∈ pre ∨ s.Seeds b d) ∧ ∀ w, s.body.kind d ≠ .storeVar w)
    (hvar : ∀ v, kind.var? = some v → s.body.hasVar v) (hedges : ∀ t ∈ kind.successors,
      s.body.hasBlock t ∧ ∃ k, c.own t = some k ∧ (k = 0 → 0 ∈ c.leaders) ∧ c.free k) {n' : Nat}
    (hexits : ∀ k, n ≤ k → k < n' → b = (s.segment k).block ∧ ExitsBy c.m s k kind)
    (hending : ∀ s₁ : State, Ground c n s₁ → SameSetting s s₁ →
      s'.body = s₁.body.attach ⟨s.body.insts.size⟩ b (pre ++ ⟨s.body.insts.size⟩ :: post) →
      s₁.body.instsOf b = s.body.instsOf b → s₁.body.kind ⟨s.body.insts.size⟩ = kind →
      s₁.body.hasBlock b → Ending n' s') : Ground c n' s' := by
  obtain ⟨s₁, hs₁, hsame₁⟩ : ∃ s₁ : State, s₁.body = s.body.addInst kind vs ty ∧ SameSetting s s₁ :=
    ⟨{ s with body := s.body.addInst kind vs ty }, rfl, rfl, rfl, rfl, rfl⟩
  have hground : Ground c n s₁ := h.addInst hsame₁ hs₁ harity hphi hknown (fun d hd => (hvs d hd).2) hvar
  have hsame₂ : SameSetting s₁ s' := ⟨hsame.segments.trans hsame₁.segments.symm,
    hsame.guards.trans hsame₁.guards.symm, hsame.argVars.trans hsame₁.argVars.symm,
    hsame.localVars.trans hsame₁.localVars.symm⟩
  have hhas : ∀ t, s₁.body.hasBlock t = s.body.hasBlock t := hs₁ ▸ (sameGraph_addInst kind vs ty).hasBlock
  have hkind : s₁.body.kind ⟨s.body.insts.size⟩ = kind := by rw [hs₁, kind_addInst, if_pos rfl]
  have hinsts : s₁.body.instsOf b = s.body.instsOf b := by rw [hs₁, instsOf_addInst]
  have hattach : s'.body = s₁.body.attach ⟨s.body.insts.size⟩ b (pre ++ ⟨s.body.insts.size⟩ :: post) := by
    rw [hbody, withInst, hs₁]
  have hnew := inst_addInst s.body kind vs ty ⟨s.body.insts.size⟩
  rw [if_pos rfl, ← hs₁] at hnew
  have hops : (s₁.body.inst ⟨s.body.insts.size⟩).operands = vs := congrArg Inst.operands hnew
  have hhome : (s₁.body.inst ⟨s.body.insts.size⟩).block = none := congrArg Inst.block hnew
  have hremoved : (s₁.body.inst ⟨s.body.insts.size⟩).isRemoved = false := congrArg Inst.isRemoved hnew
  have hcan : s₁.body.CanAttach ⟨s.body.insts.size⟩ b := by
    refine ⟨?_, hremoved, hhome, (hhas b).trans hb, fun t ht => ?_⟩
    · simp [hs₁, Body.hasInst, size_addInst]
    · rw [hkind] at ht
      exact (hhas t).trans (hedges t ht).1
  refine hground.attached hsame₂ hcan (hlist.trans hinsts.symm) hattach (fun t ht => ?_) (hkind ▸ hguard)
    (fun d hd => ?_) (hending s₁ hground hsame₁ hattach hinsts hkind ((hhas b).trans hb)) fun k hk hk' => ?_
  · rw [hkind] at ht
    obtain ⟨-, k, hk, hzero, hfree⟩ := hedges t ht
    exact ⟨k, hk, hzero, .inr (.inr (.inr hfree))⟩
  · rw [hops] at hd
    exact (hvs d hd).1.imp_right fun hseed => hseed.mono (.of_eq hsame₁.segments)
  · obtain ⟨hbk, hexits⟩ := hexits k hk hk'
    have hsegments : SameSegments s s' := .of_eq hsame.segments
    refine ⟨⟨s.body.insts.size⟩, ?_, ?_⟩
    · rw [hattach, home_attach hcan.1, if_pos rfl, hbk, (hsegments.same k).2.2.1]
    · rw [hattach, kind_attach, hkind]
      exact hexits.congr hsegments

lemma Filling.append (h : Filling c n s) (s' : State) (hsame : SameSetting s s')
    (hbody : s'.body = s.body.append s.cursor.block kind vs ty) (hcursor : s'.cursor = s.cursor)
    (harity : arityViolation? kind vs.length = none) (hphi : kind.isPhi = false)
    (hinner : kind.isTerminator = false) (hsuccs : kind.successors = []) (hvs : ∀ v ∈ vs, Avail s s.cursor.block v)
    (hvar : ∀ v, kind.var? = some v → s.body.hasVar v) : Filling c n s' ∧ Onward s s' ∧
      ((∀ v, kind ≠ .storeVar v) → Avail s' s'.cursor.block (.inst s.nextInst)) := by
  have hhas := h.hasBlock
  have hown : s'.body.instsOf s.cursor.block = s.body.instsOf s.cursor.block ++ [s.nextInst] := by
    rw [hbody, instsOf_append _ _ kind vs ty hhas, if_pos rfl]
    rfl
  have honward : Onward s s' := by
    refine ⟨⟨?_, .of_eq hsame.segments, hsame.argVars, hsame.localVars⟩, by rw [hcursor], by rw [hcursor], ?_⟩
    · rw [hbody]
      exact grows_append ..
    · rw [hown]
      exact subset_append_left _ _
  have hground : Ground c n s' := by
    have hguard : kind.isGuard = false := by
      cases kind <;> simp_all [isGuard, successors]
    refine h.ground.insert hsame (append_nil _) (hbody.trans append_eq_withInst) hhas harity hphi hguard
      (fun v hv => (hvs v hv).1) (fun d hd => (hvs _ hd).2 d rfl) hvar (by simp [hsuccs])
      (fun k hk hk' => absurd hk (by omega)) fun s₁ hs₁ hsame₁ hattach hinsts hkind hhas₁ => ?_
    have hsame' : SameSegments s₁ s' := .of_eq (hsame.segments.trans hsame₁.segments.symm)
    refine hs₁.ending.attach hsame' hhas₁ (by rw [hinsts, append_nil]) hattach (by rw [hkind, hinner])
      fun _ j hj => ?_
    have hsegment : (s₁.segment n).block = s.cursor.block := by
      rw [h.block, State.segment, hsame₁.segments, State.segment]
    refine hs₁.ending.unended n le_rfl (by rw [hsame₁.segments]; exact h.lt) j ?_
    rwa [hsegment, hinsts]
  refine ⟨h.onward hground honward (hcursor ▸ h.stack), honward, fun hresult => ?_⟩
  have hmem : s.nextInst ∈ s'.body.instsOf s'.cursor.block := by
    rw [hcursor, hown]
    simp
  refine ⟨hground.hasInst (.inl hmem), fun d hd => ?_⟩
  obtain rfl := Value.inst.inj hd
  refine ⟨.inl hmem, fun w => ?_⟩
  have hkind : s'.body.kind s.nextInst = kind := by
    rw [hbody]
    exact (append_kind s kind vs ty).1
  rw [hkind]
  exact hresult w

section Emit

variable (hinner : Inner kind) (hvs : ∀ v ∈ vs, Avail s s.cursor.block v)
  (hvar : ∀ v, kind.var? = some v → s.body.hasVar v)
  (harity : ∀ w, arityViolation? kind vs.length = some w → c.m.Blames (.violation w))

include hinner hvs hvar harity

lemma keeps_create : Keeps c n s (emit kind vs ty) fun s' v =>
    (∀ w, kind ≠ .storeVar w) → Avail s' s'.cursor.block v := by
  refine fun log hs => ⟨failsOnly_emit hs.hasBlock (fun v hv => (hvs v hv).1) (by simp [hinner.2.2]) harity,
    fun v t h => ?_⟩
  obtain ⟨rfl, -, -, harity, -, rfl⟩ := emit_eq_ok h
  exact hs.append (s.append kind vs ty) ⟨rfl, rfl, rfl, rfl⟩ rfl rfl harity hinner.1 hinner.2.1 hinner.2.2 hvs hvar

lemma keeps_emit (hresult : ∀ w, kind ≠ .storeVar w) :
    Keeps c n s (emit kind vs ty) fun s' v => Avail s' s'.cursor.block v :=
  (keeps_create hinner hvs hvar harity).weaken fun _ _ h => h hresult

end Emit

lemma keeps_emit_plain (hplain : Plain kind) (hvs : ∀ v ∈ vs, Avail s s.cursor.block v)
    (harity : ∀ w, arityViolation? kind vs.length = some w → c.m.Blames (.violation w)) :
    Keeps c n s (emit kind vs ty) fun s' v => Avail s' s'.cursor.block v := by
  obtain ⟨hinner, hvar⟩ := inner_of_plain hplain
  refine keeps_emit hinner hvs (by simp [hvar]) harity fun v hv => ?_
  simp [hv, Plain] at hplain

lemma keeps_noteUse (w : VarId) (isStore : Bool) : Keeps c n s (noteUse w isStore) fun _ _ => True := by
  refine fun log hs => ⟨failsOnly_modifyState, fun u t h => ?_⟩
  obtain rfl := modifyState_iff.1 h
  obtain ⟨hs', honward⟩ := hs.withCursor (s.noteUse w s.cursor.block (isStore && s.cursor.inRegion))
    ⟨rfl, rfl, rfl, rfl⟩ rfl rfl rfl hs.stack
  exact ⟨hs', honward, trivial⟩

lemma reads_var {m : Bytecode} (hw : s.body.hasVar w) : Reads m s (edit (var w)) fun _ => True := by
  refine fun log => ⟨failsOnly_edit (.of_ok (var_iff.2 ⟨hw, rfl, rfl⟩)), fun x t h => ?_⟩
  simp only [edit_iff, var_iff] at h
  obtain ⟨_, ⟨-, -, rfl⟩, rfl⟩ := h
  exact ⟨rfl, trivial⟩

lemma keeps_loadVar (hw : s.body.hasVar w) :
    Keeps c n s (loadVar w) fun s' v => Avail s' s'.cursor.block v := by
  refine (keeps_noteUse w false).bind fun s₁ _ _ honward _ => ?_
  have hw₁ := (honward.grows.var w hw).1
  exact .read (reads_var hw₁) fun x _ =>
    keeps_emit ⟨rfl, rfl, rfl⟩ (by simp) (by simpa [var?] using hw₁) (by simp [arityViolation?, arity?])
      (by simp)

lemma keeps_storeVar (hw : s.body.hasVar w) (hv : Avail s s.cursor.block v) :
    Keeps c n s (storeVar w v) fun _ _ => True := by
  refine (keeps_noteUse w true).bind fun s₁ _ hs honward _ => ?_
  have hw₁ := (honward.grows.var w hw).1
  have hv₁ := hv.onward honward hs.ground
  exact (keeps_create ⟨rfl, rfl, rfl⟩ (by simpa using hv₁) (by simpa [var?] using hw₁)
    (by simp [arityViolation?, arity?])).discard

lemma Filling.withVars (h : Filling c n s) (s' : State) {vars : Array Variable} (hsame : SameSetting s s')
    (hcursor : s'.cursor = s.cursor) (hbody : s'.body = { s.body with vars }) (hgrows : s.body.Grows s'.body) :
    Filling c n s' ∧ Onward s s' := by
  have hinsts : ∀ b, s'.body.instsOf b = s.body.instsOf b := fun b => by rw [hbody]; rfl
  have honward : Onward s s' := by
    refine ⟨⟨hgrows, .of_eq hsame.segments, hsame.argVars, hsame.localVars⟩, by rw [hcursor], by rw [hcursor], ?_⟩
    rw [hinsts]
    exact Subset.refl _
  have hground : Ground c n s' := by
    refine h.ground.congr (.of_eq hsame.segments) hsame.guards hsame.argVars hsame.localVars (by rw [hbody])
      (by rw [hbody]) (by rw [hbody]) (fun v hv => (hgrows.var v hv).1) ?_ fun k slots hk => .inl ?_
    · rw [hbody]
      exact h.ground.intact.withVars vars
    · rwa [State.segment, hsame.segments] at hk
  exact ⟨h.onward hground honward (hcursor ▸ h.stack), honward⟩

lemma keeps_expose (w : VarId) :
    Keeps c n s (edit (modify (·.modifyVar w fun x => { x with isExposed := true })) : M Unit)
      fun _ _ => True := by
  refine fun log hs => ⟨failsOnly_edit (.of_ok (a := ()) (modify_iff.2 rfl)), fun u t h => ?_⟩
  simp only [edit_iff, modify_iff] at h
  obtain ⟨_, rfl, rfl⟩ := h
  obtain ⟨hs', honward⟩ := hs.withVars { s with body := s.body.modifyVar w fun x => { x with isExposed := true } }
    ⟨rfl, rfl, rfl, rfl⟩ rfl rfl (grows_modifyVar w (fun _ => rfl) fun _ => rfl)
  exact ⟨hs', honward, trivial⟩

lemma keeps_varAddr (hw : s.body.hasVar w) : Keeps c n s (varAddr w) fun _ _ => True := by
  refine (keeps_noteUse w false).bind fun s₁ _ _ honward _ => (keeps_expose w).bind fun s₂ _ _ honward' _ => ?_
  have hw₂ := ((honward.trans honward').grows.var w hw).1
  refine .read (reads_var hw₂) fun x _ => ?_
  refine (keeps_emit ⟨rfl, rfl, rfl⟩ (by simp) (by simpa [var?] using hw₂)
    (by simp [arityViolation?, arity?]) (by simp)).bind ?_
  exact fun _ _ _ _ hv => keeps_push hv

end MethodIR.Import
