import MethodIR.Proofs.FilledBlocks

/-!
# Blocks ended by lowering

Before a block is ended the stack is stored to variables for every segment that is entered (`keeps_spill`). Lowering
keeps all there is to keep, or fails by fault of the code (`lowerSegment_ground`), and so does an import once the
guards are created (`importMethod_ground`).
-/

namespace MethodIR.Import

open List Success Traced Body Edit Kind State
open Bytecode (Action Instruction)

variable {c : Outline} {n k : Nat} {s s' : State} {kind : Kind} {vs : List Value} {v : Value}
  {vars : List VarId} {fresh : Option (List VarId)} {written : List (List VarId)}

/-! ## Stacks between blocks -/

lemma Ground.free_of_expects (h : Ground c n s) (hk : k < s.segments.size) (hexpects : s.Expects k vars) :
    c.free k ∧ ∀ v ∈ vars, s.body.hasVar v := by
  refine ⟨(h.free_iff k hk).2 fun d hd => ?_, fun v hv => ?_⟩
  · rw [hexpects] at hd
    cases vars <;> simp at hd
  · rcases h.stacked k _ hexpects with ⟨g, r, hslots, -, -⟩ | ⟨vars', hslots, hhas⟩
    · cases vars <;> simp at hslots
    · rw [map_var_inj hslots] at hv
      exact hhas v hv

lemma Filling.expect (h : Filling c n s) (hk : k < s.segments.size)
    (hnone : (s.segment k).entryStack = none) (hvars : ∀ v ∈ vars, s.body.hasVar v) :
    Filling c n (s.expect k vars) ∧ Onward s (s.expect k vars) := by
  have hsegments : SegmentsGrow s (s.expect k vars) := segmentsGrow_expect hk (by simp [hnone])
  have honward : Onward s (s.expect k vars) := ⟨⟨.refl _, hsegments, rfl, rfl⟩, rfl, rfl, Subset.refl _⟩
  refine ⟨h.onward ?_ honward h.stack, honward⟩
  refine h.ground.congr hsegments rfl rfl rfl rfl rfl rfl (fun _ hv => hv) h.ground.intact fun j slots hj => ?_
  rw [entryStack_expect s vars hk] at hj
  split at hj
  · exact .inr ⟨vars, (Option.some.inj hj).symm, hvars⟩
  · exact .inl hj

lemma keeps_expect (hk : k < s.segments.size) (hnone : (s.segment k).entryStack = none)
    (hvars : ∀ v ∈ vars, s.body.hasVar v) :
    Keeps c n s (modifyState (·.expect k vars) : M Unit) fun _ _ => c.free k := by
  refine fun log hs => ⟨failsOnly_modifyState, fun u t h => ?_⟩
  obtain rfl := modifyState_iff.1 h
  obtain ⟨hs', honward⟩ := hs.expect hk hnone hvars
  refine ⟨hs', honward, (hs.ground.free_iff k hk).2 fun d hd => ?_⟩
  simp [hnone] at hd

lemma failsOnly_freshVars {P : Error → Prop} {log : Array Event} (h : ∀ v ∈ s.cursor.stack, s.body.hasValue v) :
    FailsOnly P freshVars ⟨s, log⟩ := by
  refine failsOnly_getState_bind ?_
  refine .mapM (I := fun t => s.body.Grows t.state.body) _ (.refl _) fun x hx t hgrows => ⟨?_, fun v t' hv => ?_⟩
  · have hvalue := hgrows.hasValue (h x.1 (mem_reverse.1 (fst_mem_of_mem_zipIdx hx)))
    refine .bind (failsOnly_edit (.of_ok (valueTy_iff.2 ⟨hvalue, rfl, rfl⟩))) fun _ _ _ => ?_
    exact failsOnly_edit (.of_ok (createVar_iff.2 rfl))
  · simp only [valueTy, bind_iff, edit_iff, valueTy_iff, createVar_iff] at hv
    obtain ⟨_, _, ⟨_, ⟨-, -, rfl⟩, rfl⟩, body, hadd, rfl⟩ := hv
    obtain ⟨-, rfl⟩ := Prod.mk.inj hadd
    exact hgrows.trans (grows_addVar _ _)

lemma keeps_freshVars : Keeps c n s freshVars fun s' vars =>
    (∀ v ∈ vars, s'.body.hasVar v) ∧ s'.segments = s.segments := by
  refine fun log hs => ⟨failsOnly_freshVars fun v hv => (hs.stack v hv).1, fun vars t h => ?_⟩
  obtain ⟨-, -, decls, rfl, hgrows, hnew, -⟩ := freshVars_eq_ok h
  obtain ⟨hs', honward⟩ := hs.withVars { s with body := { s.body with vars := decls } } ⟨rfl, rfl, rfl, rfl⟩ rfl rfl hgrows
  exact ⟨hs', honward, fun v hv => decide_eq_true (hnew v hv).2, rfl⟩

def KnownVars (s : State) (fresh : Option (List VarId)) : Prop :=
  ∀ vars, fresh = some vars → ∀ v ∈ vars, s.body.hasVar v

def Slotted (c : Outline) (k : Nat) (s : State) (r : List VarId × Option (List VarId)) : Prop :=
  c.free k ∧ (∀ v ∈ r.1, s.body.hasVar v) ∧ KnownVars s r.2

lemma keeps_tell (hk : k < s.segments.size) (hnone : (s.segment k).entryStack = none)
    (hvars : ∀ v ∈ vars, s.body.hasVar v) :
    Keeps c n s (do modifyState (·.expect k vars); pure (vars, some vars)) (Slotted c k) := by
  refine (keeps_expect hk hnone hvars).bind fun s₁ _ _ honward hfree => ?_
  have hvars₁ : ∀ v ∈ vars, s₁.body.hasVar v := fun v hv => (honward.grows.var v (hvars v hv)).1
  refine .ret ⟨hfree, hvars₁, ?_⟩
  rintro _ ⟨⟩
  exact hvars₁

lemma reads_expected? (m : Bytecode) : Reads m s (expected? k) fun r =>
    r = none ∧ (s.segment k).entryStack = none ∨ ∃ vars, r = some vars ∧ s.Expects k vars := by
  refine fun log => ⟨fun e t he => ?_, fun r t h => ?_⟩
  · obtain ⟨_, hok, -⟩ | ⟨-, cause, herror⟩ := expected?_cases k ⟨s, log⟩
    · simp [hok] at he
    · obtain ⟨rfl, -⟩ := EStateM.Result.error.inj (herror.symm.trans he)
      exact .inl rfl
  · obtain ⟨rfl, hr⟩ := expected?_eq_ok h
    refine ⟨rfl, hr.imp_right ?_⟩
    rintro ⟨vars, hr, hexpects, -⟩
    exact ⟨vars, hr, hexpects⟩

lemma keeps_slotsFor (hk : k < s.segments.size) (hfresh : KnownVars s fresh) :
    Keeps c n s (slotsFor fresh k) (Slotted c k) := by
  refine .assume fun hs => .read (reads_expected? c.m) fun r hr => ?_
  rcases hr with ⟨rfl, hnone⟩ | ⟨vars, rfl, hexpects⟩
  · cases fresh with
    | some vars => exact keeps_tell hk hnone (hfresh vars rfl)
    | none =>
      refine keeps_freshVars.bind fun s₁ vars _ _ hvars => ?_
      obtain ⟨hvars, hsegments⟩ := hvars
      refine keeps_tell (hsegments ▸ hk) ?_ hvars
      rw [State.segment, hsegments]
      exact hnone
  · obtain ⟨hfree, hvars⟩ := hs.ground.free_of_expects hk hexpects
    exact Keeping.Runs.ret ⟨hfree, hvars, hfresh⟩

lemma keeps_storeAll (xs : List (Value × VarId)) : ∀ s : State,
    (∀ x ∈ xs, Avail s s.cursor.block x.1 ∧ s.body.hasVar x.2) →
    Keeps c n s (xs.forM fun (value, v) => storeVar v value) fun _ _ => True := by
  induction xs with
  | nil => exact fun s _ => .ret trivial
  | cons x xs ih =>
    intro s hxs
    obtain ⟨hvalue, hvar⟩ := hxs x mem_cons_self
    refine (keeps_storeVar hvar hvalue).bind fun s₁ _ hs honward _ => ih s₁ fun y hy => ?_
    obtain ⟨hvalue, hvar⟩ := hxs y (mem_cons_of_mem _ hy)
    exact ⟨hvalue.onward honward hs.ground, (honward.grows.var _ hvar).1⟩

lemma keeps_spillFor (hk : k < s.segments.size) (hfresh : KnownVars s fresh) :
    Keeps c n s (spillFor fresh written k) fun s' r => c.free k ∧ KnownVars s' r.1 := by
  refine (keeps_slotsFor hk hfresh).bind fun s₁ r _ _ hr => ?_
  obtain ⟨hfree, hvars, hknown⟩ := hr
  dsimp only
  split
  · exact .ret ⟨hfree, hknown⟩
  · refine .assume fun hs => ?_
    have hstores : ∀ x ∈ s₁.cursor.stack.reverse.zip r.1,
        Avail s₁ s₁.cursor.block x.1 ∧ s₁.body.hasVar x.2 := by
      rintro ⟨value, w⟩ hx
      obtain ⟨hvalue, hw⟩ := of_mem_zip hx
      exact ⟨hs.stack value (mem_reverse.1 hvalue), hvars w hw⟩
    refine .read reads_state fun a ha => ?_
    rw [ha]
    refine (keeps_storeAll _ s₁ hstores).bind fun s₂ _ _ honward _ => .ret ⟨hfree, fun vars hr v hv => ?_⟩
    exact (honward.grows.var v (hknown vars hr v hv)).1

section

variable (ks : List Nat) (hks : ∀ k ∈ ks, k < s.segments.size)
include ks hks

lemma keeps_spillTo (hfresh : KnownVars s fresh) :
    Keeps c n s (spillTo fresh written ks) fun _ _ => ∀ k ∈ ks, c.free k := by
  induction ks generalizing fresh written s with
  | nil => exact .ret (by simp)
  | cons k ks ih =>
    refine (keeps_spillFor (hks k mem_cons_self) hfresh).bind fun s₁ r _ honward hr => ?_
    refine (ih (fun j hj => ?_) hr.2).weaken fun _ _ h => forall_mem_cons.2 ⟨hr.1, h⟩
    exact honward.segments.size.symm ▸ hks j (mem_cons_of_mem _ hj)

lemma keeps_spill : Keeps c n s (spill ks) fun _ _ => ∀ k ∈ ks, c.free k := by
  refine (keeps_spillTo ks hks (by simp [KnownVars])).bind fun _ _ _ _ hfree => ?_
  exact keeps_setStack_nil.weaken fun _ _ _ => hfree

end

/-! ## Terminators -/

structure Enterable (c : Outline) (s : State) (k : Nat) : Prop where
  lt : k < s.segments.size
  zero : k = 0 → 0 ∈ c.leaders

lemma Enterable.congr (h : Enterable c s k) (hsame : SameSegments s s') : Enterable c s' k :=
  ⟨hsame.size ▸ h.lt, h.zero⟩

lemma Filling.enterable (h : Filling c n s) (hleaders : Leaders c.m c.leaders) (hk : k < s.segments.size)
    (hstart : (s.segment k).start ∈ c.leaders) : Enterable c s k := by
  refine ⟨hk, ?_⟩
  rintro rfl
  rwa [h.ground.parted.start_zero hleaders hk] at hstart

lemma Filling.entryAt_next (h : Filling c n s) (hk : n + 1 < s.segments.size) :
    s.EntryAt (s.segment n).stop (s.segment (n + 1)).entryBlock :=
  ⟨n + 1, hk, (h.ground.parted.next hk).symm, rfl⟩

lemma Filling.terminate (h : Filling c n s) (hsame : SameSetting s s')
    (hbody : s'.body = s.body.append s.cursor.block kind vs .void)
    (harity : arityViolation? kind vs.length = none) (hterm : kind.isTerminator)
    (hvs : ∀ v ∈ vs, Avail s s.cursor.block v) (hhas : ∀ t ∈ kind.successors, s.body.hasBlock t)
    (htargets : ∀ t ∈ kind.successors, ∃ k, (s.segment k).entryBlock = t ∧ Enterable c s k ∧ c.free k)
    (hexits : ExitsBy c.m s n kind) : Ground c (n + 1) s' := by
  have hplain : kind.isPhi = false ∧ kind.isGuard = false ∧ kind.var? = none := by
    cases kind <;> simp_all [isTerminator, isPhi, isGuard, var?]
  have hb : s.body.hasBlock s.cursor.block := h.block ▸ (h.ground.parted.block n h.lt).1
  refine h.ground.insert hsame (append_nil _) (hbody.trans append_eq_withInst) hb harity hplain.1
    hplain.2.1 (fun v hv => (hvs v hv).1) (fun d hd => (hvs _ hd).2 d rfl) (by simp [hplain.2.2])
    (fun t ht => ⟨hhas t ht, ?_⟩) (fun k hk hk' => ?_) fun s₁ hs₁ hsame₁ hattach hinsts hkind _ => ?_
  · obtain ⟨k, rfl, henter, hfree⟩ := htargets t ht
    exact ⟨k, (h.ground.parted.entryBlock k henter.lt).2, henter.zero, hfree⟩
  · obtain rfl : k = n := by omega
    exact ⟨h.block, hexits⟩
  · have hsame' : SameSegments s₁ s' := .of_eq (hsame.segments.trans hsame₁.segments.symm)
    refine hs₁.ending.terminate hsame' hs₁.parted (by rw [hsame₁.segments]; exact h.lt) ?_
      (by rw [hinsts]; exact hattach) (by rw [hkind, hterm])
    rw [h.block, State.segment, State.segment, hsame₁.segments]

lemma ends_emitVoid (hterm : kind.isTerminator) (hvs : ∀ v ∈ vs, Avail s s.cursor.block v)
    (harity : arityViolation? kind vs.length = none)
    (htargets : ∀ t ∈ kind.successors, ∃ k, (s.segment k).entryBlock = t ∧ Enterable c s k ∧ c.free k)
    (hexits : ExitsBy c.m s n kind) : (filling c n).Ends s (emitVoid kind vs) := by
  intro log hs
  have hhas : ∀ t ∈ kind.successors, s.body.hasBlock t := fun t ht => by
    obtain ⟨k, rfl, henter, -⟩ := htargets t ht
    exact (hs.ground.parted.entryBlock k henter.lt).1
  refine ⟨(failsOnly_emit hs.hasBlock (fun v hv => (hvs v hv).1) hhas (by simp [harity])).discard, fun u t h => ?_⟩
  obtain ⟨v, h⟩ := discard_iff.1 h
  obtain ⟨-, -, -, -, -, rfl⟩ := emit_eq_ok h
  exact hs.terminate ⟨rfl, rfl, rfl, rfl⟩ rfl harity hterm hvs hhas htargets hexits

def fillingRules (c : Outline) (hleaders : Leaders c.m c.leaders) (n : Nat) : Regime where
  toKeeping := filling c n
  known s := Avail s s.cursor.block
  target := Enterable c
  free := c.free
  leader := (· ∈ c.leaders)
  exits s := ExitsBy c.m s n
  grows h := h.grows
  segments h := h.segments.toSameSegments
  frameVar? h := h.frameVar?
  keeps hs honward hv := hv.onward honward hs.ground
  const := ⟨rfl, fun _ hd => by cases hd⟩
  stack hs hv := hs.stack _ hv
  hasValue hv := .inl hv.1
  hasVar hs hv := hs.ground.sourced.frame _ _ hv
  leads hs hk hstart := hs.enterable hleaders hk hstart
  next _ hk := ⟨hk, by omega⟩
  exits_congr hsame hexits := hexits.congr hsame
  target_congr hsame hk := hk.congr hsame
  cursor := keeps_modifyCursor
  emit := keeps_emit_plain
  load := keeps_loadVar
  address := keeps_varAddr
  store slot _ _ hv hu := .assume fun hs => keeps_storeVar (hs.ground.sourced.frame slot _ hv) hu
  spill ks hks := keeps_spill ks fun k hk => (hks k hk).lt
  terminate := ends_emitVoid
  reset _ hground := hground.withSetting ⟨rfl, rfl, rfl, rfl⟩ rfl

/-! ## Segments -/

variable {i : Instruction}

lemma LastOf.allows (hlast : LastOf c.m s n i) (hleaders : Leaders c.m c.leaders) :
    (fillingRules c hleaders n).Allows s i := by
  intro s' kind (hs : Filling c n s') (honward : Onward s s') hexits
  have hlast' := hlast.congr honward.segments.toSameSegments
  refine ⟨i, hlast', hexits fun hlt => ?_⟩
  rw [hs.index] at hlt ⊢
  exact hlast'.stop ▸ hs.entryAt_next hlt

lemma ends_lowerCode (hleaders : Leaders c.m c.leaders) (hm : c.m.Contiguous) (code : List Instruction) :
    ∀ (first : Nat) (s : State), IsSegment c.m c.leaders first code → (s.segment n).start ≤ c.m.boundary first →
      c.m.boundary (first + code.length) = (s.segment n).stop →
      (filling c n).Ends s (lowerCode code (s.segment n).stop) := by
  induction code with
  | nil => exact fun _ _ hsegment => absurd rfl hsegment.ne_nil
  | cons i code ih =>
    intro first s hsegment hstart hstop
    have hi : c.m.code[first]? = some i := hsegment.instruction 0 (by simp)
    have hmem : i ∈ c.m.code.toList := mem_of_getElem? (by simpa using hi)
    have hoffset := Bytecode.boundary_eq hi
    cases code with
    | nil =>
      have hlast : LastOf c.m s n i := by
        refine ⟨hmem, hoffset ▸ hstart, ?_⟩
        rw [← Bytecode.boundary_succ hm hi]
        exact hstop
      rw [lowerCode_singleton]
      have hallows := hlast.allows hleaders
      by_cases hends : i.op.endsBlock
      · simp only [hends, if_true, bind_pure_unit]
        exact Regime.ends_lower hends (hleaders.code i hmem hends).2 hallows
      · rw [Bool.not_eq_true] at hends
        simp only [hends, Bool.false_eq_true, if_false]
        refine (Regime.runs_lower (r := fillingRules c hleaders n) hmem hends).finish fun s₁ _ _ honward _ => ?_
        refine (Regime.runs_setOffset _).finish fun s₂ _ _ honward' _ => .assume fun hs => ?_
        refine .read reads_fallThrough fun k hk => ?_
        obtain ⟨rfl, hk⟩ := hk
        refine Regime.ends_passTo (.inl rfl) (Regime.next _ hs hk) ?_
        exact hallows s₂ _ hs (honward.trans honward') fun hnext => .next hends (hnext hk)
    | cons j rest =>
      rw [lowerCode_cons]
      refine (Regime.runs_lower (r := fillingRules c hleaders n) hmem (hsegment.plain 0 i (by simp) rfl)).finish ?_
      intro s₁ _ _ honward _
      obtain ⟨hsame, hsame', -⟩ := honward.segments.same n
      have hnext := Bytecode.boundary_succ hm hi
      rw [← hsame']
      refine ih (first + 1) s₁ hsegment.tail ?_ ?_
      · rw [hsame, hnext]
        have := i.offset_lt
        omega
      · rw [hsame', ← hstop]
        congr 1
        simp only [length_cons]
        omega

lemma Ground.enter (h : Ground c n s) (hn : n < s.segments.size) : Filling c n (s.enter n) ∧
    (∀ v, .value v ∈ (s.segment n).entryStack.getD [] → Avail (s.enter n) (s.segment n).block v) ∧
      ∀ w, .var w ∈ (s.segment n).entryStack.getD [] → (s.enter n).body.hasVar w := by
  have hsegments := (extends_enter s n).segments
  have hground : Ground c n (s.enter n) := by
    refine h.congr hsegments rfl rfl rfl rfl rfl rfl (fun v hv => hv) h.intact fun k slots hk => ?_
    refine (entryStack_enter hk).imp_right fun hslots => ⟨[], hslots, by simp⟩
  have hself := entryStack_enter_self hn
  refine ⟨⟨hground, hsegments.size ▸ hn, rfl, (hsegments.same n).2.2.1.symm, fun v hv => absurd hv not_mem_nil⟩, ?_⟩
  generalize (s.segment n).entryStack.getD [] = slots at hself
  rcases hground.stacked n slots hself with ⟨g, r, rfl, hg, -⟩ | ⟨vars, rfl, hvars⟩
  · refine ⟨fun v hv => ?_, by simp⟩
    obtain rfl : v = .inst g := by simpa using hv
    have hseed : (s.enter n).Seeds (s.segment n).block g :=
      ⟨n, hsegments.size ▸ hn, (hsegments.same n).2.2.1, hself⟩
    refine ⟨hground.hasInst (.inr hseed), fun d hd => ?_⟩
    obtain rfl := Value.inst.inj hd
    refine ⟨.inr hseed, fun w hw => ?_⟩
    have hguard := (hground.guarded.hosted _ hg).2
    simp [hw, isGuard] at hguard
  · exact ⟨by simp, by simpa using hvars⟩

/-- Lowering a segment keeps all there is to keep, or fails by fault of the code. -/
lemma lowerSegment_ground (hleaders : Leaders c.m c.leaders) (hm : c.m.Contiguous) (log : Array Event)
    (hn : n < s.segments.size) (hground : Ground c n s) : FailsOnly c.m.Blames (lowerSegment c.m n) ⟨s, log⟩ ∧
      ∀ u t, lowerSegment c.m n ⟨s, log⟩ = .ok u t → Ground c (n + 1) t.state := by
  obtain ⟨hs, hslots, hvars⟩ := hground.enter hn
  have hsegments := (extends_enter s n).segments
  obtain ⟨hfails, hkeeps⟩ := Regime.runs_enterStack (r := fillingRules c hleaders n) _ _ hslots hvars log hs
  have hrange := hground.parted.range n hn
  -- the rest of the segment, from the state in which the stack is entered
  have hrest : ∀ t₂ code, Filling c n t₂.state → SegmentsGrow s t₂.state →
      codeBetween c.m (s.segment n).start (s.segment n).stop = .ok code →
      FailsOnly c.m.Blames (lowerCode code (s.segment n).stop) t₂ ∧
        ∀ u t, lowerCode code (s.segment n).stop t₂ = .ok u t → Ground c (n + 1) t.state := by
    intro t₂ code hs₂ hsegments hcode
    obtain ⟨first, hsegment, hstart, hstop⟩ := segment_code hleaders hm hrange hcode
    obtain ⟨hsame, hsame', -⟩ := hsegments.same n
    rw [← hsame']
    exact ends_lowerCode hleaders hm code first t₂.state hsegment (by rw [hsame, hstart])
      (by rw [hstop, hsame']) t₂.log hs₂
  rw [lowerSegment_eq]
  constructor
  · refine failsOnly_getState_bind ?_
    refine failsOnly_modifyState.bind fun _ _ h => ?_
    obtain rfl := modifyState_iff.1 h
    refine hfails.bind fun _ t₂ henter => ?_
    obtain ⟨hs₂, honward, -⟩ := hkeeps _ t₂ henter
    refine .bind (.ofExcept fun e he => .inl (reported_codeBetween hleaders hm hrange e he)) fun code t₃ h => ?_
    obtain ⟨hcode, rfl⟩ := ofExcept_iff.1 h
    refine (hrest t₂ code hs₂ (hsegments.trans honward.segments) hcode).1.bind fun _ _ _ => ?_
    exact .of_ok (a := ()) (report_iff.2 rfl)
  · intro u t h
    simp only [bind_iff, ↓getState_bind_iff, modifyState_iff, ofExcept_iff, report_iff] at h
    obtain ⟨_, _, rfl, _, t₂, henter, code, _, ⟨hcode, rfl⟩, _, t₄, hlower, rfl⟩ := h
    obtain ⟨hs₂, honward, -⟩ := hkeeps _ t₂ henter
    exact (hrest t₂ code hs₂ (hsegments.trans honward.segments) hcode).2 _ t₄ hlower

variable {m : Bytecode} {leaders : List Nat} {own : BlockId → Option Nat} {u : Unit} {t t' : Trace State}

lemma Fenced.ground (h : Fenced m leaders own m.regions s) :
    Ground ⟨m, leaders, own, fun n => ∀ d, (s.segment n).entryStack ≠ some [.value (.inst d)]⟩ 0 s := by
  refine ⟨h.intact, h.parted, ⟨fun i a t hi ht => ?_, h.guarded.hosted⟩, h.linked,
    fun _ hn => absurd hn (Nat.not_lt_zero _), fun n slots hn => .inl (h.seeded n slots hn), fun _ _ => Iff.rfl,
    h.ending,
    ⟨fun i => h.not_isPhi i, fun i d v hd => ?_, fun i v hv => ?_, fun b i _ d hd => ?_, fun slot v hv => ?_⟩,
    h.regions⟩
  · obtain ⟨n, hn, hzero, henters⟩ := h.guarded.edges i a t hi ht
    exact ⟨n, hn, hzero, henters.imp_right fun h => h.imp_right fun h => h.imp_right False.elim⟩
  · simp [h.operands i] at hd
  · cases hi : s.body.hasInst i with
    | false =>
      rw [kind_of_not_hasInst hi] at hv
      simp [var?] at hv
    | true =>
      have hkind := h.kinds i hi
      cases hk : s.body.kind i <;> simp_all [var?, isGuard, isTerminator]
  · simp [h.operands i] at hd
  · exact (h.framed.var slot v hv).1

/-! ## Arguments -/

lemma Ground.insertFirst (h : Ground c n s) {b : BlockId} {i : InstId} {x : VarId × Nat}
    (hi : IsStore s.body x i) (hsame : SameSetting s s') (hcan : s.body.CanAttach i b)
    (hbody : s'.body = s.body.attach i b (i :: s.body.instsOf b)) : Ground c n s' := by
  obtain ⟨-, hkind, hops⟩ := hi
  have hlist : [] ++ s.body.instsOf b = s.body.instsOf b := rfl
  have hsegments : SameSegments s s' := .of_eq hsame.segments
  refine h.attached hsame hcan hlist hbody (by simp [hkind, successors]) (by rw [hkind]; rfl)
    (by simp [hops]) ?_ fun k hk hk' => absurd hk (by omega)
  exact h.ending.attach hsegments hcan.2.2.2.1 hlist hbody (by simp [hkind, isTerminator]) (by simp)

lemma copyArguments_ground (h : copyArguments t = .ok u t') (hs : Ground c n t.state) :
    Ground c n t'.state := by
  refine (copyArguments_induction (P := fun _ s => Ground c n s ∧ s.argVars = t.state.argVars) h hs.parted.entry
    ⟨hs, rfl⟩ ?_ ?_).1
  · rintro - x hx s ⟨hs, hargs⟩ harg
    have hvar : s.body.hasVar x.1 := by
      refine hs.sourced.frame (.argument x.2) x.1 ?_
      rw [frameVar?, hargs]
      simpa using mem_zipIdx_iff_getElem?.1 hx
    exact ⟨hs.addInst ⟨rfl, rfl, rfl, rfl⟩ rfl rfl rfl (by simpa using harg) (by simp)
      (by simpa [var?] using hvar), hargs⟩
  · rintro - x i s ⟨hs, hargs⟩ hstore hcan
    exact ⟨hs.insertFirst hstore ⟨rfl, rfl, rfl, rfl⟩ hcan rfl, hargs⟩

/-! ## The whole -/

lemma lowerSegments_ground (hleaders : Leaders c.m c.leaders) (hm : c.m.Contiguous) (k : Nat) :
    ∀ (n : Nat) (t : Trace State), Ground c n t.state → n + k = t.state.segments.size →
    FailsOnly c.m.Blames ((range' n k).forM (lowerSegment c.m)) t ∧
      ∀ u t', (range' n k).forM (lowerSegment c.m) t = .ok u t' → Ground c (n + k) t'.state := by
  induction k with
  | zero =>
    refine fun n t h _ => ⟨.pure, fun u t' hrun => ?_⟩
    obtain ⟨-, rfl⟩ := pure_iff.1 hrun
    exact h
  | succ k ih =>
    intro n t h hsize
    obtain ⟨hfails, hground⟩ := lowerSegment_ground hleaders hm t.log (by omega) h
    have hrest : ∀ u t₁, lowerSegment c.m n t = .ok u t₁ → _ := fun u t₁ hone =>
      have h₁ := hground u t₁ hone
      ih (n + 1) t₁ h₁ (by rw [h₁.parted.size, ← h.parted.size]; omega)
    rw [range'_succ, show n + (k + 1) = n + 1 + k by omega]
    change FailsOnly _ (lowerSegment c.m n >>= fun _ => (range' (n + 1) k).forM (lowerSegment c.m)) t ∧ ∀ u t',
      (lowerSegment c.m n >>= fun _ => (range' (n + 1) k).forM (lowerSegment c.m)) t = _ → _
    refine ⟨hfails.bind fun u t₁ hone => (hrest u t₁ hone).1, fun u t' hrun => ?_⟩
    obtain ⟨_, t₁, hone, hrun⟩ := bind_iff.1 hrun
    exact (hrest _ t₁ hone).2 u t' hrun

lemma markExposed_ground (h : markExposed t = .ok u t') (hs : Ground c n t.state) : Ground c n t'.state := by
  refine markExposed_induction h hs fun v s hs => ?_
  refine hs.congr (.of_eq rfl) rfl rfl rfl rfl rfl rfl (fun w hw => ?_) (hs.intact.withVars _) fun _ _ h => .inl h
  simpa [expose, modifyVar, hasVar] using hw

section

variable {log : Array Event} (hm : m.Contiguous) (h : importMethod m ⟨ofMethod m, log⟩ = .ok u t)
include hm h

lemma importMethod_outline : ∃ c : Outline, c.m = m ∧ Import.leaders m = .ok c.leaders ∧ 0 < t.state.segments.size ∧
      Ground c t.state.segments.size t.state := by
  obtain ⟨leaders, own, t₁, t₂, t₃, t₄, t₅, hleaders, hne, -, -, -, hown, -, hargs, hlower, hexpose, ht⟩ :=
    importMethod_fenced h
  have hspec := leaders_eq_ok hleaders
  have hground := copyArguments_ground hargs hown.ground
  have hlowered := (lowerSegments_ground hspec hm t₃.state.segments.size 0 t₃ hground (Nat.zero_add _)).2 _ t₄ hlower
  have hexposed := markExposed_ground hexpose hlowered
  have hsize : t₅.state.segments.size = 0 + t₃.state.segments.size := by
    rw [hexposed.parted.size, ← hground.parted.size, Nat.zero_add]
  rw [ht]
  refine ⟨⟨m, leaders, own, _⟩, rfl, hleaders, ?_, hsize ▸ hexposed⟩
  rw [hexposed.parted.size]
  exact length_pos_of_ne_nil hne

lemma importMethod_ground :
    ∃ c : Outline, c.m = m ∧ Leaders m c.leaders ∧ Ground c t.state.segments.size t.state := by
  obtain ⟨c, hc, hleaders, -, hground⟩ := importMethod_outline hm h
  exact ⟨c, hc, leaders_eq_ok hleaders, hground⟩

end

end MethodIR.Import
