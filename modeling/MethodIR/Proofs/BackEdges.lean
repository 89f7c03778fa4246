import MethodIR.Proofs.GuardNesting

/-!
# Stacks that flow back

Where control is passed on with values on the stack, it makes no difference whether a successor has been lowered
before. It accepts the stack if it expects one of that height in variables, or nothing yet (`spill_iff_accepts`).
-/

namespace MethodIR.Import

open List Success Traced State

variable {s s' s'' : State} {t t' : Trace State} {n k : Nat} {ns : List Nat} {fresh fresh' : Option (List VarId)}
  {vars : List VarId} {written : List (List VarId)} {u : Unit}

/-! ## Stacks that segments expect -/

structure Alike (s s' : State) : Prop where
  segments : s'.segments = s.segments
  grows : s.body.Grows s'.body
  cursor : s'.cursor = s.cursor

lemma Alike.trans (h : Alike s s') (k : Alike s' s'') : Alike s s'' :=
  ⟨k.segments.trans h.segments, h.grows.trans k.grows, k.cursor.trans h.cursor⟩

structure Learns (s s' : State) : Prop extends SegmentsGrow s s' where
  grows : s.body.Grows s'.body

lemma Learns.trans (h : Learns s s') (k : Learns s' s'') : Learns s s'' :=
  ⟨h.toSegmentsGrow.trans k.toSegmentsGrow, h.grows.trans k.grows⟩

lemma Alike.learns (h : Alike s s') : Learns s s' := ⟨.of_eq h.segments, h.grows⟩

lemma learns_expect (vars : List VarId) (hn : n < s.segments.size) (hnone : (s.segment n).entryStack = none) :
    Learns s (s.expect n vars) ∧ (s.expect n vars).Expects n vars ∧
      ∀ k, k ≠ n → ((s.expect n vars).segment k).entryStack = (s.segment k).entryStack := by
  have hentry := entryStack_expect s vars hn
  exact ⟨⟨segmentsGrow_expect hn (by simp [hnone]), .refl _⟩, by rw [State.Expects, hentry, if_pos rfl],
    fun k hk => by rw [hentry, if_neg hk]⟩

/-- Segment `n` expects a stack of the height of `s`, and no other segment expects anything new. -/
structure Readies (s s' : State) (n : Nat) (fresh : Option (List VarId)) : Prop extends Learns s s' where
  cursor : s'.cursor = s.cursor
  ready : ∃ vars, s'.Expects n vars ∧ vars.length = s.height
  others : ∀ k, k ≠ n → (s'.segment k).entryStack = (s.segment k).entryStack
  fresh : ∀ ws, fresh = some ws → ws.length = s.height

lemma Readies.height (h : Readies s s' n fresh) : s'.height = s.height := by
  rw [State.height, h.cursor, State.height]

lemma Readies.alike (h : Readies s s' n fresh) (halike : Alike s' s'') : Readies s s'' n fresh := by
  have hentry : ∀ k, (s''.segment k).entryStack = (s'.segment k).entryStack := fun k => by
    rw [State.segment, halike.segments, State.segment]
  obtain ⟨vars, hvars, hlength⟩ := h.ready
  exact ⟨h.toLearns.trans halike.learns, halike.cursor.trans h.cursor, ⟨vars, (hentry n).trans hvars, hlength⟩,
    fun k hk => (hentry k).trans (h.others k hk), h.fresh⟩

lemma storeVar_alike {w : Value} {v : VarId} (h : storeVar v w t = .ok u t') : Alike t.state t'.state := by
  simp only [storeVar, noteUse, emitVoid, bind_iff, modifyState_iff, discard_iff] at h
  obtain ⟨_, _, rfl, _, hemit⟩ := h
  obtain ⟨-, -, -, -, -, rfl⟩ := emit_eq_ok hemit
  exact ⟨rfl, Body.grows_append .., rfl⟩

section

variable (hn : n < t.state.segments.size) (hfresh : ∀ ws, fresh = some ws → ws.length = t.state.height)
include hn hfresh

lemma slotsFor_readies (h : slotsFor fresh n t = .ok (vars, fresh') t') : Readies t.state t'.state n fresh' := by
  obtain ⟨rfl, rfl, hexpects, hlength⟩ | ⟨rfl, hnone, t₁, rfl, ⟨rfl, rfl⟩ | ⟨rfl, hvars⟩⟩ := slotsFor_eq_ok h
  · exact ⟨⟨.refl _, .refl _⟩, rfl, ⟨_, hexpects, hlength⟩, fun _ _ => rfl, hfresh⟩
  · obtain ⟨hlearns, hexpects, hothers⟩ := learns_expect vars hn hnone
    exact ⟨hlearns, rfl, ⟨_, hexpects, hfresh vars rfl⟩, hothers, hfresh⟩
  · obtain ⟨hlength, -, decls, rfl, hgrows, -⟩ := freshVars_eq_ok hvars
    obtain ⟨hlearns, hexpects, hothers⟩ := learns_expect vars
      (s := { t.state with body := { t.state.body with vars := decls } }) hn hnone
    refine ⟨Learns.trans ⟨.of_eq (by rfl), hgrows⟩ hlearns, rfl, ⟨_, hexpects, hlength⟩, hothers, ?_⟩
    rintro _ ⟨⟩
    exact hlength

lemma spillFor_readies {r : Option (List VarId) × List (List VarId)} (h : spillFor fresh written n t = .ok r t') :
    Readies t.state t'.state n r.1 := by
  obtain ⟨⟨vars, fresh'⟩, t₁, hslots, h⟩ := bind_iff.1 h
  have hready := slotsFor_readies hn hfresh hslots
  dsimp only at h
  split at h
  · obtain ⟨rfl, rfl⟩ := pure_iff.1 h
    exact hready
  · simp only [bind_iff, ↓getState_bind_iff, pure_iff] at h
    obtain ⟨_, t₂, hstores, rfl, rfl⟩ := h
    refine hready.alike (forM_induction (P := fun t₂ : Trace State => Alike t₁.state t₂.state) hstores
      ⟨rfl, .refl _, rfl⟩ ?_)
    exact fun _ _ _ _ _ halike hone => halike.trans (storeVar_alike hone)

end

lemma spillTo_expects (hns : ∀ n ∈ ns, n < t.state.segments.size)
    (hfresh : ∀ ws, fresh = some ws → ws.length = t.state.height) (h : spillTo fresh written ns t = .ok u t') :
    Learns t.state t'.state ∧ ∀ n ∈ ns, ∃ vars, t'.state.Expects n vars ∧ vars.length = t.state.height := by
  induction ns generalizing fresh written t with
  | nil =>
    obtain ⟨-, rfl⟩ := pure_iff.1 h
    exact ⟨⟨.refl _, .refl _⟩, by simp⟩
  | cons n ns ih =>
    rw [forall_mem_cons] at hns
    obtain ⟨r, t₁, hfirst, h⟩ := bind_iff.1 h
    have hready := spillFor_readies hns.1 hfresh hfirst
    obtain ⟨hlearns, hexpects⟩ := ih (fun k hk => hready.size ▸ hns.2 k hk)
      (fun ws hws => (hready.fresh ws hws).trans hready.height.symm) h
    obtain ⟨vars, hvars, hlength⟩ := hready.ready
    refine ⟨hready.toLearns.trans hlearns, forall_mem_cons.2 ⟨⟨vars, hlearns.expects n _ hvars, hlength⟩, ?_⟩⟩
    exact hready.height ▸ hexpects

lemma spill_expects (hns : ∀ n ∈ ns, n < t.state.segments.size) (h : spill ns t = .ok () t') :
    Learns t.state t'.state ∧ ∀ n ∈ ns, ∃ vars, t'.state.Expects n vars ∧ vars.length = t.state.height := by
  obtain ⟨_, t₁, hspill, hset⟩ := bind_iff.1 h
  obtain rfl := modifyState_iff.1 hset
  obtain ⟨hlearns, hexpects⟩ := spillTo_expects hns (by simp) hspill
  exact ⟨hlearns.trans ⟨.of_eq rfl, .refl _⟩, hexpects⟩

/-! ## Stacks that are accepted -/

/-- The code is to blame, at the cursor, for a successor that does not accept the stack. -/
def State.Refuses (s : State) (ns : List Nat) (e : Error) : Prop :=
  (∃ cause, e = .invalidProgram s.cursor.offset cause) ∧ ∃ n ∈ ns, ¬ s.Accepts n

lemma failsOnly_expected? : FailsOnly (t.state.Refuses [n]) (expected? n) t := by
  intro e t' he
  obtain ⟨r, hok, -⟩ | ⟨hrefuses, cause, herror⟩ := expected?_cases n t
  · simp [hok] at he
  · obtain ⟨rfl, -⟩ := EStateM.Result.error.inj (herror.symm.trans he)
    exact ⟨⟨cause, rfl⟩, n, mem_singleton_self n, hrefuses⟩

lemma Readies.accepts (h : Readies s s' n fresh) (hk : s.Accepts k) : s'.Accepts k := by
  by_cases hkn : k = n
  · obtain ⟨vars, hexpects, hlength⟩ := h.ready
    exact .inr ⟨vars, hkn ▸ hexpects, hlength.trans h.height.symm⟩
  · simp only [State.Accepts, State.Expects] at hk ⊢
    rwa [h.others k hkn, h.height]

/-- There is a block to store the stack in. -/
structure Storable (s : State) : Prop where
  block : s.body.hasBlock s.cursor.block
  stack : ∀ v ∈ s.cursor.stack, s.body.hasValue v

lemma Storable.grows (h : Storable s) (hgrows : s.body.Grows s'.body) (hcursor : s'.cursor = s.cursor) :
    Storable s' := by
  refine ⟨?_, fun v hv => ?_⟩
  · rw [hcursor]
    exact hgrows.block _ h.block
  · rw [hcursor] at hv
    exact hgrows.hasValue (h.stack v hv)

lemma failsOnly_slotsFor (hs : Storable t.state) : FailsOnly (t.state.Refuses [n]) (slotsFor fresh n) t := by
  refine failsOnly_expected?.bind fun r t₁ hexpected => ?_
  obtain ⟨rfl, -⟩ := expected?_eq_ok hexpected
  cases r with
  | some vars => exact .pure
  | none =>
    have htell : ∀ (vars : List VarId) (t₂ : Trace State), FailsOnly (t₁.state.Refuses [n])
        (do modifyState (·.expect n vars); pure (vars, some vars)) t₂ :=
      fun _ _ => failsOnly_modifyState.bind fun _ _ _ => .pure
    cases fresh with
    | some vars => exact htell vars t₁
    | none => exact (failsOnly_freshVars hs.stack).bind fun vars t₂ _ => htell vars t₂

lemma failsOnly_storeAll {P : Error → Prop} (hs : Storable t.state) (vars : List VarId) :
    FailsOnly P ((t.state.cursor.stack.reverse.zip vars).forM fun (w, v) => storeVar v w) t := by
  refine .forM (I := fun t₁ => Alike t.state t₁.state) _ ⟨rfl, .refl _, rfl⟩ ?_
  rintro ⟨w, v⟩ hmem t₁ halike
  have hs₁ := hs.grows halike.grows halike.cursor
  have hw : w ∈ t₁.state.cursor.stack := halike.cursor ▸ mem_reverse.1 (of_mem_zip hmem).1
  refine ⟨failsOnly_modifyState.bind fun _ t₂ hnote => ?_, fun u t₂ hstore => halike.trans (storeVar_alike hstore)⟩
  obtain rfl := modifyState_iff.1 hnote
  have hvalue : ∀ u ∈ [w], t₁.state.body.hasValue u := by simpa using hs₁.stack w hw
  exact FailsOnly.discard (failsOnly_emit hs₁.block hvalue (by simp [Kind.successors])
    (by simp [Edit.arityViolation?, Kind.arity?]))

lemma failsOnly_spillFor (hn : n < t.state.segments.size)
    (hfresh : ∀ ws, fresh = some ws → ws.length = t.state.height) (hs : Storable t.state) :
    FailsOnly (t.state.Refuses [n]) (spillFor fresh written n) t := by
  refine (failsOnly_slotsFor hs).bind fun r t₁ hslots => ?_
  have hready := slotsFor_readies hn hfresh hslots
  dsimp only
  split
  · exact .pure
  · refine failsOnly_getState_bind ?_
    exact (failsOnly_storeAll (hs.grows hready.grows hready.cursor) r.1).bind fun _ _ _ => .pure

lemma failsOnly_spillTo (hns : ∀ n ∈ ns, n < t.state.segments.size)
    (hfresh : ∀ ws, fresh = some ws → ws.length = t.state.height) (hs : Storable t.state) :
    FailsOnly (t.state.Refuses ns) (spillTo fresh written ns) t := by
  induction ns generalizing fresh written t with
  | nil => exact .pure
  | cons n ns ih =>
    rw [forall_mem_cons] at hns
    refine FailsOnly.bind (fun e t' he => ?_) fun r t₁ hfirst e t' he => ?_
    · obtain ⟨hcause, k, hk, hrefuses⟩ := failsOnly_spillFor hns.1 hfresh hs e t' he
      exact ⟨hcause, k, by simp [mem_singleton.1 hk], hrefuses⟩
    · have hready := spillFor_readies hns.1 hfresh hfirst
      obtain ⟨⟨cause, rfl⟩, k, hk, hrefuses⟩ := ih (fun k hk => hready.size ▸ hns.2 k hk)
        (fun ws hws => (hready.fresh ws hws).trans hready.height.symm) (hs.grows hready.grows hready.cursor) e t' he
      -- what is refused later on is refused at first
      exact ⟨⟨cause, by rw [hready.cursor]⟩, k, mem_cons_of_mem n hk, fun haccepts => hrefuses (hready.accepts haccepts)⟩

/-- Control is passed on if and only if every successor accepts the stack. Otherwise the code is to blame. -/
theorem spill_iff_accepts (hs : Storable t.state) (hns : ∀ n ∈ ns, n < t.state.segments.size) :
    ((∃ t', spill ns t = .ok () t') ↔ ∀ n ∈ ns, t.state.Accepts n) ∧
      ∀ e t', spill ns t = .error e t' → ∃ cause, e = .invalidProgram t.state.cursor.offset cause := by
  have hfails : FailsOnly (t.state.Refuses ns) (spill ns) t :=
    (failsOnly_spillTo hns (by simp) hs).bind fun _ _ _ => failsOnly_modifyState
  refine ⟨⟨?_, fun haccepts => ?_⟩, fun e t' he => (hfails e t' he).1⟩
  · rintro ⟨t', h⟩ n hn
    obtain ⟨hlearns, hexpects⟩ := spill_expects hns h
    obtain ⟨vars, hvars, hlength⟩ := hexpects n hn
    cases hentry : (t.state.segment n).entryStack with
    | none => exact .inl hentry
    | some slots => exact .inr ⟨vars, by rw [State.Expects, hentry, ← hlearns.expects n slots hentry, hvars], hlength⟩
  · cases h : spill ns t with
    | ok u t' => exact ⟨t', rfl⟩
    | error e t' =>
      obtain ⟨-, n, hn, hrefuses⟩ := hfails e t' h
      exact absurd (haccepts n hn) hrefuses

/-- A value stays on the stack while a loop goes on, and is returned after it. -/
def carriedLoop : Bytecode where
  name := "CarriedLoop"
  declaring := .object
  sig := { params := [.i32], ret := .i32 }
  code := #[⟨.ldcI40, 0, .none⟩, ⟨.ldarg0, 1, .none⟩, ⟨.brtrueS, 2, .target 1⟩, ⟨.ret, 4, .none⟩]

/-- At the end of its code the loop passes one value to itself, and could not pass two. -/
theorem carriedLoop_accepts : ∃ s : State, Storable s ∧ 1 < s.segments.size ∧
    (s.segment 1).entryStack = some [.var ⟨1⟩] ∧ s.cursor.block = (s.segment 1).block ∧ s.height = 1 ∧
    (∃ t, spill [1] ⟨s, #[]⟩ = .ok () t) ∧
    ∃ offset cause t, spill [1] ⟨s.modifyCursor fun k => { k with stack := k.stack ++ k.stack }, #[]⟩ =
      .error (.invalidProgram offset cause) t := by
  obtain ⟨t, -, hp⟩ := exists_of_imported? (m := carriedLoop) (p := fun s => decide (s.segments.size = 3 ∧
    (s.segment 1).entryStack = some [.var ⟨1⟩] ∧ s.body.hasBlock (s.segment 1).block)) (by decide +kernel)
  obtain ⟨hsize, hentry, hblock⟩ := of_decide_eq_true hp
  -- the loop is about to be left with a stack
  have hstorable : ∀ stack : List Const, Storable (t.state.modifyCursor fun k =>
      { k with block := (t.state.segment 1).block, stack := stack.map .const }) := by
    refine fun stack => ⟨hblock, fun v hv => ?_⟩
    obtain ⟨c, -, rfl⟩ := mem_map.1 hv
    rfl
  have hns : ∀ n ∈ [1], n < t.state.segments.size := by simp [hsize]
  obtain ⟨hone, -⟩ := spill_iff_accepts (t := ⟨_, #[]⟩) (hstorable [.i32 0]) hns
  obtain ⟨htwo, herror⟩ := spill_iff_accepts (t := ⟨_, #[]⟩) (hstorable [.i32 0, .i32 0]) hns
  refine ⟨_, hstorable [.i32 0], by simp [modifyCursor, hsize], hentry, rfl, rfl,
    hone.2 (by simpa using .inr ⟨[⟨1⟩], hentry, rfl⟩), ?_⟩
  cases hspill : spill [1] ⟨t.state.modifyCursor fun k =>
      { k with block := (t.state.segment 1).block, stack := [.const (.i32 0), .const (.i32 0)] }, #[]⟩ with
  | ok u t' =>
    obtain hnone | ⟨vars, hvars, hlength⟩ := htwo.1 ⟨t', hspill⟩ 1 (by simp)
    · exact absurd (hentry.symm.trans hnone) (by simp)
    · obtain rfl : [⟨1⟩] = vars := map_var_inj (Option.some.inj (hentry.symm.trans hvars))
      simp [height] at hlength
  | error e t' =>
    obtain ⟨cause, rfl⟩ := herror _ t' hspill
    exact ⟨_, cause, t', hspill⟩

/-- One that is at the start of a block again with a value on the stack can be imported. -/
theorem carriedLoop_flowsBack : ∃ t, importMethod carriedLoop ⟨State.ofMethod carriedLoop, #[]⟩ = .ok () t ∧
    (t.state.segment 1).start = 1 ∧ (t.state.segment 1).entryStack = some [.var ⟨1⟩] ∧
    (t.state.segment 1).block ∈ t.state.body.succs (t.state.segment 1).block := by
  obtain ⟨t, h, hp⟩ := exists_of_imported? (m := carriedLoop) (p := fun s => decide ((s.segment 1).start = 1 ∧
    (s.segment 1).entryStack = some [.var ⟨1⟩] ∧ (s.segment 1).block ∈ s.body.succs (s.segment 1).block))
    (by decide +kernel)
  obtain ⟨hstart, hentry, hloop⟩ := of_decide_eq_true hp
  exact ⟨t, h, hstart, hentry, hloop⟩

end MethodIR.Import
