import MethodIR.Proofs.DepthFirst
import MethodIR.Proofs.ImportPhases

/-!
# Variables stored to in exception regions

A variable that is stored to in an exception region and does not stay in memory is accessed by one block
alone (`Screened.block_of_access`), so only a handler that leads back to that block can see it.
-/

namespace MethodIR

open List FlowGraph DepthFirst Body Kind

namespace Body

variable {body : Body} {v : VarId} {start b : BlockId}

/-- On every path from a block, a store to the variable comes before each load of it. -/
def StoredBefore (body : Body) (v : VarId) (start : BlockId) : Prop :=
  ∀ b path, Path (Edge body.succs) start b path → ∀ pre i post, body.instsOf b = pre ++ i :: post →
    body.kind i = .loadVar v → ∃ j, body.kind j = .storeVar v ∧ (j ∈ pre ∨ ∃ c ∈ path.dropLast, j ∈ body.instsOf c)

/-- A block loads a variable before it stores to it. -/
def LoadsFirst (body : Body) (v : VarId) (b : BlockId) : Prop :=
  ∃ pre i post, body.instsOf b = pre ++ i :: post ∧ body.kind i = .loadVar v ∧ ∀ j ∈ pre, body.kind j ≠ .storeVar v

end Body

namespace FlowGraph

variable {α : Type} {E : α → α → Prop} {r b : α} {p : List α}

lemma Path.exists_first (h : Path E r b p) : ∃ q, Path E r b q ∧ b ∉ q.dropLast := by
  induction h with
  | single a => exact ⟨[a], .single a, by simp⟩
  | @step a a' c p edge rest ih =>
    obtain ⟨q, hq, hlast⟩ := ih
    by_cases ha : a = c
    · exact ⟨[a], ha ▸ .single a, by simp⟩
    · have hne : q ≠ [] := by
        rintro rfl
        cases hq
      refine ⟨a :: q, .step edge hq, ?_⟩
      rw [dropLast_cons_of_ne_nil hne]
      simpa [Ne.symm ha] using hlast

end FlowGraph

namespace Body

variable {body : Body} {v : VarId} {start b : BlockId}

lemma storedBefore_iff (honly : ∀ c, ∀ i ∈ body.instsOf c, (body.kind i).var? = some v → c = b) :
    body.StoredBefore v start ↔ ¬(Reachable (Edge body.succs) start b ∧ body.LoadsFirst v b) := by
  constructor
  · rintro hall ⟨⟨path, hpath⟩, pre, i, post, hsplit, hload, hpre⟩
    obtain ⟨q, hq, hfirst⟩ := hpath.exists_first
    obtain ⟨j, hj, hmem | ⟨c, hc, hmem⟩⟩ := hall b q hq pre i post hsplit hload
    · exact hpre j hmem hj
    · obtain rfl := honly c j hmem (by rw [hj]; rfl)
      exact hfirst hc
  · intro hnot c path hpath pre i post hsplit hload
    obtain rfl : c = b := honly c i (by simp [hsplit]) (by rw [hload]; rfl)
    by_contra hnone
    refine hnot ⟨⟨path, hpath⟩, pre, i, post, hsplit, hload, fun j hj hstored => ?_⟩
    exact hnone ⟨j, hstored, .inl hj⟩

end Body

namespace Import

open Success Traced

variable {m : Bytecode} {leaders : List Nat} {own : BlockId → Option Nat} {s s' : State} {v w : VarId}
  {b entry : BlockId} {t t' : Trace State} {u : Unit}

/-! ## Uses -/

def State.usageOf (s : State) (v : VarId) : Usage := s.usage.getD v.index {}

lemma usageOf_noteUse (hv : s.body.hasVar v) (b : BlockId) (inRegion : Bool) (w : VarId) :
    (s.noteUse v b inRegion).usageOf w = if w = v then
      { block := (s.usageOf v).block.or (some b)
        isShared := (s.usageOf v).isShared || (s.usageOf v).block.any (· ≠ b)
        isStoredInRegion := (s.usageOf v).isStoredInRegion || inRegion } else s.usageOf w := by
  have hlt : v.index < s.body.vars.size := by simpa [hasVar] using hv
  let usage := if s.usage.size ≤ v.index
    then s.usage ++ Array.replicate (s.body.vars.size - s.usage.size) ({} : Usage) else s.usage
  have hsize : v.index < usage.size := by
    simp only [usage]
    split
    · rw [Array.size_append, Array.size_replicate]
      omega
    · omega
  have hsame : ∀ k, usage.getD k {} = s.usage.getD k {} := by
    intro k
    simp only [usage]
    split
    · simp only [Array.getD_eq_getD_getElem?, Array.getElem?_append, Array.getElem?_replicate]
      split
      · rfl
      · next hk =>
        rw [Array.getElem?_eq_none (Nat.not_lt.1 hk)]
        split <;> rfl
    · rfl
  change (usage.modify v.index _).getD w.index {} = _
  rw [Tables.getD_modify, hsame]
  by_cases hw : w = v
  · subst hw
    rw [if_pos ⟨rfl, hsize⟩, if_pos rfl]
    rfl
  · rw [if_neg fun h => hw (VarId.ext h.1.symm), if_neg hw]
    rfl

def State.UsedBy (s : State) (v : VarId) (b : BlockId) : Prop :=
  (s.usageOf v).isShared ∨ (s.usageOf v).block = some b

lemma State.UsedBy.noteUse (h : s.UsedBy w b) (hv : s.body.hasVar v) (c : BlockId) (inRegion : Bool) :
    (s.noteUse v c inRegion).UsedBy w b := by
  rw [UsedBy, usageOf_noteUse hv]
  split
  · next hw =>
    subst hw
    rcases h with h | h <;> simp [h]
  · exact h

lemma usedBy_noteUse (hv : s.body.hasVar v) (b : BlockId) (inRegion : Bool) :
    (s.noteUse v b inRegion).UsedBy v b := by
  rw [State.UsedBy, usageOf_noteUse hv, if_pos rfl]
  cases hb : (s.usageOf v).block with
  | none => simp
  | some c => by_cases hc : c = b <;> simp [hc]

lemma storedInRegion_noteUse (hw : s.body.hasVar w) (h : (s.usageOf v).isStoredInRegion) (b : BlockId)
    (inRegion : Bool) : ((s.noteUse w b inRegion).usageOf v).isStoredInRegion := by
  rw [usageOf_noteUse hw]
  split
  · next hv =>
    subst hv
    simp [h]
  · exact h

def State.InRegion (s : State) (b : BlockId) : Prop :=
  ∃ n, n < s.segments.size ∧ (s.segment n).block = b ∧ (s.segment n).inRegion

lemma State.InRegion.congr (h : s'.InRegion b) (hsame : SameCode s s') : s.InRegion b := by
  obtain ⟨n, hn, hb, hregion⟩ := h
  exact ⟨n, hsame.size ▸ hn, (hsame.same n).2.2.1 ▸ hb, hsame.inRegion n ▸ hregion⟩

structure Noted (s : State) : Prop where
  there : ∀ b, ∀ i ∈ s.body.instsOf b, s.body.hasInst i
  used : ∀ b, ∀ i ∈ s.body.instsOf b, ∀ v, (s.body.kind i).var? = some v → s.body.hasVar v ∧ s.UsedBy v b
  stored : ∀ b, s.InRegion b → ∀ i ∈ s.body.instsOf b, ∀ v, s.body.kind i = .storeVar v →
    (s.usageOf v).isStoredInRegion
  cursor : s.InRegion s.cursor.block → s.cursor.inRegion

lemma Noted.noteUse (h : Noted s) (hv : s.body.hasVar v) (c : BlockId) (inRegion : Bool) :
    Noted (s.noteUse v c inRegion) where
  there := h.there
  used b i hi w hw := (h.used b i hi w hw).imp_right fun hused => hused.noteUse hv c inRegion
  stored b hb i hi w hw := storedInRegion_noteUse hv (h.stored b hb i hi w hw) c inRegion
  cursor := h.cursor

lemma Noted.append (h : Noted s) {kind : Kind} {vs : List Value} {ty : Ty} (hblock : s.body.hasBlock s.cursor.block)
    (hused : ∀ v, kind.var? = some v → s.body.hasVar v ∧ s.UsedBy v s.cursor.block)
    (hstored : ∀ v, kind = .storeVar v → s.InRegion s.cursor.block → (s.usageOf v).isStoredInRegion) :
    Noted (s.append kind vs ty) := by
  have hg : s.body.Grows (s.append kind vs ty).body := grows_append ..
  -- What is in a block was there before, or it is the new instruction.
  have hinsts : ∀ b, ∀ i ∈ (s.append kind vs ty).body.instsOf b,
      (s.body.hasInst i ∧ i ∈ s.body.instsOf b ∧ (s.append kind vs ty).body.kind i = s.body.kind i) ∨
      b = s.cursor.block ∧ i = s.nextInst := by
    intro b i hi
    have hold : i ∈ s.body.instsOf b → s.body.hasInst i ∧ i ∈ s.body.instsOf b ∧
        (s.append kind vs ty).body.kind i = s.body.kind i := fun hmem =>
      ⟨h.there b i hmem, hmem, (hg.inst i (h.there b i hmem)).2.1⟩
    rw [State.append, instsOf_append _ _ _ _ _ hblock] at hi
    split at hi
    · next hb =>
      rw [mem_append, mem_singleton] at hi
      exact hi.imp (fun hi => hold (hb ▸ hi)) fun hi => ⟨hb, hi⟩
    · exact .inl (hold hi)
  have hkind := (append_kind s kind vs ty).1
  refine ⟨fun b i hi => ?_, fun b i hi v hv => ?_, fun b hb i hi v hv => ?_, h.cursor⟩
  · rcases hinsts b i hi with ⟨hhas, -⟩ | ⟨-, rfl⟩
    · exact (hg.inst i hhas).1
    · simp [hasInst, State.nextInst, State.append, insts_size_append]
  · have hnoted : s.body.hasVar v ∧ s.UsedBy v b := by
      rcases hinsts b i hi with ⟨-, hmem, hsame⟩ | ⟨rfl, rfl⟩
      · exact h.used b i hmem v (hsame ▸ hv)
      · exact hused v (hkind ▸ hv)
    exact ⟨(hg.var v hnoted.1).1, hnoted.2⟩
  · rcases hinsts b i hi with ⟨-, hmem, hsame⟩ | ⟨rfl, rfl⟩
    · exact h.stored b hb i hmem v (hsame ▸ hv)
    · exact hstored v (hkind.symm.trans hv) hb

lemma Noted.congr (h : Noted s) (hg : s.body.Grows s'.body)
    (hinsts : ∀ b, s'.body.instsOf b = s.body.instsOf b) (husage : s'.usage = s.usage) (hsame : SameCode s s')
    (hcursor : s'.InRegion s'.cursor.block → s'.cursor.inRegion) : Noted s' := by
  have hkind : ∀ b, ∀ i ∈ s'.body.instsOf b, i ∈ s.body.instsOf b ∧ s'.body.hasInst i ∧
      s'.body.kind i = s.body.kind i := fun b i hi => by
    rw [hinsts] at hi
    obtain ⟨hhas, hkind, -⟩ := hg.inst i (h.there b i hi)
    exact ⟨hi, hhas, hkind⟩
  have husageOf : ∀ v, s'.usageOf v = s.usageOf v := fun v => by
    rw [State.usageOf, husage, State.usageOf]
  refine ⟨fun b i hi => (hkind b i hi).2.1, fun b i hi v hv => ?_, fun b hb i hi v hv => ?_, hcursor⟩
  · obtain ⟨hmem, -, heq⟩ := hkind b i hi
    obtain ⟨hhas, hused⟩ := h.used b i hmem v (heq ▸ hv)
    rw [State.UsedBy, husageOf]
    exact ⟨(hg.var v hhas).1, hused⟩
  · obtain ⟨hmem, -, heq⟩ := hkind b i hi
    rw [husageOf]
    exact h.stored b (hb.congr hsame) i hmem v (heq ▸ hv)

lemma Step.noted (h : Step s s') (hparted : Parted m leaders own s) (hs : Noted s) : Noted s' := by
  have hsame := h.sameCode
  have hg := h.grows
  cases h with
  | cursor f _ block inRegion =>
    refine hs.congr hg (fun _ => rfl) rfl hsame fun hb => ?_
    change (f s.cursor).inRegion = true
    rw [inRegion]
    refine hs.cursor ?_
    have hb := hb.congr hsame
    change s.InRegion (f s.cursor).block at hb
    rwa [block] at hb
  | @enter n lt =>
    refine hs.congr hg (fun _ => rfl) rfl hsame fun hb => ?_
    obtain ⟨k, hk, hkn, hregion⟩ := hb.congr hsame
    obtain rfl := hparted.block_inj hk lt hkn
    exact hregion
  | emit block plain =>
    exact hs.append block (by simp [plain]) fun v hv => by simp [hv, var?] at plain
  | @load v ty block known =>
    refine (hs.noteUse known _ _).append block (fun w hw => ?_) (by simp)
    obtain rfl := Option.some.inj hw
    exact ⟨known, usedBy_noteUse known _ _⟩
  | @address v ty block known =>
    have hexpose : (s.used v false).body.Grows ((s.used v false).expose v).body :=
      grows_modifyVar v (fun _ => rfl) fun _ => rfl
    refine ((hs.noteUse known _ _).congr hexpose (fun _ => rfl) rfl (.of_eq rfl) hs.cursor).append block
      (fun w hw => ?_) (by simp)
    obtain rfl := Option.some.inj hw
    exact ⟨(hexpose.var v known).1, usedBy_noteUse known _ _⟩
  | @store v u block takes =>
    refine (hs.noteUse takes.1 _ _).append block (fun w hw => ?_) fun w hw hregion => ?_
    · obtain rfl := Option.some.inj hw
      exact ⟨takes.1, usedBy_noteUse takes.1 _ _⟩
    · obtain rfl := storeVar.inj hw
      have hinside : s.cursor.inRegion = true := hs.cursor hregion
      change ((s.noteUse v _ _).usageOf v).isStoredInRegion
      rw [usageOf_noteUse takes.1, if_pos rfl]
      simp [hinside]
  | declare => exact hs.congr hg (fun _ => rfl) rfl hsame hs.cursor
  | expect n => exact hs.congr hg (fun _ => rfl) rfl hsame fun hb => hs.cursor (hb.congr hsame)

lemma Steps.noted (h : Steps s s') (hparted : Parted m leaders own s) (hs : Noted s) : Noted s' := by
  refine (h.induction (P := fun x => Parted m leaders own x ∧ Noted x) ⟨hparted, hs⟩ ?_).2
  rintro x y hstep ⟨hparted, hx⟩
  have hg := hstep.grows
  refine ⟨hparted.congr hstep.sameCode.toSameSegments hg.block ?_, hstep.noted hparted hx⟩
  rw [hg.entry _ hparted.entry, hparted.entry]

/-! ## From the arguments to the marks -/

lemma copyArguments_usedBy (h : copyArguments t = .ok u t') (hentry : t.state.body.entry = some entry)
    (hvars : ∀ v ∈ t.state.argVars.toList, t.state.body.hasVar v) :
    t'.state.cursor = t.state.cursor ∧ ∀ x ∈ t.state.argVars.toList.zipIdx, t'.state.UsedBy x.1 entry := by
  have hall := copyArguments_induction (P := fun done s => s.cursor = t.state.cursor ∧
    (∀ v ∈ t.state.argVars.toList, s.body.hasVar v) ∧ ∀ x ∈ done, s.UsedBy x.1 entry) h hentry
    ⟨rfl, hvars, by simp⟩ ?_ ?_
  · exact ⟨hall.1, fun x hx => hall.2.2 x (mem_reverse.2 hx)⟩
  · rintro done x hx s ⟨hcursor, hvars, hused⟩ -
    have hvars' : ∀ v ∈ t.state.argVars.toList, (s.withArg entry x).body.hasVar v := fun v hv =>
      ((grows_addInst s.body (.storeVar x.1) [.arg ⟨x.2⟩] .void).var v (hvars v hv)).1
    have hx := hvars' x.1 (fst_mem_of_mem_zipIdx hx)
    refine ⟨hcursor, hvars', fun y hy => ?_⟩
    rcases mem_cons.1 hy with rfl | hy
    · exact usedBy_noteUse (s := { s with body := _ }) hx entry false
    · exact State.UsedBy.noteUse (s := { s with body := _ }) (hused y hy) hx entry false
  · rintro done x i s ⟨hcursor, hvars, hused⟩ - -
    exact ⟨hcursor, fun v hv => ((grows_attach ..).var v (hvars v hv)).1, hused⟩

lemma zero_mem_bounds {r : Bytecode.Region} (h : r.contains 0) : 0 ∈ r.bounds := by
  simp only [Bytecode.Region.contains, Bytecode.Region.tryContains, Bytecode.Region.handlerContains,
    Bool.or_eq_true, Bool.and_eq_true, decide_eq_true_eq, Option.any_eq_true, Nat.le_zero] at h
  rcases h with ⟨htry, -⟩ | ⟨start, hfilter, rfl, -⟩ | ⟨hhandler, -⟩
  · simp [Bytecode.Region.bounds, htry]
  · simp [Bytecode.Region.bounds, hfilter]
  · simp [Bytecode.Region.bounds, hhandler]

lemma Waiting.entry_not_inRegion (h : Waiting m s) (hleaders : Leaders m leaders)
    (hparted : Parted m leaders own s) : ¬s.InRegion ⟨0⟩ := by
  rintro ⟨n, hn, hblock, hregion⟩
  have hown := (hparted.block n hn).2
  rw [hblock, hparted.entry_own] at hown
  split at hown
  · cases hown
  · next hzero =>
    obtain rfl := Option.some.inj hown
    rw [h.inRegion 0 hn, hparted.start_zero hleaders hn, any_eq_true] at hregion
    obtain ⟨r, hr, hcontains⟩ := hregion
    exact hzero ((hleaders.regions r hr).2.2 0 (zero_mem_bounds hcontains))

lemma Fenced.noted (h : Fenced m leaders own m.regions t.state)
    (hleaders : Leaders m leaders) (hwaiting : Waiting m t.state) (hrun : copyArguments t = .ok u t') :
    Noted t'.state := by
  have hentry := h.parted.entry
  obtain ⟨hextended, stores, hstores, -, hinsts⟩ := copyArguments_spec hrun hentry (h.intact.laid.entry _ hentry)
  have hvars : ∀ v ∈ t.state.argVars.toList, t.state.body.hasVar v := by
    intro v hv
    obtain ⟨n, hn, rfl⟩ := mem_iff_getElem.1 hv
    refine (h.framed.var (.argument n) _ ?_).1
    rw [State.frameVar?]
    simp
  obtain ⟨hcursor, hused⟩ := copyArguments_usedBy hrun hentry hvars
  have hg := hextended.grows
  -- What names a variable is one of the stores of the arguments.
  have hcases : ∀ b, ∀ i ∈ t'.state.body.instsOf b, t'.state.body.hasInst i ∧
      ∀ v, (t'.state.body.kind i).var? = some v → b = ⟨0⟩ ∧ ∃ n, (v, n) ∈ t.state.argVars.toList.zipIdx := by
    intro b i hi
    have hold : i ∈ t.state.body.instsOf b → t'.state.body.hasInst i ∧ ∀ v,
        (t'.state.body.kind i).var? = some v → b = ⟨0⟩ ∧ ∃ n, (v, n) ∈ t.state.argVars.toList.zipIdx := fun hmem => by
      have hhas : t.state.body.hasInst i := h.intact.wired.attached.hasInst hmem
      obtain ⟨hhas', hkind, -⟩ := hg.inst i hhas
      refine ⟨hhas', fun v hv => ?_⟩
      have hkinds := h.kinds i hhas
      rw [kind, hkind, ← kind] at hv
      cases hk : t.state.body.kind i <;> simp_all [var?, isGuard, isTerminator]
    rw [hinsts] at hi
    split at hi
    · next hb =>
      rcases mem_append.1 hi with hnew | hmem
      · obtain ⟨x, hx, hhas, hkind, -⟩ := exists_of_mem_right hstores hnew
        refine ⟨hhas, fun v hv => ⟨hb, x.2, ?_⟩⟩
        rw [hkind] at hv
        obtain rfl := Option.some.inj hv
        exact hx
      · exact hold hmem
    · exact hold hi
  have hregion : ¬t'.state.InRegion ⟨0⟩ := fun hzero =>
    hwaiting.entry_not_inRegion hleaders h.parted (hzero.congr (.of_eq hextended.segments))
  refine ⟨fun b i hi => (hcases b i hi).1, fun b i hi v hv => ?_, fun b hb i hi v hv => ?_, fun hb => ?_⟩
  · obtain ⟨rfl, n, hmem⟩ := (hcases b i hi).2 v hv
    exact ⟨(hg.var v (hvars v (fst_mem_of_mem_zipIdx hmem))).1, hused _ hmem⟩
  · obtain ⟨rfl, -⟩ := (hcases b i hi).2 v (by rw [hv]; rfl)
    exact absurd hb hregion
  · rw [hcursor, hwaiting.cursor] at hb
    exact absurd hb hregion

lemma exposeIfCrossing_spec {use : Usage} (h : exposeIfCrossing use w t = .ok u t') (hv : t.state.body.hasVar v) :
    t'.state.body.hasVar v ∧ ((t'.state.body.var v).isExposed ↔
      (t.state.body.var v).isExposed ∨ w = v ∧ use.crossesRegion) := by
  simp only [exposeIfCrossing, getState_bind_iff] at h
  have hlt : v.index < t.state.body.vars.size := by simpa [hasVar] using hv
  split at h
  · next hcross =>
    simp only [bind_iff, edit_iff, modify_iff, report_iff] at h
    obtain ⟨_, _, ⟨_, rfl, rfl⟩, rfl⟩ := h
    refine ⟨by simpa [hasVar, modifyVar] using hlt, ?_⟩
    rw [var, modifyVar, Tables.getD_modify, ← var]
    have hcross : use.crossesRegion = true := by simp_all
    by_cases hw : w = v
    · simp [hw, hlt, hcross]
    · rw [if_neg fun h => hw (VarId.ext h.1)]
      simp [hw]
  · next hcross =>
    obtain ⟨-, rfl⟩ := pure_iff.1 h
    refine ⟨hv, .inl, ?_⟩
    rintro (hexposed | ⟨rfl, huse⟩)
    · exact hexposed
    · simpa [huse] using hcross

lemma exposeAll_spec (xs : List (Usage × Nat)) : ∀ (t t' : Trace State) (u : Unit),
    (xs.forM (fun (use, n) => exposeIfCrossing use ⟨n⟩) : M Unit) t = .ok u t' → t.state.body.hasVar v →
      ((t'.state.body.var v).isExposed ↔
        (t.state.body.var v).isExposed ∨ ∃ use, (use, v.index) ∈ xs ∧ use.crossesRegion) := by
  induction xs with
  | nil =>
    intro t t' u h hv
    obtain ⟨-, rfl⟩ := pure_iff.1 h
    simp
  | cons x xs ih =>
    intro t t' u h hv
    change (exposeIfCrossing x.1 ⟨x.2⟩ >>= fun _ =>
      xs.forM fun (use, n) => exposeIfCrossing use ⟨n⟩) t = _ at h
    obtain ⟨_, t₁, hone, hrest⟩ := bind_iff.1 h
    obtain ⟨hv₁, hexposed⟩ := exposeIfCrossing_spec hone hv
    rw [ih t₁ t' u hrest hv₁, hexposed, or_assoc]
    refine or_congr_right ⟨?_, ?_⟩
    · rintro (⟨hx, hcross⟩ | ⟨use, hmem, hcross⟩)
      · exact ⟨x.1, by simp [← hx], hcross⟩
      · exact ⟨use, mem_cons_of_mem _ hmem, hcross⟩
    · rintro ⟨use, hmem, hcross⟩
      rcases mem_cons.1 hmem with rfl | hmem
      · exact .inl ⟨rfl, hcross⟩
      · exact .inr ⟨use, hmem, hcross⟩

lemma markExposed_exposes (h : markExposed t = .ok u t')
    (hv : t.state.body.hasVar v) : (t'.state.body.var v).isExposed ↔
      (t.state.body.var v).isExposed ∨ (t.state.usageOf v).crossesRegion := by
  simp only [markExposed, getState_bind_iff] at h
  rw [exposeAll_spec _ t t' u h hv]
  refine or_congr_right ⟨?_, fun hcross => ⟨t.state.usageOf v, ?_, hcross⟩⟩
  · rintro ⟨use, hmem, hcross⟩
    have hget := mem_zipIdx_iff_getElem?.1 hmem
    rw [State.usageOf, Array.getD_eq_getD_getElem?, ← Array.getElem?_toList]
    rw [show t.state.usage.toList[v.index]? = some use from hget]
    exact hcross
  · -- What has not been used does not cross a region.
    have hlt : v.index < t.state.usage.size := by
      by_contra hge
      rw [State.usageOf, Tables.getD_of_size_le _ _ _ (by omega)] at hcross
      exact absurd hcross (by decide)
    rw [mem_zipIdx_iff_getElem?, State.usageOf, Array.getD_eq_getD_getElem?, Array.getElem?_toList,
      Array.getElem?_eq_getElem hlt]
    rfl

/-! ## Imported methods -/

structure Screened (m : Bytecode) (s : State) : Prop where
  noted : Noted s
  inRegion : ∀ n, n < s.segments.size → (s.segment n).inRegion = m.regions.any (·.contains (s.segment n).start)
  exposed : ∀ b, ∀ i ∈ s.body.instsOf b, ∀ v, (s.body.kind i).var? = some v →
    (s.usageOf v).crossesRegion → (s.body.var v).isExposed
  handlers : ∀ r ∈ m.regions, ∀ offset ∈ r.handlerStarts, ∃ b, s.EntryAt offset b

lemma importMethod_screened {log : Array Event}
    (h : importMethod m ⟨State.ofMethod m, log⟩ = .ok u t) : Screened m t.state := by
  obtain ⟨leaders, own, _, t₁, t₂, t₃, t₄, hleaders, -, -, hfenced, hwaiting, hargs, hsteps, hmark, ht⟩ :=
    importMethod_phases h
  obtain ⟨hextended, -⟩ := copyArguments_spec hargs hfenced.parted.entry
    (hfenced.intact.laid.entry _ hfenced.parted.entry)
  obtain ⟨body, ht₄, hgrows, hinsts⟩ := markExposed_spec hmark
  have hcode : SameCode t₁.state t₃.state := (SameCode.of_eq hextended.segments).trans hsteps.sameCode
  have hparted : Parted m leaders own t₂.state :=
    hfenced.parted.congr (.of_eq hextended.segments) hextended.grows.block
      ((hextended.grows.entry _ hfenced.parted.entry).trans hfenced.parted.entry.symm)
  have hnoted : Noted t₃.state := hsteps.noted hparted (hfenced.noted hleaders hwaiting hargs)
  rw [ht]
  have hsame : SameCode t₃.state t₄.state := .of_eq (by rw [ht₄])
  have hall := hcode.trans hsame
  refine ⟨?_, fun n hn => ?_, fun b i hi v hv hcross => ?_, fun r hr offset hoffset => ?_⟩
  · refine hnoted.congr (by rw [ht₄]; exact hgrows) (by rw [ht₄]; exact hinsts) (by rw [ht₄]) hsame fun hb => ?_
    have hcursor : t₄.state.cursor = t₃.state.cursor := by rw [ht₄]
    rw [hcursor] at hb ⊢
    exact hnoted.cursor (hb.congr hsame)
  · rw [hall.inRegion, (hall.same n).1]
    exact hwaiting.inRegion n (hall.size ▸ hn)
  · rw [ht₄] at hi hv hcross
    rw [hinsts] at hi
    rw [kind, (hgrows.inst i (hnoted.there b i hi)).2.1] at hv
    exact (markExposed_exposes hmark (hnoted.used b i hi v hv).1).2 (.inr hcross)
  · have hmem : r ∈ t₁.state.guards.map Prod.snd := by
      rw [hfenced.regions]
      exact mem_reverse.2 hr
    obtain ⟨⟨g, _⟩, hg, rfl⟩ := mem_map.1 hmem
    have htargets := (hfenced.linked.guards _ hg).guards.targets
    obtain ⟨k, hk, rfl⟩ := mem_iff_getElem.1 hoffset
    exact ⟨_, (htargets.get hk (htargets.length_eq ▸ hk)).congr hall.toSameSegments⟩

/-- A variable that a block stores to inside an exception region is not accessed by any other block, unless
it is exposed. -/
lemma Screened.block_of_access (h : Screened m s) {n : Nat} (hn : n < s.segments.size)
    (hregion : m.regions.any (·.contains (s.segment n).start)) (hexposed : (s.body.var v).isExposed = false)
    (hstore : ∃ i ∈ s.body.instsOf (s.segment n).block, s.body.kind i = .storeVar v)
    (c : BlockId) : ∀ i ∈ s.body.instsOf c, (s.body.kind i).var? = some v → c = (s.segment n).block := by
  intro i hi hvar
  obtain ⟨j, hj, hstore⟩ := hstore
  obtain ⟨-, husedBy⟩ := h.noted.used _ j hj v (by rw [hstore]; rfl)
  obtain ⟨-, husedBy'⟩ := h.noted.used c i hi v hvar
  have hstored := h.noted.stored _ ⟨n, hn, rfl, (h.inRegion n hn).trans hregion⟩ j hj v hstore
  have hshared : (s.usageOf v).isShared = false := by
    by_contra hshared
    have hcross := h.exposed c i hi v hvar (by simp [Usage.crossesRegion, hstored, hshared])
    simp [hexposed] at hcross
  rw [State.UsedBy, hshared] at husedBy husedBy'
  simp only [Bool.false_eq_true, false_or] at husedBy husedBy'
  exact Option.some.inj (husedBy'.symm.trans husedBy)

/-- A block stores to a variable in the protected range of an exception region, and the variable is not
exposed. Then no other block accesses the variable; and on every path from the handler, or from the filter, a
store comes before each load, unless the block can be reached from there and loads the variable first. -/
theorem storedBefore_handler_iff {t : Trace State} {u : Unit} {log : Array Event} {n : Nat}
    {r : Bytecode.Region} (h : importMethod m ⟨State.ofMethod m, log⟩ = .ok u t) (hr : r ∈ m.regions)
    (hn : n < t.state.segments.size) (hstart : r.tryContains (t.state.segment n).start)
    (hexposed : (t.state.body.var v).isExposed = false)
    (hstore : ∃ i ∈ t.state.body.instsOf (t.state.segment n).block, t.state.body.kind i = .storeVar v) :
    (∀ c, ∀ i ∈ t.state.body.instsOf c, (t.state.body.kind i).var? = some v → c = (t.state.segment n).block) ∧
    ∀ offset ∈ r.handlerStarts, (∃ start, t.state.EntryAt offset start) ∧
      ∀ start, t.state.EntryAt offset start → (t.state.body.StoredBefore v start ↔
        ¬(Reachable (Edge t.state.body.succs) start (t.state.segment n).block ∧
          t.state.body.LoadsFirst v (t.state.segment n).block)) := by
  have hscreened := importMethod_screened h
  have hregion : m.regions.any (·.contains (t.state.segment n).start) :=
    any_eq_true.2 ⟨r, hr, by simp [Bytecode.Region.contains, hstart]⟩
  have honly := hscreened.block_of_access hn hregion hexposed hstore
  exact ⟨honly, fun offset hoffset => ⟨hscreened.handlers r hr offset hoffset,
    fun start _ => storedBefore_iff honly⟩⟩

/-- Tries again after an exception, with a variable that is set first. -/
def freshAttempts : Bytecode where
  name := "FreshAttempts"
  declaring := .object
  sig := { params := [.i32], ret := .void }
  locals := [{ ty := .i32 }]
  code := #[⟨.ldarg0, 0, .none⟩, ⟨.stloc0, 1, .none⟩, ⟨.ldcI41, 2, .none⟩, ⟨.ldloc0, 3, .none⟩,
    ⟨.div, 4, .none⟩, ⟨.pop, 5, .none⟩, ⟨.leaveS, 6, .target 11⟩, ⟨.pop, 8, .none⟩, ⟨.leaveS, 9, .target 0⟩,
    ⟨.ret, 11, .none⟩]
  regions := [{ kind := .typed, tryStart := 0, tryEnd := 8, handlerStart := 8, handlerEnd := 11,
                caught := some .object }]

theorem freshAttempts_storedBefore : ∃ t,
    importMethod freshAttempts ⟨.ofMethod freshAttempts, #[]⟩ = .ok () t ∧ t.state.EntryAt 8 ⟨2⟩ ∧
      Reachable (Edge t.state.body.succs) ⟨2⟩ (t.state.segment 0).block ∧
        t.state.body.StoredBefore ⟨1⟩ ⟨2⟩ := by
  obtain ⟨t, h, hok⟩ := exists_of_imported? (m := freshAttempts) (p := fun s => decide (s.segments.size = 3 ∧
    (s.segment 0).start = 0 ∧ (s.segment 0).block = ⟨1⟩ ∧ (s.segment 1).start = 8 ∧
    (s.segment 1).entryBlock = ⟨2⟩ ∧ (s.body.var ⟨1⟩).isExposed = false ∧
    (s.body.instsOf ⟨1⟩).take 3 = [⟨1⟩, ⟨3⟩, ⟨4⟩] ∧
    (∀ i ∈ [(⟨1⟩ : InstId), ⟨3⟩, ⟨4⟩], s.body.kind i ≠ .loadVar ⟨1⟩) ∧ s.body.kind ⟨4⟩ = .storeVar ⟨1⟩ ∧
    ⟨1⟩ ∈ s.body.succs ⟨2⟩)) (by decide +kernel)
  obtain ⟨hsize, hstart, hblock, hstart', hentry, hexposed, hinsts, hkinds, hstore, hedge⟩ :=
    of_decide_eq_true hok
  have hsplit := take_append_drop 3 (t.state.body.instsOf ⟨1⟩)
  rw [hinsts] at hsplit
  have hat : t.state.EntryAt 8 ⟨2⟩ := ⟨1, by omega, hstart', hentry⟩
  have hreach : Reachable (Edge t.state.body.succs) ⟨2⟩ (t.state.segment 0).block := by
    rw [hblock]
    exact ⟨_, .step hedge (.single _)⟩
  refine ⟨t, h, hat, hreach, ?_⟩
  have hall := storedBefore_handler_iff (v := ⟨1⟩) (n := 0) h mem_cons_self (by omega)
    (by rw [hstart]; rfl) hexposed ⟨⟨4⟩, by rw [hblock, ← hsplit]; simp, hstore⟩
  refine ((hall.2 8 (by decide)).2 ⟨2⟩ hat).2 ?_
  -- Before the store there are only the guard and the load of the argument.
  rintro ⟨-, pre, i, post, hload, hi, hpre⟩
  rw [hblock, ← hsplit] at hload
  rcases pre with _ | ⟨a, _ | ⟨b, _ | ⟨c, pre⟩⟩⟩ <;>
    simp only [cons_append, nil_append, cons.injEq] at hload
  · exact hkinds i (by simp [← hload.1]) hi
  · exact hkinds i (by simp [← hload.2.1]) hi
  · exact hkinds i (by simp [← hload.2.2.1]) hi
  · exact hpre c (by simp) (hload.2.2.1 ▸ hstore)

/-- Adds to a variable, and starts again after an exception. -/
def countedAttempts : Bytecode where
  name := "CountedAttempts"
  declaring := .object
  sig := { params := [.i32], ret := .void }
  locals := [{ ty := .i32 }]
  code := #[⟨.ldloc0, 0, .none⟩, ⟨.ldcI41, 1, .none⟩, ⟨.ldarg0, 2, .none⟩, ⟨.div, 3, .none⟩,
    ⟨.add, 4, .none⟩, ⟨.stloc0, 5, .none⟩, ⟨.leaveS, 6, .target 11⟩, ⟨.pop, 8, .none⟩,
    ⟨.leaveS, 9, .target 0⟩, ⟨.ret, 11, .none⟩]
  regions := [{ kind := .typed, tryStart := 0, tryEnd := 8, handlerStart := 8, handlerEnd := 11,
                caught := some .object }]

/-- The variable is stored to inside the region and loaded after an exception, but it is not exposed. -/
theorem countedAttempts_not_storedBefore : ∃ t,
    importMethod countedAttempts ⟨.ofMethod countedAttempts, #[]⟩ = .ok () t ∧
      (t.state.body.var ⟨1⟩).canPromote ∧ (t.state.segment 0).start = 0 ∧
      (∃ i ∈ t.state.body.instsOf (t.state.segment 0).block, t.state.body.kind i = .storeVar ⟨1⟩) ∧
      t.state.EntryAt 8 ⟨2⟩ ∧ ¬t.state.body.StoredBefore ⟨1⟩ ⟨2⟩ := by
  obtain ⟨t, h, hok⟩ := exists_of_imported? (m := countedAttempts) (p := fun s => decide (s.segments.size = 3 ∧
    (s.segment 0).start = 0 ∧ (s.segment 0).block = ⟨1⟩ ∧ (s.segment 1).start = 8 ∧
    (s.segment 1).entryBlock = ⟨2⟩ ∧ (s.body.var ⟨1⟩).canPromote = true ∧
    s.body.instsOf ⟨1⟩ = [⟨1⟩, ⟨3⟩, ⟨4⟩, ⟨5⟩, ⟨6⟩, ⟨7⟩, ⟨8⟩] ∧ s.body.instsOf ⟨2⟩ = [⟨9⟩] ∧
    s.body.kind ⟨3⟩ = .loadVar ⟨1⟩ ∧ s.body.kind ⟨7⟩ = .storeVar ⟨1⟩ ∧ s.body.kind ⟨1⟩ ≠ .storeVar ⟨1⟩ ∧
    s.body.kind ⟨9⟩ ≠ .storeVar ⟨1⟩ ∧ ⟨1⟩ ∈ s.body.succs ⟨2⟩)) (by decide +kernel)
  obtain ⟨hsize, hstart, hblock, hstart', hentry, hpromote, hinsts, hinsts', hload, hstore, hguard, hleave,
    hedge⟩ := of_decide_eq_true hok
  refine ⟨t, h, hpromote, hstart, ⟨⟨7⟩, by rw [hblock, hinsts]; simp, hstore⟩,
    ⟨1, by omega, hstart', hentry⟩, fun hbefore => ?_⟩
  obtain ⟨j, hj, hpre | ⟨c, hc, hmem⟩⟩ :=
    hbefore ⟨1⟩ [⟨2⟩, ⟨1⟩] (.step hedge (.single _)) [⟨1⟩] ⟨3⟩ _ hinsts hload
  · exact hguard (mem_singleton.1 hpre ▸ hj)
  · obtain rfl : c = ⟨2⟩ := mem_singleton.1 hc
    rw [hinsts'] at hmem
    exact hleave (mem_singleton.1 hmem ▸ hj)

end Import

end MethodIR
