import MethodIR.Proofs.EndedBlocks

/-!
# All segments of a method

The block of a segment, entered with the stack where it is expected, runs to its terminator in step with the
bytecode and goes on where that goes on (`lowerSegment_spec`). Lowering segment after segment leaves what is
complete as it is (`Progress.step`), so in the end this holds of all blocks (`importMethod_progress`).
-/

namespace MethodIR.Import

open List Success Body.Machine Traced Body State Scene
open Bytecode (Transfer)

variable {V : Type} {c : Scene V} {o : Outline} {m : Bytecode} {leaders : List Nat} {s s' s₀ : State} {n : Nat}
  {slots : List EntrySlot} {il il' : Bytecode.Machine V} {transfer : Transfer} {u : Unit} {t t' : Trace State}
  {log : Array Event}

/-! ## A segment -/

structure Scene.Enters (c : Scene V) (s : State) (n : Nat) (slots : List EntrySlot) : Prop where
  stack : c.il.stack = (slots.map fun x => (x.read c.I c.ir, x.ty s.body)).reverse
  slots : ∀ slot v, s.frameVar? slot = some v → c.il.slots slot = c.ir.vars v
  modifiers : c.il.modifiers = {}
  effects : c.il.effects = c.ir.effects
  choices : c.il.choices = c.ir.choices
  running : c.il.halted = false
  offset : c.il.offset = (s.segment n).start

/-- The segments before `n` are lowered, and the variables of the frame and of the stacks are apart. -/
structure Laid (o : Outline) (n : Nat) (s : State) : Prop extends Ground o n s where
  framed : Framed o.m s
  stackVars : StackVars s

lemma Ground.closed (h : Ground o n s) {b : BlockId} {i : InstId} (hi : i ∈ s.body.instsOf b) : Closed s.body i :=
  ⟨h.intact.wired.attached.hasInst hi, fun v hv => h.sourced.vars i v (by rw [hv]; rfl)⟩

lemma StackVars.known_entry (h : StackVars s) (n : Nat) :
    ∀ x ∈ (s.segment n).entryStack.getD [], x.Known s.body := by
  cases hentry : (s.segment n).entryStack with
  | none => simp
  | some slots => exact h.known n slots hentry

lemma lowerSegment_spec (h : lowerSegment c.m n ⟨s, log⟩ = .ok u t) (hlaid : Laid o n s) (hc : o.m = c.m)
    (hleaders : Leaders c.m o.leaders) (hm : c.m.Contiguous) (hn : n < s.segments.size)
    (hblock : c.block = (s.segment n).block) (hskip : c.skip = (s.body.instsOf c.block).length)
    (henters : c.Enters s n ((s.segment n).entryStack.getD [])) :
    c.Later (s.enter n) t.state ∧ ∀ shape, (∀ a, a ∉ cuts c.m o.leaders → shape a = none) →
      ∃ transfer il' k, ({ c with il := il' } : Scene V).Ends t.state il' transfer ∧ 0 < k ∧
        Bytecode.Machine.steps c.I c.m shape k c.il = il'.goOn shape (s.segment n).stop transfer ∧
        il'.path = c.il.path ∧ il'.halted = false ∧ ∀ target, transfer = .goto target → target ∈ o.leaders := by
  rw [lowerSegment_eq] at h
  simp only [bind_iff, ↓getState_bind_iff, modifyState_iff, ofExcept_iff, report_iff] at h
  obtain ⟨_, _, rfl, _, t₂, henter, code, _, ⟨hcode, rfl⟩, _, t₄, hlower, rfl⟩ := h
  have hextends := extends_enter s n
  have hrange := hlaid.parted.range n hn
  rw [hc] at hrange
  have hran : c.ran s.body = c.ir := by
    rw [ran, hskip, drop_length]
    rfl
  have hat : c.At (s.enter n) { c.il with stack := [] } := by
    refine ⟨hc ▸ hlaid.framed.extends hextends, hblock.symm, hblock ▸ (hlaid.parted.block n hn).1, hskip.le,
      fun _ => hlaid.closed, fun v hv => absurd hv not_mem_nil, rfl, fun slot v hv => ?_, henters.modifiers, ?_, ?_,
      ⟨rfl, rfl, rfl⟩, hlaid.stackVars.extends hextends fun _ _ => entryStack_enter⟩
    · exact (henters.slots slot v hv).trans (congrFun (congrArg Body.Machine.vars hran.symm) v)
    · exact henters.effects.trans (congrArg effects hran.symm)
    · exact henters.choices.trans (congrArg choices hran.symm)
  obtain ⟨hlater₂, hat₂⟩ := enterStack_spec _ _ _ _ t₂ _ henter hat (hlaid.stackVars.known_entry n)
  obtain ⟨first, hsegment, hfirst, hstop⟩ := segment_code hleaders hm hrange hcode
  have hil : ({ c.il with stack := (((s.segment n).entryStack.getD []).map fun x =>
      (x.read c.I (c.ran s.body), x.ty s.body)).reverse ++ [] } : Bytecode.Machine V) = c.il := by
    rw [hran, append_nil, ← henters.stack]
  have hat₃ : c.At t₂.state c.il := hil ▸ hat₂
  rw [← hstop] at hlower
  have hoffset : c.il.offset = c.m.boundary first := henters.offset.trans hfirst.symm
  have hcodes : ∀ shape, _ := fun shape hshape => lowerCode_spec shape hleaders hm hshape code
    first t₂.state t₂.log _ t₄ c.il hsegment hlower hat₃ henters.running hoffset
  refine ⟨hlater₂.trans (hcodes (fun _ => none) fun _ _ => rfl).1, fun shape hshape => ?_⟩
  obtain ⟨-, transfer, il', hends, hsteps, hpath, hhalted, htarget⟩ := hcodes shape hshape
  rw [hstop] at hsteps
  exact ⟨transfer, il', code.length, hends, length_pos_iff.2 hsegment.ne_nil, hsteps, hpath, hhalted, htarget⟩

/-! ## What follows later -/

structure Scene.Hands (c : Scene V) (s : State) (n : Nat) (il : Bytecode.Machine V)
    (transfer : Transfer) : Prop where
  slots : ∀ slot v, s.frameVar? slot = some v → il.slots slot = (c.ran s.body).vars v
  effects : il.effects = (c.ran s.body).effects
  last : ∃ kind, c.EndsWith s kind ∧
    match transfer with
    | .next => c.Reaches s il kind (n + 1)
    | .goto target => ∃ k, (s.segment k).start = target ∧ c.Reaches s il kind k
    | .stop => (c.ran s.body).follow kind = some { c.ran s.body with halted := true } ∧
      il.choices = (c.ran s.body).choices

lemma Scene.Ends.hands (h : ({ c with il := il' } : Scene V).Ends s il transfer) (hn : s.cursor.index = n) :
    c.Hands s n il transfer := by
  subst hn
  exact ⟨h.stand.slots, h.stand.effects, h.last⟩

lemma Scene.ran_extends (h : Extends s s') (hinsts : s'.body.instsOf c.block = s.body.instsOf c.block)
    (hclosed : ∀ i ∈ s.body.instsOf c.block, Closed s.body i) : c.ran s'.body = c.ran s.body := by
  rw [ran, hinsts]
  exact foldl_exec_congr (fun i hi => hclosed i (mem_of_mem_drop hi)) h.grows

lemma Scene.Reaches.extends {kind : Kind} {k : Nat} (h : c.Reaches s il kind k) (hs : Extends s s')
    (hran : c.ran s'.body = c.ran s.body) : c.Reaches s' il kind k := by
  obtain ⟨hk, hfollow, vars, hexpects, hhold⟩ := h
  refine ⟨hs.segments.size ▸ hk, ?_, vars, hs.segments.expects k _ hexpects, ?_⟩
  · rw [hran, (hs.segments.same k).2.2.2]
    exact hfollow
  · rw [Scene.Hold, hran]
    exact hhold

lemma Scene.Hands.extends (h : c.Hands s n il transfer) (hs : Extends s s')
    (hinsts : s'.body.instsOf c.block = s.body.instsOf c.block)
    (hclosed : ∀ i ∈ s.body.instsOf c.block, Closed s.body i) : c.Hands s' n il transfer := by
  have hran := ran_extends hs hinsts hclosed
  obtain ⟨hslots, heffects, kind, ⟨hterm, i, hlast, hi, hkind⟩, htransfer⟩ := h
  refine ⟨fun slot v hv => ?_, by rw [hran, heffects], kind, ⟨hterm, i, by rw [hinsts, hlast],
    (hs.grows.inst i hi).1, (hs.grows.inst i hi).2.1.trans hkind⟩, ?_⟩
  · rw [hran]
    rw [hs.frameVar?] at hv
    exact hslots slot v hv
  · cases transfer with
    | next => exact htransfer.extends hs hran
    | goto target =>
      obtain ⟨k, hstart, hreaches⟩ := htransfer
      exact ⟨k, (hs.segments.same k).1.trans hstart, hreaches.extends hs hran⟩
    | stop =>
      rw [hran]
      exact htransfer

/-- A segment is lowered: its block, entered like the code, runs in step with it. The first `skip`
instructions of the block are not part of the code. -/
def Lowered (m : Bytecode) (leaders : List Nat) (skip : Nat) (s : State) (n : Nat) : Prop :=
  ∃ slots, (s.segment n).entryStack = some slots ∧ (∀ x ∈ slots, x.Known s.body) ∧
    ∀ (V : Type) (c : Scene V), c.m = m → c.block = (s.segment n).block → c.skip = skip →
      c.Enters s n slots → ∀ shape, (∀ a, a ∉ cuts m leaders → shape a = none) →
      ∃ transfer il' k, c.Hands s n il' transfer ∧ 0 < k ∧
        Bytecode.Machine.steps c.I m shape k c.il = il'.goOn shape (s.segment n).stop transfer ∧
        il'.path = c.il.path ∧ il'.halted = false ∧
        ∀ target, transfer = .goto target → target ∈ leaders

lemma Scene.Enters.extends (h : c.Enters s' n slots) (hs : Extends s s') (hknown : ∀ x ∈ slots, x.Known s.body) :
    c.Enters s n slots := by
  refine ⟨?_, fun slot v hv => h.slots slot v (by rwa [hs.frameVar?]), h.modifiers, h.effects, h.choices,
    h.running, h.offset.trans (hs.segments.same n).1⟩
  rw [h.stack]
  refine congrArg reverse (map_congr_left fun x hx => ?_)
  rw [((hknown x hx).mono hs.grows).2]

lemma Lowered.extends {skip : Nat} (h : Lowered m leaders skip s n) (hs : Extends s s')
    (hinsts : s'.body.instsOf (s.segment n).block = s.body.instsOf (s.segment n).block)
    (hclosed : ∀ i ∈ s.body.instsOf (s.segment n).block, Closed s.body i) : Lowered m leaders skip s' n := by
  obtain ⟨slots, hslots, hknown, hruns⟩ := h
  refine ⟨slots, hs.segments.expects n _ hslots, fun x hx => ((hknown x hx).mono hs.grows).1, ?_⟩
  intro V c hm hblock hskip henters shape hshape
  rw [(hs.segments.same n).2.2.1] at hblock
  obtain ⟨transfer, il', k, hhands, hrest⟩ := hruns V c hm hblock hskip (henters.extends hs hknown) shape hshape
  rw [(hs.segments.same n).2.1]
  exact ⟨transfer, il', k, hhands.extends hs (by rwa [hblock]) (by rwa [hblock]), hrest⟩

/-! ## All segments -/

/-- The segments before `n` are lowered, and nothing has been added to the blocks of the others. -/
structure Progress (o : Outline) (s₀ s : State) (n : Nat) : Prop where
  laid : Laid o n s
  extend : Extends s₀ s
  lowered : ∀ k < n, Lowered o.m o.leaders (s₀.body.instsOf (s₀.segment k).block).length s k
  rest : ∀ k, n ≤ k → k < s.segments.size →
    s.body.instsOf (s.segment k).block = s₀.body.instsOf (s₀.segment k).block
  outside : ∀ b, (∀ k < s.segments.size, b ≠ (s.segment k).block) → s.body.instsOf b = s₀.body.instsOf b
  initial : ∀ b, s₀.body.instsOf b <+: s.body.instsOf b
  first : if n = 0 then (s.segment 0).entryStack = none else s.Expects 0 []

def Scene.blank (m : Bytecode) (block : BlockId) (skip offset : Nat) (stack : List Ty) : Scene Unit where
  I := ⟨fun _ => (), fun _ => (), fun _ => (), fun _ => (), fun _ => ()⟩
  m := m
  block := block
  skip := skip
  ir := { block, env := fun _ => (), vars := fun _ => (), choices := id, path := [] }
  il := { offset, stack := stack.map ((), ·), slots := fun _ => (), choices := id }

lemma Scene.blank_enters (m : Bytecode) (block : BlockId) (skip : Nat) (s : State) (n : Nat)
    (slots : List EntrySlot) : (blank m block skip (s.segment n).start
      (slots.map (EntrySlot.ty s.body)).reverse).Enters s n slots := by
  refine ⟨?_, fun _ _ _ => rfl, rfl, rfl, rfl, rfl, rfl⟩
  simp only [blank, ← map_reverse, map_map]
  rfl

lemma Progress.step (h : Progress o s₀ s n) (hleaders : Leaders o.m o.leaders) (hm : o.m.Contiguous)
    (hn : n < s.segments.size) (hlower : lowerSegment o.m n ⟨s, log⟩ = .ok u t) : Progress o s₀ t.state (n + 1) := by
  have hlaid := h.laid
  have hskip : (s₀.body.instsOf (s₀.segment n).block).length =
      (s.body.instsOf (s.segment n).block).length := by rw [h.rest n le_rfl hn]
  -- what does not depend on a machine is seen with values that say nothing
  obtain ⟨hlater, hends⟩ := lowerSegment_spec (c := blank o.m (s.segment n).block
    (s.body.instsOf (s.segment n).block).length (s.segment n).start _) hlower hlaid rfl hleaders hm hn rfl rfl
    (blank_enters ..)
  have hextends := (extends_enter s n).trans hlater.toExtends
  have hsegments := hextends.segments
  have hslots := hlater.segments.expects n _ (entryStack_enter_self hn)
  obtain ⟨_, _, _, ⟨hstand, -⟩, -⟩ := hends (fun _ => none) fun _ _ => rfl
  have hother : ∀ k, k < s.segments.size → k ≠ n →
      t.state.body.instsOf (s.segment k).block = s.body.instsOf (s.segment k).block := fun k hk hkn =>
    hlater.others _ fun heq => hkn (hlaid.parted.block_inj hk hn heq)
  refine ⟨⟨(lowerSegment_ground hleaders hm log hn hlaid.toGround).2 _ t hlower, hstand.framed, hstand.stackVars⟩,
    h.extend.trans hextends, fun k hk => ?_, fun k hk hk' => ?_, fun b hb => ?_, fun b => (h.initial b).trans ?_, ?_⟩
  · rcases Nat.lt_succ_iff_lt_or_eq.1 hk with hkn | rfl
    · exact (h.lowered k hkn).extends hextends (hother k (hkn.trans hn) hkn.ne) fun _ => hlaid.closed
    · refine ⟨_, hslots, hstand.stackVars.known k _ hslots, fun V c hc hblock hskip' henters shape hshape => ?_⟩
      rw [(hsegments.same k).2.2.1] at hblock
      rw [← hc] at hlower hleaders hm hshape
      obtain ⟨hlater', hends'⟩ := lowerSegment_spec hlower hlaid hc.symm hleaders hm hn hblock
        (by rw [hskip', hskip, hblock]) (henters.extends hextends (hlaid.stackVars.known_entry k))
      obtain ⟨transfer, il', j, hend, hrest⟩ := hends' shape hshape
      rw [(hsegments.same k).2.1, ← hc]
      exact ⟨transfer, il', j, hend.hands hlater'.index, hrest⟩
  · rw [hsegments.size] at hk'
    rw [(hsegments.same k).2.2.1, hother k hk' (by omega)]
    exact h.rest k (by omega) hk'
  · have hb' : ∀ k < s.segments.size, b ≠ (s.segment k).block := fun k hk => by
      rw [← (hsegments.same k).2.2.1]
      exact hb k (hsegments.size ▸ hk)
    exact (hlater.others b (hb' n hn)).trans (h.outside b hb')
  · by_cases hb : b = (s.segment n).block
    · subst hb
      exact hlater.own
    · exact (hlater.others b hb).symm ▸ prefix_rfl
  · rw [if_neg (Nat.succ_ne_zero n)]
    have hfirst := h.first
    split at hfirst
    · next hzero =>
      subst hzero
      rwa [hfirst] at hslots
    · exact hsegments.expects 0 _ hfirst

lemma Progress.all (hleaders : Leaders o.m o.leaders) (hm : o.m.Contiguous) (k : Nat) :
    ∀ (n : Nat) (t t' : Trace State) (u : Unit), Progress o s₀ t.state n → n + k = s₀.segments.size →
    (range' n k).forM (lowerSegment o.m) t = .ok u t' → Progress o s₀ t'.state (n + k) := by
  induction k with
  | zero =>
    intro n t t' u h _ hrun
    obtain ⟨-, rfl⟩ := pure_iff.1 hrun
    exact h
  | succ k ih =>
    intro n t t' u h hsize hrun
    rw [range'_succ] at hrun
    change (lowerSegment o.m n >>= fun _ => (range' (n + 1) k).forM (lowerSegment o.m)) t = _ at hrun
    obtain ⟨_, t₁, hone, hrest⟩ := bind_iff.1 hrun
    have hn : n < t.state.segments.size := by
      rw [h.extend.segments.size]
      omega
    have := ih (n + 1) t₁ t' _ (h.step hleaders hm hn hone) (by omega) hrest
    rwa [show n + 1 + k = n + (k + 1) by omega] at this

lemma Progress.exposed (h : Progress o s₀ t.state n) (hrun : markExposed t = .ok u t') : Progress o s₀ t'.state n := by
  obtain ⟨body, ht, hgrows, hinsts⟩ := markExposed_spec hrun
  have hground := markExposed_ground hrun h.laid.toGround
  rw [ht] at hground ⊢
  have hextends : Extends t.state { t.state with body } := ⟨hgrows, .of_eq rfl, rfl, rfl⟩
  refine ⟨⟨hground, h.laid.framed.extends hextends, h.laid.stackVars.extends hextends fun _ _ => .inl⟩,
    h.extend.trans hextends, fun k hk => (h.lowered k hk).extends hextends (hinsts _) fun _ => h.laid.closed,
    fun k hk hk' => (hinsts _).trans (h.rest k hk hk'), fun b hb => (hinsts b).trans (h.outside b hb), fun b => ?_,
    h.first⟩
  change _ <+: body.instsOf b
  rw [hinsts]
  exact h.initial b

/-- All segments of a method are lowered in the end. No handler that finds an exception starts where the code
does. -/
lemma importMethod_progress (hm : m.Contiguous)
    (hzero : ∀ r ∈ m.regions, passesException r.kind → 0 ∉ r.handlerStarts)
    (h : importMethod m ⟨ofMethod m, log⟩ = .ok u t) : ∃ (o : Outline) (t₁ t₂ t₃ : Trace State), o.m = m ∧
      Import.leaders m = .ok o.leaders ∧ Opening m o.leaders t₁.state ∧ m.regions.forM createGuard t₁ = .ok () t₂ ∧
      (∀ r ∈ m.regions, passesException r.kind → ∀ a ∈ r.handlerStarts, t.state.Catches a) ∧
      copyArguments t₂ = .ok () t₃ ∧ 0 < t.state.segments.size ∧
      Progress o t₃.state t.state t.state.segments.size := by
  obtain ⟨leaders, own, t₁, t₂, t₃, t₄, t₅, hleaders, hne, hblocks, -, hguards, hown, hcatches, hargs, hlower,
    hexpose, ht⟩ := importMethod_fenced h
  have hspec := leaders_eq_ok hleaders
  have hparted := hown.parted
  obtain ⟨hextended, -⟩ := copyArguments_spec hargs hparted.entry (hown.intact.laid.entry _ hparted.entry)
  have hextends := hextended.extends
  have hpos : 0 < t₂.state.segments.size := by
    rw [hparted.size]
    exact length_pos_iff.2 hne
  have hentry : ∀ n, (t₃.state.segment n).entryStack = (t₂.state.segment n).entryStack := fun n => by
    rw [State.segment, hextended.segments, State.segment]
  have hfirst : (t₃.state.segment 0).entryStack = none := by
    rw [hentry]
    cases hslots : (t₂.state.segment 0).entryStack with
    | none => rfl
    | some slots =>
      obtain ⟨g, r, -, hg, hstart, hpasses⟩ := hown.seeded 0 slots hslots
      rw [hparted.start_zero hspec hpos] at hstart
      have hr : r ∈ t₂.state.guards.map Prod.snd := mem_map_of_mem (f := Prod.snd) hg
      rw [hown.regions, mem_reverse] at hr
      exact absurd hstart (hzero r hr hpasses)
  have hlaid : Laid ⟨m, leaders, own, _⟩ 0 t₃.state := ⟨copyArguments_ground hargs hown.ground,
    hown.framed.extends hextends, hown.stackVars.extends hextends fun n slots hn => .inl (hentry n ▸ hn)⟩
  have hall := Progress.all hspec hm t₃.state.segments.size 0 t₃ t₄ () ⟨hlaid, .refl _, by simp, fun _ _ _ => rfl,
    fun _ _ => rfl, fun _ => prefix_rfl, by rw [if_pos rfl, hfirst]⟩ (Nat.zero_add _) hlower
  have hprogress := hall.exposed hexpose
  have hsize := hprogress.extend.segments.size
  rw [Nat.zero_add, ← hsize] at hprogress
  rw [ht]
  refine ⟨_, t₁, t₂, t₃, rfl, hleaders, createBlocks_spec hne hblocks, hguards, fun r hr hpasses a ha => ?_, hargs,
    ?_, hprogress⟩
  · obtain ⟨n, g, hn, hstart, hslots⟩ := hcatches r hr hpasses a ha
    have hgrow := (hextends.trans hprogress.extend).segments
    exact ⟨n, g, hgrow.size ▸ hn, (hgrow.same n).1.trans hstart, hgrow.expects n _ hslots⟩
  · rw [hsize, hextended.segments]
    exact hpos

end MethodIR.Import
