import MethodIR.Proofs.EndedBlocks

/-!
# Control flow of imported bodies

Control flows through an imported body as it does through the code (`importMethod_controlFlow`): the row
of blocks of a run of code ends as its last instruction does, and all other edges are those of guards,
those within rows, and the one from the block before the code.
-/

namespace MethodIR

open List Kind Option

variable {α : Type} {l : List α}

lemma forall₂_mem_iff {β : Type} {R : α → β → Prop} {l' : List β} (h : Forall₂ R l l')
    (hunique : ∀ a b b', R a b → R a b' → b = b') (b : β) : b ∈ l' ↔ ∃ a ∈ l, R a b := by
  induction h with
  | nil => simp
  | @cons x y l l' hxy _ ih =>
    rw [mem_cons, ih]
    constructor
    · rintro (rfl | ⟨a, ha, hab⟩)
      · exact ⟨x, mem_cons_self, hxy⟩
      · exact ⟨a, mem_cons_of_mem _ ha, hab⟩
    · rintro ⟨a, ha, hab⟩
      rcases mem_cons.1 ha with rfl | ha
      · exact .inl (hunique _ _ _ hab hxy)
      · exact .inr ⟨a, ha, hab⟩

namespace Bytecode

/-- Control can pass from an instruction to an offset. -/
def Instruction.GoesTo (i : Instruction) (offset : Nat) : Prop :=
  match i.op.flow with
  | .unconditionalBranch | .leave => i.operand = .target offset
  | .conditionalBranch => i.operand = .target offset ∨ offset = i.endOffset
  | .switch => (∃ offsets, i.operand = .table offsets ∧ offset ∈ offsets) ∨ offset = i.endOffset
  | _ => i.op.endsBlock = false ∧ offset = i.endOffset

variable {m : Bytecode} {i j : Instruction} {entry : Nat → BlockId → Prop} {kind : Kind}

lemma Instruction.goesTo_of_inner (h : i.op.endsBlock = false) (offset : Nat) :
    i.GoesTo offset ↔ offset = i.endOffset := by
  have hends := h
  rw [Opcode.endsBlock, Opcode.isTerminator] at hends
  cases hflow : i.op.flow <;> simp_all [GoesTo]

lemma Instruction.Exits.isTerminator (h : i.Exits entry kind) : kind.isTerminator := by
  cases h <;> rfl

lemma Instruction.Exits.mem_successors_iff (h : i.Exits entry kind)
    (hunique : ∀ t a b, entry t a → entry t b → a = b) (b : BlockId) :
    b ∈ kind.successors ↔ ∃ t, i.GoesTo t ∧ entry t b := by
  have hone : ∀ {t a}, entry t a → (entry t b ↔ b = a) := fun ha =>
    ⟨fun hb => hunique _ _ _ hb ha, fun hb => hb ▸ ha⟩
  cases h with
  | jump flow operand leads => simp [GoesTo, flow, operand, successors, hone leads]
  | leave flow operand leads => simp [GoesTo, flow, operand, successors, hone leads]
  | branch flow straight operand leads falls =>
    simp [GoesTo, flow, operand, successors, or_and_right, exists_or, hone leads, hone falls]
  | branchFalse negated operand leads falls =>
    have hflow : i.op.flow = .conditionalBranch := by
      rcases negated with hop | hop <;> rw [hop] <;> rfl
    simp [GoesTo, hflow, operand, successors, or_and_right, exists_or, hone leads, hone falls, or_comm]
  | switch flow operand leads falls =>
    simp [GoesTo, flow, operand, successors, or_and_right, exists_or, forall₂_mem_iff leads hunique,
      hone falls]
  | ret flow | throw flow | resume flow =>
    simp [GoesTo, flow, successors, Opcode.endsBlock, Opcode.isTerminator]
  | next inner falls => simp [goesTo_of_inner inner, successors, hone falls]

lemma Contiguous.endOffset_inj (h : m.Contiguous) (hi : i ∈ m.code.toList) (hj : j ∈ m.code.toList)
    (heq : i.endOffset = j.endOffset) : i = j := by
  obtain ⟨n, hn⟩ := mem_iff_getElem?.1 hi
  obtain ⟨k, hk⟩ := mem_iff_getElem?.1 hj
  rw [Array.getElem?_toList] at hn hk
  have hn' := (Array.getElem?_eq_some_iff.1 hn).1
  have hk' := (Array.getElem?_eq_some_iff.1 hk).1
  rw [← boundary_succ h hn, ← boundary_succ h hk] at heq
  have := boundary_inj h (by omega) (by omega) heq
  obtain rfl : n = k := by omega
  exact some.inj (hn.symm.trans hk)

end Bytecode

namespace Import

open Body

variable {m : Bytecode} {leaders : List Nat} {own : BlockId → Option Nat} {c : Outline} {n rest : Nat}
  {s : State} {i j : InstId} {a b b' : BlockId}

/-- The ways in which control passes from a block to another one. -/
inductive Passes (m : Bytecode) (leaders : List Nat) (own : BlockId → Option Nat) (s : State) :
    BlockId → BlockId → Prop
  /-- From the code of a segment, as its last instruction says. -/
  | exit {n : Nat} {x : Bytecode.Instruction} {offset : Nat} {b : BlockId} (lt : n < s.segments.size)
    (last : LastOf m s n x) (goesTo : x.GoesTo offset) (entry : s.EntryAt offset b) :
    Passes m leaders own s (s.segment n).block b
  /-- From a guard to the handler or the filter of its region. -/
  | guard {g : InstId} {r : Bytecode.Region} {offset : Nat} {a b : BlockId} (mem : (g, r) ∈ s.guards)
    (host : (s.body.inst g).block = some a) (start : offset ∈ r.handlerStarts) (entry : s.EntryAt offset b) :
    Passes m leaders own s a b
  /-- From the block before the code. -/
  | lead (zero : 0 ∈ leaders) : Passes m leaders own s ⟨0⟩ (s.segment 0).entryBlock
  /-- From a block that was split off to the next one in its row. -/
  | split {n : Nat} {row : List BlockId} {a b : BlockId} (lt : n < s.segments.size) (row_of : Row own s n row)
    (next : [a, b] <:+: row) : Passes m leaders own s a b

/-- The blocks and edges of a body are those of the code, with `own b` the segment of block `b`. -/
structure ControlFlow (m : Bytecode) (leaders : List Nat) (own : BlockId → Option Nat) (s : State) : Prop where
  leaders_eq : Import.leaders m = .ok leaders
  segments : s.segments.toList.map (fun x => (x.start, x.stop)) = ranges m.codeSize leaders
  /-- A block ends with a terminator and has no other one. -/
  terminated : ∀ b, s.body.hasBlock b → ∃ inner term, s.body.instsOf b = inner ++ [term] ∧
    (s.body.kind term).isTerminator ∧ ∀ i ∈ inner, (s.body.kind i).isTerminator = false
  entry : ∃ b, s.body.entry = some b ∧ s.body.hasBlock b ∧ s.body.preds b = []
  preds : ∀ a b, a ∈ s.body.preds b ↔ b ∈ s.body.succs a
  /-- Blocks stand in rows, but for one before the code, and guards where their regions start. -/
  linked : Linked leaders own s
  regions : s.guards.map Prod.snd = m.regions.reverse
  /-- Control gets to the code at an offset in one way. -/
  entryAt : ∀ offset a b, s.EntryAt offset a → s.EntryAt offset b → a = b
  /-- The terminator of a segment is the one for its last instruction. -/
  exits : ∀ n, n < s.segments.size → ∃ term, (s.body.instsOf (s.segment n).block).getLast? = some term ∧
    ExitsBy m s n (s.body.kind term)
  edges : ∀ a b, b ∈ s.body.succs a ↔ Passes m leaders own s a b

/-! ## Segments -/

lemma Parted.segments_eq (h : Parted m leaders own s) :
    s.segments.toList.map (fun x => (x.start, x.stop)) = ranges m.codeSize leaders := by
  refine ext_getElem? fun n => ?_
  rw [getElem?_map, Array.getElem?_toList]
  rcases Nat.lt_or_ge n s.segments.size with hn | hn
  · rw [h.range n hn, State.segment, Array.getElem?_eq_getElem hn, Array.getD_eq_getD_getElem?,
      Array.getElem?_eq_getElem hn]
    rfl
  · rw [Array.getElem?_eq_none hn, getElem?_eq_none (h.size ▸ hn)]
    rfl

lemma Parted.entryAt_unique (h : Parted m leaders own s) (hleaders : Leaders m leaders) {offset : Nat}
    (ha : s.EntryAt offset a) (hb : s.EntryAt offset b) : a = b := by
  obtain ⟨n, hn, hstart, rfl⟩ := ha
  obtain ⟨k, hk, hstart', rfl⟩ := hb
  rw [h.start_inj hleaders hn hk (hstart.trans hstart'.symm)]

lemma LastOf.unique {x y : Bytecode.Instruction} (hm : m.Contiguous) (hx : LastOf m s n x)
    (hy : LastOf m s n y) : x = y :=
  hm.endOffset_inj hx.mem hy.mem (hx.stop.trans hy.stop.symm)

lemma getLast?_or_next {a : α} (h : a ∈ l) : l.getLast? = some a ∨ ∃ b, [a, b] <:+: l := by
  obtain ⟨pre, post, rfl⟩ := append_of_mem h
  cases post with
  | nil => exact .inl (by simp)
  | cons b post => exact .inr ⟨b, pre, post, by simp⟩

/-! ## Terminators -/

lemma Kind.isTerminator_or_isGuard {kind : Kind} (h : b ∈ kind.successors) : kind.isTerminator ∨ kind.isGuard := by
  cases kind <;> simp_all [successors, isTerminator, isGuard]

lemma Ending.getLast?_eq (h : Ending rest s) (hi : i ∈ s.body.instsOf a)
    (hterm : (s.body.kind i).isTerminator) : (s.body.instsOf a).getLast? = some i := by
  have hne := ne_nil_of_mem hi
  rw [← dropLast_append_getLast hne, mem_append, mem_singleton] at hi
  rcases hi with hi | rfl
  · simp [h.last a i hi] at hterm
  · exact getLast?_eq_some_getLast hne

section Ground

variable (h : Ground c s.segments.size s)

include h

lemma Ground.terminated (hb : s.body.hasBlock b) : ∃ inner term, s.body.instsOf b = inner ++ [term] ∧
    (s.body.kind term).isTerminator ∧ ∀ i ∈ inner, (s.body.kind i).isTerminator = false := by
  obtain ⟨term, hlast, hterm⟩ := h.ending.ended b hb fun n hn hn' => absurd hn' (by omega)
  refine ⟨(s.body.instsOf b).dropLast, term, ?_, hterm, h.ending.last b⟩
  exact (dropLast_append_getLast? term hlast).symm

lemma Ground.entry_preds : s.body.preds ⟨0⟩ = [] := by
  refine eq_nil_iff_forall_not_mem.2 fun a ha => ?_
  obtain ⟨i, hi, ht⟩ := h.intact.mem_succs.1 ((h.intact.wired.edges.symm a ⟨0⟩).2 ha)
  obtain ⟨n, hn, hzero, -⟩ := h.guarded.edges i a ⟨0⟩ hi ht
  rw [h.parted.entry_own] at hn
  split at hn
  · simp at hn
  · next hnot => exact hnot (hzero (some.inj hn).symm)

lemma Ground.exit (hn : n < s.segments.size) : ∃ term,
    (s.body.instsOf (s.segment n).block).getLast? = some term ∧ ExitsBy c.m s n (s.body.kind term) := by
  obtain ⟨i, hi, hexits⟩ := h.exits n hn hn
  refine ⟨i, h.ending.getLast?_eq ((h.intact.wired.attached.mem_iff _ i).2 hi) ?_, hexits⟩
  obtain ⟨x, -, hx⟩ := hexits
  exact hx.isTerminator

lemma Ground.eq_of_jumpsTo (hi : (s.body.inst i).block = some a) (hterm : (s.body.kind i).isTerminator)
    (hb : b ∈ (s.body.kind i).successors) (hjump : s.body.JumpsTo a b') : b = b' := by
  obtain ⟨j, hj, hkind⟩ := hjump
  have hlast : ∀ k, (s.body.inst k).block = some a → (s.body.kind k).isTerminator →
      (s.body.instsOf a).getLast? = some k := fun k hk =>
    h.ending.getLast?_eq ((h.intact.wired.attached.mem_iff a k).2 hk)
  obtain rfl : i = j := some.inj ((hlast i hi hterm).symm.trans (hlast j hj (by rw [hkind]; rfl)))
  simpa [hkind, successors] using hb

/-! ## Edges -/

lemma Ground.mem_succs_of_jumpsTo (hjump : s.body.JumpsTo a b) : b ∈ s.body.succs a := by
  obtain ⟨i, hi, hkind⟩ := hjump
  exact h.intact.mem_succs.2 ⟨i, hi, by simp [hkind, successors]⟩

variable (hleaders : Leaders c.m c.leaders)

include hleaders

lemma Ground.passes_of_terminator (hi : (s.body.inst i).block = some a)
    (hterm : (s.body.kind i).isTerminator) (hb : b ∈ (s.body.kind i).successors) :
    Passes c.m c.leaders c.own s a b := by
  have hmem := (h.intact.wired.attached.mem_iff a i).2 hi
  have hblock := hasBlock_of_mem hmem
  by_cases hown : ∃ n, n < s.segments.size ∧ c.own a = some n
  · obtain ⟨n, hn, hown⟩ := hown
    obtain ⟨row, hrow⟩ := h.linked.rows n hn
    rcases getLast?_or_next ((hrow.mem a).2 ⟨hblock, hown⟩) with hlast | ⟨b', hnext⟩
    · obtain rfl : a = (s.segment n).block := some.inj (hlast.symm.trans hrow.last)
      obtain ⟨term, hend, x, hx, hexits⟩ := h.exit hn
      obtain rfl : i = term := some.inj ((h.ending.getLast?_eq hmem hterm).symm.trans hend)
      obtain ⟨t, hgoes, hentry⟩ :=
        (hexits.mem_successors_iff (fun _ _ _ => h.parted.entryAt_unique hleaders) b).1 hb
      exact .exit hn hx hgoes hentry
    · have hjump : s.body.JumpsTo a b' := by simpa using hrow.jumps.infix hnext
      obtain rfl := h.eq_of_jumpsTo hi hterm hb hjump
      exact .split hn hrow hnext
  · obtain ⟨hzero, rfl⟩ := h.linked.outside a hblock fun n hn heq => hown ⟨n, hn, heq⟩
    obtain rfl := h.eq_of_jumpsTo hi hterm hb (h.linked.lead hzero)
    exact .lead hzero

lemma Ground.mem_succs_iff_passes (hm : c.m.Contiguous) :
    b ∈ s.body.succs a ↔ Passes c.m c.leaders c.own s a b := by
  have hunique : ∀ t a b, s.EntryAt t a → s.EntryAt t b → a = b := fun _ _ _ =>
    h.parted.entryAt_unique hleaders
  constructor
  · intro hedge
    obtain ⟨i, hi, hb⟩ := h.intact.mem_succs.1 hedge
    rcases Kind.isTerminator_or_isGuard hb with hterm | hguard
    · exact h.passes_of_terminator hleaders hi hterm hb
    · obtain ⟨r, hr⟩ := h.linked.listed i a hi hguard
      obtain ⟨offset, hstart, hentry⟩ := (h.linked.guards _ hr).guards.entryAt hb
      exact .guard hr hi hstart hentry
  · intro hpasses
    cases hpasses with
    | @exit n x offset _ lt last goesTo entry =>
      obtain ⟨i, hi, x', hx', hexits⟩ := h.exits n lt lt
      obtain rfl := last.unique hm hx'
      exact h.intact.mem_succs.2 ⟨i, hi, (hexits.mem_successors_iff hunique b).2 ⟨offset, goesTo, entry⟩⟩
    | @guard g r offset _ _ mem host start entry =>
      refine h.intact.mem_succs.2 ⟨g, host, ?_⟩
      exact (forall₂_mem_iff (h.linked.guards _ mem).guards.targets hunique b).2 ⟨offset, start, entry⟩
    | lead zero => exact h.mem_succs_of_jumpsTo (h.linked.lead zero)
    | split lt row_of next =>
      exact h.mem_succs_of_jumpsTo (by simpa using row_of.jumps.infix next)

end Ground

theorem importMethod_controlFlow {log : Array Event} {u : Unit} {t : Trace State} (hm : m.Contiguous)
    (h : importMethod m ⟨State.ofMethod m, log⟩ = .ok u t) : ∃ leaders own, ControlFlow m leaders own t.state := by
  obtain ⟨c, rfl, hleaders, hsize, hground⟩ := importMethod_outline hm h
  have hspec := leaders_eq_ok hleaders
  refine ⟨c.leaders, c.own, hleaders, hground.parted.segments_eq, fun b hb => hground.terminated hb,
    ⟨⟨0⟩, hground.parted.entry, ?_, hground.entry_preds⟩,
    fun a b => (hground.intact.wired.edges.symm a b).symm, hground.linked, hground.regions,
    fun _ _ _ => hground.parted.entryAt_unique hspec, fun n hn => hground.exit hn,
    fun a b => hground.mem_succs_iff_passes hspec hm⟩
  have hblock := (hground.parted.block 0 hsize).1
  simp only [hasBlock, decide_eq_true_eq] at hblock ⊢
  omega

/-- A loop back to the start of the code, where two regions start. -/
def guardedLoop : Bytecode where
  name := "GuardedLoop"
  declaring := .object
  sig := { params := [], ret := .void }
  code := #[⟨.nop, 0, .none⟩, ⟨.ldcI40, 1, .none⟩, ⟨.brfalseS, 2, .target 0⟩, ⟨.leaveS, 4, .target 12⟩,
    ⟨.pop, 6, .none⟩, ⟨.leaveS, 7, .target 12⟩, ⟨.pop, 9, .none⟩, ⟨.leaveS, 10, .target 12⟩, ⟨.ret, 12, .none⟩]
  regions := [{ kind := .typed, tryStart := 0, tryEnd := 6, handlerStart := 6, handlerEnd := 9,
                caught := some .object },
              { kind := .typed, tryStart := 0, tryEnd := 9, handlerStart := 9, handlerEnd := 12,
                caught := some .object }]

/-- The loop goes back to the block with the guard of the outer region, and no longer to the block with its
code. -/
theorem guardedLoop_controlFlow : guardedLoop.Contiguous ∧
    ∃ t, importMethod guardedLoop ⟨State.ofMethod guardedLoop, #[]⟩ = .ok () t ∧
      (t.state.segment 0).entryBlock ≠ (t.state.segment 0).block ∧
      t.state.body.kind ⟨4⟩ = .branch (t.state.segment 1).entryBlock (t.state.segment 0).entryBlock ∧
      ∃ leaders own, ControlFlow guardedLoop leaders own t.state := by
  have hm : guardedLoop.Contiguous := ⟨rfl, rfl, rfl, rfl, rfl, rfl, rfl, rfl, rfl, trivial⟩
  obtain ⟨t, h, hok⟩ := exists_of_imported? (m := guardedLoop) (p := fun s => decide (
    (s.segment 0).entryBlock ≠ (s.segment 0).block ∧
    s.body.kind ⟨4⟩ = .branch (s.segment 1).entryBlock (s.segment 0).entryBlock)) (by decide +kernel)
  obtain ⟨hentry, hkind⟩ := of_decide_eq_true hok
  exact ⟨hm, t, h, hentry, hkind, importMethod_controlFlow hm h⟩

end Import

end MethodIR
