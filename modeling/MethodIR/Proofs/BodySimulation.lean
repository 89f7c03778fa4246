import MethodIR.Proofs.ImportedSegments

/-!
# Bodies do what bytecode does

The body of a method runs in step with its bytecode (`toBody_simulates`), whatever operations mean and
however branches and switches turn out.
-/

namespace MethodIR

open List Bytecode.Machine Body Import

namespace Body.Machine

variable {V : Type} {ir : Body.Machine V}

lemma foldl_exec_path (I : Meaning V) (body : Body) (l : List InstId) (s : Machine V) :
    (l.foldl (exec I body) s).path = s.path ∧ (l.foldl (exec I body) s).halted = s.halted := by
  induction l generalizing s with
  | nil => exact ⟨rfl, rfl⟩
  | cons i l ih =>
    rw [foldl_cons]
    obtain ⟨hpath, hhalted⟩ := ih (exec I body s i)
    exact ⟨hpath.trans exec_path, hhalted.trans exec_halted⟩

end Body.Machine

namespace Import

open Success Body.Machine Traced
open Bytecode (Transfer)

variable {V : Type} {o : Outline} {m : Bytecode} {leaders : List Nat} {own : BlockId → Option Nat} {skip : Nat → Nat}
  {s s₀ : State} {n offset k : Nat} {I : Meaning V} {vars : List VarId} {slots : List EntrySlot}
  {il il' : Bytecode.Machine V}

/-! ## Where segments start -/

def State.startsAt? (s : State) (offset : Nat) : Option Nat :=
  (range s.segments.size).find? fun n => (s.segment n).start = offset

def State.shape (s : State) (offset : Nat) : Option (List Ty) := (s.startsAt? offset).map fun n =>
    (((s.segment n).entryStack.getD []).map (EntrySlot.ty s.body)).reverse

def State.blockAt (s : State) (offset : Nat) : BlockId :=
  ((s.startsAt? offset).map fun n => (s.segment n).block).getD ⟨0⟩

lemma startsAt?_eq_some (h : s.startsAt? offset = some n) : n < s.segments.size ∧ (s.segment n).start = offset :=
  ⟨mem_range.1 (mem_of_find?_eq_some h), by simpa using find?_some h⟩

section

variable (h : Parted m leaders own s)
include h

lemma Parted.isSome_shape_iff (hleaders : Leaders m leaders) (hm : m.Contiguous) :
    (s.shape offset).isSome ↔ offset < m.codeSize ∧ (offset = 0 ∨ offset ∈ leaders) := by
  rw [← h.exists_start_iff hleaders hm, State.shape, Option.isSome_map, State.startsAt?, find?_isSome]
  simp

lemma Parted.shape_of_not_mem_cuts (ho : offset ∉ cuts m leaders) : s.shape offset = none := by
  cases hfind : s.startsAt? offset with
  | none => rw [State.shape, hfind, Option.map_none]
  | some n =>
    obtain ⟨hn, rfl⟩ := startsAt?_eq_some hfind
    exact absurd (mem_of_getElem? (getElem?_ranges.1 (h.range n hn)).1) ho

variable (hleaders : Leaders m leaders) (hn : n < s.segments.size)
include hleaders hn

lemma Parted.startsAt?_start : s.startsAt? (s.segment n).start = some n := by
  cases hfind : s.startsAt? (s.segment n).start with
  | none => simpa using find?_eq_none.1 hfind n (mem_range.2 hn)
  | some k =>
    obtain ⟨hk, hstart⟩ := startsAt?_eq_some hfind
    rw [h.start_inj hleaders hk hn hstart]

lemma Parted.shape_start (hslots : (s.segment n).entryStack = some slots) :
    s.shape (s.segment n).start = some (slots.map (EntrySlot.ty s.body)).reverse := by
  rw [State.shape, h.startsAt?_start hleaders hn, Option.map_some, hslots, Option.getD_some]

lemma Parted.arrive_start (hvars : s.Expects n vars) (hstack : vars.map ir.vars = (il.stack.map Prod.fst).reverse) :
    il.arrive s.shape (s.segment n).start = some { il with
      offset := (s.segment n).start
      stack := ((vars.map EntrySlot.var).map fun x => (x.read I ir, x.ty s.body)).reverse
      modifiers := {}
      path := (s.segment n).start :: il.path } := by
  have hlength : vars.length = il.stack.length := by
    simpa using congrArg length hstack
  have hstack' : il.stack.map Prod.fst = (vars.map ir.vars).reverse := by
    rw [hstack, reverse_reverse]
  rw [arrive, h.shape_start hleaders hn hvars]
  simp only [length_reverse, length_map, hlength, if_true, hstack', map_map]
  rw [← map_reverse, ← map_reverse, ← map_reverse, zip_map']
  rfl

end

/-! ## Blocks one after the other -/

structure Agree (s : State) (first : List BlockId) (ir : Body.Machine V) (il : Bytecode.Machine V) : Prop where
  effects : ir.effects = il.effects
  choices : ir.choices = il.choices
  path : ir.path = il.path.map s.blockAt ++ first
  halted : ir.halted = il.halted

def Ready (m : Bytecode) (skip : Nat → Nat) (s : State) (I : Meaning V) (ir : Body.Machine V)
    (il : Bytecode.Machine V) : Prop :=
  ir.halted ∨ ∃ n slots ir', n < s.segments.size ∧ (s.segment n).entryStack = some slots ∧
    ir.block = (s.segment n).block ∧
    (s.body.instsOf ir.block).foldl (exec I s.body) ir =
      ((s.body.instsOf ir.block).drop (skip n)).foldl (exec I s.body) ir' ∧
    Scene.Enters ⟨I, m, ir.block, skip n, ir', il⟩ s n slots

/-- A method without exception regions is imported: all its segments are lowered, and the entry stores
the arguments, in front of the first segment or in a block that goes there. -/
structure Imported (m : Bytecode) (leaders : List Nat) (skip : Nat → Nat) (s : State) : Prop where
  leaders_eq : Import.leaders m = .ok leaders
  framed : Framed m s
  parted : ∃ own, Parted m leaders own s
  block : ∀ n, n < s.segments.size →
    (s.segment n).block = ⟨leadIn leaders + n⟩ ∧ (s.segment n).entryBlock = (s.segment n).block
  lowered : ∀ n, n < s.segments.size → Lowered m leaders (skip n) s n
  size_pos : 0 < s.segments.size
  first : s.Expects 0 []
  plain : ∀ n, n < s.segments.size → n ≠ 0 ∨ 0 ∈ leaders → skip n = 0
  stores : ∃ stores, Forall₂ (IsStore s.body) s.argVars.toList.zipIdx stores ∧
    if 0 ∈ leaders then ∃ jump, s.body.instsOf ⟨0⟩ = stores ++ [jump] ∧ s.body.kind jump = .jump ⟨1⟩
    else (s.body.instsOf ⟨0⟩).take (skip 0) = stores

lemma importMethod_imported {log : Array Event} {u : Unit} {t : Trace State} (hm : m.Contiguous)
    (hregions : m.regions = []) (h : importMethod m ⟨State.ofMethod m, log⟩ = .ok u t) :
    ∃ leaders skip, Imported m leaders skip t.state := by
  obtain ⟨o, t₁, t₂, t₃, rfl, hleaders, hopening, hguards, -, hargs, hpos, hprogress⟩ :=
    importMethod_progress hm (by simp [hregions]) h
  rw [hregions] at hguards
  obtain ⟨-, rfl⟩ := pure_iff.1 hguards
  have hhas : t₁.state.body.hasBlock ⟨0⟩ := by
    have hlt : 0 < (ranges o.m.codeSize o.leaders).length := hprogress.laid.parted.size ▸ hpos
    rw [hasBlock, hopening.blocks, decide_eq_true_eq]
    exact Nat.lt_of_lt_of_le hlt (Nat.le_add_left _ _)
  obtain ⟨hextended, stores, hstores, -, hinsts⟩ := copyArguments_spec hargs hopening.entry hhas
  have hsegments := hprogress.extend.segments
  have hblock : ∀ n, n < t.state.segments.size → (t₃.state.segment n).block = ⟨leadIn o.leaders + n⟩ ∧
      (t₃.state.segment n).entryBlock = (t₃.state.segment n).block := by
    intro n hn
    rw [hsegments.size, hextended.segments, hopening.size] at hn
    rw [State.segment, hextended.segments, ← State.segment, hopening.segment (getElem?_eq_getElem hn)]
    exact ⟨rfl, rfl⟩
  refine ⟨o.leaders, fun n => (t₃.state.body.instsOf (t₃.state.segment n).block).length, hleaders,
    hprogress.laid.framed, ⟨_, hprogress.laid.parted⟩, fun n hn => ?_, hprogress.lowered, hpos,
    (if_neg hpos.ne').mp hprogress.first, fun n hn hzero => ?_, stores, ?_, ?_⟩
  · rw [(hsegments.same n).2.2.1, (hsegments.same n).2.2.2]
    exact hblock n hn
  · have hindex : 0 < leadIn o.leaders + n := by
      rcases hzero with hzero | hzero
      · omega
      · rw [leadIn, if_pos hzero]
        omega
    have hne₀ : (⟨leadIn o.leaders + n⟩ : BlockId) ≠ ⟨0⟩ := fun h => by
      rw [BlockId.mk.injEq] at h
      omega
    rw [(hblock n hn).1, hinsts, if_neg hne₀, hopening.empty _ (Nat.le_add_right _ _)]
    rfl
  · rw [hprogress.extend.argVars, hextended.argVars]
    exact hstores.imp fun _ _ hs => hs.mono hprogress.extend.grows
  · split
    · next hzero =>
      obtain ⟨jump, hjump, hhasJump, hkind⟩ := hopening.lead hzero
      have houtside : ∀ k < t.state.segments.size, (⟨0⟩ : BlockId) ≠ (t.state.segment k).block := by
        intro k hk h
        rw [(hsegments.same k).2.2.1, (hblock k hk).1, leadIn, if_pos hzero, BlockId.mk.injEq] at h
        omega
      refine ⟨jump, ?_, ((hextended.grows.trans hprogress.extend.grows).inst jump hhasJump).2.1.trans hkind⟩
      rw [hprogress.outside _ houtside, hinsts, if_pos rfl, hjump]
    · next hzero =>
      have hlead : leadIn o.leaders = 0 := if_neg hzero
      have hfirst : t₃.state.body.instsOf ⟨0⟩ = stores := by
        rw [hinsts, if_pos rfl, hopening.empty _ hlead.le, append_nil]
      have hprefix := hprogress.initial ⟨0⟩
      rw [hfirst] at hprefix
      rw [(hblock 0 hpos).1, hlead, Nat.zero_add, hfirst]
      exact (prefix_iff_eq_take.1 hprefix).symm

lemma Imported.reach (h : Imported m leaders skip s) {c : Scene V}
    {kind : Kind} (first : List BlockId) (hreaches : c.Reaches s il' kind k) (hk : k ≠ 0 ∨ 0 ∈ leaders)
    (hslots : ∀ slot v, s.frameVar? slot = some v → il'.slots slot = (c.ran s.body).vars v)
    (heffects : il'.effects = (c.ran s.body).effects) (hrunning : il'.halted = false)
    (hhalted : (c.ran s.body).halted = false) (hpath : (c.ran s.body).path = il'.path.map s.blockAt ++ first) :
    ∃ ir₂ il₂, (c.ran s.body).follow kind = some ir₂ ∧
      il'.arrive s.shape (s.segment k).start = some il₂ ∧ Agree s first ir₂ il₂ ∧ Ready m skip s I ir₂ il₂ := by
  have hleaders := leaders_eq_ok h.leaders_eq
  obtain ⟨own, hparted⟩ := h.parted
  obtain ⟨hlt, hfollow, vars, hexpects, hhold⟩ := hreaches
  have hentry := (h.block k hlt).2
  refine ⟨_, _, hfollow, hparted.arrive_start (I := I) hleaders hlt hexpects hhold, ⟨heffects.symm, rfl, ?_, ?_⟩,
    .inr ⟨k, _, ((c.ran s.body).withChoices il'.choices).enter (s.segment k).entryBlock, hlt, hexpects,
      hentry, ?_, ⟨rfl, hslots, rfl, heffects, rfl, hrunning, rfl⟩⟩⟩
  · change (s.segment k).entryBlock :: (c.ran s.body).path =
      s.blockAt (s.segment k).start :: il'.path.map s.blockAt ++ first
    rw [State.blockAt, hparted.startsAt?_start hleaders hlt, hentry, hpath]
    rfl
  · exact hhalted.trans hrunning.symm
  · rw [h.plain k hlt hk, drop_zero]

lemma Imported.step (h : Imported m leaders skip s) {first : List BlockId} (hagree : Agree s first ir il)
    (hready : Ready m skip s I ir il) : ∃ ir₂ il₂ k, 0 < k ∧ Body.Machine.step I s.body ir = some ir₂ ∧
      steps I m s.shape k il = some il₂ ∧ Agree s first ir₂ il₂ ∧
      Ready m skip s I ir₂ il₂ := by
  have hleaders := leaders_eq_ok h.leaders_eq
  obtain ⟨own, hparted⟩ := h.parted
  rcases hready with hhalted | ⟨n, slots, ir', hn, hslots, hblock, hrest, henters⟩
  · have hhalted' : il.halted = true := hagree.halted.symm.trans hhalted
    refine ⟨ir, il, 1, Nat.one_pos, ?_, ?_, hagree, .inl hhalted⟩
    · rw [Body.Machine.step, if_pos hhalted]
    · rw [Bytecode.Machine.steps_one, Bytecode.Machine.step, if_pos hhalted']
  · obtain ⟨slots', hslots', -, hruns⟩ := h.lowered n hn
    obtain rfl := Option.some.inj (hslots.symm.trans hslots')
    obtain ⟨transfer, il', k, hhands, hpos, hsteps, hpath, hrunning, htarget⟩ :=
      hruns V ⟨I, m, ir.block, skip n, ir', il⟩ rfl hblock rfl henters s.shape
        fun _ => hparted.shape_of_not_mem_cuts
    obtain ⟨hslots, heffects, kind, ⟨hterm, i, hlast, -, hkind⟩, htransfer⟩ := hhands
    have hran : (s.body.instsOf ir.block).foldl (exec I s.body) ir =
        Scene.ran ⟨I, m, ir.block, skip n, ir', il⟩ s.body := hrest
    have hkept := foldl_exec_path I s.body (s.body.instsOf ir.block) ir
    rw [hran] at hkept
    have hir : ir.halted = false := hagree.halted.trans henters.running
    have hstep : Body.Machine.step I s.body ir =
        (Scene.ran ⟨I, m, ir.block, skip n, ir', il⟩ s.body).follow kind := by
      have hend : s.body.terminator? ir.block = some i := by
        rw [terminator?, hlast, Option.filter_some, if_pos (by rw [hkind]; exact hterm)]
      rw [Body.Machine.step, if_neg (by simp [hir]), hend, ← hran, ← hkind]
      rfl
    have hpath' : (Scene.ran ⟨I, m, ir.block, skip n, ir', il⟩ s.body).path =
        il'.path.map s.blockAt ++ first := by
      rw [hkept.1, hagree.path, hpath]
    cases transfer with
    | next =>
      obtain ⟨ir₂, il₂, hfollow, harrive, hagree₂, hready₂⟩ := h.reach (I := I) first htransfer
        (.inl (Nat.succ_ne_zero n)) hslots heffects hrunning (hkept.2.trans hir) hpath'
      rw [← hparted.next htransfer.1] at harrive
      exact ⟨ir₂, il₂, k, hpos, hstep.trans hfollow, hsteps.trans harrive, hagree₂, hready₂⟩
    | goto target =>
      obtain ⟨j, rfl, hreaches⟩ := htransfer
      have hj : j ≠ 0 ∨ 0 ∈ leaders := by
        rcases Nat.eq_zero_or_pos j with rfl | hj
        · have hmem := htarget _ rfl
          rw [hparted.start_zero hleaders hreaches.1] at hmem
          exact .inr hmem
        · exact .inl hj.ne'
      obtain ⟨ir₂, il₂, hfollow, harrive, hagree₂, hready₂⟩ := h.reach (I := I) first hreaches hj
        hslots heffects hrunning (hkept.2.trans hir) hpath'
      exact ⟨ir₂, il₂, k, hpos, hstep.trans hfollow, hsteps.trans harrive, hagree₂, hready₂⟩
    | stop =>
      obtain ⟨hfollow, hchoices⟩ := htransfer
      exact ⟨_, _, k, hpos, hstep.trans hfollow, hsteps, ⟨heffects.symm, hchoices.symm, hpath', rfl⟩, .inl rfl⟩

/-! ## From the start -/

lemma Framed.nodup_argVars (h : Framed m s) : (s.argVars.toList.zipIdx.map Prod.fst).Nodup := by
  rw [zipIdx_map_fst, nodup_iff_pairwise_ne, pairwise_iff_getElem]
  intro i j hi hj hij heq
  have hslot : ∀ k (hk : k < s.argVars.toList.length),
      s.frameVar? (.argument k) = some s.argVars.toList[k] := fun k hk => by
    simp [State.frameVar?]
  have := h.inj (hslot i hi) (heq ▸ hslot j hj)
  simp at this
  omega

section

variable (h : Imported m leaders skip s)
include h

lemma Imported.stored (I : Meaning V) {stores : List InstId}
    (hstores : Forall₂ (IsStore s.body) s.argVars.toList.zipIdx stores) (choices : Nat → Nat) :
    ∃ vars, stores.foldl (exec I s.body) (start I s.body ⟨0⟩ choices) =
        { start I s.body ⟨0⟩ choices with vars } ∧
      ∀ slot v, s.frameVar? slot = some v → (start I choices).slots slot = vars v := by
  have hframed := h.framed
  obtain ⟨vars, hfold, hstored, hkept⟩ := foldl_exec_stores (I := I) hstores hframed.nodup_argVars
    (start I s.body ⟨0⟩ choices)
  refine ⟨vars, hfold, fun slot v hv => ?_⟩
  cases slot with
  | argument n =>
    have hmem : (v, n) ∈ s.argVars.toList.zipIdx := by
      rw [mk_mem_zipIdx_iff_getElem?]
      simpa [State.frameVar?] using hv
    exact (hstored v n hmem).symm
  | «local» n =>
    have hnot : v ∉ s.argVars.toList.zipIdx.map Prod.fst := by
      rw [zipIdx_map_fst]
      intro hmem
      obtain ⟨k, hk⟩ := mem_iff_getElem?.1 hmem
      have hslot : s.frameVar? (.argument k) = some v := by simpa [State.frameVar?] using hk
      exact absurd (hframed.inj hv hslot) (by simp)
    rw [hkept v hnot]
    exact congrArg I.initial (hframed.var _ v hv).2.2.symm

lemma Imported.blockAt_zero : s.blockAt 0 = ⟨leadIn leaders⟩ := by
  have hleaders := leaders_eq_ok h.leaders_eq
  obtain ⟨own, hparted⟩ := h.parted
  have hstart := hparted.startsAt?_start hleaders h.size_pos
  rw [hparted.start_zero hleaders h.size_pos] at hstart
  rw [State.blockAt, hstart, Option.map_some, Option.getD_some, (h.block 0 h.size_pos).1]
  rfl

lemma Imported.start (I : Meaning V) (choices : Nat → Nat) : ∃ ir, run I s.body choices (leadIn leaders) = some ir ∧
      Agree s (replicate (leadIn leaders) ⟨0⟩) ir (start I choices) ∧
      Ready m skip s I ir (start I choices) := by
  have hleaders := leaders_eq_ok h.leaders_eq
  have hpos := h.size_pos
  obtain ⟨own, hparted⟩ := h.parted
  have hzero := hparted.start_zero hleaders hpos
  have hblockAt := h.blockAt_zero
  have hrun : run I s.body choices 0 =
      some (Body.Machine.start I s.body ⟨0⟩ choices) := by
    rw [Body.Machine.run, hparted.entry]
    rfl
  obtain ⟨stores, hstores, hentry⟩ := h.stores
  obtain ⟨vars, hfold, hslots⟩ := h.stored I hstores choices
  by_cases hlead : 0 ∈ leaders
  · have hone : leadIn leaders = 1 := if_pos hlead
    rw [if_pos hlead] at hentry
    obtain ⟨jump, hinsts, hkind⟩ := hentry
    have hlabel : label? s.body (s.body.inst jump) = none := by
      rw [kind] at hkind
      simp [label?, hkind]
    have hall : (s.body.instsOf ⟨0⟩).foldl (exec I s.body) (Body.Machine.start I s.body ⟨0⟩ choices) =
        { Body.Machine.start I s.body ⟨0⟩ choices with vars } := by
      rw [hinsts, foldl_append, hfold, foldl_cons, foldl_nil]
      exact exec_silent hlabel (by simp [hkind]) (by simp [hkind])
    have hend : s.body.terminator? ⟨0⟩ = some jump := by
      rw [terminator?, hinsts, getLast?_concat, Option.filter_some, if_pos (by rw [hkind]; rfl)]
    refine ⟨({ Body.Machine.start I s.body ⟨0⟩ choices with vars } : Body.Machine V).enter ⟨1⟩, ?_,
      ⟨rfl, rfl, ?_, rfl⟩, .inr ⟨0, [],
        ({ Body.Machine.start I s.body ⟨0⟩ choices with vars } : Body.Machine V).enter ⟨1⟩, hpos, h.first,
        ?_, ?_, rfl, hslots, rfl, rfl, rfl, rfl, hzero.symm⟩⟩
    · rw [hone, Body.Machine.run, hrun, Option.bind_some, Body.Machine.step]
      change (s.body.terminator? ⟨0⟩).bind (fun last => follow ((s.body.instsOf ⟨0⟩).foldl
        (exec I s.body) (Body.Machine.start I s.body ⟨0⟩ choices)) (s.body.kind last)) = _
      rw [hend, Option.bind_some, hall, hkind]
      rfl
    · rw [hone] at hblockAt ⊢
      change [⟨1⟩, ⟨0⟩] = [s.blockAt 0] ++ _
      rw [hblockAt]
      rfl
    · rw [(h.block 0 hpos).1, hone]
      rfl
    · rw [h.plain 0 hpos (.inr hlead), drop_zero]
  · have hnone : leadIn leaders = 0 := if_neg hlead
    rw [if_neg hlead] at hentry
    refine ⟨Body.Machine.start I s.body ⟨0⟩ choices, by rw [hnone]; exact hrun, ⟨rfl, rfl, ?_, rfl⟩,
      .inr ⟨0, [], { Body.Machine.start I s.body ⟨0⟩ choices with vars }, hpos, h.first, ?_, ?_, rfl, hslots,
        rfl, rfl, rfl, rfl, hzero.symm⟩⟩
    · rw [hnone] at hblockAt ⊢
      change [⟨0⟩] = [s.blockAt 0] ++ _
      rw [hblockAt]
      rfl
    · rw [(h.block 0 hpos).1, hnone]
      rfl
    · change (s.body.instsOf ⟨0⟩).foldl _ _ = ((s.body.instsOf ⟨0⟩).drop (skip 0)).foldl _ _
      rw [← hfold, ← hentry, ← foldl_append, take_append_drop]

lemma Imported.run (I : Meaning V) (choices : Nat → Nat) (n : Nat) :
    ∃ k ir il, n ≤ k ∧ run I s.body choices (leadIn leaders + n) = some ir ∧
      run I m s.shape choices k = some il ∧
      Agree s (replicate (leadIn leaders) ⟨0⟩) ir il ∧ Ready m skip s I ir il := by
  induction n with
  | zero =>
    obtain ⟨ir, hrun, hagree, hready⟩ := h.start I choices
    exact ⟨0, ir, _, le_rfl, hrun, rfl, hagree, hready⟩
  | succ n ih =>
    obtain ⟨k, ir, il, hle, hir, hil, hagree, hready⟩ := ih
    obtain ⟨ir₂, il₂, j, hj, hstep, hsteps, hagree₂, hready₂⟩ := h.step hagree hready
    refine ⟨k + j, ir₂, il₂, by omega, ?_, ?_, hagree₂, hready₂⟩
    · rw [← Nat.add_assoc, Body.Machine.run, hir, Option.bind_some, hstep]
    · rw [run_eq_steps] at hil
      rw [run_eq_steps, steps_add, hil, Option.bind_some, hsteps]

end

end Import

/-- A body does what bytecode does, block by block: under any meaning of the operations and for any
outcomes of branches and switches, it gets through as many blocks as the bytecode, along the same
path, and everything that is done is done to the same values and in the same order. A block that
nothing jumps to may come first. -/
def Body.Simulates (body : Body) (m : Bytecode) : Prop :=
  ∃ (leaders : List Nat) (shape : Nat → Option (List Ty)) (blockOf : Nat → BlockId)
    (first : List BlockId), Import.leaders m = .ok leaders ∧
    (∀ a, (shape a).isSome ↔ a < m.codeSize ∧ (a = 0 ∨ a ∈ leaders)) ∧
    (∀ a b, (shape a).isSome → (shape b).isSome → blockOf a = blockOf b → a = b) ∧
    (∀ a, (shape a).isSome → blockOf a ∉ first) ∧
    first.length ≤ 1 ∧ body.entry = (blockOf 0 :: first).getLast? ∧
    ∀ (V : Type) (I : Meaning V) (choices : Nat → Nat) (n : Nat), ∃ k ir il, n ≤ k ∧
      Body.Machine.run I body choices (first.length + n) = some ir ∧
      run I m shape choices k = some il ∧
      ir.effects = il.effects ∧ ir.choices = il.choices ∧ ir.halted = il.halted ∧
      ir.path = il.path.map blockOf ++ first

/-- Leaves its argument on the stack for a block that is entered in two ways. -/
def negateZero : Bytecode where
  name := "NegateZero"
  declaring := .object
  sig := { params := [.i32], ret := .i32 }
  code := #[⟨.ldarg0, 0, .none⟩, ⟨.ldarg0, 1, .none⟩, ⟨.brtrueS, 2, .target 5⟩, ⟨.neg, 4, .none⟩, ⟨.ret, 5, .none⟩]

end MethodIR
