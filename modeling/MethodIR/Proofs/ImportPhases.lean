import MethodIR.Proofs.LoweringSteps

/-!
# Phases of an import

Blocks and guards are created first, which uses no variables (`Waiting`). Then the arguments are copied, and
what follows comes in steps, until variables are exposed (`importMethod_phases`).
-/

namespace MethodIR.Import

open Success Traced State

variable {m : Bytecode} {leaders : List Nat} {s : State} {n : Nat} {t t' : Trace State}

/-! ## Before lowering -/

/-- No variable has been used. -/
structure Waiting (m : Bytecode) (s : State) : Prop where
  usage : s.usage = #[]
  cursor : s.cursor = {}
  inRegion : ∀ n, n < s.segments.size → (s.segment n).inRegion = m.regions.any (·.contains (s.segment n).start)

lemma Waiting.modifySegment (h : Waiting m s) (n : Nat) {f : Segment → Segment}
    (hstart : ∀ x, (f x).start = x.start) (hregion : ∀ x, (f x).inRegion = x.inRegion) :
    Waiting m (s.modifySegment n f) := by
  refine ⟨h.usage, h.cursor, fun k hk => ?_⟩
  have hlt : k < s.segments.size := by simpa [State.modifySegment] using hk
  rw [segment_modifySegment]
  split
  · rw [hregion, hstart, h.inRegion k hlt]
  · exact h.inRegion k hlt

def Leaves {α : Type} (m : Bytecode) (x : M α) : Prop :=
  ∀ t a t', Waiting m t.state → x t = .ok a t' → Waiting m t'.state

section Leaves

variable {α β : Type} {x : M α} {f : α → M β}

lemma Leaves.bind (hx : Leaves m x) (hf : ∀ a, Leaves m (f a)) : Leaves m (x >>= f) := by
  intro t b t' hs h
  obtain ⟨a, t₁, h₁, h₂⟩ := bind_iff.1 h
  exact hf a t₁ b t' (hx t a t₁ hs h₁) h₂

lemma Leaves.map (g : α → β) (hx : Leaves m x) : Leaves m (g <$> x) := by
  intro t b t' hs h
  obtain ⟨a, h, -⟩ := map_iff.1 h
  exact hx t a t' hs h

lemma Leaves.read (h : ∀ t a t', x t = .ok a t' → t'.state = t.state) : Leaves m x := by
  intro t a t' hs hx
  rw [h t a t' hx]
  exact hs

lemma Leaves.pure (a : α) : Leaves m (pure a : M α) := by
  refine .read fun t b t' h => ?_
  obtain ⟨-, rfl⟩ := pure_iff.1 h
  rfl

lemma Leaves.ite {c : Prop} [Decidable c] {y : M α} (hx : Leaves m x) (hy : Leaves m y) :
    Leaves m (if c then x else y) := by
  split
  · exact hx
  · exact hy

lemma Leaves.getState : Leaves m (getState : M State) := by
  refine .read fun t a t' h => ?_
  obtain ⟨-, rfl⟩ := getState_iff.1 h
  rfl

lemma Leaves.segmentAt (offset : Nat) : Leaves m (segmentAt offset) :=
  .read fun t n t' h => by rw [(segmentAt_read offset t.log n t' h).1]

lemma Leaves.report (e : Event) : Leaves m (report e) := .read fun t a t' h => by rw [report_iff.1 h]

lemma Leaves.edit (x : Edit α) : Leaves m (edit x) := by
  intro t a t' hs h
  obtain ⟨body, -, rfl⟩ := edit_iff.1 h
  exact ⟨hs.usage, hs.cursor, hs.inRegion⟩

lemma Leaves.modify {g : State → State} (hg : ∀ s, Waiting m s → Waiting m (g s)) :
    Leaves m (modifyState g) := by
  intro t a t' hs h
  rw [modifyState_iff.1 h]
  exact hg _ hs

end Leaves

lemma leaves_seed (g : InstId) (n : Nat) : Leaves m (seed g n) :=
  .modify fun _ hs => hs.modifySegment n (fun _ => rfl) fun _ => rfl

lemma leaves_guardBlock (r : Bytecode.Region) : Leaves m (guardBlock r) := by
  refine (Leaves.segmentAt _).bind fun n => Leaves.getState.bind fun s => ?_
  refine .ite ?_ (.pure _)
  refine (Leaves.edit _).bind fun b => .bind (.modify fun s hs => ?_) fun _ =>
    (Leaves.report _).bind fun _ => .pure b
  exact hs.modifySegment n (fun _ => rfl) fun _ => rfl

lemma leaves_createGuard (r : Bytecode.Region) : Leaves m (createGuard r) := by
  refine (leaves_guardBlock r).bind fun b => (Leaves.segmentAt _).bind fun n => Leaves.getState.bind fun s => ?_
  refine .bind ?_ fun ns => Leaves.getState.bind fun s => (Leaves.edit _).bind fun g => ?_
  · cases r.filterStart with
    | none => exact .pure none
    | some o =>
      rw [Option.mapM_some]
      exact (Leaves.segmentAt o).bind fun n => .pure _
  · refine .bind (.modify fun s hs => ⟨hs.usage, hs.cursor, hs.inRegion⟩) fun _ => ?_
    refine .ite ((leaves_seed g n).bind fun _ => .bind ?_ fun _ => .report _) (.report _)
    cases ns with
    | none => exact .pure ()
    | some k => exact leaves_seed g k

lemma leaves_createSegment (start stop : Nat) : Leaves m (createSegment m start stop) := by
  refine (Leaves.edit _).bind fun b => .modify fun s hs => ⟨hs.usage, hs.cursor, fun n hn => ?_⟩
  rw [State.segment, Tables.getD_push]
  split
  · rfl
  · next hne =>
    have hlt : n < s.segments.size + 1 := by simpa using hn
    exact hs.inRegion n (by omega)

lemma leaves_createBlocks (leaders : List Nat) : Leaves m (createBlocks m leaders) := by
  have hsegments : Leaves m ((ranges m.codeSize leaders).forM fun r => createSegment m r.1 r.2) := by
    intro t a t' hs h
    exact forM_induction (P := fun t : Trace State => Waiting m t.state) h hs fun x _ t t' u hs hone =>
      leaves_createSegment x.1 x.2 t u t' hs hone
  refine .ite (.bind (.map some (.edit _)) fun entry => hsegments.bind fun _ => ?_)
    (.bind (.pure none) fun entry => hsegments.bind fun _ => ?_)
  all_goals
    cases entry with
    | none => exact .pure ()
    | some b => exact Leaves.getState.bind fun s => (Leaves.edit _).bind fun _ => .report _

lemma waiting_ofMethod (m : Bytecode) : Waiting m (ofMethod m) :=
  ⟨rfl, rfl, fun n hn => absurd hn (Nat.not_lt_zero n)⟩

/-- The guards are created one after the other. Between them and the end all comes in steps, but for the
arguments and the variables that are exposed. -/
lemma importMethod_phases {log : Array Event} {u : Unit} (h : importMethod m ⟨ofMethod m, log⟩ = .ok u t) :
    ∃ leaders own t₀ t₁ t₂ t₃ t₄, Leaders m leaders ∧ Fenced m leaders (owner leaders) [] t₀.state ∧
      m.regions.forM createGuard t₀ = .ok () t₁ ∧ Fenced m leaders own m.regions t₁.state ∧
      Waiting m t₁.state ∧ copyArguments t₁ = .ok () t₂ ∧ Steps t₂.state t₃.state ∧
      markExposed t₃ = .ok () t₄ ∧ t.state = t₄.state := by
  obtain ⟨leaders, own, t₁, t₂, t₃, t₄, t₅, hleaders, -, hblocks, hfenced, hguards, hown, -, hargs, hlower, hexpose,
    ht⟩ := importMethod_fenced h
  have hwaiting := leaves_createBlocks leaders _ _ t₁ (waiting_ofMethod m) hblocks
  have hwaiting₂ : Waiting m t₂.state := forM_induction (P := fun t : Trace State => Waiting m t.state) hguards
    hwaiting fun r _ t t' u hs hone => leaves_createGuard r t u t' hs hone
  obtain ⟨hextended, -⟩ := copyArguments_spec hargs hown.parted.entry (hown.intact.laid.entry _ hown.parted.entry)
  have hsettled : Settled [] t₃.state := by
    refine ⟨fun slot v hv => ?_, fun n slots v hn hv => ?_⟩
    · exact ((hown.framed.extends hextended.extends).var slot v hv).1
    · rw [State.segment, hextended.segments] at hn
      obtain ⟨g, r, rfl, -⟩ := hown.seeded n slots hn
      simp at hv
  obtain ⟨hsteps, -⟩ := lowerSegments_steps (fun n hn => by simpa using hn) hsettled hlower
  exact ⟨leaders, own, t₁, t₂, t₃, t₄, t₅, leaders_eq_ok hleaders, hfenced, hguards, hown, hwaiting₂, hargs, hsteps, hexpose, ht⟩

end MethodIR.Import
