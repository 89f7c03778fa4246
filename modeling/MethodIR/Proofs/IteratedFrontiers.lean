import MethodIR.Proofs.CompletedPromotion

/-!
# Iterated frontiers

A variable gets its phis on the iterated frontier of its stores (`phiBlocks_isLeast`), and inserting phis puts
exactly these into a body (`Promotion.Inserted`). A variable is stored on some way to a block if and only if the
block gets a phi for it, or a strict dominator stores to it or gets one (`Promotion.storedOnWay_iff`).
-/

namespace MethodIR

open List FlowGraph Dominance DominatorTree DepthFirst Relation Body Lists

variable {f : Frontier}

lemma Frontier.hasBlock_of_compute {x : Body} {t : DominatorTree} {a b : BlockId}
    (hf : compute x t = .ok f) (hb : b ∈ f.of a) : x.hasBlock b := by
  rw [compute] at hf
  split at hf
  · obtain rfl := Except.ok.inj hf
    have htwo := (of_mem_ofTree hb).2.2
    by_contra hnot
    rw [preds_of_size_le (by simpa [hasBlock] using hnot)] at htwo
    simp at htwo
  · simp at hf

namespace Promotion

/-! ## The least set -/

/-- `s` holds the frontiers of the blocks of `defs` and of its own. -/
def Covers (frontier : BlockId → List BlockId) (defs s : Set BlockId) : Prop :=
  ∀ a, a ∈ defs ∨ a ∈ s → ∀ b ∈ frontier a, b ∈ s

lemma mem_of_covers {frontier : BlockId → List BlockId} {unplaced queued worklist : List BlockId}
    {s : Set BlockId} (hs : Covers frontier {a | a ∈ worklist} s) :
    ∀ b ∈ place frontier unplaced queued worklist, b ∈ s := by
  fun_induction place frontier unplaced queued worklist with
  | case1 => simp
  | case2 unplaced queued d worklist fresh hnil ih =>
    exact ih fun a ha => hs a (ha.imp_left (mem_cons_of_mem d))
  | case3 unplaced queued d worklist fresh hfresh new ih =>
    have hmem : ∀ b ∈ fresh, b ∈ s := fun b hb =>
      hs d (.inl mem_cons_self) b (by simpa using (mem_filter.1 hb).1)
    intro b hb
    rcases mem_append.1 hb with hb | hb
    · exact hmem b hb
    · refine ih (fun a ha => ?_) b hb
      -- What is new in the worklist is in `s` itself.
      rcases ha with ha | ha
      · rcases mem_append.1 ha with ha | ha
        · exact hs a (.inr (hmem a (mem_filter.1 (mem_reverse.1 ha)).1))
        · exact hs a (.inl (mem_cons_of_mem d ha))
      · exact hs a (.inr ha)

lemma phiBlocks_isLeast {capacity : Nat} {defs : List BlockId} (hf : ∀ a, ∀ b ∈ f.of a, b.index < capacity) :
    IsLeast {s | Covers f.of {a | a ∈ defs} s} {b | b ∈ phiBlocks capacity f defs} := by
  refine ⟨fun a ha b hb => mem_phiBlocks ha hb (hf a b hb), fun s hs b hb => ?_⟩
  exact mem_of_covers (fun a ha => hs a (by simpa using ha)) b hb

/-! ## The inserted phis -/

/-- `y` is `x` with the phis of its global variables, each recorded with its variable. -/
structure Inserted (x : Body) (frontier : Frontier) (phis : List (InstId × VarId)) (y : Body) : Prop where
  least : ∀ v, IsGlobal x v → IsLeast {s | Covers frontier.of {d | d ∈ x.order ∧ x.storesTo d v} s}
      {b | ∃ φ, (φ, v) ∈ phis ∧ (y.inst φ).block = some b}
  once : ∀ v φ ψ, (φ, v) ∈ phis → (ψ, v) ∈ phis → (y.inst φ).block = (y.inst ψ).block → φ = ψ
  global : ∀ φ v, (φ, v) ∈ phis → IsGlobal x v
  keys : (phis.map Prod.fst).Nodup
  made : ∀ φ v, (φ, v) ∈ phis → ∃ b, (y.inst φ).bare = emptyPhi (x.var v).ty b
  new : ∀ φ, (∃ v, (φ, v) ∈ phis) ↔ y.hasInst φ ∧ ¬x.hasInst φ
  phis : ∀ b, ∃ new, y.phis b = x.phis b ++ new ∧ ∀ φ, φ ∈ new ↔ ∃ v, (φ, v) ∈ phis ∧ (y.inst φ).block = some b
  nonPhis : ∀ b, y.nonPhis b = x.nonPhis b
  old : ∀ i, x.hasInst i → (y.inst i).bare = (x.inst i).bare
  graph : x.SameGraph y

section Placed

variable {x y : Body} {frontier : Frontier} {phis : List (InstId × VarId)} {v : VarId} {φ j : InstId}
  {b : BlockId} (h : Placed x phis (places x frontier) y)

include h

lemma Placed.exists_mem_iff : (∃ φ, (φ, v) ∈ phis ∧ (y.inst φ).block = some b) ↔
    IsGlobal x v ∧ b ∈ phiBlocks x.blocks.size frontier (storeBlocks x v) := by
  rw [← mem_places]
  constructor
  · rintro ⟨φ, hφ, hblock⟩
    obtain ⟨-, -, c, hc, hbare⟩ := h.of_lookup ((lookup_eq_some_iff h.keys_nodup).2 hφ)
    obtain rfl : c = b := Option.some.inj ((block_of_bare hbare).symm.trans hblock)
    exact hc
  · intro hb
    obtain ⟨φ, hφ, hblock⟩ := h.exists_lookup hb
    exact ⟨φ, (lookup_eq_some_iff h.keys_nodup).1 hφ, hblock⟩

lemma Placed.inserted (hx : x.Attached) (hf : ∀ a, ∀ b ∈ frontier.of a, x.hasBlock b) :
    Inserted x frontier phis y where
  least v hv := by
    have hlt : ∀ a, ∀ b ∈ frontier.of a, b.index < x.blocks.size := fun a b hb => by
      simpa [hasBlock] using hf a b hb
    have hleast : IsLeast _ {b | b ∈ phiBlocks _ frontier (storeBlocks x v)} := phiBlocks_isLeast hlt
    simpa [h.exists_mem_iff, hv, storeBlocks] using hleast
  once v φ ψ hφ hψ := h.unique places_nodup ((lookup_eq_some_iff h.keys_nodup).2 hφ)
    ((lookup_eq_some_iff h.keys_nodup).2 hψ)
  global φ v hφ := by
    obtain ⟨-, -, b, hb, -⟩ := h.of_lookup ((lookup_eq_some_iff h.keys_nodup).2 hφ)
    exact (mem_places.1 hb).1
  keys := h.keys_nodup
  made φ v hφ := ⟨_, h.places_eq.1 _ hφ⟩
  new φ := h.recorded_iff
  phis := h.exists_phis hx
  nonPhis := h.nonPhis
  old := h.old
  graph := h.graph

end Placed

/-- Whatever history has made a body, the phis that are inserted into it for its accesses are those of
the iterated frontiers of its global variables. -/
theorem insertPhis_inserted {ops : List Op} {args : List Ty} {ret : Ty} {x : Body}
    {accesses : Accesses} {frontier : Frontier} (hops : Op.afterAll? ops (.empty args ret) = some x)
    (haccesses : Accesses.collect? x = .ok (some accesses))
    (hf : ∀ a, ∀ b ∈ frontier.of a, x.hasBlock b) (log : Array Event) :
    (∀ v, v ∈ accesses.globals.map Prod.fst ↔ IsGlobal x v) ∧
      ∃ phis t, insertPhis frontier accesses ⟨x, log⟩ = .ok phis t ∧ Inserted x frontier phis t.state := by
  have hattached : x.Attached := Op.attached_of_afterAll hops
  obtain ⟨-, hsome⟩ := Accesses.collect?_eq_ok_iff.1 haccesses
  obtain rfl : accesses = .ofBody x := by
    split at hsome
    · exact Option.some.inj hsome
    · simp at hsome
  refine ⟨fun v => ?_, ?_⟩
  · simp only [mem_map, Prod.exists, exists_and_right, exists_eq_right, Accesses.mem_globals_ofBody]
  · have hbs : ∀ g ∈ (Accesses.ofBody x).globals, ∀ b ∈ phiBlocks x.blocks.size frontier g.2,
        x.hasBlock b := fun g _ b hb => by
      obtain ⟨a, ha⟩ := exists_of_mem_phiBlocks hb
      exact hf a b ha
    obtain ⟨phis, t, hrun⟩ := exists_insertPhis (t := ⟨x, log⟩) hattached (Op.exactUses_of_afterAll hops) hbs
    have hplaced := insertPhis_spec (t := ⟨x, log⟩) hattached (Op.exactUses_of_afterAll hops) hrun
    exact ⟨phis, t, hrun, Placed.inserted hplaced hattached hf⟩

/-- Block 1 has a phi, loads variable 0 before it stores to it, and jumps to itself. Block 2 stores to
variable 1 before it loads it. -/
def selfLoopSteps : List Op :=
  [.createVar .i32 (.local 0), .createVar .i32 (.local 1), .createBlock none, .createBlock none,
    .createBlock none, .createInst (.storeVar ⟨0⟩) [.const (.i32 0)] .void, .insertLast ⟨0⟩ ⟨0⟩,
    .setJump ⟨0⟩ ⟨1⟩, .insertPhi ⟨1⟩ .i32, .createInst (.loadVar ⟨0⟩) [] .i32, .insertLast ⟨1⟩ ⟨3⟩,
    .createInst (.storeVar ⟨0⟩) [.inst ⟨3⟩] .void, .insertLast ⟨1⟩ ⟨4⟩,
    .createInst (.branch ⟨1⟩ ⟨2⟩) [.arg ⟨0⟩] .void, .setTerminator ⟨1⟩ ⟨5⟩,
    .createInst (.storeVar ⟨1⟩) [.arg ⟨0⟩] .void, .insertLast ⟨2⟩ ⟨6⟩,
    .createInst (.loadVar ⟨1⟩) [] .i32, .insertLast ⟨2⟩ ⟨7⟩,
    .createInst .ret [.inst ⟨7⟩] .void, .setTerminator ⟨2⟩ ⟨8⟩]

def selfLoop : Body := (Op.afterAll? selfLoopSteps (empty [.i32] .i32)).getD default

theorem selfLoop_inserted : IsGlobal selfLoop ⟨0⟩ ∧ ¬IsGlobal selfLoop ⟨1⟩ ∧
    ∃ tree frontier, DominatorTree.compute selfLoop = .ok tree ∧
      Frontier.compute selfLoop tree = .ok frontier ∧ frontier.of ⟨1⟩ = [⟨1⟩] ∧
      ∃ accesses, Accesses.collect? selfLoop = .ok (some accesses) ∧
        ∃ phis t, insertPhis frontier accesses ⟨selfLoop, #[]⟩ = .ok phis t ∧
          Inserted selfLoop frontier phis t.state := by
  have hops : Op.afterAll? selfLoopSteps (empty [.i32] .i32) = some selfLoop := eq_some_getD (by decide)
  have hlinked : Linked selfLoop ⟨0⟩ :=
    .of_symmetric (by decide) (symmetric_of_blockIds selfLoop (by decide) (by decide))
  have hfrontier := Frontier.compute_ofEntry hlinked (by decide)
  have haccesses : Accesses.collect? selfLoop = .ok (some (.ofBody selfLoop)) := by cbv
  refine ⟨by decide, by decide, _, _, compute_eq (by decide), hfrontier, ?_, _, haccesses, ?_⟩
  · cbv
  · exact (insertPhis_inserted hops haccesses (fun a b hb => Frontier.hasBlock_of_compute hfrontier hb) #[]).2

end Promotion

section

variable {α : Type} {E : α → α → Prop} {r a b : α}

lemma FlowGraph.Path.reflTransGen_of_mem {p : List α} (h : Path E r b p) (ha : a ∈ p) : ReflTransGen E a b := by
  induction h with
  | single c => rw [mem_singleton.1 ha]
  | step edge rest ih =>
    rcases mem_cons.1 ha with rfl | ha
    · exact .head edge (reachable_iff.1 ⟨_, rest⟩)
    · exact ih ha

lemma FlowGraph.Dominates.reflTransGen (h : Dominates E r a b) : ReflTransGen E a b := by
  obtain ⟨⟨p, hp⟩, hall⟩ := h
  exact hp.reflTransGen_of_mem (hall p hp)

lemma FlowGraph.StrictlyDominates.transGen (h : StrictlyDominates E r a b) : TransGen E a b :=
  (reflTransGen_iff_eq_or_transGen.1 h.2.reflTransGen).resolve_left fun heq => h.1 heq.symm

end

/-- `x.Trail entry b l`: control can come from the entry to block `b` through the instructions `l`. -/
inductive Body.Trail (x : Body) (entry : BlockId) : BlockId → List InstId → Prop
  | start : x.Trail entry entry []
  | step {a b : BlockId} {l : List InstId} (before : x.Trail entry a l) (edge : b ∈ x.succs a) :
      x.Trail entry b (l ++ x.instsOf a)

/-- Control can come to block `b` through a store to variable `v`. -/
def Body.StoredOnWay (x : Body) (entry b : BlockId) (v : VarId) : Prop :=
  ∃ l, x.Trail entry b l ∧ ∃ j ∈ l, x.kind j = .storeVar v

variable {x : Body} {entry a b : BlockId} {l : List InstId} {v : VarId}

lemma Body.Trail.reachable (h : x.Trail entry b l) : Reachable (Edge x.succs) entry b := by
  induction h with
  | start => exact .refl
  | step _ edge ih => exact ih.snoc edge

lemma Body.exists_trail (h : Reachable (Edge x.succs) entry b) : ∃ l, x.Trail entry b l := by
  refine h.induction (motive := fun b => ∃ l, x.Trail entry b l) ⟨[], .start⟩ ?_
  rintro a c - edge ⟨l, ih⟩
  exact ⟨_, ih.step edge⟩

lemma Body.Trail.extend (h : x.Trail entry a l) (hab : TransGen (Edge x.succs) a b) :
    ∃ l', x.Trail entry b l' ∧ l ++ x.instsOf a ⊆ l' := by
  induction hab with
  | single edge => exact ⟨_, h.step edge, fun _ => id⟩
  | tail _ edge ih =>
    obtain ⟨l', h', hsub⟩ := ih
    exact ⟨_, h'.step edge, fun j hj => mem_append_left _ (hsub hj)⟩

lemma Body.StoredOnWay.of_transGen (ha : Reachable (Edge x.succs) entry a)
    (hdef : x.storesTo a v ∨ x.StoredOnWay entry a v) (hab : TransGen (Edge x.succs) a b) :
    x.StoredOnWay entry b v := by
  rcases hdef with hstores | ⟨l, h, j, hj, hk⟩
  · obtain ⟨l, h⟩ := exists_trail ha
    obtain ⟨l', h', hsub⟩ := h.extend hab
    obtain ⟨j, hj, hk⟩ := any_eq_true.1 hstores
    exact ⟨l', h', j, hsub (mem_append_right _ hj), by simpa using hk⟩
  · obtain ⟨l', h', hsub⟩ := h.extend hab
    exact ⟨l', h', j, hsub (mem_append_left _ hj), hk⟩

namespace Promotion

def Meets (x : Body) (entry b : BlockId) (v : VarId) : Prop :=
  b ∈ phiBlocks x.blocks.size (.ofTree x (ofEntry x entry)) (storeBlocks x v)

variable (hx : x.Arranged) (hv : x.Verified entry)

include hx hv

lemma Meets.storedOnWay (h : Meets x entry b v) : x.StoredOnWay entry b v := by
  refine mem_of_covers (s := {b | x.StoredOnWay entry b v}) (fun a ha b hb => ?_) b h
  obtain ⟨-, ⟨p, hp, hap⟩, -⟩ :=
    Frontier.ends_of_mem (hx.anchored entry hv.entry_eq) hx.edges.symm hv.entry_preds hb
  have hab : TransGen (Edge x.succs) a b := .tail' hap.reflTransGen ((hx.edges.symm p b).2 hp)
  refine .of_transGen hap.reachable_left (ha.imp_left fun ha => ?_) hab
  exact (mem_filter.1 (mem_reverse.1 ha)).2

lemma meets_or_exists_dominator (h : x.Trail entry b l) (hj : j ∈ l)
    (hk : x.kind j = .storeVar v) : Meets x entry b v ∨
      ∃ a, StrictlyDominates (Edge x.succs) entry a b ∧ (x.storesTo a v ∨ Meets x entry a v) := by
  induction h with
  | start => simp at hj
  | @step p b l before edge ih =>
    have hp := before.reachable
    obtain ⟨a, hap, hdef⟩ : ∃ a, Dominates (Edge x.succs) entry a p ∧ (x.storesTo a v ∨ Meets x entry a v) := by
      rcases mem_append.1 hj with hj | hj
      · rcases ih hj with hmeets | ⟨a, hap, hdef⟩
        · exact ⟨p, .refl hp, .inr hmeets⟩
        · exact ⟨a, hap.2, hdef⟩
      · exact ⟨p, .refl hp, .inl (any_eq_true.2 ⟨j, hj, by simpa using hk⟩)⟩
    by_cases hab : StrictlyDominates (Edge x.succs) entry a b
    · exact .inr ⟨a, hab, hdef⟩
    · have hlinked := linked_of_verified hx hv
      have hb := hp.snoc edge
      have hne : b ≠ entry := by
        rintro rfl
        simpa [hv.entry_preds] using hlinked.pred_of_succ p b hp edge
      have hfrontier := Frontier.mem_of_compute hlinked (laidOut_of_verified hx hv) hb hne hp edge hap hab
      refine .inl (mem_phiBlocks (hdef.imp_left fun hstores => ?_) hfrontier (hlinked.lt_of_reachable hb))
      exact mem_filter.2 ⟨mem_order_of_reachable hx hv hap.reachable_left, hstores⟩

lemma storedOnWay_iff : x.StoredOnWay entry b v ↔ Meets x entry b v ∨
    ∃ a, StrictlyDominates (Edge x.succs) entry a b ∧ (x.storesTo a v ∨ Meets x entry a v) := by
  constructor
  · rintro ⟨l, h, j, hj, hk⟩
    exact meets_or_exists_dominator hx hv h hj hk
  · rintro (hmeets | ⟨a, hab, hdef⟩)
    · exact hmeets.storedOnWay hx hv
    · exact .of_transGen hab.2.reachable_left (hdef.imp_right (·.storedOnWay hx hv)) hab.transGen

end Promotion

end MethodIR
