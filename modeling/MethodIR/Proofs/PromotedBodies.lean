import MethodIR.Proofs.CachedAnalyses
import MethodIR.Proofs.DeadPhis
import MethodIR.Proofs.DominanceFrontiers
import MethodIR.Proofs.RenamedTrees
import MethodIR.Proofs.Soundness

/-!
# Promoted bodies

The steps of promotion put together: phis are placed for the global variables, all blocks are renamed,
dead phis are removed (`Promotion.Promoted`).
-/

namespace MethodIR

open List FlowGraph Dominance DominatorTree DepthFirst Tables Success Traced Body Analyses Lists Except

variable {α : Type} {frontier : Frontier} {plan : RenamingPlan}

lemma Lists.lookup_eq_some_iff {β : Type} [DecidableEq α] {l : List (α × β)} {a : α} {b : β}
    (h : (l.map Prod.fst).Nodup) : l.lookup a = some b ↔ (a, b) ∈ l := by
  induction l with
  | nil => simp
  | cons q l ih =>
    obtain ⟨hnot, hnodup⟩ := nodup_cons.1 h
    rw [lookup_cons, mem_cons]
    by_cases heq : a = q.1
    · have hout : (a, b) ∉ l := fun hmem =>
        hnot (mem_map.2 ⟨(a, b), hmem, heq⟩)
      simp [heq, heq ▸ hout, Prod.ext_iff, eq_comm]
    · have hne : (a == q.1) = false := beq_false_of_ne heq
      simp [hne, heq, ih hnodup, Prod.ext_iff]

/-- No laid out instruction has the result of a store as an operand. -/
def Body.NoStoreOperands (x : Body) : Prop :=
  ∀ b ∈ x.order, ∀ i ∈ x.instsOf b, ∀ d, .inst d ∈ (x.inst i).operands → ∀ v, x.kind d ≠ .storeVar v

namespace Promotion

variable {x y z : Body} {entry a b c : BlockId} {v : VarId} {φ ψ i d : InstId} {changes : Invalidations}

/-! ## The accesses of a body -/

/-- The blocks that store to a variable. -/
def storeBlocks (x : Body) (v : VarId) : List BlockId := x.order.filter (x.storesTo · v)

/-- A variable that is promoted and that some block loads before it stores to it. -/
def IsGlobal (x : Body) (v : VarId) : Prop := x.hasVar v ∧ x.isPromotable v ∧ ∃ b ∈ x.order, x.loadsFirst b v

instance : Decidable (IsGlobal x v) :=
  inferInstanceAs (Decidable (x.hasVar v ∧ x.isPromotable v ∧ ∃ b ∈ x.order, x.loadsFirst b v))

/-- The accesses of a body. -/
def Accesses.ofBody (x : Body) : Accesses :=
  let promotable := (x.varIds.map x.isPromotable).toArray
  let globals := x.varIds.filter fun v =>
    promotable.getD v.index false && x.order.any (x.loadsFirst · v)
  { promotable, globals := globals.map fun v => (v, storeBlocks x v) }

lemma Accesses.collect?_eq_ok_iff {o : Option Accesses} : collect? x = .ok o ↔
    (∀ k ∈ x.laidOutKinds, ∀ v, k.var? = some v → x.hasVar v) ∧
      o = if x.laidOutKinds.any (ofBody x).concerns then some (ofBody x) else none := by
  have hall : (x.laidOutKinds.all fun k => k.var?.all x.hasVar) = true ↔
      ∀ k ∈ x.laidOutKinds, ∀ v, k.var? = some v → x.hasVar v := by
    simp [all_eq_true, Option.all_eq_true]
  rw [collect?]
  split
  · next h =>
    rw [and_iff_right (hall.1 h), ok.injEq, eq_comm]
    rfl
  · next h => exact ⟨fun heq => by simp at heq, fun heq => absurd (hall.2 heq.1) h⟩

lemma mem_varIds : v ∈ x.varIds ↔ x.hasVar v := by
  simp only [varIds, mem_map, mem_range, hasVar, decide_eq_true_eq]
  constructor
  · rintro ⟨n, hn, rfl⟩
    exact hn
  · exact fun h => ⟨v.index, h, rfl⟩

lemma Accesses.isPromotable_ofBody : (ofBody x).isPromotable v ↔ x.hasVar v ∧ x.isPromotable v := by
  simp only [isPromotable, ofBody, varIds, hasVar, decide_eq_true_eq]
  by_cases h : v.index < x.vars.size
  · simp [h]
  · simp [h]

lemma Accesses.mem_globals_ofBody {defs : List BlockId} :
    (v, defs) ∈ (ofBody x).globals ↔ IsGlobal x v ∧ defs = storeBlocks x v := by
  have hprom : ((x.varIds.map x.isPromotable).toArray.getD v.index false) = true ↔
      x.hasVar v ∧ x.isPromotable v := isPromotable_ofBody (x := x)
  simp only [ofBody, mem_map, mem_filter, mem_varIds, Bool.and_eq_true, any_eq_true,
    IsGlobal, Prod.mk.injEq]
  constructor
  · rintro ⟨v', ⟨hv, hp, hb⟩, rfl, rfl⟩
    exact ⟨⟨hv, (hprom.1 hp).2, hb⟩, rfl⟩
  · rintro ⟨⟨hv, hp, hb⟩, rfl⟩
    exact ⟨v, ⟨hv, hprom.2 ⟨hv, hp⟩, hb⟩, rfl, rfl⟩

lemma Accesses.globals_nodup : ((ofBody x).globals.map Prod.fst).Nodup := by
  have hvars : x.varIds.Nodup := nodup_range.map fun _ _ heq => congrArg VarId.index heq
  simpa [ofBody, Function.comp_def] using hvars.filter _

def places (x : Body) (frontier : Frontier) : List (VarId × BlockId) := (Accesses.ofBody x).globals.flatMap fun g =>
    (phiBlocks x.blocks.size frontier g.2).map (g.1, ·)

lemma mem_places : (v, b) ∈ places x frontier ↔
    IsGlobal x v ∧ b ∈ phiBlocks x.blocks.size frontier (storeBlocks x v) := by
  simp only [places, mem_flatMap, mem_map, Prod.mk.injEq]
  constructor
  · rintro ⟨⟨v', defs⟩, hg, c, hc, rfl, rfl⟩
    obtain ⟨hglobal, rfl⟩ := Accesses.mem_globals_ofBody.1 hg
    exact ⟨hglobal, hc⟩
  · rintro ⟨hglobal, hb⟩
    exact ⟨_, Accesses.mem_globals_ofBody.2 ⟨hglobal, rfl⟩, b, hb, rfl, rfl⟩

lemma places_nodup : (places x frontier).Nodup := by
  refine nodup_flatMap.2 ⟨fun g _ => ?_, ?_⟩
  · exact phiBlocks_nodup.map fun _ _ heq => (Prod.mk.inj heq).2
  · refine (pairwise_map.1 Accesses.globals_nodup).imp fun {g g'} hne q hq hq' => hne ?_
    obtain ⟨c, -, rfl⟩ := mem_map.1 hq
    obtain ⟨c', -, heq⟩ := mem_map.1 hq'
    exact (Prod.mk.inj heq).1.symm

/-! ## The placed phis -/

def home (y : Body) (i : InstId) : BlockId := (y.inst i).block.getD default

section Placed

variable {phis : List (InstId × VarId)} {places : List (VarId × BlockId)} (h : Placed x phis places y)

include h

lemma Placed.keys_nodup : (phis.map Prod.fst).Nodup := by
  have hkeys : (phis.map fun q => q.1.index).Nodup := h.keys ▸ nodup_range'
  refine Nodup.of_map InstId.index ?_
  simpa [Function.comp_def] using hkeys

lemma Placed.index_of_mem (hφ : (φ, v) ∈ phis) : x.insts.size ≤ φ.index ∧ y.hasInst φ := by
  have hmem : φ.index ∈ range' x.insts.size phis.length := h.keys ▸ mem_map_of_mem hφ
  rw [mem_range'_1] at hmem
  exact ⟨hmem.1, by simpa [hasInst, h.size] using hmem.2⟩

section

variable (hi : x.hasInst i)
include hi

lemma Placed.kind_eq : y.kind i = x.kind i := by
  rw [kind_of_bare (h.old i hi)]
  rfl

lemma Placed.operands_eq : (y.inst i).operands = (x.inst i).operands := by
  rw [operands_of_bare (h.old i hi)]
  rfl

lemma Placed.phiArgs_eq : y.phiArgs i = x.phiArgs i := by
  rw [phiArgs, h.kind_eq hi, h.operands_eq hi, phiArgs]

lemma Placed.mem_phis (hmem : i ∈ y.phis b) : i ∈ x.phis b := by
  obtain ⟨new, hphis, hnew⟩ := h.phis b
  rw [hphis] at hmem
  refine (mem_append.1 hmem).resolve_right fun hout => ?_
  have hlt : i.index < x.insts.size := by simpa [hasInst] using hi
  exact absurd (hnew i hout) (by omega)

end

lemma Placed.places_eq : (∀ q ∈ phis, (y.inst q.1).bare = emptyPhi (x.var q.2).ty (home y q.1)) ∧
      phis.map (fun q => (q.2, home y q.1)) = places := by
  have hnew : Forall₂ (fun q r => (y.inst q.1).bare = emptyPhi (x.var q.2).ty (home y q.1) ∧
      (q.2, home y q.1) = r) phis places := by
    refine h.new.imp fun q r hqr => ?_
    have hhome : home y q.1 = r.2 := by rw [home, block_of_bare hqr.2]; rfl
    exact ⟨hhome ▸ hqr.2, Prod.ext hqr.1 hhome⟩
  obtain ⟨hall, hrest⟩ := (forall₂_and_left _ _).1 hnew
  refine ⟨hall, ?_⟩
  have hmap := (forall₂_map_left_iff (R := Eq)).2 hrest
  rwa [forall₂_eq_eq_eq] at hmap

lemma Placed.of_lookup (hφ : phis.lookup φ = some v) : x.insts.size ≤ φ.index ∧ y.hasInst φ ∧
    ∃ b, (v, b) ∈ places ∧ (y.inst φ).bare = emptyPhi (x.var v).ty b := by
  have hmem := (lookup_eq_some_iff h.keys_nodup).1 hφ
  obtain ⟨hle, hhas⟩ := h.index_of_mem hmem
  refine ⟨hle, hhas, home y φ, ?_, h.places_eq.1 _ hmem⟩
  rw [← h.places_eq.2]
  exact mem_map_of_mem hmem

lemma Placed.exists_lookup (hb : (v, b) ∈ places) : ∃ φ, phis.lookup φ = some v ∧ (y.inst φ).block = some b := by
  rw [← h.places_eq.2] at hb
  obtain ⟨q, hq, heq⟩ := mem_map.1 hb
  obtain ⟨rfl, rfl⟩ := Prod.mk.inj heq
  exact ⟨q.1, (lookup_eq_some_iff h.keys_nodup).2 hq, block_of_bare (h.places_eq.1 q hq)⟩

lemma Placed.lookup_eq_none_iff (hi : y.hasInst i) : phis.lookup i = none ↔ x.hasInst i := by
  constructor
  · intro hnone
    by_contra hnot
    have hmem : i.index ∈ phis.map (fun q => q.1.index) := by
      rw [h.keys, mem_range'_1]
      have hlt : i.index < y.insts.size := by simpa [hasInst] using hi
      simp only [hasInst, decide_eq_true_eq, not_lt] at hnot
      exact ⟨hnot, h.size ▸ hlt⟩
    obtain ⟨⟨j, v⟩, hq, heq⟩ := mem_map.1 hmem
    obtain rfl : j = i := InstId.ext heq
    simp [(lookup_eq_some_iff h.keys_nodup).2 hq] at hnone
  · intro hin
    refine Option.eq_none_iff_forall_ne_some.2 fun v hv => ?_
    have hle := (h.of_lookup hv).1
    have hlt : i.index < x.insts.size := by simpa [hasInst] using hin
    omega

lemma Placed.unique (hnodup : places.Nodup) (hφ : phis.lookup φ = some v)
    (hψ : phis.lookup ψ = some v) (hblock : (y.inst φ).block = (y.inst ψ).block) : φ = ψ := by
  have hφ' := (lookup_eq_some_iff h.keys_nodup).1 hφ
  have hψ' := (lookup_eq_some_iff h.keys_nodup).1 hψ
  rw [← h.places_eq.2] at hnodup
  have heq := inj_on_of_nodup_map hnodup hφ' hψ' (by simp [home, hblock])
  exact (Prod.mk.inj heq).1

lemma Placed.mem_instsOf (hi : i ∈ y.instsOf b) (hnot : (y.kind i).isPhi = false) : i ∈ x.instsOf b := by
  have hmem := mem_nonPhis hi hnot
  rw [h.nonPhis] at hmem
  exact mem_of_mem_nonPhis hmem

lemma Placed.recorded_iff : (∃ v, (φ, v) ∈ phis) ↔ y.hasInst φ ∧ ¬x.hasInst φ := by
  constructor
  · rintro ⟨v, hφ⟩
    obtain ⟨hle, hhas⟩ := h.index_of_mem hφ
    exact ⟨hhas, by simpa [hasInst] using hle⟩
  · rintro ⟨hhas, hnot⟩
    obtain ⟨v, hv⟩ := Option.ne_none_iff_exists'.1 (mt (h.lookup_eq_none_iff hhas).1 hnot)
    exact ⟨v, (lookup_eq_some_iff h.keys_nodup).1 hv⟩

lemma Placed.exists_phis (hx : x.Attached) (b : BlockId) : ∃ new, y.phis b = x.phis b ++ new ∧
    ∀ φ, φ ∈ new ↔ ∃ v, (φ, v) ∈ phis ∧ (y.inst φ).block = some b := by
  obtain ⟨new, hphis, hnew⟩ := h.phis b
  have hlist : y.instsOf b = x.phis b ++ (new ++ x.nonPhis b) := by
    rw [← phis_append_nonPhis, hphis, h.nonPhis, append_assoc]
  refine ⟨new, hphis, fun φ => ⟨fun hφ => ?_, ?_⟩⟩
  · have hmem : φ ∈ y.instsOf b := by simp [hlist, hφ]
    obtain ⟨v, hv⟩ := h.recorded_iff.2 ⟨h.attached.hasInst hmem, by simpa [hasInst] using hnew φ hφ⟩
    exact ⟨v, hv, (h.attached.mem_iff b φ).1 hmem⟩
  · rintro ⟨v, hv, hblock⟩
    have hnot : φ ∉ x.phis b ∧ φ ∉ x.nonPhis b := by
      rw [← not_or, ← mem_append, phis_append_nonPhis]
      exact fun hmem => (h.recorded_iff.1 ⟨v, hv⟩).2 (hx.hasInst hmem)
    have hmem := (h.attached.mem_iff b φ).2 hblock
    simpa [hlist, hnot] using hmem

end Placed

/-! ## The plan -/

lemma Placed.headed (h : Placed x plan.phis (places x frontier) y)
    (hx : x.Attached) (hsuccs : ∀ b, (x.succs b).Nodup) (haccesses : plan.accesses = .ofBody x) : Headed y plan where
  attached := h.attached
  uses := h.uses
  succs_nodup b := h.graph.succs b ▸ hsuccs b
  phi φ v hφ := by
    obtain ⟨-, -, b, -, hbare⟩ := h.of_lookup hφ
    obtain ⟨new, hphis, hnew⟩ := h.exists_phis hx b
    have hmem : φ ∈ new := (hnew φ).2 ⟨v, (lookup_eq_some_iff h.keys_nodup).1 hφ, block_of_bare hbare⟩
    rw [h.graph.var]
    exact ⟨b, by simp [hphis, hmem], hbare⟩
  promotable φ v hφ := by
    obtain ⟨-, -, b, hb, -⟩ := h.of_lookup hφ
    obtain ⟨hhas, hprom, -⟩ := (mem_places.1 hb).1
    rw [haccesses]
    exact Accesses.isPromotable_ofBody.2 ⟨hhas, hprom⟩

def Known (x : Body) (plan : RenamingPlan) (i : InstId) : Prop :=
  plan.phis.lookup i = none ∧ ∀ v, x.kind i ≠ .storeVar v

/-- An instruction that has been evaluated when control is in a block after `pre`: one of these, a phi
of the block, or an instruction of a block that dominates it. -/
def Seen (x : Body) (entry b : BlockId) (pre : List InstId) (i : InstId) : Prop :=
  i ∈ x.phis b ∨ i ∈ pre ∨ ∃ a, i ∈ x.instsOf a ∧ StrictlyDominates (Edge x.succs) entry a b

lemma mem_laidOutKinds {k : Kind} : k ∈ x.laidOutKinds ↔ ∃ b ∈ x.order, ∃ i ∈ x.instsOf b, x.kind i = k := by
  simp [laidOutKinds]

lemma dominates_iff_of_laidOut (h : Linked x entry) (hlaid : LaidOut x entry) :
    (ofEntry x entry).dominates a b ↔ Dominates (Edge x.succs) entry a b := by
  rw [dominates_iff_shown h, shown_iff_of_laidOut hlaid]
  exact and_iff_right_of_imp fun hdom => hdom.1

lemma strictlyDominates_iff_of_laidOut (h : Linked x entry) (hlaid : LaidOut x entry) :
    (ofEntry x entry).strictlyDominates a b ↔ StrictlyDominates (Edge x.succs) entry a b := by
  simp [strictlyDominates, StrictlyDominates, dominates_iff_of_laidOut h hlaid]

section Verified

variable (hx : x.Arranged) (hv : x.Verified entry)

include hv in
lemma nonPhis_of_verified (hb : b ∈ x.order) (hi : i ∈ x.nonPhis b) : (x.kind i).isPhi = false := by
  simpa using not_of_mem_dropWhile (hv.phisFirst b hb) hi

include hx hv

lemma mem_order_of_reachable (hb : Reachable (Edge x.succs) entry b) : b ∈ x.order :=
  hx.mem_order ⟨hx.anchored entry hv.entry_eq, hv.entry_live⟩ (fun b hb t ht => (hv.succs b hb t ht).1) hb

lemma linked_of_verified : Linked x entry := .of_symmetric (hx.anchored entry hv.entry_eq) hx.edges.symm

lemma laidOut_of_verified : LaidOut x entry := fun _ hb _ => mem_order_of_reachable hx hv hb

lemma exact_of_verified : Exact x entry (ofEntry x entry) :=
  exact_of_laidOut (linked_of_verified hx hv) (laidOut_of_verified hx hv)

lemma mem_preorder_of_verified : b ∈ (ofEntry x entry).preorder ↔ Reachable (Edge x.succs) entry b := by
  rw [mem_preorder_iff (linked_of_verified hx hv)]
  exact shown_iff_of_laidOut (laidOut_of_verified hx hv)

lemma dominates_iff_of_verified : (ofEntry x entry).dominates a b ↔ Dominates (Edge x.succs) entry a b :=
  dominates_iff_of_laidOut (linked_of_verified hx hv) (laidOut_of_verified hx hv)

lemma strictlyDominates_iff_of_verified :
    (ofEntry x entry).strictlyDominates a b ↔ StrictlyDominates (Edge x.succs) entry a b :=
  strictlyDominates_iff_of_laidOut (linked_of_verified hx hv) (laidOut_of_verified hx hv)

omit hx in
lemma of_mem_places (hb : (v, b) ∈ places x (.ofTree x (ofEntry x entry))) :
    IsGlobal x v ∧ b ∈ x.order ∧ b ≠ entry := by
  obtain ⟨hglobal, hmem⟩ := mem_places.1 hb
  obtain ⟨a, ha⟩ := exists_of_mem_phiBlocks hmem
  obtain ⟨horder, -, htwo⟩ := Frontier.of_mem_ofTree ha
  refine ⟨hglobal, horder, ?_⟩
  rintro rfl
  simp [hv.entry_preds] at htwo

section Plan

variable {plan : RenamingPlan} (haccesses : plan.accesses = .ofBody x)
  (hplaced : Placed x plan.phis (places x (.ofTree x (ofEntry x entry))) y)

include hplaced

include haccesses in
lemma planned_of_placed (hvars : ∀ k ∈ x.laidOutKinds, ∀ v, k.var? = some v → x.hasVar v) : Planned y plan where
  toHeaded := hplaced.headed hx.attached hx.edges.succs_nodup haccesses
  nonPhis b hb i hi := by
    rw [hplaced.graph.order] at hb
    rw [hplaced.nonPhis] at hi
    rw [hplaced.kind_eq (hx.attached.hasInst (mem_of_mem_nonPhis hi))]
    exact nonPhis_of_verified hv hb hi
  unique φ ψ v hφ hψ := hplaced.unique places_nodup hφ hψ
  hasVar b hb i hi v hk := by
    rw [hplaced.graph.order] at hb
    rw [hplaced.graph.hasVar]
    have hmem := hplaced.mem_instsOf hi (by cases hkind : y.kind i <;> simp_all [Kind.isPhi, Kind.var?])
    rw [hplaced.kind_eq (hx.attached.hasInst hmem)] at hk
    exact hvars _ (mem_laidOutKinds.2 ⟨b, hb, i, hmem, rfl⟩) v hk

section

variable (hstores : x.NoStoreOperands) (hb : Reachable (Edge x.succs) entry b)
include hstores hb

lemma seen_of_placed {pre post : List InstId} (hsplit : y.nonPhis b = pre ++ i :: post)
    (hd : .inst d ∈ (y.inst i).operands) : Known y plan d ∧ Seen y entry b pre d := by
  have horder := mem_order_of_reachable hx hv hb
  have hexact := exact_of_verified hx hv
  have hsuccs : y.succs = x.succs := funext hplaced.graph.succs
  rw [hplaced.nonPhis] at hsplit
  have hlist : x.instsOf b = (x.phis b ++ pre) ++ i :: post := by
    rw [← phis_append_nonPhis, hsplit, append_assoc]
  have hi : i ∈ x.instsOf b := by simp [hlist]
  have hnonPhi := nonPhis_of_verified hv horder (i := i) (by simp [hsplit])
  rw [hplaced.operands_eq (hx.attached.hasInst hi)] at hd
  obtain ⟨slot, hslot⟩ := mem_iff_getElem?.1 hd
  obtain ⟨home, hhome, havail⟩ := hv.operands b horder ((hexact.reachable b).2 hb) _ i post hlist slot d hslot
  have hmem : d ∈ x.instsOf home := (hx.attached.mem_iff home d).2 hhome
  have hin := hx.attached.hasInst hmem
  refine ⟨⟨(hplaced.lookup_eq_none_iff (hasInst_of_le (by simp [hplaced.size]) hin)).2 hin, fun v => ?_⟩, ?_⟩
  · rw [hplaced.kind_eq hin]
    exact hstores b horder i hi d hd v
  have havail : if home = b then d ∈ (x.phis b ++ pre).reverse
      else (ofEntry x entry).strictlyDominates home b := by
    cases hk : x.kind i <;> simp_all [Kind.isPhi]
  split at havail
  · rcases mem_append.1 (mem_reverse.1 havail) with hphi | hpre
    · obtain ⟨new, hphis, -⟩ := hplaced.phis b
      exact .inl (by simp [hphis, hphi])
    · exact .inr (.inl hpre)
  · refine .inr (.inr ⟨home, (hplaced.attached.mem_iff home d).2 ?_, ?_⟩)
    · rw [block_of_bare (hplaced.old d hin)]
      exact hhome
    · rw [hsuccs]
      exact (strictlyDominates_iff_of_verified hx hv).1 havail

lemma ordered_of_placed : Ordered y plan entry b := by
  intro pre i post hsplit hacc u hu d hd hdacc
  subst hd
  obtain ⟨hknown, hseen⟩ := seen_of_placed hx hv hplaced hstores hb hsplit hu
  have hdphi := plan.accesses.isPhi_of_concerns hdacc
  obtain ⟨v, -, hk⟩ := plan.accesses.exists_of_concerns hdacc
  refine ⟨⟨v, hk.resolve_right (hknown.2 v)⟩, ?_⟩
  rcases hseen with hphi | hpre | ⟨home, hmem, hdom⟩
  · simp [isPhi_of_mem_phis hphi] at hdphi
  · exact .inl hpre
  · exact .inr ⟨home, mem_nonPhis hmem hdphi, hdom⟩

end

section Rename

variable {t t' : Trace Renaming} (hvars : ∀ k ∈ x.laidOutKinds, ∀ v, k.var? = some v → x.hasVar v)
  (hstores : x.NoStoreOperands)

include haccesses hvars hstores

lemma rename_toured (hbody : t.state.body = y) (hm : Mirrors plan [] t.state)
    (hrun : rename (ofEntry x entry) plan t = .ok () t') : ∃ out others r,
      Toured y plan entry (ofEntry x entry).idom? out (ofEntry x entry).preorder others r t'.state.body := by
  have hplan := planned_of_placed hx hv haccesses hplaced hvars
  have hlinked := linked_of_verified hx hv
  have hsuccs : y.succs = x.succs := funext hplaced.graph.succs
  have hreach : ∀ b ∈ entered (ofEntry x entry).walk, Reachable (Edge x.succs) entry b := fun b =>
    (mem_preorder_of_verified hx hv).1
  obtain ⟨⟨⟩, t₁, hwalk, hrun⟩ := bind_iff.1 hrun
  have H := (Tour.initial hplan hbody hm).follow (visits_run hlinked.entry_lt) hplan
    (fun a b => by rw [hsuccs]; exact idom?_eq_some_iff hlinked)
    (fun p c hc => by rw [hsuccs]; exact ((mem_childrenAt_iff hlinked).1 hc).2)
    (fun b hb => ordered_of_placed hx hv hplaced hstores (hreach b hb)) hwalk
  obtain ⟨out, r, h, T, S, -, m⟩ := H.state
  cases S
  replace hrun := getState_bind_iff.1 hrun
  have horder : t₁.state.body.order = x.order := by
    rw [T.renames.graph.order, hplaced.graph.order]
  rw [horder] at hrun
  have hrest : ∀ b ∈ x.order.filter (fun b => !(ofEntry x entry).isReachable b),
      b ∉ [] ++ entered (ofEntry x entry).walk := by
    intro b hb hin
    have hnot := (mem_filter.1 hb).2
    have hin' := ((exact_of_verified hx hv).reachable b).2 (hreach b (by simpa using hin))
    simp [hin'] at hnot
  obtain ⟨r', -, T'⟩ := unreached_induction (P := fun others r y _ => Toured _ _ _ _ out _ others r y) hplan.toHeaded
    (fun _ _ _ _ _ => id) (fun b hb _ _ _ _ _ _ _ _ T => T.pass hplan.toHeaded (hrest b hb)) T.renames m T hrun
  exact ⟨out, _, r', T'⟩

end Rename

end Plan

end Verified

/-! ## The steps together -/

/-- How `z` has come from `x`: phis have been placed, which gives `x₁`, the accesses have been renamed,
which gives `y`, and the phis of `dead` have been removed. -/
structure Promoted (x : Body) (entry : BlockId) (plan : RenamingPlan) (x₁ : Body)
    (out : BlockId → Values) (others : List BlockId) (r : Record) (y : Body) (dead : List InstId)
    (z : Body) : Prop where
  vars : ∀ k ∈ x.laidOutKinds, ∀ v, k.var? = some v → x.hasVar v
  accesses : plan.accesses = .ofBody x
  placed : Placed x plan.phis (places x (.ofTree x (ofEntry x entry))) x₁
  toured : Toured x₁ plan entry (ofEntry x entry).idom? out (ofEntry x entry).preorder others r y
  phis : ∀ φ ∈ dead, ∃ v, plan.phis.lookup φ = some v
  stripped : Stripped y dead z
  closed : ∀ i, i ∉ dead → (z.inst i).bare = (y.inst i).bare

section Analyses

variable {t t' : Trace Transform} (hbody : t.state.body = x) (hfresh : t.state.analyses.Fresh x)

include hbody hfresh

lemma analyze_eq {request : Analyses.Request α} {compute : Body → Except Error α}
    {keep : Bool} {a : α} (hr : request.Answers compute)
    (hrun : Transform.analyze (get request · keep) t = .ok a t') :
    compute x = .ok a ∧ t'.state.body = x ∧ t'.state.analyses.Fresh x := by
  replace hrun := getState_bind_iff.1 hrun
  obtain ⟨u, hget, rfl⟩ := zoom_iff.1 hrun
  obtain ⟨u', hfresh', hanswer⟩ := hr.get hfresh keep t.log
  have hget : get request x keep ⟨t.state.analyses, t.log⟩ = .ok a u := hbody ▸ hget
  rw [hanswer] at hget
  cases hc : compute x with
  | error e => simp [hc, ending] at hget
  | ok a' =>
    rw [hc, ending, EStateM.Result.ok.injEq] at hget
    obtain ⟨rfl, rfl⟩ := hget
    exact ⟨rfl, hbody, hfresh'⟩

end Analyses

/-! ## Runs -/

def swept (options : Options) (y : Body) (phis : List InstId) : Body :=
  if options.removeDeadPhis then (removeDeadPhis y phis).2 else y

section

variable {options : Options} {tree : DominatorTree} {frontier : Frontier} {accesses : Accesses}

lemma exists_of_promote {t t' : Trace Body} (hrun : promote options tree frontier accesses t = .ok () t') :
    ∃ phis t₁ u removed, insertPhis frontier accesses t = .ok phis t₁ ∧
      rename tree { accesses, phis, warnOnUndefined := options.warnOnUndefined }
        ⟨{ body := t₁.state, reaching := Array.replicate accesses.promotable.size [] }, t₁.log⟩ = .ok () u ∧
      t' = ⟨swept options u.state.body (phis.map Prod.fst), u.log.push (.promoted
        (phis.length - removed) removed u.state.stores u.state.loads u.state.undefined)⟩ := by
  obtain ⟨phis, t₁, hphis, hrun⟩ := bind_iff.1 hrun
  obtain ⟨⟨stores, loads, undefined⟩, t₂, hzoom, hrun⟩ := bind_iff.1 hrun
  obtain ⟨u, hinner, rfl⟩ := zoom_iff.1 hzoom
  obtain ⟨⟨⟩, u₁, hrename, hcount⟩ := bind_iff.1 hinner
  have hret := getState_bind_iff.1 hcount
  obtain ⟨hcounts, rfl⟩ := pure_iff.1 hret
  obtain ⟨rfl, rfl, rfl⟩ : _ ∧ _ ∧ _ := by simpa using hcounts
  dsimp only at hrun
  split at hrun
  · next hremove =>
    replace hrun := getState_bind_iff.1 hrun
    obtain ⟨⟨⟩, t₄, hset, hrun⟩ := bind_iff.1 hrun
    obtain rfl := setState_iff.1 hset
    obtain ⟨removed, t₅, hret, hreport⟩ := bind_iff.1 hrun
    obtain ⟨-, rfl⟩ := pure_iff.1 hret
    refine ⟨phis, t₁, u₁, removed, hphis, hrename, ?_⟩
    rw [report_iff.1 hreport, swept, if_pos hremove]
  · next hkeep =>
    obtain ⟨removed, t₃, hret, hreport⟩ := bind_iff.1 hrun
    obtain ⟨-, rfl⟩ := pure_iff.1 hret
    refine ⟨phis, t₁, u₁, removed, hphis, hrename, ?_⟩
    rw [report_iff.1 hreport, swept, if_neg hkeep]

lemma promote_iff {t : Trace Body} {z : Body} :
    (∃ t', promote options tree frontier accesses t = .ok () t' ∧ t'.state = z) ↔
      ∃ phis t₁ u, insertPhis frontier accesses t = .ok phis t₁ ∧
        rename tree { accesses, phis, warnOnUndefined := options.warnOnUndefined }
          ⟨{ body := t₁.state, reaching := Array.replicate accesses.promotable.size [] }, t₁.log⟩ =
            .ok () u ∧ z = swept options u.state.body (phis.map Prod.fst) := by
  constructor
  · rintro ⟨t', hrun, rfl⟩
    obtain ⟨phis, t₁, u, removed, hphis, hrename, rfl⟩ := exists_of_promote hrun
    exact ⟨phis, t₁, u, hphis, hrename, rfl⟩
  · rintro ⟨phis, t₁, u, hphis, hrename, rfl⟩
    let plan : RenamingPlan := { accesses, phis, warnOnUndefined := options.warnOnUndefined }
    have hzoom : (zoom (fun body => { body, reaching := Array.replicate accesses.promotable.size [] })
        (fun (s : Renaming) _ => s.body) (do
          rename tree plan
          let s ← getState
          return (s.stores, s.loads, s.undefined)) : Traced Body (Nat × Nat × Nat)) t₁ =
        .ok (u.state.stores, u.state.loads, u.state.undefined) ⟨u.state.body, u.log⟩ :=
      zoom_iff.2 ⟨u, bind_iff.2 ⟨(), u, hrename, getState_bind_iff.2 (pure_iff.2 ⟨rfl, rfl⟩)⟩, rfl⟩
    rw [promote, bind_of_ok hphis, bind_of_ok hzoom, swept]
    cases options.removeDeadPhis with
    | false => exact ⟨_, rfl, rfl⟩
    | true => exact ⟨_, rfl, rfl⟩

end

lemma exists_stripped {phis : List (InstId × VarId)} (options : Options) (hattached : y.Attached)
    (huses : y.ExactUses) (hnodup : (phis.map Prod.fst).Nodup)
    (hphis : ∀ φ v, phis.lookup φ = some v → (y.kind φ).isPhi ∧ ∃ b, (y.inst φ).block = some b) :
    ∃ dead, (∀ φ ∈ dead, ∃ v, phis.lookup φ = some v) ∧ Stripped y dead (swept options y (phis.map Prod.fst)) ∧
      ∀ i, i ∉ dead → ((swept options y (phis.map Prod.fst)).inst i).bare = (y.inst i).bare := by
  have hphi : ∀ φ ∈ phis.map Prod.fst, ∃ v, phis.lookup φ = some v := by
    intro φ hφ
    obtain ⟨⟨φ, v⟩, hmem, rfl⟩ := mem_map.1 hφ
    exact ⟨v, (lookup_eq_some_iff hnodup).2 hmem⟩
  rw [swept]
  split
  · obtain ⟨hstripped, hclosed⟩ := removeDeadPhis_spec hattached huses hnodup fun φ hφ => by
      obtain ⟨v, hv⟩ := hphi φ hφ
      exact hphis φ v hv
    exact ⟨_, fun φ hφ => hphi φ (deadPhis_sublist.subset hφ), hstripped, hclosed⟩
  · exact ⟨[], by simp, .refl hattached huses, fun _ _ => rfl⟩

lemma Renames.isPhi_of_lookup {r : Record} (hr : Renames x plan r y)
    (hplan : Headed x plan) (hφ : plan.phis.lookup φ = some v) :
    (y.kind φ).isPhi ∧ ∃ b, (y.inst φ).block = some b := by
  obtain ⟨b, hblock, -⟩ := hplan.mem_phis hφ
  have hbare := hr.phi φ v hφ
  refine ⟨by rw [kind_of_bare hbare]; rfl, b, ?_⟩
  rw [block_of_bare hbare]
  exact hblock

lemma mirrors_initial (plan : RenamingPlan) (body : Body) : Mirrors plan []
    { body, reaching := Array.replicate plan.accesses.promotable.size [] } :=
  ⟨by simp, rfl, fun v => by simp [Array.getD]⟩

lemma of_run (hrun : run options t = .ok changes t') :
    (Accesses.collect? t.state.body = .ok none ∧ t' = ⟨t.state, t.log.push .nothingToPromote⟩) ∨
      ∃ accesses tree frontier t₁ t₂ u, Accesses.collect? t.state.body = .ok (some accesses) ∧
        Transform.getTree true t = .ok tree t₁ ∧ Transform.getFrontier true t₁ = .ok frontier t₂ ∧
        promote options tree frontier accesses ⟨t₂.state.body, t₂.log⟩ = .ok () u ∧
        t' = ⟨{ t₂.state with body := u.state }, u.log⟩ := by
  replace hrun := getState_bind_iff.1 hrun
  obtain ⟨found, t₁, hfound, hrun⟩ := bind_iff.1 hrun
  obtain ⟨hcollect, rfl⟩ := ofExcept_iff.1 hfound
  cases found with
  | none =>
    obtain ⟨⟨⟩, t₂, hreport, hret⟩ := bind_iff.1 hrun
    obtain ⟨-, rfl⟩ := pure_iff.1 hret
    exact .inl ⟨hcollect, report_iff.1 hreport⟩
  | some accesses =>
    obtain ⟨tree, t₂, htree, hrun⟩ := bind_iff.1 hrun
    obtain ⟨frontier, t₃, hfrontier, hrun⟩ := bind_iff.1 hrun
    obtain ⟨⟨⟩, t₄, hpromote, hret⟩ := bind_iff.1 hrun
    obtain ⟨-, rfl⟩ := pure_iff.1 hret
    obtain ⟨u, hinner, rfl⟩ := zoom_iff.1 hpromote
    exact .inr ⟨accesses, tree, frontier, t₂, t₃, u, hcollect, htree, hfrontier, hinner, rfl⟩

lemma Accesses.eq_of_collect? (h : collect? x = .ok (some accesses)) : accesses = .ofBody x := by
  obtain ⟨-, hsome⟩ := collect?_eq_ok_iff.1 h
  split at hsome
  · exact Option.some.inj hsome
  · simp at hsome

lemma run_cases
    (hbody : t.state.body = x) (hfresh : t.state.analyses.Fresh x) (hrun : run options t = .ok changes t') :
    (∀ k ∈ x.laidOutKinds, ∀ v, k.var? = some v → x.hasVar v) ∧
      ((¬x.laidOutKinds.any (Accesses.ofBody x).concerns ∧ t'.state.body = x) ∨
        ∃ tree frontier u u', compute x = .ok tree ∧ Frontier.ofBody x = .ok frontier ∧
          u.state = x ∧ promote options tree frontier (.ofBody x) u = .ok () u' ∧
          t'.state.body = u'.state) := by
  rcases of_run hrun with
    ⟨hcollect, rfl⟩ | ⟨accesses, tree, frontier, t₁, t₂, u, hcollect, htree, hfrontier, hpromote, rfl⟩
  · rw [hbody] at hcollect
    obtain ⟨hvars, hnone⟩ := Accesses.collect?_eq_ok_iff.1 hcollect
    refine ⟨hvars, .inl ⟨fun hany => ?_, hbody⟩⟩
    simp [hany] at hnone
  · rw [hbody] at hcollect
    obtain rfl := Accesses.eq_of_collect? hcollect
    obtain ⟨htree, hbody₁, hfresh₁⟩ := analyze_eq hbody hfresh treeRequest_answers htree
    obtain ⟨hfrontier, hbody₂, -⟩ := analyze_eq hbody₁ hfresh₁ frontierRequest_answers hfrontier
    exact ⟨(Accesses.collect?_eq_ok_iff.1 hcollect).1,
      .inr ⟨tree, frontier, _, u, htree, hfrontier, hbody₂, hpromote, rfl⟩⟩

/-- The trace that a run of the pass on a body leaves. -/
def traceOf? (options : Options) (x : Body) : Option (Trace Transform) :=
  match run options ⟨{ body := x }, #[]⟩ with
  | .ok _ t => some t
  | .error _ _ => none

lemma exists_of_traceOf? {p : Trace Transform → Bool} (h : (traceOf? options x).any p) :
    ∃ changes t, run options ⟨{ body := x }, #[]⟩ = .ok changes t ∧ p t := by
  rw [traceOf?] at h
  cases hrun : run options ⟨{ body := x }, #[]⟩ with
  | ok changes t => exact ⟨changes, t, rfl, by simpa [hrun] using h⟩
  | error e t => simp [hrun] at h

section Run

variable {options : Options} (hx : x.Arranged) (hv : x.Verified entry) (hstores : x.NoStoreOperands)

include hx hv hstores

lemma promote_promoted {t t' : Trace Body}
    (hvars : ∀ k ∈ x.laidOutKinds, ∀ v, k.var? = some v → x.hasVar v) (hbody : t.state = x)
    (hrun : promote options (ofEntry x entry) (.ofTree x (ofEntry x entry)) (.ofBody x) t = .ok () t') :
    ∃ plan x₁ out others r y dead, Promoted x entry plan x₁ out others r y dead t'.state := by
  subst hbody
  obtain ⟨phis, t₁, u, hphis, hrename, hstate⟩ := promote_iff.1 ⟨t', hrun, rfl⟩
  have hplaced := insertPhis_spec hx.attached hv.uses hphis
  let plan : RenamingPlan :=
    { accesses := .ofBody t.state, phis, warnOnUndefined := options.warnOnUndefined }
  have hplan : Planned t₁.state plan := planned_of_placed hx hv rfl hplaced hvars
  obtain ⟨out, others, r, T⟩ : ∃ out others r, Toured t₁.state plan entry _ out _ others r
      u.state.body :=
    rename_toured hx hv rfl hplaced hvars hstores rfl (mirrors_initial plan t₁.state) hrename
  obtain ⟨dead, hphi, hstripped, hclosed⟩ := exists_stripped options T.renames.attached
    T.renames.uses hplaced.keys_nodup fun φ v hφ => T.renames.isPhi_of_lookup hplan.toHeaded hφ
  rw [hstate]
  exact ⟨plan, t₁.state, out, others, r, _, dead, hvars, rfl, hplaced, T, hphi, hstripped, hclosed⟩

lemma run_promoted (hbody : t.state.body = x)
    (hfresh : t.state.analyses.Fresh x) (hrun : run options t = .ok changes t') :
    ((∀ k ∈ x.laidOutKinds, ∀ v, k.var? = some v → x.hasVar v) ∧
        ¬x.laidOutKinds.any (Accesses.ofBody x).concerns ∧ t'.state.body = x) ∨ ∃ plan x₁ out others r y dead,
        Promoted x entry plan x₁ out others r y dead t'.state.body := by
  obtain ⟨hvars, ⟨hnone, hz⟩ | ⟨tree, frontier, u, u', htree, hfrontier, hu, hpromote, hz⟩⟩ :=
    run_cases hbody hfresh hrun
  · exact .inl ⟨hvars, hnone, hz⟩
  · rw [Frontier.ofBody, htree] at hfrontier
    obtain rfl : ofEntry x entry = tree := ok.inj ((compute_eq hv.entry_eq).symm.trans htree)
    obtain rfl : .ofTree x (ofEntry x entry) = frontier := by
      have hcompute : Frontier.compute x (ofEntry x entry) = .ok frontier := hfrontier
      rw [Frontier.compute] at hcompute
      split at hcompute
      · exact ok.inj hcompute
      · simp at hcompute
    rw [hz]
    exact .inr (promote_promoted hx hv hstores hvars hu hpromote)

end Run

end Promotion

end MethodIR
