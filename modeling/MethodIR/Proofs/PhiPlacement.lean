import MethodIR.Promotion.Placement
import MethodIR.Proofs.SameGraph
import MethodIR.Proofs.Verified

/-!
# Placed phis

What is in the frontier of a block with a store or a phi has a phi itself. Placing phis changes nothing
else in a body (`Promotion.Placed`).
-/

namespace MethodIR

open List Tables Success Body Edit

/-! ## The blocks -/

namespace Promotion

variable {frontier : BlockId → List BlockId} {unplaced queued worklist : List BlockId} {a c : BlockId}

structure Closed (frontier : BlockId → List BlockId) (unplaced queued worklist placed : List BlockId) : Prop where
  nodup : placed.Nodup
  subset : ∀ c ∈ placed, c ∈ unplaced
  sound : ∀ c ∈ placed, ∃ a, c ∈ frontier a
  work : ∀ a ∈ worklist, ∀ c ∈ frontier a, c ∈ unplaced → c ∈ placed
  own : ∀ a ∈ placed, a ∉ queued → ∀ c ∈ frontier a, c ∈ unplaced → c ∈ placed

lemma place_closed : Closed frontier unplaced queued worklist (place frontier unplaced queued worklist) := by
  fun_induction place frontier unplaced queued worklist with
  | case1 => exact ⟨by simp, by simp, by simp, by simp, by simp⟩
  | case2 unplaced queued b worklist fresh hnil ih =>
    refine ⟨ih.nodup, ih.subset, ih.sound, fun a ha c hc hu => ?_, ih.own⟩
    rcases mem_cons.1 ha with rfl | ha
    · have hmem : c ∈ fresh := by simpa [fresh, hu] using hc
      simp [hnil] at hmem
    · exact ih.work a ha c hc hu
  | case3 unplaced queued b worklist fresh hfresh new ih =>
    have hmem : ∀ c, c ∈ fresh ↔ c ∈ frontier b ∧ c ∈ unplaced := by simp [fresh]
    have hleft : ∀ c, c ∈ unplaced.removeAll fresh ↔ c ∈ unplaced ∧ c ∉ fresh := by
      simp [removeAll]
    -- A block still to be placed gets its phi now or later.
    have hall : ∀ a ∈ new.reverse ++ worklist, ∀ c ∈ frontier a, c ∈ unplaced →
        c ∈ fresh ++ place frontier (unplaced.removeAll fresh) (queued ++ new) (new.reverse ++ worklist) := by
      intro a ha c hc hu
      by_cases hcf : c ∈ fresh
      · exact mem_append_left _ hcf
      · exact mem_append_right _ (ih.work a ha c hc ((hleft c).2 ⟨hu, hcf⟩))
    refine ⟨?_, fun c hc => ?_, fun c hc => ?_, fun a ha c hc hu => ?_, fun a ha hq c hc hu => ?_⟩
    · refine nodup_append.2 ⟨(Lists.nodup_eraseDups _).filter _, ih.nodup, ?_⟩
      rintro c hc _ hc' rfl
      exact ((hleft c).1 (ih.subset c hc')).2 hc
    · rcases mem_append.1 hc with hc | hc
      · exact ((hmem c).1 hc).2
      · exact ((hleft c).1 (ih.subset c hc)).1
    · rcases mem_append.1 hc with hc | hc
      · exact ⟨b, ((hmem c).1 hc).1⟩
      · exact ih.sound c hc
    · rcases mem_cons.1 ha with rfl | ha
      · exact mem_append_left _ ((hmem c).2 ⟨hc, hu⟩)
      · exact hall a (by simp [ha]) c hc hu
    · by_cases hnew : a ∈ new
      · exact hall a (by simp [hnew]) c hc hu
      · have hlater : a ∈ place frontier (unplaced.removeAll fresh) (queued ++ new) (new.reverse ++ worklist) := by
          refine (mem_append.1 ha).resolve_left fun haf => hnew ?_
          simpa [new, hq] using haf
        by_cases hcf : c ∈ fresh
        · exact mem_append_left _ hcf
        · refine mem_append_right _ (ih.own a hlater (by simp [hq, hnew]) c hc ?_)
          exact (hleft c).2 ⟨hu, hcf⟩

variable {capacity : Nat} {f : Frontier} {defs : List BlockId}

lemma phiBlocks_nodup : (phiBlocks capacity f defs).Nodup := place_closed.nodup

lemma exists_of_mem_phiBlocks (hc : c ∈ phiBlocks capacity f defs) : ∃ a, c ∈ f.of a := place_closed.sound c hc

lemma mem_phiBlocks (ha : a ∈ defs ∨ a ∈ phiBlocks capacity f defs) (hc : c ∈ f.of a)
    (hin : c.index < capacity) : c ∈ phiBlocks capacity f defs := by
  have hclosed : Closed f.of (BlockId.below capacity) defs defs.reverse _ := place_closed
  have hbelow : c ∈ BlockId.below capacity := DepthFirst.mem_below.2 hin
  by_cases hdef : a ∈ defs
  · exact hclosed.work a (by simpa using hdef) c hc hbelow
  · exact hclosed.own a (ha.resolve_left hdef) hdef c hc hbelow

end Promotion

/-! ## One phi -/

namespace Body

variable {body : Body} {i j last φ : InstId} {b c : BlockId} {ty : Ty}

/-- The instructions of a block from the first one that is no phi on. -/
def nonPhis (body : Body) (b : BlockId) : List InstId := (body.instsOf b).dropWhile fun i => (body.kind i).isPhi

lemma phis_append_nonPhis (body : Body) (b : BlockId) : body.phis b ++ body.nonPhis b = body.instsOf b :=
  takeWhile_append_dropWhile

lemma isPhi_of_mem_phis (hi : i ∈ body.phis b) : (body.kind i).isPhi :=
  mem_takeWhile_imp (p := fun i => (body.kind i).isPhi) hi

lemma mem_of_mem_nonPhis (hi : i ∈ body.nonPhis b) : i ∈ body.instsOf b := (dropWhile_sublist _).subset hi

lemma mem_nonPhis (hi : i ∈ body.instsOf b) (hnot : (body.kind i).isPhi = false) : i ∈ body.nonPhis b := by
  rw [← phis_append_nonPhis] at hi
  refine (mem_append.1 hi).resolve_left fun hphi => ?_
  simp [isPhi_of_mem_phis hphi] at hnot

def withPhi (body : Body) (b : BlockId) (ty : Ty) : Body :=
  body.withInst b (body.phis b) (body.nonPhis b) (.phi []) [] ty

lemma Attached.kind_addInst_of_mem (h : body.Attached) (hj : j ∈ body.instsOf b) (kind : Kind)
    (vs : List Value) (ty : Ty) : (body.addInst kind vs ty).kind j = body.kind j := by
  rw [kind_addInst, if_neg]
  intro heq
  have hin : body.hasInst j := h.hasInst hj
  simp [Body.hasInst, heq] at hin

lemma phis_congr {x y : Body} (hlist : y.instsOf b = x.instsOf b)
    (hkind : ∀ i ∈ x.instsOf b, (y.kind i).isPhi = (x.kind i).isPhi) :
    y.phis b = x.phis b ∧ y.nonPhis b = x.nonPhis b := by
  rw [phis, nonPhis, hlist, phis, nonPhis]
  generalize x.instsOf b = l at hkind
  induction l with
  | nil => exact ⟨rfl, rfl⟩
  | cons i l ih =>
    have hi := hkind i (by simp)
    obtain ⟨hphis, hrest⟩ := ih fun j hj => hkind j (by simp [hj])
    cases hphi : (x.kind i).isPhi with
    | true => simp [hi, hphi, hphis, hrest]
    | false => simp [hi, hphi]

lemma takeWhile_ne_last {l phis rest : List InstId} (hnodup : l.Nodup) (hl : phis ++ rest = l)
    (hlast : phis.getLast? = some last) (new : InstId) :
    l.takeWhile (· ≠ last) ++ last :: new :: (l.dropWhile (· ≠ last)).drop 1 = phis ++ new :: rest := by
  obtain ⟨init, rfl⟩ := getLast?_eq_some_iff.1 hlast
  have hnot : ∀ i ∈ init, i ≠ last := by
    rintro i hi rfl
    rw [← hl, append_assoc] at hnodup
    exact (nodup_append.1 hnodup).2.2 i hi i (by simp) rfl
  have htake : l.takeWhile (· ≠ last) = init := by
    rw [← hl, append_assoc, takeWhile_append_of_pos (by simpa using hnot)]
    simp
  have hdrop : l.dropWhile (· ≠ last) = last :: rest := by
    rw [← hl, append_assoc, dropWhile_append_of_pos (by simpa using hnot)]
    simp
  rw [htake, hdrop]
  simp

lemma insertPhi_eq_ok (h : body.Attached) {body' : Body} : insertPhi b ty body = .ok φ body' ↔
      body.hasBlock b ∧ φ = ⟨body.insts.size⟩ ∧ body' = body.withPhi b ty := by
  let new : InstId := ⟨body.insts.size⟩
  let next := body.addInst (.phi []) [] ty
  have hlist : ∀ c, next.instsOf c = body.instsOf c := instsOf_addInst _ _ _
  have hphis : next.phis b = body.phis b := by
    refine (phis_congr (hlist b) fun i hi => ?_).1
    rw [h.kind_addInst_of_mem hi]
  have hblock : next.hasBlock b = body.hasBlock b := (sameGraph_addInst _ _ _).hasBlock b
  have hattached : next.Attached := h.addInst _ _ _
  have hcan : ∀ c, next.CanAttach new c ↔ body.hasBlock c := fun c => canAttach_addInst rfl [] ty
  have hput : ∀ put : Edit InstId, ((next.phis b).getLast? = none → put = do insertFirst b new; return new) →
      (∀ last, (next.phis b).getLast? = some last → put = do insertAfter last new; return new) →
      ∀ x, put next = .ok φ x ↔ body.hasBlock b ∧ φ = new ∧
        x = next.attach new b (body.phis b ++ new :: body.nonPhis b) := by
    intro put hfirst hafter x
    rw [hphis] at hfirst hafter
    cases hlast : (body.phis b).getLast? with
    | none =>
      have hnil : body.phis b = [] := getLast?_eq_none_iff.1 hlast
      have hall : body.instsOf b = body.nonPhis b := by
        rw [← phis_append_nonPhis, hnil, nil_append]
      simp only [hfirst hlast, bind_iff, pure_iff, insertFirst_iff, hcan, hlist, hall, hnil, nil_append]
      grind
    | some last =>
      have hmem : last ∈ body.instsOf b := by
        rw [← phis_append_nonPhis]
        exact mem_append_left _ (mem_of_getLast? hlast)
      have hlastBlock : (next.inst last).block = some b := (hattached.mem_iff b last).1 (hlist b ▸ hmem)
      have hsplit := takeWhile_ne_last (h.nodup b) (phis_append_nonPhis body b) hlast new
      simp only [hafter last hlast, bind_iff, pure_iff, insertAfter_iff, hcan, hlastBlock, Option.some.injEq]
      constructor
      · rintro ⟨_, _, ⟨c, -, rfl, hc, rfl⟩, rfl, rfl⟩
        exact ⟨hc, rfl, by rw [hlist, hsplit]⟩
      · rintro ⟨hc, rfl, rfl⟩
        have hin := hattached.hasInst (hlist b ▸ hmem)
        exact ⟨(), _, ⟨b, hin, rfl, hc, rfl⟩, rfl, by rw [hlist, hsplit]⟩
  rw [insertPhi]
  constructor
  · intro hrun
    obtain ⟨_, _, hcreate, hrun⟩ := bind_iff.1 hrun
    obtain ⟨-, -, rfl, rfl⟩ := createInst_iff.1 hcreate
    obtain ⟨_, _, hb, hrun⟩ := bind_iff.1 hrun
    obtain ⟨_, hb⟩ := discard_iff.1 hb
    obtain ⟨hhas, -, rfl⟩ := block_iff.1 hb
    obtain ⟨_, _, hget, hrun⟩ := bind_iff.1 hrun
    obtain ⟨rfl, rfl⟩ := get_iff.1 hget
    obtain ⟨-, rfl, rfl⟩ := (hput _ (fun hlast => by rw [hlast]) (fun last hlast => by rw [hlast]) body').1 hrun
    exact ⟨hblock ▸ hhas, rfl, rfl⟩
  · rintro ⟨hb, rfl, rfl⟩
    have hb' : next.hasBlock b := hblock.trans hb
    refine bind_iff.2 ⟨new, next, createInst_iff.2 ⟨rfl, by simp, rfl, rfl⟩, ?_⟩
    refine bind_iff.2 ⟨(), next, discard_iff.2 ⟨_, block_iff.2 ⟨hb', rfl, rfl⟩⟩, ?_⟩
    refine bind_iff.2 ⟨next, next, get_iff.2 ⟨rfl, rfl⟩, ?_⟩
    exact (hput _ (fun hlast => by rw [hlast]) (fun last hlast => by rw [hlast]) _).2 ⟨hb, rfl, rfl⟩

lemma instsOf_withPhi (hb : body.hasBlock b) : (body.withPhi b ty).instsOf c =
    if c = b then body.phis b ++ ⟨body.insts.size⟩ :: body.nonPhis b else body.instsOf c :=
  instsOf_withInst hb

lemma kind_withPhi : (body.withPhi b ty).kind j = if j.index = body.insts.size then .phi [] else body.kind j := by
  have hbare : ((body.withPhi b ty).inst j).bare = _ := inst_withInst
  have hkind := congrArg Inst.kind hbare
  rw [apply_ite Inst.kind] at hkind
  exact hkind

lemma phis_withPhi (h : body.Attached) (hb : body.hasBlock b) :
    (body.withPhi b ty).phis c = (if c = b then body.phis c ++ [⟨body.insts.size⟩] else body.phis c) ∧
      (body.withPhi b ty).nonPhis c = body.nonPhis c := by
  have hkind : ∀ d, ∀ i ∈ body.instsOf d, (body.withPhi b ty).kind i = body.kind i := by
    intro d i hi
    rw [kind_withPhi, if_neg]
    intro heq
    have hin : body.hasInst i := h.hasInst hi
    simp [hasInst, heq] at hin
  by_cases hc : c = b
  · subst hc
    have hphis : ∀ i ∈ body.phis c, ((body.withPhi c ty).kind i).isPhi := by
      intro i hi
      rw [hkind c i (takeWhile_subset _ hi)]
      exact isPhi_of_mem_phis hi
    have hnew : ((body.withPhi c ty).kind ⟨body.insts.size⟩).isPhi := by
      rw [kind_withPhi, if_pos rfl]
      rfl
    have hall : ∀ i ∈ body.phis c ++ [⟨body.insts.size⟩], ((body.withPhi c ty).kind i).isPhi := by
      intro i hi
      rcases mem_append.1 hi with hi | hi
      · exact hphis i hi
      · rw [mem_singleton.1 hi]
        exact hnew
    have hrest : ((body.nonPhis c).takeWhile fun i => ((body.withPhi c ty).kind i).isPhi) = [] ∧
        ((body.nonPhis c).dropWhile fun i => ((body.withPhi c ty).kind i).isPhi) =
          body.nonPhis c := by
      cases hnon : body.nonPhis c with
      | nil => simp
      | cons i l =>
        have hi : i ∈ body.instsOf c := by
          rw [← phis_append_nonPhis, hnon]
          simp
        have hnot : (body.kind i).isPhi = false := by
          have hhead := head?_dropWhile_not (fun i => (body.kind i).isPhi) (body.instsOf c)
          rw [← nonPhis, hnon] at hhead
          simpa using hhead
        simp [hkind c i hi, hnot]
    have hlist : (body.withPhi c ty).instsOf c = (body.phis c ++ [⟨body.insts.size⟩]) ++ body.nonPhis c := by
      rw [instsOf_withPhi hb, if_pos rfl]
      simp
    rw [if_pos rfl, phis, nonPhis, hlist, takeWhile_append_of_pos hall,
      dropWhile_append_of_pos hall, hrest.1, hrest.2, append_nil]
    exact ⟨rfl, rfl⟩
  · have hlist : (body.withPhi b ty).instsOf c = body.instsOf c := by
      rw [instsOf_withPhi hb, if_neg hc]
    obtain ⟨hphis, hrest⟩ := phis_congr hlist fun i hi => by rw [hkind c i hi]
    rw [if_neg hc]
    exact ⟨hphis, hrest⟩

end Body

/-! ## All phis -/

namespace Promotion

variable {t t' : Trace Body}

variable {x y : Body} {phis qs : List (InstId × VarId)} {places : List (VarId × BlockId)} {v : VarId}
  {b : BlockId}

/-- A phi without arguments. -/
def emptyPhi (ty : Ty) (b : BlockId) : Inst := { kind := .phi [], ty, block := some b }

/-- `y` is `x` with new phis for variables, in the blocks that `places` names in the same order. -/
structure Placed (x : Body) (phis : List (InstId × VarId)) (places : List (VarId × BlockId)) (y : Body) : Prop where
  graph : x.SameGraph y
  attached : y.Attached
  uses : y.ExactUses
  size : y.insts.size = x.insts.size + phis.length
  keys : phis.map (fun q => q.1.index) = range' x.insts.size phis.length
  old : ∀ i, x.hasInst i → (y.inst i).bare = (x.inst i).bare
  new : Forall₂ (fun q r => q.2 = r.1 ∧ (y.inst q.1).bare = emptyPhi (x.var q.2).ty r.2) phis places
  phis : ∀ b, ∃ new, y.phis b = x.phis b ++ new ∧ ∀ φ ∈ new, x.insts.size ≤ φ.index
  nonPhis : ∀ b, y.nonPhis b = x.nonPhis b

lemma Placed.refl (hattached : x.Attached) (huses : x.ExactUses) : Placed x [] [] x :=
  ⟨.refl x, hattached, huses, rfl, rfl, fun _ _ => rfl, .nil, fun _ => ⟨[], by simp⟩, fun _ => rfl⟩

lemma Placed.withPhi (h : Placed x phis places y) (hb : y.hasBlock b) :
    Placed x (phis ++ [(⟨y.insts.size⟩, v)]) (places ++ [(v, b)]) (y.withPhi b (x.var v).ty) := by
  have hlt : ∀ i, i.index < y.insts.size →
      ((y.withPhi b (x.var v).ty).inst i).bare = (y.inst i).bare := fun i hi => by
    rw [Body.withPhi, Body.inst_withInst, if_neg (by omega)]
  have hkey : ∀ q ∈ phis, q.1.index < y.insts.size := by
    intro q hq
    have hmem : q.1.index ∈ range' x.insts.size phis.length := h.keys ▸ mem_map_of_mem hq
    rw [mem_range'_1] at hmem
    have hsize := h.size
    omega
  refine ⟨h.graph.trans (sameGraph_withInst rfl),
    h.attached.withInst hb (phis_append_nonPhis y b), h.uses.withInst (by simp), ?_, ?_, fun i hi => ?_, ?_, fun c => ?_, fun c => ?_⟩
  · rw [Body.withPhi, Body.size_withInst, h.size, length_append]
    rfl
  · rw [map_append, h.keys, length_append, length_singleton, range'_concat]
    simp [h.size]
  · rw [hlt i, h.old i hi]
    have hin : i.index < x.insts.size := hasInst_iff.1 hi
    have hsize := h.size
    omega
  · refine rel_append ?_ (.cons ⟨rfl, ?_⟩ .nil)
    · refine ((forall₂_and_left _ _).2 ⟨hkey, h.new⟩).imp fun q r hqr => ?_
      exact ⟨hqr.2.1, (hlt q.1 hqr.1).trans hqr.2.2⟩
    · rw [Body.withPhi, Body.inst_withInst, if_pos rfl]
      rfl
  · obtain ⟨new, hphis, hnew⟩ := h.phis c
    rw [(phis_withPhi h.attached hb).1]
    by_cases hc : c = b
    · refine ⟨new ++ [⟨y.insts.size⟩], ?_, ?_⟩
      · rw [if_pos hc, hphis, append_assoc]
      · intro φ hφ
        rcases mem_append.1 hφ with hφ | hφ
        · exact hnew φ hφ
        · rw [mem_singleton.1 hφ]
          exact h.size ▸ Nat.le_add_right _ _
    · exact ⟨new, by rw [if_neg hc, hphis], hnew⟩
  · rw [(phis_withPhi h.attached hb).2, h.nonPhis]

open Traced

lemma insertPhis_step {bs : List BlockId} (h : Placed x phis places t.state) (hrun : (bs.mapM fun b => do
      let phi ← ofEdit (insertPhi b (x.var v).ty)
      report (.insertedPhi phi v b)
      return (phi, v) : Traced Body _) t = .ok qs t') :
    Placed x (phis ++ qs) (places ++ bs.map (v, ·)) t'.state := by
  induction bs generalizing phis places t qs with
  | nil =>
    obtain ⟨rfl, rfl⟩ := mapM_nil_iff.1 hrun
    simpa using h
  | cons b bs ih =>
    obtain ⟨q, t₁, hstep, qs, hrest, rfl⟩ := mapM_cons_iff.1 hrun
    obtain ⟨phi, t₂, hedit, hlog⟩ := bind_iff.1 hstep
    obtain ⟨body, hphi, rfl⟩ := ofEdit_iff.1 hedit
    obtain ⟨hb, rfl, rfl⟩ := (insertPhi_eq_ok h.attached).1 hphi
    obtain ⟨_, t₃, hreport, hret⟩ := bind_iff.1 hlog
    obtain rfl := report_iff.1 hreport
    obtain ⟨rfl, rfl⟩ := pure_iff.1 hret
    have hnext := ih (h.withPhi hb) hrest
    simpa using hnext

lemma insertPhis_spec {frontier : Frontier} {accesses : Accesses}
    (hattached : t.state.Attached) (huses : t.state.ExactUses)
    (hrun : insertPhis frontier accesses t = .ok phis t') : Placed t.state phis (accesses.globals.flatMap fun g =>
      (phiBlocks t.state.blocks.size frontier g.2).map (g.1, ·)) t'.state := by
  obtain ⟨qss, t₁, hmap, hret⟩ := bind_iff.1 hrun
  obtain ⟨rfl, rfl⟩ := pure_iff.1 hret
  suffices hall : ∀ (gs : List (VarId × List BlockId)) (u : Trace Body) phis places qss,
      Placed t.state phis places u.state →
      (gs.mapM fun g => insertPhisFor frontier g.1 g.2 : Traced Body _) u = .ok qss t₁ →
      Placed t.state (phis ++ qss.flatten) (places ++ gs.flatMap fun g =>
        (phiBlocks t.state.blocks.size frontier g.2).map (g.1, ·)) t₁.state by
    simpa using hall _ t [] [] qss (.refl hattached huses) hmap
  intro gs
  induction gs with
  | nil =>
    intro u phis places qss h hrun
    obtain ⟨rfl, rfl⟩ := mapM_nil_iff.1 hrun
    simpa using h
  | cons g gs ih =>
    intro u phis places qss h hrun
    obtain ⟨qs, u₁, hg, qss, hrest, rfl⟩ := mapM_cons_iff.1 hrun
    replace hg := getState_bind_iff.1 hg
    simp only [h.graph.var, h.graph.size] at hg
    have hnext := ih u₁ _ _ _ (insertPhis_step h hg) hrest
    simpa using hnext

end Promotion

end MethodIR
