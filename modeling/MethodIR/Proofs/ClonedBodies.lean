import MethodIR.Proofs.CopiedBlocks
import MethodIR.Proofs.LayoutHistories
import MethodIR.Proofs.Soundness

/-!
# Copies of whole bodies

A copy of all the blocks of a body is the same body under other names (`Body.IsClone`), so that it keeps the
rules of bodies if the original does (`Body.IsClone.sound`).
-/

namespace MethodIR

open List FlowGraph DepthFirst Kind Body

namespace FlowGraph

variable {α β : Type} {E : α → α → Prop} {F : β → β → Prop} {f : α → β} {S : Set α} {a b : α} {q : List α}

lemma Path.mem_of_closed (hS : ∀ a ∈ S, ∀ b, E a b → b ∈ S) (h : Path E a b q) (ha : a ∈ S) :
    b ∈ S ∧ ∀ c ∈ q, c ∈ S := by
  induction h with
  | single a => exact ⟨ha, by simpa using ha⟩
  | step edge _ ih =>
    obtain ⟨hb, hq⟩ := ih (hS _ ha _ edge)
    exact ⟨hb, by simpa [ha] using hq⟩

section Map

variable {c : β}

variable (hS : ∀ a ∈ S, ∀ b, E a b → b ∈ S) (hF : ∀ a ∈ S, ∀ c, F (f a) c ↔ ∃ b, E a b ∧ f b = c)

include hS hF

lemma path_map_iff (ha : a ∈ S) {p : List β} : Path F (f a) c p ↔ ∃ b q, Path E a b q ∧ f b = c ∧ q.map f = p := by
  constructor
  · intro h
    generalize hd : f a = d at h
    induction h generalizing a with
    | single d => exact ⟨a, [a], .single a, hd, by simp [hd]⟩
    | @step d e c p edge rest ih =>
      subst hd
      obtain ⟨b, hab, rfl⟩ := (hF a ha e).1 edge
      obtain ⟨b', q, hq, hb', rfl⟩ := ih (hS a ha b hab) rfl
      exact ⟨b', a :: q, .step hab hq, hb', rfl⟩
  · rintro ⟨b, q, hq, rfl, rfl⟩
    induction hq with
    | single a => exact .single _
    | step edge _ ih => exact .step ((hF _ ha _).2 ⟨_, edge, rfl⟩) (ih (hS _ ha _ edge))

lemma reachable_map_iff (ha : a ∈ S) : Reachable F (f a) c ↔ ∃ b, Reachable E a b ∧ f b = c := by
  constructor
  · rintro ⟨p, hp⟩
    obtain ⟨b, q, hq, hb, -⟩ := (path_map_iff hS hF ha).1 hp
    exact ⟨b, ⟨q, hq⟩, hb⟩
  · rintro ⟨b, ⟨q, hq⟩, hb⟩
    exact ⟨q.map f, (path_map_iff hS hF ha).2 ⟨b, q, hq, hb, rfl⟩⟩

lemma onEveryPath_map_iff (hf : Set.InjOn f S) (ha : a ∈ S) (hb : b ∈ S) {c : α} (hc : c ∈ S) :
    (∀ p, Path F (f a) (f b) p → f c ∈ p) ↔ ∀ q, Path E a b q → c ∈ q := by
  constructor
  · intro h q hq
    obtain ⟨d, hd, hcd⟩ := mem_map.1 (h _ ((path_map_iff hS hF ha).2 ⟨b, q, hq, rfl, rfl⟩))
    obtain rfl := hf ((hq.mem_of_closed hS ha).2 d hd) hc hcd
    exact hd
  · intro h p hp
    obtain ⟨b', q, hq, hbb, rfl⟩ := (path_map_iff hS hF ha).1 hp
    obtain rfl := hf (hq.mem_of_closed hS ha).1 hb hbb
    exact mem_map_of_mem (h q hq)

end Map

end FlowGraph

namespace Body

variable {ctx : GenericContext} {x y : Body} {f : BlockId → BlockId} {g : InstId → InstId} {h : VarId → VarId}
  {a b entry home : BlockId} {i d : InstId} {v : VarId}

/-- An instruction is in a block that is laid out. -/
def InLayout (x : Body) (i : InstId) : Prop := ∃ b ∈ x.order, i ∈ x.instsOf b

/-- An instruction that is laid out names a variable. -/
def Accesses (x : Body) (v : VarId) : Prop := ∃ i, x.InLayout i ∧ (x.kind i).var? = some v

/-- `y` is what is laid out in `x` under other names, with all entities specialized. -/
structure IsClone (ctx : GenericContext) (x y : Body) (f : BlockId → BlockId) (g : InstId → InstId)
    (h : VarId → VarId) : Prop where
  blocks : Set.BijOn f {b | b ∈ x.order} {c | c ∈ y.order}
  insts : Set.BijOn g {i | x.InLayout i} {j | y.hasInst j}
  vars : Set.BijOn h {v | x.Accesses v} {w | y.hasVar w}
  entry : y.entry = x.entry.map f
  list : ∀ b ∈ x.order, y.instsOf (f b) = (x.instsOf b).map g
  kind : ∀ i, x.InLayout i → y.kind (g i) = (x.kind i).renamed ctx f h
  ty : ∀ i, x.InLayout i → (y.inst (g i)).ty = (x.inst i).ty.specialize ctx
  operands : ∀ i, x.InLayout i → (y.inst (g i)).operands = (x.inst i).operands.map (Value.renamed ctx g)
  decl : ∀ v, x.Accesses v → y.var (h v) = { x.var v with ty := (x.var v).ty.specialize ctx }
  succs : ∀ a ∈ x.order, ∀ b ∈ x.order, f b ∈ y.succs (f a) ↔ b ∈ x.succs a
  preds : ∀ a ∈ x.order, ∀ b ∈ x.order, f a ∈ y.preds (f b) ↔ a ∈ x.preds b

structure SelfContained (x : Body) : Prop where
  blocks : ∀ i, x.InLayout i → ∀ c ∈ (x.kind i).blocks, c ∈ x.order
  succs : ∀ a ∈ x.order, ∀ b ∈ x.succs a, b ∈ x.order
  preds : ∀ b ∈ x.order, ∀ a ∈ x.preds b, a ∈ x.order
  operands : ∀ i, x.InLayout i → ∀ d, .inst d ∈ (x.inst i).operands → x.InLayout d

namespace IsClone

variable (hc : IsClone ctx x y f g h) (hx : x.SelfContained) (hy : y.Intact)

include hc hx hy

lemma edge_iff : ∀ a ∈ {b | b ∈ x.order}, ∀ c, Edge y.succs (f a) c ↔ ∃ b, Edge x.succs a b ∧ f b = c := by
  intro a ha c
  constructor
  · intro hedge
    obtain ⟨b, hb, rfl⟩ := hc.blocks.surjOn (hy.mem_order.2 (hy.wired.edges.hasBlock hedge).2)
    exact ⟨b, (hc.succs a ha b hb).1 hedge, rfl⟩
  · rintro ⟨b, hedge, rfl⟩
    exact (hc.succs a ha b (hx.succs a ha b hedge)).2 hedge

lemma perm_preds (hedges : x.Edges) (hb : b ∈ x.order) : ((x.preds b).map f).Perm (y.preds (f b)) := by
  have hnodup : ((x.preds b).map f).Nodup := by
    refine (nodup_map_iff_inj_on (hedges.preds_nodup b)).2 fun p hp q hq heq => ?_
    exact hc.blocks.injOn (hx.preds b hb p hp) (hx.preds b hb q hq) heq
  refine (perm_ext_iff_of_nodup hnodup (hy.wired.edges.preds_nodup _)).2 fun c => ?_
  constructor
  · intro hmem
    obtain ⟨p, hp, rfl⟩ := mem_map.1 hmem
    exact (hc.preds p (hx.preds b hb p hp) b hb).2 hp
  · intro hmem
    have hhas := (hy.wired.edges.hasBlock ((hy.wired.edges.symm c (f b)).2 hmem)).1
    obtain ⟨p, hp, rfl⟩ := hc.blocks.surjOn (hy.mem_order.2 hhas)
    exact mem_map_of_mem ((hc.preds p hp b hb).1 hmem)

omit hx in
lemma home_eq (hd : x.InLayout d) (hattached : x.Attached)
    (hhome : (x.inst d).block = some home) : home ∈ x.order ∧ (y.inst (g d)).block = some (f home) := by
  obtain ⟨b, hb, hlist⟩ := hd
  obtain rfl := Option.some.inj (((hattached.mem_iff b d).1 hlist).symm.trans hhome)
  refine ⟨hb, (hy.wired.attached.mem_iff _ _).1 ?_⟩
  rw [hc.list b hb]
  exact mem_map_of_mem hlist

lemma defined {pre : List InstId} {slot : Nat} (hattached : x.Attached) (hentry : entry ∈ x.order)
    (hb : b ∈ x.order) (hi : x.InLayout i) (hd : x.InLayout d) (hdef : x.Defined entry b pre i slot d) :
    y.Defined (f entry) (f b) (pre.map g) (g i) slot (g d) := by
  obtain ⟨home, hhome, hrule⟩ := hdef
  obtain ⟨hmem, hhome'⟩ := hc.home_eq hy hd hattached hhome
  have hpath : ∀ {a}, a ∈ x.order → x.OnEveryPath entry home a → y.OnEveryPath (f entry) (f home) (f a) :=
    fun ha => (onEveryPath_map_iff hx.succs (hc.edge_iff hx hy) hc.blocks.injOn hentry ha hmem).2
  refine ⟨f home, hhome', ?_⟩
  cases hk : x.kind i with
  | phi cs =>
    rw [(hc.kind i hi).trans (renamed_eq_phi.2 ⟨cs, hk, rfl⟩)]
    simp only [hk] at hrule
    intro p hp
    rw [getElem?_map] at hp
    obtain ⟨c, hslot, rfl⟩ := Option.map_eq_some_iff.1 hp
    have hcmem : c ∈ x.order := hx.blocks i hi c (by rw [hk]; exact mem_of_getElem? hslot)
    refine (hrule c hslot).imp (fun hnot hreach => hnot ?_) (hpath hcmem)
    obtain ⟨a, ha, heq⟩ := (reachable_map_iff hx.succs (hc.edge_iff hx hy) hentry).1 hreach
    obtain ⟨q, hq⟩ := ha
    obtain rfl := hc.blocks.injOn (hq.mem_of_closed hx.succs hentry).1 hcmem heq
    exact ⟨q, hq⟩
  | _ =>
    rw [hc.kind i hi]
    simp only [hk] at hrule ⊢
    refine hrule.imp (fun ⟨heq, hpre⟩ => ⟨heq ▸ rfl, mem_map_of_mem hpre⟩) fun ⟨hne, hall⟩ => ?_
    exact ⟨fun heq => hne (hc.blocks.injOn hmem hb heq), hpath hb hall⟩

lemma sound (hattached : x.Attached) (hedges : x.Edges) (hentry : entry ∈ x.order) (hs : x.Sound entry) :
    y.Sound (f entry) := by
  have hreach : ∀ {c}, Reachable (Edge y.succs) (f entry) c →
      ∃ b ∈ x.order, Reachable (Edge x.succs) entry b ∧ f b = c := fun hc' => by
    obtain ⟨b, ⟨q, hq⟩, heq⟩ := (reachable_map_iff hx.succs (hc.edge_iff hx hy) hentry).1 hc'
    exact ⟨b, (hq.mem_of_closed hx.succs hentry).1, ⟨q, hq⟩, heq⟩
  exact {
    entry_eq := by rw [hc.entry, hs.entry_eq, Option.map_some]
    entry_live := ⟨hy.mem_order.1 (hc.blocks.mapsTo hentry), hy.blocks _⟩
    entry_preds := by
      have hperm := hc.perm_preds hx hy hedges hentry
      rw [hs.entry_preds, map_nil] at hperm
      exact hperm.symm.eq_nil
    phisFirst := fun c hmem => by
      obtain ⟨b, hb, rfl⟩ := hc.blocks.surjOn hmem
      obtain ⟨phis, rest, hlist, hphis, hrest⟩ := hs.phisFirst b hb
      refine ⟨phis.map g, rest.map g, by rw [hc.list b hb, hlist, map_append], ?_, ?_⟩
      all_goals
        intro j hj
        obtain ⟨i, hi, rfl⟩ := mem_map.1 hj
        rw [hc.kind i ⟨b, hb, by simp [hlist, hi]⟩, isPhi_renamed]
      · exact hphis i hi
      · exact hrest i hi
    terminatorLast := fun c hmem j hj => by
      obtain ⟨b, hb, rfl⟩ := hc.blocks.surjOn hmem
      rw [hc.list b hb, ← map_dropLast] at hj
      obtain ⟨i, hi, rfl⟩ := mem_map.1 hj
      rw [hc.kind i ⟨b, hb, mem_of_mem_dropLast hi⟩, isTerminator_renamed]
      exact hs.terminatorLast b hb i hi
    terminated := fun c hc' => by
      obtain ⟨b, hb, hreachable, rfl⟩ := hreach hc'
      obtain ⟨i, hlast, hterm⟩ := hs.terminated b hreachable
      refine ⟨g i, by rw [hc.list b hb, getLast?_map, hlast, Option.map_some], ?_⟩
      rw [hc.kind i ⟨b, hb, mem_of_getLast? hlast⟩, isTerminator_renamed]
      exact hterm
    targets := fun c _ t => by rw [hy.wired.named c t, mem_targets_iff]
    succs_live := fun _ _ t _ => hy.blocks t
    phis := fun c hmem j hj blocks hk => by
      obtain ⟨b, hb, rfl⟩ := hc.blocks.surjOn hmem
      rw [hc.list b hb] at hj
      obtain ⟨i, hi, rfl⟩ := mem_map.1 hj
      obtain ⟨cs, hcs, rfl⟩ := renamed_eq_phi.1 ((hc.kind i ⟨b, hb, hi⟩).symm.trans hk)
      exact ((hs.phis b hb i hi cs hcs).map f).trans (hc.perm_preds hx hy hedges hb)
    operands := fun c hc' pre j post hsplit slot e he => by
      obtain ⟨b, hb, hreachable, rfl⟩ := hreach hc'
      rw [hc.list b hb] at hsplit
      obtain ⟨pre, rest, hlist, rfl, hrest⟩ := map_eq_append_iff.1 hsplit
      obtain ⟨i, post, rfl, rfl, -⟩ := map_eq_cons_iff.1 hrest
      have hi : x.InLayout i := ⟨b, hb, by simp [hlist]⟩
      rw [hc.operands i hi, getElem?_map] at he
      obtain ⟨v, hv, hrenamed⟩ := Option.map_eq_some_iff.1 he
      cases v with
      | inst d =>
        obtain rfl := Value.inst.inj hrenamed
        have hd := hx.operands i hi d (mem_of_getElem? hv)
        exact hc.defined hx hy hattached hentry hb hi hd (hs.operands b hreachable pre i post hlist slot d hv)
      | _ => cases hrenamed }

end IsClone

end Body

namespace Clone

variable {ctx : GenericContext} {x : Body} {bs : List BlockId} {n : Nat} {s : Cloning} {b : BlockId} {i : InstId}
  {v : VarId}

lemma bijOn_blockImage (hbs : bs.Nodup) : Set.BijOn (blockImage bs) {b | b ∈ bs} {c | c.index < bs.length} := by
  refine ⟨fun b hb => idxOf_lt_length_of_mem hb, fun b hb c _ heq => blockImage_inj hb heq, fun c hc => ?_⟩
  exact ⟨bs[c.index], getElem_mem hc, by rw [blockImage, hbs.idxOf_getElem]⟩

lemma bijOn_instImage (hinsts : (bs.flatMap x.instsOf).Nodup) :
    Set.BijOn (instImage x bs) {i | i ∈ bs.flatMap x.instsOf} {j | j.index < (toCopy x bs).length} := by
  have hlength : (toCopy x bs).length = (bs.flatMap x.instsOf).length := by
    rw [← map_snd_toCopy, length_map]
  rw [hlength]
  refine ⟨fun i hi => idxOf_lt_length_of_mem hi, fun i hi j _ heq => instImage_inj hi heq, fun j hj => ?_⟩
  exact ⟨(bs.flatMap x.instsOf)[j.index], getElem_mem hj, by rw [instImage, hinsts.idxOf_getElem]⟩

lemma filter_toCopy (hbs : bs.Nodup) (hb : b ∈ bs) : (toCopy x bs).filter (·.1 = b) = (x.instsOf b).map (b, ·) := by
  induction bs with
  | nil => cases hb
  | cons a bs ih =>
    obtain ⟨hnot, hbs⟩ := nodup_cons.1 hbs
    rw [toCopy_cons, filter_append]
    rcases mem_cons.1 hb with rfl | hb
    · have hrest : (toCopy x bs).filter (·.1 = b) = [] := by
        refine filter_eq_nil_iff.2 fun p hp heq => hnot ?_
        exact of_decide_eq_true heq ▸ (mem_toCopy.1 hp).1
      rw [hrest, append_nil]
      exact filter_eq_self.2 (by simp)
    · have hne : a ≠ b := fun heq => hnot (heq ▸ hb)
      rw [ih hbs hb, filter_eq_nil_iff.2 (by simpa using fun _ _ => hne), nil_append]

namespace Copying

variable (h : Copying ctx x bs n (toCopy x bs) [] s)

include h

lemma operands_eq (hb : b ∈ bs) (hi : i ∈ x.instsOf b) : (s.target.inst (instImage x bs i)).operands =
      (x.inst i).operands.map (Value.renamed ctx (instImage x bs)) := by
  obtain ⟨-, -, hlength, hoperands⟩ := h.copy (b, i) (mem_toCopy.2 ⟨hb, hi⟩)
  refine ext_getElem? fun slot => ?_
  rw [getElem?_map]
  cases hv : (x.inst i).operands[slot]? with
  | none => simpa [hlength] using hv
  | some v => exact hoperands slot v hv not_mem_nil

lemma lookup_varImage (hb : b ∈ bs) (hi : i ∈ x.instsOf b) (hv : (x.kind i).var? = some v) :
    s.cloner.vars.lookup v = some (varImage s.cloner v) := by
  obtain ⟨w, hw⟩ := h.known (b, i) (mem_toCopy.2 ⟨hb, hi⟩) v hv
  simp [varImage, hw]

lemma list_eq (hx : Closed x bs n) (hb : b ∈ bs) :
    s.target.instsOf (blockImage bs b) = (x.instsOf b).map (instImage x bs) := by
  rw [h.list b hb, filter_toCopy hx.nodup hb, map_map]
  rfl

lemma targets_eq (hx : Closed x bs n) (hb : b ∈ bs) :
    s.target.targets (blockImage bs b) = (x.targets b).map (blockImage bs) := by
  rw [targets, targets, h.list_eq hx hb, flatMap_map, map_flatMap]
  refine flatMap_congr fun i hi => ?_
  rw [(h.copy (b, i) (mem_toCopy.2 ⟨hb, hi⟩)).kind, successors_renamed]

lemma isClone (hx : Closed x bs n) (hbs : ∀ b, b ∈ bs ↔ b ∈ x.order) (hfirst : bs.head? = x.entry)
    (hedges : x.Edges) (hnamed : ∀ a ∈ x.order, ∀ b, b ∈ x.succs a ↔ b ∈ x.targets a) :
    x.IsClone ctx s.target (blockImage bs) (instImage x bs) (varImage s.cloner) := by
  have hlayout : ∀ i, i ∈ bs.flatMap x.instsOf ↔ x.InLayout i := fun i => by
    simp only [mem_flatMap, hbs, Body.InLayout]
  have hcopy : ∀ i, x.InLayout i → IsCopy ctx x bs [] s i := fun i ⟨b, hb, hi⟩ =>
    h.copy (b, i) (mem_toCopy.2 ⟨(hbs b).2 hb, hi⟩)
  have hlookup : ∀ v, x.Accesses v → s.cloner.vars.lookup v = some (varImage s.cloner v) :=
    fun v ⟨i, ⟨b, hb, hi⟩, hv⟩ => h.lookup_varImage ((hbs b).2 hb) hi hv
  have hsuccs : ∀ a ∈ x.order, ∀ b ∈ x.order,
      blockImage bs b ∈ s.target.succs (blockImage bs a) ↔ b ∈ x.succs a := fun a ha b hb => by
    rw [h.intact.wired.named, h.targets_eq hx ((hbs a).2 ha), hnamed a ha b]
    refine ⟨fun hmem => ?_, mem_map_of_mem⟩
    obtain ⟨c, hc, heq⟩ := mem_map.1 hmem
    exact blockImage_inj ((hbs b).2 hb) heq.symm ▸ hc
  exact {
    blocks := by
      have hbij := bijOn_blockImage hx.nodup
      simpa only [hbs, h.intact.mem_order, Body.hasBlock, h.count, decide_eq_true_eq] using hbij
    insts := by
      have hbij := bijOn_instImage hx.nodup_insts
      simpa only [hlayout, hasInst, h.size, decide_eq_true_eq] using hbij
    vars := by
      refine ⟨fun v hv => (h.vars.decl v _ (hlookup v hv)).1, fun v hv v' hv' heq => ?_, fun w hw => ?_⟩
      · exact h.vars.inj v v' _ (hlookup v hv) (heq ▸ hlookup v' hv')
      · obtain ⟨v, hv⟩ := h.vars.onto w hw
        obtain ⟨-, -, b, hb, i, hi, haccess⟩ := h.vars.decl v w hv
        exact ⟨v, ⟨i, ⟨b, (hbs b).1 hb, hi⟩, haccess⟩, by simp [varImage, hv]⟩
    entry := by rw [h.entry, hfirst]
    list := fun b hb => h.list_eq hx ((hbs b).2 hb)
    kind := fun i hi => (hcopy i hi).kind
    ty := fun i hi => (hcopy i hi).ty
    operands := fun i ⟨b, hb, hi⟩ => h.operands_eq ((hbs b).2 hb) hi
    decl := fun v hv => (h.vars.decl v _ (hlookup v hv)).2.1
    succs := hsuccs
    preds := fun a ha b hb => by rw [← h.intact.wired.edges.symm, hsuccs a ha b hb, hedges.symm] }

end Copying

end Clone

end MethodIR
