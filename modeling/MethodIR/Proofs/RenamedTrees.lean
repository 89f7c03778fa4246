import MethodIR.Promotion.Basic
import MethodIR.Proofs.EnteredBlocks

/-!
# Renaming all blocks

The values that variables have at the start of a block are those at the end of the block right above it,
but for the variables with a placed phi (`Toured`).
-/

namespace MethodIR.Promotion

open List FlowGraph DepthFirst Success Traced Renaming Function Body

variable {x y y' : Body} {plan : RenamingPlan} {entry b c : BlockId} {r r' : Record} {φ : InstId} {v : VarId}
  {h h' : Pushes} {idom : BlockId → Option BlockId} {out : BlockId → Values} {seen others opened bs : List BlockId}
  {t t' : Trace Renaming} {ρ : Values} {ch : BlockId → List BlockId} {visits : List Visit} {capacity : Nat} {S : Prop}

/-! ## The start of a block -/

def placedPhi? (x : Body) (plan : RenamingPlan) (b : BlockId) (v : VarId) : Option InstId :=
  (x.phis b).find? fun φ => plan.phis.lookup φ = some v

lemma placedPhi?_eq_some_iff (hplan : Planned x plan) : placedPhi? x plan b v = some φ ↔
    plan.phis.lookup φ = some v ∧ (x.inst φ).block = some b := by
  have hhome : ∀ ψ ∈ x.phis b, (x.inst ψ).block = some b := fun ψ hψ =>
    (hplan.attached.mem_iff b ψ).1 (takeWhile_subset _ hψ)
  constructor
  · intro hfind
    exact ⟨by simpa using find?_some hfind, hhome φ (mem_of_find?_eq_some hfind)⟩
  · rintro ⟨hv, hblock⟩
    obtain ⟨c, hc, hmem⟩ := hplan.mem_phis hv
    obtain rfl : b = c := Option.some.inj (hblock.symm.trans hc)
    cases hfind : placedPhi? x plan b v with
    | none =>
      have hnot := find?_eq_none.1 hfind φ hmem
      simp [hv] at hnot
    | some ψ =>
      have hψ : plan.phis.lookup ψ = some v := by simpa using find?_some hfind
      have hblock' := hhome ψ (mem_of_find?_eq_some hfind)
      rw [hplan.unique ψ φ v hψ hv (hblock'.trans hblock.symm)]

def opening (x : Body) (plan : RenamingPlan) (ρ : Values) (b : BlockId) : Values := fun v =>
  ((placedPhi? x plan b v).map .inst).or (ρ v)

lemma current_headings_eq (hplan : Planned x plan) :
    current (headings plan b (x.phis b) ++ h) = opening x plan (current h) b := by
  funext v
  rcases current_headings plan b (x.phis b) h v with ⟨φ, hφ, hv, heq⟩ | ⟨hnone, heq⟩
  · have hblock := (hplan.attached.mem_iff b φ).1 (takeWhile_subset _ hφ)
    rw [heq, opening, (placedPhi?_eq_some_iff hplan).2 ⟨hv, hblock⟩]
    rfl
  · have hfind : placedPhi? x plan b v = none := by
      simpa [placedPhi?] using hnone
    rw [heq, opening, hfind]
    rfl

def inherited (idom : BlockId → Option BlockId) (out : BlockId → Values) (b : BlockId) : Values :=
  fun v => (idom b).bind fun d => out d v

lemma inherited_of_none (hb : idom b = none) : inherited idom out b = current [] := by
  funext v
  simp [inherited, hb]

lemma inherited_of_some (hb : idom b = some c) : inherited idom out b = out c := by
  funext v
  simp [inherited, hb]

lemma inherited_update (hc : ∀ d, idom c = some d → d ≠ b) :
    inherited idom (update out b ρ) c = inherited idom out c := by
  cases hd : idom c with
  | none => rw [inherited_of_none hd, inherited_of_none hd]
  | some d => rw [inherited_of_some hd, inherited_of_some hd, update_of_ne (hc d hd)]

/-! ## The blocks renamed so far -/

/-- The blocks of `seen` have been renamed from the values that are current at their start to those of
`out` at their end. Those of `others` have been renamed after them in some way. -/
structure Toured (x : Body) (plan : RenamingPlan) (entry : BlockId)
    (idom : BlockId → Option BlockId) (out : BlockId → Values) (seen others : List BlockId)
    (r : Record) (y : Body) : Prop where
  renames : Renames x plan r y
  upward : ∀ b ∈ seen, ∀ a, Dominates (Edge x.succs) entry a b → a ∈ seen
  rest : ∀ b, b ∉ seen → b ∉ others → r.rest b = x.nonPhis b
  left : ∀ b, b ∈ seen ∨ b ∈ others → (r.rest b).filter (x.hasInst ·) = remaining x plan (x.nonPhis b)
  renamed : ∀ b ∈ seen, Renamed x plan r y b (opening x plan (inherited idom out b) b) (x.nonPhis b)
    (r.rest b) (out b)
  firm : ∀ b ∈ seen, ∀ v, Firm x plan y (held x (out b) v)
  args : ∀ φ v c, plan.phis.lookup φ = some v → (x.inst φ).block = some c → ∃ more,
    r.args φ = (seen.filter (c ∈ x.succs ·)).map (fun p => (p, held x (out p) v)) ++ more ∧
      more.map Prod.fst = others.filter (c ∈ x.succs ·)

lemma Toured.initial (hplan : Headed x plan) : Toured x plan entry idom out [] [] (.initial x) x where
  renames := .initial hplan
  upward := by simp
  rest _ _ _ := rfl
  left := by simp
  renamed := by simp
  firm := by simp
  args _ _ _ _ _ := ⟨[], rfl, rfl⟩

section

variable (T : Toured x plan entry idom out seen others r y) (hplan : Headed x plan) {i : InstId}
include T hplan

lemma Toured.gone (hb : b ∈ seen ∨ b ∈ others) (hi : i ∈ x.nonPhis b) (hacc : plan.accesses.concerns (x.kind i)) :
    r.gone i := by
  have hx := hplan.hasInst_of_nonPhis hi
  by_contra hgone
  have hbare := T.renames.kept i hx hgone (hplan.lookup_eq_none (plan.accesses.isPhi_of_concerns hacc))
  have hmem : i ∈ y.instsOf b := by
    rw [T.renames.attached.mem_iff, block_of_bare hbare]
    exact (hplan.attached.mem_iff b i).1 (mem_of_mem_nonPhis hi)
  rw [T.renames.list] at hmem
  have hleft : i ∈ (r.rest b).filter (x.hasInst ·) := by
    refine mem_filter.2 ⟨(mem_append.1 hmem).resolve_left fun hphi => ?_, by simpa using hx⟩
    have hisPhi := isPhi_of_mem_phis hphi
    simp [plan.accesses.isPhi_of_concerns hacc] at hisPhi
  rw [T.left b hb] at hleft
  simp [remaining, hacc] at hleft

/-- What renaming has taken out was in one of the blocks it has been to. -/
lemma Toured.home (hgone : r.gone i) : ∃ b, (x.inst i).block = some b ∧ (b ∈ seen ∨ b ∈ others) := by
  obtain ⟨hacc, ⟨b, hb⟩, -⟩ := T.renames.lost i hgone
  refine ⟨b, hb, ?_⟩
  by_contra hnot
  rw [not_or] at hnot
  have hmem := (hplan.attached.mem_iff b i).2 hb
  rw [← phis_append_nonPhis, ← T.rest b hnot.1 hnot.2, ← T.renames.list] at hmem
  exact T.renames.not_gone hmem hgone

end

lemma handed_of_some (hφ : plan.phis.lookup φ = some v) : handed x plan b ρ φ = [(b, held x ρ v)] := by
  rw [handed, hφ]
  rfl

/-- The operands of the accesses of a block that are accesses themselves are loads that come before
them, in the block or in one that dominates it. -/
def Ordered (x : Body) (plan : RenamingPlan) (entry b : BlockId) : Prop :=
  ∀ pre i post, x.nonPhis b = pre ++ i :: post → Ready x plan (fun d => d ∈ pre ∨
    ∃ home, d ∈ x.nonPhis home ∧ StrictlyDominates (Edge x.succs) entry home b) i

lemma Toured.args_eq (T : Toured x plan entry idom out seen [] r y) (hφ : plan.phis.lookup φ = some v)
    (hblock : (x.inst φ).block = some c) :
    r.args φ = (seen.filter (c ∈ x.succs ·)).map fun p => (p, held x (out p) v) := by
  obtain ⟨more, hargs, hmore⟩ := T.args φ v c hφ hblock
  obtain rfl : more = [] := by simpa using hmore
  rwa [append_nil] at hargs

section Enter

variable (T : Toured x plan entry idom out seen [] r y) (hplan : Planned x plan)
  (hidom : ∀ a b, idom b = some a → IsIdom (Edge x.succs) entry a b) (hb : b ∉ seen)
  (hup : ∀ a, StrictlyDominates (Edge x.succs) entry a b → a ∈ seen)

include T hplan hup in
lemma Toured.ready (ho : Ordered x plan entry b) {pre post : List InstId}
    (hsplit : x.nonPhis b = pre ++ i :: post) : Ready x plan (fun d => r.gone d ∨ d ∈ pre) i := by
  intro hacc u hu d hd hdacc
  obtain ⟨hload, hmem⟩ := ho pre i post hsplit hacc u hu d hd hdacc
  refine ⟨hload, ?_⟩
  rcases hmem with hmem | ⟨home, hmem, hdom⟩
  · exact .inr hmem
  · exact .inl (T.gone hplan.toHeaded (.inl (hup home hdom)) hmem hdacc)

include T hplan hidom hb hup

lemma Toured.enter (hready : ∀ pre i post, x.nonPhis b = pre ++ i :: post →
      Ready x plan (fun d => r.gone d ∨ d ∈ pre) i) (hclean : Clean x plan r y h)
    (hcur : current h = inherited idom out b) (he : Entered x plan b r y h r' y' h') :
    Toured x plan entry idom (update out b (current h')) (seen ++ [b]) [] r' y' ∧
      Clean x plan r' y' h' := by
  have hrest := T.rest b hb (by simp)
  obtain ⟨-, -, hleft, -⟩ := he.advance T.renames hplan.toHeaded
  obtain ⟨τ, hadv, hclean', hR, hargs⟩ := he.renamed T.renames hplan.toHeaded hclean (hrest ▸ hready)
  rw [hrest] at hleft hR
  rw [current_headings_eq hplan, hcur] at hR
  have hne : ∀ c ∈ seen, c ≠ b := fun c hc heq => hb (heq ▸ hc)
  have habove : ∀ c ∈ seen ++ [b], ∀ d, idom c = some d → d ≠ b := by
    intro c hc d hd
    have hdom := (hidom d c hd).1
    rcases mem_append.1 hc with hc | hc
    · exact hne d (T.upward c hc d hdom.2)
    · rw [mem_singleton.1 hc] at hdom
      exact hdom.1
  refine ⟨⟨hadv.renames, fun c hc a ha => ?_, fun c hc _ => ?_, fun c hc => ?_,
    fun c hc => ?_, fun c hc v => ?_, fun φ v c hφ hblock => ?_⟩, hclean'⟩
  · rcases mem_append.1 hc with hc | hc
    · exact mem_append_left _ (T.upward c hc a ha)
    · rw [mem_singleton.1 hc] at ha
      by_cases hab : a = b
      · simp [hab]
      · exact mem_append_left _ (hup a ⟨hab, ha⟩)
  · rw [mem_append, mem_singleton, not_or] at hc
    rw [hadv.rest c hc.2]
    exact T.rest c hc.1 (by simp)
  · rcases mem_append.1 (hc.resolve_right (by simp)) with hc | hc
    · rw [hadv.rest c (hne c hc)]
      exact T.left c (.inl hc)
    · rw [mem_singleton.1 hc]
      exact hleft
  · rw [inherited_update (habove c hc)]
    rcases mem_append.1 hc with hc | hc
    · rw [update_of_ne (hne c hc), hadv.rest c (hne c hc)]
      exact (T.renamed c hc).later hadv.later T.renames hadv.renames
    · rw [mem_singleton.1 hc, update_self]
      exact hR
  · rcases mem_append.1 hc with hc | hc
    · rw [update_of_ne (hne c hc)]
      exact (T.firm c hc v).mono T.renames hadv.renames hadv.later.size
    · rw [mem_singleton.1 hc, update_self]
      exact hclean'.held v
  · refine ⟨[], ?_, rfl⟩
    have hold : (r.args φ).map (fun a => (a.1, τ a.2)) = (seen.filter (c ∈ x.succs ·)).map
        fun p => (p, held x (update out b (current h') p) v) := by
      rw [T.args_eq hφ hblock, map_map]
      refine map_congr_left fun p hp => ?_
      have hp := (mem_filter.1 hp).1
      have hfix := hadv.later.settled _ (T.firm p hp v).settled
      simp [update_of_ne (hne p hp), hfix]
    rw [hargs, hold, filter_append, map_append, append_nil]
    congr 1
    have hmem : φ ∈ heirs x plan b ↔ c ∈ x.succs b := mem_heirs hplan.toHeaded hφ hblock
    by_cases hc : c ∈ x.succs b
    · rw [if_pos (hmem.2 hc), handed_of_some hφ]
      simp [hc]
    · rw [if_neg fun hin => hc (hmem.1 hin)]
      simp [hc]

end Enter

lemma Toured.pass (T : Toured x plan entry idom out seen others r y) (hplan : Headed x plan)
    (hb : b ∉ seen) (he : Entered x plan b r y h r' y' h') :
    Toured x plan entry idom out seen (others ++ [b]) r' y' := by
  obtain ⟨τ, hadv, hleft, hargs⟩ := he.advance T.renames hplan
  have hne : ∀ c ∈ seen, c ≠ b := fun c hc heq => hb (heq ▸ hc)
  refine ⟨hadv.renames, T.upward, fun c hc hc' => ?_, fun c hc => ?_, fun c hc => ?_,
    fun c hc v => (T.firm c hc v).mono T.renames hadv.renames hadv.later.size,
    fun φ v c hφ hblock => ?_⟩
  · rw [mem_append, mem_singleton, not_or] at hc'
    rw [hadv.rest c hc'.2]
    exact T.rest c hc hc'.1
  · by_cases hcb : c = b
    · rw [hcb, hleft]
      by_cases hb' : b ∈ others
      · exact remaining_idem (T.left b (.inr hb'))
      · rw [T.rest b hb hb']
    · rw [hadv.rest c hcb]
      exact T.left c (hc.imp_right fun hc => (mem_append.1 hc).resolve_right (by simpa using hcb))
  · rw [hadv.rest c (hne c hc)]
    exact (T.renamed c hc).later hadv.later T.renames hadv.renames
  · obtain ⟨more, hsplit, hmore⟩ := T.args φ v c hφ hblock
    refine ⟨more.map (fun a => (a.1, τ a.2)) ++
      if c ∈ x.succs b then [(b, held x (current h') v)] else [], ?_, ?_⟩
    · have hold : ((seen.filter (c ∈ x.succs ·)).map fun p => (p, held x (out p) v)).map
          (fun a => (a.1, τ a.2)) = (seen.filter (c ∈ x.succs ·)).map
            fun p => (p, held x (out p) v) := by
        rw [map_map]
        refine map_congr_left fun p hp => ?_
        have hfix := hadv.later.settled _ (T.firm p (mem_filter.1 hp).1 v).settled
        simp [hfix]
      rw [hargs, hsplit, map_append, hold, handed_of_some hφ, append_assoc]
      simp only [mem_heirs hplan hφ hblock]
    · rw [map_append, map_map, filter_append, ← hmore]
      by_cases hc : c ∈ x.succs b <;> simp [hc, comp_def]

/-! ## Along the walk -/

/-- The innermost open block, if there is one, is right above `b`. -/
structure Below (x : Body) (entry : BlockId) (opened : List BlockId) (b : BlockId) : Prop where
  idom : ∀ a, IsIdom (Edge x.succs) entry a b ↔ opened.head? = some a
  strict : ∀ a, StrictlyDominates (Edge x.succs) entry a b ↔
    ∃ p, opened.head? = some p ∧ (a = p ∨ StrictlyDominates (Edge x.succs) entry a p)

lemma below_of_not (h : ∀ a, ¬StrictlyDominates (Edge x.succs) entry a b) : Below x entry [] b :=
  ⟨fun a => by simpa using fun hidom : IsIdom _ _ _ _ => h a hidom.1, fun a => by simpa using h a⟩

lemma below_of_isIdom (h : IsIdom (Edge x.succs) entry c b) : Below x entry (c :: opened) b := by
  refine ⟨fun a => ?_, fun a => ?_⟩
  · rw [head?_cons, Option.some.injEq]
    exact ⟨h.unique, fun heq => heq ▸ h⟩
  · rw [h.dominates_iff]
    simp only [head?_cons, Option.some.injEq, exists_eq_left']
    constructor
    · exact fun ha => or_iff_not_imp_left.2 fun hne => ⟨hne, ha⟩
    · rintro (rfl | ha)
      · exact .refl h.1.2.reachable_left
      · exact ha.2

/-- What holds along a walk over the tree, if it does when a block is entered below the innermost open one and
when a block is left. -/
lemma follow_ends
    {P : List BlockId → List BlockId → Trace Renaming → Prop} (run : Run ch capacity entry opened seen visits)
    (hch : ∀ p c, c ∈ ch p → IsIdom (Edge x.succs) entry p c) (h : P opened seen t)
    (henter : ∀ b ∈ entered visits, ∀ opened seen t, P opened seen t → b ∉ seen → Below x entry opened b →
      Ends S (enter plan true b) t (P (b :: opened) (seen ++ [b])))
    (hexit : ∀ b opened seen t, P (b :: opened) seen t → P opened seen ⟨leave b t.state, t.log⟩) :
    Ends S (visits.forM (follow plan)) t (P [] (seen ++ entered visits)) := by
  induction run generalizing t with
  | done => exact .of_ok rfl (by simpa using h)
  | start _ _ ih =>
    have hfirst := henter entry (by simp) [] [] t h (by simp) (below_of_not fun _ => not_strictlyDominates_root)
    refine hfirst.bind fun t₁ h₁ => ?_
    simpa using ih h₁ fun c hc => henter c (by simp [hc])
  | @enter p b opened seen _ next _ ih =>
    obtain ⟨edge, -, fresh⟩ := Run.fresh next
    have hfirst := henter b (by simp) (p :: opened) seen t h fresh (below_of_isIdom (hch p b edge))
    refine hfirst.bind fun t₁ h₁ => ?_
    simpa using ih h₁ fun c hc => henter c (by simp [hc])
  | exit _ _ ih => exact ih (hexit _ _ _ t h) henter

inductive Stacked (out : BlockId → Values) : List BlockId → Pushes → Prop
  | nil : Stacked out [] []
  | cons {b : BlockId} {opened : List BlockId} {top h : Pushes} (own : ∀ d ∈ top, d.1 = b)
      (other : ∀ d ∈ h, d.1 ≠ b) (now : current (top ++ h) = out b) (rest : Stacked out opened h) :
      Stacked out (b :: opened) (top ++ h)

lemma Stacked.owner (hs : Stacked out opened h) : ∀ d ∈ h, d.1 ∈ opened := by
  induction hs with
  | nil => simp
  | cons own _ _ _ ih =>
    intro d hd
    rcases mem_append.1 hd with hd | hd
    · simp [own d hd]
    · exact mem_cons_of_mem _ (ih d hd)

lemma Stacked.update (hs : Stacked out opened h) (hb : b ∉ opened) : Stacked (update out b ρ) opened h := by
  induction hs with
  | nil => exact .nil
  | @cons c _ _ _ own other now _ ih =>
    rw [mem_cons, not_or] at hb
    refine .cons own other ?_ (ih hb.2)
    rw [update_of_ne (Ne.symm hb.1), now]

lemma Clean.subset (hc : Clean x plan r y h) (hsub : ∀ d ∈ h', d ∈ h) : Clean x plan r y h' :=
  ⟨hc.fresh, hc.loads, fun d hd => hc.pushes d (hsub d hd), hc.args, hc.insts⟩

structure Tour (x : Body) (plan : RenamingPlan) (entry : BlockId) (idom : BlockId → Option BlockId)
    (opened seen : List BlockId) (s : Renaming) : Prop where
  subset : ∀ b ∈ opened, b ∈ seen
  state : ∃ out r h, Toured x plan entry idom out seen [] r s.body ∧ Stacked out opened h ∧
    Clean x plan r s.body h ∧ Mirrors plan h s

lemma Tour.initial (hplan : Planned x plan) {s : Renaming} (hbody : s.body = x)
    (hm : Mirrors plan [] s) : Tour x plan entry idom [] [] s := by
  subst hbody
  refine ⟨by simp, fun _ _ => none, _, [], .initial hplan.toHeaded, .nil, ?_, hm⟩
  refine ⟨fun _ _ => rfl, fun _ _ _ hg => hg.elim, by simp, fun φ a ha => ?_, fun j hj u hu => ?_⟩
  · simp [Record.initial] at ha
  · rw [operands_of_not_hasInst (by simpa [hasInst] using hj)] at hu
    simp at hu

section Tour

variable (H : Tour x plan entry idom opened seen t.state) (hbelow : Below x entry opened b)

include H hbelow

lemma Tour.seen_of_strict : ∀ a, StrictlyDominates (Edge x.succs) entry a b → a ∈ seen := by
  intro a ha
  obtain ⟨out, r, h, T, -⟩ := H.state
  obtain ⟨p, hp, heq | ha⟩ := (hbelow.strict a).1 ha
  · exact H.subset a (heq ▸ mem_of_mem_head? hp)
  · exact T.upward p (H.subset p (mem_of_mem_head? hp)) a ha.2

lemma Tour.enter (hplan : Planned x plan)
    (hidom : ∀ a b, idom b = some a ↔ IsIdom (Edge x.succs) entry a b) (hb : b ∉ seen)
    (ho : Ordered x plan entry b) {reachable : Bool}
    (hrun : enter plan reachable b t = .ok () t') :
    Tour x plan entry idom (b :: opened) (seen ++ [b]) t'.state := by
  have hup := H.seen_of_strict hbelow
  obtain ⟨out, r, h, T, S, hclean, m⟩ := H.state
  have hopen : b ∉ opened := fun hmem => hb (H.subset b hmem)
  have habove : idom b = opened.head? := Option.ext fun a => (hidom a b).trans (hbelow.idom a)
  have hcur : current h = inherited idom out b := by
    cases S with
    | nil => rw [inherited_of_none habove]
    | cons _ _ now _ => rw [inherited_of_some habove, now]
  obtain ⟨r', h', he, m'⟩ := enter_sound hplan.toHeaded T.renames m hrun
  obtain ⟨T', hclean'⟩ := T.enter hplan (fun a b => (hidom a b).1) hb hup
    (fun _ _ _ => T.ready hplan hup ho) hclean hcur he
  obtain ⟨top, rfl, hown⟩ := he.pushes
  refine ⟨fun c hc => ?_, _, r', _, T', .cons hown (fun d hd heq => ?_) ?_ (S.update hopen), hclean', m'⟩
  · rcases mem_cons.1 hc with rfl | hc
    · simp
    · exact mem_append_left _ (H.subset c hc)
  · exact hopen (heq ▸ S.owner d hd)
  · rw [update_self]

end Tour

lemma Tour.exit (H : Tour x plan entry idom (b :: opened) seen t.state) :
    Tour x plan entry idom opened seen (leave b t.state) := by
  obtain ⟨out, r, _, T, S, hclean, m⟩ := H.state
  cases S with
  | cons own other _ rest =>
    refine ⟨fun c hc => H.subset c (by simp [hc]), out, r, _, T, rest, ?_, m.leave own other⟩
    exact hclean.subset fun d hd => mem_append_right _ hd

lemma Tour.follow (run : Run ch capacity entry opened seen visits) (hplan : Planned x plan)
    (hidom : ∀ a b, idom b = some a ↔ IsIdom (Edge x.succs) entry a b)
    (hch : ∀ p c, c ∈ ch p → IsIdom (Edge x.succs) entry p c)
    (ho : ∀ b ∈ entered visits, Ordered x plan entry b) (H : Tour x plan entry idom opened seen t.state)
    (hrun : visits.forM (follow plan) t = .ok () t') :
    Tour x plan entry idom [] (seen ++ entered visits) t'.state :=
  (follow_ends (P := fun opened seen t => Tour x plan entry idom opened seen t.state) run hch H
    (fun b hb _ _ _ H hseen hbelow => ⟨False.elim, fun _ hrun =>
      H.enter hbelow hplan hidom hseen (ho b hb) hrun⟩) fun _ _ _ _ H => H.exit).2 t' hrun

lemma unreached_ends {P : List BlockId → Trace Renaming → Prop} (hnodup : bs.Nodup)
    (h : P [] t) (hstep : ∀ b ∈ bs, ∀ done t, P done t → b ∉ done →
      Ends S (enter plan false b) t fun t' => P (done ++ [b]) ⟨leave b t'.state, t'.log⟩) :
    Ends S (bs.forM (Renaming.unreached plan)) t (P bs) := by
  refine .forM h fun pre b post t hsplit hpre => ?_
  have hnot : b ∉ pre := fun hmem =>
    (nodup_cons.1 (nodup_middle.1 (hsplit ▸ hnodup))).1 (mem_append_left _ hmem)
  exact (hstep b (by simp [hsplit]) pre t hpre hnot).bind fun t' h' => .of_ok rfl h'

/-! ## Whatever the tree is -/

section Induction

variable {P : List BlockId → Record → Body → Pushes → Prop} {bs done : List BlockId} {visits : List Visit}
  (hplan : Headed x plan) (hleave : ∀ b done r y h, P done r y h → P done r y (h.dropWhile fun d => d.1 = b))

include hplan hleave

lemma unreached_induction (henter : ∀ b ∈ bs, ∀ done r y h r' y' h', Renames x plan r y → P done r y h →
      Entered x plan b r y h r' y' h' → P (done ++ [b]) r' y' h') (hr : Renames x plan r t.state.body)
    (m : Mirrors plan h t.state) (hstart : P done r t.state.body h)
    (hrun : bs.forM (Renaming.unreached plan) t = .ok () t') :
    ∃ r' h', P (done ++ bs) r' t'.state.body h' := by
  induction bs generalizing t r h done with
  | nil =>
    obtain ⟨-, rfl⟩ := pure_iff.1 hrun
    exact ⟨r, h, by simpa using hstart⟩
  | cons b bs ih =>
    obtain ⟨⟨⟩, t₁, hfirst, hrest⟩ := bind_iff.1 hrun
    obtain ⟨⟨⟩, t₂, hin, hout⟩ := bind_iff.1 hfirst
    obtain ⟨r₁, h₁, he, m₁⟩ := enter_sound hplan hr m hin
    obtain ⟨τ, hadv, -⟩ := he.advance hr hplan
    obtain rfl := modifyState_iff.1 hout
    simpa using ih (t := ⟨leave b t₂.state, _⟩) (fun c hc => henter c (by simp [hc])) hadv.renames
      (m₁.leave_dropWhile b) (hleave b _ _ _ _ (henter b (by simp) done r _ h _ _ _ hr hstart he)) hrest

variable (henter : ∀ b done r y h r' y' h', Renames x plan r y → P done r y h →
  Entered x plan b r y h r' y' h' → P (done ++ [b]) r' y' h')
include henter

lemma follow_induction (hr : Renames x plan r t.state.body)
    (m : Mirrors plan h t.state) (hstart : P done r t.state.body h)
    (hrun : visits.forM (follow plan) t = .ok () t') : ∃ r' h', Renames x plan r' t'.state.body ∧
      Mirrors plan h' t'.state ∧ P (done ++ entered visits) r' t'.state.body h' := by
  induction visits generalizing t r h done with
  | nil =>
    obtain ⟨-, rfl⟩ := pure_iff.1 hrun
    exact ⟨r, h, hr, m, by simpa using hstart⟩
  | cons visit visits ih =>
    obtain ⟨⟨⟩, t₁, hfirst, hrest⟩ := bind_iff.1 hrun
    cases visit with
    | enter b =>
      obtain ⟨r₁, h₁, he, m₁⟩ := enter_sound hplan hr m hfirst
      obtain ⟨τ, hadv, -⟩ := he.advance hr hplan
      simpa using ih hadv.renames m₁ (henter b done r _ h _ _ _ hr hstart he) hrest
    | exit b =>
      obtain rfl := modifyState_iff.1 hfirst
      exact ih (t := ⟨leave b t.state, _⟩) hr (m.leave_dropWhile b) (hleave b _ _ _ _ hstart) hrest

/-- Renaming goes through the blocks of the tree and through those it does not reach. -/
lemma rename_induction {tree : DominatorTree} (hstart : P [] (.initial x) x []) (hbody : t.state.body = x)
    (m : Mirrors plan [] t.state) (hrun : rename tree plan t = .ok () t') :
    ∃ r h, P (tree.preorder ++ x.order.filter fun b => !tree.isReachable b) r t'.state.body h := by
  subst hbody
  obtain ⟨⟨⟩, t₁, hwalk, hrun⟩ := bind_iff.1 hrun
  obtain ⟨r₁, h₁, hr₁, m₁, hwalked⟩ := follow_induction hplan hleave henter (.initial hplan) m hstart hwalk
  replace hrun := getState_bind_iff.1 hrun
  rw [hr₁.graph.order] at hrun
  exact unreached_induction hplan hleave (fun b _ => henter b) hr₁ m₁ hwalked hrun

end Induction

end MethodIR.Promotion
