import MethodIR.Compile
import MethodIR.Proofs.ControlFlow
import MethodIR.Proofs.HandlerPaths
import MethodIR.Proofs.PromotionValidity

/-!
# Compiled methods

An imported body keeps the rules of bodies if no two handlers or filters start at one offset and none
where the code does (`Import.Ground.sound`). Then it can be compiled (`Bytecode.compile_ok_iff`).
-/

namespace MethodIR

open List FlowGraph DepthFirst Bytecode

namespace Lists

variable {α β : Type} {l : List α} {f : α → List β} {a : α} {b : β} {pre post : List β}

lemma countP_mem_eq_one [DecidableEq β] (h : (l.flatMap f).Nodup) (ha : a ∈ l) (hb : b ∈ f a) :
    l.countP (fun x => decide (b ∈ f x)) = 1 := by
  induction l with
  | nil => simp at ha
  | cons x l ih =>
    rw [flatMap_cons, nodup_append'] at h
    obtain ⟨-, hnodup, hdisjoint⟩ := h
    by_cases hx : b ∈ f x
    · have hrest : ∀ y ∈ l, ¬b ∈ f y := fun y hy hby =>
        hdisjoint hx (mem_flatMap.2 ⟨y, hy, hby⟩)
      rw [countP_cons_of_pos (by simpa using hx), countP_eq_zero.2 (by simpa using hrest)]
    · have hal : a ∈ l := (mem_cons.1 ha).resolve_left fun hax => hx (hax ▸ hb)
      rw [countP_cons_of_neg (by simpa using hx)]
      exact ih hnodup hal

lemma mem_of_pair_sublist {c : β} (h : [c, b].Sublist (pre ++ b :: post))
    (hnodup : (pre ++ b :: post).Nodup) : c ∈ pre := by
  induction pre with
  | nil =>
    have hpost : b ∉ post := (nodup_cons.1 hnodup).1
    cases h with
    | cons _ hsub => exact absurd (hsub.subset (by simp)) hpost
    | cons_cons _ hsub => exact absurd (hsub.subset (by simp)) hpost
  | cons x pre ih =>
    cases h with
    | cons _ hsub => exact mem_cons_of_mem _ (ih hsub (nodup_cons.1 hnodup).2)
    | cons_cons => exact mem_cons_self

end Lists

namespace Bytecode

/-- No two handlers or filters start at one offset, and none starts where the code does. -/
structure SeparateHandlers (m : Bytecode) : Prop where
  nodup : (m.regions.flatMap Region.handlerStarts).Nodup
  nonzero : 0 ∉ m.regions.flatMap Region.handlerStarts

end Bytecode

namespace Import

open Body

variable {c : Outline} {s : State} {i d : InstId} {b : BlockId} {pre post : List InstId}

section Ground

variable (h : Ground c s.segments.size s)

include h

lemma Ground.source (hsplit : s.body.instsOf b = pre ++ i :: post)
    (hd : .inst d ∈ (s.body.inst i).operands) : d ∈ pre ∨ s.Seeds b d := by
  refine (h.sourced.sources b i (by simp [hsplit]) d hd).imp_left fun hsub => ?_
  rw [hsplit] at hsub
  exact Lists.mem_of_pair_sublist hsub (hsplit ▸ h.intact.wired.attached.nodup b)

variable (hleaders : Leaders c.m c.leaders) (hm : c.m.SeparateHandlers)

include hleaders hm

lemma Ground.seed_before (hb : Reachable (Edge s.body.succs) ⟨0⟩ b) (hseeds : s.Seeds b d) :
    ∃ home, (s.body.inst d).block = some home ∧ home ≠ b ∧ s.body.OnEveryPath ⟨0⟩ home b := by
  obtain ⟨n, hn, rfl, hvalue⟩ := hseeds
  obtain ⟨r, hmem, hstart, -⟩ := h.guard_of_seed hvalue
  have hr : r ∈ c.m.regions := by
    rw [← mem_reverse, ← h.regions]
    exact mem_map.2 ⟨_, hmem, rfl⟩
  have hown := (h.parted.block n hn).2
  have hzero : n ≠ 0 := by
    rintro rfl
    rw [h.parted.start_zero hleaders hn] at hstart
    exact hm.nonzero (mem_flatMap.2 ⟨r, hr, hstart⟩)
  obtain ⟨home, hhome, hpaths⟩ := h.host_before hn hvalue hzero hown (Lists.countP_mem_eq_one hm.nodup hr hstart)
  refine ⟨home, hhome, ?_, fun path hpath => (hpaths path hpath).1⟩
  rintro rfl
  obtain ⟨path, hpath⟩ := hb
  exact (hpaths path hpath).2 hown

lemma Ground.sound : s.body.Sound ⟨0⟩ where
  entry_eq := h.parted.entry
  entry_live := ⟨h.intact.laid.entry ⟨0⟩ h.parted.entry, h.intact.blocks _⟩
  entry_preds := h.entry_preds
  phisFirst b _ := ⟨[], s.body.instsOf b, rfl, by simp, fun i _ => by simp [h.sourced.phis i]⟩
  terminatorLast b _ i hi := by simp [h.ending.last b i hi]
  terminated b hb := by
    have horder := h.intact.tidy.arranged.mem_order
      ⟨h.intact.laid.entry ⟨0⟩ h.parted.entry, h.intact.blocks _⟩ (fun _ _ t _ => h.intact.blocks t) hb
    obtain ⟨inner, term, hlist, hterm, -⟩ := h.terminated (h.intact.mem_order.1 horder)
    exact ⟨term, by simp [hlist], hterm⟩
  targets b _ t := by
    rw [h.intact.mem_succs]
    refine exists_congr fun i => ?_
    rw [h.intact.wired.attached.mem_iff]
    exact and_congr_right fun _ => ⟨fun ht => ⟨Kind.isTerminator_or_isGuard ht, ht⟩, And.right⟩
  succs_live b _ t _ := h.intact.blocks t
  phis b _ i _ blocks hk := by
    have hphi := h.sourced.phis i
    simp [hk, Kind.isPhi] at hphi
  operands b hb pre i post hsplit slot d hd := by
    have hdefined : ∀ home, (s.body.inst d).block = some home →
        (home = b ∧ d ∈ pre ∨ home ≠ b ∧ s.body.OnEveryPath ⟨0⟩ home b) →
        s.body.Defined ⟨0⟩ b pre i slot d := by
      intro home hhome hbefore
      have hphi := h.sourced.phis i
      refine ⟨home, hhome, ?_⟩
      cases hk : s.body.kind i with
      | phi blocks => simp [hk, Kind.isPhi] at hphi
      | _ => exact hbefore
    rcases h.source hsplit (mem_of_getElem? hd) with hpre | hseeds
    · have hmem : d ∈ s.body.instsOf b := by simp [hsplit, hpre]
      exact hdefined b ((h.intact.wired.attached.mem_iff b d).1 hmem) (.inl ⟨rfl, hpre⟩)
    · obtain ⟨home, hhome, hbefore⟩ := h.seed_before hleaders hm hb hseeds
      exact hdefined home hhome (.inr hbefore)

omit hleaders hm in
lemma Ground.admissible : Promotion.Admissible s.body ⟨0⟩ where
  vars k hk v hv := by
    obtain ⟨b, -, i, -, rfl⟩ := Promotion.mem_laidOutKinds.1 hk
    exact h.sourced.vars i v hv
  unused i d hd v := h.sourced.results i d v hd
  filled b _ i hi v hk hnil := by
    have hfull := h.intact.filled i (h.intact.wired.attached.hasInst hi) (h.intact.insts i)
    rw [← kind, hk, hnil] at hfull
    simp [Edit.arityViolation?, Kind.arity?] at hfull
  within b _ _ pre i post d hsplit hd := by
    rcases h.source hsplit hd with hpre | ⟨n, -, -, hvalue⟩
    · exact ⟨b, by simp [hsplit, hpre], fun _ => .inr hpre⟩
    · obtain ⟨r, -, -, hguard, home, hhome⟩ := h.guard_of_seed hvalue
      refine ⟨home, (h.intact.wired.attached.mem_iff home d).2 hhome, ?_⟩
      rintro ⟨v, hk⟩
      simp [hk, Kind.isGuard] at hguard

end Ground

end Import

open Success Traced

variable {σ : Type} {m : Bytecode} {body : Body}

lemma Body.exists_promoted {entry : BlockId} (hbody : body.Intact) (hs : body.Sound entry)
    (h : Promotion.Admissible body entry) (options : Promotion.Options) (t : Trace σ) :
    ∃ body' t', body.promoted options t = .ok body' t' ∧ body'.verify = .ok () := by
  have htidy := hbody.tidy
  have hpreds : ∀ b ∈ body.order, ∀ p ∈ body.preds b, p ∈ body.order := fun b _ p hp =>
    hbody.mem_order.2 (hbody.wired.edges.hasBlock ((hbody.wired.edges.symm p b).2 hp)).1
  obtain ⟨changes, t₁, hrun, hv⟩ := Promotion.exists_verified htidy.arranged (htidy.verified_of_sound hs)
    htidy.loose hpreds h options (t := ⟨{ body }, t.log⟩) rfl Analyses.fresh_empty
  have hkept : ∀ u : Transform, (u.invalidate changes).body = u.body := fun u => by
    rw [Transform.invalidate]
    split <;> rfl
  refine ⟨(t₁.state.invalidate changes).body,
    ⟨t.state, t₁.log.push (.passFinished Promotion.passName changes.text)⟩, ?_, ?_⟩
  · rw [promoted, Traced.on, zoom, bind_of_ok hrun]
    rfl
  · rw [hkept]
    exact verify_eq_ok.2 ⟨entry, hv⟩

lemma Bytecode.toBody_iff {t t' : Trace σ} : m.toBody t = .ok body t' ↔
    ∃ r : Trace Import.State, Import.importMethod m ⟨.ofMethod m, t.log⟩ = .ok () r ∧
      body = r.state.body ∧ t' = ⟨t.state, r.log⟩ := by
  rw [toBody, Traced.on, zoom_iff]
  simp only [bind_iff, ↓getState_bind_iff, pure_iff]
  constructor
  · rintro ⟨_, ⟨_, r, himport, rfl, rfl⟩, rfl⟩
    exact ⟨r, himport, rfl, rfl⟩
  · rintro ⟨r, himport, rfl, rfl⟩
    exact ⟨r, ⟨_, _, himport, rfl, rfl⟩, rfl⟩

/-- A variable that is set on one of two ways to a region with a filter. -/
def filteredJoin : Bytecode where
  name := "FilteredJoin"
  declaring := .object
  sig := { params := [.i32], ret := .i32 }
  locals := [{ ty := .i32 }]
  code := #[⟨.ldarg0, 0, .none⟩, ⟨.brfalseS, 1, .target 5⟩, ⟨.ldcI41, 3, .none⟩, ⟨.stloc0, 4, .none⟩,
    ⟨.ldloc0, 5, .none⟩, ⟨.pop, 6, .none⟩, ⟨.leaveS, 7, .target 16⟩, ⟨.pop, 9, .none⟩, ⟨.ldcI41, 10, .none⟩,
    ⟨.endfilter, 11, .none⟩, ⟨.pop, 13, .none⟩, ⟨.leaveS, 14, .target 16⟩, ⟨.ldloc0, 16, .none⟩,
    ⟨.ret, 17, .none⟩]
  regions := [{ kind := .filtered, tryStart := 5, tryEnd := 9, handlerStart := 13, handlerEnd := 16,
                filterStart := some 9 }]

end MethodIR
