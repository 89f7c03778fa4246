import MethodIR.Proofs.Paths

/-!
# Semidominators

The semidominator of `w` is the least number from which a chain leads to `w` whose inner numbers all
exceed `w`. The immediate dominator of `w` is its semidominator or that of a smaller number.
-/

namespace MethodIR.FlowGraph

open Relation

inductive Anc (parent : Nat → Nat) : Nat → Nat → Prop
  | refl (v : Nat) : Anc parent v v
  | up {u v : Nat} (pos : 0 < v) (h : Anc parent u (parent v)) : Anc parent u v

structure Numbered (n : Nat) (E : Nat → Nat → Prop) (parent : Nat → Nat) : Prop where
  bound : ∀ u v, E u v → u < n ∧ v < n
  parent_lt : ∀ w, 0 < w → w < n → parent w < w
  parent_edge : ∀ w, 0 < w → w < n → E (parent w) w
  /-- An edge to a larger number leads to a descendant. -/
  forward : ∀ u v, E u v → u < v → Anc parent u v
  /-- The descendants of a number come right after it. -/
  interval : ∀ u x y, u ≤ x → x ≤ y → y < n → Anc parent u y → Anc parent u x

def Climb (E : Nat → Nat → Prop) (w u : Nat) : Prop := ReflTransGen (fun x y => w < x ∧ E x y) u w

def Semipath (E : Nat → Nat → Prop) (v w : Nat) : Prop := ∃ u, E v u ∧ Climb E w u

def IsSemi (E : Nat → Nat → Prop) (s w : Nat) : Prop := Semipath E s w ∧ ∀ v, Semipath E v w → s ≤ v

variable {n : Nat} {E : Nat → Nat → Prop} {parent : Nat → Nat} {d e s t u v w x y : Nat}

/-! ## Ancestors -/

lemma Anc.trans (h : Anc parent u v) (k : Anc parent v w) : Anc parent u w := by
  induction k with
  | refl => exact h
  | up pos _ ih => exact .up pos ih

lemma Anc.of_ne (h : Anc parent u v) (hne : u ≠ v) : 0 < v ∧ Anc parent u (parent v) := by
  cases h with
  | refl => exact absurd rfl hne
  | up pos h => exact ⟨pos, h⟩

section

variable {Q : Nat → Prop}

variable (N : Numbered n E parent)

include N

lemma Numbered.anc_le (h : Anc parent u v) (hv : v < n) : u ≤ v := by
  induction h with
  | refl => exact le_rfl
  | @up v pos _ ih =>
    have := N.parent_lt v pos hv
    have := ih (by omega)
    omega

lemma Numbered.anc_of_le (hu : Anc parent u w) (hv : Anc parent v w) (hle : u ≤ v)
    (hw : w < n) : Anc parent u v := by
  induction hv with
  | refl => exact hu
  | @up w pos hv ih =>
    have hlt := N.parent_lt w pos hw
    have := N.anc_le hv (by omega)
    exact ih (hu.of_ne (by omega)).2 (by omega)

lemma Numbered.exists_least (h : ReflTransGen (fun x y => Q x ∧ E x y) u y) :
    ∃ m, m ≤ u ∧ Anc parent m y ∧ (m = y ∨ Q m) := by
  induction h using ReflTransGen.head_induction_on with
  | refl => exact ⟨y, le_rfl, .refl y, .inl rfl⟩
  | @head u v edge _ ih =>
    obtain ⟨m, hm, hmy, hQ⟩ := ih
    by_cases hle : m ≤ u
    · exact ⟨m, hle, hmy, hQ⟩
    · -- The edge leads to a descendant of `u`, and `m` is between the two.
      have huv := N.forward u v edge.2 (by omega)
      have hum := N.interval u m v (by omega) hm (N.bound u v edge.2).2 huv
      exact ⟨u, le_rfl, hum.trans hmy, .inr edge.1⟩

lemma Numbered.climb_of_chain (hQ : ∀ x, Q x → ¬Anc parent x y)
    (h : ReflTransGen (fun x y => Q x ∧ E x y) u y) : Climb E y u := by
  induction h using ReflTransGen.head_induction_on with
  | refl => exact .refl
  | @head u v edge hchain ih =>
    obtain ⟨m, hm, hmy, hm'⟩ := N.exists_least (.head edge hchain)
    have hmQ : m = y := hm'.resolve_right fun h => hQ m h hmy
    have hne : u ≠ y := fun h => hQ u edge.1 (h ▸ .refl u)
    exact .head ⟨by omega, edge.2⟩ ih

/-! ## Chains along the tree -/

lemma Numbered.avoiding_of_not_anc (hw : w < n) (h : ¬Anc parent d w) : Avoiding E d 0 w := by
  induction w using Nat.strong_induction_on with
  | _ w ih =>
    have hne : w ≠ d := fun hw => h (hw ▸ .refl w)
    rcases Nat.eq_zero_or_pos w with rfl | pos
    · exact ⟨hne, .refl⟩
    · have hlt := N.parent_lt w pos hw
      exact (ih _ hlt (by omega) fun hd => h (.up pos hd)).snoc (N.parent_edge w pos hw) hne

lemma Numbered.reachable (hw : w < n) : Reachable E 0 w := by
  induction w using Nat.strong_induction_on with
  | _ w ih =>
    rcases Nat.eq_zero_or_pos w with rfl | pos
    · exact .refl
    · have hlt := N.parent_lt w pos hw
      exact (ih _ hlt (by omega)).snoc (N.parent_edge w pos hw)

lemma Numbered.anc_of_dominates (hw : w < n) (h : Dominates E 0 d w) : Anc parent d w := by
  by_contra hd
  exact (dominates_iff.1 h).2 (N.avoiding_of_not_anc hw hd)

lemma Numbered.avoiding_down (h : Anc parent u v) (hv : v < n) (hd : d < u) : Avoiding E d u v := by
  induction h with
  | refl => exact ⟨by omega, .refl⟩
  | @up v pos h ih =>
    have hlt := N.parent_lt v pos hv
    have hle := N.anc_le h (by omega)
    exact (ih (by omega)).snoc (N.parent_edge v pos hv) (by omega)

omit N in
lemma Climb.le (h : Climb E w u) : w ≤ u := by
  rcases ReflTransGen.cases_head h with rfl | ⟨_, edge, _⟩
  · exact le_rfl
  · exact edge.1.le

omit N in
lemma Climb.avoiding (h : Climb E w u) (hd : d < w) : Avoiding E d u w := by
  induction h using ReflTransGen.head_induction_on with
  | refl => exact ⟨by omega, .refl⟩
  | head edge _ ih => exact ⟨by omega, .head ⟨edge.2, ih.1⟩ ih.2⟩

lemma Numbered.avoiding_semipath (h : Semipath E v w) (hv : ¬Anc parent d v) (hd : d < w) :
    Avoiding E d 0 w := by
  obtain ⟨u, edge, hclimb⟩ := h
  have hle := hclimb.le
  have hto := N.avoiding_of_not_anc (N.bound v u edge).1 hv
  exact (hto.snoc edge (by omega)).trans (hclimb.avoiding hd)

/-! ## Semidominators -/

lemma Numbered.semipath_parent (hpos : 0 < w) (hw : w < n) : Semipath E (parent w) w :=
  ⟨w, N.parent_edge w hpos hw, .refl⟩

lemma Numbered.semi_lt (hs : IsSemi E s w) (hpos : 0 < w) (hw : w < n) : s < w :=
  lt_of_le_of_lt (hs.2 _ (N.semipath_parent hpos hw)) (N.parent_lt w hpos hw)

lemma Numbered.semi_anc (hs : IsSemi E s w) (hpos : 0 < w) (hw : w < n) : Anc parent s w := by
  have hlt := N.semi_lt hs hpos hw
  obtain ⟨u, edge, hclimb⟩ := hs.1
  have hchain : ReflTransGen (fun x y => (x = s ∨ w < x) ∧ E x y) s w :=
    .head ⟨.inl rfl, edge⟩ (ReflTransGen.mono (fun _ _ h => ⟨.inr h.1, h.2⟩) _ _ hclimb)
  obtain ⟨m, hm, hmw, hQ⟩ := N.exists_least hchain
  have : m = s := by omega
  exact this ▸ hmw

lemma Numbered.semipath_of_anc (edge : E v w) (hu : w < u) (huv : Anc parent u v)
    (h : Semipath E x u) : Semipath E x w := by
  obtain ⟨a, hxa, hclimb⟩ := h
  refine ⟨a, hxa, ?_⟩
  have hup : ReflTransGen (fun x y => w < x ∧ E x y) a u :=
    ReflTransGen.mono (fun _ _ h => ⟨by omega, h.2⟩) _ _ hclimb
  have hv := (N.bound v w edge).1
  have hdown : ReflTransGen (fun x y => w < x ∧ E x y) u v := by
    clear edge hup
    induction huv with
    | refl => exact .refl
    | @up v pos h ih =>
      have hlt := N.parent_lt v pos hv
      have hle := N.anc_le h (by omega)
      exact (ih (by omega)).tail ⟨by omega, N.parent_edge v pos hv⟩
  exact (hup.trans hdown).tail ⟨lt_of_lt_of_le hu (N.anc_le huv hv), edge⟩

lemma Numbered.semipath_cases (h : Semipath E x w) :
    E x w ∨ ∃ v u, E v w ∧ w < u ∧ Anc parent u v ∧ Semipath E x u := by
  obtain ⟨a, hxa, hclimb⟩ := h
  rcases ReflTransGen.cases_tail hclimb with rfl | ⟨v, hav, hv, edge⟩
  · exact .inl hxa
  · -- The first number of the chain that is an ancestor of `v`.
    have hfirst : ∃ u, w < u ∧ Anc parent u v ∧
        ReflTransGen (fun x y => ¬Anc parent x v ∧ E x y) a u := by
      clear hxa hclimb
      induction hav using ReflTransGen.head_induction_on with
      | refl => exact ⟨v, hv, .refl v, .refl⟩
      | @head a b hab _ ih =>
        obtain ⟨u, hu, huv, hchain⟩ := ih
        by_cases ha : Anc parent a v
        · exact ⟨a, hab.1, ha, .refl⟩
        · exact ⟨u, hu, huv, .head ⟨ha, hab.2⟩ hchain⟩
    obtain ⟨u, hu, huv, hchain⟩ := hfirst
    exact .inr ⟨v, u, edge, hu, huv, a, hxa, N.climb_of_chain (fun x hx hxu => hx (hxu.trans huv)) hchain⟩

/-! ## Immediate dominators -/

lemma Numbered.dominates_of_semipaths (hw : w < n) (hd : Anc parent d w)
    (h : ∀ y, d < y → Anc parent y w → ∀ x, Semipath E x y → d ≤ x) : Dominates E 0 d w := by
  refine dominates_iff.2 ⟨N.reachable hw, fun hav => ?_⟩
  -- Along a chain without `d` each number is below `d`, or above it and off the way down to `w`.
  have hall : ∀ z, ReflTransGen (fun x y => E x y ∧ y ≠ d) 0 z → z < d ∨ (¬Anc parent z w ∧ ∃ x < d, ∃ u, E x u ∧
        ReflTransGen (fun a b => ¬Anc parent a w ∧ E a b) u z) := by
    intro z hz
    induction hz with
    | refl => exact .inl (Nat.pos_of_ne_zero hav.1.symm)
    | @tail z z' _ edge ih =>
      by_cases hlt : z' < d
      · exact .inl hlt
      have hgt : d < z' := by have := edge.2; omega
      refine .inr ?_
      rcases ih with hz | ⟨hzw, x, hx, u, hxu, hchain⟩
      · refine ⟨fun hanc => ?_, z, hz, z', edge.1, .refl⟩
        have := h z' hgt hanc z ⟨z', edge.1, .refl⟩
        omega
      · have hchain' := hchain.tail ⟨hzw, edge.1⟩
        refine ⟨fun hanc => ?_, x, hx, u, hxu, hchain'⟩
        have hclimb := N.climb_of_chain (fun a ha haz => ha (haz.trans hanc)) hchain'
        have := h z' hgt hanc x ⟨u, hxu, hclimb⟩
        omega
  rcases hall w hav.2 with hlt | ⟨hanc, -⟩
  · have := N.anc_le hd hw
    omega
  · exact hanc (.refl w)

lemma Numbered.anc_semi (hs : IsSemi E s w) (hw : w < n) (h : StrictlyDominates E 0 e w) : Anc parent e s := by
  by_contra hnot
  have hew := N.anc_of_dominates hw h.2
  have hlt : e < w := lt_of_le_of_ne (N.anc_le hew hw) h.1
  exact (dominates_iff.1 h.2).2 (N.avoiding_semipath hs.1 hnot hlt)

lemma Numbered.dominates_anc (huw : Anc parent u w) (hw : w < n) (heu : e < u)
    (h : Dominates E 0 e w) : Dominates E 0 e u := by
  have hu : u < n := lt_of_le_of_lt (N.anc_le huw hw) hw
  refine dominates_iff.2 ⟨N.reachable hu, fun hav => (dominates_iff.1 h).2 ?_⟩
  exact hav.trans (N.avoiding_down huw hw heu)

lemma Numbered.isIdom_semi (hpos : 0 < w) (hw : w < n) (hs : IsSemi E s w)
    (h : ∀ u, s < u → Anc parent u w → ∀ x, Semipath E x u → s ≤ x) : IsIdom E 0 s w := by
  have hsw := N.semi_anc hs hpos hw
  have hlt := N.semi_lt hs hpos hw
  refine ⟨⟨hlt.ne, N.dominates_of_semipaths hw hsw h⟩, fun e he => ?_⟩
  have hes := N.anc_semi hs hw he
  rcases (N.anc_le hes (by omega)).eq_or_lt with rfl | hlt'
  · exact .refl (N.reachable (by omega))
  · exact N.dominates_anc hsw hw hlt' he.2

lemma Numbered.isIdom_of_anc (hpos : 0 < w) (hw : w < n) (hs : IsSemi E s w) (hsu : s < u)
    (huw : Anc parent u w) (ht : IsSemi E t u)
    (h : ∀ y, s < y → Anc parent y w → ∀ x, Semipath E x y → t ≤ x) (hd : IsIdom E 0 d u) : IsIdom E 0 d w := by
  have hun : u < n := lt_of_le_of_lt (N.anc_le huw hw) hw
  have hsw := N.semi_anc hs hpos hw
  have hslt := N.semi_lt hs hpos hw
  have hsanc : Anc parent s u := N.anc_of_le hsw huw hsu.le hw
  have hdt : Anc parent d t := N.anc_semi ht hun hd.1
  have htn : t < n := lt_trans (N.semi_lt ht (by omega) hun) hun
  have hdu : Anc parent d u := N.anc_of_dominates hun hd.1.2
  have hdlt : d < u := lt_of_le_of_ne (N.anc_le hdu hun) hd.1.1
  have hdom : Dominates E 0 d w := by
    refine N.dominates_of_semipaths hw (hdu.trans huw) fun y hdy hyw x hxy => ?_
    by_contra hxd
    push Not at hxd
    by_cases hsy : s < y
    · have := h y hsy hyw x hxy
      have := N.anc_le hdt htn
      omega
    · -- Such a `y` is above `u`, and `u` can be reached through it without `d`.
      have hyu : Anc parent y u := N.anc_of_le hyw huw (by omega) hw
      have hxn : x < n := by
        obtain ⟨a, edge, -⟩ := hxy
        exact (N.bound x a edge).1
      have hnot : ¬Anc parent d x := fun hdx => by
        have := N.anc_le hdx hxn
        omega
      have hto := N.avoiding_semipath hxy hnot hdy
      exact (dominates_iff.1 hd.1.2).2 (hto.trans (N.avoiding_down hyu hun hdy))
  refine ⟨⟨?_, hdom⟩, fun e he => ?_⟩
  · have := N.anc_le huw hw
    omega
  · have hes := N.anc_semi hs hw he
    have heu : e < u := lt_of_le_of_lt (N.anc_le hes (by omega)) hsu
    exact hd.2 e ⟨heu.ne, N.dominates_anc huw hw heu he.2⟩

end

end MethodIR.FlowGraph
