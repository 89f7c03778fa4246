import Mathlib

/-!
# Paths and dominance

`a` dominates `b` if it is on every path from the root to `b`. For proofs a path that leaves out a node
is a chain of edges none of which ends in it (`Avoiding`).
-/

namespace MethodIR.FlowGraph

open Relation

variable {α : Type} {E : α → α → Prop} {r a b c d : α} {motive : α → Prop} {p : List α}

/-- `Path E a b p`: the nodes of `p` lead from `a` to `b`, both included. -/
inductive Path (E : α → α → Prop) : α → α → List α → Prop
  | single (a : α) : Path E a a [a]
  | step {a b c : α} {p : List α} (edge : E a b) (rest : Path E b c p) : Path E a c (a :: p)

/-- Some path leads from the root to `b`. -/
def Reachable (E : α → α → Prop) (r b : α) : Prop := ∃ p, Path E r b p

/-- `b` is reachable, and every path from the root to it goes through `a`. -/
def Dominates (E : α → α → Prop) (r a b : α) : Prop := Reachable E r b ∧ ∀ p, Path E r b p → a ∈ p

def StrictlyDominates (E : α → α → Prop) (r a b : α) : Prop := a ≠ b ∧ Dominates E r a b

/-- The strict dominator of `b` that all strict dominators of `b` dominate. -/
def IsIdom (E : α → α → Prop) (r d b : α) : Prop :=
  StrictlyDominates E r d b ∧ ∀ e, StrictlyDominates E r e b → Dominates E r e d

def Avoiding (E : α → α → Prop) (a r b : α) : Prop := r ≠ a ∧ ReflTransGen (fun x y => E x y ∧ y ≠ a) r b

lemma reachable_iff : Reachable E r b ↔ ReflTransGen E r b := by
  constructor
  · rintro ⟨p, h⟩
    induction h with
    | single a => exact .refl
    | step edge _ ih => exact .head edge ih
  · intro h
    induction h using ReflTransGen.head_induction_on with
    | refl => exact ⟨[b], .single b⟩
    | head edge _ ih =>
      obtain ⟨p, hp⟩ := ih
      exact ⟨_, .step edge hp⟩

lemma avoiding_iff : Avoiding E a r b ↔ ∃ p, Path E r b p ∧ a ∉ p := by
  constructor
  · rintro ⟨hr, h⟩
    induction h using ReflTransGen.head_induction_on with
    | refl => exact ⟨[b], .single b, by simpa using hr.symm⟩
    | head edge _ ih =>
      obtain ⟨p, hp, ha⟩ := ih edge.2
      exact ⟨_, .step edge.1 hp, by simp [ha, hr.symm]⟩
  · rintro ⟨p, h, ha⟩
    induction h with
    | single x => exact ⟨fun h => ha (by simp [h]), .refl⟩
    | step edge _ ih =>
      have hrest := ih fun h => ha (by simp [h])
      exact ⟨fun h => ha (by simp [h]), .head ⟨edge, hrest.1⟩ hrest.2⟩

lemma dominates_iff : Dominates E r a b ↔ Reachable E r b ∧ ¬Avoiding E a r b := by
  simp only [Dominates, avoiding_iff, not_exists, not_and, not_not]

/-! ## Chains that leave out a node -/

section

variable (h : Avoiding E a r b)
include h

lemma Avoiding.ne : b ≠ a := by
  obtain ⟨hr, h⟩ := h
  cases h with
  | refl => exact hr
  | tail _ edge => exact edge.2

lemma Avoiding.reachable : Reachable E r b :=
  reachable_iff.2 (ReflTransGen.mono (fun _ _ h => h.1) _ _ h.2)

lemma Avoiding.snoc (edge : E b c) (hc : c ≠ a) : Avoiding E a r c :=
  ⟨h.1, h.2.tail ⟨edge, hc⟩⟩

lemma Avoiding.trans (k : Avoiding E a b c) : Avoiding E a r c := ⟨h.1, h.2.trans k.2⟩

end

lemma Reachable.refl : Reachable E r r := ⟨[r], .single r⟩

lemma Reachable.snoc (h : Reachable E r b) (edge : E b c) : Reachable E r c :=
  reachable_iff.2 ((reachable_iff.1 h).tail edge)

lemma Reachable.induction (root : motive r)
    (step : ∀ b c, Reachable E r b → E b c → motive b → motive c) (h : Reachable E r b) : motive b := by
  have h := reachable_iff.1 h
  induction h with
  | refl => exact root
  | tail hb edge ih => exact step _ _ (reachable_iff.2 hb) edge (ih (reachable_iff.2 hb))

lemma Reachable.first (h : Reachable E r b) : Avoiding E a r b ∨ r = a ∨ ∃ c, Avoiding E a r c ∧ E c a := by
  refine Reachable.induction (motive := fun x => Avoiding E a r x ∨ r = a ∨ ∃ c, Avoiding E a r c ∧ E c a) ?_ ?_ h
  · by_cases hr : r = a
    · exact .inr (.inl hr)
    · exact .inl ⟨hr, .refl⟩
  · intro b c _ edge ih
    rcases ih with h | h
    · by_cases hc : c = a
      · exact .inr (.inr ⟨b, h, hc ▸ edge⟩)
      · exact .inl (h.snoc edge hc)
    · exact .inr h

/-! ## Dominance -/

lemma Dominates.reachable (h : Dominates E r a b) : Reachable E r b := h.1

lemma Dominates.refl (h : Reachable E r b) : Dominates E r b b := dominates_iff.2 ⟨h, fun hb => hb.ne rfl⟩

lemma root_dominates (h : Reachable E r b) : Dominates E r r b := dominates_iff.2 ⟨h, fun hb => hb.1 rfl⟩

lemma Dominates.reachable_left (h : Dominates E r a b) : Reachable E r a := by
  rcases h.1.first (a := a) with hb | rfl | ⟨c, hc, edge⟩
  · exact absurd hb (dominates_iff.1 h).2
  · exact .refl
  · exact hc.reachable.snoc edge

lemma Dominates.of_edge (h : Dominates E r a c) (hne : a ≠ c) (hb : Reachable E r b)
    (edge : E b c) : Dominates E r a b := by
  refine dominates_iff.2 ⟨hb, fun hab => (dominates_iff.1 h).2 ?_⟩
  exact hab.snoc edge hne.symm

lemma Dominates.trans (hab : Dominates E r a b) (hbc : Dominates E r b c) : Dominates E r a c := by
  refine dominates_iff.2 ⟨hbc.1, fun hac => ?_⟩
  -- A chain that leaves `a` out comes to no `b` either.
  suffices hall : ∀ x, ReflTransGen (fun x y => E x y ∧ y ≠ a) r x → Avoiding E b r x from
    (dominates_iff.1 hbc).2 (hall c hac.2)
  intro x hx
  have hb : ¬Avoiding E a r b := (dominates_iff.1 hab).2
  induction hx with
  | refl => exact ⟨fun h => hb (h ▸ ⟨hac.1, .refl⟩), .refl⟩
  | tail hx edge ih =>
    refine ih.snoc edge.1 fun h => hb ?_
    exact h ▸ Avoiding.snoc ⟨hac.1, hx⟩ edge.1 edge.2

lemma Dominates.antisymm (hab : Dominates E r a b) (hba : Dominates E r b a) : a = b := by
  by_contra hne
  rcases hab.1.first (a := a) with h | rfl | ⟨c, hc, edge⟩
  · exact (dominates_iff.1 hab).2 h
  · refine (dominates_iff.1 hba).2 ⟨hne, .refl⟩
  · -- The chain to `c` leaves `a` out, so it goes through `b` nowhere.
    have hbc : Dominates E r b c := hba.of_edge (Ne.symm hne) hc.reachable edge
    exact (dominates_iff.1 (hab.trans hbc)).2 hc

lemma StrictlyDominates.trans_right (hab : Dominates E r a b) (hbc : StrictlyDominates E r b c) :
    StrictlyDominates E r a c := by
  refine ⟨?_, hab.trans hbc.2⟩
  rintro rfl
  exact hbc.1 (hbc.2.antisymm hab)

lemma not_strictlyDominates_root : ¬StrictlyDominates E r a r := fun h =>
  (dominates_iff.1 h.2).2 ⟨h.1.symm, .refl⟩

lemma strictlyDominates_of_only_pred {p : α} (hb : Reachable E r b) (hne : b ≠ r)
    (honly : ∀ q, Reachable E r q → E q b → q = p) : StrictlyDominates E r p b := by
  refine ⟨?_, dominates_iff.2 ⟨hb, fun hav => ?_⟩⟩
  · rcases hb.first (a := b) with h | h | ⟨c, hc, edge⟩
    · exact absurd rfl h.ne
    · exact absurd h.symm hne
    · exact honly c hc.reachable edge ▸ hc.ne
  · rcases Relation.ReflTransGen.cases_tail hav.2 with h | ⟨q, hq, edge⟩
    · exact hne h
    · have hq : Avoiding E p r q := ⟨hav.1, hq⟩
      exact hq.ne (honly q hq.reachable edge.1)

lemma IsIdom.unique (h : IsIdom E r c b) (k : IsIdom E r d b) : c = d := (k.2 c h.1).antisymm (h.2 d k.1)

lemma IsIdom.dominates_iff (h : IsIdom E r d b) : StrictlyDominates E r a b ↔ Dominates E r a d := by
  constructor
  · exact h.2 a
  · exact fun ha => .trans_right ha h.1

/-! ## Induction along immediate dominators -/

lemma Path.length_pos (h : Path E r b p) : 0 < p.length := by
  cases h <;> simp

lemma Path.exists_shorter (h : Path E r b p) (ha : a ∈ p) (hne : a ≠ b) :
    ∃ q, Path E r a q ∧ q.length < p.length := by
  induction h with
  | single x => exact absurd (List.mem_singleton.1 ha) hne
  | @step x y z p edge rest ih =>
    rcases List.mem_cons.1 ha with rfl | ha
    · exact ⟨[a], .single a, by simpa using rest.length_pos⟩
    · obtain ⟨q, hq, hlt⟩ := ih ha hne
      exact ⟨x :: q, .step edge hq, by simpa using hlt⟩

lemma Reachable.idom_induction (hidom : ∀ b, Reachable E r b → b ≠ r → ∃ d, IsIdom E r d b) (root : motive r)
    (step : ∀ d b, IsIdom E r d b → motive d → motive b) (h : Reachable E r b) : motive b := by
  obtain ⟨p, hp⟩ := h
  -- A path to the immediate dominator is shorter than one through it.
  induction hn : p.length using Nat.strong_induction_on generalizing b p with
  | _ n ih =>
    by_cases hb : b = r
    · exact hb ▸ root
    · obtain ⟨d, hd⟩ := hidom b ⟨p, hp⟩ hb
      obtain ⟨q, hq, hlt⟩ := hp.exists_shorter (hd.1.2.2 p hp) hd.1.1
      exact step d b hd (ih q.length (hn ▸ hlt) q hq rfl)

end MethodIR.FlowGraph
