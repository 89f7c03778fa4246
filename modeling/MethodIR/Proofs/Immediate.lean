import MethodIR.Proofs.Numbering
import MethodIR.Proofs.Sweep

/-!
# The computed immediate dominators

A numbering of the reachable nodes keeps and reflects dominance (`Numbers.dominates_iff`), so the table
computed for a body gives every block its immediate dominator (`immediate_eq_some_iff`).
-/

namespace MethodIR.FlowGraph

variable {α : Type} {E : α → α → Prop} {F : Nat → Nat → Prop} {f : Nat → α} {n u v d : Nat}

/-- `f` numbers the nodes that `f 0` reaches by the numbers below `n`, and `F` are the edges between
the numbers. -/
structure Numbers (E : α → α → Prop) (F : Nat → Nat → Prop) (f : Nat → α) (n : Nat) : Prop where
  pos : 0 < n
  edge : ∀ u v, F u v ↔ u < n ∧ v < n ∧ E (f u) (f v)
  reach : ∀ v < n, Reachable F 0 v
  inj : ∀ u < n, ∀ v < n, f u = f v → u = v
  onto : ∀ b, Reachable E (f 0) b → ∃ u < n, f u = b

section

variable (h : Numbers E F f n)
include h

lemma Numbers.reachable_map (hv : Reachable F 0 v) : Reachable E (f 0) (f v) := by
  rw [reachable_iff] at hv ⊢
  exact hv.lift f fun x y hxy => ((h.edge x y).1 hxy).2.2

lemma Numbers.lt_of_reachable (hv : Reachable F 0 v) : v < n := by
  rcases Relation.ReflTransGen.cases_tail (reachable_iff.1 hv) with rfl | ⟨u, -, edge⟩
  · exact h.pos
  · exact ((h.edge u v).1 edge).2.1

lemma Numbers.avoiding_iff (hu : u < n) (hv : v < n) : Avoiding E (f u) (f 0) (f v) ↔ Avoiding F u 0 v := by
  constructor
  · rintro ⟨hne, hpath⟩
    -- Each node of the chain has a number, and the numbers make a chain.
    suffices hall : ∀ b, Relation.ReflTransGen (fun x y => E x y ∧ y ≠ f u) (f 0) b →
        ∃ w < n, f w = b ∧ Avoiding F u 0 w by
      obtain ⟨w, hw, hwv, hav⟩ := hall _ hpath
      rwa [← h.inj w hw v hv hwv]
    intro b hb
    induction hb with
    | refl => exact ⟨0, h.pos, rfl, fun h0 => hne (h0 ▸ rfl), .refl⟩
    | tail _ edge ih =>
      obtain ⟨w, hw, rfl, hav⟩ := ih
      obtain ⟨x, hx, rfl⟩ := h.onto _ ((h.reachable_map hav.reachable).snoc edge.1)
      exact ⟨x, hx, rfl, hav.snoc ((h.edge w x).2 ⟨hw, hx, edge.1⟩) fun hxu => edge.2 (hxu ▸ rfl)⟩
  · rintro ⟨hne, hpath⟩
    refine ⟨fun h0 => hne (h.inj 0 h.pos u hu h0), hpath.lift f fun x y hxy => ?_⟩
    obtain ⟨-, hy, edge⟩ := (h.edge x y).1 hxy.1
    exact ⟨edge, fun heq => hxy.2 (h.inj y hy u hu heq)⟩

lemma Numbers.dominates_iff (hu : u < n) (hv : v < n) : Dominates E (f 0) (f u) (f v) ↔ Dominates F 0 u v := by
  have hreach := h.reach v hv
  simp only [FlowGraph.dominates_iff, h.avoiding_iff hu hv, hreach, h.reachable_map hreach]

lemma Numbers.isIdom_map (hv : v < n) (hd : IsIdom F 0 d v) : IsIdom E (f 0) (f d) (f v) := by
  have hdn : d < n := h.lt_of_reachable hd.1.2.reachable_left
  refine ⟨⟨fun heq => hd.1.1 (h.inj d hdn v hv heq), (h.dominates_iff hdn hv).2 hd.1.2⟩, ?_⟩
  rintro e ⟨hne, hdom⟩
  obtain ⟨w, hw, rfl⟩ := h.onto e hdom.reachable_left
  rw [h.dominates_iff hw hdn]
  exact hd.2 w ⟨fun heq => hne (heq ▸ rfl), (h.dominates_iff hw hv).1 hdom⟩

end

end MethodIR.FlowGraph

namespace MethodIR.Dominance

open FlowGraph DepthFirst Tables Body Array

/-- What the computation of dominators needs of a body: the edges between blocks that the entry
reaches are noted at both ends. -/
structure Linked (body : Body) (entry : BlockId) : Prop where
  entry_lt : entry.index < body.blocks.size
  succ_lt : ∀ a b, Reachable (Edge body.succs) entry a → b ∈ body.succs a → b.index < body.blocks.size
  pred_of_succ : ∀ a b, Reachable (Edge body.succs) entry a → b ∈ body.succs a → a ∈ body.preds b
  succ_of_pred : ∀ a b, Reachable (Edge body.succs) entry a → Reachable (Edge body.succs) entry b →
    a ∈ body.preds b → b ∈ body.succs a

variable {body : Body} {entry a b d : BlockId} {w : Nat}

lemma preds_of_size_le (h : body.blocks.size ≤ b.index) : body.preds b = [] := by
  rw [preds, block, getD_of_size_le _ _ _ h]
  rfl

lemma succs_of_size_le (h : body.blocks.size ≤ b.index) : body.succs b = [] := by
  rw [succs, block, getD_of_size_le _ _ _ h]
  rfl

lemma Linked.of_symmetric (hentry : body.hasBlock entry)
    (hsym : ∀ a b, b ∈ body.succs a ↔ a ∈ body.preds b) : Linked body entry := by
  refine ⟨by simpa [hasBlock] using hentry, fun a b _ hb => ?_, fun a b _ => (hsym a b).1,
    fun a b _ _ => (hsym a b).2⟩
  by_contra hlt
  have hpred := (hsym a b).1 hb
  rw [preds_of_size_le (by omega)] at hpred
  simp at hpred

lemma Linked.lt_of_reachable (h : Linked body entry) (hb : Reachable (Edge body.succs) entry b) :
    b.index < body.blocks.size := by
  rcases Relation.ReflTransGen.cases_tail (reachable_iff.1 hb) with rfl | ⟨a, ha, edge⟩
  · exact h.entry_lt
  · exact h.succ_lt a b (reachable_iff.2 ha) edge

def numbering (body : Body) (entry : BlockId) : Numbering :=
  .ofVisits body.blocks.size (DepthFirst.visits body.blocks.size entry body.succs)

section

variable (h : Linked body entry)
include h

lemma Linked.number?_eq_some_iff (b : BlockId) (k : Nat) : (numbering body entry).number? b = some k ↔
      k < (numbering body entry).size ∧ (numbering body entry).vertexAt k = b :=
  Numbering.number?_ofVisits _ h.entry_lt b k

lemma Linked.numbered :
    Numbered (numbering body entry).size (Numbering.NumberEdge body.succs (numbering body entry))
      (numbering body entry).parentOf :=
  Numbering.numbered_ofVisits _ h.entry_lt

lemma Linked.numbers : Numbers (Edge body.succs) (Numbering.NumberEdge body.succs (numbering body entry))
      (numbering body entry).vertexAt (numbering body entry).size := by
  have hpos := Numbering.size_pos body.succs h.entry_lt h.succ_lt
  refine ⟨hpos, fun u v => Iff.rfl, fun v hv => h.numbered.reachable hv, ?_, ?_⟩
  · intro u hu v hv heq
    have hnum := (h.number?_eq_some_iff _ u).2 ⟨hu, rfl⟩
    rw [heq, (h.number?_eq_some_iff _ v).2 ⟨hv, rfl⟩] at hnum
    exact (Option.some.inj hnum).symm
  · intro b hb
    rw [numbering, Numbering.vertexAt_zero _ h.entry_lt] at hb
    obtain ⟨k, hk⟩ := (Numbering.exists_number_iff _ h.entry_lt h.succ_lt b).2 hb
    exact ⟨k, (h.number?_eq_some_iff b k).1 hk⟩

lemma Linked.vertexAt_zero : (numbering body entry).vertexAt 0 = entry := Numbering.vertexAt_zero _ h.entry_lt

lemma Linked.reachable_vertexAt (hw : w < (numbering body entry).size) :
    Reachable (Edge body.succs) entry ((numbering body entry).vertexAt w) := by
  have hreach := h.numbers.reachable_map (h.numbers.reach w hw)
  rwa [h.vertexAt_zero] at hreach

lemma Linked.exists_vertexAt (hb : Reachable (Edge body.succs) entry b) :
    ∃ w < (numbering body entry).size, (numbering body entry).vertexAt w = b :=
  h.numbers.onto b (by rwa [h.vertexAt_zero])

lemma Linked.mem_preds_iff (hw : w < (numbering body entry).size) (v : Nat) :
    v ∈ (body.preds ((numbering body entry).vertexAt w)).filterMap (numbering body entry).number? ↔
      Numbering.NumberEdge body.succs (numbering body entry) v w := by
  rw [List.mem_filterMap]
  constructor
  · rintro ⟨a, ha, hv⟩
    obtain ⟨hlt, rfl⟩ := (h.number?_eq_some_iff a v).1 hv
    exact ⟨hlt, hw, h.succ_of_pred _ _ (h.reachable_vertexAt hlt) (h.reachable_vertexAt hw) ha⟩
  · rintro ⟨hv, -, hedge⟩
    exact ⟨_, h.pred_of_succ _ _ (h.reachable_vertexAt hv) hedge, (h.number?_eq_some_iff _ v).2 ⟨hv, rfl⟩⟩

end

section Fill

variable {β : Type} (key : Nat → Nat) (val : Nat → β) (d : β) {ws : List Nat} {xs : Array β}

lemma size_foldl_setIfInBounds : (ws.foldl (fun xs w => xs.setIfInBounds (key w) (val w)) xs).size = xs.size := by
  induction ws generalizing xs with
  | nil => rfl
  | cons w ws ih => rw [List.foldl_cons, ih, size_setIfInBounds]

lemma getD_foldl_of_forall_ne {i : Nat} (h : ∀ w ∈ ws, key w ≠ i) :
    (ws.foldl (fun xs w => xs.setIfInBounds (key w) (val w)) xs).getD i d = xs.getD i d := by
  induction ws generalizing xs with
  | nil => rfl
  | cons w ws ih =>
    rw [List.foldl_cons, ih fun x hx => h x (by simp [hx]), getD_setIfInBounds, if_neg fun hi => h w (by simp) hi.1]

lemma getD_foldl_of_mem (hw : w ∈ ws) (hlt : key w < xs.size) (hinj : ∀ v ∈ ws, key v = key w → v = w) :
    (ws.foldl (fun xs w => xs.setIfInBounds (key w) (val w)) xs).getD (key w) d = val w := by
  induction ws generalizing xs with
  | nil => simp at hw
  | cons x ws ih =>
    rw [List.foldl_cons]
    by_cases hmem : w ∈ ws
    · exact ih hmem (by simpa using hlt) fun v hv => hinj v (by simp [hv])
    · obtain rfl : w = x := (List.mem_cons.1 hw).resolve_right hmem
      rw [getD_foldl_of_forall_ne, getD_setIfInBounds, if_pos ⟨rfl, hlt⟩]
      intro v hv heq
      exact hmem (hinj v (by simp [hv]) heq ▸ hv)

end Fill

lemma size_immediate : (immediate body entry).size = body.blocks.size := by
  simp only [immediate]
  rw [size_foldl_setIfInBounds (fun w => _) (fun w => _), size_replicate]

lemma Linked.immediate_vertexAt (h : Linked body entry) (hpos : 0 < w) (hw : w < (numbering body entry).size) :
    ∃ d, (immediate body entry).getD ((numbering body entry).vertexAt w).index none = some d ∧
      IsIdom (Edge body.succs) entry d ((numbering body entry).vertexAt w) := by
  have hidom := Sweep.isIdom_run h.numbered h.numbers.pos (fun w hw => h.mem_preds_iff hw) hpos hw
  refine ⟨_, ?_, h.vertexAt_zero ▸ h.numbers.isIdom_map hw hidom⟩
  refine getD_foldl_of_mem (fun w => ((numbering body entry).vertexAt w).index) (fun w => some
    ((numbering body entry).vertexAt (getD _ w 0))) none ?_ ?_ ?_
  · rw [List.mem_range'_1]
    exact ⟨hpos, by change w < 1 + ((numbering body entry).size - 1); omega⟩
  · rw [size_replicate]
    exact h.lt_of_reachable (h.reachable_vertexAt hw)
  · intro v hv heq
    have hlt : v < (numbering body entry).size := by
      have := List.mem_range'_1.1 hv
      change 1 ≤ v ∧ v < 1 + ((numbering body entry).size - 1) at this
      omega
    exact h.numbers.inj v hlt w hw (BlockId.ext heq)

lemma Linked.immediate_eq_some_iff (h : Linked body entry) :
    (immediate body entry).getD b.index none = some d ↔ IsIdom (Edge body.succs) entry d b := by
  by_cases hb : ∃ w, 0 < w ∧ w < (numbering body entry).size ∧ (numbering body entry).vertexAt w = b
  · obtain ⟨w, hpos, hw, rfl⟩ := hb
    obtain ⟨e, he, hidom⟩ := h.immediate_vertexAt hpos hw
    rw [he]
    constructor
    · rintro ⟨⟩
      exact hidom
    · exact fun hd => congrArg some (hidom.unique hd)
  · have hnone : (immediate body entry).getD b.index none = none := by
      refine (getD_foldl_of_forall_ne (fun w => ((numbering body entry).vertexAt w).index)
        (fun w => some ((numbering body entry).vertexAt (getD _ w 0))) none ?_).trans
        (by rw [getD_replicated, ite_self])
      intro w hw heq
      have := List.mem_range'_1.1 hw
      change 1 ≤ w ∧ w < 1 + ((numbering body entry).size - 1) at this
      exact hb ⟨w, by omega, by omega, BlockId.ext heq⟩
    rw [hnone]
    refine ⟨fun heq => by simp at heq, fun hd => absurd ?_ hb⟩
    -- A block with an immediate dominator is reachable and is not the entry.
    obtain ⟨w, hw, rfl⟩ := h.exists_vertexAt hd.1.2.1
    refine ⟨w, Nat.pos_of_ne_zero fun h0 => ?_, hw, rfl⟩
    rw [h0, h.vertexAt_zero] at hd
    exact not_strictlyDominates_root hd.1

lemma Linked.exists_isIdom (h : Linked body entry) (hb : Reachable (Edge body.succs) entry b)
    (hne : b ≠ entry) : ∃ d, IsIdom (Edge body.succs) entry d b := by
  obtain ⟨w, hw, rfl⟩ := h.exists_vertexAt hb
  have hpos : 0 < w := Nat.pos_of_ne_zero fun h0 => hne (by rw [h0, h.vertexAt_zero])
  obtain ⟨d, -, hd⟩ := h.immediate_vertexAt hpos hw
  exact ⟨d, hd⟩

end MethodIR.Dominance
