import MethodIR.Proofs.Immediate

/-!
# Paths of links

However often ways have been shortened, a query of the forest answers for the path of the links as they were made
(`eval_least`), in every state that the sweep over the numbers of a body goes through (`Sweep.Passes`).
-/

namespace MethodIR.Dominance

open List FlowGraph Tables

/-! ## Links as they are made -/

/-- `u` is on the path of links up from `v`, its end left out. -/
inductive OnPath (up : Nat → Option Nat) : Nat → Nat → Prop
  | here {v a : Nat} (link : up v = some a) : OnPath up v v
  | above {v a u : Nat} (link : up v = some a) (rest : OnPath up a u) : OnPath up v u

/-- The answer of a query for `v`: `v` itself if it is not linked, and otherwise a number of least semidominator
on the path of links. -/
structure Answers (f : Forest) (up : Nat → Option Nat) (v l : Nat) : Prop where
  root : f.above? v = none → l = v
  on : (f.above? v).isSome → OnPath up v l
  least : ∀ u, OnPath up v u → f.semiOf l ≤ f.semiOf u

namespace Sweep

variable {done todo : List Nat}

def links (parent : Nat → Nat) (done : List Nat) (v : Nat) : Option Nat := if v ∈ done then some (parent v) else none

/-- The numbers filed under the parent of `w` when `w` is linked. -/
def filedAt (preds : Nat → List Nat) (parent : Nat → Nat) (s : Sweep) (w : Nat) : List Nat :=
  (s.bucket.modify (((preds w).foldl (·.relax w ·) s.forest).semiOf w) (· ++ [w])).getD (parent w) []

/-- The state in which `w` has just been linked. -/
def hang (preds : Nat → List Nat) (parent : Nat → Nat) (s : Sweep) (w : Nat) : Sweep :=
  let forest := (preds w).foldl (·.relax w ·) s.forest
  { s with
    forest := forest.link w (parent w)
    bucket := (s.bucket.modify (forest.semiOf w) (· ++ [w])).setIfInBounds (parent w) [] }

/-- The forests that a sweep over `n` numbers goes through, each with the links made so far: between two
predecessors of a number `w`, and between two of the numbers filed under the parent of `w`. -/
inductive Passes (n : Nat) (preds : Nat → List Nat) (parent : Nat → Nat) : Forest → (Nat → Option Nat) → Prop
  | start : Passes n preds parent (.ofSize n) (links parent [])
  | relaxing {done todo before after : List Nat} {w : Nat} (order : (range' 1 (n - 1)).reverse = done ++ w :: todo)
      (split : preds w = before ++ after) : Passes n preds parent
        (before.foldl (·.relax w ·) (done.foldl (step preds parent) (ofSize n)).forest) (links parent done)
  | settling {done todo before after : List Nat} {w : Nat} (order : (range' 1 (n - 1)).reverse = done ++ w :: todo)
      (split : filedAt preds parent (done.foldl (step preds parent) (ofSize n)) w = before ++ after) :
      Passes n preds parent (before.foldl (settle (parent w))
        (hang preds parent (done.foldl (step preds parent) (ofSize n)) w)).forest (links parent (done ++ [w]))

variable {n k : Nat} {E : Nat → Nat → Prop} {parent : Nat → Nat} {preds : Nat → List Nat} {f : Forest} {s : Sweep}
  {u v w : Nat} (N : Numbered n E parent)

include N

/-! ## The states of the sweep -/

lemma linked_relax (hw : w ≤ k) (vs : List Nat) (hvs : ∀ v ∈ vs, v < n) (h : Forest.Linked n k parent f) :
    Forest.Linked n k parent (vs.foldl (·.relax w ·) f) := by
  induction vs generalizing f with
  | nil => exact h
  | cons v vs ih =>
    have hl := (h.eval N (hvs v (by simp))).1
    refine ih (fun u hu => hvs u (by simp [hu])) ?_
    simp only [Forest.relax]
    split
    · exact hl.setSemi hw
    · exact hl

lemma linked_settle {p : Nat} (vs : List Nat) (hvs : ∀ v ∈ vs, v < n) (h : Forest.Linked n k parent s.forest) :
    Forest.Linked n k parent (vs.foldl (settle p) s).forest ∧ (vs.foldl (settle p) s).bucket = s.bucket := by
  induction vs generalizing s with
  | nil => exact ⟨h, rfl⟩
  | cons v vs ih => exact ih (fun u hu => hvs u (by simp [hu])) (h.eval N (hvs v (by simp))).1

structure Held (n k : Nat) (parent : Nat → Nat) (s : Sweep) : Prop where
  forest : Forest.Linked n k parent s.forest
  filed : ∀ p v, v ∈ s.bucket.getD p [] → v < n

section

variable (hpreds : ∀ w, ∀ v ∈ preds w, v < n) (h : Held n w parent s) (hpos : 0 < w) (hw : w < n)

include hpreds h hpos hw

lemma Held.hang : Held n (w - 1) parent (hang preds parent s w) ∧ ∀ v ∈ filedAt preds parent s w, v < n := by
  have hbucket : ∀ x p v, v ∈ (s.bucket.modify x (· ++ [w])).getD p [] → v < n := by
    intro x p v hv
    rw [getD_modify] at hv
    split at hv
    · rcases mem_append.1 hv with hv | hv
      · exact h.filed p v hv
      · exact mem_singleton.1 hv ▸ hw
    · exact h.filed p v hv
  refine ⟨⟨(linked_relax N le_rfl _ (hpreds w) h.forest).link N hpos hw, fun p v hv => ?_⟩, hbucket _ _⟩
  simp only [Sweep.hang, getD_setIfInBounds] at hv
  split at hv
  · simp at hv
  · exact hbucket _ p v hv

lemma Held.step : Held n (w - 1) parent (step preds parent s w) := by
  obtain ⟨hheld, hfiled⟩ := h.hang N hpreds hpos hw
  obtain ⟨hlinked, hbucket⟩ := linked_settle N (p := parent w) _ hfiled hheld.forest
  exact ⟨hlinked, fun p v hv => hheld.filed p v (hbucket ▸ hv)⟩

end

omit N in
lemma mem_done (order : (range' 1 (n - 1)).reverse = done ++ todo) :
    v ∈ done ↔ n - 1 - done.length < v ∧ v < n := by
  have hlength := congrArg length order
  have hdone : done = (range' 1 (n - 1)).reverse.take done.length := by rw [order, take_left]
  rw [hdone, take_reverse, mem_reverse, drop_range', mem_range'_1]
  simp at hlength ⊢
  omega

omit N in
lemma eq_of_order (order : (range' 1 (n - 1)).reverse = done ++ w :: todo) :
    w = n - 1 - done.length ∧ 0 < w := by
  have hlength := congrArg length order
  have hget : (range' 1 (n - 1)).reverse[done.length]? = some w := by simp [order]
  simp at hlength
  rw [getElem?_reverse (by simp; omega), getElem?_range' (by simp; omega)] at hget
  simp at hget
  omega

lemma held_of_order (hpreds : ∀ w, ∀ v ∈ preds w, v < n) (order : (range' 1 (n - 1)).reverse = done ++ todo) :
    Held n (n - 1 - done.length) parent (done.foldl (step preds parent) (ofSize n)) := by
  induction done using reverseRecOn generalizing todo with
  | nil =>
    refine ⟨linked_ofSize, fun p v hv => ?_⟩
    simp only [foldl_nil, ofSize, Tables.getD_replicated, ite_self, not_mem_nil] at hv
  | append_singleton done w ih =>
    rw [append_assoc] at order
    obtain ⟨hw, hpos⟩ := eq_of_order order
    have hstep := (hw ▸ ih order).step N hpreds hpos (by omega)
    rw [foldl_append, length_append]
    exact (show w - 1 = n - 1 - (done.length + 1) by omega) ▸ hstep

lemma Passes.linked (hpreds : ∀ w, ∀ v ∈ preds w, v < n) {up : Nat → Option Nat} (h : Passes n preds parent f up) :
    ∃ k, Forest.Linked n k parent f ∧ ∀ v, up v = if k < v ∧ v < n then some (parent v) else none := by
  cases h with
  | start => exact ⟨n - 1, linked_ofSize, fun v => by rw [links, if_neg (by simp), if_neg (by omega)]⟩
  | @relaxing done todo before after w order split =>
    have hheld := held_of_order N hpreds order
    have hw := (eq_of_order order).1
    refine ⟨_, linked_relax N hw.le _ (fun v hv => hpreds w v ?_) hheld.forest, fun v => ?_⟩
    · rw [split]
      exact mem_append_left _ hv
    · simp only [links, mem_done order]
  | @settling done todo before after w order split =>
    obtain ⟨hw, hpos⟩ := eq_of_order order
    obtain ⟨hheld, hfiled⟩ := (hw ▸ held_of_order N hpreds order).hang N hpreds hpos (by omega)
    have horder : (range' 1 (n - 1)).reverse = (done ++ [w]) ++ todo := by rw [order, append_assoc]; rfl
    refine ⟨_, (linked_settle N before (fun v hv => hfiled v ?_) hheld.forest).1, fun v => ?_⟩
    · rw [split]
      exact mem_append_left _ hv
    · simp only [links, mem_done horder, length_append]
      rw [hw]
      rfl

end Sweep

/-! ## What a query answers -/

variable {n k : Nat} {E : Nat → Nat → Prop} {parent : Nat → Nat} {f g : Forest} {up : Nat → Option Nat} {u v : Nat}

section

variable (N : Numbered n E parent) (hup : ∀ v, up v = if k < v ∧ v < n then some (parent v) else none)
include N hup

lemma onPath_iff (hv : v < n) : OnPath up v u ↔ k < u ∧ Anc parent u v := by
  constructor
  · intro h
    induction h with
    | @here v a link =>
      rw [hup] at link
      split at link
      · next hk => exact ⟨hk.1, .refl v⟩
      · cases link
    | @above v a u link _ ih =>
      rw [hup] at link
      split at link
      · next hk =>
        cases link
        have hpos : 0 < v := by omega
        obtain ⟨hu, hanc⟩ := ih ((N.parent_lt v hpos hv).trans hv)
        exact ⟨hu, .up hpos hanc⟩
      · cases link
  · rintro ⟨hu, hanc⟩
    induction hanc with
    | refl => exact .here ((hup u).trans (if_pos ⟨hu, hv⟩))
    | @up v hpos hanc ih =>
      have hlt := N.parent_lt v hpos hv
      have hle := N.anc_le hanc (hlt.trans hv)
      exact .above ((hup v).trans (if_pos ⟨by omega, hv⟩)) (ih (hlt.trans hv))

lemma answers_of_linked
    (hf : Forest.Linked n k parent f) (hg : Forest.Linked n k parent g) (hsemi : g.semi = f.semi) (hv : v < n) :
    Answers f up v (g.eval v).1 := by
  obtain ⟨-, -, hroot, hbest⟩ := hg.eval N hv
  have hsemiOf : ∀ u, f.semiOf u = g.semiOf u := fun u => by simp only [Forest.semiOf, hsemi]
  rcases Nat.lt_or_ge k v with hk | hk
  · obtain ⟨a, ha, -⟩ := hf.hangs v hk hv
    refine ⟨fun hnone => ?_, fun _ => (onPath_iff N hup hv).2 ⟨(hbest hk).lt, (hbest hk).anc⟩, fun u hu => ?_⟩
    · rw [ha] at hnone
      cases hnone
    · obtain ⟨hku, hanc⟩ := (onPath_iff N hup hv).1 hu
      rw [hsemiOf, hsemiOf]
      exact (hbest hk).least u hku hanc
  · refine ⟨fun _ => hroot hk, fun hsome => ?_, fun u hu => ?_⟩
    · rw [hf.root v hk] at hsome
      cases hsome
    · obtain ⟨hku, hanc⟩ := (onPath_iff N hup hv).1 hu
      have := N.anc_le hanc hv
      omega

end

lemma eval_snd : (f.eval v).2 = f.compress v := by
  cases ha : f.above? v with
  | none =>
    rw [Forest.compress, Forest.path]
    simp [Forest.eval, ha]
  | some a => simp [Forest.eval, ha]

/-- The numbers of the predecessors of the block with a number. -/
def predsOf (body : Body) (entry : BlockId) (w : Nat) : List Nat :=
  (body.preds ((numbering body entry).vertexAt w)).filterMap (numbering body entry).number?

/-- In every state of the sweep over the numbers of a body, numbers hang under smaller ones, so that every way up ends.
A query gives the number of least semidominator on the path of the links as they were made. Shortening a way changes
no semidominator, and every query is answered as before. -/
theorem eval_least {body : Body} {entry : BlockId} (hentry : entry.index < body.blocks.size)
    (h : Sweep.Passes (numbering body entry).size (predsOf body entry) (numbering body entry).parentOf f up) :
    (∀ v a, f.above? v = some a → a < v) ∧ ∀ v < (numbering body entry).size, Answers f up v (f.eval v).1 ∧
      (f.compress v).semi = f.semi ∧
      ∀ u < (numbering body entry).size, Answers f up u ((f.compress v).eval u).1 := by
  have N := Numbering.numbered_ofVisits body.succs hentry
  have hpreds : ∀ w, ∀ v ∈ predsOf body entry w, v < (numbering body entry).size := by
    intro w v hv
    obtain ⟨b, -, hb⟩ := mem_filterMap.1 hv
    exact ((Numbering.number?_ofVisits body.succs hentry b v).1 hb).1
  obtain ⟨k, hlinked, hup⟩ := h.linked N hpreds
  refine ⟨fun v a ha => ?_, fun v hv => ?_⟩
  · have hv := hlinked.ancestor_size ▸ Forest.above?_lt_size ha
    rcases Nat.lt_or_ge k v with hk | hk
    · obtain ⟨a', ha', hlt, -⟩ := hlinked.hangs v hk hv
      exact Option.some.inj (ha'.symm.trans ha) ▸ hlt
    · rw [hlinked.root v hk] at ha
      cases ha
  · obtain ⟨hcompressed, hsemi, -⟩ := hlinked.eval N hv
    rw [eval_snd] at hcompressed hsemi
    exact ⟨answers_of_linked N hup hlinked hlinked rfl hv, hsemi,
      fun u hu => answers_of_linked N hup hlinked hcompressed hsemi hu⟩

/-- Four blocks in a row, of which the last leads back to the second. -/
def backRow : Body where
  args := #[]
  returnTy := .void
  blocks := #[{ succs := [⟨1⟩] }, { preds := [⟨0⟩, ⟨3⟩], succs := [⟨2⟩] }, { preds := [⟨1⟩], succs := [⟨3⟩] },
    { preds := [⟨2⟩], succs := [⟨1⟩] }]

/-- The forest when the second block looks at the last one, whose way up is then shortened. -/
def backRowForest : Forest :=
  [0].foldl (·.relax 1 ·) ([3, 2].foldl (Sweep.step (predsOf backRow ⟨0⟩) (numbering backRow ⟨0⟩).parentOf)
    (.ofSize (numbering backRow ⟨0⟩).size)).forest

theorem backRow_answers : ∃ up, Sweep.Passes (numbering backRow ⟨0⟩).size (predsOf backRow ⟨0⟩)
      (numbering backRow ⟨0⟩).parentOf backRowForest up ∧
    backRowForest.above? 3 = some 2 ∧ (backRowForest.compress 3).above? 3 = some 1 ∧ (backRowForest.eval 3).1 = 2 ∧
    Answers backRowForest up 3 (backRowForest.eval 3).1 := by
  have hpasses : Sweep.Passes _ _ _ backRowForest _ :=
    @Sweep.Passes.relaxing _ _ _ [3, 2] [] [0] [3] 1 (by cbv) (by cbv)
  obtain ⟨-, hall⟩ := eval_least (by decide) hpasses
  exact ⟨_, hpasses, by cbv, by cbv, by cbv, (hall 3 (by cbv)).1⟩

end MethodIR.Dominance
