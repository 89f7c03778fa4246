import MethodIR.DepthFirst
import MethodIR.Proofs.Paths

/-!
# What a depth-first walk does

A walk is described by the blocks that are open, innermost first, and those entered so far (`Run`).
Every fold over a walk is proved by induction on `Run`. A whole walk is a depth-first search of the blocks
that can be reached (`visits_isSearch`).
-/

namespace MethodIR.DepthFirst

open List FlowGraph DepthFirst

variable {succs succs' : BlockId → List BlockId} {capacity : Nat} {root a b c : BlockId}
  {opened seen unseen fewer xs ys : List BlockId} {steps visits before after : List Visit}

/-- The rest of a walk from `root` when the blocks of `opened` are open and those of `seen` have been
entered, the latest last. -/
inductive Run (succs : BlockId → List BlockId) (capacity : Nat) (root : BlockId) :
    List BlockId → List BlockId → List Visit → Prop
  | done (seen : List BlockId) : Run succs capacity root [] seen []
  | start {visits : List Visit} (inside : root.index < capacity)
      (rest : Run succs capacity root [root] [root] visits) :
      Run succs capacity root [] [] (.enter root :: visits)
  | enter {p b : BlockId} {opened seen : List BlockId} {visits : List Visit}
      (next : (succs p).find? (fun c => c.index < capacity ∧ c ∉ seen) = some b)
      (rest : Run succs capacity root (b :: p :: opened) (seen ++ [b]) visits) :
      Run succs capacity root (p :: opened) seen (.enter b :: visits)
  | exit {b : BlockId} {opened seen : List BlockId} {visits : List Visit}
      (closed : ∀ c ∈ succs b, c.index < capacity → c ∈ seen)
      (rest : Run succs capacity root opened seen visits) :
      Run succs capacity root (b :: opened) seen (.exit b :: visits)

/-- The steps that a walk still has before it: for each open block those successors that may not have
been entered, in order and perhaps with others, then its exit. -/
inductive Pending (succs : BlockId → List BlockId) (unseen : List BlockId) : List BlockId → List Visit → Prop
  | nil : Pending succs unseen [] []
  | cons {b : BlockId} {opened : List BlockId} {steps : List Visit} (next : List BlockId)
      (same : (succs b).filter (· ∈ unseen) = next.filter (· ∈ unseen))
      (rest : Pending succs unseen opened steps) :
      Pending succs unseen (b :: opened) (next.map .enter ++ .exit b :: steps)

lemma filter_fewer (hsub : ∀ c ∈ fewer, c ∈ unseen)
    (same : xs.filter (· ∈ unseen) = ys.filter (· ∈ unseen)) : xs.filter (· ∈ fewer) = ys.filter (· ∈ fewer) := by
  have htwice : ∀ zs : List BlockId, zs.filter (· ∈ fewer) = (zs.filter (· ∈ unseen)).filter (· ∈ fewer) := by
    intro zs
    rw [filter_filter]
    exact filter_congr fun c _ => by simpa using hsub c
  rw [htwice xs, same, ← htwice ys]

lemma Pending.mono (h : Pending succs unseen opened steps)
    (hsub : ∀ c ∈ fewer, c ∈ unseen) : Pending succs fewer opened steps := by
  induction h with
  | nil => exact .nil
  | cons next same _ ih => exact .cons next (filter_fewer hsub same) ih

lemma Pending.exit_inv (h : Pending succs unseen opened (.exit b :: steps)) :
    ∃ rest, opened = b :: rest ∧ (∀ c ∈ succs b, c ∉ unseen) ∧ Pending succs unseen rest steps := by
  generalize hs : Visit.exit b :: steps = all at h
  cases h with
  | nil => simp at hs
  | cons next same rest =>
    cases next with
    | nil =>
      simp only [map_nil, nil_append, cons.injEq, Visit.exit.injEq] at hs
      obtain ⟨rfl, rfl⟩ := hs
      exact ⟨_, rfl, by simpa using same, rest⟩
    | cons => simp at hs

lemma Pending.enter_inv (h : Pending succs unseen opened (.enter b :: steps)) :
    ∃ p rest, opened = p :: rest ∧ (b ∈ unseen → (succs p).find? (· ∈ unseen) = some b) ∧
      ∀ fewer, (∀ c ∈ fewer, c ∈ unseen ∧ c ≠ b) → Pending succs fewer opened steps := by
  generalize hs : Visit.enter b :: steps = all at h
  cases h with
  | nil => simp at hs
  | cons next same rest =>
    cases next with
    | nil => simp at hs
    | cons x next =>
      simp only [map_cons, cons_append, cons.injEq, Visit.enter.injEq] at hs
      obtain ⟨rfl, rfl⟩ := hs
      refine ⟨_, _, rfl, fun hb => ?_, fun fewer hf => .cons next ?_ (rest.mono fun c hc => (hf c hc).1)⟩
      · rw [← head?_filter, same]
        simp [hb]
      · have hb : b ∉ fewer := fun hb => (hf b hb).2 rfl
        rw [filter_fewer (fun c hc => (hf c hc).1) same, filter_cons_of_neg (by simpa using hb)]

lemma walk_run (h : Pending succs unseen opened steps) (hnodup : unseen.Nodup)
    (hunseen : ∀ c, c ∈ unseen ↔ c.index < capacity ∧ c ∉ seen) :
    Run succs capacity root opened seen (walk succs unseen steps) := by
  induction unseen, steps using walk.induct succs generalizing opened seen with
  | case1 unseen =>
    cases opened with
    | nil => simpa [walk] using Run.done seen
    | cons p opened => generalize hs : ([] : List Visit) = all at h; cases h; simp at hs
  | case2 unseen b steps ih =>
    obtain ⟨rest, rfl, closed, hrest⟩ := h.exit_inv
    rw [walk]
    refine .exit (fun c hc hin => ?_) (ih hrest hnodup hunseen)
    by_contra hseen
    exact closed c hc ((hunseen c).2 ⟨hin, hseen⟩)
  | case3 unseen b steps hb left =>
    rename_i ih
    obtain ⟨p, rest, rfl, next, hrest⟩ := h.enter_inv
    have hleft : ∀ c, c ∈ unseen.erase b ↔ c ∈ unseen ∧ c ≠ b := fun c => by
      rw [hnodup.mem_erase_iff, and_comm]
    rw [walk, if_pos hb]
    refine .enter (by simpa only [hunseen] using next hb) (ih ?_ (hnodup.erase b) ?_)
    · exact .cons _ (by simp [filter_filter]) (hrest _ fun c hc => (hleft c).1 hc)
    · intro c
      rw [hleft, hunseen, mem_append, mem_singleton, not_or, and_assoc]
  | case4 unseen b steps hb ih =>
    obtain ⟨p, rest, rfl, -, hrest⟩ := h.enter_inv
    rw [walk, if_neg hb]
    exact ih (hrest _ fun c hc => ⟨hc, fun h => hb (h ▸ hc)⟩) hnodup hunseen

lemma mem_below : b ∈ BlockId.below capacity ↔ b.index < capacity := by
  simp only [BlockId.below, mem_map, mem_range]
  constructor
  · rintro ⟨n, hn, rfl⟩
    exact hn
  · exact fun h => ⟨b.index, h, rfl⟩

lemma below_nodup : (BlockId.below capacity).Nodup := nodup_range.map fun _ _ h => BlockId.mk.inj h

lemma visits_run (inside : root.index < capacity) :
    Run succs capacity root [] [] (DepthFirst.visits capacity root succs) := by
  have hroot : root ∈ BlockId.below capacity := mem_below.2 inside
  have hleft : ∀ c, c ∈ (BlockId.below capacity).erase root ↔ c.index < capacity ∧ c ∉ [root] := by
    intro c
    rw [below_nodup.mem_erase_iff, mem_below, mem_singleton, and_comm]
  rw [DepthFirst.visits, walk, if_pos hroot]
  refine .start inside (walk_run ?_ (below_nodup.erase root) hleft)
  exact .cons _ (by simp [filter_filter]) .nil

lemma Run.fresh (next : (succs a).find? (fun c => c.index < capacity ∧ c ∉ seen) = some b) :
    b ∈ succs a ∧ b.index < capacity ∧ b ∉ seen :=
  ⟨mem_of_find?_eq_some next, by simpa using find?_some next⟩

/-! ## The blocks entered -/

def entered (visits : List Visit) : List BlockId := visits.filterMap Visit.entered?

@[simp] lemma entered_nil : entered [] = [] := rfl

@[simp] lemma entered_exit : entered (.exit b :: visits) = entered visits := rfl

@[simp] lemma entered_enter : entered (.enter b :: visits) = b :: entered visits := rfl

section

variable (h : Run succs capacity root opened seen visits)
include h

lemma Run.nodup (hseen : seen.Nodup) : (seen ++ entered visits).Nodup := by
  induction h with
  | done => simpa using hseen
  | start _ _ ih => simpa using ih (by simp)
  | @enter p b opened seen visits next _ ih =>
    have hsnoc : (seen ++ [b]).Nodup := by
      rw [nodup_append_comm]
      exact nodup_cons.2 ⟨(Run.fresh next).2.2, hseen⟩
    simpa using ih hsnoc
  | exit _ _ ih => exact ih hseen

lemma Run.entered_induction {motive : BlockId → Prop} (hroot : motive root)
    (hopened : ∀ b ∈ opened, motive b) (step : ∀ p b, motive p → b ∈ succs p → motive b) :
    ∀ b ∈ entered visits, motive b := by
  induction h with
  | done => simp
  | start _ _ ih => simpa [hroot] using ih
  | @enter p b opened _ _ next _ ih =>
    have hb : motive b := step p b (hopened p (by simp)) (Run.fresh next).1
    simpa [hb] using ih (by simpa [hb] using hopened)
  | exit _ _ ih => exact ih fun c hc => hopened c (by simp [hc])

lemma Run.closed (hseen : ∀ b ∈ seen, b ∈ opened ∨ ∀ c ∈ succs b, c.index < capacity → c ∈ seen) :
    ∀ b ∈ seen ++ entered visits, ∀ c ∈ succs b, c.index < capacity → c ∈ seen ++ entered visits := by
  induction h with
  | done seen => simpa using hseen
  | start _ _ ih => simpa using ih
  | @enter p b opened seen visits _ _ ih =>
    rw [entered_enter, ← singleton_append, ← append_assoc]
    refine ih fun d hd => ?_
    rcases mem_append.1 hd with hd | hd
    · refine (hseen d hd).imp (by simp_all) fun hall c hc hin => ?_
      exact mem_append_left _ (hall c hc hin)
    · exact .inl (by simp_all)
  | @exit b opened seen visits closed _ ih =>
    refine ih fun d hd => ?_
    rcases hseen d hd with h | h
    · rcases mem_cons.1 h with rfl | h
      · exact .inr closed
      · exact .inl h
    · exact .inr h

end

/-- The edge relation of a table of successors. -/
abbrev Edge (succs : BlockId → List BlockId) (a b : BlockId) : Prop := b ∈ succs a

lemma mem_entered_visits (inside : root.index < capacity)
    (hrange : ∀ a b, Reachable (Edge succs) root a → b ∈ succs a → b.index < capacity) :
    b ∈ entered (DepthFirst.visits capacity root succs) ↔ Reachable (Edge succs) root b := by
  have run : Run succs capacity root [] [] _ := visits_run inside
  constructor
  · exact run.entered_induction (motive := Reachable (Edge succs) root) .refl (by simp)
      (fun p b hp hb => hp.snoc hb) b
  · have hclosed := run.closed (by simp)
    have hroot : root ∈ entered (visits capacity root succs) := by
      rw [visits, walk, if_pos (mem_below.2 inside)]
      simp
    refine Reachable.induction (motive := fun x => x ∈ entered (visits capacity root succs)) hroot ?_
    intro b c hb edge hmem
    simpa using hclosed b (by simpa using hmem) c edge (hrange b c hb edge)

/-! ## The search -/

def exited (visits : List Visit) : List BlockId := visits.filterMap fun
  | .enter _ => none
  | .exit b => some b

/-- The blocks open after some steps, innermost first, if each block that is left is the innermost. -/
def openAfter : List BlockId → List Visit → Option (List BlockId)
  | opened, [] => some opened
  | opened, .enter b :: visits => openAfter (b :: opened) visits
  | [], .exit _ :: _ => none
  | b :: opened, .exit c :: visits => if b = c then openAfter opened visits else none

/-- The steps search what can be reached from `root`, depth first. A block is entered from the innermost
open one, as its first successor that has not been entered. -/
structure IsSearch (succs : BlockId → List BlockId) (root : BlockId) (visits : List Visit) : Prop where
  entered : (entered visits).Nodup ∧ ∀ b, b ∈ entered visits ↔ Reachable (Edge succs) root b
  exited : (exited visits).Nodup ∧ ∀ b, b ∈ exited visits ↔ Reachable (Edge succs) root b
  nested : openAfter [] visits = some []
  enter : ∀ before b after, visits = before ++ .enter b :: after → b ≠ root → ∃ p opened,
    openAfter [] before = some (p :: opened) ∧ (succs p).find? (· ∉ DepthFirst.entered before) = some b
  exit : ∀ before b after, visits = before ++ .exit b :: after → ∀ c ∈ succs b, c ∈ DepthFirst.entered before

section

variable (h : Run succs capacity root opened seen visits)
include h

lemma Run.nested : openAfter opened visits = some [] := by
  induction h with
  | done => rfl
  | start _ _ ih | enter _ _ ih => exact ih
  | exit _ _ ih => simpa [openAfter] using ih

lemma Run.exited_perm : exited visits ~ opened ++ entered visits := by
  induction h with
  | done => exact .refl _
  | start _ _ ih => exact ih
  | enter _ _ ih => exact ih.trans perm_middle.symm
  | exit _ _ ih => exact ih.cons _

end

lemma Run.split (h : Run succs capacity root opened seen (before ++ after))
    (hopened : ∀ b ∈ opened, b.index < capacity) : ∃ opened' seen', openAfter opened before = some opened' ∧
      seen' = seen ++ entered before ∧ (∀ b ∈ opened', b.index < capacity) ∧
        Run succs capacity root opened' seen' after := by
  induction before generalizing opened seen with
  | nil => exact ⟨opened, seen, rfl, by simp, hopened, h⟩
  | cons visit before ih =>
    cases h with
    | start inside rest => simpa [openAfter] using ih rest (by simpa using inside)
    | enter next rest => simpa [openAfter] using ih rest (forall_mem_cons.2 ⟨(Run.fresh next).2.1, hopened⟩)
    | exit _ rest => simpa [openAfter] using ih rest (forall_mem_cons.1 hopened).2

lemma walk_congr (h : ∀ b ∈ unseen, succs b = succs' b) : walk succs unseen steps = walk succs' unseen steps := by
  induction unseen, steps using walk.induct succs with
  | case1 => rw [walk, walk]
  | case2 unseen b steps ih => rw [walk, walk, ih h]
  | case3 unseen b steps hb left =>
    rename_i ih
    rw [walk, walk, if_pos hb, if_pos hb, ← h b hb]
    exact congrArg _ (ih fun c hc => h c (mem_of_mem_erase hc))
  | case4 unseen b steps hb ih => rw [walk, walk, if_neg hb, if_neg hb, ih h]

/-- A walk over a graph of the blocks below `capacity` is a depth-first search, and it does not fail over a
table that holds the graph. -/
theorem visits_isSearch (inside : root.index < capacity)
    (hrange : ∀ a, a.index < capacity → ∀ b ∈ succs a, b.index < capacity) :
    IsSearch succs root (DepthFirst.visits capacity root succs) ∧
      ∀ edges : Array (List BlockId), (∀ b, b.index < capacity → edges[b.index]? = some (succs b)) →
        visitsOfTable capacity root edges = .ok (DepthFirst.visits capacity root succs) := by
  have run : Run succs capacity root [] [] (visits capacity root succs) := visits_run inside
  have hreach : ∀ b, Reachable (Edge succs) root b → b.index < capacity := fun b =>
    Reachable.induction (motive := fun b => b.index < capacity) inside fun a c _ edge ha => hrange a ha c edge
  have hmem := fun b => mem_entered_visits (b := b) inside fun a c ha => hrange a (hreach a ha) c
  have hperm := run.exited_perm
  have hnodup := run.nodup .nil
  refine ⟨⟨⟨hnodup, hmem⟩, ⟨hperm.nodup_iff.2 hnodup, fun b => hperm.mem_iff.trans (hmem b)⟩, run.nested, ?_, ?_⟩, ?_⟩
  · intro before b after hvisits hb
    obtain ⟨opened, seen, hopened, hseen, hinside, hrest⟩ := (hvisits ▸ run).split (by simp)
    cases hrest with
    | start => exact absurd rfl hb
    | @enter p _ opened _ _ next =>
      refine ⟨p, opened, hopened, ?_⟩
      rw [← head?_filter] at next ⊢
      rw [← next, filter_congr fun c hc => ?_]
      have hc := hrange p (hinside p mem_cons_self) c hc
      simp [hc, hseen]
  · intro before b after hvisits c hc
    obtain ⟨opened, seen, -, hseen, hinside, hrest⟩ := (hvisits ▸ run).split (by simp)
    cases hrest with
    | exit closed => simpa [hseen] using closed c hc (hrange b (hinside b mem_cons_self) c hc)
  · intro edges hedges
    have hwalk : visits capacity root (fun b => edges.getD b.index []) =
        visits capacity root succs :=
      walk_congr fun b hb => by simp [Array.getD_eq_getD_getElem?, hedges b (mem_below.1 hb)]
    rw [visitsOfTable, hwalk, if_pos]
    refine Bool.and_eq_true_iff.2 ⟨decide_eq_true inside, all_eq_true.2 fun b hb => ?_⟩
    have hb := hreach b ((hmem b).1 hb)
    simpa [hedges b hb] using hrange b hb

/-- Blocks 1 and 2 are still to be entered from block 0 when they are entered from elsewhere. -/
theorem staleEntries_isSearch : let edges : Array (List BlockId) := #[[⟨1⟩, ⟨2⟩, ⟨1⟩], [⟨2⟩, ⟨0⟩], [⟨2⟩]]
    let succs : BlockId → List BlockId := fun b => edges.getD b.index []
    (∀ a : BlockId, a.index < 3 → ∀ b ∈ succs a, b.index < 3) ∧ IsSearch succs ⟨0⟩ (DepthFirst.visits 3 ⟨0⟩ succs) ∧
      visitsOfTable 3 ⟨0⟩ edges = .ok (DepthFirst.visits 3 ⟨0⟩ succs) := by
  intro edges succs
  have hrange : ∀ a : BlockId, a.index < 3 → ∀ b ∈ succs a, b.index < 3 := by
    rintro ⟨a⟩ ha
    interval_cases a <;> decide
  have inside : (⟨0⟩ : BlockId).index < 3 := by decide
  have h := visits_isSearch inside hrange
  refine ⟨hrange, h.1, h.2 edges ?_⟩
  rintro ⟨a⟩ ha
  interval_cases a <;> rfl

end MethodIR.DepthFirst
