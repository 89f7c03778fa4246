import MethodIR.Dominance.Numbering
import MethodIR.Proofs.DepthFirst
import MethodIR.Proofs.Semidominators
import MethodIR.Proofs.Tables

/-!
# Depth-first numbers

The numbers of a depth-first walk have what the computation of dominators needs (`numbered_ofVisits`):
an edge to a larger number leads to a descendant, and descendants follow without a gap.
-/

namespace MethodIR.Dominance.Numbering

open List FlowGraph DepthFirst Tables

variable {succs : BlockId → List BlockId} {capacity w : Nat} {root b p : BlockId} {opened seen : List BlockId}
  {visits : List Visit} {num : Numbering} {path rest : List Nat}

/-! ## Tables along a walk -/

lemma foldl_vertexAt (visits : List Visit) (num : Numbering) (path : List Nat)
    (hw : w < num.vertex.size) : (visits.foldl step (num, path)).1.vertexAt w = num.vertexAt w := by
  induction visits generalizing num path with
  | nil => rfl
  | cons visit visits ih =>
    cases visit with
    | enter b =>
      rw [foldl_cons, step, ih _ _ (by simp; omega)]
      simp only [vertexAt, getD_push]
      rw [if_neg (by omega)]
    | exit b => exact ih _ _ hw

lemma foldl_parentOf (visits : List Visit) (num : Numbering) (path : List Nat)
    (hw : w < num.parent.size) : (visits.foldl step (num, path)).1.parentOf w = num.parentOf w := by
  induction visits generalizing num path with
  | nil => rfl
  | cons visit visits ih =>
    cases visit with
    | enter b =>
      rw [foldl_cons, step, ih _ _ (by simp; omega)]
      simp only [parentOf, getD_push]
      rw [if_neg (by omega)]
    | exit b => exact ih _ _ hw

/-- `vertex` and `parent` are the tables of a walk that goes on with `visits` after `n` blocks, when
the blocks with the numbers of `path` are open. -/
def Labels (vertex : Nat → BlockId) (parent : Nat → Nat) : List Nat → Nat → List Visit → Prop
  | _, _, [] => True
  | path, n, .enter b :: visits =>
    vertex n = b ∧ parent n = path.headD 0 ∧ Labels vertex parent (n :: path) (n + 1) visits
  | path, n, .exit _ :: visits => Labels vertex parent path.tail n visits

lemma labels_foldl (visits : List Visit) (num : Numbering) (path : List Nat)
    (hsize : num.parent.size = num.vertex.size) :
    Labels (visits.foldl step (num, path)).1.vertexAt (visits.foldl step (num, path)).1.parentOf
      path num.vertex.size visits := by
  induction visits generalizing num path with
  | nil => trivial
  | cons visit visits ih =>
    cases visit with
    | enter b =>
      rw [foldl_cons, step]
      refine ⟨?_, ?_, ?_⟩
      · rw [foldl_vertexAt _ _ _ (by simp)]
        simp [vertexAt]
      · rw [foldl_parentOf _ _ _ (by simp [hsize]), parentOf, getD_push, if_pos hsize.symm]
      · have := ih ⟨num.number.setIfInBounds b.index (some num.vertex.size), num.vertex.push b,
          num.parent.push (path.headD 0)⟩ (num.vertex.size :: path) (by simp [hsize])
        rwa [Array.size_push] at this
    | exit b => exact ih num path.tail hsize

lemma Run.number?_foldl (run : Run succs capacity root opened seen visits) (num : Numbering)
    (path : List Nat) (hvertex : num.vertex.toList = seen) (hsize : num.number.size = capacity)
    (hnumber : ∀ b k, num.number? b = some k ↔ seen[k]? = some b) :
    (visits.foldl step (num, path)).1.vertex.toList = seen ++ entered visits ∧
      ∀ b k, (visits.foldl step (num, path)).1.number? b = some k ↔ (seen ++ entered visits)[k]? = some b := by
  -- What entering a block that is new does to the two tables.
  have hstep : ∀ (num : Numbering) (seen : List BlockId) (b : BlockId), b ∉ seen →
      b.index < capacity → num.vertex.toList = seen → num.number.size = capacity →
      (∀ c k, num.number? c = some k ↔ seen[k]? = some c) →
      ∀ c k, (num.number.setIfInBounds b.index (some num.vertex.size)).getD c.index none = some k ↔
        (seen ++ [b])[k]? = some c := by
    intro num seen b fresh inside hvertex hsize hnumber c k
    have hlen : num.vertex.size = seen.length := by rw [← hvertex, Array.length_toList]
    rw [getD_setIfInBounds, hsize, getElem?_append]
    by_cases hc : b.index = c.index
    · obtain rfl : b = c := by
        cases b; cases c; simpa using hc
      rw [if_pos ⟨rfl, inside⟩, hlen]
      by_cases hk : k < seen.length
      · rw [if_pos hk]
        refine ⟨fun h => ?_, fun h => absurd (mem_of_getElem? h) fresh⟩
        have := Option.some.inj h
        omega
      · rw [if_neg hk, getElem?_singleton]
        by_cases hk' : k = seen.length
        · simp [hk']
        · rw [if_neg (by omega)]
          simpa using Ne.symm hk'
    · rw [if_neg fun h => hc h.1]
      have hold := hnumber c k
      rw [number?] at hold
      rw [hold]
      by_cases hk : k < seen.length
      · rw [if_pos hk]
      · rw [if_neg hk, getElem?_eq_none (by omega), getElem?_singleton]
        by_cases hk' : k - seen.length = 0
        · simp only [if_pos hk', Option.some.injEq, reduceCtorEq, false_iff]
          exact fun h => hc (h ▸ rfl)
        · simp [hk']
  induction run generalizing num path with
  | done => simpa using ⟨hvertex, hnumber⟩
  | start inside _ ih =>
    have h := ih ⟨num.number.setIfInBounds root.index (some num.vertex.size),
      num.vertex.push root, num.parent.push (path.headD 0)⟩ (num.vertex.size :: path)
      (by simp [hvertex]) (by simp [hsize]) (hstep num [] root (by simp) inside hvertex hsize hnumber)
    simpa [step] using h
  | @enter p b opened seen visits next _ ih =>
    obtain ⟨-, inside, fresh⟩ := Run.fresh next
    have h := ih ⟨num.number.setIfInBounds b.index (some num.vertex.size),
      num.vertex.push b, num.parent.push (path.headD 0)⟩ (num.vertex.size :: path)
      (by simp [hvertex]) (by simp [hsize]) (hstep num seen b fresh inside hvertex hsize hnumber)
    simpa [step] using h
  | exit _ _ ih => exact ih _ _ hvertex hsize hnumber

/-! ## The tree of a walk -/

/-- The numbers of open blocks, innermost first: each is followed by its parent, down to the root. -/
inductive OpenPath (parent : Nat → Nat) : List Nat → Prop
  | root : OpenPath parent [0]
  | cons {h p : Nat} {rest : List Nat} (pos : 0 < h) (eq : parent h = p)
      (tail : OpenPath parent (p :: rest)) : OpenPath parent (h :: p :: rest)

lemma OpenPath.mem_iff {parent : Nat → Nat} {h : Nat}
    (hp : OpenPath parent (h :: rest)) (u : Nat) : u ∈ h :: rest ↔ Anc parent u h := by
  generalize hpath : h :: rest = path at hp
  induction hp generalizing h rest with
  | root =>
    obtain ⟨rfl, rfl⟩ := cons.inj hpath
    refine ⟨fun hu => ?_, fun hu => ?_⟩
    · obtain rfl := mem_singleton.1 hu
      exact .refl 0
    · cases hu with
      | refl => simp
      | up pos => omega
  | @cons h' p rest' pos eq tail ih =>
    obtain ⟨rfl, rfl⟩ := cons.inj hpath
    rw [mem_cons, ih rfl]
    constructor
    · rintro (rfl | hu)
      · exact .refl u
      · exact .up pos (eq ▸ hu)
    · intro hu
      cases hu with
      | refl => exact .inl rfl
      | up _ hu => exact .inr (eq ▸ hu)

structure TreeInv (succs : BlockId → List BlockId) (capacity : Nat) (vertex : Nat → BlockId)
    (parent : Nat → Nat) (opened seen : List BlockId) (path : List Nat) (n : Nat) : Prop where
  seen_eq : seen = (range n).map vertex
  opened_eq : opened = path.map vertex
  path_lt : ∀ u ∈ path, u < n
  chain : path = [] ∨ OpenPath parent path
  parent_lt : ∀ w, 0 < w → w < n → parent w < w
  parent_edge : ∀ w, 0 < w → w < n → vertex w ∈ succs (vertex (parent w))
  /-- Everything entered since an open block was entered is below it. -/
  below_open : ∀ u ∈ path, ∀ v < n, u ≤ v → Anc parent u v
  closed : ∀ u < n, u ∉ path → (∀ c ∈ succs (vertex u), c.index < capacity → c ∈ seen) ∧
    ∀ v < n, u < v → vertex v ∈ succs (vertex u) → Anc parent u v
  interval : ∀ u x y, u ≤ x → x ≤ y → y < n → Anc parent u y → Anc parent u x

variable {vertex : Nat → BlockId} {parent : Nat → Nat} {n : Nat}

lemma TreeInv.enter (edge : b ∈ succs p) (inside : b.index < capacity)
    (fresh : b ∉ seen) (h : TreeInv succs capacity vertex parent (p :: opened) seen path n)
    (hvertex : vertex n = b) (hparent : parent n = path.headD 0) :
    TreeInv succs capacity vertex parent (b :: p :: opened) (seen ++ [b]) (n :: path) (n + 1) := by
  obtain ⟨m, rest, rfl⟩ : ∃ m rest, path = m :: rest := by
    cases path with
    | nil => simpa using h.opened_eq
    | cons m rest => exact ⟨m, rest, rfl⟩
  obtain ⟨rfl, hopened⟩ := cons.inj (h.opened_eq)
  have hm : m < n := h.path_lt m (by simp)
  have hmem := (h.chain.resolve_left (by simp)).mem_iff
  rw [headD_cons] at hparent
  have hup : ∀ u, Anc parent u n → u = n ∨ u ∈ m :: rest := by
    intro u hu
    cases hu with
    | refl => exact .inl rfl
    | up _ hu => exact .inr ((hmem u).2 (hparent ▸ hu))
  refine ⟨?_, ?_, ?_, ?_, ?_, ?_, ?_, ?_, ?_⟩
  · rw [range_succ, map_append, ← h.seen_eq, map_singleton, hvertex]
  · simp [hvertex, hopened]
  · intro u hu
    rcases mem_cons.1 hu with rfl | hu
    · omega
    · have := h.path_lt u hu
      omega
  · exact .inr (.cons (by omega) hparent (h.chain.resolve_left (by simp)))
  · intro w hw hwn
    by_cases hwn' : w = n
    · rw [hwn', hparent]
      exact hm
    · exact h.parent_lt w hw (by omega)
  · intro w hw hwn
    by_cases hwn' : w = n
    · rw [hwn', hparent, hvertex]
      exact edge
    · exact h.parent_edge w hw (by omega)
  · intro u hu v hv huv
    by_cases hvn : v = n
    · subst hvn
      rcases mem_cons.1 hu with rfl | hu
      · exact .refl u
      · exact .up (by omega) (hparent ▸ (hmem u).1 hu)
    · rcases mem_cons.1 hu with rfl | hu
      · omega
      · exact h.below_open u hu v (by omega) huv
  · intro u hu hnot
    simp only [mem_cons, not_or] at hnot
    obtain ⟨hall, hfwd⟩ := h.closed u (by omega) (by simpa using hnot.2)
    refine ⟨fun c hc hin => mem_append_left _ (hall c hc hin), fun v hv huv hvu => ?_⟩
    by_cases hvn : v = n
    · rw [hvn, hvertex] at hvu
      exact absurd (hall b hvu inside) fresh
    · exact hfwd v (by omega) huv hvu
  · intro u x y hux hxy hy huy
    by_cases hyn : y = n
    · by_cases hxn : x = n
      · rwa [hxn, ← hyn]
      · rcases hup u (hyn ▸ huy) with hu | hu
        · omega
        · exact h.below_open u hu x (by omega) hux
    · exact h.interval u x y hux hxy (by omega) huy

lemma TreeInv.exit (closed : ∀ c ∈ succs b, c.index < capacity → c ∈ seen)
    (h : TreeInv succs capacity vertex parent (b :: opened) seen path n) :
    TreeInv succs capacity vertex parent opened seen path.tail n := by
  obtain ⟨m, rest, rfl⟩ : ∃ m rest, path = m :: rest := by
    cases path with
    | nil => simpa using h.opened_eq
    | cons m rest => exact ⟨m, rest, rfl⟩
  obtain ⟨rfl, hopened⟩ := cons.inj (h.opened_eq)
  refine ⟨h.seen_eq, hopened, fun u hu => h.path_lt u (by simp_all), ?_, h.parent_lt, h.parent_edge,
    fun u hu => h.below_open u (by simp_all), fun u hu hnot => ?_, h.interval⟩
  · cases h.chain.resolve_left (by simp) with
    | root => exact .inl rfl
    | cons _ _ tail => exact .inr tail
  · by_cases hum : u = m
    · subst hum
      exact ⟨closed, fun v hv huv _ => h.below_open u (by simp) v hv huv.le⟩
    · exact h.closed u hu (by simp_all)

lemma Run.treeInv (run : Run succs capacity root opened seen visits) (hlabels : Labels vertex parent path n visits)
    (h : TreeInv succs capacity vertex parent opened seen path n) :
    ∃ n, TreeInv succs capacity vertex parent [] (seen ++ entered visits) [] n := by
  induction run generalizing path n with
  | done seen =>
    have hpath : path = [] := by simpa using h.opened_eq
    exact ⟨n, by simpa [hpath] using h⟩
  | @start visits inside _ ih =>
    obtain ⟨hvertex, hparent, hlabels⟩ := hlabels
    have hpath : path = [] := by simpa using h.opened_eq
    have hn : n = 0 := by simpa using congrArg length h.seen_eq.symm
    subst hpath hn
    refine ih hlabels ⟨by simp [hvertex], by simp [hvertex], by simp, .inr .root, ?_, ?_, ?_, ?_, ?_⟩
    · intro w hw hwn
      omega
    · intro w hw hwn
      omega
    · intro u hu v hv _
      obtain rfl : u = v := by simp at hu; omega
      exact .refl u
    · intro u hu hnot
      simp at hnot
      omega
    · intro u x y hux hxy hy _
      obtain rfl : u = x := by omega
      exact .refl u
  | enter next _ ih =>
    obtain ⟨edge, inside, fresh⟩ := Run.fresh next
    obtain ⟨hvertex, hparent, hlabels⟩ := hlabels
    simpa using ih hlabels (h.enter edge inside fresh hvertex hparent)
  | exit closed _ ih => exact ih hlabels (h.exit closed)

/-! ## The numbers of a whole walk -/

def NumberEdge (succs : BlockId → List BlockId) (num : Numbering) (u v : Nat) : Prop :=
  u < num.size ∧ v < num.size ∧ num.vertexAt v ∈ succs (num.vertexAt u)

section

variable (succs) (inside : root.index < capacity)

include inside

lemma vertex_ofVisits : (ofVisits capacity (DepthFirst.visits capacity root succs)).vertex.toList =
      entered (DepthFirst.visits capacity root succs) := by
  have run : Run succs capacity root [] [] (DepthFirst.visits capacity root succs) := visits_run inside
  refine (Run.number?_foldl run { number := Array.replicate capacity none } [] rfl (by simp) fun b k => ?_).1
  rw [number?, getD_replicated]
  simp

lemma number?_ofVisits (b : BlockId) (k : Nat) :
    (ofVisits capacity (DepthFirst.visits capacity root succs)).number? b = some k ↔
      k < (ofVisits capacity (DepthFirst.visits capacity root succs)).size ∧
        (ofVisits capacity (DepthFirst.visits capacity root succs)).vertexAt k = b := by
  have hvertex := vertex_ofVisits succs inside
  have run : Run succs capacity root [] [] (visits capacity root succs) := visits_run inside
  have h := (Run.number?_foldl run { number := Array.replicate capacity none } [] rfl (by simp)
    fun b k => by rw [number?, getD_replicated]; simp).2 b k
  rw [ofVisits, h]
  rw [ofVisits] at hvertex
  rw [nil_append, ← hvertex, Array.getElem?_toList, size, vertexAt, Array.getD_eq_getD_getElem?]
  generalize (foldl step _ _).1.vertex = vs
  by_cases hk : k < vs.size
  · simp [hk]
  · simp [hk]

lemma vertexAt_zero : (ofVisits capacity (DepthFirst.visits capacity root succs)).vertexAt 0 = root := by
  rw [ofVisits, DepthFirst.visits, walk, if_pos (mem_below.2 inside), foldl_cons, step,
    foldl_vertexAt _ _ _ (by simp)]
  simp [vertexAt]

lemma numbered_ofVisits : Numbered (ofVisits capacity (DepthFirst.visits capacity root succs)).size
      (NumberEdge succs (ofVisits capacity (DepthFirst.visits capacity root succs)))
      (ofVisits capacity (DepthFirst.visits capacity root succs)).parentOf := by
  have hvertex := vertex_ofVisits succs inside
  have run : Run succs capacity root [] [] (visits capacity root succs) := visits_run inside
  have hlabels := labels_foldl (visits capacity root succs)
    { number := Array.replicate capacity none } [] rfl
  obtain ⟨n, h⟩ := Run.treeInv run hlabels
    ⟨rfl, rfl, by simp, .inl rfl, by simp, by simp, by simp, by simp, by simp⟩
  have hn : n = (ofVisits capacity (visits capacity root succs)).size := by
    have := congrArg length h.seen_eq
    rw [nil_append, ← hvertex, Array.length_toList, length_map, length_range] at this
    exact this.symm
  subst hn
  refine ⟨fun u v e => ⟨e.1, e.2.1⟩, h.parent_lt, fun w hw hwn => ?_, fun u v e huv => ?_, h.interval⟩
  · exact ⟨(h.parent_lt w hw hwn).trans hwn, hwn, h.parent_edge w hw hwn⟩
  · exact (h.closed u e.1 (by simp)).2 v e.2.1 huv e.2.2

section

variable (hrange : ∀ a b, Reachable (Edge succs) root a → b ∈ succs a → b.index < capacity)
include hrange

lemma exists_number_iff (b : BlockId) :
    (∃ k, (ofVisits capacity (DepthFirst.visits capacity root succs)).number? b = some k) ↔
      Reachable (Edge succs) root b := by
  rw [← mem_entered_visits inside hrange, ← vertex_ofVisits succs inside, Array.mem_toList_iff,
    Array.mem_iff_getElem?]
  refine exists_congr fun k => ?_
  rw [number?_ofVisits succs inside, size, vertexAt, Array.getD_eq_getD_getElem?]
  generalize (ofVisits _ _).vertex = vs
  by_cases hk : k < vs.size
  · simp [hk]
  · simp [hk]

lemma size_pos : 0 < (ofVisits capacity (DepthFirst.visits capacity root succs)).size := by
  obtain ⟨k, hk⟩ := (exists_number_iff succs inside hrange root).2 .refl
  have := ((number?_ofVisits succs inside root k).1 hk).1
  omega

end

end

end MethodIR.Dominance.Numbering
