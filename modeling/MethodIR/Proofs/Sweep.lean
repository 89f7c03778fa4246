import MethodIR.Dominance.Immediate
import MethodIR.Proofs.Forest

/-!
# The sweep over depth-first numbers

Going down from the largest number, the sweep finds semidominators and files each number under its own
(`Settled`). The last pass turns that into immediate dominators.
-/

namespace MethodIR.Dominance.Sweep

open List FlowGraph Tables Forest

variable {n k : Nat} {E : Nat → Nat → Prop} {parent : Nat → Nat} {preds : Nat → List Nat}
  {f : Forest} {s : Sweep} {d p u v w x : Nat}

/-- What the sweep knows of a number `v` that has been taken out of its bucket: `d` is its
semidominator and its dominator, or `d` has the same dominator. -/
def Settled (E : Nat → Nat → Prop) (parent : Nat → Nat) (v d : Nat) : Prop := ∃ t, IsSemi E t v ∧
    ((d = t ∧ ∀ y, t < y → Anc parent y v → ∀ x, Semipath E x y → t ≤ x) ∨
      (t < d ∧ d < v ∧ Anc parent d v ∧ ∃ t', IsSemi E t' d ∧
        ∀ y, t < y → Anc parent y v → ∀ x, Semipath E x y → t' ≤ x))

structure Inv (n k : Nat) (E : Nat → Nat → Prop) (parent : Nat → Nat) (s : Sweep) : Prop where
  forest : Linked n k parent s.forest
  idom_size : s.idom.size = n
  bucket_size : s.bucket.size = n
  done : ∀ v, k < v → v < n → IsSemi E (s.forest.semiOf v) v
  todo : ∀ v ≤ k, v < n → s.forest.semiOf v = v
  filed : ∀ p v, v ∈ s.bucket.getD p [] → k < v ∧ v < n ∧ s.forest.semiOf v = p
  /-- A bucket holds no descendants of children that are done. -/
  waiting : ∀ p v, v ∈ s.bucket.getD p [] → ∀ c, k < c → parent c = p → ¬Anc parent c v
  settled : ∀ v, k < v → v < n → v ∉ s.bucket.getD (s.forest.semiOf v) [] → Settled E parent v (s.idom.getD v 0)

lemma linked_ofSize : Linked n (n - 1) parent (.ofSize n) := by
  refine ⟨by simp [Forest.ofSize], by simp [Forest.ofSize], by simp [Forest.ofSize], fun v _ => ?_,
    fun v _ hv => ?_, fun v hk hv => ?_⟩
  · simp only [Forest.ofSize, Forest.above?, getD_replicated, ite_self]
  · simp [Forest.ofSize, Forest.labelOf, hv]
  · omega

lemma inv_ofSize (hn : 0 < n) : Inv n (n - 1) E parent (ofSize n) := by
  have hsemi : ∀ v < n, (Forest.ofSize n).semiOf v = v := fun v hv => by
    simp [Forest.ofSize, Forest.semiOf, hv]
  refine ⟨linked_ofSize, ?_, ?_, ?_, ?_, ?_, ?_, ?_⟩
  · simp [ofSize]
  · simp [ofSize]
  · intro v hk hv
    omega
  · exact fun v _ hv => hsemi v hv
  · intro p v hv
    simp only [ofSize, getD_replicated, ite_self, not_mem_nil] at hv
  · intro p v hv
    simp only [ofSize, getD_replicated, ite_self, not_mem_nil] at hv
  · intro v hk hv
    omega

/-! ## Semidominators -/

lemma isSemi_relax_all (N : Numbered n E parent) (h : Linked n w parent f) (hpos : 0 < w)
    (hw : w < n) (hpreds : ∀ v, v ∈ preds w ↔ E v w) (hdone : ∀ v, w < v → v < n → IsSemi E (f.semiOf v) v)
    (htodo : ∀ v ≤ w, v < n → f.semiOf v = v) : IsSemi E (((preds w).foldl (·.relax w ·) f).semiOf w) w := by
  have hbound : ∀ v ∈ preds w, v < n := fun v hv => (N.bound v w ((hpreds v).1 hv)).1
  obtain ⟨-, -, hle, hval, hleast⟩ := h.relax_all N hw (fun u hu => htodo u hu.le (by omega)) (preds w) hbound
  generalize ((preds w).foldl (·.relax w ·) f).semiOf w = t at hle hval hleast
  rw [htodo w le_rfl hw] at hle hval
  have hparent : t ≤ parent w :=
    hleast (parent w) ((hpreds _).2 (N.parent_edge w hpos hw)) _ (.inl ⟨N.parent_lt w hpos hw, rfl⟩)
  have hlt := N.parent_lt w hpos hw
  constructor
  · obtain ⟨v, hv, ⟨-, rfl⟩ | ⟨-, u, hu, huv, rfl⟩⟩ := hval.resolve_left (by omega)
    · exact ⟨w, (hpreds t).1 hv, .refl⟩
    · have edge := (hpreds v).1 hv
      have hun : u < n := lt_of_le_of_lt (N.anc_le huv (hbound v hv)) (hbound v hv)
      exact N.semipath_of_anc edge hu huv (hdone u hu hun).1
  · intro x hx
    rcases N.semipath_cases hx with edge | ⟨v, u, edge, hu, huv, hxu⟩
    · rcases Nat.lt_or_ge x w with hxw | hxw
      · exact hleast x ((hpreds x).2 edge) x (.inl ⟨hxw, rfl⟩)
      · omega
    · have hv := (N.bound v w edge).1
      have huv' := N.anc_le huv hv
      have := hleast v ((hpreds v).2 edge) _ (.inr ⟨by omega, u, hu, huv, rfl⟩)
      exact this.trans ((hdone u hu (by omega)).2 x hxu)

/-! ## Buckets -/

section

variable (N : Numbered n E parent)
include N

lemma settled_eval (h : Linked n k parent f) (hkv : k < v) (hv : v < n)
    (hdone : ∀ u, k < u → u < n → IsSemi E (f.semiOf u) u) (hp : f.semiOf v = p) (hpk : p ≤ k)
    (hgap : ∀ u, p < u → Anc parent u v → k < u) : Settled E parent v
      (if f.semiOf (f.eval v).1 < f.semiOf v then (f.eval v).1 else p) := by
  obtain ⟨-, -, -, hbest⟩ := h.eval N hv
  have hbest := hbest hkv
  have hleast : ∀ y, p < y → Anc parent y v → ∀ x, Semipath E x y → f.semiOf (f.eval v).1 ≤ x := by
    intro y hy hyv x hx
    have hky := hgap y hy hyv
    have hyn : y < n := lt_of_le_of_lt (N.anc_le hyv hv) hv
    exact (hbest.least y hky hyv).trans ((hdone y hky hyn).2 x hx)
  have hle := N.anc_le hbest.anc hv
  have hlt := hbest.lt
  refine ⟨p, hp ▸ hdone v hkv hv, ?_⟩
  split
  · rename_i hsmall
    have hne : (f.eval v).1 ≠ v := fun heq => by rw [heq] at hsmall; omega
    exact .inr ⟨by omega, by omega, hbest.anc, _, hdone _ hlt (by omega), hleast⟩
  · rename_i hge
    refine .inl ⟨rfl, fun y hy hyv x hx => ?_⟩
    have := hleast y hy hyv x hx
    omega

lemma settle_all (h : Linked n k parent s.forest)
    (hsize : s.idom.size = n) (hdone : ∀ u, k < u → u < n → IsSemi E (s.forest.semiOf u) u)
    (hpk : p ≤ k) (filed : List Nat) (hfiled : ∀ v ∈ filed, k < v ∧ v < n ∧ s.forest.semiOf v = p ∧
      ∀ u, p < u → Anc parent u v → k < u) : Linked n k parent (filed.foldl (settle p) s).forest ∧
      (filed.foldl (settle p) s).forest.semi = s.forest.semi ∧
      (filed.foldl (settle p) s).idom.size = n ∧ (filed.foldl (settle p) s).bucket = s.bucket ∧
      (∀ v ∈ filed, Settled E parent v ((filed.foldl (settle p) s).idom.getD v 0)) ∧
      ∀ v ∉ filed, (filed.foldl (settle p) s).idom.getD v 0 = s.idom.getD v 0 := by
  induction filed generalizing s with
  | nil => simpa using ⟨h, hsize⟩
  | cons v filed ih =>
    obtain ⟨hkv, hv, hp, hgap⟩ := hfiled v (by simp)
    obtain ⟨hlinked, hsemi, -, -⟩ := h.eval N hv
    have hsemiOf : ∀ u, (s.forest.eval v).2.semiOf u = s.forest.semiOf u := fun u => by
      simp only [Forest.semiOf, hsemi]
    have hval := settled_eval N h hkv hv hdone hp hpk hgap
    let s' := settle p s v
    have hidom : ∀ x, s'.idom.getD x 0 =
        if v = x then (if s.forest.semiOf (s.forest.eval v).1 < s.forest.semiOf v
          then (s.forest.eval v).1 else p) else s.idom.getD x 0 := by
      intro x
      simp only [s', settle, hsemiOf, getD_setIfInBounds, hsize]
      by_cases hx : v = x
      · simp [hx, hx ▸ hv]
      · simp [hx]
    have hdone' : ∀ u, k < u → u < n → IsSemi E (s'.forest.semiOf u) u := fun u hu hun => by
      simpa only [s', settle, hsemiOf] using hdone u hu hun
    obtain ⟨h1, h2, h3, h4, h5, h6⟩ := ih (s := s') hlinked (by simp [s', settle, hsize]) hdone'
      fun u hu => by simpa only [s', settle, hsemiOf] using hfiled u (by simp [hu])
    refine ⟨h1, h2.trans hsemi, h3, h4, fun u hu => ?_, fun u hu => ?_⟩
    · by_cases huf : u ∈ filed
      · exact h5 u huf
      · obtain rfl : u = v := (mem_cons.1 hu).resolve_right huf
        rw [foldl_cons, h6 u huf, hidom, if_pos rfl]
        exact hval
    · simp only [mem_cons, not_or] at hu
      rw [foldl_cons, h6 u hu.2, hidom, if_neg fun h => hu.1 h.symm]

lemma le_of_anc (hpos : 0 < w) (hw : w < n) (hwv : w ≤ v) (hv : v < n)
    (hu : parent w < u) (huv : Anc parent u v) : w ≤ u := by
  by_contra hlt
  have huw : Anc parent u w := N.interval u w v (by omega) hwv hv huv
  have := N.parent_lt w hpos hw
  have := N.anc_le (huw.of_ne (by omega)).2 (by omega)
  omega

lemma Inv.step (h : Inv n w E parent s) (hpos : 0 < w) (hw : w < n)
    (hpreds : ∀ v, v ∈ preds w ↔ E v w) : Inv n (w - 1) E parent (Sweep.step preds parent s w) := by
  have hbound : ∀ v ∈ preds w, v < n := fun v hv => (N.bound v w ((hpreds v).1 hv)).1
  have hplt := N.parent_lt w hpos hw
  obtain ⟨hlinked, hother, -, -, -⟩ :=
    h.forest.relax_all N hw (fun u hu => h.todo u hu.le (by omega)) (preds w) hbound
  have hsemi := isSemi_relax_all N h.forest hpos hw hpreds h.done h.todo
  -- The state before the bucket of the parent is emptied.
  let f' := (preds w).foldl (·.relax w ·) s.forest
  let bucket := s.bucket.modify (f'.semiOf w) (· ++ [w])
  let mid : Sweep :=
    { s with forest := f'.link w (parent w), bucket := bucket.setIfInBounds (parent w) [] }
  have hslt : f'.semiOf w < n := (N.semi_lt hsemi hpos hw).trans hw
  have hmem : ∀ p v, v ∈ bucket.getD p [] ↔
      v ∈ s.bucket.getD p [] ∨ (v = w ∧ f'.semiOf w = p) := by
    intro p v
    simp only [bucket, getD_modify, h.bucket_size]
    by_cases hp : f'.semiOf w = p
    · simp [hp, hp ▸ hslt]
    · simp [hp]
  have hmemMid : ∀ p v, v ∈ mid.bucket.getD p [] ↔ p ≠ parent w ∧ v ∈ bucket.getD p [] := by
    intro p v
    have hsize : bucket.size = n := by simp [bucket, h.bucket_size]
    simp only [mid, getD_setIfInBounds, hsize]
    by_cases hp : parent w = p
    · simp [hp, hp ▸ hplt.trans hw]
    · simp [hp, Ne.symm hp]
  have hsemiMid : ∀ v, v ≠ w → mid.forest.semiOf v = s.forest.semiOf v := fun v hv => hother v hv
  have hdone : ∀ v, w - 1 < v → v < n → IsSemi E (mid.forest.semiOf v) v := by
    intro v hwv hv
    by_cases hvw : v = w
    · exact hvw ▸ hsemi
    · rw [hsemiMid v hvw]
      exact h.done v (by omega) hv
  have hfiled : ∀ p v, v ∈ bucket.getD p [] → w ≤ v ∧ v < n ∧ mid.forest.semiOf v = p := by
    intro p v hv
    rcases (hmem p v).1 hv with hv | ⟨rfl, hp⟩
    · obtain ⟨hwv, hvn, hp⟩ := h.filed p v hv
      exact ⟨hwv.le, hvn, by rw [hsemiMid v (by omega), hp]⟩
    · exact ⟨le_rfl, hw, hp⟩
  obtain ⟨h1, h2, h3, h4, h5, h6⟩ := settle_all (s := mid) N (hlinked.link N hpos hw) h.idom_size
    hdone (show parent w ≤ w - 1 by omega) (bucket.getD (parent w) []) fun v hv => by
      obtain ⟨hwv, hvn, hp⟩ := hfiled _ v hv
      refine ⟨by omega, hvn, hp, fun u hu huv => ?_⟩
      have := le_of_anc N hpos hw hwv hvn hu huv
      omega
  have hstep : Sweep.step preds parent s w = (bucket.getD (parent w) []).foldl (settle (parent w)) mid := rfl
  rw [hstep]
  have hsemiEnd : ∀ v, ((bucket.getD (parent w) []).foldl (settle (parent w)) mid).forest.semiOf v =
      mid.forest.semiOf v := fun v => by simp only [Forest.semiOf, h2]
  refine ⟨h1, h3, ?_, ?_, ?_, ?_, ?_, ?_⟩
  · rw [h4]
    simp [mid, bucket, h.bucket_size]
  · intro v hwv hv
    rw [hsemiEnd]
    exact hdone v hwv hv
  · intro v hv hvn
    rw [hsemiEnd, hsemiMid v (by omega), h.todo v (by omega) hvn]
  · intro p v hv
    rw [h4] at hv
    obtain ⟨hwv, hvn, hp⟩ := hfiled p v ((hmemMid p v).1 hv).2
    exact ⟨by omega, hvn, by rw [hsemiEnd, hp]⟩
  · intro p v hv c hc hcp hcv
    rw [h4] at hv
    obtain ⟨hpw, hv⟩ := (hmemMid p v).1 hv
    have hcw : c ≠ w := fun heq => hpw (heq ▸ hcp.symm)
    rcases (hmem p v).1 hv with hv | ⟨rfl, -⟩
    · exact h.waiting p v hv c (by omega) hcp hcv
    · have := N.anc_le hcv hw
      omega
  · intro v hwv hv hnot
    rw [h4, hsemiEnd, hmemMid] at hnot
    by_cases hvf : v ∈ bucket.getD (parent w) []
    · exact h5 v hvf
    · -- A number that was settled before.
      have hvw : v ≠ w := by
        rintro rfl
        refine hnot ⟨fun heq => hvf ?_, (hmem _ _).2 (.inr ⟨rfl, rfl⟩)⟩
        exact (hmem _ _).2 (.inr ⟨rfl, heq⟩)
      rw [h6 v hvf]
      refine h.settled v (by omega) hv fun hin => ?_
      rw [← hsemiMid v hvw] at hin
      refine hnot ⟨fun heq => hvf ?_, (hmem _ _).2 (.inl hin)⟩
      exact heq ▸ (hmem _ _).2 (.inl hin)

lemma inv_run (hn : 0 < n) (hpreds : ∀ w < n, ∀ v, v ∈ preds w ↔ E v w) :
    Inv n 0 E parent (run n preds parent) := by
  -- After `j` numbers, those above `n - 1 - j` are done.
  have hall : ∀ j < n, Inv n (n - 1 - j) E parent
      ((range' (n - j) j).reverse.foldl (Sweep.step preds parent) (ofSize n)) := by
    intro j
    induction j with
    | zero => exact fun _ => inv_ofSize hn
    | succ j ih =>
      intro hj
      have hrange : range' (n - (j + 1)) (j + 1) = (n - 1 - j) :: range' (n - j) j := by
        rw [range'_succ]
        congr 1
        · omega
        · congr 1
          omega
      rw [hrange, reverse_cons, foldl_append, foldl_cons, foldl_nil,
        show n - 1 - (j + 1) = n - 1 - j - 1 by omega]
      exact (ih (by omega)).step N (by omega) (by omega) (hpreds _ (by omega))
  have h := hall (n - 1) (by omega)
  rwa [show n - 1 - (n - 1) = 0 by omega, show n - (n - 1) = 1 by omega] at h

end

lemma exists_child (h : Anc parent u v) (hne : u ≠ v) : ∃ c, 0 < c ∧ parent c = u ∧ Anc parent c v := by
  induction h with
  | refl => exact absurd rfl hne
  | @up v pos _ ih =>
    by_cases hu : u = parent v
    · exact ⟨v, pos, hu.symm, .refl v⟩
    · obtain ⟨c, hc, hcu, hcv⟩ := ih hu
      exact ⟨c, hc, hcu, .up pos hcv⟩

lemma Inv.all_settled (N : Numbered n E parent) (h : Inv n 0 E parent s) (hpos : 0 < v)
    (hv : v < n) : Settled E parent v (s.idom.getD v 0) := by
  refine h.settled v hpos hv fun hin => ?_
  have hsemi := h.done v hpos hv
  have hanc := N.semi_anc hsemi hpos hv
  have hlt := N.semi_lt hsemi hpos hv
  obtain ⟨c, hc, hcp, hcv⟩ := exists_child hanc hlt.ne
  exact h.waiting _ v hin c hc hcp hcv

/-! ## The last pass -/

lemma IsSemi.unique {t : Nat} (h : IsSemi E u v) (k : IsSemi E t v) : u = t := le_antisymm (h.2 t k.1) (k.2 u h.1)

lemma Inv.isIdom_dominators (N : Numbered n E parent) (h : Inv n 0 E parent s) (hpos : 0 < v)
    (hv : v < n) : IsIdom E 0 (s.dominators.getD v 0) v := by
  let pass (idom : Array Nat) (w : Nat) : Array Nat :=
    let d := idom.getD w 0
    if d = s.forest.semiOf w then idom else idom.setIfInBounds w (idom.getD d 0)
  -- After the numbers below `m` those have their dominators and the others are as they were.
  have hall : ∀ m < n, ((range' 1 m).foldl pass s.idom).size = n ∧
      (∀ w, 0 < w → w ≤ m → IsIdom E 0 (((range' 1 m).foldl pass s.idom).getD w 0) w) ∧
      ∀ w, m < w → ((range' 1 m).foldl pass s.idom).getD w 0 = s.idom.getD w 0 := by
    intro m
    induction m with
    | zero => exact fun _ => ⟨h.idom_size, fun w _ _ => by omega, fun _ _ => rfl⟩
    | succ m ih =>
      intro hm
      obtain ⟨hsize, hidom, hrest⟩ := ih (by omega)
      rw [range'_concat, foldl_append, foldl_cons, foldl_nil]
      generalize (range' 1 m).foldl pass s.idom = idom at hsize hidom hrest
      have hw : 1 + 1 * m = m + 1 := by omega
      rw [hw]
      have hd : idom.getD (m + 1) 0 = s.idom.getD (m + 1) 0 := hrest _ (by omega)
      obtain ⟨t, ht, hset⟩ := h.all_settled N (Nat.succ_pos m) hm
      obtain rfl : t = s.forest.semiOf (m + 1) := IsSemi.unique ht (h.done _ (Nat.succ_pos m) hm)
      rw [← hd] at hset
      generalize hd' : idom.getD (m + 1) 0 = d at hset
      by_cases heq : d = s.forest.semiOf (m + 1)
      · have hpass : pass idom (m + 1) = idom := by simp only [pass, hd', if_pos heq]
        rw [hpass]
        refine ⟨hsize, fun w hw hwm => ?_, fun w hw => hrest w (by omega)⟩
        rcases Nat.lt_or_ge m w with hlt | hle
        · obtain rfl : w = m + 1 := by omega
          rcases hset with ⟨-, hleast⟩ | ⟨hgt, -⟩
          · rw [hd', heq]
            exact N.isIdom_semi (Nat.succ_pos m) hm ht hleast
          · omega
        · exact hidom w hw hle
      · have hpass : pass idom (m + 1) = idom.setIfInBounds (m + 1) (idom.getD d 0) := by
          simp only [pass, hd', if_neg heq]
        rw [hpass]
        refine ⟨by simp [hsize], fun w hw hwm => ?_, fun w hw => ?_⟩
        · rw [getD_setIfInBounds, hsize]
          rcases Nat.lt_or_ge m w with hlt | hle
          · obtain rfl : w = m + 1 := by omega
            rw [if_pos ⟨rfl, hm⟩]
            obtain ⟨hgt, hlt, hanc, t', ht', hleast⟩ := hset.resolve_left fun h => heq h.1
            exact N.isIdom_of_anc (Nat.succ_pos m) hm ht hgt hanc ht' hleast (hidom d (by omega) (by omega))
          · rw [if_neg (by omega)]
            exact hidom w hw hle
        · rw [getD_setIfInBounds, if_neg (by omega)]
          exact hrest w (by omega)
  have hdom : s.dominators = (range' 1 (n - 1)).foldl pass s.idom := by
    rw [dominators, h.idom_size]
  rw [hdom]
  exact (hall (n - 1) (by omega)).2.1 v hpos (by omega)

lemma isIdom_run (N : Numbered n E parent) (hn : 0 < n)
    (hpreds : ∀ w < n, ∀ v, v ∈ preds w ↔ E v w) (hpos : 0 < v) (hv : v < n) :
    IsIdom E 0 ((run n preds parent).dominators.getD v 0) v :=
  (inv_run N hn hpreds).isIdom_dominators N hpos hv

end MethodIR.Dominance.Sweep
