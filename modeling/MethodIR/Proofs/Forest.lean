import MethodIR.Dominance.Forest
import MethodIR.Proofs.Semidominators
import MethodIR.Proofs.Tables

/-!
# The linked forest

When the numbers above `k` have been linked, asking a number gives the one of least semidominator among
its ancestors above `k`, however ways have been shortened before (`Linked`).
-/

namespace MethodIR.Dominance.Forest

open List FlowGraph Tables

variable {n k : Nat} {E : Nat → Nat → Prop} {parent : Nat → Nat} {f g : Forest} {a l u v w x : Nat}

structure Best (parent : Nat → Nat) (f : Forest) (a v l : Nat) : Prop where
  lt : a < l
  anc : Anc parent l v
  least : ∀ u, a < u → Anc parent u v → f.semiOf l ≤ f.semiOf u

/-- The numbers above `k` are linked: each hangs under an ancestor, with no number that is not linked
in between, and its label is the best on the way there. -/
structure Linked (n k : Nat) (parent : Nat → Nat) (f : Forest) : Prop where
  ancestor_size : f.ancestor.size = n
  label_size : f.label.size = n
  semi_size : f.semi.size = n
  root : ∀ v ≤ k, f.above? v = none
  own : ∀ v ≤ k, v < n → f.labelOf v = v
  hangs : ∀ v, k < v → v < n → ∃ a, f.above? v = some a ∧ a < v ∧ Anc parent a v ∧
    (∀ u, a < u → Anc parent u v → k < u) ∧ Best parent f a v (f.labelOf v)

lemma above?_lt_size (h : f.above? v = some a) : v < f.ancestor.size := by
  by_contra hv
  rw [above?, getD_of_size_le _ _ _ (by omega)] at h
  cases h

lemma Best.congr (h : Best parent f a v l)
    (hsemi : ∀ u, a < u → Anc parent u v → g.semiOf u = f.semiOf u) : Best parent g a v l := by
  refine ⟨h.lt, h.anc, fun u hu huv => ?_⟩
  rw [hsemi l h.lt h.anc, hsemi u hu huv]
  exact h.least u hu huv

/-! ## Shortening -/

lemma shorten_semi : (f.shorten v).semi = f.semi := by
  unfold shorten
  split <;> rfl

lemma shorten_semiOf : (f.shorten v).semiOf x = f.semiOf x := by
  simp only [semiOf, shorten_semi]

lemma shorten_above? (h : f.above? v = some a) :
    (f.shorten v).above? x = if v = x then f.above? a else f.above? x := by
  have hlt := above?_lt_size h
  have hs : (f.shorten v).ancestor = f.ancestor.setIfInBounds v (f.above? a) := by
    simp only [shorten, h]
  rw [above?, hs, getD_setIfInBounds]
  by_cases hx : v = x
  · rw [if_pos ⟨hx, hx ▸ hlt⟩, if_pos hx]
  · rw [if_neg fun h => hx h.1, if_neg hx, above?]

lemma shorten_labelOf (h : f.above? v = some a) (hv : v < f.label.size) : (f.shorten v).labelOf x =
      if v = x ∧ f.semiOf (f.labelOf a) < f.semiOf (f.labelOf v) then f.labelOf a else f.labelOf x := by
  have hs : (f.shorten v).label =
      if f.semiOf (f.labelOf a) < f.semiOf (f.labelOf v)
      then f.label.setIfInBounds v (f.labelOf a) else f.label := by
    simp only [shorten, h]
  rw [labelOf, hs]
  by_cases hlt : f.semiOf (f.labelOf a) < f.semiOf (f.labelOf v)
  · rw [if_pos hlt, getD_setIfInBounds]
    by_cases hx : v = x
    · rw [if_pos ⟨hx, hx ▸ hv⟩, if_pos ⟨hx, hlt⟩]
    · rw [if_neg fun h => hx h.1, if_neg fun h => hx h.1, labelOf]
  · rw [if_neg hlt, if_neg fun h => hlt h.2, labelOf]

lemma Best.join (N : Numbered n E parent) {b m : Nat} (hv : v < n) (hav : Anc parent a v)
    (hlow : Best parent f a v l) (hhigh : Best parent f b a m) (hba : b ≤ a) :
    Best parent f b v (if f.semiOf m < f.semiOf l then m else l) := by
  -- An ancestor of `v` is below `a`, or an ancestor of `a`.
  have hcases : ∀ u, b < u → Anc parent u v → f.semiOf l ≤ f.semiOf u ∨ f.semiOf m ≤ f.semiOf u := by
    intro u hu huv
    rcases Nat.lt_or_ge a u with h | h
    · exact .inl (hlow.least u h huv)
    · exact .inr (hhigh.least u hu (N.anc_of_le huv hav h hv))
  split
  · refine ⟨hhigh.lt, hhigh.anc.trans hav, fun u hu huv => ?_⟩
    have := hcases u hu huv
    omega
  · refine ⟨by have := hlow.lt; omega, hlow.anc, fun u hu huv => ?_⟩
    have := hcases u hu huv
    omega

lemma Linked.shorten (N : Numbered n E parent) (h : Linked n k parent f)
    (hva : f.above? v = some a) (ha : k < a) : Linked n k parent (f.shorten v) := by
  have hvn : v < n := h.ancestor_size ▸ above?_lt_size hva
  have hkv : k < v := by
    by_contra hv
    rw [h.root v (by omega)] at hva
    cases hva
  obtain ⟨a', hva', hav, haanc, hagap, hbest⟩ := h.hangs v hkv hvn
  obtain rfl : a' = a := Option.some.inj (hva'.symm.trans hva)
  obtain ⟨b, hab, hba, hbanc, hbgap, hbest'⟩ := h.hangs a' ha (by omega)
  have hlabel : ∀ x, (f.shorten v).labelOf x = _ := fun x =>
    shorten_labelOf (x := x) hva (h.label_size ▸ hvn)
  refine ⟨?_, ?_, ?_, fun x hx => ?_, fun x hx hxn => ?_, fun x hx hxn => ?_⟩
  · simp [Forest.shorten, hva, h.ancestor_size]
  · simp only [Forest.shorten, hva]
    split <;> simp [h.label_size]
  · rw [shorten_semi, h.semi_size]
  · rw [shorten_above? hva, if_neg (by omega), h.root x hx]
  · rw [hlabel, if_neg (by omega), h.own x hx hxn]
  · rw [shorten_above? hva, hlabel]
    by_cases hvx : v = x
    · subst hvx
      simp only [if_true, true_and]
      refine ⟨b, hab, by omega, hbanc.trans haanc, fun u hu huv => ?_, ?_⟩
      · rcases Nat.lt_or_ge a' u with hlt | hle
        · exact hagap u hlt huv
        · exact hbgap u hu (N.anc_of_le huv haanc hle hvn)
      · exact (Best.join N hvn haanc hbest hbest' hba.le).congr fun _ _ _ => shorten_semiOf
    · obtain ⟨c, hc, hcx, hcanc, hcgap, hcbest⟩ := h.hangs x hx hxn
      simp only [hvx, false_and, if_false]
      exact ⟨c, hc, hcx, hcanc, hcgap, hcbest.congr fun _ _ _ => shorten_semiOf⟩

/-! ## Compression and queries -/

lemma compress_of_root (hva : f.above? v = some a) (ha : f.above? a = none) : f.compress v = f := by
  rw [compress, path]
  simp [hva, ha]

lemma compress_of_linked (hva : f.above? v = some a) (hlt : a < v)
    (ha : (f.above? a).isSome = true) : f.compress v = (f.compress a).shorten v := by
  rw [compress, path]
  simp [hva, hlt, ha, compress, foldl_append]

lemma Linked.compress (N : Numbered n E parent) (h : Linked n k parent f) (hkv : k < v) (hv : v < n) :
    Linked n k parent (f.compress v) ∧ (f.compress v).semi = f.semi ∧ (∃ a ≤ k, (f.compress v).above? v = some a) ∧
      ∀ x, v < x → (f.compress v).above? x = f.above? x := by
  induction v using Nat.strong_induction_on with
  | _ v ih =>
    obtain ⟨a, hva, hav, -, -, -⟩ := h.hangs v hkv hv
    by_cases hka : k < a
    · obtain ⟨b, hab, -⟩ := h.hangs a hka (by omega)
      obtain ⟨hlinked, hsemi, ⟨c, hc, hac⟩, hframe⟩ := ih a hav hka (by omega)
      have hva' : (f.compress a).above? v = some a := (hframe v hav).trans hva
      rw [compress_of_linked hva hav (by simp [hab])]
      refine ⟨hlinked.shorten N hva' hka, ?_, ⟨c, hc, ?_⟩, fun x hx => ?_⟩
      · rw [shorten_semi, hsemi]
      · rw [shorten_above? hva', if_pos rfl, hac]
      · rw [shorten_above? hva', if_neg (by omega), hframe x (by omega)]
    · rw [compress_of_root hva (h.root a (by omega))]
      exact ⟨h, rfl, ⟨a, by omega, hva⟩, fun _ _ => rfl⟩

lemma Linked.eval (N : Numbered n E parent) (h : Linked n k parent f) (hv : v < n) :
    Linked n k parent (f.eval v).2 ∧ (f.eval v).2.semi = f.semi ∧
      (v ≤ k → (f.eval v).1 = v) ∧ (k < v → Best parent f k v (f.eval v).1) := by
  by_cases hkv : k < v
  · obtain ⟨a, hva, -⟩ := h.hangs v hkv hv
    obtain ⟨hlinked, hsemi, ⟨b, hb, hvb⟩, -⟩ := h.compress N hkv hv
    obtain ⟨b', hvb', -, -, hgap, hbest⟩ := hlinked.hangs v hkv hv
    obtain rfl : b = b' := Option.some.inj (hvb.symm.trans hvb')
    have heval : f.eval v = ((f.compress v).labelOf v, f.compress v) := by
      simp [Forest.eval, hva]
    rw [heval]
    refine ⟨hlinked, hsemi, fun hle => absurd hkv (by omega), fun _ => ?_⟩
    have hbest' : Best parent f b v ((f.compress v).labelOf v) :=
      hbest.congr fun u _ _ => by simp only [semiOf, hsemi]
    exact ⟨hgap _ hbest.lt hbest.anc, hbest'.anc, fun u hu huv => hbest'.least u (by omega) huv⟩
  · have heval : f.eval v = (v, f) := by simp [Forest.eval, h.root v (by omega)]
    rw [heval]
    exact ⟨h, rfl, fun _ => rfl, fun hlt => absurd hlt hkv⟩

/-! ## Links and semidominators -/

lemma link_above? (hw : w < f.ancestor.size) : (f.link w u).above? x = if w = x then some u else f.above? x := by
  simp only [link, above?, getD_setIfInBounds]
  by_cases hx : w = x
  · simp [hx, hx ▸ hw]
  · simp [hx]

lemma Linked.link (N : Numbered n E parent) (h : Linked n w parent f) (hpos : 0 < w)
    (hw : w < n) : Linked n (w - 1) parent (f.link w (parent w)) := by
  have habove : ∀ x, (f.link w (parent w)).above? x = _ := fun x =>
    link_above? (x := x) (u := parent w) (h.ancestor_size.symm ▸ hw)
  have hlt := N.parent_lt w hpos hw
  refine ⟨by simp [Forest.link, h.ancestor_size], h.label_size, h.semi_size, fun v hv => ?_,
    fun v hv => h.own v (by omega), fun v hkv hv => ?_⟩
  · rw [habove, if_neg (by omega), h.root v (by omega)]
  · rw [habove]
    by_cases hvw : w = v
    · subst hvw
      -- The only ancestor below the parent is the number itself.
      have honly : ∀ u, parent w < u → Anc parent u w → u = w := by
        intro u hu huw
        by_contra hne
        have := N.anc_le (huw.of_ne hne).2 (by omega)
        omega
      refine ⟨parent w, by simp, hlt, .up hpos (.refl _), fun u hu huw => ?_, ?_⟩
      · have := honly u hu huw
        omega
      · show Best parent _ _ _ (f.labelOf w)
        rw [h.own w le_rfl hw]
        exact ⟨hlt, .refl w, fun u hu huw => by rw [honly u hu huw]⟩
    · obtain ⟨a, ha, hav, hanc, hgap, hbest⟩ := h.hangs v (by omega) hv
      rw [if_neg hvw]
      exact ⟨a, ha, hav, hanc, fun u hu huv => by have := hgap u hu huv; omega, hbest.congr fun _ _ _ => rfl⟩

lemma Linked.setSemi (h : Linked n k parent f) (hw : w ≤ k) :
    Linked n k parent { f with semi := f.semi.setIfInBounds w x } := by
  refine ⟨h.ancestor_size, h.label_size, by simp [h.semi_size], h.root, h.own, fun v hkv hv => ?_⟩
  obtain ⟨a, ha, hav, hanc, hgap, hbest⟩ := h.hangs v hkv hv
  refine ⟨a, ha, hav, hanc, hgap, hbest.congr fun u hu huv => ?_⟩
  have := hgap u hu huv
  simp only [semiOf, getD_setIfInBounds]
  rw [if_neg (by omega)]

/-- What the predecessor `v` of `w` offers as semidominator of `w`: itself if it is smaller, and
otherwise the semidominators of its ancestors above `w`. -/
def Offers (parent : Nat → Nat) (f : Forest) (w v x : Nat) : Prop :=
  (v < w ∧ x = v) ∨ (w < v ∧ ∃ u, w < u ∧ Anc parent u v ∧ x = f.semiOf u)

lemma Offers.congr (hsemi : ∀ u, u ≠ w → g.semiOf u = f.semiOf u) :
    Offers parent g w v x ↔ Offers parent f w v x := by
  unfold Offers
  refine or_congr_right (and_congr_right fun _ => exists_congr fun u => ?_)
  refine and_congr_right fun hu => ?_
  rw [hsemi u (by omega)]

section

variable (N : Numbered n E parent) (h : Linked n w parent f) (hw : w < n)
include N h hw

lemma Linked.relax (hv : v < n) (htodo : ∀ u < w, f.semiOf u = u) :
    Linked n w parent (f.relax w v) ∧ (∀ u, u ≠ w → (f.relax w v).semiOf u = f.semiOf u) ∧
      (f.relax w v).semiOf w ≤ f.semiOf w ∧
      ((f.relax w v).semiOf w = f.semiOf w ∨ Offers parent f w v ((f.relax w v).semiOf w)) ∧
      ∀ x, Offers parent f w v x → (f.relax w v).semiOf w ≤ x := by
  obtain ⟨hlinked, hsemi, hroot, hbest⟩ := h.eval N hv
  have hsemiOf : ∀ u, (f.eval v).2.semiOf u = f.semiOf u := fun u => by simp only [semiOf, hsemi]
  have hset : ∀ u y, ({ (f.eval v).2 with semi := (f.eval v).2.semi.setIfInBounds w y } :
      Forest).semiOf u = if w = u then y else f.semiOf u := by
    intro u y
    simp only [semiOf, getD_setIfInBounds, hsemi, h.semi_size]
    by_cases hu : w = u
    · simp [hu, hu ▸ hw]
    · simp [hu]
  -- The number that the query gives has the least semidominator on offer.
  have hoffer : v ≠ w → Offers parent f w v (f.semiOf (f.eval v).1) := by
    intro hne
    rcases Nat.lt_or_ge w v with hlt | hle
    · exact .inr ⟨hlt, _, (hbest hlt).lt, (hbest hlt).anc, rfl⟩
    · have hvw : v < w := by omega
      exact .inl ⟨hvw, by rw [hroot hle, htodo v hvw]⟩
  have hleast : ∀ x, Offers parent f w v x → f.semiOf (f.eval v).1 ≤ x := by
    rintro x (⟨hlt, rfl⟩ | ⟨hlt, u, hu, huv, rfl⟩)
    · rw [hroot hlt.le, htodo x hlt]
    · exact (hbest hlt).least u hu huv
  simp only [Forest.relax, hsemiOf]
  split
  · rename_i hlt
    refine ⟨hlinked.setSemi le_rfl, fun u hu => ?_, ?_, .inr ?_, fun x hx => ?_⟩
    · rw [hset, if_neg hu.symm]
    · rw [hset, if_pos rfl]
      exact hlt.le
    · rw [hset, if_pos rfl]
      refine hoffer fun hvw => ?_
      rw [hroot hvw.le, hvw] at hlt
      exact lt_irrefl _ hlt
    · rw [hset, if_pos rfl]
      exact hleast x hx
  · rename_i hge
    refine ⟨hlinked, fun u _ => hsemiOf u, (hsemiOf w).le, .inl (hsemiOf w), fun x hx => ?_⟩
    rw [hsemiOf]
    exact le_trans (by omega) (hleast x hx)

lemma Linked.relax_all (htodo : ∀ u < w, f.semiOf u = u) (preds : List Nat) (hpreds : ∀ v ∈ preds, v < n) :
    Linked n w parent (preds.foldl (·.relax w ·) f) ∧
      (∀ u, u ≠ w → (preds.foldl (·.relax w ·) f).semiOf u = f.semiOf u) ∧
      (preds.foldl (·.relax w ·) f).semiOf w ≤ f.semiOf w ∧ ((preds.foldl (·.relax w ·) f).semiOf w = f.semiOf w ∨
        ∃ v ∈ preds, Offers parent f w v ((preds.foldl (·.relax w ·) f).semiOf w)) ∧
      ∀ v ∈ preds, ∀ x, Offers parent f w v x → (preds.foldl (·.relax w ·) f).semiOf w ≤ x := by
  induction preds generalizing f with
  | nil => simpa using h
  | cons v preds ih =>
    obtain ⟨hl, hother, hle, hval, hleast⟩ := h.relax N hw (hpreds v (by simp)) htodo
    have htodo' : ∀ u < w, (f.relax w v).semiOf u = u := fun u hu => by
      rw [hother u (by omega), htodo u hu]
    obtain ⟨hl', hother', hle', hval', hleast'⟩ := ih hl htodo' fun u hu => hpreds u (by simp [hu])
    simp only [foldl_cons]
    refine ⟨hl', fun u hu => (hother' u hu).trans (hother u hu), hle'.trans hle, ?_, ?_⟩
    · rcases hval' with heq | ⟨u, hu, hoff⟩
      · rw [heq]
        exact hval.imp id fun hoff => ⟨v, by simp, hoff⟩
      · exact .inr ⟨u, by simp [hu], (Offers.congr hother).1 hoff⟩
    · intro u hu x hoff
      rcases mem_cons.1 hu with rfl | hu
      · exact hle'.trans (hleast x hoff)
      · exact hleast' u hu x ((Offers.congr hother).2 hoff)

end

end MethodIR.Dominance.Forest
