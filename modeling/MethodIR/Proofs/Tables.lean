import Mathlib

/-!
# Tables

Reading a table that has a default entry after it was changed. An index past the end is changed by
nothing.
-/

namespace MethodIR.Tables

variable {α : Type} (xs : Array α) (i j : Nat) (a d : α)

lemma getD_setIfInBounds : (xs.setIfInBounds i a).getD j d = if i = j ∧ j < xs.size then a else xs.getD j d := by
  simp only [Array.getD_eq_getD_getElem?, Array.getElem?_setIfInBounds]
  by_cases hij : i = j
  · by_cases hj : i < xs.size
    · simp [hij, hij ▸ hj]
    · simp [hij, hij ▸ hj]
  · simp [hij]

lemma getD_modify (f : α → α) :
    (xs.modify i f).getD j d = if i = j ∧ j < xs.size then f (xs.getD j d) else xs.getD j d := by
  simp only [Array.getD_eq_getD_getElem?, Array.getElem?_modify]
  by_cases hij : i = j
  · subst hij
    by_cases hi : i < xs.size
    · simp [hi]
    · simp [hi]
  · simp [hij]

lemma getD_push : (xs.push a).getD j d = if j = xs.size then a else xs.getD j d := by
  simp only [Array.getD_eq_getD_getElem?, Array.getElem?_push]
  split <;> simp

lemma getD_of_size_le (h : xs.size ≤ j) : xs.getD j d = d := by
  simp [Array.getD_eq_getD_getElem?, h]

lemma getD_replicated (n : Nat) : (Array.replicate n a).getD j d = if j < n then a else d := by
  simp only [Array.getD_eq_getD_getElem?, Array.getElem?_replicate]
  split <;> simp

end MethodIR.Tables
