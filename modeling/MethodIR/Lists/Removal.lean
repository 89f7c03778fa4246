/-!
# Lists without some members

Taking away the members of another list makes a list shorter if the two have one in common.
-/

namespace MethodIR.Lists

theorem length_removeAll_lt {α : Type} [BEq α] [LawfulBEq α] {xs ys : List α} {a : α}
    (hx : a ∈ xs) (hy : a ∈ ys) : (xs.removeAll ys).length < xs.length := by
  unfold List.removeAll
  rw [List.length_filter_lt_length_iff_exists]
  exact ⟨a, hx, by simp [hy]⟩

end MethodIR.Lists
