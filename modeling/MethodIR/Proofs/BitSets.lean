import MethodIR.BitSet
import MethodIR.Proofs.Tables

/-!
# Bit sets as finite sets

After any calls a bit set answers as the finite set that the calls make (`answers_calls`). The set is read
off the bits of all words, also those of the last word past the capacity, which no call sets.
-/

namespace MethodIR.BitSet

open Tables Option Array

variable {s : BitSet} {S : Finset Nat} {w : UInt64} {capacity low n i k : Nat}

/-- A change of a set of numbers below `capacity`. -/
inductive Call (capacity : Nat) where
  | insert (i : Fin capacity)
  | clear

def Call.run (s : BitSet) : Call capacity → Except Error BitSet
  | insert i => (s.insertNew i).map Prod.snd
  | clear => .ok s.clear

def Call.apply (S : Finset Nat) : Call capacity → Finset Nat
  | insert i => Insert.insert i.val S
  | clear => ∅

/-! ## Bits -/

lemma toNat_mask (i : Nat) : (mask i).toNat = 2 ^ (i % 64) := by
  have hlt : i % 64 < 64 := Nat.mod_lt i (by decide)
  have hpow : 2 ^ (i % 64) < 2 ^ 64 := Nat.pow_lt_pow_right (by decide) hlt
  simp only [mask, UInt64.toNat_shiftLeft, Nat.toUInt64_eq, UInt64.toNat_ofNat']
  rw [Nat.mod_eq_of_lt (show i % 64 < 2 ^ 64 by omega), Nat.mod_eq_of_lt hlt]
  simpa [Nat.shiftLeft_eq] using hpow

lemma and_mask_bne_zero (w : UInt64) (i : Nat) : (w &&& mask i != 0) = w.toNat.testBit (i % 64) := by
  have h : (w &&& mask i).toNat = (w.toNat.testBit (i % 64)).toNat * 2 ^ (i % 64) := by
    rw [UInt64.toNat_and, toNat_mask, Nat.and_two_pow]
  rw [Bool.eq_iff_iff, bne_iff_ne, ne_eq, ← UInt64.toNat_inj, h]
  cases w.toNat.testBit (i % 64) <;> simp

lemma testBit_or_mask (w : UInt64) (i k : Nat) :
    (w ||| mask i).toNat.testBit k = (w.toNat.testBit k || decide (i % 64 = k)) := by
  rw [UInt64.toNat_or, Nat.testBit_or, toNat_mask, Nat.testBit_two_pow]

def bit (s : BitSet) (i : Nat) : Bool := (s.words.getD (i / 64) 0).toNat.testBit (i % 64)

lemma contains_eq (s : BitSet) (i : Nat) : s.contains i = (decide (i < s.capacity) && s.bit i) := by
  rw [contains, and_mask_bne_zero, bit]

/-- The bits that are set are the members of `S`. -/
structure Holds (s : BitSet) (S : Finset Nat) : Prop where
  size : s.words.size = (s.capacity + 63) / 64
  below : ∀ i ∈ S, i < s.capacity
  bit_iff : ∀ i, s.bit i ↔ i ∈ S

lemma holds_empty (capacity : Nat) : Holds (empty capacity) ∅ := by
  refine ⟨by simp [empty], by simp, fun i => ?_⟩
  rw [bit, empty, getD_replicated]
  simp

lemma Holds.clear (h : Holds s S) : Holds s.clear ∅ := by
  refine ⟨by simpa [BitSet.clear] using h.size, by simp, fun i => ?_⟩
  rw [bit, BitSet.clear, getD_eq_getD_getElem?, getElem?_map]
  cases s.words[i / 64]? <;> simp

lemma Holds.insert (h : Holds s S) (hi : i < s.capacity) : Holds (s.insert i) (Insert.insert i S) := by
  simp only [BitSet.insert, if_pos hi]
  refine ⟨by simpa using h.size, ?_, fun j => ?_⟩
  · simpa [hi] using h.below
  · have hj := h.bit_iff j
    have hsize : i / 64 < s.words.size := by rw [h.size]; omega
    rw [bit, getD_modify, Finset.mem_insert, ← hj, bit]
    split
    · rw [testBit_or_mask, Bool.or_eq_true, decide_eq_true_iff, or_comm]
      have : i % 64 = j % 64 ↔ j = i := by omega
      rw [this]
    · have : j ≠ i := by rintro rfl; omega
      simp [this]

lemma Holds.run (h : Holds s S) (call : Call s.capacity) :
    ∃ s', call.run s = .ok s' ∧ s'.capacity = s.capacity ∧ Holds s' (call.apply S) := by
  cases call with
  | insert i =>
    refine ⟨s.insert i, ?_, ?_, h.insert i.2⟩
    · simp [Call.run, insertNew, Except.map]
    · rw [BitSet.insert]
      split <;> rfl
  | clear => exact ⟨s.clear, rfl, rfl, h.clear⟩

lemma Holds.calls (h : Holds s S) (hs : s.capacity = capacity) (calls : List (Call capacity)) :
    ∃ s', calls.foldlM Call.run s = .ok s' ∧ s'.capacity = capacity ∧ Holds s' (calls.foldl Call.apply S) := by
  induction calls generalizing s S with
  | nil => exact ⟨s, rfl, hs, h⟩
  | cons call calls ih =>
    subst hs
    obtain ⟨s₁, hrun, hs₁, h₁⟩ := h.run call
    obtain ⟨s', hruns, h'⟩ := ih h₁ hs₁
    refine ⟨s', ?_, h'⟩
    rw [List.foldlM_cons, hrun]
    exact hruns

/-! ## Searching -/

lemma lowestBit?_eq_some (h : lowestBit? w low = some k) :
    k < 64 ∧ low ≤ k ∧ w.toNat.testBit k ∧ ∀ j < k, low ≤ j → w.toNat.testBit j = false := by
  rw [lowestBit?] at h
  split at h
  · simp at h
  · simp only [and_mask_bne_zero, List.find?_range_eq_some, List.mem_range, Bool.and_eq_true,
      decide_eq_true_iff, Bool.not_eq_true', Bool.and_eq_false_imp] at h
    obtain ⟨⟨hlow, hbit⟩, hlt, hbefore⟩ := h
    refine ⟨hlt, hlow, Nat.mod_eq_of_lt hlt ▸ hbit, fun j hj hlowj => ?_⟩
    have := hbefore j hj hlowj
    rwa [Nat.mod_eq_of_lt (hj.trans hlt)] at this

lemma lowestBit?_eq_none (h : lowestBit? w low = none) (hk : k < 64) (hlow : low ≤ k) :
    w.toNat.testBit k = false := by
  rw [lowestBit?] at h
  split at h
  · next hw => simp [hw]
  · simp only [and_mask_bne_zero, List.find?_range_eq_none, Bool.not_eq_true', Bool.and_eq_false_imp,
      decide_eq_true_iff] at h
    have := h k hk hlow
    rwa [Nat.mod_eq_of_lt hk] at this

/-- The bits set from `low` on. -/
def upper (s : BitSet) (low : Nat) : Set Nat := {i | low ≤ i ∧ s.bit i}

lemma bit_word (s : BitSet) (n : Nat) (hk : k < 64) : s.bit (64 * n + k) = (s.words.getD n 0).toNat.testBit k := by
  rw [bit, Nat.mul_add_div (by decide), Nat.div_eq_of_lt hk, Nat.mul_add_mod, Nat.mod_eq_of_lt hk, Nat.add_zero]

lemma mem_upper_word (hi : i ∈ s.upper (64 * n + low)) (hlt : i < 64 * (n + 1)) :
    ∃ j < 64, low ≤ j ∧ i = 64 * n + j ∧ (s.words.getD n 0).toNat.testBit j := by
  obtain ⟨hlow, hbit⟩ := hi
  obtain ⟨j, rfl⟩ : ∃ j, i = 64 * n + j := ⟨i - 64 * n, by omega⟩
  have hj : j < 64 := by omega
  exact ⟨j, hj, by omega, rfl, bit_word s n hj ▸ hbit⟩

lemma isLeast_upper (h : lowestBit? (s.words.getD n 0) low = some k) :
    IsLeast (s.upper (64 * n + low)) (64 * n + k) := by
  obtain ⟨hlt, hlow, hbit, hbefore⟩ := lowestBit?_eq_some h
  refine ⟨⟨by omega, by rwa [bit_word s n hlt]⟩, fun i hi => ?_⟩
  by_contra hik
  obtain ⟨j, -, hlowj, rfl, hj⟩ := mem_upper_word hi (by omega)
  exact absurd hj (by rw [hbefore j (by omega) hlowj]; decide)

lemma upper_succ (h : lowestBit? (s.words.getD n 0) low = none) (hlow : low ≤ 64) :
    s.upper (64 * n + low) = s.upper (64 * (n + 1)) := by
  ext i
  refine ⟨fun hi => ⟨?_, hi.2⟩, fun hi => ⟨le_trans (by omega) hi.1, hi.2⟩⟩
  by_contra hin
  obtain ⟨j, hlt, hlowj, rfl, hj⟩ := mem_upper_word hi (by omega)
  exact absurd hj (by rw [lowestBit?_eq_none h hlt hlowj]; decide)

lemma some_eq_iff_isLeast {A : Set Nat} (h : IsLeast A k) : some k = some i ↔ IsLeast A i :=
  ⟨fun hi => some.inj hi ▸ h, fun hi => congrArg some (h.unique hi)⟩

lemma nextFromWord_eq_some : s.nextFromWord n = some i ↔ IsLeast (s.upper (64 * n)) i := by
  fun_induction nextFromWord s n with
  | case1 n hn k hk =>
    have hfound : lowestBit? (s.words.getD n 0) 0 = some k := by simpa [hn] using hk
    exact some_eq_iff_isLeast (isLeast_upper hfound)
  | case2 n hn hk ih =>
    have hskip : lowestBit? (s.words.getD n 0) 0 = none := by simpa [hn] using hk
    rw [ih, ← upper_succ hskip (by decide), Nat.add_zero]
  | case3 n hn =>
    simp only [reduceCtorEq, false_iff]
    rintro ⟨⟨hlow, hbit⟩, -⟩
    rw [bit, getD_of_size_le _ _ _ (by omega)] at hbit
    simp at hbit

lemma Holds.next?_eq_some (h : Holds s S) : s.next? low = some i ↔ IsLeast {j ∈ S | low ≤ j} i := by
  have hupper : ({j ∈ S | low ≤ j} : Set Nat) = s.upper low := by
    ext j
    simp [upper, h.bit_iff, and_comm]
  rw [hupper, next?]
  split
  · have hsplit : 64 * (low / 64) + low % 64 = low := Nat.div_add_mod low 64
    cases hk : lowestBit? (s.words.getD (low / 64) 0) (low % 64) with
    | some k =>
      have hleast := isLeast_upper hk
      rw [hsplit] at hleast
      have hlt := h.below _ ((h.bit_iff _).1 hleast.1.2)
      simpa [Option.filter, hlt] using some_eq_iff_isLeast hleast
    | none =>
      have hskip := upper_succ hk (Nat.mod_lt low (by decide)).le
      rw [hsplit] at hskip
      rw [filter_eq_some_iff, nextFromWord_eq_some, hskip, and_iff_left_iff_imp]
      intro hi
      simpa using h.below _ ((h.bit_iff _).1 hi.1.2)
  · simp only [reduceCtorEq, false_iff]
    rintro ⟨⟨hlow, hbit⟩, -⟩
    have := h.below i ((h.bit_iff i).1 hbit)
    omega

lemma Holds.next?_eq_none (h : Holds s S) : s.next? low = none ↔ ∀ i ∈ S, i < low := by
  rw [eq_none_iff_forall_ne_some]
  constructor
  · intro hnone i hi
    by_contra hlow
    have hne : {j | j ∈ S ∧ low ≤ j}.Nonempty := ⟨i, hi, not_lt.1 hlow⟩
    exact hnone _ (h.next?_eq_some.2 ⟨Nat.sInf_mem hne, fun _ => Nat.sInf_le⟩)
  · intro hall i hi
    obtain ⟨⟨hmem, hlow⟩, -⟩ := h.next?_eq_some.1 hi
    exact absurd (hall i hmem) (not_lt.2 hlow)

lemma Holds.mem_toListFrom (h : Holds s S) : i ∈ s.toListFrom low ↔ i ∈ S ∧ low ≤ i := by
  fun_induction toListFrom s low with
  | case1 low hnone =>
    have hbelow := h.next?_eq_none.1 hnone i
    simp only [List.not_mem_nil, false_iff, not_and, not_le]
    exact hbelow
  | case2 low k hk ih =>
    obtain ⟨⟨hmem, hlow⟩, hleast⟩ := h.next?_eq_some.1 hk
    rw [List.mem_cons, ih]
    constructor
    · rintro (rfl | ⟨hi, hki⟩)
      · exact ⟨hmem, hlow⟩
      · exact ⟨hi, by omega⟩
    · rintro ⟨hi, hli⟩
      have hki : k ≤ i := hleast ⟨hi, hli⟩
      exact hki.eq_or_lt.imp Eq.symm fun hlt => ⟨hi, hlt⟩

lemma Holds.toListFrom_ascending (h : Holds s S) : (s.toListFrom low).Pairwise (· < ·) := by
  fun_induction toListFrom s low with
  | case1 => exact .nil
  | case2 low k hk ih => exact .cons (fun i hi => (h.mem_toListFrom.1 hi).2) ih

lemma word_eq_zero (h : ∀ k < 64, w.toNat.testBit k = false) : w = 0 := by
  refine UInt64.toNat_inj.1 (Nat.zero_of_testBit_eq_false fun k => ?_)
  rcases Nat.lt_or_ge k 64 with hk | hk
  · exact h k hk
  · exact Nat.testBit_lt_two_pow (w.toNat_lt.trans_le (Nat.pow_le_pow_right (by decide) hk))

lemma Holds.isEmpty_iff (h : Holds s S) : s.isEmpty ↔ S = ∅ := by
  rw [isEmpty, Array.all_eq_true]
  simp only [beq_iff_eq]
  constructor
  · refine fun hall => Finset.eq_empty_of_forall_notMem fun i hi => ?_
    have hsize : i / 64 < s.words.size := by have := h.below i hi; rw [h.size]; omega
    have hbit := (h.bit_iff i).2 hi
    simp [bit, hsize, hall _ hsize] at hbit
  · rintro rfl n hn
    refine word_eq_zero fun k hk => Bool.eq_false_iff.2 fun hbit => ?_
    have hword : s.bit (64 * n + k) := by simpa [bit_word s n hk, hn] using hbit
    exact absurd ((h.bit_iff _).1 hword) (Finset.notMem_empty _)

/-- A bit set answers every question as the finite set `S` does. -/
structure Answers (s : BitSet) (S : Finset Nat) : Prop where
  insert : ∀ i < s.capacity, s.insertNew i = .ok (decide (i ∉ S), s.insert i)
  contains : ∀ i, s.contains i ↔ i ∈ S
  isEmpty : s.isEmpty ↔ S = ∅
  next : ∀ low i, s.next? low = some i ↔ IsLeast {j | j ∈ S ∧ low ≤ j} i
  last : ∀ low, s.next? low = none ↔ ∀ i ∈ S, i < low
  members : ∀ i, i ∈ s.toList ↔ i ∈ S
  ascending : s.toList.Pairwise (· < ·)

lemma Holds.contains_iff (h : Holds s S) (i : Nat) : s.contains i ↔ i ∈ S := by
  rw [contains_eq, Bool.and_eq_true, decide_eq_true_iff, h.bit_iff]
  exact and_iff_right_of_imp (h.below i)

/-- No calls fail, and after them a bit set answers as the set that they make. -/
theorem answers_calls (capacity : Nat) (calls : List (Call capacity)) :
    ∃ s, calls.foldlM Call.run (empty capacity) = .ok s ∧ s.capacity = capacity ∧
      s.Answers (calls.foldl Call.apply ∅) := by
  have hstart : (empty capacity).capacity = capacity := rfl
  obtain ⟨s, hrun, hcapacity, h⟩ := (holds_empty capacity).calls hstart calls
  refine ⟨s, hrun, hcapacity, ⟨fun i hi => ?_, h.contains_iff, h.isEmpty_iff, fun _ _ => h.next?_eq_some,
    fun _ => h.next?_eq_none, fun i => ?_, h.toListFrom_ascending⟩⟩
  · have hcontains : s.contains i = decide (i ∈ calls.foldl Call.apply ∅) := by
      rw [Bool.eq_iff_iff, h.contains_iff, decide_eq_true_iff]
    rw [insertNew, if_pos hi, hcontains, decide_not]
  · rw [toList, h.mem_toListFrom, and_iff_left (Nat.zero_le i)]

end MethodIR.BitSet
