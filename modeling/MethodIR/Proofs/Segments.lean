import MethodIR.Proofs.BlockEnds

/-!
# Segments of code

Leaders are boundaries between instructions, so a segment is a run of instructions of which at most the
last one ends a block (`segment_code`).
-/

namespace MethodIR

open List Lists Except

variable {offset : Nat}

namespace Lists

variable {n x : Nat} {l : List Nat}

lemma mem_insertAscending : x ∈ insertAscending n l ↔ x = n ∨ x ∈ l := by
  induction l with
  | nil => simp [insertAscending]
  | cons m ms ih =>
    rw [insertAscending]
    split
    · simp
    · split
      · next hnm =>
        subst hnm
        simp
      · rw [mem_cons, ih, mem_cons]
        tauto

lemma pairwise_insertAscending (h : l.Pairwise (· < ·)) : (insertAscending n l).Pairwise (· < ·) := by
  induction l with
  | nil => simp [insertAscending]
  | cons m ms ih =>
    obtain ⟨hm, hms⟩ := pairwise_cons.1 h
    rw [insertAscending]
    split
    · next hlt =>
      refine pairwise_cons.2 ⟨fun x hx => ?_, h⟩
      rcases mem_cons.1 hx with rfl | hx
      · exact hlt
      · exact hlt.trans (hm x hx)
    · split
      · exact h
      · refine pairwise_cons.2 ⟨fun x hx => ?_, ih hms⟩
        rcases mem_insertAscending.1 hx with rfl | hx
        · omega
        · exact hm x hx

lemma not_between (h : l.Pairwise (· < ·)) {a b : Nat} (ha : l[n]? = some a)
    (hb : l[n + 1]? = some b) (hx : x ∈ l) : x ≤ a ∨ b ≤ x := by
  obtain ⟨k, hk, rfl⟩ := mem_iff_getElem.1 hx
  obtain ⟨hn, rfl⟩ := List.getElem?_eq_some_iff.1 ha
  obtain ⟨hn', rfl⟩ := List.getElem?_eq_some_iff.1 hb
  have hmono := pairwise_iff_getElem.1 h
  rcases Nat.lt_trichotomy k n with hkn | rfl | hkn
  · exact .inl (hmono k n hk hn hkn).le
  · exact .inl le_rfl
  · rcases Nat.lt_or_ge (n + 1) k with hlt | hge
    · exact .inr (hmono (n + 1) k hn' hk hlt).le
    · obtain rfl : k = n + 1 := by omega
      exact .inr le_rfl

end Lists

namespace Bytecode

/-- Each instruction starts where the one before it ends, the first one at an offset. -/
def ContiguousFrom : Nat → List Instruction → Prop
  | _, [] => True
  | offset, i :: rest => i.offset = offset ∧ ContiguousFrom i.endOffset rest

/-- The instructions are laid out from offset 0 without gaps. -/
def Contiguous (m : Bytecode) : Prop := ContiguousFrom 0 m.code.toList

def boundary (m : Bytecode) (n : Nat) : Nat := (m.code[n]?.map Instruction.offset).getD m.codeSize

lemma Instruction.offset_lt (i : Instruction) : i.offset < i.endOffset := by
  have hsize : 0 < i.op.size := by
    rw [Opcode.size]
    split <;> omega
  unfold endOffset size Instruction.sizeOf
  omega

lemma ContiguousFrom.offset_succ {l : List Instruction} : ∀ {o n : Nat} {i j : Instruction},
    ContiguousFrom o l → l[n]? = some i → l[n + 1]? = some j → j.offset = i.endOffset := by
  induction l with
  | nil => simp
  | cons a l ih =>
    intro o n i j h hi hj
    cases n with
    | zero =>
      cases l with
      | nil => simp at hj
      | cons b l =>
        obtain rfl : a = i := by simpa using hi
        obtain rfl : b = j := by simpa using hj
        exact h.2.1
    | succ n => exact ih h.2 (by simpa using hi) (by simpa using hj)

section Boundaries

variable {m : Bytecode} {n k : Nat} {i : Instruction}

lemma boundary_eq (hi : m.code[n]? = some i) : m.boundary n = i.offset := by
  rw [boundary, hi]
  rfl

lemma boundary_size : m.boundary m.code.size = m.codeSize := by
  simp [boundary]

section

variable (h : m.Contiguous)
include h

lemma boundary_succ (hi : m.code[n]? = some i) : m.boundary (n + 1) = i.endOffset := by
  cases hj : m.code[n + 1]? with
  | some j =>
    rw [boundary_eq hj]
    exact ContiguousFrom.offset_succ h (by simpa using hi) (by simpa using hj)
  | none =>
    have hn : n < m.code.size := (Array.getElem?_eq_some_iff.1 hi).1
    have hlast : n = m.code.size - 1 := by
      have := Array.getElem?_eq_none_iff.1 hj
      omega
    rw [boundary, hj, codeSize, Array.back?_eq_getElem?, ← hlast, hi]
    rfl

lemma boundary_lt (hk : k ≤ m.code.size) (hnk : n < k) : m.boundary n < m.boundary k := by
  induction k with
  | zero => omega
  | succ k ih =>
    obtain ⟨i, hi⟩ : ∃ i, m.code[k]? = some i := ⟨_, Array.getElem?_eq_getElem (by omega)⟩
    have hstep : m.boundary k < m.boundary (k + 1) := by
      rw [boundary_eq hi, boundary_succ h hi]
      exact i.offset_lt
    rcases Nat.lt_or_ge n k with hlt | hge
    · exact (ih (by omega) hlt).trans hstep
    · obtain rfl : n = k := by omega
      exact hstep

lemma boundary_inj (hn : n ≤ m.code.size) (hk : k ≤ m.code.size) (heq : m.boundary n = m.boundary k) : n = k := by
  rcases Nat.lt_trichotomy n k with hlt | rfl | hlt
  · exact absurd heq (boundary_lt h hk hlt).ne
  · rfl
  · exact absurd heq.symm (boundary_lt h hn hlt).ne

lemma boundary_zero : m.boundary 0 = 0 := by
  rw [Contiguous] at h
  cases hcode : m.code.toList with
  | nil =>
    obtain hempty : m.code = #[] := by simpa using hcode
    simp [boundary, codeSize, hempty]
  | cons i rest =>
    rw [hcode] at h
    have hi : m.code[0]? = some i := by
      rw [← Array.getElem?_toList, hcode]
      rfl
    rw [boundary_eq hi]
    exact h.1

lemma find?_offset (hi : m.code[n]? = some i) : m.code.toList.find? (·.offset = i.offset) = some i := by
  have hmem : i ∈ m.code.toList := mem_of_getElem? (by simpa using hi)
  cases hfind : m.code.toList.find? (·.offset = i.offset) with
  | none => simpa using find?_eq_none.1 hfind i hmem
  | some j =>
    have hoffset : j.offset = i.offset := by simpa using find?_some hfind
    obtain ⟨k, hk⟩ := mem_iff_getElem?.1 (mem_of_find?_eq_some hfind)
    have hj : m.code[k]? = some j := by simpa using hk
    have hkn : k = n := boundary_inj h (Array.getElem?_eq_some_iff.1 hj).1.le
      (Array.getElem?_eq_some_iff.1 hi).1.le (by rw [boundary_eq hj, boundary_eq hi, hoffset])
    rw [hkn] at hj
    exact hj.symm.trans hi

end

lemma indexAt_eq_ok (h : m.indexAt offset = .ok n) (hle : offset ≤ m.codeSize) :
    n ≤ m.code.size ∧ m.boundary n = offset := by
  rw [indexAt] at h
  split at h
  · next k hk =>
    obtain rfl : k = n := by simpa using h
    obtain ⟨hlt, hkey⟩ := bisect?_eq_some hk
    refine ⟨hlt.le, ?_⟩
    rw [boundary_eq (Array.getElem?_eq_getElem hlt), ← hkey]
    simp [hlt]
  · split at h
    · obtain rfl : m.code.size = n := by simpa using h
      exact ⟨le_rfl, by rw [boundary_size]; omega⟩
    · simp at h

end Boundaries

end Bytecode

namespace Import

open Bytecode (Instruction)

variable {m : Bytecode} {codeSize : Nat} {old new found a b c targets : List Nat} {i : Instruction}

/-! ## Leaders -/

section

variable {β γ : Type} {f : β → γ → Except Error β} {b r : β}

lemma foldlM_spec {xs : List γ} (R : β → β → Prop) (Q : γ → β → Prop) (hrefl : ∀ b, R b b)
    (htrans : ∀ b c d, R b c → R c d → R b d) (hkeep : ∀ x b c, Q x b → R b c → Q x c)
    (hstep : ∀ x ∈ xs, ∀ b c, f b x = .ok c → R b c ∧ Q x c) (h : xs.foldlM f b = .ok r) :
    R b r ∧ ∀ x ∈ xs, Q x r := by
  induction xs generalizing b with
  | nil =>
    obtain rfl : b = r := by simpa [pure, Except.pure] using h
    exact ⟨hrefl b, by simp⟩
  | cons x xs ih =>
    rw [foldlM_cons] at h
    cases hx : f b x with
    | error e => simp [hx, bind, Except.bind] at h
    | ok c =>
      simp only [hx, bind, bind] at h
      obtain ⟨hR, hQ⟩ := hstep x (by simp) b c hx
      obtain ⟨hR', hall⟩ := ih (fun y hy => hstep y (by simp [hy])) h
      exact ⟨htrans b c r hR hR', by simpa using ⟨hkeep x c r hQ hR', hall⟩⟩

end

structure Marks (codeSize : Nat) (old new : List Nat) : Prop where
  subset : old ⊆ new
  ascending : old.Pairwise (· < ·) → new.Pairwise (· < ·)
  le : (∀ t ∈ old, t ≤ codeSize) → ∀ t ∈ new, t ≤ codeSize

lemma Marks.refl (codeSize : Nat) (old : List Nat) : Marks codeSize old old := ⟨Subset.refl _, id, id⟩

lemma Marks.trans (h : Marks codeSize a b) (k : Marks codeSize b c) : Marks codeSize a c :=
  ⟨Subset.trans h.subset k.subset, k.ascending ∘ h.ascending, k.le ∘ h.le⟩

lemma mark_eq_ok {target : Nat}
    (h : mark codeSize offset old target = .ok new) : Marks codeSize old new ∧ target ∈ new := by
  rw [mark] at h
  split at h
  · simp at h
  · next hle =>
    obtain rfl : insertAscending target old = new := by simpa using h
    refine ⟨⟨fun t ht => mem_insertAscending.2 (.inr ht), pairwise_insertAscending,
      fun hold t ht => ?_⟩, mem_insertAscending.2 (.inl rfl)⟩
    rcases mem_insertAscending.1 ht with rfl | ht
    · omega
    · exact hold t ht

lemma foldlM_mark (h : targets.foldlM (mark codeSize offset) old = .ok new) :
    Marks codeSize old new ∧ ∀ t ∈ targets, t ∈ new :=
  foldlM_spec (Marks codeSize) (fun t l => t ∈ l) (.refl codeSize) (fun _ _ _ => .trans)
    (fun _ _ _ ht hm => hm.subset ht) (fun _ _ _ _ hx => mark_eq_ok hx) h

def Marked (leaders : List Nat) (i : Instruction) : Prop :=
  i.op.endsBlock → i.endOffset ∈ leaders ∧ ∀ t ∈ i.branchTargets, t ∈ leaders

lemma Marked.mono (h : Marked old i) (hsub : old ⊆ new) : Marked new i :=
  fun hi => ⟨hsub (h hi).1, fun t ht => hsub ((h hi).2 t ht)⟩

lemma markInstruction_eq_ok
    (h : markInstruction codeSize old i = .ok new) : Marks codeSize old new ∧ Marked new i := by
  rw [markInstruction] at h
  split at h
  · next hends =>
    cases hfold : i.branchTargets.foldlM (mark codeSize i.offset) old with
    | error e => simp [hfold, bind, Except.bind] at h
    | ok found =>
      cases hend : i.checkedEnd with
      | error e => simp [hfold, hend, bind, Except.bind] at h
      | ok stop =>
        simp only [hfold, hend, bind, bind] at h
        obtain ⟨hmarks, htargets⟩ := foldlM_mark hfold
        obtain ⟨hmarks', hstop⟩ := mark_eq_ok h
        obtain rfl : i.endOffset = stop := by
          rw [Instruction.checkedEnd] at hend
          split at hend
          · simpa using hend
          · simp at hend
        exact ⟨hmarks.trans hmarks', fun _ => ⟨hstop, fun t ht => hmarks'.subset (htargets t ht)⟩⟩
  · next hends =>
    obtain rfl : old = new := by simpa using h
    exact ⟨.refl _ _, fun hi => absurd hi hends⟩

def BoundsMarked (leaders : List Nat) (r : Bytecode.Region) : Prop :=
  r.tryStart < r.tryEnd ∧ r.handlerStart < r.handlerEnd ∧ ∀ t ∈ r.bounds, t ∈ leaders

lemma markRegion_eq_ok {r : Bytecode.Region}
    (h : markRegion codeSize old r = .ok new) : Marks codeSize old new ∧ BoundsMarked new r := by
  rw [markRegion] at h
  split at h
  · simp at h
  · next hranges =>
    obtain ⟨hmarks, hbounds⟩ := foldlM_mark h
    simp only [Bool.or_eq_true, decide_eq_true_eq, not_or, not_le] at hranges
    exact ⟨hmarks, hranges.1, hranges.2, hbounds⟩

lemma checkedSize_eq_ok {size : Nat} (h : m.checkedSize = .ok size) : size = m.codeSize := by
  rw [Bytecode.checkedSize] at h
  rw [Bytecode.codeSize]
  cases hback : m.code.back? with
  | none =>
    rw [hback] at h
    simpa using h.symm
  | some i =>
    simp only [hback, Instruction.checkedEnd] at h
    split at h
    · simpa using h.symm
    · simp at h

lemma forM_indexAt {u : Unit} (h : (found.forM fun offset => discard (m.indexAt offset)) = .ok u) :
    ∀ t ∈ found, ∃ n, m.indexAt t = .ok n := by
  induction found with
  | nil => simp
  | cons t found ih =>
    change (discard (m.indexAt t) >>= fun _ => found.forM fun offset => discard (m.indexAt offset)) = _ at h
    cases hn : m.indexAt t with
    | error e => simp [hn, discard, bind, Except.bind, Functor.discard, Functor.mapConst, Except.map] at h
    | ok n =>
      rw [hn] at h
      exact fun x hx => (mem_cons.1 hx).elim (fun hx => ⟨n, hx ▸ hn⟩) (ih h x)

structure Leaders (m : Bytecode) (leaders : List Nat) : Prop where
  ascending : leaders.Pairwise (· < ·)
  le : ∀ t ∈ leaders, t ≤ m.codeSize
  index : ∀ t ∈ leaders, ∃ n, m.indexAt t = .ok n
  code : ∀ i ∈ m.code.toList, Marked leaders i
  regions : ∀ r ∈ m.regions, BoundsMarked leaders r

lemma leaders_eq_ok (h : leaders m = .ok found) : Leaders m found := by
  rw [leaders] at h
  cases hsize : m.checkedSize with
  | error e => simp [hsize, bind, Except.bind] at h
  | ok size =>
    cases hcode : m.code.toList.foldlM (markInstruction size) [] with
    | error e => simp [hsize, hcode, bind, Except.bind] at h
    | ok found₁ =>
      cases hregions : m.regions.foldlM (markRegion size) found₁ with
      | error e => simp [hsize, hcode, hregions, bind, Except.bind] at h
      | ok found₂ =>
        simp only [hsize, hcode, hregions, bind, Except.bind] at h
        cases hindex : found₂.forM fun offset => discard (m.indexAt offset) with
        | error e => simp [hindex] at h
        | ok u =>
          simp only [hindex] at h
          obtain rfl : found₂ = found := by simpa [pure, Except.pure] using h
          obtain rfl := checkedSize_eq_ok hsize
          obtain ⟨hmarks, hmarked⟩ := foldlM_spec (Marks m.codeSize) (fun i l => Marked l i)
            (.refl _) (fun _ _ _ => .trans) (fun _ _ _ hi hm => hi.mono hm.subset)
            (fun _ _ _ _ hx => markInstruction_eq_ok hx) hcode
          obtain ⟨hmarks', hbounds⟩ := foldlM_spec (Marks m.codeSize) (fun r l => BoundsMarked l r)
            (.refl _) (fun _ _ _ => .trans)
            (fun _ _ _ hr hm => ⟨hr.1, hr.2.1, fun t ht => hm.subset (hr.2.2 t ht)⟩)
            (fun _ _ _ _ hx => markRegion_eq_ok hx) hregions
          have hall := hmarks.trans hmarks'
          exact ⟨hall.ascending .nil, hall.le (by simp), forM_indexAt hindex,
            fun i hi => (hmarked i hi).mono hmarks'.subset, hbounds⟩

/-! ## Ranges -/

def cuts (m : Bytecode) (leaders : List Nat) : List Nat :=
  insertAscending m.codeSize (insertAscending 0 leaders)

section Ranges

variable {leaders : List Nat} {n start stop t : Nat}

lemma mem_cuts : t ∈ cuts m leaders ↔ t = m.codeSize ∨ t = 0 ∨ t ∈ leaders := by
  rw [cuts, mem_insertAscending, mem_insertAscending]

lemma getElem?_ranges : (ranges m.codeSize leaders)[n]? = some (start, stop) ↔
    (cuts m leaders)[n]? = some start ∧ (cuts m leaders)[n + 1]? = some stop := by
  change ((cuts m leaders).zip (cuts m leaders).tail)[n]? = _ ↔ _
  rw [getElem?_zip_eq_some, getElem?_tail]

variable (h : Leaders m leaders) (hm : m.Contiguous)

include h in
lemma Leaders.cuts_ascending : (cuts m leaders).Pairwise (· < ·) :=
  pairwise_insertAscending (pairwise_insertAscending h.ascending)

include h hm in
lemma Leaders.exists_boundary (ht : t ∈ cuts m leaders) :
    t ≤ m.codeSize ∧ ∃ n, n ≤ m.code.size ∧ m.boundary n = t := by
  rcases mem_cuts.1 ht with rfl | rfl | ht
  · exact ⟨le_rfl, m.code.size, le_rfl, Bytecode.boundary_size⟩
  · exact ⟨Nat.zero_le _, 0, Nat.zero_le _, Bytecode.boundary_zero hm⟩
  · obtain ⟨n, hn⟩ := h.index t ht
    exact ⟨h.le t ht, n, Bytecode.indexAt_eq_ok hn (h.le t ht)⟩

lemma codeSize_pos (hcode : m.code.isEmpty = false) : 0 < m.codeSize := by
  obtain ⟨i, hi⟩ : ∃ i, m.code.back? = some i := by
    rw [← Option.isSome_iff_exists, Array.back?_isSome]
    simpa [Array.isEmpty] using hcode
  rw [Bytecode.codeSize, hi]
  exact lt_of_le_of_lt (Nat.zero_le _) i.offset_lt

lemma ranges_ne_nil (hcode : m.code.isEmpty = false) : ranges m.codeSize leaders ≠ [] := by
  intro hnil
  have hpos := codeSize_pos hcode
  have hzero : 0 ∈ cuts m leaders := mem_cuts.2 (.inr (.inl rfl))
  have hend : m.codeSize ∈ cuts m leaders := mem_cuts.2 (.inl rfl)
  change (cuts m leaders).zip (cuts m leaders).tail = [] at hnil
  rcases zip_eq_nil_iff.1 hnil with hcuts | htail
  · simp [hcuts] at hzero
  · -- A list with at most one element does not have both ends of the code.
    have hlength : (cuts m leaders).length ≤ 1 := by
      have := congrArg length htail
      simp at this
      omega
    obtain ⟨i, hi, hfirst⟩ := mem_iff_getElem.1 hzero
    obtain ⟨j, hj, hlast⟩ := mem_iff_getElem.1 hend
    obtain rfl : i = j := by omega
    omega

include h hm in
lemma Leaders.exists_range_iff : (∃ n stop : Nat, (ranges m.codeSize leaders)[n]? = some (t, stop)) ↔
      t < m.codeSize ∧ (t = 0 ∨ t ∈ leaders) := by
  have hascending := pairwise_iff_getElem.1 h.cuts_ascending
  constructor
  · rintro ⟨n, stop, hrange⟩
    obtain ⟨hstart, hstop⟩ := getElem?_ranges.1 hrange
    have hle := (h.exists_boundary hm (mem_of_getElem? hstop)).1
    have hmem := mem_cuts.1 (mem_of_getElem? hstart)
    obtain ⟨hn, rfl⟩ := List.getElem?_eq_some_iff.1 hstart
    obtain ⟨hn', rfl⟩ := List.getElem?_eq_some_iff.1 hstop
    have hlt := hascending n (n + 1) hn hn' (by omega)
    refine ⟨by omega, hmem.resolve_left (by omega)⟩
  · rintro ⟨hlt, hmem⟩
    obtain ⟨n, hn, rfl⟩ := mem_iff_getElem.1 (mem_cuts.2 (.inr hmem) : t ∈ cuts m leaders)
    obtain ⟨k, hk, hkey⟩ := mem_iff_getElem.1 (mem_cuts.2 (.inl rfl) : m.codeSize ∈ cuts m leaders)
    have hnk : n < k := by
      rcases Nat.lt_trichotomy n k with hnk | rfl | hnk
      · exact hnk
      · omega
      · have := hascending k n hk hn hnk
        omega
    refine ⟨n, (cuts m leaders)[n + 1], getElem?_ranges.2 ⟨getElem?_eq_getElem hn, ?_⟩⟩
    exact getElem?_eq_getElem (by omega)

structure IsSegment (m : Bytecode) (leaders : List Nat) (first : Nat) (code : List Instruction) : Prop where
  ne_nil : code ≠ []
  instruction : ∀ k < code.length, m.code[first + k]? = code[k]?
  plain : ∀ k i, k + 1 < code.length → code[k]? = some i → i.op.endsBlock = false
  between : ∀ k, 0 < k → k < code.length → m.boundary (first + k) ∉ cuts m leaders

include h hm in
lemma Leaders.index_lt {first last : Nat} (hrange : (ranges m.codeSize leaders)[n]? = some (start, stop))
    (hfirst : m.indexAt start = .ok first) (hlast : m.indexAt stop = .ok last) :
    first < last ∧ first ≤ m.code.size ∧ m.boundary first = start ∧ last ≤ m.code.size ∧
      m.boundary last = stop := by
  obtain ⟨hstart, hstop⟩ := getElem?_ranges.1 hrange
  have hlt : start < stop := by
    obtain ⟨hn, rfl⟩ := List.getElem?_eq_some_iff.1 hstart
    obtain ⟨hn', rfl⟩ := List.getElem?_eq_some_iff.1 hstop
    exact pairwise_iff_getElem.1 h.cuts_ascending n (n + 1) hn hn' (by omega)
  obtain ⟨hf, hfb⟩ := Bytecode.indexAt_eq_ok hfirst (h.exists_boundary hm (mem_of_getElem? hstart)).1
  obtain ⟨hl, hlb⟩ := Bytecode.indexAt_eq_ok hlast (h.exists_boundary hm (mem_of_getElem? hstop)).1
  refine ⟨?_, hf, hfb, hl, hlb⟩
  rcases Nat.lt_trichotomy first last with hlt' | rfl | hgt
  · exact hlt'
  · omega
  · have := Bytecode.boundary_lt hm hf hgt
    omega

include h hm in
lemma segment_code {code : List Instruction} (hrange : (ranges m.codeSize leaders)[n]? = some (start, stop))
    (hcode : codeBetween m start stop = .ok code) :
    ∃ first, IsSegment m leaders first code ∧ m.boundary first = start ∧
      m.boundary (first + code.length) = stop := by
  obtain ⟨hstart, hstop⟩ := getElem?_ranges.1 hrange
  have hascending := h.cuts_ascending
  rw [codeBetween] at hcode
  cases hfirst : m.indexAt start with
  | error e => simp [hfirst, bind, Except.bind] at hcode
  | ok first =>
    cases hlast : m.indexAt stop with
    | error e => simp [hfirst, hlast, bind, Except.bind] at hcode
    | ok last =>
      obtain ⟨hfl, hf, hfb, hl, hlb⟩ := h.index_lt hm hrange hfirst hlast
      simp only [hfirst, hlast, bind, Except.bind, if_neg (show ¬last < first by omega)] at hcode
      obtain rfl : (m.code.extract first last).toList = code := by
        simpa [pure, Except.pure] using hcode
      have hlength : (m.code.extract first last).toList.length = last - first := by
        simp
        omega
      have hget : ∀ k < last - first, m.code[first + k]? = (m.code.extract first last).toList[k]? := fun k hk => by
        simp [hk]
      have hbetween : ∀ k, 0 < k → k < last - first → m.boundary (first + k) ∉ cuts m leaders := by
        intro k hk hk' hmem
        have hlow := Bytecode.boundary_lt hm (show first + k ≤ m.code.size by omega)
          (show first < first + k by omega)
        have hhigh := Bytecode.boundary_lt hm hl (show first + k < last by omega)
        rcases not_between hascending hstart hstop hmem with hle | hge
        · omega
        · omega
      refine ⟨first, ⟨?_, ?_, ?_, ?_⟩, hfb, ?_⟩
      · intro hnil
        rw [hnil] at hlength
        simp at hlength
        omega
      · rw [hlength]
        exact hget
      · rw [hlength]
        intro k i hk hi
        by_contra hends
        rw [Bool.not_eq_false] at hends
        have hi' : m.code[first + k]? = some i := (hget k (by omega)).trans hi
        have hmem : i ∈ m.code.toList := mem_of_getElem? (by simpa using hi')
        have hleader := (h.code i hmem hends).1
        rw [← Bytecode.boundary_succ hm hi'] at hleader
        exact hbetween (k + 1) (by omega) (by omega) (mem_cuts.2 (.inr (.inr hleader)))
      · rw [hlength]
        exact hbetween
      · rw [hlength, show first + (last - first) = last by omega, hlb]

end Ranges

end Import

end MethodIR
