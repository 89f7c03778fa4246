import MethodIR.Proofs.ControlFlow
import MethodIR.Proofs.ReportedErrors

/-!
# Partition of the code

Leaders are found exactly if every place that branches and regions name is the start of an instruction or the
end of the code. The segments then cut the code at the leaders (`leaders_partition`).
-/

namespace MethodIR

variable {i : Instruction}

/-! ## Bisection -/

namespace Lists

variable {key : Nat → Nat} {limit place : Nat} (hkey : ∀ a b, a < b → b < limit → key a < key b)

include hkey

lemma bisectFrom_eq (base size : Nat) (hlow : base ≤ place) (hhigh : place < base + size)
    (hlimit : base + size ≤ limit) : bisectFrom key (key place) base size = place := by
  fun_induction bisectFrom key (key place) base size with
  | case1 base size hsize => omega
  | case2 base size hsize half ih =>
    have hhalf : half = size / 2 := rfl
    simp only [dite_eq_ite] at ih
    by_cases hlt : key place < key (base + half)
    · have hplace : place < base + half := by
        by_contra hge
        rcases (not_lt.1 hge).lt_or_eq with h | h
        · have := hkey _ _ h (by omega)
          omega
        · rw [h] at hlt
          omega
      simp only [hlt, if_true] at ih ⊢
      exact ih hlow (by omega) (by omega)
    · have hplace : base + half ≤ place := by
        by_contra hgt
        exact hlt (hkey _ _ (not_le.1 hgt) (by omega))
      simp only [hlt, if_false] at ih ⊢
      exact ih hplace (by omega) (by omega)

lemma bisect?_key (hplace : place < limit) : bisect? key limit (key place) = some place := by
  have hfound : bisectFrom key (key place) 0 limit = place :=
    bisectFrom_eq hkey 0 limit (Nat.zero_le _) (by omega) (by omega)
  rw [bisect?, if_neg (by omega)]
  simp only [hfound, if_true]

end Lists

/-! ## Places in the code -/

namespace Bytecode

open List

variable {m : Bytecode} {n offset : Nat}

/-- An instruction starts at an offset, or the code ends there. -/
def IsPlace (m : Bytecode) (offset : Nat) : Prop := (∃ i ∈ m.code.toList, i.offset = offset) ∨ offset = m.codeSize

/-- The offsets that instructions which end their block and regions name. -/
inductive Names (m : Bytecode) : Nat → Prop
  | target {i : Instruction} {t : Nat} (mem : i ∈ m.code.toList) (ends : i.op.endsBlock)
    (target : t ∈ i.branchTargets) : Names m t
  | bound {r : Region} {t : Nat} (mem : r ∈ m.regions) (bound : t ∈ r.bounds) : Names m t

/-- A segment has to start at what is named, and after an instruction that ends its block. -/
inductive Leads (m : Bytecode) : Nat → Prop
  | named {t : Nat} (names : m.Names t) : Leads m t
  | after {i : Instruction} (mem : i ∈ m.code.toList) (ends : i.op.endsBlock) : Leads m i.endOffset

/-- No range of a region is empty, and only places are named. -/
structure NamesPlaces (m : Bytecode) : Prop where
  ranges : ∀ r ∈ m.regions, r.tryStart < r.tryEnd ∧ r.handlerStart < r.handlerEnd
  places : ∀ t, m.Names t → m.IsPlace t

lemma isPlace_iff : m.IsPlace offset ↔ ∃ n ≤ m.code.size, m.boundary n = offset := by
  constructor
  · rintro (⟨i, hi, rfl⟩ | rfl)
    · obtain ⟨n, hn⟩ := mem_iff_getElem?.1 hi
      have hn : m.code[n]? = some i := by simpa using hn
      exact ⟨n, (Array.getElem?_eq_some_iff.1 hn).1.le, boundary_eq hn⟩
    · exact ⟨m.code.size, le_rfl, boundary_size⟩
  · rintro ⟨n, hn, rfl⟩
    rcases hn.lt_or_eq with hlt | rfl
    · have hi := Array.getElem?_eq_getElem hlt
      exact .inl ⟨m.code[n], by simp, (boundary_eq hi).symm⟩
    · exact .inr boundary_size

section Contiguous

variable (hm : m.Contiguous)

include hm

lemma isPlace_endOffset (hi : i ∈ m.code.toList) : m.IsPlace i.endOffset := by
  obtain ⟨n, hn⟩ := mem_iff_getElem?.1 hi
  have hn : m.code[n]? = some i := by simpa using hn
  exact isPlace_iff.2 ⟨n + 1, (Array.getElem?_eq_some_iff.1 hn).1, boundary_succ hm hn⟩

lemma IsPlace.le (h : m.IsPlace offset) : offset ≤ m.codeSize := by
  obtain ⟨n, hn, rfl⟩ := isPlace_iff.1 h
  rcases hn.lt_or_eq with hlt | rfl
  · exact boundary_size (m := m) ▸ (boundary_lt hm le_rfl hlt).le
  · exact boundary_size.le

lemma IsPlace.endOffset_le (h : m.IsPlace offset) (hi : i ∈ m.code.toList)
    (hlt : i.offset < offset) : i.endOffset ≤ offset := by
  obtain ⟨k, hk, rfl⟩ := isPlace_iff.1 h
  obtain ⟨n, hn⟩ := mem_iff_getElem?.1 hi
  have hn : m.code[n]? = some i := by simpa using hn
  have hsize := (Array.getElem?_eq_some_iff.1 hn).1
  rw [← boundary_eq hn] at hlt
  rw [← boundary_succ hm hn]
  rcases Nat.lt_trichotomy (n + 1) k with hnk | rfl | hnk
  · exact (boundary_lt hm hk hnk).le
  · exact le_rfl
  · rcases Nat.lt_or_eq_of_le (Nat.lt_succ_iff.1 hnk) with hlt' | rfl
    · exact absurd hlt (boundary_lt hm hsize.le hlt').not_gt
    · exact absurd hlt (lt_irrefl _)

lemma indexAt_boundary (hn : n ≤ m.code.size) : m.indexAt (m.boundary n) = .ok n := by
  have hkey : ∀ k < m.code.size, (m.code.getD k default).offset = m.boundary k := fun k hk => by
    rw [boundary_eq (Array.getElem?_eq_getElem hk), Array.getD_eq_getD_getElem?, Array.getElem?_eq_getElem hk]
    rfl
  have hascending : ∀ a b, a < b → b < m.code.size →
      (m.code.getD a default).offset < (m.code.getD b default).offset := fun a b hab hb => by
    rw [hkey a (by omega), hkey b hb]
    exact boundary_lt hm hb.le hab
  rw [indexAt]
  rcases hn.lt_or_eq with hlt | rfl
  · rw [← hkey n hlt, Lists.bisect?_key hascending hlt]
  · split
    · next k hk =>
      obtain ⟨hk, heq⟩ := Lists.bisect?_eq_some hk
      rw [hkey k hk] at heq
      exact absurd heq (boundary_lt hm le_rfl hk).ne
    · rw [boundary_size, if_pos le_rfl]

lemma IsPlace.exists_indexAt (h : m.IsPlace offset) : ∃ n, m.indexAt offset = .ok n := by
  obtain ⟨n, hn, rfl⟩ := isPlace_iff.1 h
  exact ⟨n, indexAt_boundary hm hn⟩

lemma Leads.isPlace (hlead : m.Leads offset) (hplaces : ∀ t, m.Names t → m.IsPlace t) : m.IsPlace offset := by
  cases hlead with
  | named names => exact hplaces _ names
  | after mem => exact isPlace_endOffset hm mem

end Contiguous

end Bytecode

namespace Import

open List

open Bytecode (Instruction Region)

variable {m : Bytecode} {found targets : List Nat} {β γ : Type}

/-! ## Finding the leaders -/

lemma foldlM_cases {f : β → γ → Except Error β} (P : β → Prop) (Q : Error → Prop) (xs : List γ)
    (hstep : ∀ x ∈ xs, ∀ b, P b → (∃ c, f b x = .ok c ∧ P c) ∨ ∃ e, f b x = .error e ∧ Q e) {b : β} (hb : P b) :
    (∃ c, xs.foldlM f b = .ok c ∧ P c) ∨ ∃ e, xs.foldlM f b = .error e ∧ Q e := by
  induction xs generalizing b with
  | nil => exact .inl ⟨b, rfl, hb⟩
  | cons x xs ih =>
    rw [foldlM_cons]
    rcases hstep x (by simp) b hb with ⟨c, hx, hc⟩ | ⟨e, hx, he⟩
    · rw [hx]
      exact ih (fun y hy => hstep y (by simp [hy])) hc
    · rw [hx]
      exact .inr ⟨e, rfl, he⟩

lemma exists_foldlM {f : β → γ → Except Error β} (P : β → Prop) (xs : List γ)
    (hstep : ∀ x ∈ xs, ∀ b, P b → ∃ c, f b x = .ok c ∧ P c) {b : β} (hb : P b) :
    ∃ c, xs.foldlM f b = .ok c ∧ P c :=
  (foldlM_cases P (fun _ => False) xs (fun x hx b hb => .inl (hstep x hx b hb)) hb).resolve_right (by simp)

/-- All that is marked so far has to be. -/
def Sound (m : Bytecode) (found : List Nat) : Prop := ∀ t ∈ found, m.Leads t

/-- An error for a region of which a range is empty. -/
def EmptyRange (m : Bytecode) (e : Error) : Prop :=
  ∃ r ∈ m.regions, (r.tryEnd ≤ r.tryStart ∨ r.handlerEnd ≤ r.handlerStart) ∧
    e = .invalidProgram r.tryStart .emptyRange

section Marking

variable (hm : m.Contiguous) (hplaces : ∀ t, m.Names t → m.IsPlace t)

include hm hplaces

section

variable (h : Sound m found)
include h

lemma Sound.mark (offset : Nat) {target : Nat} (htarget : m.Leads target) :
    ∃ next, mark m.codeSize offset found target = .ok next ∧ Sound m next := by
  have hle := (htarget.isPlace hm hplaces).le hm
  refine ⟨_, if_neg hle.not_gt, fun t ht => ?_⟩
  rcases Lists.mem_insertAscending.1 ht with rfl | ht
  · exact htarget
  · exact h t ht

lemma Sound.markAll (offset : Nat) (htargets : ∀ t ∈ targets, m.Leads t) :
    ∃ next, targets.foldlM (Import.mark m.codeSize offset) found = .ok next ∧ Sound m next :=
  exists_foldlM (Sound m) targets (fun t ht _ hsound => hsound.mark hm hplaces offset (htargets t ht)) h

lemma Sound.markInstruction (hi : i ∈ m.code.toList)
    (hsize : m.codeSize < wordLimit) : ∃ next, markInstruction m.codeSize found i = .ok next ∧ Sound m next := by
  rw [Import.markInstruction]
  split
  · next hends =>
    obtain ⟨next, hmarks, hsound⟩ := h.markAll hm hplaces i.offset fun t ht => .named (.target hi hends ht)
    obtain ⟨last, hlast, hsound'⟩ := hsound.mark hm hplaces i.offset (.after hi hends)
    have hfits : i.endOffset < wordLimit := ((Bytecode.isPlace_endOffset hm hi).le hm).trans_lt hsize
    refine ⟨last, ?_, hsound'⟩
    rw [hmarks, Instruction.checkedEnd, if_pos hfits]
    exact hlast
  · exact ⟨found, rfl, h⟩

lemma Sound.markRegion {r : Region} (hr : r ∈ m.regions) :
    (∃ next, markRegion m.codeSize found r = .ok next ∧ Sound m next) ∨
      ∃ e, markRegion m.codeSize found r = .error e ∧ EmptyRange m e := by
  rw [Import.markRegion]
  split
  · next hempty => exact .inr ⟨_, rfl, r, hr, by simpa using hempty, rfl⟩
  · exact .inl (h.markAll hm hplaces r.tryStart fun t ht => .named (.bound hr ht))

end

lemma leaders_cases (hsize : m.codeSize < wordLimit) :
    (∃ found, leaders m = .ok found ∧ Sound m found) ∨ ∃ e, leaders m = .error e ∧ EmptyRange m e := by
  have hchecked : m.checkedSize = .ok m.codeSize := by
    rw [Bytecode.checkedSize]
    cases hback : m.code.back? with
    | none => simp [Bytecode.codeSize, hback]
    | some i =>
      have hend : m.codeSize = i.endOffset := by simp [Bytecode.codeSize, hback]
      change i.checkedEnd = _
      rw [Instruction.checkedEnd, if_pos (hend ▸ hsize), hend]
  obtain ⟨found₁, hcode, hsound₁⟩ := exists_foldlM (Sound m) m.code.toList
    (fun i hi _ hsound => hsound.markInstruction hm hplaces hi hsize) (b := []) (fun t ht => by simp at ht)
  have hindex : ∀ l : List Nat, (∀ t ∈ l, m.IsPlace t) →
      (l.forM fun offset => discard (m.indexAt offset)) = (.ok () : Except Error Unit) := by
    intro l
    induction l with
    | nil => exact fun _ => rfl
    | cons t l ih =>
      intro hl
      rw [forall_mem_cons] at hl
      obtain ⟨n, hn⟩ := hl.1.exists_indexAt hm
      change (discard (m.indexAt t) >>= fun _ => l.forM fun offset => discard (m.indexAt offset)) = _
      rw [hn]
      exact ih hl.2
  rcases foldlM_cases (Sound m) (EmptyRange m) m.regions (fun r hr _ hsound => hsound.markRegion hm hplaces hr) hsound₁
    with ⟨found, hregions, hsound⟩ | ⟨e, hregions, hempty⟩
  · refine .inl ⟨found, ?_, hsound⟩
    simp only [leaders, hchecked, hcode, hregions, bind, Except.bind,
      hindex found fun t ht => (hsound t ht).isPlace hm hplaces]
    rfl
  · refine .inr ⟨e, ?_, hempty⟩
    simp only [leaders, hchecked, hcode, hregions, bind, Except.bind]

end Marking

lemma exists_leaders (hm : m.Contiguous) (hplaces : m.NamesPlaces) (hsize : m.codeSize < wordLimit) :
    ∃ found, leaders m = .ok found ∧ Sound m found := by
  refine (leaders_cases hm hplaces.places hsize).resolve_right ?_
  rintro ⟨-, -, r, hr, hempty, -⟩
  have := hplaces.ranges r hr
  omega

lemma Leaders.namesPlaces (h : Leaders m found) : m.NamesPlaces := by
  have hplace : ∀ t ∈ found, m.IsPlace t := fun t ht => by
    obtain ⟨n, hn⟩ := h.index t ht
    exact Bytecode.isPlace_iff.2 ⟨n, Bytecode.indexAt_eq_ok hn (h.le t ht)⟩
  refine ⟨fun r hr => ⟨(h.regions r hr).1, (h.regions r hr).2.1⟩, fun t ht => hplace t ?_⟩
  cases ht with
  | target mem ends target => exact (h.code _ mem ends).2 _ target
  | bound mem bound => exact (h.regions _ mem).2.2 _ bound

lemma mem_leaders_iff (hm : m.Contiguous) (hsize : m.codeSize < wordLimit) (hfound : leaders m = .ok found) {t : Nat} :
    t ∈ found ↔ m.Leads t := by
  have h := leaders_eq_ok hfound
  obtain ⟨found', hfound', hsound⟩ := exists_leaders hm h.namesPlaces hsize
  obtain rfl : found = found' := Except.ok.inj (hfound.symm.trans hfound')
  refine ⟨hsound t, fun ht => ?_⟩
  cases ht with
  | named names =>
    cases names with
    | target mem ends target => exact (h.code _ mem ends).2 _ target
    | bound mem bound => exact (h.regions _ mem).2.2 _ bound
  | after mem ends => exact (h.code _ mem ends).1

/-! ## Segments -/

/-- A segment contains an offset. -/
def Segment.Contains (x : Segment) (offset : Nat) : Prop := x.start ≤ offset ∧ offset < x.stop

/-- The segments cut the code at the leaders. -/
structure Partitions (m : Bytecode) (s : State) : Prop where
  size_pos : 0 < s.segments.size
  first : (s.segment 0).start = 0
  next : ∀ n, n + 1 < s.segments.size → (s.segment n).stop = (s.segment (n + 1)).start
  last : (s.segment (s.segments.size - 1)).stop = m.codeSize
  ascending : ∀ n k, n < k → k < s.segments.size → (s.segment n).start < (s.segment k).start
  start_iff : ∀ t, (∃ n < s.segments.size, (s.segment n).start = t) ↔ t < m.codeSize ∧ (t = 0 ∨ m.Leads t)
  unique : ∀ i ∈ m.code.toList, ∃! n, n < s.segments.size ∧ (s.segment n).Contains i.offset
  ends : ∀ i ∈ m.code.toList, i.op.endsBlock → ∀ n < s.segments.size,
    (s.segment n).Contains i.offset → (s.segment n).stop = i.endOffset

section Parted

variable {k offset : Nat}

variable {own : BlockId → Option Nat} {s : State} {n : Nat} (h : Parted m found own s) (hfound : Leaders m found)

include h

lemma Parted.cut (hn : n < s.segments.size) :
    (cuts m found)[n]? = some (s.segment n).start ∧ (cuts m found)[n + 1]? = some (s.segment n).stop :=
  getElem?_ranges.1 (h.range n hn)

lemma Parted.length_cuts : (cuts m found).length - 1 = s.segments.size := by
  rw [h.size, ranges, length_zip, length_tail]
  exact (min_eq_right (Nat.sub_le _ _)).symm

lemma Parted.size_pos (hcode : m.code.isEmpty = false) : 0 < s.segments.size := by
  rw [h.size]
  exact length_pos_iff.2 (ranges_ne_nil hcode)

include hfound

lemma Parted.start_lt (hk : k < s.segments.size) (hnk : n < k) : (s.segment n).start < (s.segment k).start := by
  obtain ⟨hn, hstart⟩ := List.getElem?_eq_some_iff.1 (h.cut (hnk.trans hk)).1
  obtain ⟨hk, hstart'⟩ := List.getElem?_eq_some_iff.1 (h.cut hk).1
  rw [← hstart, ← hstart']
  exact pairwise_iff_getElem.1 hfound.cuts_ascending n k hn hk hnk

lemma Parted.contains_inj (hn : n < s.segments.size) (hk : k < s.segments.size)
    (hin : (s.segment n).Contains offset) (hin' : (s.segment k).Contains offset) : n = k := by
  have hle : ∀ a b, a < b → b < s.segments.size → (s.segment a).stop ≤ (s.segment b).start := by
    intro a b hab hb
    rw [h.next (by omega)]
    rcases Nat.lt_or_eq_of_le (Nat.succ_le_of_lt hab) with hlt | heq
    · exact (h.start_lt hfound hb hlt).le
    · rw [← heq]
  obtain ⟨hlow, hhigh⟩ := hin
  obtain ⟨hlow', hhigh'⟩ := hin'
  rcases Nat.lt_trichotomy n k with hlt | heq | hlt
  · have := hle n k hlt hk
    omega
  · exact heq
  · have := hle k n hlt hn
    omega

variable (hm : m.Contiguous)

include hm

lemma Parted.stop_eq (hn : n < s.segments.size) (hi : i ∈ m.code.toList)
    (hends : i.op.endsBlock) (hin : (s.segment n).Contains i.offset) : (s.segment n).stop = i.endOffset := by
  obtain ⟨hlow, hhigh⟩ := hin
  obtain ⟨hstart, hstop⟩ := h.cut hn
  obtain ⟨k, hk⟩ := (hfound.exists_boundary hm (mem_of_getElem? hstop)).2
  have hle := (Bytecode.isPlace_iff.2 ⟨k, hk⟩).endOffset_le hm hi hhigh
  have hcut : i.endOffset ∈ cuts m found := mem_cuts.2 (.inr (.inr (hfound.code i hi hends).1))
  have hlt := i.offset_lt
  rcases Lists.not_between hfound.cuts_ascending hstart hstop hcut with hbefore | hafter
  · omega
  · omega

variable (hcode : m.code.isEmpty = false)

include hcode

lemma Parted.last : (s.segment (s.segments.size - 1)).stop = m.codeSize := by
  have hpos := h.size_pos hcode
  have hlast := (h.cut (show s.segments.size - 1 < s.segments.size by omega)).2
  obtain ⟨k, hk, hend⟩ := mem_iff_getElem.1 (mem_cuts.2 (.inl rfl) : m.codeSize ∈ cuts m found)
  have hle := (hfound.exists_boundary hm (mem_of_getElem? hlast)).1
  obtain ⟨hlt, hstop⟩ := List.getElem?_eq_some_iff.1 hlast
  have hlength := h.length_cuts
  rcases Nat.lt_or_ge k (s.segments.size - 1 + 1) with hlt' | hge
  · have := pairwise_iff_getElem.1 hfound.cuts_ascending k _ hk hlt hlt'
    omega
  · obtain rfl : k = s.segments.size - 1 + 1 := by omega
    exact hstop.symm.trans hend

lemma Parted.exists_contains (hlt : offset < m.codeSize) :
    ∃ n < s.segments.size, (s.segment n).Contains offset := by
  have hpos := h.size_pos hcode
  -- the last of the segments that start at or before the offset
  have hbefore : ∀ k, k < s.segments.size → (s.segment k).start ≤ offset →
      ∃ n < s.segments.size, (s.segment n).Contains offset := by
    intro k hk hle
    induction hrest : s.segments.size - k generalizing k with
    | zero => omega
    | succ rest ih =>
      by_cases hstop : offset < (s.segment k).stop
      · exact ⟨k, hk, hle, hstop⟩
      · have hnext : k + 1 < s.segments.size := by
          by_contra hend
          obtain rfl : k = s.segments.size - 1 := by omega
          rw [h.last hfound hm hcode] at hstop
          exact hstop hlt
        rw [h.next hnext] at hstop
        exact ih (k + 1) hnext (not_lt.1 hstop) (by omega)
  exact hbefore 0 hpos (by rw [h.start_zero hfound hpos]; exact Nat.zero_le _)

lemma Parted.partitions (hsize : m.codeSize < wordLimit) (hok : leaders m = .ok found) : Partitions m s where
  size_pos := h.size_pos hcode
  first := h.start_zero hfound (h.size_pos hcode)
  next _ := h.next
  last := h.last hfound hm hcode
  ascending _ _ hnk hk := h.start_lt hfound hk hnk
  start_iff t := by
    rw [← mem_leaders_iff hm hsize hok, h.exists_start_iff hfound hm]
  unique i hi := by
    have hlt : i.offset < m.codeSize := i.offset_lt.trans_le ((Bytecode.isPlace_endOffset hm hi).le hm)
    obtain ⟨n, hn, hin⟩ := h.exists_contains hfound hm hcode hlt
    exact ⟨n, ⟨hn, hin⟩, fun k hk => h.contains_inj hfound hk.1 hn hk.2 hin⟩
  ends _ hi hends _ hn := h.stop_eq hfound hm hn hi hends

end Parted

/-- Leaders are found exactly if no range of a region is empty and only places are named. The blocks that are
then created stand for the parts into which the leaders cut the code, and there is one before them exactly
if the code starts with a leader. -/
theorem leaders_partition (hm : m.Contiguous) (hcode : m.code.isEmpty = false) (hsize : m.codeSize < wordLimit)
    (log : Array Event) : ((∃ found, leaders m = .ok found) ↔ m.NamesPlaces) ∧ ∀ found, leaders m = .ok found →
      (∀ t, t ∈ found ↔ m.Leads t) ∧
      ∃ t, createBlocks m found ⟨State.ofMethod m, log⟩ = .ok () t ∧ Partitions m t.state ∧
        t.state.body.entry = some ⟨0⟩ ∧
        t.state.body.blocks.size = t.state.segments.size + (if 0 ∈ found then 1 else 0) ∧
        ((t.state.segment 0).block ≠ ⟨0⟩ ↔ 0 ∈ found) := by
  refine ⟨⟨?_, fun h => ?_⟩, fun found hfound => ⟨fun t => mem_leaders_iff hm hsize hfound, ?_⟩⟩
  · rintro ⟨found, hfound⟩
    exact (leaders_eq_ok hfound).namesPlaces
  · obtain ⟨found, hfound, -⟩ := exists_leaders hm h hsize
    exact ⟨found, hfound⟩
  · have hne : ranges m.codeSize found ≠ [] := ranges_ne_nil hcode
    cases hblocks : createBlocks m found ⟨State.ofMethod m, log⟩ with
    | error e t => exact (failsOnly_createBlocks (P := fun _ => False) hne e t hblocks).elim
    | ok u t =>
      have hopening := createBlocks_spec hne hblocks
      have hfenced := hopening.fenced (createBlocks_onlyJumps hblocks)
      have hparted := hfenced.parted
      have hpartitions := hparted.partitions (leaders_eq_ok hfound) hm hcode hsize hfound
      have hfirst : (t.state.segment 0).block = ⟨leadIn found⟩ := by
        rw [hopening.segment (hparted.range 0 hpartitions.size_pos)]
        rfl
      refine ⟨t, rfl, hpartitions, hopening.entry, ?_, ?_⟩
      · rw [hopening.blocks, ← hopening.size, leadIn, Nat.add_comm]
      · rw [hfirst, leadIn]
        split <;> simp_all

/-- The loop and the regions start where the code does, so there is a block before it. -/
theorem guardedLoop_partition : guardedLoop.Contiguous ∧ guardedLoop.code.isEmpty = false ∧
    guardedLoop.codeSize < wordLimit ∧ guardedLoop.NamesPlaces ∧ ∃ found t, leaders guardedLoop = .ok found ∧
      createBlocks guardedLoop found ⟨State.ofMethod guardedLoop, #[]⟩ = .ok () t ∧
      t.state.segments.size = 5 ∧ Partitions guardedLoop t.state ∧ (t.state.segment 0).block ≠ ⟨0⟩ := by
  have hm : guardedLoop.Contiguous := ⟨rfl, rfl, rfl, rfl, rfl, rfl, rfl, rfl, rfl, trivial⟩
  have hsize : guardedLoop.codeSize < wordLimit := by decide
  have hfound : leaders guardedLoop = .ok [0, 4, 6, 9, 12, 13] := by decide +kernel
  obtain ⟨hclean, hall⟩ := leaders_partition hm rfl hsize #[]
  obtain ⟨-, t, hblocks, hpartitions, -, -, hentry⟩ := hall _ hfound
  have hranges := (createBlocks_spec (ranges_ne_nil rfl) hblocks).size
  exact ⟨hm, rfl, hsize, hclean.1 ⟨_, hfound⟩, _, t, hfound, hblocks, hranges.trans (by decide), hpartitions,
    hentry.2 (by simp)⟩

end Import

end MethodIR
