import MethodIR.Proofs.EndedBlocks
import MethodIR.Proofs.Soundness

/-!
# Ways into handlers

A segment that finds the value of a guard on the stack is entered by guards alone, unless the code starts
there (`Ground.passes_guard`, `guard_onEveryPath`).
-/

namespace MethodIR

open List Success FlowGraph DepthFirst

namespace FlowGraph.Path

variable {α : Type} {E : α → α → Prop} {a b : α} {path : List α}

lemma exists_entering {P : α → Prop} (h : Path E a b path) (ha : ¬P a) (hb : P b) :
    ∃ x ∈ path, ∃ y, E x y ∧ ¬P x ∧ P y := by
  induction h with
  | single a => exact absurd hb ha
  | @step a a' c p edge rest ih =>
    by_cases ha' : P a'
    · exact ⟨a, mem_cons_self, a', edge, ha, ha'⟩
    · obtain ⟨x, hx, y, hxy⟩ := ih ha' hb
      exact ⟨x, mem_cons_of_mem _ hx, y, hxy⟩

end FlowGraph.Path

namespace Import

open Traced Body

variable {m : Bytecode} {c : Outline} {n rest : Nat} {s : State} {b : BlockId} {g : InstId}

lemma eq_of_countP_eq_one {α : Type} {p : α → Bool} {l : List α} (h : l.countP p = 1) {x y : α}
    (hx : x ∈ l) (hy : y ∈ l) (hpx : p x) (hpy : p y) : x = y := by
  rw [countP_eq_length_filter, length_eq_one_iff] at h
  obtain ⟨z, hz⟩ := h
  have hx' : x ∈ l.filter p := mem_filter.2 ⟨hx, hpx⟩
  have hy' : y ∈ l.filter p := mem_filter.2 ⟨hy, hpy⟩
  rw [hz, mem_singleton] at hx' hy'
  exact hx'.trans hy'.symm

section

variable (h : Ground c rest s) (hn : n < s.segments.size)
  (hvalue : (s.segment n).entryStack = some [.value (.inst g)]) (hzero : n ≠ 0)
  (hb : c.own b = some n) {path : List BlockId} (hpath : Path (Edge s.body.succs) ⟨0⟩ b path)
include h hn hvalue hzero hb hpath

lemma Ground.enters_by_guard : ∃ x ∈ s.guards, (s.segment n).start ∈ x.2.handlerStarts ∧
      ∃ host ∈ path, (s.body.inst x.1).block = some host ∧ c.own host ≠ some n := by
  have houtside : ¬c.own ⟨0⟩ = some n := by
    rw [h.parted.entry_own]
    split <;> simp [hzero.symm]
  obtain ⟨a, ha, t, hedge, hout, hin⟩ := hpath.exists_entering (P := fun x => c.own x = some n) houtside hb
  obtain ⟨i, hi, ht⟩ := h.intact.mem_succs.1 hedge
  obtain ⟨k, hk, -, henters⟩ := h.guarded.edges i a t hi ht
  obtain rfl : n = k := Option.some.inj (hin.symm.trans hk)
  rcases henters with hsame | ⟨r, hr, hstart⟩ | ⟨-, hfirst⟩ | hfree
  · exact absurd hsame hout
  · exact ⟨(i, r), hr, hstart, a, ha, hi, hout⟩
  · exact absurd hfirst hzero
  · exact absurd hvalue ((h.free_iff n hn).1 hfree g)

lemma Ground.passes_guard : ∃ x ∈ s.guards, (s.segment n).start ∈ x.2.handlerStarts ∧
      ∃ host ∈ path, (s.body.inst x.1).block = some host := by
  obtain ⟨x, hx, hstart, host, hmem, hhost, -⟩ := h.enters_by_guard hn hvalue hzero hb hpath
  exact ⟨x, hx, hstart, host, hmem, hhost⟩

end

lemma Ground.guards_eq (h : Ground c rest s) {start : Nat}
    (hone : c.m.regions.countP (fun r => decide (start ∈ r.handlerStarts)) = 1)
    {x y : InstId × Bytecode.Region} (hx : x ∈ s.guards) (hy : y ∈ s.guards)
    (hstart : start ∈ x.2.handlerStarts) (hstart' : start ∈ y.2.handlerStarts) : x = y := by
  refine eq_of_countP_eq_one (p := fun x => decide (start ∈ x.2.handlerStarts)) ?_ hx hy
    (decide_eq_true hstart) (decide_eq_true hstart')
  have hmap := countP_map (p := fun r : Bytecode.Region => decide (start ∈ r.handlerStarts))
    (f := Prod.snd) (l := s.guards)
  rw [h.regions, countP_reverse, hone] at hmap
  exact hmap.symm

lemma Ground.guard_of_seed (h : Ground c rest s) (hvalue : (s.segment n).entryStack = some [.value (.inst g)]) :
    ∃ r, (g, r) ∈ s.guards ∧ (s.segment n).start ∈ r.handlerStarts ∧ (s.body.kind g).isGuard ∧
      ∃ host, (s.body.inst g).block = some host := by
  obtain ⟨d, r, hslots, hmem, hstart, -⟩ | ⟨vars, hslots, -⟩ := h.stacked n _ hvalue
  · obtain rfl : g = d := by simpa using hslots
    obtain ⟨hhost, hguard⟩ := h.guarded.hosted _ hmem
    exact ⟨r, hmem, hstart, hguard, hhost⟩
  · cases vars <;> simp at hslots

section

variable (h : Ground c rest s) (hn : n < s.segments.size)
  (hvalue : (s.segment n).entryStack = some [.value (.inst g)]) (hzero : n ≠ 0)
  (hb : c.own b = some n)
  (hone : c.m.regions.countP (fun r => decide ((s.segment n).start ∈ r.handlerStarts)) = 1)
include h hn hvalue hzero hb hone

lemma Ground.host_before : ∃ host, (s.body.inst g).block = some host ∧ ∀ path, Path (Edge s.body.succs) ⟨0⟩ b path →
      host ∈ path ∧ c.own host ≠ some n := by
  obtain ⟨r, hmem, hstart, -, host, hhost⟩ := h.guard_of_seed hvalue
  refine ⟨host, hhost, fun path hpath => ?_⟩
  obtain ⟨x, hx, hxstart, host', hmem', hhost', hout⟩ := h.enters_by_guard hn hvalue hzero hb hpath
  obtain rfl := h.guards_eq hone hx hmem hxstart hstart
  rw [Option.some.inj (hhost.symm.trans hhost')]
  exact ⟨hmem', hout⟩

lemma Ground.host_onEveryPath : ∃ host, (s.body.inst g).block = some host ∧ s.body.OnEveryPath ⟨0⟩ host b := by
  obtain ⟨host, hhost, hpaths⟩ := h.host_before hn hvalue hzero hb hone
  exact ⟨host, hhost, fun path hpath => (hpaths path hpath).1⟩

end

/-- Where the value of a guard is on the stack of a segment that is not the first, every way from the entry to
the segment leads through the block of a guard whose region names it as handler or filter. If only one region
does, that is the block of the guard whose value it is. -/
theorem guard_onEveryPath {log : Array Event} {u : Unit} {t : Trace State} (hm : m.Contiguous)
    (h : importMethod m ⟨State.ofMethod m, log⟩ = .ok u t) (hn : n < t.state.segments.size)
    (hvalue : (t.state.segment n).entryStack = some [.value (.inst g)]) (hstart : (t.state.segment n).start ≠ 0)
    (hb : b = (t.state.segment n).block ∨ b = (t.state.segment n).entryBlock) :
    (t.state.body.kind g).isGuard ∧ ∃ entry, t.state.body.entry = some entry ∧
      (∀ path, Path (Edge t.state.body.succs) entry b path →
        ∃ x ∈ t.state.guards, (t.state.segment n).start ∈ x.2.handlerStarts ∧
          ∃ host ∈ path, (t.state.body.inst x.1).block = some host) ∧
      (m.regions.countP (fun r => decide ((t.state.segment n).start ∈ r.handlerStarts)) = 1 →
        ∃ host, (t.state.body.inst g).block = some host ∧ t.state.body.OnEveryPath entry host b) := by
  obtain ⟨c, rfl, hleaders, hground⟩ := importMethod_ground hm h
  have hzero : n ≠ 0 := by
    rintro rfl
    exact hstart (hground.parted.start_zero hleaders hn)
  have hown : c.own b = some n := by
    rcases hb with rfl | rfl
    · exact (hground.parted.block n hn).2
    · exact (hground.parted.entryBlock n hn).2
  refine ⟨?_, ⟨0⟩, hground.parted.entry, fun path hpath => hground.passes_guard hn hvalue hzero hown hpath,
    fun hone => hground.host_onEveryPath hn hvalue hzero hown hone⟩
  obtain ⟨d, r, hslots, hmem, -⟩ | ⟨vars, hslots, -⟩ := hground.stacked n _ hvalue
  · obtain rfl : g = d := by simpa using hslots
    exact (hground.guarded.hosted _ hmem).2
  · cases vars <;> simp at hslots

/-- A call with a handler that returns what was thrown. -/
def rescue : Bytecode where
  name := "Rescue"
  declaring := .object
  sig := { params := [], ret := .object }
  locals := [{ ty := .object }]
  code := #[⟨.nop, 0, .none⟩, ⟨.leaveS, 1, .target 6⟩, ⟨.stloc0, 3, .none⟩, ⟨.leaveS, 4, .target 6⟩,
    ⟨.ldloc0, 6, .none⟩, ⟨.ret, 7, .none⟩]
  regions := [{ kind := .typed, tryStart := 0, tryEnd := 3, handlerStart := 3, handlerEnd := 6,
                caught := some .object }]

theorem rescue_guard : rescue.Contiguous ∧ ∃ t, importMethod rescue ⟨State.ofMethod rescue, #[]⟩ = .ok () t ∧
      (t.state.segment 1).entryStack = some [.value (.inst ⟨1⟩)] ∧ ∃ entry host,
        t.state.body.entry = some entry ∧ (t.state.body.inst ⟨1⟩).block = some host ∧
        t.state.body.OnEveryPath entry host (t.state.segment 1).block := by
  have hm : rescue.Contiguous := ⟨rfl, rfl, rfl, rfl, rfl, rfl, trivial⟩
  obtain ⟨t, h, hok⟩ := exists_of_imported? (m := rescue) (p := fun s => decide (1 < s.segments.size ∧
    (s.segment 1).entryStack = some [.value (.inst ⟨1⟩)] ∧ (s.segment 1).start = 3)) (by decide +kernel)
  obtain ⟨hn, hvalue, hstart⟩ := of_decide_eq_true hok
  obtain ⟨-, entry, hentry, -, hone⟩ := guard_onEveryPath hm h hn hvalue (by rw [hstart]; decide) (.inl rfl)
  obtain ⟨host, hhost, hpaths⟩ := hone (by rw [hstart]; decide)
  exact ⟨hm, t, h, hvalue, entry, host, hentry, hhost, hpaths⟩

/-- The handler comes first. -/
def handlerFirst : Bytecode where
  name := "HandlerFirst"
  declaring := .object
  sig := { params := [], ret := .void }
  code := #[⟨.throw, 0, .none⟩, ⟨.nop, 1, .none⟩, ⟨.ret, 2, .none⟩]
  regions := [{ kind := .typed, tryStart := 1, tryEnd := 3, handlerStart := 0, handlerEnd := 1,
                caught := some .object }]

theorem handlerFirst_unguarded : handlerFirst.Contiguous ∧
    ∃ t, importMethod handlerFirst ⟨State.ofMethod handlerFirst, #[]⟩ = .ok () t ∧
      (t.state.segment 0).entryStack = some [.value (.inst ⟨1⟩)] ∧ (t.state.body.kind ⟨1⟩).isGuard ∧
      t.state.body.entry = some ⟨0⟩ ∧ (t.state.body.inst ⟨1⟩).block = some ⟨2⟩ ∧
      ¬t.state.body.OnEveryPath ⟨0⟩ ⟨2⟩ (t.state.segment 0).block := by
  obtain ⟨t, h, hok⟩ := exists_of_imported? (m := handlerFirst) (p := fun s => decide (
    (s.segment 0).entryStack = some [.value (.inst ⟨1⟩)] ∧ (s.body.kind ⟨1⟩).isGuard ∧ s.body.entry = some ⟨0⟩ ∧
    (s.body.inst ⟨1⟩).block = some ⟨2⟩ ∧ (s.segment 0).block = ⟨1⟩ ∧ ⟨1⟩ ∈ s.body.succs ⟨0⟩))
    (by decide +kernel)
  obtain ⟨hvalue, hguard, hentry, hhost, hblock, hedge⟩ := of_decide_eq_true hok
  refine ⟨⟨rfl, rfl, rfl, trivial⟩, t, h, hvalue, hguard, hentry, hhost, fun hall => ?_⟩
  rw [hblock] at hall
  have hmem := hall [⟨0⟩, ⟨1⟩] (.step hedge (.single _))
  simp at hmem

end Import

end MethodIR
