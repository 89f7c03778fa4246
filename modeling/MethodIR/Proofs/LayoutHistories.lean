import MethodIR.Proofs.LiveHistories

/-!
# Layouts over histories

A body is in a row (`Body.InRow`) if its layout leads through every block that is not removed, each
once. What operations do to that is said exactly (`Op.inRow_iff_placesLive`).
-/

namespace MethodIR

open List Body Option

namespace Layout

variable {l : Layout} {a b : BlockId} {run : List BlockId}

lemma Row.threaded (h : l.Row) : Threaded l.next? l.prev? l.order := by
  refine threaded_of_splits h.nodup (fun pre c post hl => ?_) fun pre c post hl => ?_
  all_goals
    have hnot := (nodup_middle.1 (hl ▸ h.nodup)).notMem
    rw [mem_append, not_or] at hnot
  · rw [h.next?_eq, hl, nextIn_of_split hnot.1]
  · rw [h.prev?_eq, prevIn, hl, reverse_append, reverse_cons, append_assoc,
      singleton_append, nextIn_of_split (by simpa using hnot.2), head?_reverse]

lemma putAfter_of_notMem (ha : a ∉ run) : putAfter a b run = run := by
  induction run with
  | nil => rfl
  | cons x run ih =>
    rw [mem_cons, not_or] at ha
    rw [putAfter, if_neg (Ne.symm ha.1), ih ha.2]

lemma nextIn_of_notMem (hb : b ∉ run) : nextIn b run = none := by
  induction run with
  | nil => rfl
  | cons x run ih =>
    rw [mem_cons, not_or] at hb
    cases run with
    | nil => rfl
    | cons y rest => rw [nextIn, if_neg (Ne.symm hb.1), ih hb.2]

lemma Row.order_insertAfter (h : l.Row) (ha : a ∉ l.order) : (l.insertAfter a b).order = l.order := by
  rw [Layout.insertAfter]
  split
  · rfl
  · simp [h.ring?_eq_none, putAfter_of_notMem ha]

lemma Row.remove_of_notMem (h : l.Row) (hb : b ∉ l.order) :
    (l.remove b).order = [] ∧ (l.order = [] → (l.remove b).Row) := by
  have hnext : l.next? b = none := by rw [h.next?_eq, nextIn_of_notMem hb]
  have hprev : l.prev? b = none := by rw [h.prev?_eq, prevIn, nextIn_of_notMem (by simpa using hb)]
  have hhead : l.order.head? ≠ some b := fun hhead => hb (mem_of_head? hhead)
  have hremove : l.remove b =
      { l with order := [], stray := [l.order].filter (· ≠ []), tail := none } := by
    simp [Layout.remove, h.ring?_eq_none, h.runs_eq, hnext, hprev, hhead, filter_cons]
  rw [hremove]
  exact ⟨rfl, fun hnil => ⟨.nil, rfl, by simp [hnil], h.rings_nil⟩⟩

end Layout

namespace Body

variable {body x : Body} {a b c : BlockId}

/-- Walking through the layout from either end leads through the blocks that are not removed, each
once. -/
structure InRow (body : Body) : Prop where
  threaded : Threaded body.layout.next? body.layout.prev? body.order
  tail_eq : body.layout.tail = body.order.getLast?
  mem_iff : ∀ b, b ∈ body.order ↔ body.hasBlock b ∧ (body.block b).isRemoved = false
  length_eq : body.order.length = body.numBlocks

lemma mem_blockIds : b ∈ body.blockIds ↔ body.hasBlock b := by
  obtain ⟨n⟩ := b
  simp [blockIds, hasBlock]

lemma nodup_blockIds : body.blockIds.Nodup := nodup_range.map fun _ _ h => BlockId.mk.inj h

lemma preds_live_of_all (h : (body.blockIds.all fun b => (body.preds b).all fun p =>
    !(body.block p).isRemoved) = true) (b : BlockId) :
    ∀ p ∈ body.preds b, (body.block p).isRemoved = false := by
  intro p hp
  have hb : body.hasBlock b := by
    by_contra hout
    rw [preds, block, Array.getD_eq_getD_getElem?, Array.getElem?_eq_none (by simpa [hasBlock] using hout)] at hp
    exact not_mem_nil hp
  simpa using all_eq_true.1 (all_eq_true.1 h b (mem_blockIds.2 hb)) p hp

lemma numBlocks_eq : body.numBlocks = body.blockIds.countP fun b => !(body.block b).isRemoved := by
  have hblocks : body.blocks.toList = body.blockIds.map body.block := by
    refine ext_getElem (by simp [blockIds]) fun n hn _ => ?_
    simp only [Array.length_toList] at hn
    simp [blockIds, block, Array.getD, hn]
  rw [numBlocks, hblocks, countP_map]
  rfl

lemma Laid.length_order (h : body.Laid) : body.order.length = body.numBlocks := by
  rw [numBlocks_eq, countP_eq_length_filter]
  have hnodup : body.order.Nodup := h.row.nodup
  refine Perm.length_eq ((perm_ext_iff_of_nodup hnodup (nodup_blockIds.filter _)).2 ?_)
  intro b
  rw [h.mem_iff, mem_filter, mem_blockIds, Bool.not_eq_true']

lemma Laid.inRow (h : body.Laid) : body.InRow := ⟨h.row.threaded, h.row.tail_eq, h.mem_iff, h.length_order⟩

lemma Laid.not_inRow_addBlock (h : x.Laid) (ha : a ∉ x.order) : ¬(x.addBlock (some a)).InRow := by
  intro hrow
  have hnew : (⟨x.blocks.size⟩ : BlockId) ∈ (x.addBlock (some a)).order := by
    refine (hrow.mem_iff _).2 ⟨(hasBlock_addBlock _).2 (.inl rfl), ?_⟩
    rw [block_addBlock, block, Tables.getD_of_size_le _ _ _ (by simp)]
    rfl
  have horder : (x.addBlock (some a)).order = x.order := h.row.order_insertAfter ha
  rw [horder] at hnew
  simpa [hasBlock] using ((h.mem_iff _).1 hnew).1

lemma Laid.inRow_eraseBlock_iff (h : x.Laid) (hb : b ∉ x.order) : (x.eraseBlock b).InRow ↔ x.numBlocks = 0 := by
  obtain ⟨z, hz, heq⟩ : ∃ z, SameRow x z ∧ x.eraseBlock b = z.markErased b := ⟨_, sameRow_cleared b, eraseBlock_eq⟩
  have hlaid : z.Laid := h.congr hz
  have hbz : b ∉ z.order := by rwa [order, hz.layout]
  have hdead : z.hasBlock b → (z.block b).isRemoved := fun hhas => by
    simpa [hhas] using mt (hlaid.mem_iff b).2 hbz
  have hsame : ∀ c, ((z.markErased b).block c).isRemoved = (z.block c).isRemoved := by
    intro c
    rw [block_markErased]
    split
    · next hc =>
      obtain ⟨rfl, hhas⟩ := hc
      exact (hdead hhas).symm
    · rfl
  have hhas : ∀ c, (z.markErased b).hasBlock c = z.hasBlock c := fun c => by
    simp [Body.markErased, hasBlock, modifyBlock, bump]
  obtain ⟨hnil, hrow⟩ := hlaid.row.remove_of_notMem hbz
  have horder : (z.markErased b).order = [] := hnil
  have hcount : x.numBlocks = 0 ↔ z.order = [] := by
    rw [← h.length_order, length_eq_zero_iff, order, order, hz.layout]
  rw [heq, hcount]
  constructor
  · intro hin
    refine eq_nil_iff_forall_not_mem.2 fun c hc => ?_
    obtain ⟨hchas, hlive⟩ := (hlaid.mem_iff c).1 hc
    have hmem := (hin.mem_iff c).2 ⟨(hhas c).trans hchas, (hsame c).trans hlive⟩
    simp [horder] at hmem
  · intro hempty
    refine Laid.inRow ⟨hrow hempty, fun c => ?_, fun e he => (hhas e).trans (hlaid.entry e he)⟩
    rw [horder, hhas, hsame, ← hlaid.mem_iff, hempty]

end Body

namespace Op

variable {ops : List Op} {x y : Body} {args : List Ty} {ret : Ty}

/-- An operation places blocks next to blocks that are not removed, and removes no others. -/
def PlacesLive (op : Op) (body : Body) : Prop := ∀ b ∈ op.placed, body.hasBlock b ∧ (body.block b).isRemoved = false

instance (op : Op) (body : Body) : Decidable (op.PlacesLive body) :=
  inferInstanceAs (Decidable (∀ b ∈ op.placed, body.hasBlock b ∧ (body.block b).isRemoved = false))

/-- The body after a history that names no removed block as a place or as one to be removed. -/
def placingAfterAll? (ops : List Op) (body : Body) : Option Body :=
  ops.foldlM (fun body op => if op.PlacesLive body then op.after? body else none) body

lemma laid_of_placing (hx : x.Laid) (h : placingAfterAll? ops x = some y) : y.Laid := by
  rw [placingAfterAll?] at h
  induction ops generalizing x with
  | nil => exact some.inj h ▸ hx
  | cons op ops ih =>
    obtain ⟨next, hop, hrest⟩ := bind_eq_some_iff.1 h
    dsimp only at hop
    split at hop
    · next hlive =>
      exact ih (hx.changes (changes_of_after hop) fun b hb => (hx.mem_iff b).2 (hlive b hb)) hrest
    · simp at hop

lemma afterAll_of_placing (h : placingAfterAll? ops x = some y) : afterAll? ops x = some y := by
  rw [placingAfterAll?] at h
  rw [afterAll?]
  induction ops generalizing x with
  | nil => exact h
  | cons op ops ih =>
    obtain ⟨next, hop, hrest⟩ := bind_eq_some_iff.1 h
    dsimp only at hop
    split at hop
    · exact bind_eq_some_iff.2 ⟨next, hop, ih hrest⟩
    · simp at hop

lemma arranged_of_inRow (h : afterAll? ops (empty args ret) = some x) (hrow : x.InRow) : x.Arranged := by
  have htidy := tidy_empty args ret
  refine ⟨?_, ?_, hrow.threaded.nodup, hrow.mem_iff, ?_⟩
  · exact afterAll_induction htidy.attached (fun _ _ _ _ hx hop => hx.changes hop) h
  · exact afterAll_induction htidy.edges (fun _ _ _ _ hx hop => hx.changes hop) h
  · exact afterAll_induction htidy.laid.entry (fun _ _ _ _ hx hop => Body.Anchored.changes hx hop) h

lemma arranged_of_placing (h : placingAfterAll? ops (empty args ret) = some x) : x.Arranged :=
  arranged_of_inRow (afterAll_of_placing h) (laid_of_placing (tidy_empty args ret).laid h).inRow

/-- After a history that names no removed block as a place, the layout is the row of the blocks that
are not removed. The next operation leaves it so if and only if it names no removed block as a place
either, or is refused, or removes a block when there is none left. -/
theorem inRow_iff_placesLive {ops : List Op} {args : List Ty} {ret : Ty} {x : Body}
    (h : placingAfterAll? ops (Body.empty args ret) = some x) :
    x.InRow ∧ ∀ (op : Op) (y : Body), op.after? x = some y →
      (y.InRow ↔ op.PlacesLive x ∨ y = x ∨ (∃ b, op = .removeBlock b) ∧ x.numBlocks = 0) := by
  have hlaid : x.Laid := laid_of_placing (tidy_empty args ret).laid h
  refine ⟨hlaid.inRow, fun op y hop => ?_⟩
  have hchange := changes_of_after hop
  have hlive : op.PlacesLive x → y.InRow := fun hlive =>
    (hlaid.changes hchange fun b hb => (hlaid.mem_iff b).2 (hlive b hb)).inRow
  by_cases hplaces : op.PlacesLive x
  · exact ⟨fun _ => .inl hplaces, fun _ => hlive hplaces⟩
  simp only [hplaces, false_or]
  have hsame : y = x → y.InRow := fun hy => hy ▸ hlaid.inRow
  have hdead : ∀ b, op.placed = [b] → b ∉ x.order := by
    intro b hb hmem
    refine hplaces fun c hc => (hlaid.mem_iff c).1 ?_
    rw [hb, mem_singleton] at hc
    exact hc ▸ hmem
  cases hchange with
  | refused => exact ⟨fun _ => .inl rfl, fun _ => hlaid.inRow⟩
  | @createBlock place =>
    cases place with
    | none => exact absurd (by simp [PlacesLive, placed]) hplaces
    | some a =>
      have hnot := hlaid.not_inRow_addBlock (hdead a rfl)
      refine ⟨fun hrow => absurd hrow hnot, ?_⟩
      rintro (heq | ⟨⟨b, hb⟩, -⟩)
      · exact absurd (hsame heq) hnot
      · cases hb
  | @removeBlock b =>
    rw [hlaid.inRow_eraseBlock_iff (hdead b rfl)]
    refine ⟨fun hzero => .inr ⟨⟨b, rfl⟩, hzero⟩, ?_⟩
    rintro (heq | ⟨-, hzero⟩)
    · exact (hlaid.inRow_eraseBlock_iff (hdead b rfl)).1 (hsame heq)
    · exact hzero
  | _ => exact absurd (by simp [PlacesLive, placed]) hplaces

/-- Blocks are placed at the end and in the middle, one at the front and one in the middle are
removed. -/
def placingSteps : List Op :=
  [.createBlock none, .createBlock none, .createBlock (some ⟨0⟩), .createBlock (some ⟨1⟩),
    .setEntry ⟨1⟩, .removeBlock ⟨0⟩, .removeBlock ⟨1⟩, .removeBlock ⟨3⟩]

theorem placingSteps_inRow : ∃ x, placingAfterAll? placingSteps (Body.empty [] .void) = some x ∧
    x.order = [⟨2⟩, ⟨1⟩] ∧ x.InRow ∧ ∀ y, (createBlock (some ⟨2⟩)).after? x = some y → y.InRow := by
  have hrun := (some_get (x := placingAfterAll? placingSteps (empty [] .void)) (by decide)).symm
  obtain ⟨hrow, hnext⟩ := inRow_iff_placesLive hrun
  exact ⟨_, hrun, by decide, hrow, fun y hy => (hnext _ y hy).2 (.inl (by decide))⟩

theorem removedTwice_not_inRow : ∃ body, afterAll? [.createBlock none, .createBlock none,
      .removeBlock ⟨1⟩, .removeBlock ⟨1⟩] (Body.empty [] .void) = some body ∧
    body.order = [] ∧ body.numBlocks = 1 ∧ ¬body.InRow := by
  refine ⟨_, (some_get (by decide)).symm, by decide, by decide, fun hrow => ?_⟩
  exact absurd hrow.length_eq (by decide)

end Op

end MethodIR
