import MethodIR.Proofs.SegmentBlocks
import MethodIR.Proofs.SplitBlocks

/-!
# Links between segments

The blocks of a segment stand in a row (`Row`), guards go to the first blocks of rows (`Linked`), and the
terminator of a segment goes where its last instruction goes (`Instruction.Exits`).
-/

namespace MethodIR

open List Function Option

namespace Bytecode

/-- The terminators with which an instruction can end its block, given the blocks through which control gets
to the code at an offset. -/
inductive Instruction.Exits (entry : Nat → BlockId → Prop) (i : Instruction) : Kind → Prop
  | jump {t : Nat} {b : BlockId} (flow : i.op.flow = .unconditionalBranch) (operand : i.operand = .target t)
    (leads : entry t b) : Exits entry i (.jump b)
  | leave {t : Nat} {b : BlockId} (flow : i.op.flow = .leave) (operand : i.operand = .target t)
    (leads : entry t b) : Exits entry i (.leave b)
  | branch {t : Nat} {b next : BlockId} (flow : i.op.flow = .conditionalBranch)
    (straight : i.op ≠ .brfalse ∧ i.op ≠ .brfalseS) (operand : i.operand = .target t) (leads : entry t b)
    (falls : entry i.endOffset next) : Exits entry i (.branch b next)
  | branchFalse {t : Nat} {b next : BlockId} (negated : i.op = .brfalse ∨ i.op = .brfalseS)
    (operand : i.operand = .target t) (leads : entry t b) (falls : entry i.endOffset next) :
    Exits entry i (.branch next b)
  | switch {ts : List Nat} {bs : List BlockId} {next : BlockId} (flow : i.op.flow = .switch)
    (operand : i.operand = .table ts) (leads : Forall₂ entry ts bs) (falls : entry i.endOffset next) :
    Exits entry i (.switch bs next)
  | ret (flow : i.op.flow = .return) : Exits entry i .ret
  | throw (flow : i.op.flow = .throw) : Exits entry i (.throw (i.op == .rethrow))
  | resume (flow : i.op.flow = .endFinally) : Exits entry i .resume
  /-- What does not end its block is followed by a jump to the next instruction. -/
  | next {next : BlockId} (inner : i.op.endsBlock = false) (falls : entry i.endOffset next) :
    Exits entry i (.jump next)

variable {i : Instruction}

lemma Instruction.Exits.mono {entry entry' : Nat → BlockId → Prop} {kind : Kind} (h : i.Exits entry kind)
    (hentry : ∀ t b, entry t b → entry' t b) : i.Exits entry' kind := by
  cases h with
  | jump flow operand leads => exact .jump flow operand (hentry _ _ leads)
  | leave flow operand leads => exact .leave flow operand (hentry _ _ leads)
  | branch flow straight operand leads falls =>
    exact .branch flow straight operand (hentry _ _ leads) (hentry _ _ falls)
  | branchFalse negated operand leads falls =>
    exact .branchFalse negated operand (hentry _ _ leads) (hentry _ _ falls)
  | switch flow operand leads falls => exact .switch flow operand (leads.imp hentry) (hentry _ _ falls)
  | ret flow => exact .ret flow
  | throw flow => exact .throw flow
  | resume flow => exact .resume flow
  | next inner falls => exact .next inner (hentry _ _ falls)

end Bytecode

namespace Body

variable {body x y z : Body} {i : InstId} {a b : BlockId}

def Stays (x y : Body) : Prop := ∀ i a, (x.inst i).block = some a → (y.inst i).block = some a ∧ y.kind i = x.kind i

lemma Stays.trans (h : x.Stays y) (k : y.Stays z) : x.Stays z := fun i a hi => by
  obtain ⟨hi', hkind⟩ := h i a hi
  obtain ⟨hi'', hkind'⟩ := k i a hi'
  exact ⟨hi'', hkind'.trans hkind⟩

lemma Attached.stays_addInst (h : body.Attached) (kind : Kind) (vs : List Value) (ty : Ty) :
    body.Stays (body.addInst kind vs ty) :=
  fun _ _ hi => ⟨h.home_addInst_iff.2 hi, h.kind_addInst_of_home hi⟩

lemma stays_attach (hi : body.hasInst i) (hnone : (body.inst i).block = none) (l : List InstId) :
    body.Stays (body.attach i b l) := fun j a hj => by
  have hne : i ≠ j := by
    rintro rfl
    simp [hnone] at hj
  exact ⟨by rw [home_attach hi, if_neg hne, hj], kind_attach⟩

/-- A block goes on to another one. -/
def JumpsTo (body : Body) (a b : BlockId) : Prop := ∃ i, (body.inst i).block = some a ∧ body.kind i = .jump b

lemma JumpsTo.stays (h : x.JumpsTo a b) (hstays : x.Stays y) : y.JumpsTo a b := by
  obtain ⟨i, hi, hkind⟩ := h
  obtain ⟨hi', hkind'⟩ := hstays i a hi
  exact ⟨i, hi', hkind'.trans hkind⟩

end Body

lemma isChain_imp {α : Type} {R S : α → α → Prop} {l : List α} (h : l.IsChain R) (hnodup : l.Nodup)
    (himp : ∀ a, ∀ b ∈ l, l.head? ≠ some b → R a b → S a b) : l.IsChain S := by
  rw [isChain_iff_getElem] at h ⊢
  intro k hk
  refine himp _ _ (getElem_mem hk) (fun hhead => ?_) (h k hk)
  rw [head?_eq_getElem?, getElem?_eq_getElem (by omega), some.injEq,
    hnodup.getElem_inj_iff] at hhead
  omega

namespace Import

open Body

variable {m : Bytecode} {leaders : List Nat} {own : BlockId → Option Nat} {n offset k : Nat} {s s' : State}
  {g i : InstId}
  {r : Bytecode.Region} {a b : BlockId}

/-! ## Rows of blocks -/

/-- Control gets to the code at an offset through a block. -/
def State.EntryAt (s : State) (offset : Nat) (b : BlockId) : Prop :=
  ∃ n, n < s.segments.size ∧ (s.segment n).start = offset ∧ (s.segment n).entryBlock = b

lemma State.EntryAt.congr (h : s.EntryAt offset b) (hsegments : SameSegments s s') : s'.EntryAt offset b := by
  obtain ⟨n, hn, hstart, hb⟩ := h
  exact ⟨n, hsegments.size ▸ hn, (hsegments.same n).1.trans hstart, (hsegments.same n).2.2.2.trans hb⟩

/-- The blocks of a segment, each of which goes on to the next one: from the block through which control gets
to the segment to the one with its code. -/
structure Row (own : BlockId → Option Nat) (s : State) (n : Nat) (row : List BlockId) : Prop where
  nodup : row.Nodup
  head : row.head? = some (s.segment n).entryBlock
  last : row.getLast? = some (s.segment n).block
  mem : ∀ b, b ∈ row ↔ s.body.hasBlock b ∧ own b = some n
  jumps : row.IsChain s.body.JumpsTo

/-- A kind for the guard of a region. -/
structure GuardsBy (s : State) (r : Bytecode.Region) (kind : Kind) : Prop where
  form : ∃ handler filter caught, kind = .guard r.kind handler filter caught
  targets : Forall₂ s.EntryAt r.handlerStarts kind.successors

lemma GuardsBy.entryAt {kind : Kind} (h : GuardsBy s r kind) (hb : b ∈ kind.successors) :
    ∃ offset ∈ r.handlerStarts, s.EntryAt offset b := by
  obtain ⟨k, hk, rfl⟩ := mem_iff_getElem.1 hb
  have hk' := h.targets.length_eq ▸ hk
  exact ⟨_, getElem_mem hk', h.targets.get hk' hk⟩

lemma GuardsBy.isGuard {kind : Kind} (h : GuardsBy s r kind) : kind.isGuard := by
  obtain ⟨_, _, _, rfl⟩ := h.form
  rfl

/-- A guard stands in a block of the segment at which its region starts, and goes to the handler and the
filter. -/
structure Watches (own : BlockId → Option Nat) (s : State) (g : InstId) (r : Bytecode.Region) : Prop where
  guards : GuardsBy s r (s.body.kind g)
  host : ∃ a n, (s.body.inst g).block = some a ∧ own a = some n ∧ n < s.segments.size ∧
    (s.segment n).start = r.tryStart

/-- How the blocks hang together apart from the terminators of segments. -/
structure Linked (leaders : List Nat) (own : BlockId → Option Nat) (s : State) : Prop where
  rows : ∀ n, n < s.segments.size → ∃ row, Row own s n row
  outside : ∀ b, s.body.hasBlock b → (∀ n, n < s.segments.size → own b ≠ some n) → 0 ∈ leaders ∧ b = ⟨0⟩
  lead : 0 ∈ leaders → s.body.JumpsTo ⟨0⟩ (s.segment 0).entryBlock
  guards : ∀ x ∈ s.guards, Watches own s x.1 x.2
  listed : ∀ i a, (s.body.inst i).block = some a → (s.body.kind i).isGuard → ∃ r, (i, r) ∈ s.guards

section Stays

variable (hsegments : SameSegments s s') (hstays : s.body.Stays s'.body)

include hsegments hstays

lemma Row.stays {row : List BlockId} (h : Row own s n row)
    (hblock : ∀ b, s'.body.hasBlock b = s.body.hasBlock b) : Row own s' n row := by
  refine ⟨h.nodup, ?_, ?_, fun b => by rw [hblock, h.mem], h.jumps.imp fun _ _ hjump => hjump.stays hstays⟩
  · rw [(hsegments.same n).2.2.2, h.head]
  · rw [(hsegments.same n).2.2.1, h.last]

lemma Watches.stays (h : Watches own s g r) : Watches own s' g r := by
  obtain ⟨a, n, ha, hn, hlt, hstart⟩ := h.host
  obtain ⟨ha', hkind⟩ := hstays g a ha
  refine ⟨⟨by rw [hkind]; exact h.guards.form, ?_⟩, a, n, ha', hn, hsegments.size ▸ hlt, ?_⟩
  · rw [hkind]
    exact h.guards.targets.imp fun _ _ hentry => hentry.congr hsegments
  · rw [(hsegments.same n).1, hstart]

lemma Linked.stays (h : Linked leaders own s) (hblock : ∀ b, s'.body.hasBlock b = s.body.hasBlock b)
    (hguards : s.guards ⊆ s'.guards) (hwatch : ∀ x ∈ s'.guards, x ∈ s.guards ∨ Watches own s' x.1 x.2)
    (hlisted : ∀ i a, (s'.body.inst i).block = some a → (s'.body.kind i).isGuard →
      (s.body.inst i).block = some a ∨ ∃ r, (i, r) ∈ s'.guards) : Linked leaders own s' := by
  refine ⟨fun n hn => ?_, fun b hb hnot => ?_, fun hzero => ?_, fun x hx => ?_, fun i a hi hguard => ?_⟩
  · obtain ⟨row, hrow⟩ := h.rows n (hsegments.size ▸ hn)
    exact ⟨row, hrow.stays hsegments hstays hblock⟩
  · exact h.outside b (hblock b ▸ hb) fun n hn => hnot n (hsegments.size ▸ hn)
  · rw [(hsegments.same 0).2.2.2]
    exact (h.lead hzero).stays hstays
  · rcases hwatch x hx with hx | hx
    · exact (h.guards x hx).stays hsegments hstays
    · exact hx
  · rcases hlisted i a hi hguard with hi' | hr
    · rw [(hstays i a hi').2] at hguard
      obtain ⟨r, hr⟩ := h.listed i a hi' hguard
      exact ⟨r, hguards hr⟩
    · exact hr

end Stays

/-! ## A block is split off -/

structure Splits (n : Nat) (s s' : State) : Prop where
  lt : n < s.segments.size
  body : SplitFrom s.body (s.segment n).entryBlock s'.body
  size : s'.segments.size = s.segments.size
  segment : ∀ k, s'.segment k =
    if k = n then { s.segment k with entryBlock := ⟨s.body.blocks.size⟩ } else s.segment k
  guards : s'.guards = s.guards
  argVars : s'.argVars = s.argVars
  localVars : s'.localVars = s.localVars

section Split

def relay (s : State) (n : Nat) (b : BlockId) : BlockId :=
  if b = (s.segment n).entryBlock then ⟨s.body.blocks.size⟩ else b

variable (h : Splits n s s')

include h

lemma Splits.same (k : Nat) : (s'.segment k).start = (s.segment k).start ∧
    (s'.segment k).stop = (s.segment k).stop ∧ (s'.segment k).block = (s.segment k).block ∧
    (s'.segment k).entryStack = (s.segment k).entryStack := by
  rw [h.segment]
  split <;> exact ⟨rfl, rfl, rfl, rfl⟩

lemma Splits.kind (hattached : s.body.Attached) (hi : (s.body.inst i).block = some a) :
    (s'.body.inst i).block = some a ∧
      s'.body.kind i = (s.body.kind i).retarget (s.segment n).entryBlock ⟨s.body.blocks.size⟩ := by
  have hne : i ≠ ⟨s.body.insts.size⟩ := fun heq => hattached.index_ne hi (congrArg InstId.index heq)
  exact ⟨by rw [h.body.home, if_neg hne, hi], by rw [h.body.kind i hne, if_neg (by simp [hi])]⟩

lemma Splits.jumpsTo (hattached : s.body.Attached) (hjump : s.body.JumpsTo a b) :
    s'.body.JumpsTo a (relay s n b) := by
  obtain ⟨i, hi, hkind⟩ := hjump
  obtain ⟨hi', hkind'⟩ := h.kind hattached hi
  exact ⟨i, hi', by rw [hkind', hkind]; rfl⟩

variable (hparted : Parted m leaders own s)

include hparted

lemma Splits.entryBlock (hk : k < s.segments.size) :
    (s'.segment k).entryBlock = relay s n (s.segment k).entryBlock := by
  rw [h.segment, relay]
  by_cases hkn : k = n
  · subst hkn
    rw [if_pos rfl, if_pos rfl]
  · rw [if_neg hkn, if_neg]
    intro heq
    have hown := (hparted.entryBlock k hk).2
    rw [heq, (hparted.entryBlock n h.lt).2] at hown
    exact hkn (some.inj hown).symm

lemma Splits.entryAt (hentry : s.EntryAt offset b) : s'.EntryAt offset (relay s n b) := by
  obtain ⟨k, hk, hstart, rfl⟩ := hentry
  exact ⟨k, h.size ▸ hk, (h.same k).1.trans hstart, h.entryBlock hparted hk⟩

lemma Splits.row (hattached : s.body.Attached) (hk : k < s.segments.size) {row : List BlockId}
    (hrow : Row own s k row) : Row (update own ⟨s.body.blocks.size⟩ (some n)) s' k
      (if k = n then ⟨s.body.blocks.size⟩ :: row else row) := by
  have hnew : ∀ b, s.body.hasBlock b → b ≠ ⟨s.body.blocks.size⟩ := by
    rintro b hb rfl
    simp [hasBlock] at hb
  have hfresh : ⟨s.body.blocks.size⟩ ∉ row := fun hmem => hnew _ ((hrow.mem _).1 hmem).1 rfl
  -- what a block of the row goes on to is not the first one of any row
  have hjumps : row.IsChain s'.body.JumpsTo := by
    refine isChain_imp hrow.jumps hrow.nodup fun a b hb hhead hjump => ?_
    have hrelay : relay s n b = b := by
      refine if_neg ?_
      rintro rfl
      obtain ⟨-, hown⟩ := (hrow.mem _).1 hb
      rw [(hparted.entryBlock n h.lt).2] at hown
      obtain rfl := some.inj hown
      exact hhead hrow.head
    exact hrelay ▸ h.jumpsTo hattached hjump
  have hmem : ∀ b, b ∈ row ↔ b ≠ ⟨s.body.blocks.size⟩ ∧ s.body.hasBlock b ∧ own b = some k := fun b => by
    rw [hrow.mem]
    exact ⟨fun hb => ⟨hnew b hb.1, hb⟩, And.right⟩
  obtain ⟨first, rest, rfl⟩ : ∃ first rest, row = first :: rest := by
    cases row with
    | nil => simpa using hrow.head
    | cons first rest => exact ⟨first, rest, rfl⟩
  obtain rfl : first = (s.segment k).entryBlock := by simpa using hrow.head
  by_cases hkn : k = n
  · subst hkn
    rw [if_pos rfl]
    refine ⟨nodup_cons.2 ⟨hfresh, hrow.nodup⟩, ?_, ?_, fun b => ?_, .cons_cons ?_ hjumps⟩
    · rw [h.segment, if_pos rfl]
      rfl
    · rw [(h.same k).2.2.1, getLast?_cons_cons, hrow.last]
    · rw [mem_cons, hmem, h.body.hasBlock]
      by_cases hb : b = ⟨s.body.blocks.size⟩
      · simp [hb]
      · simp [hb]
    · exact ⟨⟨s.body.insts.size⟩, by rw [h.body.home, if_pos rfl], h.body.jump⟩
  · rw [if_neg hkn]
    refine ⟨hrow.nodup, ?_, by rw [(h.same k).2.2.1, hrow.last], fun b => ?_, hjumps⟩
    · rw [h.segment, if_neg hkn, hrow.head]
    · rw [hmem, h.body.hasBlock]
      by_cases hb : b = ⟨s.body.blocks.size⟩
      · simp [hb, Ne.symm hkn]
      · simp [hb]

lemma Splits.watches (hattached : s.body.Attached) (hwatch : Watches own s g r) :
    Watches (update own ⟨s.body.blocks.size⟩ (some n)) s' g r := by
  obtain ⟨a, k, ha, hk, hlt, hstart⟩ := hwatch.host
  obtain ⟨ha', hkind⟩ := h.kind hattached ha
  obtain ⟨handler, filter, caught, hguard⟩ := hwatch.guards.form
  have hne : a ≠ ⟨s.body.blocks.size⟩ := by
    rintro rfl
    have hmem := (hattached.mem_iff _ g).2 ha
    rw [instsOf_of_not_hasBlock (by simp [hasBlock])] at hmem
    simp at hmem
  refine ⟨⟨?_, ?_⟩, a, k, ha', by rw [update_of_ne hne, hk], h.size ▸ hlt, (h.same k).1.trans hstart⟩
  · rw [hkind, hguard]
    exact ⟨_, _, _, rfl⟩
  · rw [hkind, successors_retarget, forall₂_map_right_iff]
    exact hwatch.guards.targets.imp fun _ _ hentry => h.entryAt hparted hentry

lemma Linked.split (hlinked : Linked leaders own s) (hattached : s.body.Attached) :
    Linked leaders (update own ⟨s.body.blocks.size⟩ (some n)) s' := by
  refine ⟨fun k hk => ?_, fun b hb hnot => ?_, fun hzero => ?_, fun x hx => ?_, fun i a hi hguard => ?_⟩
  · rw [h.size] at hk
    obtain ⟨row, hrow⟩ := hlinked.rows k hk
    exact ⟨_, h.row hparted hattached hk hrow⟩
  · rw [h.size] at hnot
    by_cases hnew : b = ⟨s.body.blocks.size⟩
    · exact absurd (by rw [hnew, update_self]) (hnot n h.lt)
    · refine hlinked.outside b (((h.body.hasBlock b).1 hb).resolve_left hnew) fun k hk => ?_
      rw [← update_of_ne hnew (some n) own]
      exact hnot k hk
  · rw [h.entryBlock hparted (Nat.zero_lt_of_lt h.lt)]
    exact h.jumpsTo hattached (hlinked.lead hzero)
  · rw [h.guards] at hx
    exact h.watches hparted hattached (hlinked.guards x hx)
  · rw [h.guards]
    by_cases hnew : i = ⟨s.body.insts.size⟩
    · rw [hnew, h.body.jump] at hguard
      simp [Kind.isGuard] at hguard
    · rw [h.body.home, if_neg hnew] at hi
      rw [h.body.isGuard hnew] at hguard
      exact hlinked.listed i a hi hguard

end Split

/-! ## Ends of segments -/

/-- The last instruction of a segment. -/
structure LastOf (m : Bytecode) (s : State) (n : Nat) (x : Bytecode.Instruction) : Prop where
  mem : x ∈ m.code.toList
  start : (s.segment n).start ≤ x.offset
  stop : x.endOffset = (s.segment n).stop

lemma LastOf.congr {x : Bytecode.Instruction} (h : LastOf m s n x) (hsegments : SameSegments s s') :
    LastOf m s' n x :=
  ⟨h.mem, (hsegments.same n).1 ▸ h.start, (hsegments.same n).2.1 ▸ h.stop⟩

/-- A terminator for a segment goes where the last instruction of the segment goes. -/
def ExitsBy (m : Bytecode) (s : State) (n : Nat) (kind : Kind) : Prop :=
  ∃ x, LastOf m s n x ∧ x.Exits s.EntryAt kind

lemma ExitsBy.congr {kind : Kind} (h : ExitsBy m s n kind) (hsegments : SameSegments s s') :
    ExitsBy m s' n kind := by
  obtain ⟨x, hx, hexits⟩ := h
  exact ⟨x, hx.congr hsegments, hexits.mono fun _ _ hentry => hentry.congr hsegments⟩

def Exited (m : Bytecode) (s : State) (n : Nat) : Prop :=
  ∃ i, (s.body.inst i).block = some (s.segment n).block ∧ ExitsBy m s n (s.body.kind i)

lemma Exited.stays (h : Exited m s n) (hsegments : SameSegments s s') (hstays : s.body.Stays s'.body) :
    Exited m s' n := by
  obtain ⟨i, hi, hexits⟩ := h
  obtain ⟨hi', hkind⟩ := hstays i _ hi
  refine ⟨i, by rw [hi', (hsegments.same n).2.2.1], ?_⟩
  rw [hkind]
  exact hexits.congr hsegments

end Import

end MethodIR
