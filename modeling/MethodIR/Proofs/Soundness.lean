import MethodIR.Proofs.LiveHistories
import MethodIR.Proofs.Verified

/-!
# What verified bodies are

`Body.Sound` says what a body has to be in terms of instructions and paths. Of a body built without
naming what was removed, verification accepts exactly the sound ones (`Body.Built.verify_iff_sound`).
-/

namespace MethodIR

open List FlowGraph DominatorTree DepthFirst

namespace Lists

variable {α : Type} {p : α → Bool} {l : List α} {a : α}

lemma not_of_mem_dropWhile (h : l.Pairwise fun x y => p y → p x) (ha : a ∈ l.dropWhile p) : ¬p a := by
  intro hpa
  cases hdrop : l.dropWhile p with
  | nil => simp [hdrop] at ha
  | cons y ys =>
    have hy : ¬p y := by
      have hhead := head_dropWhile_not p (l := l) (by simp [hdrop])
      simpa [hdrop] using hhead
    rw [hdrop] at ha
    rcases mem_cons.1 ha with rfl | ha
    · exact hy hpa
    · have hsuffix : (y :: ys).Pairwise fun x y => p y → p x := hdrop ▸ h.sublist (dropWhile_sublist p)
      exact hy ((pairwise_cons.1 hsuffix).1 a ha hpa)

lemma pairwise_iff_split : l.Pairwise (fun x y => p y → p x) ↔
    ∃ pre post, l = pre ++ post ∧ (∀ x ∈ pre, p x) ∧ ∀ x ∈ post, ¬p x := by
  constructor
  · intro h
    exact ⟨l.takeWhile p, l.dropWhile p, takeWhile_append_dropWhile.symm,
      fun x hx => mem_takeWhile_imp hx, fun x hx => not_of_mem_dropWhile h hx⟩
  · rintro ⟨pre, post, rfl, hpre, hpost⟩
    refine pairwise_append.2 ⟨?_, ?_, fun x hx y hy hpy => absurd hpy (hpost y hy)⟩
    · exact pairwise_of_forall_mem_list fun x hx y _ _ => hpre x hx
    · exact pairwise_of_forall_mem_list fun x _ y hy hpy => absurd hpy (hpost y hy)

lemma mem_takeWhile_iff (h : l.Pairwise fun x y => p y → p x) : a ∈ l.takeWhile p ↔ a ∈ l ∧ p a := by
  obtain ⟨pre, post, rfl, hpre, hpost⟩ := pairwise_iff_split.1 h
  have htake : (pre ++ post).takeWhile p = pre := by
    rw [takeWhile_append_of_pos hpre]
    cases post with
    | nil => simp
    | cons y post => simp [hpost y (by simp)]
  rw [htake, mem_append]
  constructor
  · exact fun ha => ⟨.inl ha, hpre a ha⟩
  · rintro ⟨ha | ha, hpa⟩
    · exact ha
    · exact absurd hpa (hpost a ha)

end Lists

namespace Body

variable {body : Body} {entry b home : BlockId} {i d : InstId}

/-- A block is on every path from the entry to another one. -/
def OnEveryPath (body : Body) (entry a b : BlockId) : Prop :=
  ∀ path, FlowGraph.Path (Edge body.succs) entry b path → a ∈ path

/-- The result of `d` is there when slot `slot` of an instruction `i` of block `b` is read, with `pre`
in front of `i`: `d` stands in front of it, or in a block that control has passed. A phi reads the
slot at the end of the block that control comes from. -/
def Defined (body : Body) (entry b : BlockId) (pre : List InstId) (i : InstId) (slot : Nat) (d : InstId) : Prop :=
  ∃ home, (body.inst d).block = some home ∧
    match body.kind i with
    | .phi blocks => ∀ p, blocks[slot]? = some p →
      ¬Reachable (Edge body.succs) entry p ∨ body.OnEveryPath entry home p
    | _ => home = b ∧ d ∈ pre ∨ home ≠ b ∧ body.OnEveryPath entry home b

/-- The rules of a body. -/
structure Sound (body : Body) (entry : BlockId) : Prop where
  entry_eq : body.entry = some entry
  entry_live : body.hasBlock entry ∧ (body.block entry).isRemoved = false
  entry_preds : body.preds entry = []
  phisFirst : ∀ b ∈ body.order, ∃ phis rest, body.instsOf b = phis ++ rest ∧
    (∀ i ∈ phis, (body.kind i).isPhi) ∧ ∀ i ∈ rest, ¬(body.kind i).isPhi
  terminatorLast : ∀ b ∈ body.order, ∀ i ∈ (body.instsOf b).dropLast, ¬(body.kind i).isTerminator
  terminated : ∀ b, Reachable (Edge body.succs) entry b →
    ∃ i, (body.instsOf b).getLast? = some i ∧ (body.kind i).isTerminator
  targets : ∀ b ∈ body.order, ∀ t, t ∈ body.succs b ↔ ∃ i ∈ body.instsOf b,
    ((body.kind i).isTerminator ∨ (body.kind i).isGuard) ∧ t ∈ (body.kind i).successors
  succs_live : ∀ b ∈ body.order, ∀ t ∈ body.succs b, (body.block t).isRemoved = false
  phis : ∀ b ∈ body.order, ∀ i ∈ body.instsOf b, ∀ blocks, body.kind i = .phi blocks → blocks.Perm (body.preds b)
  operands : ∀ b, Reachable (Edge body.succs) entry b → ∀ pre i post,
    body.instsOf b = pre ++ i :: post → ∀ slot d, (body.inst i).operands[slot]? = some (.inst d) →
    body.Defined entry b pre i slot d

lemma Arranged.mem_order (h : body.Arranged) (hentry : body.hasBlock entry ∧ (body.block entry).isRemoved = false)
    (hsuccs : ∀ b ∈ body.order, ∀ t ∈ body.succs b, (body.block t).isRemoved = false)
    (hb : Reachable (Edge body.succs) entry b) : b ∈ body.order := by
  refine Reachable.induction (motive := fun b => b ∈ body.order) ((h.mem_iff entry).2 hentry) ?_ hb
  intro a c _ edge ha
  exact (h.mem_iff c).2 ⟨(h.edges.hasBlock edge).2, hsuccs a ha c edge⟩

lemma Paired.perm_preds_iff (h : body.Paired) (hpreds : (body.preds b).Nodup) {blocks : List BlockId}
    (hk : body.kind i = .phi blocks) : (body.phiArgs i).length = (body.preds b).length ∧
      (∀ p ∈ body.preds b, p ∈ (body.phiArgs i).map Prod.fst) ↔ blocks.Perm (body.preds b) := by
  have hlen : blocks.length = (body.inst i).operands.length := h i blocks hk
  have hargs : (body.phiArgs i).map Prod.fst = blocks := by
    rw [phiArgs, hk]
    exact map_fst_zip hlen.le
  have hsize : (body.phiArgs i).length = blocks.length := by rw [← hargs, length_map]
  rw [hargs, hsize]
  constructor
  · rintro ⟨hlength, hsub⟩
    exact ((subperm_of_subset hpreds hsub).perm_of_length_le hlength.le).symm
  · exact fun hperm => ⟨hperm.length_eq, fun p hp => hperm.mem_iff.2 hp⟩

section

variable (h : Exact body entry (ofEntry body entry)) (hb : Reachable (Edge body.succs) entry b)
include h hb

lemma dominates_iff_onEveryPath : (ofEntry body entry).dominates home b ↔ body.OnEveryPath entry home b := by
  rw [h.dominates]
  constructor
  · exact fun hdom => hdom.2.2
  · intro hall
    have hdom : Dominates (Edge body.succs) entry home b := ⟨hb, hall⟩
    exact ⟨hdom.reachable_left, hb, hall⟩

lemma available_iff_defined {pre : List InstId} {slot : Nat} :
    Verify.Available body (ofEntry body entry) b pre.reverse i slot d ↔ body.Defined entry b pre i slot d := by
  refine exists_congr fun home => and_congr_right fun _ => ?_
  cases body.kind i with
  | phi blocks =>
    refine forall_congr' fun p => imp_congr_right fun _ => ?_
    rw [h.reachable, imp_iff_not_or]
    by_cases hp : Reachable (Edge body.succs) entry p
    · rw [dominates_iff_onEveryPath h hp]
    · simp [hp]
  | _ =>
    by_cases hhome : home = b
    · simp [hhome]
    · simp [hhome, strictlyDominates, dominates_iff_onEveryPath h hb]

end

lemma terminator?_isSome_iff : (body.terminator? b).isSome ↔
    ∃ i, (body.instsOf b).getLast? = some i ∧ (body.kind i).isTerminator := by
  rw [terminator?]
  cases (body.instsOf b).getLast? with
  | none => simp
  | some i => simp

lemma Arranged.sound_of_verified (h : body.Arranged) (hpaired : body.Paired) (hv : body.Verified entry) :
    body.Sound entry := by
  have hentry := h.anchored entry hv.entry_eq
  have hlive : ∀ b ∈ body.order, ∀ t ∈ body.succs b, (body.block t).isRemoved = false :=
    fun b hb t ht => (hv.succs b hb t ht).1
  have horder : ∀ {b}, Reachable (Edge body.succs) entry b → b ∈ body.order :=
    h.mem_order ⟨hentry, hv.entry_live⟩ hlive
  have hexact := exact_of_laidOut (.of_symmetric hentry h.edges.symm) fun b hb _ => horder hb
  refine ⟨hv.entry_eq, ⟨hentry, hv.entry_live⟩, hv.entry_preds,
    fun b hb => Lists.pairwise_iff_split.1 (hv.phisFirst b hb), hv.terminatorLast,
    fun b hb => terminator?_isSome_iff.1 (hv.terminated b (horder hb) ((hexact.reachable b).2 hb)),
    fun b hb t => ?_, hlive, fun b hb i hi blocks hk => ?_, fun b hb pre i post hsplit slot d hd => ?_⟩
  · rw [← mem_targets_iff, hv.targets b hb]
  · have hphi : i ∈ body.phis b := (Lists.mem_takeWhile_iff (hv.phisFirst b hb)).2 ⟨hi, by simp [hk, Kind.isPhi]⟩
    exact (hpaired.perm_preds_iff (h.edges.preds_nodup b) hk).1 (hv.phis b hb i hphi)
  · refine (available_iff_defined hexact hb).1 ?_
    exact hv.operands b (horder hb) ((hexact.reachable b).2 hb) pre i post hsplit slot d hd

lemma Tidy.sound_of_verified (h : body.Tidy) (hv : body.Verified entry) : body.Sound entry :=
  h.arranged.sound_of_verified h.paired hv

lemma Tidy.verified_of_sound (h : body.Tidy) (hs : body.Sound entry) : body.Verified entry := by
  have horder : ∀ {b}, Reachable (Edge body.succs) entry b → b ∈ body.order :=
    h.arranged.mem_order hs.entry_live hs.succs_live
  have hexact := exact_of_laidOut (.of_symmetric hs.entry_live.1 h.edges.symm) fun b hb _ => horder hb
  have hphis : ∀ b ∈ body.order, (body.instsOf b).Pairwise fun i j => (body.kind j).isPhi → (body.kind i).isPhi :=
    fun b hb => Lists.pairwise_iff_split.2 (hs.phisFirst b hb)
  exact {
    entry_eq := hs.entry_eq
    entry_live := hs.entry_live.2
    entry_preds := hs.entry_preds
    live := fun b hb => ((h.laid.mem_iff b).1 hb).2
    listed := fun b _ i hi => by
      have hhome := (h.attached.mem_iff b i).1 hi
      refine ⟨?_, hhome⟩
      by_contra hnot
      rw [h.loose i (by simpa using hnot)] at hhome
      simp at hhome
    phisFirst := hphis
    terminatorLast := hs.terminatorLast
    terminated := fun b _ hb => terminator?_isSome_iff.2 (hs.terminated b ((hexact.reachable b).1 hb))
    succs_nodup := fun b _ => h.edges.succs_nodup b
    succs := fun b hb t ht => ⟨hs.succs_live b hb t ht, (h.edges.symm b t).1 ht⟩
    preds := fun b _ p hp => (h.edges.symm p b).2 hp
    targets := fun b hb t => by rw [mem_targets_iff, hs.targets b hb]
    phis := fun b hb i hi => by
      obtain ⟨hmem, hphi⟩ := (Lists.mem_takeWhile_iff (hphis b hb)).1 hi
      cases hk : body.kind i with
      | phi blocks => exact (h.paired.perm_preds_iff (h.edges.preds_nodup b) hk).2 (hs.phis b hb i hmem blocks hk)
      | _ => simp [hk, Kind.isPhi] at hphi
    removed := fun i hi => by
      obtain ⟨hops, hunused⟩ := h.spent i hi
      exact ⟨hops, (h.uses.uses_eq_nil_iff (v := .inst i) rfl).2 hunused⟩
    uses := h.uses
    operands := fun b _ hb pre i post hsplit slot d hd => by
      have hreach := (hexact.reachable b).1 hb
      exact (available_iff_defined hexact hreach).2 (hs.operands b hreach pre i post hsplit slot d hd) }

/-- Block 1 is a loop whose phi takes the sum of the last round; a block and a jump were removed on the
way. -/
def countingSteps : List Op :=
  [.createBlock none, .createBlock none, .createBlock none, .createBlock (some ⟨0⟩), .removeBlock ⟨3⟩,
    .setJump ⟨0⟩ ⟨2⟩, .setJump ⟨0⟩ ⟨1⟩, .insertPhi ⟨1⟩ .i32,
    .createInst (.binary .add) [.inst ⟨2⟩, .const (.i32 1)] .i32, .insertLast ⟨1⟩ ⟨3⟩,
    .createInst (.branch ⟨1⟩ ⟨2⟩) [.inst ⟨3⟩] .void, .setTerminator ⟨1⟩ ⟨4⟩,
    .addPhiArg ⟨2⟩ ⟨0⟩ (.arg ⟨0⟩), .addPhiArg ⟨2⟩ ⟨1⟩ (.inst ⟨3⟩),
    .createInst .ret [.inst ⟨2⟩] .void, .setTerminator ⟨2⟩ ⟨5⟩]

def countingLoop : Body := (Op.liveAfterAll? countingSteps (empty [.i32] .i32)).getD default

end Body

end MethodIR
