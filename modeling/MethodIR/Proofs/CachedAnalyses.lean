import MethodIR.Dominance.Frontier
import MethodIR.Proofs.Places
import MethodIR.Session

/-!
# Analyses from the cache

An operation that leaves the version of a body alone leaves alone all that its analyses read (`Body.Tracks`). So
what a cache that serves one body keeps of its version is what would be computed from the body as it is
(`Analyses.Fresh`), however edits and questions are mixed (`Session.answers_fresh`).
-/

namespace MethodIR

open Traced Analyses Frontier Body Option

namespace Body

variable {body x y z : Body} {i : InstId} {a b : BlockId}

/-- `y` has the layout, the entry and the edges of `x`. -/
structure SameFlow (x y : Body) : Prop where
  layout : y.layout = x.layout
  entry : y.entry = x.entry
  size : y.blocks.size = x.blocks.size
  succs : y.succs = x.succs
  preds : y.preds = x.preds

lemma SameFlow.refl (x : Body) : SameFlow x x := ⟨rfl, rfl, rfl, rfl, rfl⟩

lemma SameFlow.trans (h : SameFlow x y) (k : SameFlow y z) : SameFlow x z :=
  ⟨k.layout.trans h.layout, k.entry.trans h.entry, k.size.trans h.size, k.succs.trans h.succs,
    k.preds.trans h.preds⟩

/-- The version of `y` is not lower than that of `x`, and if it is the same then `y` has the layout,
the entry and the edges of `x`. -/
structure Tracks (x y : Body) : Prop where
  le : x.cfgVersion ≤ y.cfgVersion
  same : y.cfgVersion = x.cfgVersion → SameFlow x y

lemma Tracks.refl (x : Body) : Tracks x x := ⟨le_rfl, fun _ => .refl x⟩

lemma Tracks.trans (h : Tracks x y) (k : Tracks y z) : Tracks x z := by
  refine ⟨h.le.trans k.le, fun heq => ?_⟩
  have hle := h.le
  have kle := k.le
  exact (h.same (by omega)).trans (k.same (by omega))

lemma Tracks.of_lt (h : x.cfgVersion < y.cfgVersion) : Tracks x y := ⟨h.le, fun heq => absurd heq h.ne'⟩

lemma tracks_of_blocks (hblocks : y.blocks = x.blocks) (hlayout : y.layout = x.layout)
    (hentry : y.entry = x.entry) (hversion : y.cfgVersion = x.cfgVersion) : Tracks x y := by
  have hblock : y.block = x.block := by
    funext b
    rw [block, hblocks, block]
  refine ⟨hversion.ge, fun _ => ⟨hlayout, hentry, by rw [hblocks], ?_, ?_⟩⟩
  · funext b
    rw [succs, hblock, succs]
  · funext b
    rw [preds, hblock, preds]

lemma SameShape.tracks (h : SameShape x y) : Tracks x y := tracks_of_blocks h.blocks h.layout h.entry h.version

lemma tracks_setInsts (insts : List InstId → List InstId) :
    Tracks body (body.modifyBlock b fun x => { x with insts := insts x.insts }) := by
  refine ⟨le_rfl, fun _ => ⟨rfl, rfl, by simp [modifyBlock], ?_, ?_⟩⟩
  · funext c
    rw [succs, block_modifyBlock, succs]
    split <;> rfl
  · funext c
    rw [preds, block_modifyBlock, preds]
    split <;> rfl

lemma tracks_connect : Tracks body (body.connect a b) := by
  rw [connect]
  split
  · exact .refl body
  · exact .of_lt (Nat.lt_succ_self _)

lemma tracks_disconnect : Tracks body (body.disconnect a b) := by
  rw [disconnect]
  split
  · refine .of_lt (Nat.lt_succ_of_le (Nat.le_of_eq ?_))
    rw [sameShape_removePhiArgs.version]
    rfl
  · exact .refl body

lemma tracks_modifyInst (f : Inst → Inst) : Tracks body (body.modifyInst i f) := tracks_of_blocks rfl rfl rfl rfl

lemma Tracks.rewired : AcrossPlaces Tracks where
  refl := .refl
  trans := .trans
  connect := tracks_connect
  disconnect := tracks_disconnect
  target := tracks_modifyInst _
  place := tracks_modifyInst _
  list := tracks_setInsts

lemma tracks_discard : Tracks body (body.discard i) :=
  (sameShape_dropOperands.trans sameShape_replaceUses).tracks.trans (tracks_modifyInst _)

lemma tracks_addInst (kind : Kind) (vs : List Value) (ty : Ty) : Tracks body (body.addInst kind vs ty) := by
  have hpush : Tracks body (body.pushInst { kind, ty }) := tracks_of_blocks rfl rfl rfl rfl
  exact hpush.trans (sameShape_addInst kind vs ty).tracks

lemma Tracks.across : AcrossOps Tracks where
  toStepwise := Tracks.rewired.toStepwise
  vars := tracks_of_blocks rfl rfl rfl rfl
  entry _ := .of_lt (Nat.lt_succ_self _)
  addBlock := .of_lt (Nat.lt_succ_self _)
  addInst _ _ := tracks_addInst _ _ _
  attach _ _ := Tracks.rewired.attach
  detach := Tracks.rewired.detach
  connect _ _ := Tracks.rewired.connect
  disconnect := Tracks.rewired.disconnect
  retarget _ _ := Tracks.rewired.retarget
  pushArg _ phi _ := (sameShape_pushArg phi).tracks
  slot _ := (sameShape_removePhiSlot _).tracks
  moveUse _ _ _ := sameShape_moveUse.tracks
  replaceUses _ := sameShape_replaceUses.tracks
  remove := Tracks.rewired.detach.trans (sameShape_dropOperands.tracks.trans (tracks_modifyInst _))
  destroy := Tracks.rewired.detach.trans tracks_discard
  eraseBlock := Tracks.rewired.eraseBlock (fun _ _ => Tracks.rewired.detach) (fun _ _ => tracks_discard)
    (fun _ _ => Tracks.rewired.disconnect) fun _ => .of_lt (Nat.lt_succ_self _)

end Body

/-! ## Analyses -/

variable {x y : Body}

lemma DominatorTree.compute_congr (h : x.SameFlow y) : compute y = compute x := by
  have horder : y.order = x.order := congrArg Layout.order h.layout
  simp only [compute, Dominance.immediate, childrenOf, h.entry, h.size, h.succs, h.preds, horder]

lemma Frontier.compute_congr (h : x.SameFlow y) (t : DominatorTree) : compute y t = compute x t := by
  have horder : y.order = x.order := congrArg Layout.order h.layout
  have hblock : y.hasBlock = x.hasBlock := by
    funext b
    rw [hasBlock, h.size, hasBlock]
  have hholders : holders y t = holders x t := by
    funext b
    rw [holders, h.preds, holders]
  simp only [compute, ofTree, hholders, hblock, horder, h.size]

/-- The frontiers of a body, computed without a cache. -/
def Frontier.ofBody (body : Body) : Except Error Frontier := do
  compute body (← DominatorTree.compute body)

lemma Frontier.ofBody_congr {x y : Body} (h : x.SameFlow y) : ofBody y = ofBody x := by
  rw [ofBody, DominatorTree.compute_congr h, ofBody]
  exact bind_congr fun tree => compute_congr h tree

namespace Traced

variable {σ α β : Type} {x : EStateM Error σ α} {t t' : σ}

def ending (r : Except Error α) (t : σ) : EStateM.Result Error σ α :=
  match r with
  | .ok a => .ok a t
  | .error e => .error e t

lemma ofExcept_run (r : Except Error α) (t : Trace σ) :
    (MonadExcept.ofExcept r : Traced σ α) t = ending r t := by cases r <;> rfl

lemma getState_bind_run (f : σ → Traced σ β) (t : Trace σ) : (getState >>= f) t = f t.state t := rfl

lemma bind_of_ok {a : α} (h : x t = .ok a t') (f : α → EStateM Error σ β) : (x >>= f) t = f a t' := by
  change EStateM.bind x f t = _
  rw [EStateM.bind, h]

lemma bind_of_error {e : Error} (h : x t = .error e t')
    (f : α → EStateM Error σ β) : (x >>= f) t = .error e t' := by
  change EStateM.bind x f t = _
  rw [EStateM.bind, h]

end Traced

variable {α : Type} {body x y : Body} {a : Analyses} {log : Array Event}

/-- What is kept is not of a later version than the body, and if it is of the body's version then it
is what is computed from the body. -/
structure Cached.Fresh (compute : Body → Except Error α) (body : Body) (c : Cached α) : Prop where
  le : c.version ≤ body.cfgVersion
  value : c.version = body.cfgVersion → compute body = .ok c.value

lemma Cached.Fresh.tracks {compute : Body → Except Error α} {c : Cached α}
    (hcompute : ∀ {x y : Body}, x.SameFlow y → compute y = compute x) (h : c.Fresh compute x)
    (k : x.Tracks y) : c.Fresh compute y := by
  refine ⟨h.le.trans k.le, fun heq => ?_⟩
  have hx : c.version = x.cfgVersion := le_antisymm h.le (heq ▸ k.le)
  rw [hcompute (k.same (heq.symm.trans hx)), h.value hx]

namespace Analyses

/-- All that is kept is fresh. -/
structure Fresh (a : Analyses) (body : Body) : Prop where
  tree : ∀ c ∈ a.tree, c.Fresh DominatorTree.compute body
  frontier : ∀ c ∈ a.frontier, c.Fresh ofBody body

lemma fresh_empty : ({} : Analyses).Fresh body := ⟨by simp, by simp⟩

lemma Fresh.tracks (h : a.Fresh x) (k : x.Tracks y) : a.Fresh y :=
  ⟨fun c hc => (h.tree c hc).tracks DominatorTree.compute_congr k,
    fun c hc => (h.frontier c hc).tracks ofBody_congr k⟩

structure Request.Answers (r : Request α) (compute : Body → Except Error α) : Prop where
  slot : ∀ {a body}, a.Fresh body → ∀ c ∈ r.slot a, c.Fresh compute body
  slot_put : ∀ c a, r.slot (r.put c a) = c
  put : ∀ {a body} {c : Option (Cached α)}, a.Fresh body → (∀ d ∈ c, d.Fresh compute body) → (r.put c a).Fresh body
  create : ∀ {a body}, a.Fresh body → ∀ keep log, ∃ t : Trace Analyses, t.state.Fresh body ∧
    r.create body keep ⟨a, log⟩ = ending (compute body) t

variable {r : Request α} {compute : Body → Except Error α}

lemma Request.Answers.get_of_none (hr : r.Answers compute) (h : a.Fresh body) (hnone : r.slot a = none)
    (keep : Bool) (log : Array Event) : ∃ t : Trace Analyses, t.state.Fresh body ∧
      get r body keep ⟨a, log⟩ = ending (compute body) t := by
  obtain ⟨t, ht, hcreate⟩ := hr.create h keep (log.push (.computing r.name))
  have hget : get r body keep ⟨a, log⟩ = (do
      let value ← r.create body keep
      if keep then modifyState (r.put (some ⟨body.cfgVersion, value⟩))
      return value : Traced Analyses α) ⟨a, log.push (.computing r.name)⟩ := by
    rw [get, getState_bind_run, hnone]
    rfl
  rw [hget]
  cases hc : compute body with
  | error e =>
    rw [hc] at hcreate
    exact ⟨t, ht, bind_of_error hcreate _⟩
  | ok value =>
    rw [hc] at hcreate
    rw [bind_of_ok hcreate]
    cases keep with
    | false => exact ⟨t, ht, rfl⟩
    | true =>
      refine ⟨{ t with state := r.put (some ⟨body.cfgVersion, value⟩) t.state }, hr.put ht ?_, rfl⟩
      intro d hd
      obtain rfl := mem_some_iff.1 hd
      exact ⟨le_rfl, fun _ => hc⟩

lemma Request.Answers.get (hr : r.Answers compute) (h : a.Fresh body) (keep : Bool)
    (log : Array Event) : ∃ t : Trace Analyses, t.state.Fresh body ∧
      get r body keep ⟨a, log⟩ = ending (compute body) t := by
  cases hslot : r.slot a with
  | none => exact hr.get_of_none h hslot keep log
  | some c =>
    by_cases hv : c.version = body.cfgVersion
    · refine ⟨⟨a, log⟩, h, ?_⟩
      rw [Analyses.get, getState_bind_run, hslot, (hr.slot h c hslot).value hv]
      simp only [hv, if_true]
      rfl
    · -- a stale entry is dropped, so the rest is as if nothing were kept
      have hget : Analyses.get r body keep ⟨a, log⟩ =
          Analyses.get r body keep ⟨r.put none a, log.push (.staleEntry r.name)⟩ := by
        rw [Analyses.get, getState_bind_run, getState_bind_run, hslot, hr.slot_put]
        simp only [hv, if_false]
        rfl
      rw [hget]
      exact hr.get_of_none (hr.put h (by simp)) (hr.slot_put none a) keep _

lemma treeRequest_answers : treeRequest.Answers DominatorTree.compute where
  slot h := h.tree
  slot_put _ _ := rfl
  put h hc := ⟨hc, h.frontier⟩
  create {a _} h _ log := ⟨⟨a, log⟩, h, ofExcept_run _ _⟩

lemma frontierRequest_answers : frontierRequest.Answers ofBody where
  slot h := h.frontier
  slot_put _ _ := rfl
  put h hc := ⟨h.tree, hc⟩
  create {a body} h keep log := by
    obtain ⟨t, ht, htree⟩ := treeRequest_answers.get h keep log
    refine ⟨t, ht, ?_⟩
    rw [ofBody]
    cases hc : DominatorTree.compute body with
    | error e =>
      rw [hc] at htree
      exact bind_of_error htree _
    | ok tree =>
      rw [hc] at htree
      exact (bind_of_ok htree _).trans (ofExcept_run _ _)

end Analyses

namespace Session

/-- What can be done with a body of a session and the analyses of that body. -/
inductive Act where
  | edit (op : Op)
  | tree (keep : Bool)
  | frontier (keep : Bool)
  | forget

/-- The session that a step leaves, whether it fails or not; `none` if it is out of range. -/
def left? (x : Step α) (s : Session) : Option Session :=
  match x s with
  | .ok _ s => some s
  | .error .outOfRange _ => none
  | .error _ s => some s

namespace Act

/-- The session after an act on body `m`. -/
def after? (m : Nat) (s : Session) : Act → Option Session
  | edit op => left? (Session.edit m op.run) s
  | tree keep => left? (analyze m (getTree · keep)) s
  | frontier keep => left? (analyze m (getFrontier · keep)) s
  | forget => some { s with analyses := {} }

/-- The session after acts none of which was out of range. -/
def afterAll? (m : Nat) (acts : List Act) (s : Session) : Option Session := acts.foldlM (after? m) s

end Act

variable {m : Nat} {s s' u : Session} {act : Act} {acts : List Act} {f : Body → Traced Analyses α}

lemma body_run (h : s.bodies[m]? = some body) : Session.body m s = .ok body s := by
  have hget : (get : Step Session) s = .ok s s := rfl
  rw [Session.body, bind_of_ok hget, h]
  rfl

lemma exists_body {f : Body → Step α} (h : left? (Session.body m >>= f) s = some s') :
    ∃ x, s.bodies[m]? = some x := by
  cases hbody : s.bodies[m]? with
  | some x => exact ⟨x, rfl⟩
  | none =>
    have hget : (get : Step Session) s = .ok s s := rfl
    have herror : Session.body m s = .error .outOfRange s := by
      rw [Session.body, bind_of_ok hget, hbody]
      rfl
    rw [left?, bind_of_error herror] at h
    simp at h

lemma analyze_run {r : Except Error α} {t : Trace Analyses}
    (hbody : s.bodies[m]? = some body) (hf : f body ⟨s.analyses, s.log⟩ = ending r t) :
    analyze m f s = ending r { s with analyses := t.state, log := t.log } := by
  refine (bind_of_ok (body_run hbody) _).trans ?_
  simp only [hf]
  cases r <;> rfl

def Serves (m : Nat) (s : Session) : Prop := ∀ body, s.bodies[m]? = some body → s.analyses.Fresh body

def Tracks (m : Nat) (s u : Session) : Prop := ∀ y, u.bodies[m]? = some y → ∃ x, s.bodies[m]? = some x ∧ x.Tracks y

lemma Tracks.refl (m : Nat) (s : Session) : Tracks m s s := fun y hy => ⟨y, hy, .refl y⟩

lemma Tracks.trans (h : Tracks m s s') (k : Tracks m s' u) : Tracks m s u := by
  intro z hz
  obtain ⟨y, hy, hyz⟩ := k z hz
  obtain ⟨x, hx, hxy⟩ := h y hy
  exact ⟨x, hx, hxy.trans hyz⟩

lemma after_edit {op : Op} (h : (Act.edit op).after? m s = some s') :
    ∃ x y, s.bodies[m]? = some x ∧ op.after? x = some y ∧
      s' = { s with bodies := s.bodies.setIfInBounds m y } := by
  obtain ⟨x, hx⟩ := exists_body h
  refine ⟨x, ?_⟩
  have hrun : Session.edit m op.run s = match op.run x with
      | .ok a y => .ok a { s with bodies := s.bodies.setIfInBounds m y }
      | .error e y => .error e { s with bodies := s.bodies.setIfInBounds m y } := by
    refine (bind_of_ok (body_run hx) _).trans ?_
    cases op.run x <;> rfl
  rw [Act.after?, left?, hrun] at h
  rw [Op.after?]
  cases hop : op.run x with
  | ok a y =>
    rw [hop] at h
    exact ⟨y, hx, rfl, (some.inj h).symm⟩
  | error e y =>
    rw [hop] at h
    cases e <;> simp at h <;> exact ⟨y, hx, rfl, h.symm⟩

lemma after_analyze {compute : Body → Except Error α}
    (hs : Serves m s) (hf : ∀ x, s.analyses.Fresh x → ∃ t : Trace Analyses, t.state.Fresh x ∧
      f x ⟨s.analyses, s.log⟩ = ending (compute x) t)
    (h : left? (analyze m f) s = some s') : s'.bodies = s.bodies ∧ Serves m s' := by
  obtain ⟨x, hx⟩ := exists_body h
  obtain ⟨t, ht, hrun⟩ := hf x (hs x hx)
  have hs' : s' = { s with analyses := t.state, log := t.log } := by
    rw [left?, analyze_run hx hrun] at h
    cases hc : compute x with
    | ok a =>
      rw [hc] at h
      exact (some.inj h).symm
    | error e =>
      rw [hc] at h
      cases e <;> simp [ending] at h <;> exact h.symm
  subst hs'
  refine ⟨rfl, fun y hy => ?_⟩
  obtain rfl : x = y := some.inj (hx.symm.trans hy)
  exact ht

lemma Serves.after (hs : Serves m s) (h : act.after? m s = some s') : Serves m s' ∧ Tracks m s s' := by
  have hquestion : s'.bodies = s.bodies → Tracks m s s' := fun heq y hy => ⟨y, heq ▸ hy, .refl y⟩
  cases act with
  | edit op =>
    obtain ⟨x, y, hx, hop, rfl⟩ := after_edit h
    have htracks := Body.Tracks.across.changes (Op.changes_of_after hop)
    have hm : ∀ z, (s.bodies.setIfInBounds m y)[m]? = some z → z = y := by
      intro z hz
      rw [Array.getElem?_setIfInBounds_self_of_lt (Array.getElem?_eq_some_iff.1 hx).1] at hz
      exact (some.inj hz).symm
    constructor
    · intro z hz
      rw [hm z hz]
      exact (hs x hx).tracks htracks
    · intro z hz
      rw [hm z hz]
      exact ⟨x, hx, htracks⟩
  | tree keep =>
    obtain ⟨hbodies, hs'⟩ := after_analyze hs (fun x hx => treeRequest_answers.get hx keep _) h
    exact ⟨hs', hquestion hbodies⟩
  | frontier keep =>
    obtain ⟨hbodies, hs'⟩ := after_analyze hs (fun x hx => frontierRequest_answers.get hx keep _) h
    exact ⟨hs', hquestion hbodies⟩
  | forget =>
    obtain rfl : _ = s' := some.inj h
    exact ⟨fun _ _ => fresh_empty, hquestion rfl⟩

lemma Serves.afterAll (hs : Serves m s) (h : Act.afterAll? m acts s = some s') :
    Serves m s' ∧ Tracks m s s' := by
  rw [Act.afterAll?] at h
  induction acts generalizing s with
  | nil =>
    obtain rfl : s = s' := some.inj h
    exact ⟨hs, .refl m s⟩
  | cons act acts ih =>
    obtain ⟨u, hact, hrest⟩ := bind_eq_some_iff.1 h
    obtain ⟨hu, htracks⟩ := hs.after hact
    obtain ⟨hs', htracks'⟩ := ih hu hrest
    exact ⟨hs', htracks.trans htracks'⟩

lemma analyze_iff {compute : Body → Except Error α}
    (hbody : s.bodies[m]? = some body) (hf : ∃ t : Trace Analyses, t.state.Fresh body ∧
      f body ⟨s.analyses, s.log⟩ = ending (compute body) t) (a : α) :
    (∃ u, analyze m f s = .ok a u) ↔ compute body = .ok a := by
  obtain ⟨t, -, hrun⟩ := hf
  rw [analyze_run hbody hrun]
  cases compute body <;> simp [ending]

/-- After edits of a body mixed with questions for its analyses, a question is answered by what is
computed from the body as it is, and two bodies on the way that differ in layout, entry or edges differ
in version. -/
theorem answers_fresh (hnew : s.analyses = {}) (hrun : Act.afterAll? m acts s = some s')
    (hbody : s'.bodies[m]? = some body) : (∀ keep tree, (∃ u, analyze m (Analyses.getTree · keep) s' = .ok tree u) ↔
      DominatorTree.compute body = .ok tree) ∧
    (∀ keep frontier, (∃ u, analyze m (Analyses.getFrontier · keep) s' = .ok frontier u) ↔
      Frontier.ofBody body = .ok frontier) ∧
    ∀ pre post u x, acts = pre ++ post → Act.afterAll? m pre s = some u → u.bodies[m]? = some x →
      ¬x.SameFlow body → x.cfgVersion ≠ body.cfgVersion := by
  have hs : Serves m s := fun x _ => hnew ▸ Analyses.fresh_empty
  have hfresh := (hs.afterAll hrun).1 body hbody
  refine ⟨fun keep tree => analyze_iff hbody (Analyses.treeRequest_answers.get hfresh keep _) tree,
    fun keep frontier =>
      analyze_iff hbody (Analyses.frontierRequest_answers.get hfresh keep _) frontier, ?_⟩
  rintro pre post u x rfl hpre hx hne heq
  rw [Act.afterAll?, List.foldlM_append] at hrun
  obtain ⟨w, hw, hpost⟩ := bind_eq_some_iff.1 hrun
  obtain rfl : u = w := some.inj (hpre.symm.trans hw)
  obtain ⟨y, hy, htracks⟩ := ((hs.afterAll hpre).1.afterAll hpost).2 body hbody
  obtain rfl : x = y := some.inj (hx.symm.trans hy)
  exact hne (htracks.same heq.symm)

/-- Both analyses are kept when block 0 jumps to block 1, and the jump then goes elsewhere. -/
def movedJump : List Act := [.edit (.createBlock none), .edit (.createBlock none), .edit (.createBlock none),
    .edit (.setJump ⟨0⟩ ⟨1⟩), .tree true, .frontier true, .edit (.setJump ⟨1⟩ ⟨2⟩), .tree false,
    .edit (.setJump ⟨0⟩ ⟨2⟩), .frontier true, .edit (.connect ⟨1⟩ ⟨1⟩)]

theorem movedJump_answers : ∃ s' body, Act.afterAll? 0 movedJump { bodies := #[Body.empty [] .void] } = some s' ∧
    s'.bodies[0]? = some body ∧ s'.analyses.tree.map Cached.version = some 7 ∧ body.cfgVersion = 8 ∧
    ∀ keep tree, (∃ u, analyze 0 (Analyses.getTree · keep) s' = .ok tree u) ↔
      DominatorTree.compute body = .ok tree := by
  have hrun : (Act.afterAll? 0 movedJump { bodies := #[empty [] .void] }).any fun s' =>
      s'.bodies[0]?.any fun body =>
        s'.analyses.tree.map Cached.version == some 7 && body.cfgVersion == 8 := by cbv
  cases hs : Act.afterAll? 0 movedJump { bodies := #[empty [] .void] } with
  | none => simp [hs] at hrun
  | some s' =>
    cases hbody : s'.bodies[0]? with
    | none => simp [hs, hbody] at hrun
    | some body =>
      simp only [hs, hbody, any_some, Bool.and_eq_true, beq_iff_eq] at hrun
      exact ⟨s', body, rfl, hbody, hrun.1, hrun.2, (answers_fresh rfl hs hbody).1⟩

end Session

end MethodIR
