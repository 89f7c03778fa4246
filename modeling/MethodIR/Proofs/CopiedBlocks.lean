import MethodIR.Proofs.Intact
import MethodIR.Proofs.RenamedKinds

/-!
# Copying blocks to an empty body

Blocks that lead only to each other and use only their own instructions are copied to a body without
blocks. While that is done (`Copying`), an operand that is copied later stands as an undefined value.
-/

namespace MethodIR

open List Body Kind Option

namespace Success

variable {ε σ α γ : Type}

lemma exists_mapM {g : γ → EStateM ε σ α} {P : List γ → List α → σ → Prop} {xs : List γ} {s : σ}
    (hs : P [] [] s) (hstep : ∀ done c rest as s, xs = done ++ c :: rest → P done as s →
      ∃ a t, g c s = .ok a t ∧ P (done ++ [c]) (as ++ [a]) t) : ∃ as t, xs.mapM g s = .ok as t ∧ P xs as t := by
  suffices hall : ∀ rest done as s, xs = done ++ rest → P done as s →
      ∃ bs t, rest.mapM g s = .ok bs t ∧ P xs (as ++ bs) t from hall xs [] [] s rfl hs
  intro rest
  induction rest with
  | nil =>
    intro done as s hxs h
    refine ⟨[], s, mapM_nil_iff.2 ⟨rfl, rfl⟩, ?_⟩
    rwa [hxs, append_nil, append_nil]
  | cons c rest ih =>
    intro done as s hxs h
    obtain ⟨a, t, hc, ht⟩ := hstep done c rest as s hxs h
    obtain ⟨bs, t', hrest, ht'⟩ := ih (done ++ [c]) (as ++ [a]) t (by simp [hxs]) ht
    refine ⟨a :: bs, t', mapM_cons_iff.2 ⟨a, t, hc, bs, hrest, rfl⟩, ?_⟩
    rwa [append_assoc] at ht'

end Success

namespace Clone

open Success

variable {made : List BlockId} {decl : Variable} {w : VarId} {k : Kind} {vs : List Value} {body : Body}
  {old : Value}

variable {ctx : GenericContext} {x : Body} {bs : List BlockId} {n : Nat} {s s' : Cloning} {b c : BlockId}
  {i d j : InstId} {v : VarId} {done rest : List (BlockId × InstId)} {pending pending' more : List (InstId × Nat)}
  {slot : Nat}

lemma edit_iff {α : Type} {e : Edit α} {a : α} : edit e s = .ok a s' ↔
    ∃ target, e s.target = .ok a target ∧ s' = { s with target } := by
  rw [edit]
  cases h : e s.target <;> simp [eq_comm]

/-! ## Names of the copies -/

def blockImage (bs : List BlockId) (b : BlockId) : BlockId := ⟨bs.idxOf b⟩

def toCopy (x : Body) (bs : List BlockId) : List (BlockId × InstId) := bs.flatMap fun b => (x.instsOf b).map (b, ·)

def instImage (x : Body) (bs : List BlockId) (i : InstId) : InstId := ⟨(bs.flatMap x.instsOf).idxOf i⟩

def varImage (c : Cloner) (v : VarId) : VarId := (c.vars.lookup v).getD v

lemma mem_toCopy : (b, i) ∈ toCopy x bs ↔ b ∈ bs ∧ i ∈ x.instsOf b := by
  simp [toCopy]

lemma map_snd_toCopy : (toCopy x bs).map Prod.snd = bs.flatMap x.instsOf := by
  rw [toCopy, map_flatMap]
  simp

lemma blockImage_inj (hb : b ∈ bs) (h : blockImage bs b = blockImage bs c) : b = c :=
  (idxOf_inj hb).1 (congrArg BlockId.index h)

lemma instImage_inj (hi : i ∈ bs.flatMap x.instsOf) (h : instImage x bs i = instImage x bs j) : i = j :=
  (idxOf_inj hi).1 (congrArg InstId.index h)

/-- Blocks that can be copied on their own: they lead to each other, what their instructions use is among
these or an argument, and all variables are declared. -/
structure Closed (x : Body) (bs : List BlockId) (n : Nat) : Prop where
  attached : x.Attached
  nodup : bs.Nodup
  hasBlock : ∀ b ∈ bs, x.hasBlock b
  full : ∀ b ∈ bs, ∀ i ∈ x.instsOf b, Edit.arityViolation? (x.kind i) (x.inst i).operands.length = none
  blocks : ∀ b ∈ bs, ∀ i ∈ x.instsOf b, ∀ c ∈ (x.kind i).blocks, c ∈ bs
  operands : ∀ b ∈ bs, ∀ i ∈ x.instsOf b, ∀ d, .inst d ∈ (x.inst i).operands → ∃ c ∈ bs, d ∈ x.instsOf c
  args : ∀ b ∈ bs, ∀ i ∈ x.instsOf b, ∀ a, .arg a ∈ (x.inst i).operands → a.index < n
  vars : ∀ b ∈ bs, ∀ i ∈ x.instsOf b, ∀ v, (x.kind i).var? = some v → x.hasVar v

lemma Closed.nodup_insts (h : Closed x bs n) : (bs.flatMap x.instsOf).Nodup := by
  refine nodup_flatMap.2 ⟨fun b _ => h.attached.nodup b, h.nodup.imp fun {b c} hne => ?_⟩
  exact fun i hb hc => hne (h.attached.eq_of_mem hb hc)

lemma Closed.next (h : Closed x bs n) (hsplit : toCopy x bs = done ++ (b, i) :: rest) :
    b ∈ bs ∧ i ∈ x.instsOf b ∧ i ∉ done.map Prod.snd ∧ instImage x bs i = ⟨done.length⟩ := by
  have hmem : (b, i) ∈ toCopy x bs := by simp [hsplit]
  obtain ⟨hb, hi⟩ := mem_toCopy.1 hmem
  have hnodup := h.nodup_insts
  rw [← map_snd_toCopy, hsplit, map_append, map_cons] at hnodup
  have hnot : i ∉ done.map Prod.snd := fun hdone =>
    (disjoint_of_nodup_append hnodup) hdone mem_cons_self
  refine ⟨hb, hi, hnot, ?_⟩
  rw [instImage, ← map_snd_toCopy, hsplit, map_append, map_cons, idxOf_append_of_notMem hnot,
    idxOf_cons_self, length_map, Nat.add_zero]

/-! ## Blocks -/

structure Begun (ctx : GenericContext) (n : Nat) (made : List BlockId) (s : Cloning) : Prop where
  context : s.cloner.context = ctx
  values : s.cloner.values = []
  vars : s.cloner.vars = []
  blocks : ∀ b, s.cloner.blocks.lookup b = if b ∈ made then some (blockImage made b) else none
  intact : s.target.Intact
  insts : s.target.insts = #[]
  noVars : s.target.vars = #[]
  size : s.target.blocks.size = made.length
  args : s.target.args.size = n
  entry : s.target.entry = made.head?.map fun _ => ⟨0⟩
  empty : ∀ b, s.target.instsOf b = []

lemma begun_nil (tys : List Ty) (ret : Ty) : Begun ctx tys.length [] ⟨{ context := ctx }, empty tys ret⟩ where
  context := rfl
  values := rfl
  vars := rfl
  blocks _ := rfl
  intact := intact_empty tys ret
  insts := rfl
  noVars := rfl
  size := rfl
  args := by simp [empty]
  entry := rfl
  empty _ := rfl

lemma Begun.image (h : Begun ctx n made s) (hb : b ∉ made) :
    ∃ s', image b s = .ok ⟨made.length⟩ s' ∧ Begun ctx n (made ++ [b]) s' := by
  have hnone : s.cloner.blocks.lookup b = none := by rw [h.blocks, if_neg hb]
  have hrun : Clone.image b s = .ok ⟨made.length⟩
      ⟨{ s.cloner with blocks := (b, ⟨made.length⟩) :: s.cloner.blocks }, s.target.addBlock none⟩ := by
    rw [← h.size]
    refine bind_iff.2 ⟨s.cloner, s, rfl, ?_⟩
    simp only [hnone]
    rfl
  refine ⟨_, hrun, h.context, h.values, h.vars, fun c => ?_, h.intact.addBlock_none, h.insts, h.noVars, ?_,
    h.args, ?_, fun c => ?_⟩
  · simp only [lookup_cons]
    by_cases hc : c = b
    · subst hc
      simp [blockImage, idxOf_append_of_notMem hb]
    · have hne : (c == b) = false := by simpa using hc
      rw [hne, h.blocks]
      by_cases hmem : c ∈ made
      · simp [hmem, blockImage, idxOf_append_of_mem hmem]
      · simp [hmem, hc]
  · simp [addBlock, h.size]
  · cases made with
    | nil => simp [addBlock, h.entry, h.size]
    | cons a made => simp [addBlock, h.entry]
  · rw [instsOf, block_addBlock]
    exact h.empty c

lemma exists_images (ctx : GenericContext) (hbs : bs.Nodup) (tys : List Ty) (ret : Ty) :
    ∃ s, bs.mapM image ⟨{ context := ctx }, empty tys ret⟩ = .ok (bs.map (blockImage bs)) s ∧
      Begun ctx tys.length bs s := by
  suffices hall : ∃ images s, bs.mapM image ⟨{ context := ctx }, empty tys ret⟩ = .ok images s ∧
      images = bs.map (blockImage bs) ∧ Begun ctx tys.length bs s by
    obtain ⟨images, s, hrun, rfl, hs⟩ := hall
    exact ⟨s, hrun, hs⟩
  refine exists_mapM (P := fun made as s => as = made.map (blockImage bs) ∧ Begun ctx tys.length made s)
    ⟨rfl, begun_nil tys ret⟩ ?_
  rintro made b rest as s hsplit ⟨rfl, hs⟩
  have hnot : b ∉ made := fun hmem => by
    rw [hsplit] at hbs
    exact disjoint_of_nodup_append hbs hmem mem_cons_self
  obtain ⟨s', hrun, hs'⟩ := hs.image hnot
  have himage : blockImage bs b = ⟨made.length⟩ := by
    rw [blockImage, hsplit, idxOf_append_of_notMem hnot, idxOf_cons_self, Nat.add_zero]
  exact ⟨_, s', hrun, by rw [map_append, map_singleton, himage], hs'⟩

/-! ## Variables -/

structure DeclaredVars (ctx : GenericContext) (x : Body) (bs : List BlockId) (s : Cloning) : Prop where
  decl : ∀ v w, s.cloner.vars.lookup v = some w → s.target.hasVar w ∧
    s.target.var w = { x.var v with ty := (x.var v).ty.specialize ctx } ∧
    ∃ b ∈ bs, ∃ i ∈ x.instsOf b, (x.kind i).var? = some v
  inj : ∀ v v' w, s.cloner.vars.lookup v = some w → s.cloner.vars.lookup v' = some w → v = v'
  onto : ∀ w, s.target.hasVar w → ∃ v, s.cloner.vars.lookup v = some w

lemma DeclaredVars.congr (h : DeclaredVars ctx x bs s) (hvars : s'.target.vars = s.target.vars)
    (hnames : s'.cloner.vars = s.cloner.vars) : DeclaredVars ctx x bs s' := by
  have hhas : ∀ w, s'.target.hasVar w = s.target.hasVar w := fun w => by rw [hasVar, hvars, hasVar]
  have hvar : ∀ w, s'.target.var w = s.target.var w := fun w => by rw [var, hvars, var]
  refine ⟨fun v w hw => ?_, fun v v' w hw hw' => ?_, fun w hw => ?_⟩
  · rw [hhas, hvar]
    exact h.decl v w (hnames ▸ hw)
  · exact h.inj v v' w (hnames ▸ hw) (hnames ▸ hw')
  · rw [hnames]
    exact h.onto w (hhas w ▸ hw)

def withVar (s : Cloning) (v : VarId) (decl : Variable) : Cloning :=
  ⟨{ s.cloner with vars := (v, ⟨s.target.vars.size⟩) :: s.cloner.vars },
    { s.target with vars := s.target.vars.push decl }⟩

lemma lookup_withVar (decl : Variable) (u : VarId) : (withVar s v decl).cloner.vars.lookup u =
    if u = v then some ⟨s.target.vars.size⟩ else s.cloner.vars.lookup u := by
  rw [withVar, lookup_cons]
  by_cases hu : u = v
  · simp [hu]
  · have hne : (u == v) = false := by simpa using hu
    simp [hne, hu]

lemma hasVar_withVar : (withVar s v decl).target.hasVar w ↔ s.target.hasVar w ∨ w = ⟨s.target.vars.size⟩ := by
  simp only [withVar, hasVar, Array.size_push, decide_eq_true_eq, VarId.ext_iff]
  omega

lemma var_withVar : (withVar s v decl).target.var w =
    if w = ⟨s.target.vars.size⟩ then decl else s.target.var w := by
  rw [withVar, var, Tables.getD_push, var]
  simp only [VarId.ext_iff]

lemma imageVar_eq (hv : x.hasVar v) (hlookup : s.cloner.vars.lookup v = none) :
    imageVar x v s = .ok ⟨s.target.vars.size⟩
      (withVar s v { x.var v with ty := (x.var v).ty.specialize s.cloner.context }) := by
  have hdecl : (s.target.vars.push
      { ty := (x.var v).ty.specialize s.cloner.context, origin := (x.var v).origin }).modify s.target.vars.size
        (fun y => { y with isPinned := (x.var v).isPinned, isExposed := (x.var v).isExposed }) =
      s.target.vars.push { x.var v with ty := (x.var v).ty.specialize s.cloner.context } := by
    refine Array.ext (by simp) fun k hk _ => ?_
    rw [Array.getElem_modify]
    split
    · next heq => simp [← heq]
    · next hne =>
      have hlt : k < s.target.vars.size := by simp at hk; omega
      simp [Array.getElem_push_lt hlt]
  refine bind_iff.2 ⟨s.cloner, s, rfl, ?_⟩
  simp only [hlookup]
  refine bind_iff.2 ⟨(), s, edit_iff.2 ⟨s.target, Edit.need_iff.2 ⟨hv, rfl⟩, rfl⟩, ?_⟩
  rw [withVar, ← hdecl]
  rfl

lemma imageVar_of_lookup (hlookup : s.cloner.vars.lookup v = some w) : imageVar x v s = .ok w s := by
  refine bind_iff.2 ⟨s.cloner, s, rfl, ?_⟩
  simp only [hlookup]
  rfl

lemma DeclaredVars.withVar (h : DeclaredVars ctx x bs s) (hnone : s.cloner.vars.lookup v = none)
    (haccess : ∃ b ∈ bs, ∃ i ∈ x.instsOf b, (x.kind i).var? = some v) :
    DeclaredVars ctx x bs (withVar s v { x.var v with ty := (x.var v).ty.specialize ctx }) := by
  have hfresh : ∀ u, s.cloner.vars.lookup u ≠ some ⟨s.target.vars.size⟩ := fun u hu => by
    simpa [hasVar] using (h.decl u _ hu).1
  refine ⟨fun u w hu => ?_, fun u u' w hu hu' => ?_, fun w hw => ?_⟩
  · rw [lookup_withVar] at hu
    rw [hasVar_withVar, var_withVar]
    split at hu
    · next heq =>
      obtain rfl := some.inj hu
      exact ⟨.inr rfl, by rw [if_pos rfl, heq], heq ▸ haccess⟩
    · obtain ⟨hhas, hvar, hacc⟩ := h.decl u w hu
      have hne : w ≠ ⟨s.target.vars.size⟩ := fun heq => hfresh u (heq ▸ hu)
      exact ⟨.inl hhas, by rw [if_neg hne, hvar], hacc⟩
  · rw [lookup_withVar] at hu hu'
    split at hu <;> split at hu'
    · next h₁ h₂ => exact h₁.trans h₂.symm
    · exact absurd (hu'.trans hu.symm) (hfresh u')
    · exact absurd (hu.trans hu'.symm) (hfresh u)
    · exact h.inj u u' w hu hu'
  · simp only [lookup_withVar]
    rcases hasVar_withVar.1 hw with hw | rfl
    · obtain ⟨u, hu⟩ := h.onto w hw
      exact ⟨u, (if_neg fun heq => by simp [heq, hnone] at hu).trans hu⟩
    · exact ⟨v, if_pos rfl⟩

lemma DeclaredVars.imageVar (h : DeclaredVars ctx x bs s) (hctx : s.cloner.context = ctx)
    (hv : x.hasVar v) (haccess : ∃ b ∈ bs, ∃ i ∈ x.instsOf b, (x.kind i).var? = some v) :
    ∃ w vars decls, imageVar x v s = .ok w ⟨{ s.cloner with vars }, { s.target with vars := decls }⟩ ∧
      vars.lookup v = some w ∧ (∀ u w, s.cloner.vars.lookup u = some w → vars.lookup u = some w) ∧
      DeclaredVars ctx x bs ⟨{ s.cloner with vars }, { s.target with vars := decls }⟩ := by
  cases hlookup : s.cloner.vars.lookup v with
  | some w => exact ⟨w, _, _, imageVar_of_lookup hlookup, hlookup, fun _ _ => id, h⟩
  | none =>
    have hlookup' := lookup_withVar (s := s) (v := v) { x.var v with ty := (x.var v).ty.specialize ctx }
    refine ⟨_, _, _, hctx ▸ imageVar_eq hv hlookup, (hlookup' v).trans (if_pos rfl), fun u w hu => ?_,
      h.withVar hlookup haccess⟩
    refine (hlookup' u).trans ((if_neg fun heq => ?_).trans hu)
    simp [heq, hlookup] at hu

/-! ## Instructions -/

structure IsCopy (ctx : GenericContext) (x : Body) (bs : List BlockId) (pending : List (InstId × Nat))
    (s : Cloning) (i : InstId) : Prop where
  kind : s.target.kind (instImage x bs i) = (x.kind i).renamed ctx (blockImage bs) (varImage s.cloner)
  ty : (s.target.inst (instImage x bs i)).ty = (x.inst i).ty.specialize ctx
  length : (s.target.inst (instImage x bs i)).operands.length = (x.inst i).operands.length
  operands : ∀ slot v, (x.inst i).operands[slot]? = some v → (i, slot) ∉ pending →
    (s.target.inst (instImage x bs i)).operands[slot]? = some (v.renamed ctx (instImage x bs))

lemma varImage_congr {c c' : Cloner} (h : c'.vars = c.vars) : varImage c' = varImage c := by
  funext v
  rw [varImage, h, varImage]

lemma IsCopy.congr (h : IsCopy ctx x bs pending s i) (hvars : s'.cloner.vars = s.cloner.vars)
    (hkind : s'.target.kind (instImage x bs i) = s.target.kind (instImage x bs i))
    (hty : (s'.target.inst (instImage x bs i)).ty = (s.target.inst (instImage x bs i)).ty)
    (hoperands : (s'.target.inst (instImage x bs i)).operands = (s.target.inst (instImage x bs i)).operands)
    (hpending : ∀ slot v, (x.inst i).operands[slot]? = some v → (i, slot) ∈ pending → (i, slot) ∈ pending') :
    IsCopy ctx x bs pending' s' i where
  kind := by rw [hkind, h.kind, varImage_congr hvars]
  ty := hty.trans h.ty
  length := by rw [hoperands, h.length]
  operands slot v hv hnot := by
    rw [hoperands]
    exact h.operands slot v hv fun hmem => hnot (hpending slot v hv hmem)

/-- The first instructions have been copied, and some operands have to be filled in. -/
structure Copying (ctx : GenericContext) (x : Body) (bs : List BlockId) (n : Nat)
    (done : List (BlockId × InstId)) (pending : List (InstId × Nat)) (s : Cloning) : Prop where
  context : s.cloner.context = ctx
  blocks : ∀ b ∈ bs, s.cloner.blocks.lookup b = some (blockImage bs b)
  values : ∀ i, s.cloner.values.lookup (.inst i) =
    if i ∈ done.map Prod.snd then some (.inst (instImage x bs i)) else none
  others : ∀ v : Value, v.inst? = none → s.cloner.values.lookup v = none
  vars : DeclaredVars ctx x bs s
  known : ∀ p ∈ done, ∀ v, (x.kind p.2).var? = some v → ∃ w, s.cloner.vars.lookup v = some w
  intact : s.target.Intact
  size : s.target.insts.size = done.length
  count : s.target.blocks.size = bs.length
  args : s.target.args.size = n
  entry : s.target.entry = bs.head?.map (blockImage bs)
  list : ∀ b ∈ bs, s.target.instsOf (blockImage bs b) = (done.filter (·.1 = b)).map fun p => instImage x bs p.2
  copy : ∀ p ∈ done, IsCopy ctx x bs pending s p.2

lemma Begun.copying (h : Begun ctx n bs s) : Copying ctx x bs n [] [] s where
  context := h.context
  blocks b hb := by rw [h.blocks, if_pos hb]
  values i := by simp [h.values]
  others v _ := by simp [h.values]
  vars := by
    refine ⟨fun v w hw => ?_, fun v v' w hw => ?_, fun w hw => ?_⟩
    · simp [h.vars] at hw
    · simp [h.vars] at hw
    · simp [hasVar, h.noVars] at hw
  known := by simp
  intact := h.intact
  size := by simp [h.insts]
  count := h.size
  args := h.args
  entry := by
    rw [h.entry]
    cases bs with
    | nil => rfl
    | cons b bs => simp [blockImage]
  list b _ := h.empty _
  copy := by simp

lemma Copying.withVars (h : Copying ctx x bs n done pending s) {vars : List (VarId × VarId)}
    {decls : Array Variable} (hkeep : ∀ u w, s.cloner.vars.lookup u = some w → vars.lookup u = some w)
    (hvars : DeclaredVars ctx x bs ⟨{ s.cloner with vars }, { s.target with vars := decls }⟩) :
    Copying ctx x bs n done pending ⟨{ s.cloner with vars }, { s.target with vars := decls }⟩ where
  context := h.context
  blocks := h.blocks
  values := h.values
  others := h.others
  vars := hvars
  known p hp v hv := by
    obtain ⟨w, hw⟩ := h.known p hp v hv
    exact ⟨w, hkeep v w hw⟩
  intact := h.intact.withVars decls
  size := h.size
  count := h.count
  args := h.args
  entry := h.entry
  list := h.list
  copy p hp := by
    obtain ⟨hkind, hty, hlength, hoperands⟩ := h.copy p hp
    refine ⟨hkind.trans (mapVar_congr fun v hv => ?_), hty, hlength, hoperands⟩
    obtain ⟨w, hw⟩ := h.known p hp v (var?_specialize_mapBlocks (x.kind p.2) ▸ hv)
    simp [varImage, hw, hkeep v w hw]

lemma mapVar_of_none (hk : k.var? = none) : mapVar x k s = .ok k s := by
  cases k with
  | loadVar v | storeVar v | varAddr v => cases hk
  | _ => rfl

lemma mapVar_of_some (hk : k.var? = some v) (hrun : imageVar x v s = .ok w s') :
    mapVar x k s = .ok (k.mapVar fun _ => w) s' := by
  cases k <;> simp only [var?, some.injEq, reduceCtorEq] at hk
  all_goals
    subst hk
    exact bind_iff.2 ⟨w, s', hrun, rfl⟩

lemma Copying.mapVar (h : Copying ctx x bs n done pending s) (hx : Closed x bs n) (hb : b ∈ bs)
    (hi : i ∈ x.instsOf b) : ∃ vars decls,
      let s' : Cloning := ⟨{ s.cloner with vars }, { s.target with vars := decls }⟩
      mapVar x (((x.kind i).specialize ctx).mapBlocks (blockImage bs)) s =
        .ok ((x.kind i).renamed ctx (blockImage bs) (varImage s'.cloner)) s' ∧
      Copying ctx x bs n done pending s' ∧
      ∀ v, (x.kind i).var? = some v → ∃ w, s'.cloner.vars.lookup v = some w := by
  have hsame : (((x.kind i).specialize ctx).mapBlocks (blockImage bs)).var? = (x.kind i).var? :=
    var?_specialize_mapBlocks (x.kind i)
  cases hk : (x.kind i).var? with
  | none =>
    refine ⟨s.cloner.vars, s.target.vars, ?_, h, fun v hv => by cases hv⟩
    rw [mapVar_of_none (hsame.trans hk), renamed, mapVar_of_var?_eq_none (hsame.trans hk)]
  | some v =>
    obtain ⟨w, vars, decls, hrun, hw, hkeep, hvars⟩ :=
      h.vars.imageVar h.context (hx.vars b hb i hi v hk) ⟨b, hb, i, hi, hk⟩
    refine ⟨vars, decls, ?_, h.withVars hkeep hvars, fun u hu => ?_⟩
    · rw [mapVar_of_some (hsame.trans hk) hrun, renamed, mapVar_congr fun u hu => ?_]
      obtain rfl := some.inj ((hsame.trans hk).symm.trans hu)
      simp [varImage, hw]
    · obtain rfl := some.inj hu
      exact ⟨w, hw⟩

def imageNow (c : Cloner) (x : Body) (region : List InstId) (v : Value) : Value :=
  if isPending c region v then .undef ((x.valueTy v).specialize c.context) else c.mapValue v

lemma imageOperands_eq {region : List InstId} (hargs : ∀ a, .arg a ∈ vs → a.index < s.target.args.size) :
    vs.mapM (imageOperand x region) s = .ok (vs.map (imageNow s.cloner x region)) s := by
  induction vs with
  | nil => rfl
  | cons v vs ih =>
    refine mapM_cons_iff.2 ⟨_, s, ?_, _, ih fun a ha => hargs a (mem_cons_of_mem _ ha), rfl⟩
    change (if isPending s.cloner region v then _ else _ : Clone Value) s = _
    rw [imageNow]
    split
    · rfl
    · cases v with
      | arg a =>
        have hlt := hargs a mem_cons_self
        have hno : ((s.cloner.values.lookup (.arg a)).isNone && decide (s.target.args.size ≤ a.index)) = false := by
          simp
          omega
        change (if ((s.cloner.values.lookup (.arg a)).isNone && decide (s.target.args.size ≤ a.index)) = true
          then _ else _ : Clone Value) s = _
        rw [hno]
        rfl
      | _ => rfl

lemma Copying.mapValue_eq (h : Copying ctx x bs n done pending s) {v : Value}
    (hv : ∀ d, v = .inst d → d ∈ done.map Prod.snd) : s.cloner.mapValue v = v.renamed ctx (instImage x bs) := by
  cases v with
  | undef t => simp [Cloner.mapValue, h.context, Value.renamed]
  | inst d => simp [Cloner.mapValue, h.values, hv d rfl, Value.renamed]
  | const c => simp [Cloner.mapValue, h.others (.const c) rfl, Value.renamed]
  | arg a => simp [Cloner.mapValue, h.others (.arg a) rfl, Value.renamed]

lemma Copying.isPending_iff (h : Copying ctx x bs n done pending s) {v : Value}
    (hv : ∀ d, v = .inst d → d ∈ bs.flatMap x.instsOf) :
    isPending s.cloner (bs.flatMap x.instsOf) v = false ↔ ∀ d, v = .inst d → d ∈ done.map Prod.snd := by
  cases v with
  | inst d =>
    have hd := hv d rfl
    simp only [isPending, contains_iff_mem.2 hd, Bool.true_and, h.values]
    split <;> simp_all
  | _ => simp [isPending]

lemma instImage_lt (hsplit : toCopy x bs = done ++ rest) (hd : d ∈ done.map Prod.snd) :
    (instImage x bs d).index < done.length := by
  rw [instImage, ← map_snd_toCopy, hsplit, map_append, idxOf_append_of_mem hd]
  simpa using idxOf_lt_length_of_mem hd

section

variable (h : Copying ctx x bs n done pending s)
include h

lemma Copying.hasValue (hsplit : toCopy x bs = done ++ rest)
    {v : Value} (hv : ∀ d, v = .inst d → d ∈ done.map Prod.snd) (hargs : ∀ a, v = .arg a → a.index < n) :
    s.target.hasValue (v.renamed ctx (instImage x bs)) := by
  cases v with
  | inst d =>
    have hlt := instImage_lt hsplit (hv d rfl)
    simpa [Value.renamed, Body.hasValue, Body.hasInst, h.size] using hlt
  | arg a => simpa [Value.renamed, Body.hasValue, h.args] using hargs a rfl
  | _ => rfl

lemma Copying.hasBlock (hb : b ∈ bs) : s.target.hasBlock (blockImage bs b) := by
  simpa [Body.hasBlock, blockImage, h.count] using idxOf_lt_length_of_mem hb

lemma Copying.hasSuccs (hx : Closed x bs n) (hb : b ∈ bs) (hi : i ∈ x.instsOf b) {f : VarId → VarId} :
    ∀ c ∈ ((x.kind i).renamed ctx (blockImage bs) f).successors, s.target.hasBlock c := by
  rw [successors_renamed]
  intro c hc
  obtain ⟨t, ht, rfl⟩ := mem_map.1 hc
  exact h.hasBlock (hx.blocks b hb i hi t (mem_blocks_of_mem_successors ht))

lemma Copying.append (hx : Closed x bs n) (hsplit : toCopy x bs = done ++ (b, i) :: rest)
    (hknown : ∀ v, (x.kind i).var? = some v → ∃ w, s.cloner.vars.lookup v = some w)
    (hlength : vs.length = (x.inst i).operands.length)
    (hvs : ∀ v ∈ vs, s.target.hasValue v)
    (hoperands : ∀ slot v, (x.inst i).operands[slot]? = some v → (i, slot) ∉ more →
      vs[slot]? = some (v.renamed ctx (instImage x bs))) :
    Copying ctx x bs n (done ++ [(b, i)]) (pending ++ more)
      ⟨{ s.cloner with values := (.inst i, .inst ⟨s.target.insts.size⟩) :: s.cloner.values },
        s.target.append (blockImage bs b) ((x.kind i).renamed ctx (blockImage bs) (varImage s.cloner)) vs
          ((x.inst i).ty.specialize ctx)⟩ := by
  obtain ⟨hb, hi, hnot, himage⟩ := hx.next hsplit
  have hnext : instImage x bs i = ⟨s.target.insts.size⟩ := by rw [himage, h.size]
  obtain ⟨kind, hkind⟩ : ∃ kind, kind = (x.kind i).renamed ctx (blockImage bs) (varImage s.cloner) := ⟨_, rfl⟩
  obtain ⟨target, htarget⟩ : ∃ target,
      target = s.target.append (blockImage bs b) kind vs ((x.inst i).ty.specialize ctx) := ⟨_, rfl⟩
  rw [← hkind, ← htarget]
  have hg : s.target.Grows target := htarget ▸ grows_append ..
  have hintact : target.Intact := by
    rw [htarget, hkind]
    exact h.intact.append (arityViolation?_renamed (hlength ▸ hx.full b hb i hi)) hvs (h.hasBlock hb)
      (h.hasSuccs hx hb hi)
  obtain ⟨hkind', hty, hops⟩ := append_new s.target (blockImage bs b) kind vs ((x.inst i).ty.specialize ctx)
  rw [← htarget, ← hnext] at hkind' hty hops
  exact {
    context := h.context
    blocks := h.blocks
    values := fun j => by
      rw [lookup_cons]
      by_cases hj : j = i
      · simp [hj, hnext]
      · have hne : (Value.inst j == Value.inst i) = false := by simpa using hj
        rw [hne, h.values, map_append, map_singleton]
        simp only [mem_append, mem_singleton, hj, or_false]
    others := fun v hv => by
      have hne : (v == Value.inst i) = false := by
        rw [beq_eq_false_iff_ne]
        rintro rfl
        cases hv
      rw [lookup_cons, hne]
      exact h.others v hv
    vars := h.vars.congr (htarget ▸ vars_append ..) rfl
    known := fun p hp v hv => by
      rcases mem_append.1 hp with hp | hp
      · exact h.known p hp v hv
      · obtain rfl := mem_singleton.1 hp
        exact hknown v hv
    intact := hintact
    size := by rw [htarget, insts_size_append, h.size, length_append, length_singleton]
    count := by rw [htarget, size_blocks_append, h.count]
    args := (hasArg_congr hg.args).trans h.args
    entry := by
      obtain ⟨e, he⟩ : ∃ e, bs.head? = some e := by
        cases bs with
        | nil => cases hb
        | cons e bs => exact ⟨e, rfl⟩
      have hentry := h.entry
      rw [he] at hentry ⊢
      exact hg.entry _ hentry
    list := fun c hc => by
      rw [htarget, instsOf_append _ _ _ _ _ (h.hasBlock hb), filter_append, map_append]
      by_cases hcb : c = b
      · subst hcb
        simp [h.list c hb, hnext]
      · rw [if_neg fun heq => hcb (blockImage_inj hc heq), h.list c hc]
        simp [Ne.symm hcb]
    copy := fun p hp => by
      rcases mem_append.1 hp with hp | hp
      · have hlt := instImage_lt hsplit (mem_map_of_mem hp)
        have hin : s.target.hasInst (instImage x bs p.2) := by simpa [hasInst, h.size] using hlt
        obtain ⟨-, hsame, hty', hops'⟩ := hg.inst _ hin
        exact (h.copy p hp).congr rfl hsame hty' hops' fun slot v _ hmem => mem_append_left _ hmem
      · obtain rfl := mem_singleton.1 hp
        exact {
          kind := by
            rw [hkind', hkind]
            exact congrArg (fun f => renamed ctx (blockImage bs) f (x.kind i)) (varImage_congr rfl)
          ty := hty
          length := by rw [hops, hlength]
          operands := fun slot v hv hpending => by
            rw [hops]
            exact hoperands slot v hv fun hmem => hpending (mem_append_right _ hmem) } }

end

lemma createLast_eq {kind : Kind} (ty : Ty)
    (harity : Edit.arityViolation? kind vs.length = none) (hvs : ∀ v ∈ vs, body.hasValue v)
    (hb : body.hasBlock b) (hsuccs : ∀ c ∈ kind.successors, body.hasBlock c) : (do
      let copy ← Edit.createInst kind vs ty
      Edit.insertLast b copy
      return copy : Edit InstId) body = .ok ⟨body.insts.size⟩ (body.append b kind vs ty) :=
  bind_iff.2 ⟨_, _, Edit.createInst_iff.2 ⟨harity, fun v hv => .inr (hvs v hv), rfl, rfl⟩,
    bind_iff.2 ⟨(), _, Edit.insertLast_iff.2 ⟨canAttach_addInst_iff.2 ⟨hb, hsuccs⟩, rfl⟩, rfl⟩⟩

lemma Copying.copyInst (h : Copying ctx x bs n done pending s) (hx : Closed x bs n)
    (hsplit : toCopy x bs = done ++ (b, i) :: rest) : ∃ more s',
      copyInst x (bs.flatMap x.instsOf) (blockImage bs b) i s = .ok more s' ∧
      Copying ctx x bs n (done ++ [(b, i)]) (pending ++ more) s' := by
  obtain ⟨hb, hi, -, -⟩ := hx.next hsplit
  obtain rfl := h.context
  have hblocks : ((x.kind i).specialize s.cloner.context).mapBlocks s.cloner.mapBlock =
      ((x.kind i).specialize s.cloner.context).mapBlocks (blockImage bs) := by
    refine mapBlocks_congr fun c hc => ?_
    rw [blocks_specialize] at hc
    rw [Cloner.mapBlock, h.blocks c (hx.blocks b hb i hi c hc), getD_some]
  obtain ⟨vars, decls, hmap, h₁, hknown⟩ := h.mapVar hx hb hi
  set s₁ : Cloning := ⟨{ s.cloner with vars }, { s.target with vars := decls }⟩
  have hregion : ∀ v ∈ (x.inst i).operands, ∀ d, v = .inst d → d ∈ bs.flatMap x.instsOf := by
    rintro v hv d rfl
    obtain ⟨c, hc, hd⟩ := hx.operands b hb i hi d hv
    exact mem_flatMap.2 ⟨c, hc, hd⟩
  set vs := (x.inst i).operands.map (imageNow s₁.cloner x (bs.flatMap x.instsOf))
  have hvs : ∀ v ∈ vs, s₁.target.hasValue v := by
    intro v hv
    obtain ⟨w, hw, rfl⟩ := mem_map.1 hv
    rw [imageNow]
    split
    · rfl
    · next hnot =>
      have hdone := (h₁.isPending_iff (hregion w hw)).1 (by simpa using hnot)
      rw [h₁.mapValue_eq hdone]
      exact h₁.hasValue hsplit hdone fun a ha => hx.args b hb i hi a (ha ▸ hw)
  set more := (x.inst i).operands.zipIdx.filterMap fun p =>
    if isPending s.cloner (bs.flatMap x.instsOf) p.1 then some (i, p.2) else none
  have hoperands : ∀ slot v, (x.inst i).operands[slot]? = some v → (i, slot) ∉ more →
      vs[slot]? = some (v.renamed s.cloner.context (instImage x bs)) := by
    intro slot v hv hnot
    have hpending : isPending s₁.cloner (bs.flatMap x.instsOf) v = false := by
      by_contra hpending
      have hpending : isPending s₁.cloner (bs.flatMap x.instsOf) v = true := by simpa using hpending
      exact hnot (mem_filterMap.2 ⟨(v, slot), mem_zipIdx_iff_getElem?.2 hv, if_pos hpending⟩)
    have hdone := (h₁.isPending_iff (hregion v (mem_of_getElem? hv))).1 hpending
    simp [vs, hv, imageNow, hpending, h₁.mapValue_eq hdone]
  refine ⟨more, _, ?_, h₁.append hx hsplit hknown (length_map _) hvs hoperands⟩
  have hadd := edit_iff.2 ⟨_, createLast_eq ((x.inst i).ty.specialize s.cloner.context)
    (arityViolation?_renamed ((length_map _).symm ▸ hx.full b hb i hi)) hvs (h₁.hasBlock hb)
    (h₁.hasSuccs hx hb hi (f := varImage s₁.cloner)), rfl⟩
  refine bind_iff.2 ⟨s.cloner, s, rfl, bind_iff.2 ⟨_, s₁, hblocks ▸ hmap, bind_iff.2 ⟨vs, s₁, ?_, ?_⟩⟩⟩
  · exact imageOperands_eq fun a ha => h₁.args ▸ hx.args b hb i hi a ha
  · exact bind_iff.2 ⟨_, _, hadd, rfl⟩

lemma toCopy_append (as bs : List BlockId) : toCopy x (as ++ bs) = toCopy x as ++ toCopy x bs := flatMap_append

lemma toCopy_cons (b : BlockId) (bs : List BlockId) :
    toCopy x (b :: bs) = (x.instsOf b).map (b, ·) ++ toCopy x bs :=
  flatMap_cons

lemma Copying.copyBlock {more : List BlockId} (hx : Closed x bs n)
    (hsplit : bs = made ++ b :: more) (h : Copying ctx x bs n (toCopy x made) pending s) :
    ∃ found s', (x.instsOf b).mapM (Clone.copyInst x (bs.flatMap x.instsOf) (blockImage bs b)) s = .ok found s' ∧
      Copying ctx x bs n (toCopy x (made ++ [b])) (pending ++ found.flatten) s' := by
  rw [toCopy_append, toCopy_cons, show toCopy x [] = [] from rfl, append_nil]
  refine exists_mapM (P := fun before found s =>
    Copying ctx x bs n (toCopy x made ++ before.map (b, ·)) (pending ++ flatten found) s) (by simpa using h) ?_
  intro before i after found s hinsts hs
  have hall : toCopy x bs = (toCopy x made ++ before.map (b, ·)) ++ (b, i) :: (after.map (b, ·) ++ toCopy x more) := by
    rw [hsplit, toCopy_append, toCopy_cons, hinsts]
    simp
  obtain ⟨a, s', hrun, hs'⟩ := hs.copyInst hx hall
  exact ⟨a, s', hrun, by simpa using hs'⟩

lemma Copying.copyBlocks (hx : Closed x bs n) (h : Copying ctx x bs n [] [] s) :
    ∃ found s', ((bs.zip (bs.map (blockImage bs))).mapM fun (b, home) =>
        (x.instsOf b).mapM (Clone.copyInst x (bs.flatMap x.instsOf) home)) s = .ok found s' ∧
      Copying ctx x bs n (toCopy x bs) found.flatten.flatten s' := by
  have hzip : bs.zip (bs.map (blockImage bs)) = bs.map fun b => (b, blockImage bs b) := by
    simpa using zip_map' (f := id) (g := blockImage bs) (l := bs)
  rw [hzip, mapM_map]
  refine exists_mapM (P := fun made found s =>
    Copying ctx x bs n (toCopy x made) (flatten (flatten found)) s) h ?_
  intro made b more found s hsplit hs
  obtain ⟨a, s', hrun, hs'⟩ := hs.copyBlock hx hsplit
  exact ⟨a, s', hrun, by simpa using hs'⟩

/-! ## Operands that are copied later -/

structure Refilled (x y : Body) (i : InstId) (slot : Nat) (v : Value) : Prop extends Body.SameControl x y where
  vars : y.vars = x.vars
  args : y.args.size = x.args.size
  head : ∀ j, y.kind j = x.kind j ∧ (y.inst j).ty = (x.inst j).ty
  operands : ∀ j, (y.inst j).operands = if j = i then (x.inst j).operands.set slot v else (x.inst j).operands

lemma refilled_moveUse {v : Value} (hi : body.hasInst i) :
    Refilled body (body.moveUse old v ⟨i, slot⟩) i slot v := by
  have hbare : (body.moveUse old v ⟨i, slot⟩).bare =
      (body.modifyInst i fun x => { x with operands := x.operands.set slot v }).bare := moveUse_bare
  have hshape : body.SameShape (body.moveUse old v ⟨i, slot⟩) := sameShape_moveUse
  refine ⟨hshape.control, hshape.vars, hasArg_congr hshape.args, fun j => ?_, fun j => ?_⟩
  · obtain ⟨hkind, hty, -⟩ := Inst.bare_eq_iff.1 (bare_inst_congr hbare j)
    rw [kind, hkind, hty, inst_modifyInst]
    split <;> exact ⟨rfl, rfl⟩
  · rw [operands_moveUse]
    by_cases hj : i = j
    · simp [← hj, hi]
    · simp [hj, Ne.symm hj]

lemma exists_setOperand {v : Value} (hbody : body.Intact)
    (hold : (body.inst i).operands[slot]? = some old) (hv : body.hasValue v) :
    ∃ body', Edit.setOperand i slot v body = .ok () body' ∧ body'.Intact ∧ Refilled body body' i slot v := by
  have hholds : body.Holds ⟨i, slot⟩ old := hold
  have hi := hholds.hasInst
  have hrun : Edit.setOperand i slot v body =
      .ok () (if old ≠ v then body.moveUse old v ⟨i, slot⟩ else body) := by
    refine bind_iff.2 ⟨body.inst i, body, Edit.inst_iff.2 ⟨hi, rfl, rfl⟩, ?_⟩
    simp only [hold]
    split
    · exact bind_iff.2 ⟨body, body, rfl, bind_iff.2 ⟨(), body, Edit.need_iff.2 ⟨hv, rfl⟩, rfl⟩⟩
    · rfl
  refine ⟨_, hrun, ?_⟩
  split
  · next hne => exact ⟨hbody.moveUse hholds (Ne.symm hne) hv, refilled_moveUse hi⟩
  · next heq =>
    refine ⟨hbody, ⟨(Body.SameShape.stepwise.refl body).control, rfl, rfl, fun _ => ⟨rfl, rfl⟩, fun j => ?_⟩⟩
    split
    · next hj =>
      obtain ⟨hlt, hget⟩ := List.getElem?_eq_some_iff.1 hold
      rw [hj, ← not_not.1 heq, ← hget]
      exact (set_getElem_self hlt).symm
    · rfl

section

variable (h : Copying ctx x bs n (toCopy x bs) ((i, slot) :: pending) s)
include h

lemma Copying.refilled (hb : b ∈ bs) (hi : i ∈ x.instsOf b) {v : Value} (hv : (x.inst i).operands[slot]? = some v) {target : Body}
    (hintact : target.Intact)
    (hsame : Refilled s.target target (instImage x bs i) slot (v.renamed ctx (instImage x bs))) :
    Copying ctx x bs n (toCopy x bs) pending { s with target } where
  context := h.context
  blocks := h.blocks
  values := h.values
  others := h.others
  vars := h.vars.congr hsame.vars rfl
  known := h.known
  intact := hintact
  size := hsame.size.trans h.size
  count := by rw [hsame.blocks]; exact h.count
  args := hsame.args.trans h.args
  entry := hsame.entry.trans h.entry
  list c hc := by
    rw [instsOf, block, hsame.blocks]
    exact h.list c hc
  copy p hp := by
    obtain ⟨hkind, hty, hlength, hoperands⟩ := h.copy p hp
    obtain ⟨hkind', hty'⟩ := hsame.head (instImage x bs p.2)
    refine ⟨hkind'.trans hkind, hty'.trans hty, ?_, fun k w hw hnot => ?_⟩
    · rw [hsame.operands]
      split <;> simp [hlength]
    · rw [hsame.operands]
      split
      · next himage =>
        have hpi : p.2 = i := (instImage_inj (mem_flatMap.2 ⟨b, hb, hi⟩) himage.symm).symm
        by_cases hk : k = slot
        · subst hk
          rw [hpi, hv] at hw
          obtain rfl := some.inj hw
          have hlt := (List.getElem?_eq_some_iff.1 hv).1
          exact getElem?_set_self (by rw [hlength, hpi]; exact hlt)
        · rw [getElem?_set_ne (Ne.symm hk)]
          refine hoperands k w hw fun hmem => ?_
          rcases mem_cons.1 hmem with heq | hmem
          · exact hk (Prod.mk.inj heq).2
          · exact hnot hmem
      · next himage =>
        refine hoperands k w hw fun hmem => ?_
        rcases mem_cons.1 hmem with heq | hmem
        · exact himage (by rw [(Prod.mk.inj heq).1])
        · exact hnot hmem

lemma Copying.drop (hnone : i ∈ bs.flatMap x.instsOf → (x.inst i).operands[slot]? = none) :
    Copying ctx x bs n (toCopy x bs) pending s := by
  refine { h with copy := fun p hp => (h.copy p hp).congr rfl rfl rfl rfl fun k w hw hmem => ?_ }
  rcases mem_cons.1 hmem with heq | hmem
  · obtain ⟨rfl, rfl⟩ := Prod.mk.inj heq
    have hin : p.2 ∈ bs.flatMap x.instsOf := map_snd_toCopy (x := x) ▸ mem_map_of_mem hp
    simp [hnone hin] at hw
  · exact hmem

lemma Copying.fillIn (hx : Closed x bs n) :
    ∃ s', fillIn x i slot s = .ok () s' ∧ Copying ctx x bs n (toCopy x bs) pending s' := by
  have hvalues := h.values i
  rw [map_snd_toCopy] at hvalues
  split at hvalues
  · next hin =>
    obtain ⟨b, hb, hi⟩ := mem_flatMap.1 hin
    cases hv : (x.inst i).operands[slot]? with
    | none =>
      refine ⟨s, bind_iff.2 ⟨s.cloner, s, rfl, ?_⟩, h.drop fun _ => hv⟩
      simp only [hvalues, hv]
      rfl
    | some v =>
      have hmem := mem_of_getElem? hv
      have hdone : ∀ d, v = .inst d → d ∈ (toCopy x bs).map Prod.snd := by
        rintro d rfl
        obtain ⟨c, hc, hd⟩ := hx.operands b hb i hi d hmem
        rw [map_snd_toCopy]
        exact mem_flatMap.2 ⟨c, hc, hd⟩
      have hvalue := h.hasValue (append_nil _).symm hdone fun a ha => hx.args b hb i hi a (ha ▸ hmem)
      have hlength := (h.copy (b, i) (mem_toCopy.2 ⟨hb, hi⟩)).length
      have hlt : slot < (s.target.inst (instImage x bs i)).operands.length := by
        rw [hlength]
        exact (List.getElem?_eq_some_iff.1 hv).1
      obtain ⟨target, hrun, hintact, hsame⟩ := exists_setOperand h.intact (getElem?_eq_getElem hlt) hvalue
      refine ⟨{ s with target }, bind_iff.2 ⟨s.cloner, s, rfl, ?_⟩, h.refilled hb hi hv hintact hsame⟩
      simp only [hvalues, hv, h.mapValue_eq hdone]
      exact edit_iff.2 ⟨target, hrun, rfl⟩
  · next hout =>
    refine ⟨s, bind_iff.2 ⟨s.cloner, s, rfl, ?_⟩, h.drop fun hin => absurd hin hout⟩
    simp only [hvalues]
    rfl

end

lemma Copying.fillAll (h : Copying ctx x bs n (toCopy x bs) pending s) (hx : Closed x bs n) :
    ∃ s', (pending.forM (fun (i, slot) => Clone.fillIn x i slot) : Clone Unit) s = .ok () s' ∧
      Copying ctx x bs n (toCopy x bs) [] s' := by
  induction pending generalizing s with
  | nil => exact ⟨s, rfl, h⟩
  | cons p pending ih =>
    obtain ⟨s₁, hone, h₁⟩ := h.fillIn hx
    obtain ⟨s', hrest, hs'⟩ := ih h₁
    exact ⟨s', bind_iff.2 ⟨(), s₁, hone, hrest⟩, hs'⟩

lemma Closed.exists_blocks (ctx : GenericContext) {tys : List Ty} (hx : Closed x bs tys.length) (ret : Ty) :
    ∃ s, Clone.blocks x bs ⟨{ context := ctx }, empty tys ret⟩ = .ok (bs.map (blockImage bs)) s ∧
      Copying ctx x bs tys.length (toCopy x bs) [] s := by
  obtain ⟨s₁, himages, h₁⟩ := exists_images ctx hx.nodup tys ret
  obtain ⟨found, s₂, hcopy, h₂⟩ := h₁.copying.copyBlocks hx
  obtain ⟨s₃, hfill, h₃⟩ := h₂.fillAll hx
  refine ⟨s₃, ?_, h₃⟩
  have hneed : edit (Edit.need (bs.all x.hasBlock)) s₁ = .ok () s₁ :=
    edit_iff.2 ⟨s₁.target, Edit.need_iff.2 ⟨all_eq_true.2 hx.hasBlock, rfl⟩, rfl⟩
  exact bind_iff.2 ⟨_, s₁, himages, bind_iff.2 ⟨(), s₁, hneed, bind_iff.2 ⟨found, s₂, hcopy,
    bind_iff.2 ⟨(), s₃, hfill, rfl⟩⟩⟩⟩

end Clone

end MethodIR
