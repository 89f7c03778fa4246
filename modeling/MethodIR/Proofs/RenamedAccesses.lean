import MethodIR.Proofs.RenamedBodies

/-!
# Renaming one access

What renaming does with one instruction of a block (`Accessed`): nothing, or it puts a value for a
load, or it takes a store out and makes its operand current, cut down if necessary.
-/

namespace MethodIR.Promotion

open List Tables Success Traced Body Edit Accesses

namespace Renaming

variable {s s' : Renaming}

def uncounted (s : Renaming) : Renaming := { s with stores := 0, loads := 0, undefined := 0 }

lemma uncounted_eq_iff : s.uncounted = s'.uncounted ↔
    s.body = s'.body ∧ s.reaching = s'.reaching ∧ s.undo = s'.undo := by
  simp [uncounted]

lemma edit_iff {α : Type} {x : Edit α} {a : α} {t t' : Trace Renaming} : edit x t = .ok a t' ↔
      ∃ body, x t.state.body = .ok a body ∧ t' = ⟨{ t.state with body }, t.log⟩ := by
  rw [edit, zoom_iff]
  simp only [ofEdit_iff]
  constructor
  · rintro ⟨_, ⟨body, hx, rfl⟩, rfl⟩
    exact ⟨body, hx, rfl⟩
  · rintro ⟨body, hx, rfl⟩
    exact ⟨_, ⟨body, hx, rfl⟩, rfl⟩

end Renaming

open Renaming

/-! ## What has been pushed -/

abbrev Values := VarId → Option Value

def held (x : Body) (ρ : Values) (v : VarId) : Value := (ρ v).getD (.undef (x.var v).ty)

abbrev Pushes := List (BlockId × VarId × Value)

def current (h : Pushes) : Values := fun v =>
  h.findSome? fun d => if d.2.1 = v then some d.2.2 else none

def Shows (reaching : Array (List Value)) (h : Pushes) : Prop := ∀ v : VarId, reaching.getD v.index [] =
    h.filterMap fun d => if d.2.1 = v then some d.2.2 else none

structure Mirrors (plan : RenamingPlan) (h : Pushes) (s : Renaming) : Prop where
  size : s.reaching.size = plan.accesses.promotable.size
  undo : s.undo = h.map fun d => (d.1, d.2.1)
  reaching : Shows s.reaching h

variable {x y y' : Body} {plan : RenamingPlan} {r r' : Record} {s s' : Renaming} {i φ : InstId} {b c : BlockId}
  {v v' : VarId} {w u : Value} {h h' top : Pushes} {reaching : Array (List Value)}

@[simp] lemma current_nil : current [] v = none := rfl

lemma current_cons : current ((b, v, w) :: h) v' = if v' = v then some w else current h v' := by
  rw [current, findSome?_cons]
  by_cases heq : v' = v
  · simp [heq]
  · simp [heq, Ne.symm heq, current]

lemma Accesses.lt_of_isPromotable {a : Accesses} (hv : a.isPromotable v) : v.index < a.promotable.size := by
  by_contra hge
  rw [isPromotable, getD_of_size_le _ _ _ (by omega)] at hv
  simp at hv

section

variable (m : Mirrors plan h s)
include m

lemma Mirrors.current? (v : VarId) : s.current? v = current h v := by
  rw [Renaming.current?, m.reaching, head?_filterMap, current]

lemma Mirrors.congr (hs : s'.uncounted = s.uncounted) : Mirrors plan h s' := by
  obtain ⟨-, hreaching, hundo⟩ := uncounted_eq_iff.1 hs
  exact ⟨hreaching ▸ m.size, hundo ▸ m.undo, hreaching ▸ m.reaching⟩

lemma Mirrors.withBody (body : Body) : Mirrors plan h { s with body } :=
  ⟨m.size, m.undo, m.reaching⟩

lemma Mirrors.push (hv : plan.accesses.isPromotable v) (b : BlockId)
    (w : Value) : Mirrors plan ((b, v, w) :: h) (push b v w s) := by
  have hlt : v.index < s.reaching.size := m.size ▸ lt_of_isPromotable hv
  refine ⟨?_, ?_, fun v' => ?_⟩
  · simp [Renaming.push, m.size]
  · simp [Renaming.push, m.undo]
  · rw [Renaming.push, getD_modify, m.reaching, filterMap_cons]
    by_cases heq : v = v'
    · simp [heq, heq ▸ hlt]
    · have hne : v.index ≠ v'.index := fun hidx => heq (VarId.ext hidx)
      simp [heq, hne]

end

lemma Shows.pop {d : BlockId × VarId × Value}
    (hall : Shows reaching (d :: h)) : Shows (reaching.modify d.2.1.index tail) h := by
  intro v
  rw [getD_modify, hall v]
  by_cases heq : d.2.1 = v
  · have hlt : v.index < reaching.size := by
      by_contra hge
      have hnil := hall v
      rw [getD_of_size_le _ _ _ (by omega)] at hnil
      simp [heq] at hnil
    simp [heq, hlt]
  · have hne : d.2.1.index ≠ v.index := fun hidx => heq (VarId.ext hidx)
    simp [heq, hne]

lemma Shows.popAll (hall : Shows reaching (top ++ h)) :
    Shows (top.foldl (fun reaching d => reaching.modify d.2.1.index tail) reaching) h := by
  induction top generalizing reaching with
  | nil => exact hall
  | cons d top ih => exact ih hall.pop

lemma Mirrors.leave_dropWhile (m : Mirrors plan h s) (b : BlockId) :
    Mirrors plan (h.dropWhile fun d => d.1 = b) (leave b s) := by
  have hsplit : (h.takeWhile fun d => d.1 = b) ++ (h.dropWhile fun d => d.1 = b) = h := takeWhile_append_dropWhile
  have hpushed : (s.undo.takeWhile fun d => d.1 = b) = (h.takeWhile fun d => d.1 = b).map fun d => (d.1, d.2.1) := by
    rw [m.undo, takeWhile_map]
    rfl
  generalize (h.takeWhile fun d => d.1 = b) = top, (h.dropWhile fun d => d.1 = b) = rest at hsplit hpushed
  subst hsplit
  have hsize : ∀ (ds : Pushes) (reaching : Array (List Value)),
      (ds.foldl (fun reaching d => reaching.modify d.2.1.index tail) reaching).size =
        reaching.size := by
    intro ds
    induction ds with
    | nil => exact fun _ => rfl
    | cons d ds ih => exact fun reaching => (ih _).trans (by simp)
  have hleave : leave b s = { s with
      undo := s.undo.drop top.length
      reaching := top.foldl (fun reaching d => reaching.modify d.2.1.index tail) s.reaching } := by
    simp only [leave, hpushed, foldl_map, length_map]
  rw [hleave]
  refine ⟨(hsize top _).trans m.size, ?_, m.reaching.popAll⟩
  simp [m.undo]

lemma Mirrors.leave (m : Mirrors plan (top ++ h) s) (htop : ∀ d ∈ top, d.1 = b)
    (hrest : ∀ d ∈ h, d.1 ≠ b) : Mirrors plan h (leave b s) := by
  have hdrop : ((top ++ h).dropWhile fun d => d.1 = b) = h := by
    rw [dropWhile_append_of_pos (by simpa using htop)]
    cases h with
    | nil => rfl
    | cons d h => simp [hrest d (by simp)]
  exact hdrop ▸ m.leave_dropWhile b

/-! ## The operations -/

/-- A computation succeeds and leads to a state, counters apart. -/
def Leads (op : Traced Renaming Unit) (t : Trace Renaming) (s : Renaming) : Prop :=
  ∃ t', op t = .ok () t' ∧ t'.state.uncounted = s.uncounted

section Operations

variable {t t' : Trace Renaming} {pre post : List InstId} {reachable : Bool}

lemma read_spec (plan : RenamingPlan) (reachable : Bool) (i : InstId) (v : VarId)
    (t : Trace Renaming) : ∃ t', t'.state.uncounted = t.state.uncounted ∧ read plan reachable i v t =
        .ok ((t.state.current? v).getD (.undef (t.state.body.var v).ty)) t' := by
  cases hv : t.state.current? v with
  | some value =>
    refine ⟨t, rfl, getState_bind_iff.2 ?_⟩
    rw [hv]
    rfl
  | none =>
    let s' := { t.state with undefined := t.state.undefined + 1 }
    cases hwarn : plan.warnOnUndefined && reachable with
    | true =>
      let event := Event.undefinedRead v (t.state.body.var v).origin i
      refine ⟨⟨s', t.log.push event⟩, rfl, getState_bind_iff.2 ?_⟩
      rw [hv]
      refine bind_iff.2 ⟨(), _, modifyState_iff.2 rfl, ?_⟩
      rw [if_pos hwarn]
      exact bind_iff.2 ⟨(), _, report_iff.2 rfl, rfl⟩
    | false =>
      refine ⟨⟨s', t.log⟩, rfl, getState_bind_iff.2 ?_⟩
      rw [hv]
      refine bind_iff.2 ⟨(), _, modifyState_iff.2 rfl, ?_⟩
      rw [if_neg (by simp [hwarn])]
      rfl

lemma load_iff (huses : t.state.body.ExactUses) (hin : t.state.body.hasInst i) :
    Leads (load plan reachable i v) t s' ↔
      ∃ w, w = (t.state.current? v).getD (.undef (t.state.body.var v).ty) ∧ w ≠ .inst i ∧
        (t.state.body.uses (.inst i) = [] ∨ t.state.body.hasValue w) ∧ s'.uncounted = ({ t.state with
          body := (t.state.body.replaceUses (.inst i) w).remove i } : Renaming).uncounted := by
  obtain ⟨t₁, ht₁, hread⟩ := read_spec plan reachable i v t
  obtain ⟨hbody, hreach, hundo⟩ := uncounted_eq_iff.1 ht₁
  generalize (t.state.current? v).getD (.undef (t.state.body.var v).ty) = w at hread
  have hload : ∀ t', load plan reachable i v t = .ok () t' ↔ w ≠ .inst i ∧
      (t.state.body.uses (.inst i) = [] ∨ t.state.body.hasValue w) ∧
      t' = ⟨{ t₁.state with
        body := (t.state.body.replaceUses (.inst i) w).remove i
        loads := t₁.state.loads + 1 }, t₁.log⟩ := by
    intro t'
    rw [load, bind_iff]
    constructor
    · rintro ⟨w', t₂, hread', h⟩
      obtain ⟨rfl, rfl⟩ : w = w' ∧ t₁ = t₂ := by
        rw [hread] at hread'
        simpa using hread'
      obtain ⟨_, t₃, hedit, hcount⟩ := bind_iff.1 h
      obtain ⟨body, hreplace, rfl⟩ := edit_iff.1 hedit
      obtain rfl := modifyState_iff.1 hcount
      rw [hbody] at hreplace
      obtain ⟨hne, -, hvalue, hremove⟩ := replaceWith_iff.1 hreplace
      obtain ⟨-, -, rfl⟩ := removeInst_iff.1 hremove
      exact ⟨hne, hvalue, rfl⟩
    · rintro ⟨hne, hvalue, rfl⟩
      refine ⟨w, t₁, hread, bind_iff.2 ⟨(), _, edit_iff.2 ⟨_, ?_, rfl⟩, modifyState_iff.2 rfl⟩⟩
      rw [hbody]
      obtain ⟨-, hnil, hbare⟩ := replaceUses_spec huses rfl hne hvalue
      refine replaceWith_iff.2 ⟨hne, hin, hvalue, removeInst_iff.2 ⟨?_, hnil, rfl⟩⟩
      rw [← hasInst_bare, hbare]
      simpa [hasInst, mapOperands, bare] using hin
  constructor
  · rintro ⟨t', hrun, ht'⟩
    obtain ⟨hne, hvalue, rfl⟩ := (hload t').1 hrun
    refine ⟨w, rfl, hne, hvalue, ht'.symm.trans ?_⟩
    simp [uncounted, hreach, hundo]
  · rintro ⟨_, rfl, hne, hvalue, hs⟩
    refine ⟨_, (hload _).2 ⟨hne, hvalue, rfl⟩, Eq.trans ?_ hs.symm⟩
    simp [uncounted, hreach, hundo]

lemma coerce_of_wide (hty : (t.state.body.var v).ty.narrows (t.state.body.valueTy u) = false) :
    coerce i v u t = .ok w t' ↔ w = u ∧ t' = t := by
  simp only [coerce, getState_bind_iff, hty, Bool.false_eq_true, if_false, pure_iff]
  rw [eq_comm, eq_comm (a := t)]

lemma takeWhile_ne_middle (hnodup : (pre ++ i :: post).Nodup) :
    (pre ++ i :: post).takeWhile (· ≠ i) = pre ∧ (pre ++ i :: post).dropWhile (· ≠ i) = i :: post := by
  have hnot : ∀ j ∈ pre, j ≠ i := by
    rintro j hj rfl
    exact (nodup_append.1 hnodup).2.2 j hj j (by simp) rfl
  rw [takeWhile_append_of_pos (by simpa using hnot), dropWhile_append_of_pos (by simpa using hnot)]
  simp

lemma coerce_of_narrow (hattached : t.state.body.Attached)
    (hty : (t.state.body.var v).ty.narrows (t.state.body.valueTy u) = true)
    (hlist : t.state.body.instsOf b = pre ++ i :: post) (hu : t.state.body.hasValue u) :
    coerce i v u t = .ok w t' ↔ w = .inst ⟨t.state.body.insts.size⟩ ∧ t' = ⟨{ t.state with
        body := t.state.body.withInst b pre (i :: post) (.convert false false) [u]
          (t.state.body.var v).ty }, t.log⟩ := by
  let y := t.state.body
  let next := y.addInst (.convert false false) [u] (y.var v).ty
  have hmem : i ∈ y.instsOf b := by
    rw [hlist]
    simp
  have hlist' : next.instsOf b = pre ++ i :: post := (instsOf_addInst _ _ _ b).trans hlist
  have hattached' : next.Attached := hattached.addInst _ _ _
  have hmem' : i ∈ next.instsOf b := by
    rw [hlist']
    simp
  have hsplit := takeWhile_ne_middle (hlist' ▸ hattached'.nodup b)
  have hcan : ∀ c, next.CanAttach ⟨y.insts.size⟩ c ↔ y.hasBlock c := fun c =>
    canAttach_addInst rfl [u] _
  have hblock : (next.inst i).block = some b := (hattached'.mem_iff b i).1 hmem'
  simp only [coerce, getState_bind_iff, hty, if_true]
  constructor
  · intro h
    obtain ⟨body, hedit, rfl⟩ := edit_iff.1 h
    obtain ⟨conv, body₁, hcreate, hedit⟩ := bind_iff.1 hedit
    obtain ⟨-, -, rfl, rfl⟩ := createInst_iff.1 hcreate
    obtain ⟨_, body₂, hinsert, hret⟩ := bind_iff.1 hedit
    obtain ⟨rfl, rfl⟩ := pure_iff.1 hret
    obtain ⟨c, -, hc, -, rfl⟩ := insertBefore_iff.1 hinsert
    obtain rfl : b = c := Option.some.inj (hblock.symm.trans hc)
    refine ⟨rfl, ?_⟩
    rw [hlist', hsplit.1, hsplit.2]
    rfl
  · rintro ⟨rfl, rfl⟩
    refine edit_iff.2 ⟨_, bind_iff.2 ⟨_, next, createInst_iff.2 ⟨rfl, ?_, rfl, rfl⟩,
      bind_iff.2 ⟨(), _, insertBefore_iff.2 ⟨b, hattached'.hasInst hmem', hblock,
        (hcan b).2 (hasBlock_of_mem hmem), rfl⟩, pure_iff.2 ⟨rfl, rfl⟩⟩⟩, ?_⟩
    · simpa using Or.inr hu
    · rw [hlist', hsplit.1, hsplit.2]
      rfl

def conclude (b : BlockId) (i : InstId) (v : VarId) (w : Value) : Traced Renaming Unit := do
  modifyState (push b v w)
  edit (removeInst i)
  modifyState fun s => { s with stores := s.stores + 1 }

lemma conclude_iff (hin : t.state.body.hasInst i) : conclude b i v w t = .ok () t' ↔
    t.state.body.uses (.inst i) = [] ∧
      t' = ⟨{ push b v w { t.state with body := t.state.body.remove i } with
        stores := t.state.stores + 1 }, t.log⟩ := by
  simp only [conclude, bind_iff, modifyState_iff, edit_iff, removeInst_iff]
  constructor
  · rintro ⟨_, _, rfl, _, _, ⟨_, ⟨-, hnil, rfl⟩, rfl⟩, rfl⟩
    exact ⟨hnil, rfl⟩
  · rintro ⟨hnil, rfl⟩
    exact ⟨(), _, rfl, (), _, ⟨_, ⟨hin, hnil, rfl⟩, rfl⟩, rfl⟩

lemma store_iff : store b i v t = .ok () t' ↔
    ∃ u us w t₁, (t.state.body.inst i).operands = u :: us ∧ coerce i v u t = .ok w t₁ ∧
      conclude b i v w t₁ = .ok () t' := by
  simp only [store, getState_bind_iff]
  cases hops : (t.state.body.inst i).operands with
  | nil => simp
  | cons u us =>
    constructor
    · intro hrun
      obtain ⟨w, t₁, hcoerce, hrest⟩ := bind_iff.1 hrun
      exact ⟨u, us, w, t₁, rfl, hcoerce, hrest⟩
    · rintro ⟨_, _, w, t₁, heq, hcoerce, hrest⟩
      obtain ⟨rfl, rfl⟩ := cons.inj heq
      exact bind_iff.2 ⟨w, t₁, hcoerce, hrest⟩

lemma uses_withInst_eq_nil_iff {body : Body} {kind : Kind} {ty : Ty} (huses : body.ExactUses)
    (hu : u ∈ (body.inst i).operands) :
    (body.withInst b pre post kind [u] ty).uses (.inst i) = [] ↔ body.uses (.inst i) = [] := by
  have hvalue : ∀ v ∈ [u], body.hasValue v := by
    intro v hv
    rw [mem_singleton.1 hv]
    exact huses.hasValue hu
  rw [(huses.withInst hvalue).uses_eq_nil_iff rfl, huses.uses_eq_nil_iff rfl]
  constructor
  · intro hno j hj
    refine hno j ?_
    rw [operands_of_bare inst_withInst, if_neg]
    · exact hj
    · intro hsize
      rw [operands_of_not_hasInst (by simp [hasInst, hsize])] at hj
      simp at hj
  · intro hno j hj
    rw [operands_of_bare inst_withInst] at hj
    split at hj
    · exact hno i (mem_singleton.1 hj ▸ hu)
    · exact hno j hj

lemma access_iff : access plan reachable b i t = .ok () t' ↔ match t.state.body.kind i with
    | .storeVar v => t.state.body.hasVar v ∧
      if plan.accesses.isPromotable v then store b i v t = .ok () t' else t = t'
    | .loadVar v => t.state.body.hasVar v ∧
      if plan.accesses.isPromotable v then load plan reachable i v t = .ok () t' else t = t'
    | _ => t = t' := by
  have hneed : ∀ (p : Bool) (op : Traced Renaming Unit),
      (do edit (need p); op : Traced Renaming Unit) t = .ok () t' ↔
        p ∧ op t = .ok () t' := by
    intro p op
    simp only [bind_iff, edit_iff, need_iff]
    constructor
    · rintro ⟨_, _, ⟨_, ⟨hp, rfl⟩, rfl⟩, hop⟩
      exact ⟨hp, hop⟩
    · rintro ⟨hp, hop⟩
      exact ⟨(), t, ⟨_, ⟨hp, rfl⟩, rfl⟩, hop⟩
  change (match t.state.body.kind i with
    | .storeVar v | .loadVar v => do
      edit (need (t.state.body.hasVar v))
      if plan.accesses.isPromotable v then
        if t.state.body.kind i = .storeVar v then store b i v else load plan reachable i v
    | _ => pure () : Traced Renaming Unit) t = .ok () t' ↔ _
  cases hk : t.state.body.kind i
  case storeVar v =>
    refine (hneed _ _).trans (and_congr_right fun _ => ?_)
    rw [if_pos rfl]
    split <;> simp
  case loadVar v =>
    refine (hneed _ _).trans (and_congr_right fun _ => ?_)
    simp only [reduceCtorEq, if_false]
    split <;> simp
  all_goals simp

end Operations

/-! ## One access -/

/-- What becomes of the instruction `i` of block `b`. -/
inductive Accessed (x : Body) (plan : RenamingPlan) (b : BlockId) (i : InstId) (r : Record)
    (y : Body) (h : Pushes) : Record → Body → Pushes → Prop
  | other (hk : plan.accesses.concerns (x.kind i) = false) : Accessed x plan b i r y h r y h
  | load {v : VarId} {w : Value} (hk : x.kind i = .loadVar v) (hv : plan.accesses.isPromotable v)
      (hw : w = held x (current h) v) (hne : w ≠ .inst i)
      (hvalue : y.uses (.inst i) = [] ∨ y.hasValue w) :
      Accessed x plan b i r y h ((r.replace i w).remove i b) ((y.replaceUses (.inst i) w).remove i) h
  | store {v : VarId} {u : Value} {us : List Value} (hk : x.kind i = .storeVar v)
      (hv : plan.accesses.isPromotable v) (hops : (x.inst i).operands = u :: us)
      (huses : y.uses (.inst i) = [])
      (hty : (x.var v).ty.narrows (y.valueTy (r.sub u)) = false) :
      Accessed x plan b i r y h (r.remove i b) (y.remove i) ((b, v, r.sub u) :: h)
  | narrow {v : VarId} {u : Value} {us : List Value} {pre post : List InstId}
      (hk : x.kind i = .storeVar v) (hv : plan.accesses.isPromotable v)
      (hops : (x.inst i).operands = u :: us) (huses : y.uses (.inst i) = [])
      (hty : (x.var v).ty.narrows (y.valueTy (r.sub u)) = true)
      (hrest : r.rest b = pre ++ i :: post) :
      Accessed x plan b i r y h ((r.setRest b (pre ++ ⟨y.insts.size⟩ :: i :: post)).remove i b)
        ((y.withInst b (x.phis b ++ pre) (i :: post) (.convert false false) [r.sub u] (x.var v).ty).remove i)
        ((b, v, .inst ⟨y.insts.size⟩) :: h)

lemma Renames.phiArgs_eq (hr : Renames x plan r y) (hφ : plan.phis.lookup φ = some v) : y.phiArgs φ = r.args φ := by
  have hkind : y.kind φ = .phi ((r.args φ).map Prod.fst) := kind_of_bare (hr.phi φ v hφ)
  have hops : (y.inst φ).operands = (r.args φ).map Prod.snd := operands_of_bare (hr.phi φ v hφ)
  rw [phiArgs, hkind, hops]
  exact (zip_of_prod rfl rfl).symm

section Access

variable {t t' : Trace Renaming} {reachable : Bool} (hplan : Headed x plan)
  (hr : Renames x plan r t.state.body) (m : Mirrors plan h t.state) (hx : x.hasInst i) (hi : i ∈ r.rest b)

include hplan hr m hi

include hx in
lemma store_sound (hk : x.kind i = .storeVar v) (hv : plan.accesses.isPromotable v)
    (hrun : store b i v t = .ok () t') : ∃ r' h', Accessed x plan b i r t.state.body h r' t'.state.body h' ∧
      Mirrors plan h' t'.state := by
  have hin : t.state.body.hasInst i := hasInst_of_le hr.size hx
  obtain ⟨_, us', w, t₁, hops', hcoerce, hconclude⟩ := store_iff.1 hrun
  have hmem : _ ∈ (t.state.body.inst i).operands := hops' ▸ mem_cons_self
  rw [hr.operands_of_rest hplan hx hi] at hops'
  obtain ⟨u, us, hops, rfl, rfl⟩ := map_eq_cons_iff.1 hops'
  cases hty : (x.var v).ty.narrows (t.state.body.valueTy (r.sub u)) with
  | false =>
    rw [← hr.graph.var] at hty
    obtain ⟨rfl, rfl⟩ := (coerce_of_wide hty).1 hcoerce
    obtain ⟨hnil, rfl⟩ := (conclude_iff hin).1 hconclude
    rw [hr.graph.var] at hty
    exact ⟨_, _, .store hk hv hops hnil hty, ((m.withBody _).push hv _ _).congr rfl⟩
  | true =>
    obtain ⟨pre, post, hrest⟩ := append_of_mem hi
    have hlist : t.state.body.instsOf b = (x.phis b ++ pre) ++ i :: post := by
      rw [hr.list, hrest, append_assoc]
    rw [← hr.graph.var] at hty
    obtain ⟨rfl, rfl⟩ := (coerce_of_narrow hr.attached hty hlist (hr.uses.hasValue hmem)).1 hcoerce
    have hin' : (t.state.body.withInst b (x.phis b ++ pre) (i :: post) (.convert false false)
        [r.sub u] (t.state.body.var v).ty).hasInst i :=
      hasInst_of_le (by rw [size_withInst]; exact Nat.le_succ _) hin
    obtain ⟨hnil, rfl⟩ := (conclude_iff (by exact hin')).1 hconclude
    have hnil' := (uses_withInst_eq_nil_iff hr.uses hmem).1 hnil
    rw [hr.graph.var] at hty
    have hnarrow := Accessed.narrow (h := h) hk hv hops hnil' hty hrest
    rw [← hr.graph.var] at hnarrow
    exact ⟨_, _, hnarrow, ((m.withBody _).push hv _ _).congr rfl⟩

lemma access_sound (hrun : access plan reachable b i t = .ok () t') :
    ∃ r' h', Accessed x plan b i r t.state.body h r' t'.state.body h' ∧ Mirrors plan h' t'.state := by
  have hother : plan.accesses.concerns (x.kind i) = false → t = t' →
      ∃ r' h', Accessed x plan b i r t.state.body h r' t'.state.body h' ∧
        Mirrors plan h' t'.state := by
    rintro hk rfl
    exact ⟨r, h, .other hk, m⟩
  rw [access_iff] at hrun
  by_cases hx : x.hasInst i
  case neg =>
    obtain ⟨ty, w, c, hbare⟩ := hr.new i (by simpa [hasInst] using hx) (hr.attached.hasInst (hr.mem_instsOf hi))
    rw [kind_of_bare hbare] at hrun
    exact hother (Bool.eq_false_of_not_eq_true (mt plan.accesses.hasInst_of_concerns hx)) hrun
  have hin : t.state.body.hasInst i := hasInst_of_le hr.size hx
  rw [hr.kind_eq hx (hr.lookup_of_rest hplan hi)] at hrun
  cases hk : x.kind i
  case storeVar v =>
    simp only [hk] at hrun
    obtain ⟨-, hrun⟩ := hrun
    split at hrun
    · exact store_sound hplan hr m hx hi hk ‹_› hrun
    · exact hother (by rw [hk]; exact Bool.eq_false_of_not_eq_true ‹_›) hrun
  case loadVar v =>
    simp only [hk] at hrun
    obtain ⟨-, hrun⟩ := hrun
    split at hrun
    · obtain ⟨w, hw, hne, hvalue, hs⟩ := (load_iff hr.uses hin).1 ⟨t', hrun, rfl⟩
      rw [m.current?, hr.graph.var] at hw
      have hbody : t'.state.body = (t.state.body.replaceUses (.inst i) w).remove i := (uncounted_eq_iff.1 hs).1
      have hload := Accessed.load (b := b) (r := r) hk ‹_› hw hne hvalue
      exact ⟨_, h, hbody ▸ hload, (m.withBody _).congr hs⟩
    · exact hother (by rw [hk]; exact Bool.eq_false_of_not_eq_true ‹_›) hrun
  all_goals
    simp only [hk] at hrun
    exact hother (by rw [hk]; rfl) hrun

include hx in
lemma access_complete (hvar : ∀ v, (x.kind i).var? = some v → x.hasVar v)
    (ha : Accessed x plan b i r t.state.body h r' y' h') :
    ∃ t', access plan reachable b i t = .ok () t' ∧ t'.state.body = y' ∧ Mirrors plan h' t'.state := by
  have hkind : t.state.body.kind i = x.kind i := hr.kind_eq hx (hr.lookup_of_rest hplan hi)
  have hin : t.state.body.hasInst i := hasInst_of_le hr.size hx
  have hcons : ∀ u us, (x.inst i).operands = u :: us →
      (t.state.body.inst i).operands = r.sub u :: us.map r.sub := by
    intro u us hops
    rw [hr.operands_of_rest hplan hx hi, hops]
    rfl
  have hvar' : ∀ v, (x.kind i).var? = some v → t.state.body.hasVar v := fun v hv =>
    (hr.graph.hasVar v).trans (hvar v hv)
  have hstore : ∀ v, x.kind i = .storeVar v → plan.accesses.isPromotable v → ∀ t',
      store b i v t = .ok () t' → access plan reachable b i t = .ok () t' := by
    intro v hk hv t' hrun
    rw [access_iff, hkind, hk]
    exact ⟨hvar' v (by rw [hk]; rfl), by rwa [if_pos hv]⟩
  cases ha with
  | other hk =>
    refine ⟨t, ?_, rfl, m⟩
    rw [access_iff, hkind]
    cases hkx : x.kind i
    case storeVar v =>
      rw [hkx] at hk
      exact ⟨hvar' v (by rw [hkx]; rfl), by rw [if_neg (by simpa [concerns] using hk)]⟩
    case loadVar v =>
      rw [hkx] at hk
      exact ⟨hvar' v (by rw [hkx]; rfl), by rw [if_neg (by simpa [concerns] using hk)]⟩
    all_goals rfl
  | @load v w hk hv hw hne hvalue =>
    rw [held, ← m.current?, ← hr.graph.var] at hw
    have hleads : Leads (load plan reachable i v) t _ := (load_iff hr.uses hin).2 ⟨w, hw, hne, hvalue, rfl⟩
    obtain ⟨t', hrun, hs⟩ := hleads
    refine ⟨t', ?_, (uncounted_eq_iff.1 hs).1, (m.withBody _).congr hs⟩
    rw [access_iff, hkind, hk]
    exact ⟨hvar' v (by rw [hk]; rfl), by rwa [if_pos hv]⟩
  | @store v u us hk hv hxops huses hty =>
    have hcons := hcons u us hxops
    rw [← hr.graph.var] at hty
    have hcoerce := (coerce_of_wide (i := i) hty).2 ⟨rfl, rfl⟩
    exact ⟨_, hstore v hk hv _ (store_iff.2 ⟨_, _, _, _, hcons, hcoerce,
      (conclude_iff hin).2 ⟨huses, rfl⟩⟩), rfl, ((m.withBody _).push hv _ _).congr rfl⟩
  | @narrow v u us pre post hk hv hxops huses hty hrest =>
    have hcons := hcons u us hxops
    have hmem : r.sub u ∈ (t.state.body.inst i).operands := hcons ▸ mem_cons_self
    have hlist : t.state.body.instsOf b = (x.phis b ++ pre) ++ i :: post := by
      rw [hr.list, hrest, append_assoc]
    rw [← hr.graph.var] at hty ⊢
    have hin' : (t.state.body.withInst b (x.phis b ++ pre) (i :: post) (.convert false false)
        [r.sub u] (t.state.body.var v).ty).hasInst i :=
      hasInst_of_le (by rw [size_withInst]; exact Nat.le_succ _) hin
    have hcoerce := (coerce_of_narrow hr.attached hty hlist (hr.uses.hasValue hmem)).2 ⟨rfl, rfl⟩
    have hnil : (t.state.body.withInst b (x.phis b ++ pre) (i :: post) (.convert false false)
        [r.sub u] (t.state.body.var v).ty).uses (.inst i) = [] :=
      (uses_withInst_eq_nil_iff hr.uses hmem).2 huses
    exact ⟨_, hstore v hk hv _ (store_iff.2 ⟨_, _, _, _, hcons, hcoerce,
      (conclude_iff (by exact hin')).2 ⟨hnil, rfl⟩⟩), rfl, ((m.withBody _).push hv _ _).congr rfl⟩

end Access

end MethodIR.Promotion
