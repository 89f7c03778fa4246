import MethodIR.Proofs.ReachingValues

/-!
# Execution of promoted bodies

On every walk from the entry a body does the same before and after promotion. What an instruction gives,
or a variable holds, is the value of what stands for it in the promoted body (`Promotion.Matches`).
-/

namespace MethodIR

open List FlowGraph DepthFirst Function

namespace Execution

variable {D : Type} {I : Interpretation D} {t u u' : Ty} {d : D}

/-- Conversions that the type of a value does not need leave it as it is. Types count only as far as
variables of them can take the value. -/
def Keeps (I : Interpretation D) (u : Ty) (d : D) : Prop :=
  ∀ t : Ty, t.stackClass = u.stackClass → t.narrows u = false → convert I t d = d

lemma Keeps.cut_eq (h : Keeps I u d) (h' : Keeps I u' d) (ht : t.stackClass = u.stackClass)
    (ht' : t.stackClass = u'.stackClass) : cut I t u d = cut I t u' d := by
  cases hn : t.narrows u <;> cases hn' : t.narrows u'
  · simp [cut, hn, hn']
  · simp [cut, hn, hn', h t ht hn]
  · simp [cut, hn, hn', h' t ht' hn']
  · simp [cut, hn, hn']

/-- If it stores to a variable, the values of its operands are kept. -/
def KeepsStored (I : Interpretation D) (body : Body) (e : Evaluation D) : Prop :=
  ∀ v, body.kind e.inst = .storeVar v →
    ∀ q ∈ (body.inst e.inst).operands.zip e.operands, Keeps I (body.valueTy q.1) q.2

lemma value_stored (s : State D) (stored : VarId → Option D) (u : Value) :
    value I { s with stored } u = value I s u := by cases u <;> rfl

lemma value_update_of_ne {s : State D} {j : InstId} {w : Value} (h : w ≠ .inst j) :
    value I { s with values := update s.values j d } w = value I s w := by
  cases w with
  | inst k => exact update_of_ne (fun heq => h (congrArg Value.inst heq)) _ _
  | _ => rfl

end Execution

namespace Promotion

open Execution

structure Staged (x : Body) (plan : RenamingPlan) (entry : BlockId) (isGlobal : VarId → Prop)
    (start out : BlockId → Values) (r : Record) (y : Body) : Prop where
  planned : Planned x plan
  renames : Renames x plan r y
  order : ∀ b, Reachable (Edge x.succs) entry b → b ∈ x.order
  renamed : ∀ b, Reachable (Edge x.succs) entry b → Renamed x plan r y b (start b) (x.nonPhis b) (r.rest b) (out b)
  placed : ∀ b v φ, placedPhi? x plan b v = some φ → start b v = some (.inst φ)
  passed : ∀ b v, placedPhi? x plan b v = none → start b v = none ∨
    ∃ d, StrictlyDominates (Edge x.succs) entry d b ∧ start b v = out d v
  first : ∀ v, placedPhi? x plan entry v = none
  join : ∀ p b v, Reachable (Edge x.succs) entry p → b ∈ x.succs p → isGlobal v →
    placedPhi? x plan b v = none → start b v = out p v
  global : ∀ b pre i post v, Reachable (Edge x.succs) entry b → x.nonPhis b = pre ++ i :: post →
    x.kind i = .loadVar v → plan.accesses.isPromotable v → (∀ j ∈ pre, x.kind j ≠ .storeVar v) →
    isGlobal v
  seen : ∀ b pre i post d, Reachable (Edge x.succs) entry b → x.nonPhis b = pre ++ i :: post →
    .inst d ∈ (x.inst i).operands → Known x plan d ∧ Seen x entry b pre d
  incoming : ∀ p b φ, Reachable (Edge x.succs) entry p → b ∈ x.succs p → φ ∈ x.phis b →
    plan.phis.lookup φ = none → ∃ u, incoming? x (some p) φ = some u ∧ ∀ d, u = .inst d →
      Known x plan d ∧ ∃ a, d ∈ x.instsOf a ∧ Dominates (Edge x.succs) entry a p
  args : ∀ p b φ v, Reachable (Edge x.succs) entry p → b ∈ x.succs p → placedPhi? x plan b v = some φ →
    incoming? y (some p) φ = some (held x (out p) v)
  loads : ∀ b, Reachable (Edge x.succs) entry b → ∀ i ∈ x.nonPhis b, ∀ v, x.kind i = .loadVar v →
    (x.inst i).ty = (x.var v).ty
  stores : ∀ b, Reachable (Edge x.succs) entry b → ∀ i ∈ x.nonPhis b, ∀ v, x.kind i = .storeVar v →
    ∀ u ∈ (x.inst i).operands, (x.valueTy u).stackClass = (x.var v).ty.stackClass

variable {D : Type} {I : Interpretation D} {x y : Body} {plan : RenamingPlan}
  {entry a b p : BlockId} {isGlobal : VarId → Prop} {start out : BlockId → Values} {r : Record}
  {i j φ : InstId} {v : VarId} {u w : Value} {t : Ty} {d m : D} {pre js post : List InstId} {ρ ρ' : Values}
  {s s' : State D}

/-! ## Values that stand for others -/

lemma Seen.mono (h : Seen y entry b js i) (j : InstId) : Seen y entry b (js ++ [j]) i := by
  rcases h with h | h | h
  · exact .inl h
  · exact .inr (.inl (by simp [h]))
  · exact .inr (.inr h)

lemma Seen.of_append (h : Seen x entry b (pre ++ [i]) j) (hne : j ≠ i) : Seen x entry b pre j := by
  rcases h with h | h | h
  · exact .inl h
  · exact .inr (.inl (by simpa [hne] using h))
  · exact .inr (.inr h)

def Above (y : Body) (entry a : BlockId) (w : Value) : Prop :=
  ∀ j, w = .inst j → ∃ c, j ∈ y.instsOf c ∧ Dominates (Edge y.succs) entry c a

lemma Above.seen (h : Above y entry a w) (hab : StrictlyDominates (Edge y.succs) entry a b) (j : InstId)
    (hj : w = .inst j) : Seen y entry b js j := by
  obtain ⟨c, hmem, hdom⟩ := h j hj
  exact .inr (.inr ⟨c, hmem, .trans_right hdom hab⟩)

lemma above_of_seen (hb : Reachable (Edge y.succs) entry b) (hjs : ∀ j ∈ js, j ∈ y.instsOf b)
    (h : ∀ j, w = .inst j → Seen y entry b js j) : Above y entry b w := by
  intro j hj
  rcases h j hj with hmem | hmem | ⟨a, hmem, hdom⟩
  · exact ⟨b, takeWhile_subset _ hmem, .refl hb⟩
  · exact ⟨b, hjs j hmem, .refl hb⟩
  · exact ⟨a, hmem, hdom.2⟩

/-- A value that is there when control is in block `b` after `js`, and can be stored where one of type
`t` can. -/
structure Fits (y : Body) (entry b : BlockId) (js : List InstId) (t : Ty) (w : Value) : Prop where
  seen : ∀ j, w = .inst j → Seen y entry b js j
  class_eq : (y.valueTy w).stackClass = t.stackClass

structure Stands (I : Interpretation D) (y : Body) (entry b : BlockId) (js : List InstId) (s : State D)
    (t : Ty) (d : D) (w : Value) : Prop extends Fits y entry b js t w where
  value : Execution.value I s w = d
  keeps : Keeps I t d → Keeps I (y.valueTy w) d

lemma Fits.mono (h : Fits y entry b js t w) (j : InstId) : Fits y entry b (js ++ [j]) t w :=
  ⟨fun k hk => (h.seen k hk).mono j, h.class_eq⟩

section

variable (h : Stands I y entry b js s t d w)
include h

lemma Stands.execute (hj : ¬Seen y entry b js j) (m : D) :
    Stands I y entry b (js ++ [j]) { s with values := update s.values j m } t d w := by
  refine ⟨h.toFits.mono j, ?_, h.keeps⟩
  rw [value_update_of_ne fun hw => hj (h.seen j hw), h.value]

lemma Stands.extend (j : InstId) : Stands I y entry b (js ++ [j]) s t d w := ⟨h.toFits.mono j, h.value, h.keeps⟩

lemma Stands.stored (stored : VarId → Option D) : Stands I y entry b js { s with stored } t d w :=
  ⟨h.toFits, by rw [value_stored, h.value], h.keeps⟩

end

/-! ## Two states -/

/-- The executions of `x` and `y` match when control is in block `b`, after `pre` in `x` and after `js`
in `y`, where `ρ` tells the values that renaming takes for variables. -/
structure Matches (I : Interpretation D) (x : Body) (plan : RenamingPlan) (entry : BlockId)
    (isGlobal : VarId → Prop) (out : BlockId → Values) (r : Record) (y : Body) (b : BlockId) (ρ : Values)
    (pre js : List InstId) (s s' : State D) : Prop where
  values : ∀ i, Known x plan i → Seen x entry b pre i →
    Stands I y entry b js s' (x.inst i).ty (s.values i) (r.sub (.inst i))
  up : ∀ i a, Known x plan i → Seen x entry b pre i → i ∈ x.instsOf a → Above y entry a (r.sub (.inst i))
  outs : ∀ a, StrictlyDominates (Edge x.succs) entry a b → ∀ v, Above y entry a (held x (out a) v) ∧
    (y.valueTy (held x (out a) v)).stackClass = (x.var v).ty.stackClass
  vars : ∀ v, Fits y entry b js (x.var v).ty (held x ρ v)
  global : ∀ v, plan.accesses.isPromotable v → (isGlobal v ∨ ∃ i ∈ pre, x.kind i = .storeVar v) →
    Stands I y entry b js s' (x.var v).ty (contents I x s v) (held x ρ v)
  other : ∀ v, plan.accesses.isPromotable v = false → s'.stored v = s.stored v

lemma stored_append_iff : (∃ k ∈ pre ++ [i], x.kind k = .storeVar v) ↔
    (∃ k ∈ pre, x.kind k = .storeVar v) ∨ x.kind i = .storeVar v := by
  simp [or_and_right, exists_or]

section Steps

variable (hM : Matches I x plan entry isGlobal out r y b ρ pre js s s')

include hM

lemma Matches.execute (hj : ¬Seen y entry b js j) (m : D) :
    Matches I x plan entry isGlobal out r y b ρ pre (js ++ [j]) s
      { s' with values := update s'.values j m } :=
  ⟨fun i hi hseen => (hM.values i hi hseen).execute hj m, hM.up, hM.outs,
    fun v => (hM.vars v).mono j, fun v hv hnow => (hM.global v hv hnow).execute hj m, hM.other⟩

lemma Matches.extend (j : InstId) : Matches I x plan entry isGlobal out r y b ρ pre (js ++ [j]) s s' :=
  ⟨fun i hi hseen => (hM.values i hi hseen).extend j, hM.up, hM.outs,
    fun v => (hM.vars v).mono j, fun v hv hnow => (hM.global v hv hnow).extend j, hM.other⟩

lemma Matches.observe (hmem : i ∈ x.instsOf b) (hx : x.Attached)
    (hno : ∀ v, x.kind i ≠ .storeVar v) (habove : Above y entry b (r.sub (.inst i)))
    (hi : Stands I y entry b js s' (x.inst i).ty d (r.sub (.inst i))) :
    Matches I x plan entry isGlobal out r y b ρ (pre ++ [i]) js
      { s with values := update s.values i d } s' := by
  refine ⟨fun k hk hseen => ?_, fun k a hk hseen hka => ?_, hM.outs, hM.vars, fun v hv hnow => ?_, hM.other⟩
  · by_cases hki : k = i
    · subst hki
      simpa using hi
    · simpa [hki] using hM.values k hk (hseen.of_append hki)
  · by_cases hki : k = i
    · subst hki
      rwa [hx.eq_of_mem hka hmem]
    · exact hM.up k a hk (hseen.of_append hki) hka
  · exact hM.global v hv (hnow.imp_right fun hst => (stored_append_iff.1 hst).resolve_right (hno v))

lemma Matches.assign (hk : x.kind i = .storeVar v) (hv : plan.accesses.isPromotable v)
    (hw : Stands I y entry b js s' (x.var v).ty m w) :
    Matches I x plan entry isGlobal out r y b (update ρ v (some w)) (pre ++ [i]) js
      { s with stored := update s.stored v (some m) } s' := by
  have hne : ∀ k, Known x plan k → k ≠ i := fun k hknown heq => hknown.2 v (heq ▸ hk)
  refine ⟨fun k hknown hseen => hM.values k hknown (hseen.of_append (hne k hknown)),
    fun k a hknown hseen => hM.up k a hknown (hseen.of_append (hne k hknown)), hM.outs,
    fun v' => ?_, fun v' hv' hnow => ?_, fun v' hv' => ?_⟩
  · by_cases hvv : v' = v
    · subst hvv
      simpa [held] using hw.toFits
    · simpa [held, hvv] using hM.vars v'
  · by_cases hvv : v' = v
    · subst hvv
      simpa [held, contents] using hw
    · have hnow' := hnow.imp_right fun hst => (stored_append_iff.1 hst).resolve_right (by simp [hk, Ne.symm hvv])
      simpa [held, contents, hvv] using hM.global v' hv' hnow'
  · have hvv : v' ≠ v := fun heq => by simp [heq, hv] at hv'
    simp [hvv, hM.other v' hv']

lemma Matches.pass (hk : x.kind i = .storeVar v) (hv : plan.accesses.isPromotable v = false) :
    Matches I x plan entry isGlobal out r y b ρ (pre ++ [i]) js s s' := by
  have hne : ∀ k, Known x plan k → k ≠ i := fun k hknown heq => hknown.2 v (heq ▸ hk)
  refine ⟨fun k hknown hseen => hM.values k hknown (hseen.of_append (hne k hknown)),
    fun k a hknown hseen => hM.up k a hknown (hseen.of_append (hne k hknown)), hM.outs, hM.vars,
    fun v' hv' hnow => hM.global v' hv' (hnow.imp_right fun hst => (stored_append_iff.1 hst).resolve_right ?_), hM.other⟩
  rw [hk]
  rintro ⟨⟩
  simp [hv'] at hv

lemma Matches.assignBoth (hv : plan.accesses.isPromotable v = false) (m : D) :
    Matches I x plan entry isGlobal out r y b ρ pre js { s with stored := update s.stored v (some m) }
      { s' with stored := update s'.stored v (some m) } := by
  refine ⟨fun k hk hseen => (hM.values k hk hseen).stored _, hM.up, hM.outs, hM.vars,
    fun v' hv' hnow => ?_, fun v' hv' => ?_⟩
  · have hvv : v' ≠ v := fun heq => by simp [← heq, hv'] at hv
    simpa [contents, hvv] using (hM.global v' hv' hnow).stored _
  · simp [update_apply, hM.other v' hv']

lemma Matches.operand (hr : Renames x plan r y) (hu : ∀ d, u = .inst d → Known x plan d ∧ Seen x entry b pre d) :
    Stands I y entry b js s' (x.valueTy u) (value I s u) (r.sub u) := by
  cases u with
  | inst k => exact hM.values k (hu k rfl).1 (hu k rfl).2
  | const c =>
    rw [hr.settled (.const c) fun _ _ h => by simp at h]
    exact ⟨⟨by simp, rfl⟩, rfl, id⟩
  | undef t =>
    rw [hr.settled (.undef t) fun _ _ h => by simp at h]
    exact ⟨⟨by simp, rfl⟩, rfl, id⟩
  | arg a =>
    rw [hr.settled (.arg a) fun _ _ h => by simp at h]
    have hty : y.valueTy (.arg a) = x.valueTy (.arg a) := Body.valueTy_of_args hr.graph.args (by simp)
    exact ⟨⟨by simp, by rw [hty]⟩, rfl, by rw [hty]; exact id⟩

end Steps

/-! ## Through a block -/

section Block

variable (S : Staged x plan entry isGlobal start out r y) (hb : Reachable (Edge x.succs) entry b)

include S hb

lemma Staged.not_seen (hrest : r.rest b = js ++ j :: post) : ¬Seen y entry b js j := by
  have hnodup := S.renames.attached.nodup b
  rw [S.renames.list, hrest] at hnodup
  have hmem : j ∈ y.instsOf b := by
    rw [S.renames.list, hrest]
    simp
  rintro (hphi | hjs | ⟨a, ha, hdom⟩)
  · rw [S.renames.phis S.planned (S.order b hb)] at hphi
    exact (nodup_append.1 hnodup).2.2 j hphi j (by simp) rfl
  · exact (nodup_append.1 hnodup.of_append_right).2.2 j hjs j (by simp) rfl
  · exact hdom.1 (S.renames.attached.eq_of_mem ha hmem)

lemma Staged.reachable : Reachable (Edge y.succs) entry b := by
  have hsuccs : y.succs = x.succs := funext S.renames.graph.succs
  rwa [hsuccs]

variable {post post' is js' : List InstId} (hsplit : x.nonPhis b = pre ++ i :: post)
  (hM : Matches I x plan entry isGlobal out r y b ρ pre js s s')

include hsplit

include hM

lemma Matches.stands (hu : u ∈ (x.inst i).operands) :
    Stands I y entry b js s' (x.valueTy u) (value I s u) (r.sub u) :=
  hM.operand S.renames fun d hd => S.seen b pre i post d hb hsplit (hd ▸ hu)

lemma Matches.cut_eq (hk : x.kind i = .storeVar v) (hu : u ∈ (x.inst i).operands)
    (hkeep : KeepsStored I x ⟨i, (x.inst i).operands.map (value I s)⟩) :
    toStore I x s v u = cut I (x.var v).ty (y.valueTy (r.sub u)) (value I s u) ∧
      Keeps I (y.valueTy (r.sub u)) (value I s u) := by
  have hst := hM.stands S hb hsplit hu
  have hclass : (x.valueTy u).stackClass = (x.var v).ty.stackClass := S.stores b hb i (by simp [hsplit]) v hk u hu
  have hkept : Keeps I (x.valueTy u) (value I s u) := by
    refine hkeep v hk (u, value I s u) ?_
    exact map_prod_left_eq_zip (l := (x.inst i).operands) ▸ mem_map_of_mem hu
  exact ⟨hkept.cut_eq (hst.keeps hkept) hclass.symm (hst.class_eq.trans hclass).symm, hst.keeps hkept⟩

lemma Matches.other_step (hrest : r.rest b = js ++ i :: post') (hk : plan.accesses.concerns (x.kind i) = false)
    (hkeep : KeepsStored I x ⟨i, (x.inst i).operands.map (value I s)⟩) :
    Matches I x plan entry isGlobal out r y b ρ (pre ++ [i]) (js ++ [i]) (step I x s i) (step I y s' i) ∧
      (y.inst i).operands.map (value I s') = (x.inst i).operands.map (value I s) := by
  have hmem : i ∈ x.instsOf b := Body.mem_of_mem_nonPhis (by simp [hsplit])
  have hin := S.planned.attached.hasInst hmem
  have hi : i ∈ r.rest b := by simp [hrest]
  have hkind := S.renames.kind_eq hin (S.renames.lookup_of_rest S.planned.toHeaded hi)
  have hops := S.renames.operands_of_rest S.planned.toHeaded hin hi
  have hty := S.renames.ty i hin
  have hself := S.renames.sub_of_not_concerns hk
  have hmap : (y.inst i).operands.map (value I s') = (x.inst i).operands.map (value I s) := by
    rw [hops, map_map]
    exact map_congr_left fun u hu => (hM.stands S hb hsplit hu).value
  have hgive : ∀ d d' : D, d = d' → (∀ v, x.kind i ≠ .storeVar v) →
      Matches I x plan entry isGlobal out r y b ρ (pre ++ [i]) (js ++ [i])
        { s with values := update s.values i d }
        { s' with values := update s'.values i d' } := by
    rintro d _ rfl hno
    have hseen : ∀ j, Value.inst i = .inst j → Seen y entry b (js ++ [i]) j := fun j hj =>
      .inr (.inl (by simp [Value.inst.inj hj]))
    refine (hM.execute (S.not_seen hb hrest) d).observe hmem S.planned.attached hno ?_ ?_
    · rw [hself]
      refine above_of_seen (S.reachable hb) (fun j hj => ?_) hseen
      rw [S.renames.list, hrest]
      rcases mem_append.1 hj with hj | hj
      · simp [hj]
      · simp [mem_singleton.1 hj]
    · rw [hself]
      have hvalueTy : y.valueTy (.inst i) = (x.inst i).ty := hty
      exact ⟨⟨hseen, by rw [hvalueTy]⟩, update_self _ _ _, by rw [hvalueTy]; exact id⟩
  refine ⟨?_, hmap⟩
  rw [step, step, hkind]
  cases hki : x.kind i
  case storeVar v =>
    have hv : plan.accesses.isPromotable v = false := by rwa [hki] at hk
    rw [hops]
    cases hu : (x.inst i).operands with
    | nil => exact (hM.extend i).pass hki hv
    | cons u us =>
      have hmem : u ∈ (x.inst i).operands := by simp [hu]
      obtain ⟨hcut, -⟩ := hM.cut_eq S hb hsplit hki hmem hkeep
      have hvalue := (hM.stands S hb hsplit hmem).value
      have hstore : toStore I y s' v (r.sub u) = toStore I x s v u := by
        rw [hcut, toStore, S.renames.graph.var, hvalue]
      simp only [map_cons, hstore]
      exact ((hM.extend i).pass hki hv).assignBoth hv _
  case loadVar v =>
    have hv : plan.accesses.isPromotable v = false := by rwa [hki] at hk
    refine hgive _ _ ?_ (by simp [hki])
    rw [contents, contents, S.renames.graph.var, hM.other v hv]
  all_goals exact hgive _ _ (by rw [hmap, hty]) (by simp [hki])

lemma Matches.load_step (hjs : ∀ j ∈ js, j ∈ y.instsOf b) (hk : x.kind i = .loadVar v)
    (hv : plan.accesses.isPromotable v) (hw : r.sub (.inst i) = held x ρ v) :
    Matches I x plan entry isGlobal out r y b ρ (pre ++ [i]) js (step I x s i) s' := by
  have hnow : isGlobal v ∨ ∃ j ∈ pre, x.kind j = .storeVar v := by
    by_cases hstore : ∃ j ∈ pre, x.kind j = .storeVar v
    · exact .inr hstore
    · exact .inl (S.global b pre i post v hb hsplit hk hv fun j hj heq => hstore ⟨j, hj, heq⟩)
  have hst := hM.global v hv hnow
  rw [← hw, ← S.loads b hb i (by simp [hsplit]) v hk] at hst
  have hstep : step I x s i = { s with values := update s.values i (contents I x s v) } := by
    rw [step, hk]
  rw [hstep]
  refine hM.observe (Body.mem_of_mem_nonPhis (by simp [hsplit])) S.planned.attached (by simp [hk]) ?_ hst
  exact above_of_seen (S.reachable hb) hjs hst.seen

section Stores

variable {us : List Value} (hk : x.kind i = .storeVar v) (hv : plan.accesses.isPromotable v)
  (hops : (x.inst i).operands = u :: us)
  (hkeep : KeepsStored I x ⟨i, (x.inst i).operands.map (value I s)⟩)

include hk hv hops hkeep

lemma Matches.store_step (hty : (x.var v).ty.narrows (y.valueTy (r.sub u)) = false) :
    Matches I x plan entry isGlobal out r y b (update ρ v (some (r.sub u))) (pre ++ [i]) js
      (step I x s i) s' := by
  have hmem : u ∈ (x.inst i).operands := by simp [hops]
  obtain ⟨hcut, hkept⟩ := hM.cut_eq S hb hsplit hk hmem hkeep
  have hst := hM.stands S hb hsplit hmem
  have hstep : step I x s i =
      { s with stored := update s.stored v (some (value I s u)) } := by
    rw [step, hk, hops]
    simp only [hcut, cut, hty, Bool.false_eq_true, if_false]
  rw [hstep]
  refine hM.assign hk hv ⟨⟨hst.seen, ?_⟩, hst.value, fun _ => hkept⟩
  exact hst.class_eq.trans (S.stores b hb i (by simp [hsplit]) v hk u hmem)

lemma Matches.narrow_step (hty : (x.var v).ty.narrows (y.valueTy (r.sub u)) = true)
    (hrest : r.rest b = js ++ j :: post') (hj : (y.inst j).bare = conversion (x.var v).ty (r.sub u) b) :
    Matches I x plan entry isGlobal out r y b (update ρ v (some (.inst j))) (pre ++ [i])
      (js ++ [j]) (step I x s i) (step I y s' j) := by
  have hmem : u ∈ (x.inst i).operands := by simp [hops]
  obtain ⟨hcut, -⟩ := hM.cut_eq S hb hsplit hk hmem hkeep
  have hst := hM.stands S hb hsplit hmem
  have hstep : step I x s i = { s with
      stored := update s.stored v (some (convert I (x.var v).ty (value I s u))) } := by
    rw [step, hk, hops]
    simp only [hcut, cut, hty, if_true]
  have hkind : y.kind j = .convert false false := Body.kind_of_bare hj
  have hty' : (y.inst j).ty = (x.var v).ty := Body.ty_of_bare hj
  have hops' : (y.inst j).operands = [r.sub u] := Body.operands_of_bare hj
  have hstep' : step I y s' j = { s' with
      values := update s'.values j (convert I (x.var v).ty (value I s u)) } := by
    rw [step, hkind, hops', hty']
    simp only [map_cons, map_nil, hst.value, convert]
  rw [hstep, hstep']
  refine (hM.execute (S.not_seen hb hrest) _).assign hk hv ⟨⟨fun k hk => ?_, ?_⟩, ?_, ?_⟩
  · exact .inr (.inl (by simp [Value.inst.inj hk]))
  · exact congrArg Ty.stackClass hty'
  · exact update_self _ _ _
  · have hvalueTy : y.valueTy (.inst j) = (x.var v).ty := hty'
    rw [hvalueTy]
    exact id

end Stores

end Block

def stays (x : Body) (plan : RenamingPlan) (i : InstId) : Bool :=
  (plan.phis.lookup i).isNone && !plan.accesses.concerns (x.kind i)

def wasThere (x : Body) (plan : RenamingPlan) (i : InstId) : Bool := (plan.phis.lookup i).isNone && x.hasInst i

section Run

variable (S : Staged x plan entry isGlobal start out r y) (hb : Reachable (Edge x.succs) entry b)

include S hb

lemma Matches.block (hR : Renamed x plan r y b ρ is js' ρ')
    (hsplit : x.nonPhis b = pre ++ is) (hrest : r.rest b = js ++ js')
    (hM : Matches I x plan entry isGlobal out r y b ρ pre js s s')
    (hkeep : ∀ e ∈ evaluations I x s is, KeepsStored I x e) :
    Matches I x plan entry isGlobal out r y b ρ' (pre ++ is) (js ++ js') (is.foldl (step I x) s)
        (js'.foldl (step I y) s') ∧ (evaluations I x s is).filter (stays x plan ·.inst) =
        (evaluations I y s' js').filter (wasThere x plan ·.inst) := by
  induction hR generalizing pre js s s' with
  | nil => exact ⟨by simpa using hM, rfl⟩
  | @other _ _ i is js' hk _ ih =>
    have hi := hkeep ⟨i, _⟩ (by rw [evaluations]; exact mem_cons_self ..)
    obtain ⟨hnext, hmap⟩ := hM.other_step S hb hsplit hrest hk hi
    have hmem : i ∈ x.nonPhis b := by simp [hsplit]
    have hin := S.planned.hasInst_of_nonPhis hmem
    have hphi := S.planned.lookup_eq_none (S.planned.nonPhis b (S.order b hb) i hmem)
    have hlast := ih (by simp [hsplit]) (by simp [hrest]) hnext
      fun e he => hkeep e (by rw [evaluations]; exact mem_cons_of_mem _ he)
    simpa [evaluations, stays, wasThere, hk, hphi, hin, hmap] using hlast
  | @load _ _ i is js' v hk hv hw _ _ ih =>
    have hjs : ∀ j ∈ js, j ∈ y.instsOf b := fun j hj => by
      rw [S.renames.list, hrest]
      simp [hj]
    have hnext := hM.load_step S hb hsplit hjs hk hv hw
    have hlast := ih (by simp [hsplit]) hrest hnext
      fun e he => hkeep e (by rw [evaluations]; exact mem_cons_of_mem _ he)
    simpa [evaluations, stays, hk, Accesses.concerns, hv] using hlast
  | @store _ _ i is js' v u us hk hv hops _ hty _ ih =>
    have hi := hkeep ⟨i, _⟩ (by rw [evaluations]; exact mem_cons_self ..)
    have hnext := hM.store_step S hb hsplit hk hv hops hi hty
    have hlast := ih (by simp [hsplit]) hrest hnext
      fun e he => hkeep e (by rw [evaluations]; exact mem_cons_of_mem _ he)
    simpa [evaluations, stays, hk, Accesses.concerns, hv] using hlast
  | @narrow _ _ i j is js' v u us hk hv hops _ hty new _ hj _ ih =>
    have hi := hkeep ⟨i, _⟩ (by rw [evaluations]; exact mem_cons_self ..)
    have hnext := hM.narrow_step S hb hsplit hk hv hops hi hty hrest hj
    have hlast := ih (by simp [hsplit]) (by simp [hrest]) hnext
      fun e he => hkeep e (by rw [evaluations]; exact mem_cons_of_mem _ he)
    have hnew : x.hasInst j = false := by simpa [Body.hasInst] using new
    simpa [evaluations, stays, wasThere, hk, Accesses.concerns, hv, hnew] using hlast

end Run

/-! ## From block to block -/

lemma lookup_map_value {α β γ : Type} [DecidableEq α] (f : β → γ) (l : List (α × β)) (a : α) :
    (l.map (Prod.map id f)).lookup a = (l.lookup a).map f := by
  induction l with
  | nil => rfl
  | cons q l ih =>
    obtain ⟨c, e⟩ := q
    cases h : a == c <;> simp [lookup_cons, h, ih]

section Phis

variable {origin : Option BlockId} (S : Staged x plan entry isGlobal start out r y)
  (hb : Reachable (Edge x.succs) entry b)

include S

lemma Staged.incoming?_eq (hφ : φ ∈ x.phis b) (hknown : plan.phis.lookup φ = none) :
    incoming? y origin φ = (incoming? x origin φ).map r.sub := by
  have hin := S.planned.attached.hasInst (takeWhile_subset _ hφ)
  have hgone := S.renames.not_gone_of_isPhi (Body.isPhi_of_mem_phis hφ)
  rw [incoming?, incoming?, Body.phiArgs, Body.phiArgs, S.renames.kind_eq hin hknown,
    S.renames.operands_eq hin hgone hknown]
  cases origin with
  | none => rfl
  | some p =>
    cases x.kind φ
    case phi blocks => simp only [Option.bind_some, zip_map_right, lookup_map_value]
    all_goals rfl

include hb

lemma Staged.phis_eq : y.phis b = x.phis b := S.renames.phis S.planned (S.order b hb)

lemma Staged.above_phi (hφ : φ ∈ x.phis b) : r.sub (.inst φ) = .inst φ ∧ Above y entry b (.inst φ) := by
  refine ⟨S.renames.sub_of_mem_phis hφ, fun j hj => ⟨b, ?_, .refl (S.reachable hb)⟩⟩
  rw [← Value.inst.inj hj, S.renames.list]
  exact mem_append_left _ hφ

lemma Staged.stands_phi (hφ : φ ∈ x.phis b)
    (hvalue : (incoming? y origin φ).map (value I s') = (incoming? x origin φ).map (value I s)) :
    Stands I y entry b [] (enter I y origin b s') (x.inst φ).ty ((enter I x origin b s).values φ) (.inst φ) := by
  have hty : y.valueTy (.inst φ) = (x.inst φ).ty :=
    S.renames.ty φ (S.planned.attached.hasInst (takeWhile_subset _ hφ))
  have hφ' : φ ∈ y.phis b := (S.phis_eq hb).symm ▸ hφ
  refine ⟨⟨fun j hj => .inl (Value.inst.inj hj ▸ hφ'), by rw [hty]⟩, ?_, by rw [hty]; exact id⟩
  change (enter I y origin b s').values φ = _
  have hty' : (y.inst φ).ty = (x.inst φ).ty := hty
  simp only [enter, if_pos hφ', if_pos hφ, hvalue, hty']

lemma Staged.entering_eq (hvalue : ∀ φ ∈ x.phis b, plan.phis.lookup φ = none →
      (incoming? y origin φ).map (value I s') = (incoming? x origin φ).map (value I s)) :
    (entering I x origin b s).filter (stays x plan ·.inst) =
      (entering I y origin b s').filter (wasThere x plan ·.inst) := by
  rw [entering, entering, S.phis_eq hb, filter_map, filter_map]
  have hkeep : ∀ φ ∈ x.phis b, stays x plan φ = (plan.phis.lookup φ).isNone ∧
      wasThere x plan φ = (plan.phis.lookup φ).isNone := by
    intro φ hφ
    have hin := S.planned.attached.hasInst (takeWhile_subset _ hφ)
    have hphi := Body.isPhi_of_mem_phis hφ
    have hnot : plan.accesses.concerns (x.kind φ) = false := by
      cases hk : x.kind φ <;> simp_all [Kind.isPhi, Accesses.concerns]
    simp [stays, wasThere, hnot, hin]
  have hleft : (x.phis b).filter (fun φ => stays x plan φ) =
      (x.phis b).filter fun φ => (plan.phis.lookup φ).isNone :=
    filter_congr fun φ hφ => (hkeep φ hφ).1
  have hright : (x.phis b).filter (fun φ => wasThere x plan φ) =
      (x.phis b).filter fun φ => (plan.phis.lookup φ).isNone :=
    filter_congr fun φ hφ => (hkeep φ hφ).2
  simp only [comp_def, hleft, hright]
  refine map_congr_left fun φ hφ => ?_
  obtain ⟨hmem, hnone⟩ := mem_filter.1 hφ
  have hφ := hvalue φ hmem (by simpa using hnone)
  cases hx : incoming? x origin φ <;> cases hy : incoming? y origin φ <;> simp_all

omit hb in
lemma Staged.stands_above (hst : Stands I y entry p js s' t d w) (habove : Above y entry a w)
    (hab : StrictlyDominates (Edge y.succs) entry a b) :
    Stands I y entry b [] (enter I y origin b s') t d w := by
  refine ⟨⟨habove.seen hab, hst.class_eq⟩, ?_, hst.keeps⟩
  rw [← hst.value]
  cases w with
  | inst j =>
    obtain ⟨c, hmem, hdom⟩ := habove j rfl
    exact if_neg fun hphi => (StrictlyDominates.trans_right hdom hab).1
      (S.renames.attached.eq_of_mem hmem (takeWhile_subset _ hphi))
  | _ => rfl

end Phis

lemma seen_of_dominates (hmem : i ∈ x.instsOf a) (hdom : Dominates (Edge x.succs) entry a p) :
    Seen x entry p (x.nonPhis p) i := by
  by_cases hap : a = p
  · rw [hap, ← Body.phis_append_nonPhis] at hmem
    exact (mem_append.1 hmem).imp_right .inl
  · exact .inr (.inr ⟨a, hmem, hap, hdom⟩)

section Enter

variable {bs : List BlockId}

variable (S : Staged x plan entry isGlobal start out r y)

include S

lemma Staged.succs_eq : y.succs = x.succs := funext S.renames.graph.succs

lemma Staged.fits_placed (hb : Reachable (Edge x.succs) entry b)
    (hφ : placedPhi? x plan b v = some φ) : held x (start b) v = .inst φ ∧ φ ∈ y.phis b ∧
      y.valueTy (.inst φ) = (x.var v).ty ∧ Fits y entry b [] (x.var v).ty (.inst φ) := by
  obtain ⟨hlookup, hblock⟩ := (placedPhi?_eq_some_iff S.planned).1 hφ
  obtain ⟨c, hc, hmem⟩ := S.planned.mem_phis hlookup
  obtain rfl : b = c := Option.some.inj (hblock.symm.trans hc)
  obtain ⟨_, -, hbare⟩ := S.planned.phi φ v hlookup
  have hty : y.valueTy (.inst φ) = (x.var v).ty :=
    (S.renames.ty φ (S.planned.hasInst hlookup)).trans (Body.ty_of_bare hbare)
  have hmem' : φ ∈ y.phis b := (S.phis_eq hb).symm ▸ hmem
  refine ⟨by simp [held, S.placed b v φ hφ], hmem', hty, fun j hj => ?_, by rw [hty]⟩
  exact .inl (Value.inst.inj hj ▸ hmem')

section Next

variable (hp : Reachable (Edge x.succs) entry p) (hedge : b ∈ x.succs p)
  (hM : Matches I x plan entry isGlobal out r y p (out p) (x.nonPhis p) (r.rest p) s s')

include hp hedge hM

lemma Matches.incoming_value (hφ : φ ∈ x.phis b) (hknown : plan.phis.lookup φ = none) :
    (incoming? y (some p) φ).map (value I s') = (incoming? x (some p) φ).map (value I s) := by
  obtain ⟨u, hu, hseen⟩ := S.incoming p b φ hp hedge hφ hknown
  have hst := hM.operand S.renames fun d hd => by
    obtain ⟨hd, a, hmem, hdom⟩ := hseen d hd
    exact ⟨hd, seen_of_dominates hmem hdom⟩
  rw [S.incoming?_eq hφ hknown, hu]
  exact congrArg some hst.value

lemma Matches.outs_next (hab : StrictlyDominates (Edge x.succs) entry a b) (v : VarId) :
    Above y entry a (held x (out a) v) ∧ (y.valueTy (held x (out a) v)).stackClass = (x.var v).ty.stackClass := by
  have hap := hab.2.of_edge hab.1 hp hedge
  by_cases heq : a = p
  · subst heq
    have hfit := hM.vars v
    refine ⟨above_of_seen (S.reachable hp) (fun j hj => ?_) hfit.seen, hfit.class_eq⟩
    rw [S.renames.list]
    exact mem_append_right _ hj
  · exact hM.outs a ⟨heq, hap⟩ v

lemma Matches.start_above (hnone : placedPhi? x plan b v = none) :
    held x (start b) v = .undef (x.var v).ty ∨ ∃ a, StrictlyDominates (Edge x.succs) entry a b ∧
      Above y entry a (held x (start b) v) ∧
      (y.valueTy (held x (start b) v)).stackClass = (x.var v).ty.stackClass := by
  rcases S.passed b v hnone with hstart | ⟨a, hab, hstart⟩
  · exact .inl (by simp [held, hstart])
  · have heq : held x (start b) v = held x (out a) v := by rw [held, hstart, held]
    rw [heq]
    exact .inr ⟨a, hab, hM.outs_next S hp hedge hab v⟩

lemma Matches.vars_next (v : VarId) : Fits y entry b [] (x.var v).ty (held x (start b) v) := by
  cases hφ : placedPhi? x plan b v with
  | some φ =>
    obtain ⟨hheld, -, -, hfit⟩ := S.fits_placed (hp.snoc hedge) hφ
    rwa [hheld]
  | none =>
    rcases hM.start_above S hp hedge hφ with hheld | ⟨a, hab, habove, hclass⟩
    · rw [hheld]
      exact ⟨by simp, rfl⟩
    · exact ⟨habove.seen (S.succs_eq ▸ hab), hclass⟩

lemma Matches.global_next (hv : plan.accesses.isPromotable v) (hglobal : isGlobal v) :
    Stands I y entry b [] (enter I y (some p) b s') (x.var v).ty (contents I x s v) (held x (start b) v) := by
  have hst := hM.global v hv (.inl hglobal)
  cases hφ : placedPhi? x plan b v with
  | some φ =>
    obtain ⟨hheld, hmem, hty, hfit⟩ := S.fits_placed (hp.snoc hedge) hφ
    rw [hheld]
    refine ⟨hfit, ?_, by rw [hty]; exact id⟩
    change (enter I y (some p) b s').values φ = _
    simp only [enter, if_pos hmem, S.args p b φ v hp hedge hφ]
    exact hst.value
  | none =>
    have heq : held x (start b) v = held x (out p) v := by
      rw [held, S.join p b v hp hedge hglobal hφ, held]
    rw [← heq] at hst
    rcases hM.start_above S hp hedge hφ with hheld | ⟨a, hab, habove, -⟩
    · rw [hheld] at hst ⊢
      exact ⟨⟨by simp, rfl⟩, hst.value, hst.keeps⟩
    · exact S.stands_above hst habove (S.succs_eq ▸ hab)

lemma Matches.entered : Matches I x plan entry isGlobal out r y b (start b) [] []
    (enter I x (some p) b s) (enter I y (some p) b s') := by
  have hb : Reachable (Edge x.succs) entry b := hp.snoc hedge
  have hcases : ∀ i, Known x plan i → Seen x entry b [] i → i ∈ x.phis b ∨
      ∃ a, i ∈ x.instsOf a ∧ StrictlyDominates (Edge x.succs) entry a b ∧ i ∉ x.phis b := by
    rintro i - (hphi | hnil | ⟨a, hmem, hdom⟩)
    · exact .inl hphi
    · simp at hnil
    · exact .inr ⟨a, hmem, hdom, fun hphi => hdom.1 (S.planned.attached.eq_of_mem hmem (takeWhile_subset _ hphi))⟩
  refine ⟨fun i hknown hseen => ?_, fun i a hknown hseen hmem => ?_,
    fun a hab v => hM.outs_next S hp hedge hab v, hM.vars_next S hp hedge,
    fun v hv hnow => ?_, hM.other⟩
  · rcases hcases i hknown hseen with hphi | ⟨a, hmem, hab, hnot⟩
    · rw [(S.above_phi hb hphi).1]
      exact S.stands_phi hb hphi (hM.incoming_value S hp hedge hphi hknown.1)
    · have hseen := seen_of_dominates hmem (hab.2.of_edge hab.1 hp hedge)
      have hst : Stands I y entry b [] (enter I y (some p) b s') _ _ _ :=
        S.stands_above (hM.values i hknown hseen) (hM.up i a hknown hseen hmem) (S.succs_eq ▸ hab)
      rwa [show (enter I x (some p) b s).values i = s.values i from if_neg hnot]
  · rcases hcases i hknown hseen with hphi | ⟨a', hmem', hab, hnot⟩
    · obtain ⟨hsub, habove⟩ := S.above_phi hb hphi
      rwa [hsub, S.planned.attached.eq_of_mem hmem (takeWhile_subset _ hphi)]
    · obtain rfl := S.planned.attached.eq_of_mem hmem hmem'
      exact hM.up i a hknown (seen_of_dominates hmem (hab.2.of_edge hab.1 hp hedge)) hmem
  · have hst := hM.global_next S hp hedge hv (by simpa using hnow)
    exact hst

end Next

lemma Staged.matches_entry (values : InstId → D) : Matches I x plan entry isGlobal out r y entry (start entry) [] []
      (enter I x none entry { values }) (enter I y none entry { values }) := by
  have hentry : Reachable (Edge x.succs) entry entry := .refl
  have hheld : ∀ v, held x (start entry) v = .undef (x.var v).ty := by
    intro v
    rcases S.passed entry v (S.first v) with hstart | ⟨a, hab, -⟩
    · simp [held, hstart]
    · exact absurd hab not_strictlyDominates_root
  have hphis : ∀ i, Seen x entry entry [] i → i ∈ x.phis entry := by
    rintro i (hphi | hnil | ⟨a, -, hdom⟩)
    · exact hphi
    · simp at hnil
    · exact absurd hdom not_strictlyDominates_root
  refine ⟨fun i _ hseen => ?_, fun i a _ hseen hmem => ?_,
    fun a hab => absurd hab not_strictlyDominates_root, fun v => ?_, fun v _ _ => ?_, fun _ _ => rfl⟩
  · rw [(S.above_phi hentry (hphis i hseen)).1]
    exact S.stands_phi hentry (hphis i hseen) rfl
  · obtain ⟨hsub, habove⟩ := S.above_phi hentry (hphis i hseen)
    rwa [hsub, S.planned.attached.eq_of_mem hmem (takeWhile_subset _ (hphis i hseen))]
  · rw [hheld]
    exact ⟨by simp, rfl⟩
  · rw [hheld]
    exact ⟨⟨by simp, rfl⟩, rfl, id⟩

lemma Matches.left (hb : Reachable (Edge x.succs) entry b)
    (hM : Matches I x plan entry isGlobal out r y b (start b) [] [] (enter I x origin b s) (enter I y origin b s'))
    (hkeep : ∀ e ∈ evaluations I x (enter I x origin b s) (x.nonPhis b), KeepsStored I x e) :
    Matches I x plan entry isGlobal out r y b (out b) (x.nonPhis b) (r.rest b)
        (leave I x origin b s) (leave I y origin b s') ∧
      (evaluations I x (enter I x origin b s) (x.nonPhis b)).filter (stays x plan ·.inst) =
        (evaluations I y (enter I y origin b s') (y.nonPhis b)).filter (wasThere x plan ·.inst) := by
  have hrest : y.nonPhis b = r.rest b := by
    have hlist := S.renames.list b
    rw [← Body.phis_append_nonPhis, S.phis_eq hb] at hlist
    exact append_cancel_left hlist
  rw [leave, leave, hrest]
  exact hM.block S hb (S.renamed b hb) rfl rfl hkeep

lemma Matches.traced (hp : Reachable (Edge x.succs) entry p)
    (hM : Matches I x plan entry isGlobal out r y p (out p) (x.nonPhis p) (r.rest p) s s') (hbs : (p :: bs).IsChain fun a b => b ∈ x.succs a)
    (hkeep : ∀ es ∈ trace I x (some p) s bs, ∀ e ∈ es, KeepsStored I x e) :
    (trace I x (some p) s bs).map (·.filter (stays x plan ·.inst)) =
      (trace I y (some p) s' bs).map (·.filter (wasThere x plan ·.inst)) := by
  induction bs generalizing p s s' with
  | nil => rfl
  | cons b bs ih =>
    rw [isChain_cons_cons] at hbs
    have hb := hp.snoc hbs.1
    simp only [trace, mem_cons, forall_eq_or_imp, mem_append] at hkeep
    have hentering := S.entering_eq hb fun φ => hM.incoming_value S hp hbs.1
    obtain ⟨hlast, hevals⟩ := (hM.entered S hp hbs.1).left S hb fun e he => hkeep.1 e (.inr he)
    simp only [trace, map_cons, filter_append, hentering, hevals]
    exact congrArg _ (ih hb hlast hbs.2 hkeep.2)

lemma Staged.trace_eq (values : InstId → D) (hbs : (entry :: bs).IsChain fun a b => b ∈ x.succs a)
    (hkeep : ∀ es ∈ trace I x none { values } (entry :: bs), ∀ e ∈ es, KeepsStored I x e) :
    (trace I x none { values } (entry :: bs)).map (·.filter (stays x plan ·.inst)) =
      (trace I y none { values } (entry :: bs)).map (·.filter (wasThere x plan ·.inst)) := by
  have hentry : Reachable (Edge x.succs) entry entry := .refl
  simp only [trace, mem_cons, forall_eq_or_imp, mem_append] at hkeep
  have hentering : (entering I x none entry { values }).filter (stays x plan ·.inst) =
      (entering I y none entry { values }).filter (wasThere x plan ·.inst) :=
    S.entering_eq hentry fun _ _ _ => rfl
  obtain ⟨hlast, hevals⟩ := (S.matches_entry (I := I) values).left S hentry fun e he => hkeep.1 e (.inr he)
  simp only [trace, map_cons, filter_append, hentering, hevals]
  exact congrArg _ (hlast.traced S hentry hbs hkeep.2)

end Enter

end Promotion

end MethodIR
